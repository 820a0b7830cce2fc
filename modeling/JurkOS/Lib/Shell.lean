import JurkOS.Lib.Libc

/-!
How a command line of the POSIX shell reads: its words, after the removal of
quotes, and the operators between them. A line is read as far as the text alone
tells what its words are; where an expansion would decide, there is no reading.
-/

namespace Lib.Shell

open Lib.Libc

def TAB : UInt8 := 0x09
def SPACE : UInt8 := 0x20
def HASH : UInt8 := 0x23
def QUOTE : UInt8 := 0x27
def DOUBLE_QUOTE : UInt8 := 0x22
def BACKSLASH : UInt8 := 0x5C
def TILDE : UInt8 := 0x7E

def isBlank (c : UInt8) : Bool := c = SPACE ∨ c = TAB

def isOperator (c : UInt8) : Bool := c ∈ bytes "|&;<>()"

def substitutes (c : UInt8) : Bool := c = 0x24 ∨ c = 0x60

def isPattern (c : UInt8) : Bool := c ∈ bytes "*?["

inductive Token
  | word (w : Str)
  | operator (c : UInt8)
  | newline
  deriving DecidableEq

inductive Mode
  | blank
  | blankEscape
  | comment
  | word
  | escape
  | quote
  | doubleQuote
  | doubleEscape
  deriving DecidableEq

def unquoted (c : UInt8) : Option (Mode × Str) :=
  if c = BACKSLASH then some (.escape, [])
  else if c = QUOTE then some (.quote, [])
  else if c = DOUBLE_QUOTE then some (.doubleQuote, [])
  else if substitutes c ∨ isPattern c then none
  else some (.word, [c])

def delimiter (c : UInt8) : Option (List Token) :=
  if isBlank c then some []
  else if c = NEWLINE then some [.newline]
  else if isOperator c then some [.operator c]
  else none

abbrev Reading := Str × List Token

def Reading.add (s : Str) (r : Reading) : Reading := (s ++ r.1, r.2)

def Reading.push (ts : List Token) (r : Reading) : Reading := ([], ts ++ r.2)

def Reading.begin (s : Str) (r : Reading) : Reading := ([], .word (s ++ r.1) :: r.2)

def read : Mode → Str → Option Reading
  | mode, [] => if mode ∈ [Mode.blank, .comment, .word] then some ([], []) else none
  | .blank, c :: s =>
    match delimiter c with
    | some ts => (read .blank s).map (.push ts)
    | none =>
      if c = HASH then read .comment s
      else if c = BACKSLASH then read .blankEscape s
      else if c = TILDE then none
      else (unquoted c).bind fun next => (read next.1 s).map (.begin next.2)
  | .blankEscape, c :: s => if c = NEWLINE then read .blank s else (read .word s).map (.begin [c])
  | .comment, c :: s => if c = NEWLINE then (read .blank s).map (.push [.newline]) else read .comment s
  | .word, c :: s =>
    match delimiter c with
    | some ts => (read .blank s).map (.push ts)
    | none => (unquoted c).bind fun next => (read next.1 s).map (.add next.2)
  | .escape, c :: s => if c = NEWLINE then read .word s else (read .word s).map (.add [c])
  | .quote, c :: s => if c = QUOTE then read .word s else (read .quote s).map (.add [c])
  | .doubleQuote, c :: s =>
    if c = DOUBLE_QUOTE then read .word s
    else if c = BACKSLASH then read .doubleEscape s
    else if substitutes c then none
    else (read .doubleQuote s).map (.add [c])
  | .doubleEscape, c :: s =>
    if c = NEWLINE then read .doubleQuote s
    else if substitutes c ∨ c = DOUBLE_QUOTE ∨ c = BACKSLASH then (read .doubleQuote s).map (.add [c])
    else (read .doubleQuote s).map (.add [BACKSLASH, c])

/-- What may follow the last word of a line with one command: `;` or `&`, and newlines. -/
def ends : List Token → Bool
  | .operator c :: ts => (c = 0x3B ∨ c = 0x26) ∧ ∀ t ∈ ts, t = .newline
  | ts => ∀ t ∈ ts, t = .newline

def only : List Token → Option (List Str)
  | .word w :: ts => (only ts).map (w :: ·)
  | ts => if ends ts then some [] else none

def reserved : List Str :=
  ["!", "\x7b", "\x7d", "case", "do", "done", "elif", "else", "esac", "fi", "for", "if", "in", "then", "until",
    "while"].map bytes

def isCommandName (w : Str) : Bool := w ∉ reserved ∧ 0x3D ∉ w

def simple (line : Str) : Option (List Str) :=
  match (read .blank line).bind fun r => only r.2 with
  | some (w :: ws) => if isCommandName w then some (w :: ws) else none
  | _ => none

def lastWord (s : Str) : Option Str := (read .word s).bind fun r => if ends r.2 then some r.1 else none

theorem read_blank_cons (c : UInt8) (s : Str) : read .blank (c :: s) =
    match delimiter c with
    | some ts => (read .blank s).map (.push ts)
    | none =>
      if c = HASH then read .comment s
      else if c = BACKSLASH then read .blankEscape s
      else if c = TILDE then none
      else (unquoted c).bind fun next => (read next.1 s).map (.begin next.2) := rfl

theorem read_word_cons (c : UInt8) (s : Str) : read .word (c :: s) =
    match delimiter c with
    | some ts => (read .blank s).map (.push ts)
    | none => (unquoted c).bind fun next => (read next.1 s).map (.add next.2) := rfl

theorem read_doubleQuote_cons (c : UInt8) (s : Str) : read .doubleQuote (c :: s) =
    if c = DOUBLE_QUOTE then read .word s
    else if c = BACKSLASH then read .doubleEscape s
    else if substitutes c then none
    else (read .doubleQuote s).map (.add [c]) := rfl

def isPlain (c : UInt8) : Bool := delimiter c = none ∧ unquoted c = some (.word, [c])

theorem read_plain {p : Str} (hp : p.all isPlain) (s : Str) :
    read .word (p ++ s) = (read .word s).map (.add p) := by
  induction p with
  | nil =>
    have hadd : Reading.add [] = id := rfl
    rw [hadd, Option.map_id]
    rfl
  | cons c p ih =>
    rw [List.all_cons, Bool.and_eq_true] at hp
    obtain ⟨hc, hp⟩ := hp
    rw [isPlain, decide_eq_true_eq] at hc
    have hrest := ih hp
    rw [List.cons_append, read_word_cons, hc.1, hc.2]
    simp only [Option.bind_some]
    rw [hrest, Option.map_map]
    rfl

def isPlainWord : Str → Bool
  | [] => false
  | c :: s => c ≠ HASH ∧ c ≠ TILDE ∧ (c :: s).all isPlain

theorem all_isPlain_of_isPlainWord {p : Str} (hp : isPlainWord p) : p.all isPlain := by
  cases p with
  | nil => rfl
  | cons c p =>
    rw [isPlainWord, decide_eq_true_eq] at hp
    exact hp.2.2

theorem read_begin {p : Str} (hp : isPlainWord p) (s : Str) :
    read .blank (p ++ s) = (read .word s).map (.begin p) := by
  cases p with
  | nil => cases hp
  | cons c p =>
    have hplain := all_isPlain_of_isPlainWord hp
    rw [isPlainWord, decide_eq_true_eq] at hp
    rw [List.all_cons, Bool.and_eq_true] at hplain
    obtain ⟨hc, hplain⟩ := hplain
    have hback : c ≠ BACKSLASH := by
      rintro rfl
      revert hc
      decide
    rw [isPlain, decide_eq_true_eq] at hc
    have hrest := read_plain hplain s
    rw [List.cons_append, read_blank_cons, hc.1, hc.2]
    simp only [hp.1, hback, hp.2.1, ↓reduceIte, Option.bind_some]
    rw [hrest, Option.map_map]
    rfl

theorem read_space (s : Str) : read .word (SPACE :: s) = (read .blank s).map (.push []) := by
  rw [read_word_cons]
  rfl

def spaced (ws : List Str) : Str := ws.flatMap fun w => w ++ [SPACE]

-- Induction on the words in front of the last one.
theorem read_spaced {ws : List Str} {p : Str} (hws : ∀ w ∈ ws, isPlainWord w) (hp : isPlainWord p) (s : Str) :
    read .blank (spaced ws ++ (p ++ s)) =
      (read .word s).map fun r => ([], ws.map .word ++ .word (p ++ r.1) :: r.2) := by
  induction ws with
  | nil => exact read_begin hp s
  | cons w ws ih =>
    have hrest := ih fun v hv => hws v (List.mem_cons_of_mem w hv)
    have hline : spaced (w :: ws) ++ (p ++ s) = w ++ SPACE :: (spaced ws ++ (p ++ s)) := by
      rw [spaced, List.flatMap_cons, List.append_assoc, List.append_assoc]
      rfl
    rw [hline, read_begin (hws w List.mem_cons_self), read_space, hrest, Option.map_map, Option.map_map]
    apply congrArg (fun f => (read .word s).map f)
    funext r
    change Reading.begin w (Reading.push [] _) = _
    rw [Reading.push, Reading.begin, List.append_nil]
    rfl

theorem only_word (w : Str) (ts : List Token) : only (.word w :: ts) = (only ts).map (w :: ·) := rfl

theorem only_words (ws : List Str) (ts : List Token) :
    only (ws.map .word ++ ts) = (only ts).map fun rest => ws ++ rest := by
  induction ws with
  | nil => simp
  | cons w ws ih =>
    rw [List.map_cons, List.cons_append, only_word, ih, Option.map_map]
    rfl

theorem simple_spaced {u p : Str} {ws : List Str} (hu : isCommandName u) (hws : ∀ w ∈ u :: ws, isPlainWord w)
    (hp : isPlainWord p) (s : Str) :
    simple (spaced (u :: ws) ++ (p ++ s)) =
      (read .word s).bind fun r => (only r.2).map fun rest => u :: ws ++ (p ++ r.1) :: rest := by
  rw [simple, read_spaced hws hp]
  cases read .word s with
  | none => rfl
  | some r =>
    simp only [Option.map_some, Option.bind_some]
    rw [only_words, only_word]
    cases only r.2 with
    | none => rfl
    | some rest => exact if_pos hu

theorem simple_first {u s : Str} (hu : isPlainWord u) {ws : List Str} (h : simple (u ++ SPACE :: s) = some ws) :
    ws.head? = some u := by
  rw [simple, read_begin hu, read_space, Option.map_map] at h
  cases hread : read .blank s with
  | none =>
    rw [hread] at h
    cases h
  | some r =>
    rw [hread, Option.map_some, Option.bind_some] at h
    change (match only (.word (u ++ []) :: r.2) with
      | some (w :: ws) => if isCommandName w then some (w :: ws) else none
      | _ => none) = some ws at h
    rw [only_word, List.append_nil] at h
    cases honly : only r.2 with
    | none =>
      rw [honly] at h
      cases h
    | some rest =>
      rw [honly] at h
      dsimp only [Option.map_some] at h
      split_ifs at h
      rw [← Option.some.inj h]
      rfl

theorem only_eq_nil_iff {ts : List Token} : only ts = some [] ↔ ends ts = true := by
  cases ts with
  | nil => simp [only, ends]
  | cons t ts =>
    cases t with
    | word w => simp [only, ends]
    | operator c => simp [only]
    | newline => simp [only]

theorem lastWord_eq_some_iff {s w : Str} :
    lastWord s = some w ↔ ∃ ts, read .word s = some (w, ts) ∧ only ts = some [] := by
  rw [lastWord, Option.bind_eq_some_iff]
  constructor
  · rintro ⟨⟨v, ts⟩, hread, h⟩
    split_ifs at h with hends
    obtain rfl := Option.some.inj h
    exact ⟨ts, hread, only_eq_nil_iff.mpr hends⟩
  · rintro ⟨ts, hread, h⟩
    exact ⟨(w, ts), hread, if_pos (only_eq_nil_iff.mp h)⟩

theorem lastWord_plain {p : Str} (hp : p.all isPlain) : lastWord p = some p := by
  have hread := read_plain hp []
  rw [List.append_nil] at hread
  rw [lastWord_eq_some_iff]
  exact ⟨[], by rw [hread]; exact congrArg some (Prod.ext (List.append_nil p) rfl), rfl⟩

end Lib.Shell
