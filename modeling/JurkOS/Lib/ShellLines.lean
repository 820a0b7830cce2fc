import JurkOS.Lib.Shell

/-!
Rules for the tokens of a command line that is put together from words, quoted
strings and operators.
-/

namespace Lib.Shell

open Libc

def Reads (s : Str) (ts : List Token) : Prop := read .blank s = some ([], ts)

def Parts (s : Str) : Prop := ∀ c ∈ s.head?, (delimiter c).isSome = true

variable {s q w : Str} {ts : List Token} {c : UInt8}

theorem Reads.nil : Reads [] [] := rfl

theorem Reads.space (h : Reads s ts) : Reads (SPACE :: s) ts := by
  have hspace : delimiter SPACE = some [] := by decide
  rw [Reads, read_blank_cons, hspace]
  exact congrArg (Option.map (Reading.push [])) h

theorem Reads.operator (hc : delimiter c = some [.operator c]) (h : Reads s ts) :
    Reads (c :: s) (.operator c :: ts) := by
  rw [Reads, read_blank_cons, hc]
  exact congrArg (Option.map (Reading.push [.operator c])) h

theorem parts_nil : Parts [] := fun _ hc => nomatch hc

theorem parts_cons (hc : (delimiter c).isSome = true) (s : Str) : Parts (c :: s) := by
  rintro d hd
  obtain rfl := Option.some.inj hd
  exact hc

theorem read_word_of_parts (h : Parts s) (hs : Reads s ts) : read .word s = some ([], ts) := by
  cases s with
  | nil => exact hs
  | cons c s =>
    obtain ⟨us, hc⟩ := Option.isSome_iff_exists.mp (h c rfl)
    rw [Reads, read_blank_cons, hc] at hs
    rw [read_word_cons, hc]
    exact hs

theorem Reads.word (hw : isPlainWord w) (hparts : Parts s) (h : Reads s ts) : Reads (w ++ s) (.word w :: ts) := by
  rw [Reads, read_begin hw, read_word_of_parts hparts h, Option.map_some, Reading.begin, List.append_nil]

theorem Reads.spaced {ws : List Str} (hws : ∀ w ∈ ws, isPlainWord w) (h : Reads s ts) :
    Reads (spaced ws ++ s) (ws.map .word ++ ts) := by
  induction ws with
  | nil => exact h
  | cons w ws ih =>
    have hrest := ih fun v hv => hws v (List.mem_cons_of_mem w hv)
    have hline : Shell.spaced (w :: ws) ++ s = w ++ SPACE :: (Shell.spaced ws ++ s) := by
      rw [Shell.spaced, List.flatMap_cons, List.append_assoc, List.append_assoc]
      rfl
    rw [hline]
    exact hrest.space.word (hws w List.mem_cons_self) (parts_cons (by decide) _)

theorem read_doubleQuote (hq : ∀ c ∈ q, c ≠ DOUBLE_QUOTE ∧ c ≠ BACKSLASH ∧ substitutes c = false) (s : Str) :
    read .doubleQuote (q ++ DOUBLE_QUOTE :: s) = (read .word s).map (.add q) := by
  induction q with
  | nil =>
    have hadd : Reading.add [] = id := rfl
    rw [hadd, Option.map_id, List.nil_append, read_doubleQuote_cons, if_pos rfl]
    rfl
  | cons c q ih =>
    rw [List.forall_mem_cons] at hq
    obtain ⟨⟨hquote, hback, hsub⟩, hq⟩ := hq
    rw [List.cons_append, read_doubleQuote_cons, if_neg hquote, if_neg hback, hsub, if_neg Bool.false_ne_true, ih hq,
      Option.map_map]
    rfl

theorem read_quoted (hq : ∀ c ∈ q, c ≠ DOUBLE_QUOTE ∧ c ≠ BACKSLASH ∧ substitutes c = false) (s : Str) :
    read .blank (DOUBLE_QUOTE :: (q ++ DOUBLE_QUOTE :: s)) = (read .word s).map (.begin q) := by
  have hopen : delimiter DOUBLE_QUOTE = none := by decide
  have hmode : unquoted DOUBLE_QUOTE = some (.doubleQuote, []) := by decide
  have hhash : DOUBLE_QUOTE ≠ HASH := by decide
  have hback : DOUBLE_QUOTE ≠ BACKSLASH := by decide
  have htilde : DOUBLE_QUOTE ≠ TILDE := by decide
  rw [read_blank_cons, hopen, hmode]
  simp only [hhash, hback, htilde, if_false, Option.bind_some]
  rw [read_doubleQuote hq, Option.map_map]
  rfl

theorem Reads.quoted (hq : ∀ c ∈ q, c ≠ DOUBLE_QUOTE ∧ c ≠ BACKSLASH ∧ substitutes c = false) (hparts : Parts s)
    (h : Reads s ts) : Reads (DOUBLE_QUOTE :: (q ++ DOUBLE_QUOTE :: s)) (.word q :: ts) := by
  rw [Reads, read_quoted hq, read_word_of_parts hparts h, Option.map_some, Reading.begin, List.append_nil]

end Lib.Shell
