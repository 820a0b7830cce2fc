import JurkOS.Kernel.Fs.Types
import JurkOS.Lib.Run

/-!
The line editor `keyboard_readline` of `drivers/keyboard.c`, over the characters
that `keyboard_getchar` returns. It stops at a newline and where the buffer is full.
-/

namespace JurkOS.Kernel.Readline

open Lib.Libc Lib.Memory
open Fs (strcpyFrom)

def BACKSPACE : UInt8 := 0x08

def isNewline (c : UInt8) : Bool := c = NEWLINE ∨ c = RETURN

def isPrintable (c : UInt8) : Bool := 32 ≤ c ∧ c ≤ 126

/-- A call under way: the caller's buffer, how much of it is filled and what was handed to `fb_print`. -/
structure Editor where
  buffer : ℕ
  mem : Mem
  idx : ℕ
  prints : List Str

def Editor.print (e : Editor) (s : Str) : Editor := { e with prints := e.prints ++ [s] }

def typeKey (e : Editor) (c : UInt8) : Editor :=
  if c = BACKSPACE then
    if 0 < e.idx then { e with idx := e.idx - 1 }.print [BACKSPACE, 0x20, BACKSPACE] else e
  else if isPrintable c then
    { e with mem := Function.update e.mem (e.buffer + e.idx) c, idx := e.idx + 1 }.print [c]
  else e

/-- The loop, with the characters it leaves; there is no result while it waits for one. -/
def readlineLoop (limit : ℕ) : Editor → Str → Option (Editor × Str)
  | e, [] => if e.idx < limit then none else some (e, [])
  | e, c :: stream =>
    if e.idx < limit then
      if isNewline c then some (e.print [NEWLINE], stream) else readlineLoop limit (typeKey e c) stream
    else some (e, c :: stream)

def keyboardReadline (arch : Arch) (m : Mem) (buffer maxLen : ℕ) (stream : Str) : Option (Editor × Str) :=
  (readlineLoop (arch.sub maxLen 1) { buffer := buffer, mem := m, idx := 0, prints := [] } stream).map
    fun (e, rest) => ({ e with mem := Function.update e.mem (buffer + e.idx) 0 }, rest)

def editKey (text : Str) (c : UInt8) : Str :=
  if c = BACKSPACE then text.dropLast else if isPrintable c then text ++ [c] else text

def edit (keys : Str) : Str := keys.foldl editKey []

structure Line where
  keys : Str
  last : UInt8
  keys_plain : ∀ c ∈ keys, ¬isNewline c
  last_newline : isNewline last

def Line.typed (l : Line) : Str := l.keys ++ [l.last]

def Line.Fits (maxLen : ℕ) (l : Line) : Prop := ∀ keys, keys <+: l.keys → (edit keys).length < maxLen - 1

structure Holds (e : Editor) (text : Str) : Prop where
  idx_eq : e.idx = text.length
  mem_eq : ∀ i (h : i < text.length), e.mem (e.buffer + i) = text[i]
  zero_notMem : 0 ∉ text

theorem Holds.typeKey {e : Editor} {text : Str} (h : Holds e text) (c : UInt8) :
    Holds (typeKey e c) (editKey text c) := by
  unfold Readline.typeKey editKey
  split_ifs with hback hpos hprint
  · refine ⟨?_, fun i hi => ?_, fun hz => h.zero_notMem (List.dropLast_subset text hz)⟩
    · simp [Editor.print, h.idx_eq]
    · rw [List.getElem_dropLast]
      exact h.mem_eq i (by simp at hi; omega)
  · have hnil : text = [] := List.length_eq_zero_iff.mp (by rw [← h.idx_eq]; omega)
    subst hnil
    exact h
  · refine ⟨?_, fun i hi => ?_, fun hz => ?_⟩
    · simp [Editor.print, h.idx_eq]
    · simp only [Editor.print]
      by_cases hlast : i = text.length
      · subst hlast
        rw [h.idx_eq, Function.update_self]
        simp
      · have hlt : i < text.length := by simp at hi; omega
        rw [Function.update_of_ne (by rw [h.idx_eq]; omega), h.mem_eq i hlt, List.getElem_append_left hlt]
    · rcases List.mem_append.mp hz with hz | hz
      · exact h.zero_notMem hz
      · rw [← List.mem_singleton.mp hz] at hprint
        exact absurd hprint (by decide)
  · exact h

theorem typeKey_buffer (e : Editor) (c : UInt8) : (typeKey e c).buffer = e.buffer := by
  unfold typeKey
  split_ifs <;> rfl

theorem typeKey_changedIn {limit : ℕ} (e : Editor) (c : UInt8) (h : e.idx < limit) :
    ChangedIn (Span e.buffer limit) e.mem (typeKey e c).mem := by
  unfold typeKey
  split_ifs
  · exact .refl _ _
  · exact .refl _ _
  · intro b hb
    exact Function.update_of_ne (by rintro rfl; exact hb ⟨by omega, by omega⟩) _ _
  · exact .refl _ _

theorem fits_cons {P : Str → Prop} {c : UInt8} {keys : Str} :
    (∀ ks, ks <+: c :: keys → P ks) ↔ P [] ∧ ∀ ks, ks <+: keys → P (c :: ks) := by
  simp only [List.prefix_cons_iff]
  constructor
  · exact fun h => ⟨h [] (.inl rfl), fun ks hks => h (c :: ks) (.inr ⟨ks, rfl, hks⟩)⟩
  · rintro ⟨hnil, hcons⟩ ks (rfl | ⟨ks', rfl, hks⟩)
    · exact hnil
    · exact hcons ks' hks

section Loop

variable {limit : ℕ} {e : Editor} {text keys : Str} {t : UInt8}

theorem readlineLoop_line (rest : Str) (h : Holds e text) (hkeys : ∀ c ∈ keys, ¬isNewline c) (ht : isNewline t)
    (hroom : ∀ ks, ks <+: keys → (ks.foldl editKey text).length < limit) :
    ∃ e', readlineLoop limit e (keys ++ t :: rest) = some (e', rest) ∧ Holds e' (keys.foldl editKey text) ∧
      e'.buffer = e.buffer ∧ ChangedIn (Span e.buffer limit) e.mem e'.mem := by
  induction keys generalizing e text with
  | nil =>
    have hlt : e.idx < limit := h.idx_eq ▸ hroom [] (List.nil_prefix)
    refine ⟨e.print [NEWLINE], ?_, ⟨h.idx_eq, h.mem_eq, h.zero_notMem⟩, rfl, .refl _ _⟩
    rw [List.nil_append, readlineLoop, if_pos hlt, if_pos ht]
  | cons c keys ih =>
    obtain ⟨hnow, hlater⟩ := fits_cons.mp hroom
    have hlt : e.idx < limit := h.idx_eq ▸ hnow
    obtain ⟨e', hrun, hholds, hbuffer, hchanged⟩ :=
      ih (h.typeKey c) (fun d hd => hkeys d (List.mem_cons_of_mem c hd)) hlater
    refine ⟨e', ?_, hholds, hbuffer.trans (typeKey_buffer e c), ?_⟩
    · rw [List.cons_append, readlineLoop, if_pos hlt, if_neg (hkeys c List.mem_cons_self), hrun]
    · rw [typeKey_buffer] at hchanged
      exact (typeKey_changedIn e c hlt).trans hchanged

theorem readlineLoop_full (t : UInt8) (rest : Str) (h : Holds e text) (hkeys : ∀ c ∈ keys, ¬isNewline c)
    (hfull : ¬∀ ks, ks <+: keys → (ks.foldl editKey text).length < limit) :
    ∃ e' left, readlineLoop limit e (keys ++ t :: rest) = some (e', left) ∧ rest.length < left.length := by
  induction keys generalizing e text with
  | nil =>
    have hlt : ¬e.idx < limit := by
      intro hlt
      refine hfull fun ks hks => ?_
      rw [List.prefix_nil.mp hks]
      exact h.idx_eq ▸ hlt
    exact ⟨e, t :: rest, by rw [List.nil_append, readlineLoop, if_neg hlt], by simp⟩
  | cons c keys ih =>
    by_cases hlt : e.idx < limit
    · have hlater : ¬∀ ks, ks <+: keys → (ks.foldl editKey (editKey text c)).length < limit := by
        intro hlater
        exact hfull (fits_cons.mpr ⟨h.idx_eq ▸ hlt, hlater⟩)
      obtain ⟨e', left, hrun, hlen⟩ := ih (h.typeKey c) (fun d hd => hkeys d (List.mem_cons_of_mem c hd)) hlater
      exact ⟨e', left, by rw [List.cons_append, readlineLoop, if_pos hlt, if_neg (hkeys c List.mem_cons_self), hrun],
        hlen⟩
    · exact ⟨e, c :: keys ++ t :: rest, by rw [List.cons_append, readlineLoop, if_neg hlt], by simp; omega⟩

end Loop

theorem strcpyFrom_text {m : Mem} {p n : ℕ} {text : Str} (hlen : text.length < n)
    (htext : ∀ i (h : i < text.length), m (p + i) = text[i]) (h0 : 0 ∉ text) (hend : m (p + text.length) = 0) :
    strcpyFrom m p n = some text := by
  induction text generalizing p n with
  | nil =>
    obtain ⟨n, rfl⟩ := Nat.exists_eq_succ_of_ne_zero (by omega : n ≠ 0)
    exact if_pos hend
  | cons c text ih =>
    obtain ⟨n, rfl⟩ := Nat.exists_eq_succ_of_ne_zero (by omega : n ≠ 0)
    have hc : m p = c := htext 0 (by simp)
    rw [List.mem_cons, not_or] at h0
    have htail : strcpyFrom m (p + 1) n = some text := by
      apply ih (by simpa using hlen) _ h0.2
      · rw [← hend]
        congr 1
        simp
        omega
      · intro i hi
        have := htext (i + 1) (by simpa using hi)
        rwa [show p + (i + 1) = p + 1 + i by omega, List.getElem_cons_succ] at this
    rw [strcpyFrom, if_neg (by rw [hc]; exact Ne.symm h0.1), hc, htail]
    rfl

inductive Calls (arch : Arch) (maxLen : ℕ) (stream : Str) : ℕ → Str → Prop
  | zero : Calls arch maxLen stream 0 stream
  | succ {n : ℕ} {left left' : Str} {m : Mem} {buffer : ℕ} {e : Editor} (h : Calls arch maxLen stream n left)
      (hcall : keyboardReadline arch m buffer maxLen left = some (e, left')) :
      Calls arch maxLen stream (n + 1) left'

def streamOf (lines : List Line) (tail : Str) : Str := lines.flatMap Line.typed ++ tail

structure ReturnsLine (arch : Arch) (maxLen : ℕ) (m : Mem) (buffer : ℕ) (stream : Str) (l : Line) (e : Editor)
    (left : Str) : Prop where
  returns : keyboardReadline arch m buffer maxLen stream = some (e, left)
  text : strcpyFrom e.mem buffer maxLen = some ((edit l.keys).take (maxLen - 1))
  changedIn : ChangedIn (Span buffer maxLen) m e.mem

def OneCallOneLine (arch : Arch) (maxLen : ℕ) (lines : List Line) (tail : Str) : Prop :=
  ∀ n (hn : n < lines.length) left, Calls arch maxLen (streamOf lines tail) n left → ∀ m buffer,
    ∃ e, ReturnsLine arch maxLen m buffer left lines[n] e (streamOf (lines.drop (n + 1)) tail)

section Calls

variable {arch : Arch} {maxLen : ℕ} {l : Line} {m : Mem} {buffer : ℕ} {rest : Str}

theorem Line.Fits.returnsLine (h2 : 2 ≤ maxLen) (hmax : maxLen < 2 ^ arch.wordBits) (h : l.Fits maxLen) :
    ∃ e, ReturnsLine arch maxLen m buffer (l.typed ++ rest) l e rest := by
  have hholds : Holds ⟨buffer, m, 0, []⟩ [] := ⟨rfl, fun i hi => absurd hi (Nat.not_lt_zero i), List.not_mem_nil⟩
  obtain ⟨e, hrun, he, hbuffer, hchanged⟩ :=
    readlineLoop_line rest hholds l.keys_plain l.last_newline h
  replace he : Holds e (edit l.keys) := he
  replace hbuffer : e.buffer = buffer := hbuffer
  replace hchanged : ChangedIn (Span buffer (maxLen - 1)) m e.mem := hchanged
  have hlen : (edit l.keys).length < maxLen - 1 := h l.keys (List.prefix_refl _)
  have hidx : e.idx = (edit l.keys).length := he.idx_eq
  have hcall : keyboardReadline arch m buffer maxLen (l.typed ++ rest) =
      some ({ e with mem := Function.update e.mem (buffer + e.idx) 0 }, rest) := by
    have hlimit : arch.sub maxLen 1 = maxLen - 1 := Arch.sub_of_le hmax (by omega)
    rw [keyboardReadline, hlimit, Line.typed, List.append_assoc, List.singleton_append, hrun]
    rfl
  refine ⟨_, hcall, ?_, ?_⟩
  · rw [List.take_of_length_le hlen.le]
    apply strcpyFrom_text (by omega) _ he.zero_notMem
    · rw [← hidx]
      exact Function.update_self _ _ _
    · intro i hi
      have hmem := he.mem_eq i hi
      rw [hbuffer] at hmem
      exact (Function.update_of_ne (by omega) _ _).trans hmem
  · intro b hb
    rw [mem_span] at hb
    have hne : b ≠ buffer + e.idx := by omega
    exact (Function.update_of_ne hne _ _).trans (hchanged b (by rw [mem_span]; omega))

theorem returns_longer (h2 : 2 ≤ maxLen) (hmax : maxLen < 2 ^ arch.wordBits) (h : ¬l.Fits maxLen) {e : Editor}
    {left : Str} (hcall : keyboardReadline arch m buffer maxLen (l.typed ++ rest) = some (e, left)) :
    rest.length < left.length := by
  have hholds : Holds ⟨buffer, m, 0, []⟩ [] := ⟨rfl, fun i hi => absurd hi (Nat.not_lt_zero i), List.not_mem_nil⟩
  obtain ⟨e', left', hrun, hlen⟩ := readlineLoop_full l.last rest hholds l.keys_plain h
  have hlimit : arch.sub maxLen 1 = maxLen - 1 := Arch.sub_of_le hmax (by omega)
  rw [keyboardReadline, hlimit, Line.typed, List.append_assoc, List.singleton_append, hrun] at hcall
  cases hcall
  exact hlen

theorem streamOf_drop {lines : List Line} {n : ℕ} (hn : n < lines.length) (tail : Str) :
    streamOf (lines.drop n) tail = lines[n].typed ++ streamOf (lines.drop (n + 1)) tail := by
  rw [List.drop_eq_getElem_cons hn, streamOf, streamOf, List.flatMap_cons, List.append_assoc]

theorem Calls.eq_streamOf (h2 : 2 ≤ maxLen) (hmax : maxLen < 2 ^ arch.wordBits) {lines : List Line} {tail : Str}
    (hfits : ∀ l ∈ lines, l.Fits maxLen) {n : ℕ} {left : Str} (h : Calls arch maxLen (streamOf lines tail) n left)
    (hn : n ≤ lines.length) : left = streamOf (lines.drop n) tail := by
  induction h with
  | zero => rfl
  | @succ k _ _ _ _ _ _ hcall ih =>
    have hk : k < lines.length := hn
    rw [ih hk.le, streamOf_drop hk] at hcall
    obtain ⟨e, hreturns⟩ := (hfits _ (List.getElem_mem hk)).returnsLine h2 hmax
    have := hcall.symm.trans hreturns.returns
    cases this
    rfl

end Calls

/-- Every call returns one whole line of the stream if and only if no line ever fills the buffer: the loop
also stops at the last place of the buffer, with the newline unread. -/
theorem readline_lines_iff (arch : Arch) {maxLen : ℕ} (h2 : 2 ≤ maxLen) (hmax : maxLen < 2 ^ arch.wordBits)
    (lines : List Line) (tail : Str) :
    OneCallOneLine arch maxLen lines tail ↔ ∀ l ∈ lines, l.Fits maxLen := by
  constructor
  · intro h
    have hcalls : ∀ n, n ≤ lines.length →
        Calls arch maxLen (streamOf lines tail) n (streamOf (lines.drop n) tail) ∧
          ∀ k (hk : k < n) (hlt : k < lines.length), lines[k].Fits maxLen := by
      intro n
      induction n with
      | zero => exact fun _ => ⟨.zero, fun k hk => absurd hk (Nat.not_lt_zero k)⟩
      | succ n ih =>
        intro hn
        obtain ⟨hcalls, hfits⟩ := ih (by omega)
        obtain ⟨e, hreturns⟩ := h n hn _ hcalls (fun _ => 0) 0
        refine ⟨.succ hcalls hreturns.returns, fun k hk hlt => ?_⟩
        rcases Nat.lt_succ_iff_lt_or_eq.mp hk with hk | rfl
        · exact hfits k hk hlt
        · by_contra hfull
          have hcall := hreturns.returns
          rw [streamOf_drop hn] at hcall
          exact absurd (returns_longer h2 hmax hfull hcall) (Nat.lt_irrefl _)
    intro l hl
    obtain ⟨k, hk, rfl⟩ := List.mem_iff_getElem.mp hl
    exact (hcalls lines.length (le_refl _)).2 k hk hk
  · intro hfits n hn left hcalls m buffer
    rw [hcalls.eq_streamOf h2 hmax hfits hn.le, streamOf_drop hn]
    exact (hfits _ (List.getElem_mem hn)).returnsLine h2 hmax

theorem length_edit_le (keys : Str) : (edit keys).length ≤ keys.length := by
  induction keys using List.reverseRecOn with
  | nil => exact le_refl 0
  | append_singleton keys c ih =>
    rw [edit, List.foldl_append, List.length_append]
    change (editKey (edit keys) c).length ≤ _
    unfold editKey
    split_ifs
    · rw [List.length_dropLast]
      omega
    · rw [List.length_append]
      exact Nat.add_le_add_right ih 1
    · omega

theorem edit_of_printable {keys : Str} (h : ∀ c ∈ keys, isPrintable c) : edit keys = keys := by
  induction keys using List.reverseRecOn with
  | nil => rfl
  | append_singleton keys c ih =>
    have hc := h c (by simp)
    have hne : c ≠ BACKSPACE := by
      rintro rfl
      exact absurd hc (by decide)
    rw [edit, List.foldl_append]
    change editKey (edit keys) c = _
    rw [ih fun d hd => h d (List.mem_append_left _ hd), editKey, if_neg hne, if_pos hc]

theorem Line.fits_of_length {maxLen : ℕ} {l : Line} (h : l.keys.length < maxLen - 1) : l.Fits maxLen :=
  fun keys hkeys => ((length_edit_le keys).trans hkeys.length_le).trans_lt h

theorem isNewline_newline : isNewline NEWLINE := by decide

theorem not_isNewline_replicate (n : ℕ) : ∀ c ∈ List.replicate n (0x61 : UInt8), ¬isNewline c := by
  intro c hc
  rw [List.eq_of_mem_replicate hc]
  decide

theorem isPrintable_replicate (n : ℕ) : ∀ c ∈ List.replicate n (0x61 : UInt8), isPrintable c := by
  intro c hc
  rw [List.eq_of_mem_replicate hc]
  decide

def lsLine : Line where
  keys := bytes "ls"
  last := NEWLINE
  keys_plain := by
    intro c hc
    have hc : c = 0x6C ∨ c = 0x73 := by simpa [bytes] using hc
    rcases hc with rfl | rfl <;> decide
  last_newline := isNewline_newline

theorem readline_lines_ls : OneCallOneLine .x86_64 128 [lsLine, lsLine] [] := by
  apply (readline_lines_iff .x86_64 (by decide) (by decide) [lsLine, lsLine] []).mpr
  intro l hl
  have hl : l = lsLine := by simpa using hl
  exact hl ▸ Line.fits_of_length (by decide)

def longLine : Line where
  keys := List.replicate 127 0x61
  last := NEWLINE
  keys_plain := not_isNewline_replicate 127
  last_newline := isNewline_newline

theorem readline_long_line : ¬OneCallOneLine .x86_64 128 [longLine] [] := by
  intro h
  obtain ⟨e, hreturns⟩ := h 0 (by decide) _ .zero (fun _ => 0) 0
  have hedit : edit longLine.keys = longLine.keys := edit_of_printable (isPrintable_replicate 127)
  have hfull : ¬longLine.Fits 128 := by
    intro hfits
    have := hfits _ (List.prefix_refl _)
    rw [hedit] at this
    exact absurd this (by simp [longLine])
  have hcall := hreturns.returns
  rw [← List.drop_zero (l := [longLine]), streamOf_drop (show 0 < [longLine].length by decide)] at hcall
  exact absurd (returns_longer (by decide) (by decide) hfull hcall) (Nat.lt_irrefl _)

end JurkOS.Kernel.Readline
