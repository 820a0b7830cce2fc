import JurkOS.Lib.Libc

/-!
Text files read line by line: what a loop over `fgets` sees of them.
-/

namespace Lib.Libc

variable {s t u v : Str} {size n : ℕ}

def fgetsLoop (size : ℕ) : ℕ → Str → List Str
  | 0, _ => []
  | n + 1, stream =>
    match fgets size stream with
    | none => []
    | some (chunk, rest) => cstr chunk :: fgetsLoop size n rest

/-- The strings that `fgets` leaves in `line` one after the other; a longer line comes in pieces. -/
def readLines (size : ℕ) (stream : Str) : List Str := fgetsLoop size stream.length stream

def isSpace (c : UInt8) : Bool := c = 0x20 ∨ 0x09 ≤ c ∧ c ≤ 0x0D

def isDigit (c : UInt8) : Bool := 0x30 ≤ c ∧ c ≤ 0x39

def decimal (s : Str) : ℕ := s.foldl (fun n c => 10 * n + (c - 0x30).toNat) 0

def toInt32 (x : ℤ) : ℤ := (x + 2 ^ 31) % 2 ^ 32 - 2 ^ 31

/-- `strtol` in base ten, which stops at the ends of `long`, as an `int`. -/
def atoi (s : Str) : ℤ :=
  let s := s.dropWhile isSpace
  let digits := ((if s.head? = some 0x2D ∨ s.head? = some 0x2B then s.tail else s).takeWhile isDigit)
  let value : ℤ := if s.head? = some 0x2D then -decimal digits else decimal digits
  toInt32 (max (-2 ^ 63) (min (2 ^ 63 - 1) value))

example : atoi (bytes " -72 dBm") = -72 := by decide

theorem readLine_append (h : NEWLINE ∈ u) : readLine n (u ++ v) = readLine n u := by
  induction u generalizing n with
  | nil => cases h
  | cons c u ih =>
    cases n with
    | zero => rfl
    | succ n =>
      rw [List.cons_append, readLine, readLine]
      split_ifs with hc
      · rfl
      · rw [ih ((List.mem_cons.mp h).resolve_left (Ne.symm hc))]

theorem readLine_newline (h : NEWLINE ∉ u) (hlen : u.length < n) : readLine n (u ++ NEWLINE :: v) = u ++ [NEWLINE] := by
  induction u generalizing n with
  | nil =>
    cases n with
    | zero => cases hlen
    | succ n => exact if_pos rfl
  | cons c u ih =>
    cases n with
    | zero => cases hlen
    | succ n =>
      rw [List.mem_cons, not_or] at h
      rw [List.cons_append, readLine, if_neg (Ne.symm h.1), ih h.2 (Nat.lt_of_succ_lt_succ hlen), List.cons_append]

theorem readLine_ne_nil (hs : s ≠ []) : readLine (n + 1) s ≠ [] := by
  cases s with
  | nil => exact absurd rfl hs
  | cons c s =>
    rw [readLine]
    split_ifs
    · exact List.cons_ne_nil _ _
    · exact List.cons_ne_nil _ _

theorem length_readLine_le_length (n : ℕ) (s : Str) : (readLine n s).length ≤ s.length := by
  induction s generalizing n with
  | nil =>
    cases n with
    | zero => exact le_refl _
    | succ n => exact le_refl _
  | cons c s ih =>
    cases n with
    | zero => exact Nat.zero_le _
    | succ n =>
      rw [readLine]
      split_ifs
      · exact Nat.succ_le_succ (Nat.zero_le _)
      · exact Nat.succ_le_succ (ih n)

theorem drop_readLine_lt (hsize : 2 ≤ size) (hs : s ≠ []) :
    (s.drop (readLine (size - 1) s).length).length < s.length := by
  obtain ⟨n, hn⟩ : ∃ n, size - 1 = n + 1 := ⟨size - 2, by omega⟩
  have hpos := List.length_pos_iff.mpr (readLine_ne_nil (n := n) hs)
  have hlen := List.length_pos_iff.mpr hs
  rw [List.length_drop, hn]
  omega

theorem fgetsLoop_stable (hsize : 2 ≤ size) {m : ℕ} (hn : s.length ≤ n) (hm : s.length ≤ m) :
    fgetsLoop size n s = fgetsLoop size m s := by
  have hnil (k : ℕ) : fgetsLoop size k [] = [] := by
    cases k with
    | zero => rfl
    | succ k => rfl
  induction n generalizing s m with
  | zero => rw [List.eq_nil_of_length_eq_zero (Nat.le_zero.mp hn), hnil, hnil]
  | succ n ih =>
    by_cases hs : s = []
    · rw [hs, hnil, hnil]
    · cases m with
      | zero => exact absurd (List.eq_nil_of_length_eq_zero (Nat.le_zero.mp hm)) hs
      | succ m =>
        have hlt := drop_readLine_lt hsize hs
        rw [fgetsLoop, fgetsLoop, fgets, if_neg hs]
        dsimp only
        rw [ih (m := m) (by omega) (by omega)]

theorem readLines_cons (hsize : 2 ≤ size) (hs : s ≠ []) : readLines size s =
    cstr (readLine (size - 1) s) :: readLines size (s.drop (readLine (size - 1) s).length) := by
  have hlt := drop_readLine_lt hsize hs
  have hlen := List.length_pos_iff.mpr hs
  obtain ⟨n, hn⟩ : ∃ n, s.length = n + 1 := ⟨s.length - 1, by omega⟩
  rw [readLines, hn, fgetsLoop, fgets, if_neg hs]
  dsimp only
  rw [readLines, fgetsLoop_stable hsize (by omega) le_rfl]

theorem readLines_append (hsize : 2 ≤ size) (hu : u = [] ∨ u.getLast? = some NEWLINE) (v : Str) :
    readLines size (u ++ v) = readLines size u ++ readLines size v := by
  induction hn : u.length using Nat.strong_induction_on generalizing u with
  | _ n ih =>
    rcases hu with rfl | hlast
    · rfl
    · have hne : u ≠ [] := by
        rintro rfl
        cases hlast
      have hnew : NEWLINE ∈ u := List.mem_of_getLast? hlast
      have hlt := drop_readLine_lt hsize hne
      have hle := length_readLine_le_length (size - 1) u
      rw [readLines_cons hsize (List.append_ne_nil_of_left_ne_nil hne v), readLines_cons hsize hne,
        readLine_append hnew, List.drop_append_of_le_length hle, ih _ (hn ▸ hlt) ?_ rfl, List.cons_append]
      rw [List.getLast?_drop]
      split_ifs with hall
      · exact .inl (List.drop_eq_nil_of_le hall)
      · exact .inr hlast

theorem readLines_line (hline : NEWLINE ∉ u) (hlen : u.length + 2 ≤ size) (v : Str) :
    readLines size (u ++ NEWLINE :: v) = cstr (u ++ [NEWLINE]) :: readLines size v := by
  have hread := readLine_newline (n := size - 1) (v := v) hline (by omega)
  rw [readLines_cons (by omega) (by simp), hread]
  congr 2
  simp

theorem readLines_of_notMem (h : NEWLINE ∉ s) (hzero : 0 ∉ s) (hlen : s.length + 2 ≤ size) :
    readLines size s = if s = [] then [] else [s] := by
  split_ifs with hs
  · rw [hs]
    rfl
  · rw [readLines_cons (by omega) hs, readLine_of_notMem h (by omega), List.drop_length, cstr_of_notMem hzero]
    rfl

theorem readLines_splitOn (hlines : ∀ l ∈ s.splitOn NEWLINE, 0 ∉ l ∧ l.length + 2 ≤ size) :
    ∃ init last, s.splitOn NEWLINE = init ++ [last] ∧
      readLines size s = init.map (· ++ [NEWLINE]) ++ if last = [] then [] else [last] := by
  induction hn : s.length using Nat.strong_induction_on generalizing s with
  | _ n ih =>
    by_cases hnew : NEWLINE ∈ s
    · obtain ⟨u, v, rfl, hu⟩ := List.eq_append_cons_of_mem hnew
      have hsplit : (u ++ NEWLINE :: v).splitOn NEWLINE = u :: v.splitOn NEWLINE :=
        List.splitOn_append_cons_self_of_not_mem hu v
      rw [hsplit, List.forall_mem_cons] at hlines
      have hlt : v.length < n := by
        rw [← hn, List.length_append, List.length_cons]
        omega
      obtain ⟨init, last, hv, hread⟩ := ih _ hlt hlines.2 rfl
      refine ⟨u :: init, last, by rw [hsplit, hv, List.cons_append], ?_⟩
      rw [readLines_line hu hlines.1.2, hread, cstr_of_notMem, List.map_cons, List.cons_append]
      rw [List.mem_append, not_or]
      exact ⟨hlines.1.1, by decide⟩
    · rw [List.splitOn_eq_singleton hnew] at hlines ⊢
      rw [List.forall_mem_singleton] at hlines
      exact ⟨[], s, rfl, readLines_of_notMem hnew hlines.1 hlines.2⟩

end Lib.Libc
