import JurkOS.Lib.Lines

/-!
The lines of a text, and the pieces that a buffer of `n + 1` bytes cuts them into:
full blocks of `n` bytes, and a rest that takes the end of the line.
-/

namespace Lib.Pieces

open Libc

variable {s l b v : Str} {init : List Str} {last : Str} {n : ℕ}

/-- The lines of a text; what stands after the last end counts where it is not empty. -/
def lines (s : Str) : List Str :=
  let parts := s.splitOn NEWLINE
  if parts.getLast? = some [] then parts.dropLast else parts

def closed (ls : List Str) : Str := (ls.map (· ++ [NEWLINE])).flatten

def unclosed (last : Str) : List Str := if last = [] then [] else [last]

def segments (s : Str) : List Str :=
  let parts := s.splitOn NEWLINE
  parts.dropLast.map (· ++ [NEWLINE]) ++ unclosed (parts.getLast?.getD [])

def lastLines (n : ℕ) (s : Str) : Str := ((segments s).drop ((segments s).length - n)).flatten

def blocks (n : ℕ) (l : Str) : List Str := (List.range (l.length / n)).map fun i => (l.drop (i * n)).take n

def rest (n : ℕ) (l : Str) : Str := l.drop (l.length / n * n)

@[simp] theorem closed_nil : closed [] = [] := rfl

@[simp] theorem closed_cons (l : Str) (ls : List Str) : closed (l :: ls) = l ++ NEWLINE :: closed ls := by
  simp [closed]

theorem closed_getLast? (ls : List Str) : closed ls = [] ∨ (closed ls).getLast? = some NEWLINE := by
  induction ls using List.reverseRecOn with
  | nil => exact .inl rfl
  | append_singleton ls l _ =>
    right
    rw [closed, List.map_append, List.flatten_append, List.map_singleton, List.flatten_singleton, ← List.append_assoc,
      List.getLast?_concat]

theorem exists_text (s : Str) : ∃ init last, s = closed init ++ last ∧ (∀ l ∈ init, NEWLINE ∉ l) ∧ NEWLINE ∉ last := by
  induction hn : s.length using Nat.strong_induction_on generalizing s with
  | _ n ih =>
    by_cases hnew : NEWLINE ∈ s
    · obtain ⟨u, v, rfl, hu⟩ := List.eq_append_cons_of_mem hnew
      obtain ⟨init, last, rfl, hinit, hlast⟩ := ih v.length (by simp [← hn]; omega) v rfl
      exact ⟨u :: init, last, by simp, by simpa using ⟨hu, hinit⟩, hlast⟩
    · exact ⟨[], s, rfl, by simp, hnew⟩

theorem splitOn_text (hinit : ∀ l ∈ init, NEWLINE ∉ l) (hlast : NEWLINE ∉ last) :
    (closed init ++ last).splitOn NEWLINE = init ++ [last] := by
  induction init with
  | nil => exact List.splitOn_eq_singleton hlast
  | cons l init ih =>
    rw [List.forall_mem_cons] at hinit
    rw [closed_cons, List.append_assoc, List.cons_append, List.splitOn_append_cons_self_of_not_mem hinit.1,
      ih hinit.2, List.cons_append]

theorem lines_text (hinit : ∀ l ∈ init, NEWLINE ∉ l) (hlast : NEWLINE ∉ last) :
    lines (closed init ++ last) = init ++ unclosed last := by
  rw [lines, splitOn_text hinit hlast]
  by_cases hnil : last = []
  · simp [hnil, unclosed]
  · simp [hnil, unclosed]

theorem mem_of_mem_lines {c : UInt8} (hl : l ∈ lines s) (hc : c ∈ l) : c ∈ s := by
  obtain ⟨init, last, rfl, hinit, hlast⟩ := exists_text s
  rw [lines_text hinit hlast, List.mem_append] at hl
  rcases hl with hl | hl
  · apply List.mem_append_left
    exact List.mem_flatten_of_mem (List.mem_map_of_mem hl) (List.mem_append_left _ hc)
  · rw [unclosed] at hl
    split_ifs at hl
    · cases hl
    · rw [List.mem_singleton] at hl
      exact List.mem_append_right _ (hl ▸ hc)

theorem blocks_of_lt (h : l.length < n) : blocks n l = [] := by
  rw [blocks, Nat.div_eq_of_lt h]
  rfl

theorem rest_of_lt (h : l.length < n) : rest n l = l := by
  rw [rest, Nat.div_eq_of_lt h, Nat.zero_mul]
  rfl

theorem length_div_append (hn : 0 < n) (hb : b.length = n) (l : Str) : (b ++ l).length / n = l.length / n + 1 := by
  rw [List.length_append, hb, Nat.add_div_left _ hn]

theorem blocks_append (hn : 0 < n) (hb : b.length = n) (l : Str) : blocks n (b ++ l) = b :: blocks n l := by
  rw [blocks, length_div_append hn hb, List.range_succ_eq_map, List.map_cons, List.map_map]
  congr 1
  · simp [← hb]
  · apply List.map_congr_left
    intro i hi
    simp only [Function.comp_apply, Nat.succ_eq_add_one, Nat.add_mul, Nat.one_mul, Nat.add_comm (i * n)]
    rw [List.drop_append, ← hb, List.drop_eq_nil_of_le (by omega), Nat.add_sub_cancel_left, List.nil_append]

theorem rest_append (hn : 0 < n) (hb : b.length = n) (l : Str) : rest n (b ++ l) = rest n l := by
  rw [rest, length_div_append hn hb, Nat.add_mul, Nat.one_mul, Nat.add_comm, List.drop_append, ← hb,
    List.drop_eq_nil_of_le (by omega), Nat.add_sub_cancel_left, List.nil_append, rest]

/-- An induction that takes a line block by block. -/
theorem block_induction (hn : 0 < n) {motive : Str → Prop} (short : ∀ l, l.length < n → motive l)
    (block : ∀ b l, b.length = n → motive l → motive (b ++ l)) (l : Str) : motive l := by
  induction hm : l.length using Nat.strong_induction_on generalizing l with
  | _ m ih =>
    by_cases hlt : l.length < n
    · exact short l hlt
    · rw [← List.take_append_drop n l]
      apply block
      · rw [List.length_take]
        omega
      · exact ih _ (by rw [List.length_drop]; omega) _ rfl

theorem length_rest_lt (hn : 0 < n) (l : Str) : (rest n l).length < n := by
  rw [rest, List.length_drop]
  have := Nat.div_add_mod' l.length n
  have := Nat.mod_lt l.length hn
  omega

theorem flatten_blocks (hn : 0 < n) (l : Str) : (blocks n l).flatten ++ rest n l = l := by
  induction l using block_induction hn with
  | short l hl =>
    rw [blocks_of_lt hl, rest_of_lt hl]
    rfl
  | block b l hb ih => rw [blocks_append hn hb, rest_append hn hb, List.flatten_cons, List.append_assoc, ih]

theorem length_of_mem_blocks (hn : 0 < n) (h : b ∈ blocks n l) : b.length = n := by
  induction l using block_induction hn with
  | short l hl =>
    rw [blocks_of_lt hl] at h
    cases h
  | block c l hc ih =>
    rw [blocks_append hn hc, List.mem_cons] at h
    rcases h with rfl | h
    · exact hc
    · exact ih h

theorem mem_of_mem_blocks (hn : 0 < n) (h : b ∈ blocks n l) {c : UInt8} (hc : c ∈ b) : c ∈ l := by
  rw [← flatten_blocks hn l]
  exact List.mem_append_left _ (List.mem_flatten_of_mem h hc)

theorem mem_of_mem_rest {c : UInt8} (hc : c ∈ rest n l) : c ∈ l := List.mem_of_mem_drop hc

structure Piece (n : ℕ) (p : Str) : Prop where
  ne_nil : p ≠ []
  length_le : p.length ≤ n
  line : NEWLINE ∉ p.dropLast

def Finished (n : ℕ) (p : Str) : Prop := p.length = n ∨ p.getLast? = some NEWLINE

def Cut (n : ℕ) : List Str → Prop
  | [] => True
  | p :: ps => Piece n p ∧ (ps ≠ [] → Finished n p) ∧ Cut n ps

theorem Piece.getLast? (hp : Piece n b) (hnew : NEWLINE ∈ b) : b.getLast? = some NEWLINE := by
  rw [← List.dropLast_append_getLast hp.ne_nil, List.mem_append, List.mem_singleton] at hnew
  have he := hnew.resolve_left hp.line
  rw [List.getLast?_eq_getLast_of_ne_nil hp.ne_nil, ← he]

theorem cut_iff {ps : List Str} : Cut n ps ↔ (∀ p ∈ ps, Piece n p) ∧ ∀ p ∈ ps.dropLast, Finished n p := by
  induction ps with
  | nil => simp [Cut]
  | cons p ps ih =>
    rw [Cut, ih, List.forall_mem_cons]
    cases ps with
    | nil => simp
    | cons q qs =>
      rw [List.dropLast_cons_cons, List.forall_mem_cons (a := p)]
      simp only [ne_eq, reduceCtorEq, not_false_eq_true, true_implies]
      constructor
      · exact fun ⟨hp, hdone, hps, hlast⟩ => ⟨⟨hp, hps⟩, hdone, hlast⟩
      · exact fun ⟨⟨hp, hps⟩, hdone, hlast⟩ => ⟨hp, hdone, hps, hlast⟩

theorem readLine_full (h : NEWLINE ∉ b) (v : Str) : readLine b.length (b ++ v) = b := by
  induction b with
  | nil => cases v <;> rfl
  | cons c b ih =>
    rw [List.mem_cons, not_or] at h
    rw [List.cons_append, List.length_cons, readLine, if_neg (Ne.symm h.1), ih h.2]

theorem readLine_ended (hline : NEWLINE ∉ b.dropLast) (hlen : b.length ≤ n) (hend : b.getLast? = some NEWLINE)
    (v : Str) : readLine n (b ++ v) = b := by
  have hb : b = b.dropLast ++ [NEWLINE] := (List.dropLast_append_getLast? NEWLINE hend).symm
  have hpos : b.length = b.dropLast.length + 1 := by
    rw [congrArg List.length hb, List.length_append, List.length_singleton]
  rw [hb, List.append_assoc, List.singleton_append]
  exact readLine_newline hline (by omega)

theorem readLine_stops (h : (readLine n s).length < s.length) :
    (readLine n s).length = n ∨ (readLine n s).getLast? = some NEWLINE := by
  induction s generalizing n with
  | nil => cases h
  | cons c s ih =>
    cases n with
    | zero => exact .inl rfl
    | succ n =>
      rw [readLine] at h ⊢
      split_ifs at h ⊢ with hc
      · exact .inr (congrArg some hc)
      · rw [List.length_cons, List.length_cons, Nat.add_lt_add_iff_right] at h
        rcases ih h with hfull | hend
        · exact .inl (congrArg (· + 1) hfull)
        · right
          rw [List.getLast?_cons, hend]
          rfl

theorem readLine_initial (n : ℕ) (s : Str) : readLine n s <+: s := by
  induction s generalizing n with
  | nil => cases n <;> exact List.nil_prefix
  | cons c s ih =>
    cases n with
    | zero => exact List.nil_prefix
    | succ n =>
      rw [readLine]
      split_ifs with hc
      · exact ⟨s, rfl⟩
      · exact (List.prefix_cons_inj c).mpr (ih n)

theorem readLine_piece (hp : Piece n b) (hdone : v ≠ [] → Finished n b) : readLine n (b ++ v) = b := by
  by_cases hend : b.getLast? = some NEWLINE
  · exact readLine_ended hp.line hp.length_le hend v
  · have hall : NEWLINE ∉ b := fun hnew => hend (hp.getLast? hnew)
    by_cases hv : v = []
    · rw [hv, List.append_nil]
      exact readLine_of_notMem hall hp.length_le
    · rw [← (hdone hv).resolve_right hend]
      exact readLine_full hall v

theorem cut_readLines (hn : 0 < n) (hzero : 0 ∉ s) :
    Cut n (readLines (n + 1) s) ∧ (readLines (n + 1) s).flatten = s := by
  induction hm : s.length using Nat.strong_induction_on generalizing s with
  | _ m ih =>
    by_cases hs : s = []
    · rw [hs]
      exact ⟨trivial, rfl⟩
    · have hsize : 2 ≤ n + 1 := by omega
      have hcons := readLines_cons hsize hs
      have hlt := drop_readLine_lt hsize hs
      rw [Nat.add_sub_cancel] at hcons hlt
      have hinitial := readLine_initial n s
      have hsplit : readLine n s ++ s.drop (readLine n s).length = s := by
        rw [List.prefix_iff_eq_append] at hinitial
        exact hinitial
      obtain ⟨hcut, hflat⟩ := ih _ (hm ▸ hlt) (fun h => hzero (List.mem_of_mem_drop h)) rfl
      rw [hcons, cstr_of_notMem fun h => hzero (hinitial.subset h), List.flatten_cons, hflat]
      refine ⟨⟨⟨?_, length_readLine_le n s, newline_notMem_dropLast n s⟩, ?_, hcut⟩, hsplit⟩
      · obtain ⟨k, rfl⟩ := Nat.exists_eq_succ_of_ne_zero hn.ne'
        exact readLine_ne_nil hs
      · intro hne
        apply readLine_stops
        apply Nat.lt_of_le_of_ne (length_readLine_le_length n s)
        intro he
        rw [he, List.drop_length] at hne
        exact hne rfl

theorem ne_nil_of_cut {ps : List Str} (h : Cut n ps) : ∀ p ∈ ps, p ≠ [] := fun p hp => ((cut_iff.mp h).1 p hp).ne_nil

theorem readLines_block (hn : 0 < n) (hb : b.length = n) (hline : NEWLINE ∉ b) (hzero : 0 ∉ b) (v : Str) :
    readLines (n + 1) (b ++ v) = b :: readLines (n + 1) v := by
  have hne : b ++ v ≠ [] := by
    rw [ne_eq, List.append_eq_nil_iff, not_and]
    rintro rfl
    exact absurd hb (Nat.ne_of_lt hn)
  have hread : readLine n (b ++ v) = b := hb ▸ readLine_full hline v
  rw [readLines_cons (by omega) hne, Nat.add_sub_cancel, hread, cstr_of_notMem hzero, List.drop_left]

theorem readLines_closed (hn : 0 < n) (hline : NEWLINE ∉ l) (hzero : 0 ∉ l) (v : Str) :
    readLines (n + 1) (l ++ NEWLINE :: v) =
      blocks n l ++ (rest n l ++ [NEWLINE]) :: readLines (n + 1) v := by
  induction l using block_induction hn with
  | short l hl =>
    have hterm : 0 ∉ l ++ [NEWLINE] := by
      rw [List.mem_append, not_or]
      exact ⟨hzero, by decide⟩
    rw [blocks_of_lt hl, rest_of_lt hl, readLines_line hline (by omega), cstr_of_notMem hterm]
    rfl
  | block b l hb ih =>
    rw [List.mem_append, not_or] at hline hzero
    rw [blocks_append hn hb, rest_append hn hb, List.append_assoc, readLines_block hn hb hline.1 hzero.1,
      ih hline.2 hzero.2, List.cons_append]

theorem readLines_unclosed (hn : 0 < n) (hline : NEWLINE ∉ l) (hzero : 0 ∉ l) :
    readLines (n + 1) l = blocks n l ++ unclosed (rest n l) := by
  induction l using block_induction hn with
  | short l hl =>
    rw [blocks_of_lt hl, rest_of_lt hl, readLines_of_notMem hline hzero (by omega)]
    rfl
  | block b l hb ih =>
    rw [List.mem_append, not_or] at hline hzero
    rw [blocks_append hn hb, rest_append hn hb, readLines_block hn hb hline.1 hzero.1, ih hline.2 hzero.2,
      List.cons_append]

theorem length_unclosed_le (l : Str) : (unclosed l).length ≤ 1 := by
  rw [unclosed]
  split_ifs <;> simp

theorem flatten_unclosed (l : Str) : (unclosed l).flatten = l := by
  rw [unclosed]
  split_ifs with h
  · rw [h]
    rfl
  · simp

theorem segments_text (hinit : ∀ l ∈ init, NEWLINE ∉ l) (hlast : NEWLINE ∉ last) :
    segments (closed init ++ last) = init.map (· ++ [NEWLINE]) ++ unclosed last := by
  rw [segments, splitOn_text hinit hlast]
  simp

theorem length_segments_text (hinit : ∀ l ∈ init, NEWLINE ∉ l) (hlast : NEWLINE ∉ last) :
    (segments (closed init ++ last)).length = init.length + (unclosed last).length := by
  rw [segments_text hinit hlast, List.length_append, List.length_map]

theorem exists_lastLines (hn : 0 < n) (s : Str) : ∃ front, s = front ++ lastLines n s ∧
    (front = [] ∨ front.getLast? = some NEWLINE) ∧ (front = [] ∨ n ≤ (segments (lastLines n s)).length) := by
  obtain ⟨init, last, rfl, hinit, hlast⟩ := exists_text s
  have hlen := length_segments_text hinit hlast
  have hone := length_unclosed_le last
  have hm : init.length + (unclosed last).length - n ≤ init.length := by omega
  have hlines : lastLines n (closed init ++ last) =
      closed (init.drop (init.length + (unclosed last).length - n)) ++ last := by
    rw [lastLines, hlen, segments_text hinit hlast, List.drop_append_of_le_length (by simpa using hm),
      List.flatten_append, flatten_unclosed, ← List.map_drop, closed]
  refine ⟨closed (init.take (init.length + (unclosed last).length - n)), ?_, closed_getLast? _, ?_⟩
  · rw [hlines, ← List.append_assoc, closed, closed, closed, ← List.flatten_append, ← List.map_append,
      List.take_append_drop]
  · by_cases hle : init.length + (unclosed last).length ≤ n
    · left
      rw [Nat.sub_eq_zero_of_le hle, List.take_zero]
      rfl
    · right
      rw [hlines, length_segments_text (fun l hl => hinit l (List.mem_of_mem_drop hl)) hlast, List.length_drop]
      omega

theorem length_segments_le (hn : 0 < n) (hzero : 0 ∉ s) : (segments s).length ≤ (readLines (n + 1) s).length := by
  obtain ⟨init, last, rfl, hinit, hlast⟩ := exists_text s
  rw [length_segments_text hinit hlast]
  induction init with
  | nil =>
    rw [closed_nil, List.nil_append] at hzero ⊢
    rw [readLines_unclosed hn hlast hzero, List.length_append, List.length_nil]
    by_cases hlt : last.length < n
    · rw [rest_of_lt hlt]
      omega
    · have hpos : 0 < (blocks n last).length := by
        rw [blocks, List.length_map, List.length_range]
        exact Nat.div_pos (Nat.not_lt.mp hlt) hn
      have := length_unclosed_le last
      omega
  | cons l init ih =>
    rw [List.forall_mem_cons] at hinit
    rw [closed_cons, List.append_assoc, List.cons_append, List.mem_append, List.mem_cons, not_or, not_or] at hzero
    have hrest := ih hzero.2.2 hinit.2
    rw [closed_cons, List.append_assoc, List.cons_append, readLines_closed hn hinit.1 hzero.1, List.length_append,
      List.length_cons, List.length_cons]
    omega

end Lib.Pieces
