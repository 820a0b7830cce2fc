import JurkOS.Lib.Pieces

/-!
A text from its lines, with the end of the last line or without it, and the pieces
of a buffer of `n + 1` bytes as those of the lines one after the other.
-/

namespace Lib.Pieces

open Libc

def joined (ls : List Str) : Str := closed ls.dropLast ++ ls.getLast?.getD []

def Ended (s : Str) : Prop := s = [] ∨ s.getLast? = some NEWLINE

instance : DecidablePred Ended := fun s => inferInstanceAs (Decidable (s = [] ∨ _))

def closedPieces (n : ℕ) (l : Str) : List Str := blocks n l ++ [rest n l ++ [NEWLINE]]

def openPieces (n : ℕ) (l : Str) : List Str := blocks n l ++ unclosed (rest n l)

def closedText (n : ℕ) (ls : List Str) : List Str := ls.flatMap (closedPieces n)

def openText (n : ℕ) (ls : List Str) : List Str := closedText n ls.dropLast ++ openPieces n (ls.getLast?.getD [])

variable {n : ℕ} {s l u v p : Str} {ls ls' ps init : List Str}

@[simp] theorem joined_concat (init : List Str) (u : Str) : joined (init ++ [u]) = closed init ++ u := by
  simp [joined]

@[simp] theorem closed_append (ls ls' : List Str) : closed (ls ++ ls') = closed ls ++ closed ls' := by
  simp [closed]

theorem joined_newline (hne : ls ≠ []) : joined ls ++ [NEWLINE] = closed ls := by
  obtain ⟨init, u, rfl⟩ := (List.eq_nil_or_concat' ls).resolve_left hne
  simp

theorem closed_perm (h : ls.Perm ls') : (closed ls).Perm (closed ls') := (h.map _).flatten

theorem ended_closed (ls : List Str) : Ended (closed ls) := closed_getLast? ls

theorem not_ended_append (hne : u ≠ []) (hline : NEWLINE ∉ u) : ¬Ended (s ++ u) := by
  rintro (hnil | hend)
  · exact hne (List.append_eq_nil_iff.mp hnil).2
  · rw [List.getLast?_append_of_ne_nil _ hne] at hend
    exact hline (List.mem_of_getLast? hend)

theorem newline_notMem_lines (hl : l ∈ lines s) : NEWLINE ∉ l := by
  obtain ⟨init, last, rfl, hinit, hlast⟩ := exists_text s
  rw [lines_text hinit hlast, List.mem_append, unclosed] at hl
  rcases hl with hl | hl
  · exact hinit l hl
  · split_ifs at hl
    · cases hl
    · exact List.mem_singleton.mp hl ▸ hlast

theorem lines_closed (hline : ∀ l ∈ ls, NEWLINE ∉ l) : lines (closed ls) = ls := by
  have h : lines (closed ls ++ []) = ls ++ unclosed [] := lines_text hline List.not_mem_nil
  rwa [List.append_nil, unclosed, if_pos rfl, List.append_nil] at h

theorem lines_joined (hline : ∀ l ∈ init ++ [u], NEWLINE ∉ l) (hne : u ≠ []) :
    lines (joined (init ++ [u])) = init ++ [u] := by
  rw [List.forall_mem_append, List.forall_mem_singleton] at hline
  rw [joined_concat, lines_text hline.1 hline.2, unclosed, if_neg hne]

theorem eq_closed (h : Ended s) : s = closed (lines s) := by
  obtain ⟨init, last, rfl, hinit, hlast⟩ := exists_text s
  by_cases hnil : last = []
  · rw [hnil, List.append_nil, lines_closed hinit]
  · exact absurd h (not_ended_append hnil hlast)

theorem eq_joined (h : ¬Ended s) : ∃ init u, u ≠ [] ∧ lines s = init ++ [u] ∧ s = joined (init ++ [u]) := by
  obtain ⟨init, last, rfl, hinit, hlast⟩ := exists_text s
  have hne : last ≠ [] := by
    rintro rfl
    exact h (by simpa using ended_closed init)
  exact ⟨init, last, hne, by rw [lines_text hinit hlast, unclosed, if_neg hne], (joined_concat init last).symm⟩

@[simp] theorem closedText_cons (n : ℕ) (l : Str) (ls : List Str) :
    closedText n (l :: ls) = closedPieces n l ++ closedText n ls := List.flatMap_cons

@[simp] theorem closedText_append (n : ℕ) (ls ls' : List Str) :
    closedText n (ls ++ ls') = closedText n ls ++ closedText n ls' := List.flatMap_append

@[simp] theorem closedText_singleton (n : ℕ) (l : Str) : closedText n [l] = closedPieces n l :=
  List.flatMap_singleton ..

@[simp] theorem openText_concat (n : ℕ) (init : List Str) (u : Str) :
    openText n (init ++ [u]) = closedText n init ++ openPieces n u := by
  simp [openText]

theorem flatten_closedPieces (hn : 0 < n) (l : Str) : (closedPieces n l).flatten = l ++ [NEWLINE] := by
  rw [closedPieces, List.flatten_append, List.flatten_singleton, ← List.append_assoc, flatten_blocks hn]

theorem flatten_openPieces (hn : 0 < n) (l : Str) : (openPieces n l).flatten = l := by
  rw [openPieces, List.flatten_append, flatten_unclosed, flatten_blocks hn]

theorem flatten_closedText (hn : 0 < n) (ls : List Str) : (closedText n ls).flatten = closed ls := by
  induction ls with
  | nil => rfl
  | cons l ls ih =>
    rw [closedText_cons, List.flatten_append, flatten_closedPieces hn, ih, closed_cons, List.append_assoc,
      List.singleton_append]

theorem flatten_openText (hn : 0 < n) (ls : List Str) : (openText n ls).flatten = joined ls := by
  rw [openText, List.flatten_append, flatten_closedText hn, flatten_openPieces hn, joined]

theorem closedText_perm (n : ℕ) (h : ls.Perm ls') : (closedText n ls).Perm (closedText n ls') := h.flatMap_right _

theorem openText_perm (n : ℕ) (init : List Str) (u : Str) :
    (openText n (init ++ [u]) ++ [rest n u ++ [NEWLINE]]).Perm
      (closedText n (init ++ [u]) ++ unclosed (rest n u)) := by
  rw [openText_concat, closedText_append, closedText_singleton, openPieces, closedPieces]
  simp only [List.append_assoc]
  apply List.Perm.append_left
  apply List.Perm.append_left
  exact List.perm_append_comm

theorem readLines_closedText (hn : 0 < n) (hline : ∀ l ∈ ls, NEWLINE ∉ l) (hzero : ∀ l ∈ ls, 0 ∉ l) (v : Str) :
    readLines (n + 1) (closed ls ++ v) = closedText n ls ++ readLines (n + 1) v := by
  induction ls with
  | nil => rfl
  | cons l ls ih =>
    rw [List.forall_mem_cons] at hline hzero
    rw [closed_cons, List.append_assoc, List.cons_append, readLines_closed hn hline.1 hzero.1, ih hline.2 hzero.2,
      closedText_cons, closedPieces]
    simp

theorem readLines_openText (hn : 0 < n) (hline : ∀ l ∈ init ++ [u], NEWLINE ∉ l) (hzero : ∀ l ∈ init ++ [u], 0 ∉ l) :
    readLines (n + 1) (joined (init ++ [u])) = openText n (init ++ [u]) := by
  rw [List.forall_mem_append, List.forall_mem_singleton] at hline hzero
  rw [joined_concat, readLines_closedText hn hline.1 hzero.1, readLines_unclosed hn hline.2 hzero.2, openText_concat,
    openPieces]

theorem readLines_finished (hn : 0 < n) (hpiece : ∀ p ∈ ps, Piece n p) (hdone : ∀ p ∈ ps, Finished n p)
    (hzero : ∀ p ∈ ps, 0 ∉ p) (v : Str) : readLines (n + 1) (ps.flatten ++ v) = ps ++ readLines (n + 1) v := by
  induction ps with
  | nil => rfl
  | cons p ps ih =>
    rw [List.forall_mem_cons] at hpiece hdone hzero
    have hread : readLine n (p ++ (ps.flatten ++ v)) = p := readLine_piece hpiece.1 fun _ => hdone.1
    rw [List.flatten_cons, List.append_assoc, readLines_cons (by omega) (by simp [hpiece.1.ne_nil]), Nat.add_sub_cancel,
      hread, cstr_of_notMem hzero.1, List.drop_left, ih hpiece.2 hdone.2 hzero.2, List.cons_append]

theorem finished_closedPieces (hn : 0 < n) (hp : p ∈ closedPieces n l) : Finished n p := by
  rw [closedPieces, List.mem_append, List.mem_singleton] at hp
  rcases hp with hp | rfl
  · exact .inl (length_of_mem_blocks hn hp)
  · exact .inr (by simp)

theorem finished_closedText (hn : 0 < n) (hp : p ∈ closedText n ls) : Finished n p := by
  obtain ⟨l, -, hp⟩ := List.mem_flatMap.mp hp
  exact finished_closedPieces hn hp

theorem newline_notMem_blocks (hn : 0 < n) (hline : NEWLINE ∉ l) (hp : p ∈ blocks n l) : NEWLINE ∉ p :=
  fun hc => hline (mem_of_mem_blocks hn hp hc)

theorem length_flatten_blocks (hps : ∀ p ∈ ps, p.length = n) : ps.flatten.length = ps.length * n := by
  induction ps with
  | nil => simp
  | cons p ps ih =>
    rw [List.forall_mem_cons] at hps
    rw [List.flatten_cons, List.length_append, hps.1, ih hps.2, List.length_cons, Nat.add_mul, Nat.one_mul,
      Nat.add_comm]

theorem length_rest_append (hn : 0 < n) (hv : v.length < n) (hps : ∀ p ∈ ps, p.length = n) :
    (rest n (v ++ ps.flatten)).length = v.length := by
  have hlen := length_flatten_blocks hps
  have hsplit : (v.length + ps.length * n) / n = ps.length := by
    rw [Nat.add_mul_div_right _ _ hn, Nat.div_eq_of_lt hv, Nat.zero_add]
  rw [rest, List.length_drop, List.length_append, hlen, hsplit, Nat.add_sub_cancel]

theorem perm_of_split {α : Type} {X X' Z Z' : List α} (P : α → Prop) [DecidablePred P] (h : (X ++ X').Perm (Z ++ Z'))
    (hX : ∀ p ∈ X, P p) (hX' : ∀ p ∈ X', ¬P p) (hZ : ∀ p ∈ Z, P p) (hZ' : ∀ p ∈ Z', ¬P p) :
    X.Perm Z ∧ X'.Perm Z' := by
  have hsplit {L L' : List α} (hL : ∀ p ∈ L, P p) (hL' : ∀ p ∈ L', ¬P p) : (L ++ L').filter (P ·) = L := by
    rw [List.filter_append, List.filter_eq_self.mpr (by simpa using hL),
      List.filter_eq_nil_iff.mpr (by simpa using hL'), List.append_nil]
  have hXZ : X.Perm Z := by
    have hfilter := h.filter (P ·)
    rwa [hsplit hX hX', hsplit hZ hZ'] at hfilter
  exact ⟨hXZ, (List.perm_append_left_iff Z).mp ((hXZ.append_right X').symm.trans h)⟩

end Lib.Pieces
