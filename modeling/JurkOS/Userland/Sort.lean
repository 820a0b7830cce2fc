import Mathlib.Data.List.Sort
import JurkOS.Lib.Texts
import JurkOS.Userland.Uniq

/-!
`cmd_sort` of `NoneCompiled/main.c`: it puts in order what `fgets` leaves in a buffer of
512 bytes, a line with its end or a piece of a longer one.
-/

namespace JurkOS.Userland.Sort

open Lib.Libc Lib.Pieces
open Uniq (oneText)

def strCompare : Str → Str → ℤ := strcmp

/-- What `qsort` leaves; strings that compare equal are equal. -/
def qsort (ls : List Str) : List Str := ls.insertionSort fun a b => strCompare a b ≤ 0

def taken (s : Str) : List Str := (readLines 512 s).take 1024

def sortText (s : Str) : Str := (qsort (taken s)).flatten

def cmdSort : Fopen → List Str → Str := operate (bytes "sort") sortText

def InOrder (ls : List Str) : Prop := ls.Pairwise fun a b => strcmp a b ≤ 0

structure Sorts (out s : Str) : Prop where
  perm : (lines out).Perm (lines s)
  order : InOrder (lines out)

/-! ### The pieces in order -/

def ordered (s : Str) : List Str := qsort (lines s)

def lastRest (ls : List Str) : Str := rest 511 (ls.getLast?.getD [])

structure Turned (r : Str) (C Y : List Str) : Prop where
  perm : Y.Perm C
  text : r ++ Y.flatten = C.flatten ++ r

/-- The lines in their order have their pieces in order too, as far as the text shows it. -/
inductive PiecesInOrder (s : Str) : Prop
  | ended (hend : Ended s) (hroom : (closedText 511 (lines s)).length ≤ 1024)
      (horder : InOrder (closedText 511 (ordered s)))
  | oneMore (hend : Ended s) (hroom : (closedText 511 (lines s)).length = 1025) (hlast : lastRest (lines s) = [])
      (hne : (ordered s).getLast? ≠ some []) (hrest : lastRest (ordered s) = [])
      (horder : InOrder (openText 511 (ordered s)))
  | unended (hend : ¬Ended s) (hroom : (openText 511 (lines s)).length ≤ 1024)
      (hrest : lastRest (ordered s) = lastRest (lines s)) (A C Y : List Str)
      (hpieces : openText 511 (ordered s) = A ++ C ++ unclosed (lastRest (lines s)))
      (hturn : Turned (lastRest (lines s)) C Y) (horder : InOrder (A ++ unclosed (lastRest (lines s)) ++ Y))
  | divided (hend : ¬Ended s) (hroom : (openText 511 (lines s)).length ≤ 1024) (hlast : lastRest (lines s) ≠ [])
      (hrest : lastRest (ordered s) = []) (A C Y B : List Str)
      (hpieces : openText 511 (ordered s) = A ++ C ++ (lastRest (lines s) ++ [NEWLINE]) :: B)
      (hturn : Turned (lastRest (lines s)) C Y)
      (horder : InOrder (A ++ lastRest (lines s) :: Y ++ [NEWLINE] :: B))

variable {s u m r : Str} {ls ls' init ps S A Z : List Str}

/-! ### The order -/

theorem qsort_perm (ls : List Str) : (qsort ls).Perm ls := List.perm_insertionSort _ ls

instance : IsTrans Str (· ≤ ·) := ⟨fun _ _ _ => List.le_trans⟩

instance : @Std.Total Str (· ≤ ·) := ⟨List.le_total⟩

theorem inOrder_iff (h : ∀ l ∈ ls, 0 ∉ l) : InOrder ls ↔ ls.Pairwise (· ≤ ·) := by
  apply List.Pairwise.iff_of_mem
  intro a b ha hb
  exact strcmp_le_zero_iff (h a ha)

theorem qsort_eq (h : ∀ l ∈ ls, 0 ∉ l) : qsort ls = ls.insertionSort (· ≤ ·) := by
  have hmap := List.map_insertionSort (r := fun a b => strCompare a b ≤ 0) (s := fun a b : Str => a ≤ b) id ls
    fun a ha b hb => strcmp_le_zero_iff (h a ha)
  rwa [List.map_id, List.map_id] at hmap

theorem qsort_inOrder (h : ∀ l ∈ ls, 0 ∉ l) : InOrder (qsort ls) := by
  rw [inOrder_iff fun l hl => h l ((qsort_perm ls).subset hl), qsort_eq h]
  exact List.pairwise_insertionSort _ ls

theorem eq_qsort (h : ∀ l ∈ ls, 0 ∉ l) (hperm : ls'.Perm ls) (horder : InOrder ls') : ls' = qsort ls := by
  have hzero : ∀ l ∈ ls', 0 ∉ l := fun l hl => h l (hperm.subset hl)
  have hzero' : ∀ l ∈ qsort ls, 0 ∉ l := fun l hl => h l ((qsort_perm ls).subset hl)
  apply List.Perm.eq_of_pairwise (fun a b _ _ => List.le_antisymm) ((inOrder_iff hzero).mp horder)
    ((inOrder_iff hzero').mp (qsort_inOrder h))
  exact hperm.trans (qsort_perm ls).symm

/-! ### What is taken -/

theorem zero_notMem_taken (hzero : 0 ∉ s) : ∀ p ∈ taken s, 0 ∉ p := by
  intro p hp h
  rw [← (cut_readLines (n := 511) (by decide) hzero).2] at hzero
  exact hzero (List.mem_flatten_of_mem (List.mem_of_mem_take hp) h)

theorem piece_taken (hzero : 0 ∉ s) : ∀ p ∈ taken s, Piece 511 p :=
  fun p hp => (cut_iff.mp (cut_readLines (n := 511) (by decide) hzero).1).1 p (List.mem_of_mem_take hp)

theorem zero_notMem_lines (hzero : 0 ∉ s) : ∀ l ∈ lines s, 0 ∉ l := fun _ hl h => hzero (mem_of_mem_lines hl h)

theorem ordered_perm (s : Str) : (ordered s).Perm (lines s) := qsort_perm _

theorem newline_notMem_ordered (hl : u ∈ ordered s) : NEWLINE ∉ u := newline_notMem_lines ((ordered_perm s).subset hl)

theorem zero_notMem_ordered (hzero : 0 ∉ s) (hl : u ∈ ordered s) : 0 ∉ u :=
  zero_notMem_lines hzero u ((ordered_perm s).subset hl)

theorem readLines_ended (hzero : 0 ∉ s) (hend : Ended s) : readLines 512 s = closedText 511 (lines s) := by
  have h := readLines_closedText (n := 511) (by decide) (fun l => newline_notMem_lines (s := s))
    (zero_notMem_lines hzero) []
  change _ = _ ++ ([] : List Str) at h
  rwa [List.append_nil, List.append_nil, ← eq_closed hend] at h

theorem readLines_unended (hzero : 0 ∉ s) (hend : ¬Ended s) : readLines 512 s = openText 511 (lines s) := by
  obtain ⟨init, u, hu, hlines, htext⟩ := eq_joined hend
  have hline := fun l => newline_notMem_lines (s := s) (l := l)
  have hzeros := zero_notMem_lines hzero
  rw [hlines] at hline hzeros ⊢
  rw [htext]
  exact readLines_openText (by decide) hline hzeros

/-! ### Pieces in order are printed as lines in order -/

theorem sorts_of_pieces (hzero : 0 ∉ s) (hperm : S.Perm (taken s)) (horder : InOrder S)
    (hlines : lines S.flatten = ordered s) : Sorts (sortText s) s := by
  have hsort : sortText s = S.flatten := by
    rw [sortText, ← eq_qsort (zero_notMem_taken hzero) hperm horder]
  rw [hsort]
  constructor
  · rw [hlines]
    exact ordered_perm s
  · rw [hlines]
    exact qsort_inOrder (zero_notMem_lines hzero)

theorem lines_closed_ordered (s : Str) : lines (closed (ordered s)) = ordered s :=
  lines_closed fun _ hl => newline_notMem_ordered hl

theorem lines_joined_ordered (hlast : ordered s = init ++ [m]) (hne : m ≠ []) :
    lines (joined (ordered s)) = ordered s := by
  have hline := fun l => newline_notMem_ordered (s := s) (u := l)
  rw [hlast] at hline ⊢
  exact lines_joined hline hne

theorem last_ordered_ne_nil (hzero : 0 ∉ s) (hlast : ordered s = init ++ [m]) (hu : u ∈ lines s) (hne : u ≠ []) :
    m ≠ [] := by
  rintro rfl
  have hle : u ≤ [] := by
    have horder := qsort_inOrder (zero_notMem_lines hzero)
    change InOrder (ordered s) at horder
    rw [inOrder_iff fun l hl => zero_notMem_ordered hzero hl, hlast, List.pairwise_append] at horder
    have hmem := (ordered_perm s).symm.subset hu
    rw [hlast, List.mem_append] at hmem
    rcases hmem with hmem | hmem
    · exact horder.2.2 u hmem [] List.mem_cons_self
    · exact absurd (List.mem_singleton.mp hmem) hne
  exact hne (List.le_nil.mp hle)

theorem lastRest_concat (init : List Str) (u : Str) : lastRest (init ++ [u]) = rest 511 u := by
  rw [lastRest, List.getLast?_concat]
  rfl

theorem exists_last (h : ls ≠ []) : ∃ init u, ls = init ++ [u] := (List.eq_nil_or_concat' ls).resolve_left h

theorem ordered_ne_nil (h : lines s ≠ []) : ordered s ≠ [] := by
  intro hnil
  have hlen := (ordered_perm s).length_eq
  rw [hnil, eq_comm, List.length_nil, List.length_eq_zero_iff] at hlen
  exact h hlen

theorem openText_ordered (hne : lines s ≠ []) :
    (openText 511 (ordered s) ++ ([lastRest (ordered s) ++ [NEWLINE]] ++ unclosed (lastRest (lines s)))).Perm
      (openText 511 (lines s) ++ ([lastRest (lines s) ++ [NEWLINE]] ++ unclosed (lastRest (ordered s)))) := by
  have hclosed := closedText_perm 511 (ordered_perm s)
  obtain ⟨init, u, hlines⟩ := exists_last hne
  obtain ⟨init', m, hordered⟩ := exists_last (ordered_ne_nil hne)
  have hu := openText_perm 511 init u
  have hm := openText_perm 511 init' m
  rw [← hlines, ← lastRest_concat init u, ← hlines] at hu
  rw [← hordered, ← lastRest_concat init' m, ← hordered] at hm
  rw [List.perm_iff_count] at hu hm hclosed ⊢
  intro p
  have hu := hu p
  have hm := hm p
  have hclosed := hclosed p
  simp only [List.count_append] at hu hm ⊢
  omega

theorem lines_ne_nil (h : ¬Ended s) : lines s ≠ [] := by
  obtain ⟨init, u, -, hlines, -⟩ := eq_joined h
  rw [hlines]
  simp

theorem lines_joined_unended (hzero : 0 ∉ s) (hend : ¬Ended s) : lines (joined (ordered s)) = ordered s := by
  obtain ⟨init, u, hu, hlines, -⟩ := eq_joined hend
  obtain ⟨init', m, hordered⟩ := exists_last (ordered_ne_nil (lines_ne_nil hend))
  exact lines_joined_ordered hordered (last_ordered_ne_nil hzero hordered (by rw [hlines]; simp) hu)

theorem taken_unended (hzero : 0 ∉ s) (hend : ¬Ended s) (hroom : (openText 511 (lines s)).length ≤ 1024) :
    taken s = openText 511 (lines s) := by
  rw [taken, readLines_unended hzero hend, List.take_of_length_le hroom]

theorem closedText_concat_nil (h : rest 511 u = []) :
    closedText 511 (init ++ [u]) = openText 511 (init ++ [u]) ++ [[NEWLINE]] := by
  rw [closedText_append, closedText_singleton, openText_concat, closedPieces, openPieces, h, unclosed, if_pos rfl]
  simp

theorem sorts_of_piecesInOrder (hzero : 0 ∉ s) (h : PiecesInOrder s) : Sorts (sortText s) s := by
  cases h with
  | ended hend hroom horder =>
    apply sorts_of_pieces hzero _ horder
    · rw [flatten_closedText (by decide), lines_closed_ordered]
    · rw [taken, readLines_ended hzero hend, List.take_of_length_le hroom]
      exact closedText_perm 511 (ordered_perm s)
  | oneMore hend hroom hlast hne hrest horder =>
    have hnil : lines s ≠ [] := by
      intro hnil
      rw [hnil] at hroom
      cases hroom
    obtain ⟨init, u, hlines⟩ := exists_last hnil
    obtain ⟨init', m, hordered⟩ := exists_last (ordered_ne_nil hnil)
    have htaken : taken s = openText 511 (lines s) := by
      rw [hlines, lastRest_concat] at hlast
      rw [taken, readLines_ended hzero hend]
      rw [hlines, closedText_concat_nil hlast, List.length_append, List.length_singleton, Nat.add_right_cancel_iff]
        at hroom
      rw [hlines, closedText_concat_nil hlast, List.take_append_of_le_length hroom.ge, List.take_of_length_le hroom.le]
    apply sorts_of_pieces hzero _ horder
    · rw [flatten_openText (by decide)]
      apply lines_joined_ordered hordered
      rintro rfl
      exact hne (by rw [hordered, List.getLast?_concat])
    · have hperm := openText_ordered hnil
      rw [hlast, hrest, List.perm_append_right_iff] at hperm
      rwa [htaken]
  | unended hend hroom hrest A C Y hpieces hturn horder =>
    apply sorts_of_pieces hzero _ horder
    · have htext : (A ++ unclosed (lastRest (lines s)) ++ Y).flatten = joined (ordered s) := by
        rw [← flatten_openText (n := 511) (by decide), hpieces]
        simp only [List.flatten_append, flatten_unclosed, List.append_assoc, hturn.text]
      rw [htext, lines_joined_unended hzero hend]
    · have hperm := openText_ordered (lines_ne_nil hend)
      rw [hrest, List.perm_append_right_iff, hpieces] at hperm
      have hYC := hturn.perm
      rw [taken_unended hzero hend hroom]
      rw [List.perm_iff_count] at hperm hYC ⊢
      intro p
      have hperm := hperm p
      have hYC := hYC p
      simp only [List.count_append] at hperm ⊢
      omega
  | divided hend hroom hlast hrest A C Y B hpieces hturn horder =>
    apply sorts_of_pieces hzero _ horder
    · have htext : (A ++ lastRest (lines s) :: Y ++ [NEWLINE] :: B).flatten = joined (ordered s) := by
        have hturned (v : Str) := congrArg (· ++ v) hturn.text
        rw [← flatten_openText (n := 511) (by decide), hpieces]
        simp only [List.append_assoc] at hturned
        simp only [List.flatten_append, List.flatten_cons, List.append_assoc, hturned]
      rw [htext, lines_joined_unended hzero hend]
    · have hperm := openText_ordered (lines_ne_nil hend)
      have hYC := hturn.perm
      rw [hrest, unclosed, unclosed, if_neg hlast, if_pos rfl, hpieces, List.nil_append, List.append_nil] at hperm
      rw [taken_unended hzero hend hroom]
      rw [List.perm_iff_count] at hperm hYC ⊢
      intro p
      have hperm := hperm p
      have hYC := hYC p
      simp only [List.count_append, List.count_cons, List.count_nil] at hperm ⊢
      omega

/-! ### Lines in order come from pieces in order -/

theorem lines_sorted (hzero : 0 ∉ s) (h : Sorts (sortText s) s) : lines (sortText s) = ordered s :=
  eq_qsort (zero_notMem_lines hzero) h.perm h.order

theorem readLines_finished_nil (hpiece : ∀ p ∈ ls, Piece 511 p) (hdone : ∀ p ∈ ls, Finished 511 p)
    (hzero : ∀ p ∈ ls, 0 ∉ p) : readLines 512 ls.flatten = ls := by
  have h := readLines_finished (n := 511) (by decide) hpiece hdone hzero []
  change _ = _ ++ ([] : List Str) at h
  rwa [List.append_nil, List.append_nil] at h

theorem readLines_sorted (hzero : 0 ∉ s) (hdone : ∀ p ∈ taken s, Finished 511 p) :
    readLines 512 (sortText s) = qsort (taken s) := by
  have hmem (p : Str) (hp : p ∈ qsort (taken s)) : p ∈ taken s := (qsort_perm (taken s)).subset hp
  exact readLines_finished_nil (fun p hp => piece_taken hzero p (hmem p hp)) (fun p hp => hdone p (hmem p hp))
    fun p hp => zero_notMem_taken hzero p (hmem p hp)

theorem zero_notMem_sorted (hzero : 0 ∉ s) : 0 ∉ sortText s := by
  intro hmem
  obtain ⟨p, hp, hmem⟩ := List.mem_flatten.mp hmem
  exact zero_notMem_taken hzero p ((qsort_perm _).subset hp) hmem

theorem readLines_sorted_ended (hzero : 0 ∉ s) (h : Sorts (sortText s) s) (hout : Ended (sortText s)) :
    readLines 512 (sortText s) = closedText 511 (ordered s) := by
  rw [readLines_ended (zero_notMem_sorted hzero) hout, lines_sorted hzero h]

theorem readLines_sorted_unended (hzero : 0 ∉ s) (h : Sorts (sortText s) s) (hout : ¬Ended (sortText s)) :
    readLines 512 (sortText s) = openText 511 (ordered s) := by
  rw [readLines_unended (zero_notMem_sorted hzero) hout, lines_sorted hzero h]

theorem finished_taken (hzero : 0 ∉ s) (hend : Ended s) : ∀ p ∈ taken s, Finished 511 p := by
  intro p hp
  have hmem := List.mem_of_mem_take hp
  rw [readLines_ended hzero hend] at hmem
  exact finished_closedText (by decide) hmem

theorem dropped_of_unended (hzero : 0 ∉ s) (hend : Ended s) (hnil : lines s ≠ [])
    (hpieces : openText 511 (ordered s) = qsort (taken s)) :
    (closedText 511 (lines s)).drop 1024 = [[NEWLINE]] ∧ lastRest (ordered s) = [] := by
  have hsplit : taken s ++ (closedText 511 (lines s)).drop 1024 = closedText 511 (lines s) := by
    rw [taken, readLines_ended hzero hend, List.take_append_drop]
  have hperm : ((closedText 511 (lines s)).drop 1024 ++ unclosed (lastRest (ordered s))).Perm
      [lastRest (ordered s) ++ [NEWLINE]] := by
    have hclosed := closedText_perm 511 (ordered_perm s)
    have hsorted := qsort_perm (taken s)
    obtain ⟨init, m, hordered⟩ := exists_last (ordered_ne_nil hnil)
    have hm := openText_perm 511 init m
    rw [← hordered, ← lastRest_concat init m, ← hordered, hpieces] at hm
    rw [← hsplit] at hclosed
    rw [List.perm_iff_count] at hclosed hsorted hm ⊢
    intro p
    have hclosed := hclosed p
    have hsorted := hsorted p
    have hm := hm p
    simp only [List.count_append] at hclosed hm ⊢
    omega
  by_cases hrest : lastRest (ordered s) = []
  · rw [hrest, unclosed, if_pos rfl, List.append_nil, List.nil_append, List.perm_singleton] at hperm
    exact ⟨hperm, hrest⟩
  · have heq := List.perm_singleton.mp hperm
    have hdrop : (closedText 511 (lines s)).drop 1024 = [] := by
      have hlen := congrArg List.length heq
      rw [unclosed, if_neg hrest, List.length_append, List.length_singleton, List.length_singleton,
        Nat.add_eq_right] at hlen
      exact List.length_eq_zero_iff.mp hlen
    rw [hdrop, unclosed, if_neg hrest, List.nil_append, List.singleton_inj] at heq
    exact absurd (congrArg List.length heq) (by simp)

theorem piecesInOrder_of_ended (hzero : 0 ∉ s) (hend : Ended s) (h : Sorts (sortText s) s) : PiecesInOrder s := by
  have hread := readLines_sorted hzero (finished_taken hzero hend)
  have horder := qsort_inOrder (zero_notMem_taken hzero)
  by_cases hout : Ended (sortText s)
  · rw [readLines_sorted_ended hzero h hout] at hread
    apply PiecesInOrder.ended hend
    · have hlen := (closedText_perm 511 (ordered_perm s)).length_eq
      rw [hread, (qsort_perm _).length_eq, taken, List.length_take, readLines_ended hzero hend] at hlen
      omega
    · rwa [hread]
  · rw [readLines_sorted_unended hzero h hout] at hread
    obtain ⟨init', m, hm, hordered, -⟩ := eq_joined hout
    rw [lines_sorted hzero h] at hordered
    have hnil : lines s ≠ [] := by
      intro hnil
      have hlen := (ordered_perm s).length_eq
      rw [hnil, hordered] at hlen
      simp at hlen
    obtain ⟨hdrop, hrest⟩ := dropped_of_unended hzero hend hnil hread
    obtain ⟨init, u, hlines⟩ := exists_last hnil
    apply PiecesInOrder.oneMore hend _ _ _ hrest (hread ▸ horder)
    · have hlen := congrArg List.length hdrop
      rw [List.length_drop, List.length_singleton] at hlen
      omega
    · have hlast : (closedText 511 (lines s)).getLast? = some [NEWLINE] := by
        rw [← List.take_append_drop 1024 (closedText 511 (lines s)), hdrop, List.getLast?_concat]
      rw [hlines, closedText_append, closedText_singleton, closedPieces, ← List.append_assoc, List.getLast?_concat,
        Option.some.injEq] at hlast
      rw [hlines, lastRest_concat]
      exact List.append_cancel_right hlast
    · rw [hordered, List.getLast?_concat]
      exact fun heq => hm (Option.some.inj heq)

/-! ### A last line without an end -/

theorem length_sortText (s : Str) : (sortText s).length = (taken s).flatten.length :=
  (qsort_perm (taken s)).flatten.length_eq

theorem taken_of_sorts (hzero : 0 ∉ s) (hend : ¬Ended s) (h : Sorts (sortText s) s) :
    ¬Ended (sortText s) ∧ (openText 511 (lines s)).length ≤ 1024 := by
  have hsplit : (taken s).flatten ++ ((readLines 512 s).drop 1024).flatten = s := by
    rw [taken, ← List.flatten_append, List.take_append_drop]
    exact (cut_readLines (n := 511) (by decide) hzero).2
  have hlen : (sortText s).length + ((readLines 512 s).drop 1024).flatten.length = s.length := by
    rw [length_sortText, ← List.length_append, hsplit]
  have hclosed : (closed (ordered s)).length = s.length + 1 := by
    obtain ⟨init, u, -, hlines, htext⟩ := eq_joined hend
    rw [(closed_perm (ordered_perm s)).length_eq, hlines, ← joined_newline (by simp), ← htext, List.length_append,
      List.length_singleton]
  have hout : ¬Ended (sortText s) := by
    intro hout
    have heq := eq_closed hout
    rw [lines_sorted hzero h] at heq
    rw [heq] at hlen
    omega
  refine ⟨hout, ?_⟩
  obtain ⟨init', m, -, hordered, htext⟩ := eq_joined hout
  rw [lines_sorted hzero h] at hordered
  rw [hordered, ← joined_newline (by simp), ← htext, List.length_append, List.length_singleton] at hclosed
  have hdrop : (readLines 512 s).drop 1024 = [] := by
    rw [List.eq_nil_iff_forall_not_mem]
    intro p hp
    have hnil : ((readLines 512 s).drop 1024).flatten = [] := List.length_eq_zero_iff.mp (by omega)
    have hne := ne_nil_of_cut (cut_readLines (n := 511) (by decide) hzero).1 p (List.mem_of_mem_drop hp)
    exact hne (List.flatten_eq_nil_iff.mp hnil p hp)
  rw [← readLines_unended hzero hend]
  exact List.drop_eq_nil_iff.mp hdrop

theorem lastRest_length (ls : List Str) : (lastRest ls).length < 511 := length_rest_lt (by decide) _

theorem newline_notMem_lastRest (s : Str) : NEWLINE ∉ lastRest (lines s) := by
  rw [lastRest]
  cases hlast : (lines s).getLast? with
  | none => exact fun h => absurd (mem_of_mem_rest h) List.not_mem_nil
  | some u => exact fun h => newline_notMem_lines (List.mem_of_getLast? hlast) (mem_of_mem_rest h)

theorem openText_finished (ls : List Str) : ∃ ps, openText 511 ls = ps ++ unclosed (lastRest ls) ∧
    ∀ p ∈ ps, Finished 511 p := by
  refine ⟨closedText 511 ls.dropLast ++ blocks 511 (ls.getLast?.getD []), (List.append_assoc ..).symm, fun p hp => ?_⟩
  rcases List.mem_append.mp hp with hp | hp
  · exact finished_closedText (by decide) hp
  · exact .inl (length_of_mem_blocks (by decide) hp)

theorem qsort_split (hzero : 0 ∉ s) (hend : ¬Ended s) (hroom : (openText 511 (lines s)).length ≤ 1024)
    (hlast : lastRest (lines s) ≠ []) :
    ∃ A Z, qsort (taken s) = A ++ lastRest (lines s) :: Z ∧ ∀ p ∈ A ++ Z, Finished 511 p := by
  obtain ⟨ps, hps, hdone⟩ := openText_finished (lines s)
  rw [unclosed, if_neg hlast] at hps
  have hperm := qsort_perm (taken s)
  rw [taken_unended hzero hend hroom, hps] at hperm
  have hmem : lastRest (lines s) ∈ qsort (ps ++ [lastRest (lines s)]) := hperm.symm.subset (by simp)
  obtain ⟨A, Z, hsplit⟩ := List.append_of_mem hmem
  rw [taken_unended hzero hend hroom, hps]
  refine ⟨A, Z, hsplit, fun p hp => hdone p ?_⟩
  rw [hsplit] at hperm
  exact ((List.perm_middle.symm.trans hperm).trans List.perm_append_comm).cons_inv.subset hp

theorem newline_notMem_unclosed_ordered (hp : u ∈ unclosed (lastRest (ordered s))) : NEWLINE ∉ u := by
  rw [unclosed] at hp
  split_ifs at hp
  · cases hp
  · rw [List.mem_singleton.mp hp, ← lines_closed_ordered s]
    exact newline_notMem_lastRest _

theorem newline_notMem_turned {Y : List Str} (hline : ∀ p ∈ Y, NEWLINE ∉ p) :
    NEWLINE ∉ lastRest (lines s) ++ Y.flatten := by
  rw [List.mem_append, not_or]
  refine ⟨newline_notMem_lastRest s, fun hmem => ?_⟩
  obtain ⟨p, hp, hmem⟩ := List.mem_flatten.mp hmem
  exact hline p hp hmem

theorem exchange_perm (hend : ¬Ended s) (hlast : lastRest (lines s) ≠ []) {Z P : List Str}
    (hperm : (A ++ lastRest (lines s) :: Z).Perm (openText 511 (lines s)))
    (hpieces : openText 511 (ordered s) = A ++ P) :
    (P ++ [lastRest (ordered s) ++ [NEWLINE]]).Perm
      (Z ++ unclosed (lastRest (ordered s)) ++ [lastRest (lines s) ++ [NEWLINE]]) := by
  have hall := openText_ordered (lines_ne_nil hend)
  have hr : unclosed (lastRest (lines s)) = [lastRest (lines s)] := if_neg hlast
  rw [hpieces, hr] at hall
  rw [List.perm_iff_count] at hall hperm ⊢
  intro p
  have hall := hall p
  have hperm := hperm p
  simp only [List.count_append, List.count_cons, List.count_nil] at hall hperm ⊢
  omega

theorem unended_of_sorts (hend : ¬Ended s) (hroom : (openText 511 (lines s)).length ≤ 1024)
    (hlast : lastRest (lines s) ≠ []) {Y : List Str}
    (hperm : (A ++ lastRest (lines s) :: Y).Perm (openText 511 (lines s)))
    (hfull : ∀ p ∈ Y, p.length = 511) (hline : ∀ p ∈ Y, NEWLINE ∉ p) (horder : InOrder (A ++ lastRest (lines s) :: Y))
    (hpieces : openText 511 (ordered s) = A ++ openPieces 511 (lastRest (lines s) ++ Y.flatten)) : PiecesInOrder s := by
  set r := lastRest (lines s) with hr
  set w := r ++ Y.flatten with hw
  have hlen : (rest 511 w).length = r.length := length_rest_append (by decide) (lastRest_length _) hfull
  have hrest : rest 511 w ≠ [] := by
    intro hnil
    rw [hnil, eq_comm, List.length_nil, List.length_eq_zero_iff] at hlen
    exact hlast hlen
  have hwline : NEWLINE ∉ w := newline_notMem_turned hline
  have hrestLine : NEWLINE ∉ rest 511 w := fun hmem => hwline (mem_of_mem_rest hmem)
  rw [openPieces, unclosed, if_neg hrest] at hpieces
  obtain ⟨hfree, hends⟩ := perm_of_split (NEWLINE ∉ ·) (exchange_perm hend hlast hperm hpieces)
    (by
      rw [List.forall_mem_append, List.forall_mem_singleton]
      exact ⟨fun p hp => newline_notMem_blocks (by decide) hwline hp, hrestLine⟩)
    (by simp)
    (by
      rw [List.forall_mem_append]
      exact ⟨hline, fun p hp => newline_notMem_unclosed_ordered hp⟩)
    (by simp)
  have hm : lastRest (ordered s) = r := by
    rw [List.perm_singleton, List.singleton_inj] at hends
    exact List.append_cancel_right hends
  rw [hm, unclosed, if_neg hlast] at hfree
  obtain ⟨hblocks, hone⟩ := perm_of_split (fun p : Str => p.length = 511) hfree
    (fun p hp => length_of_mem_blocks (by decide) hp)
    (by simpa using (length_rest_lt (by decide) w).ne) hfull
    (by simpa using (lastRest_length (lines s)).ne)
  rw [List.perm_singleton, List.singleton_inj] at hone
  rw [hone] at hpieces
  apply PiecesInOrder.unended hend hroom hm A (blocks 511 w) Y
  · rw [hpieces, ← hr, unclosed, if_neg hlast, List.append_assoc]
  · refine ⟨hblocks.symm, ?_⟩
    have hflat := flatten_blocks (n := 511) (by decide) w
    rw [hone] at hflat
    exact hflat.symm
  · rwa [← hr, unclosed, if_neg hlast, List.append_assoc]

theorem divided_of_sorts (hend : ¬Ended s) (hroom : (openText 511 (lines s)).length ≤ 1024)
    (hlast : lastRest (lines s) ≠ []) {Y B : List Str} {x : Str}
    (hperm : (A ++ lastRest (lines s) :: Y ++ (x ++ [NEWLINE]) :: B).Perm (openText 511 (lines s)))
    (hline : ∀ p ∈ Y, NEWLINE ∉ p) (hx : NEWLINE ∉ x)
    (horder : InOrder (A ++ lastRest (lines s) :: Y ++ (x ++ [NEWLINE]) :: B))
    (hpieces : openText 511 (ordered s) = A ++ closedPieces 511 (lastRest (lines s) ++ Y.flatten ++ x) ++ B) :
    PiecesInOrder s := by
  set r := lastRest (lines s) with hr
  set w := r ++ Y.flatten ++ x with hw
  have hwline : NEWLINE ∉ w := by
    rw [hw, List.mem_append, not_or]
    exact ⟨newline_notMem_turned hline, hx⟩
  have hkey : (blocks 511 w ++ [rest 511 w ++ [NEWLINE], lastRest (ordered s) ++ [NEWLINE]]).Perm
      (Y ++ unclosed (lastRest (ordered s)) ++ [x ++ [NEWLINE], r ++ [NEWLINE]]) := by
    rw [List.append_assoc, List.cons_append] at hperm
    rw [List.append_assoc] at hpieces
    have hall := exchange_perm hend hlast hperm hpieces
    rw [closedPieces, ← hr, List.perm_iff_count] at hall
    rw [List.perm_iff_count]
    intro p
    have hall := hall p
    simp only [List.count_append, List.count_cons, List.count_nil] at hall ⊢
    omega
  obtain ⟨hfree, hends⟩ := perm_of_split (NEWLINE ∉ ·) hkey
    (fun p hp => newline_notMem_blocks (by decide) hwline hp) (by simp)
    (by
      rw [List.forall_mem_append]
      exact ⟨hline, fun p hp => newline_notMem_unclosed_ordered hp⟩)
    (by simp)
  have hm : lastRest (ordered s) = [] := by
    by_contra hne
    rw [unclosed, if_neg hne] at hfree
    have hmem : lastRest (ordered s) ∈ blocks 511 w := hfree.symm.subset (by simp)
    exact (lastRest_length (ordered s)).ne (length_of_mem_blocks (by decide) hmem)
  rw [hm, unclosed, if_pos rfl, List.append_nil] at hfree
  rw [hm, List.nil_append] at hends
  have hrest : rest 511 w = r := by
    have hmem : r ++ [NEWLINE] ∈ [rest 511 w ++ [NEWLINE], [NEWLINE]] := hends.symm.subset (by simp)
    rw [List.mem_cons, List.mem_singleton] at hmem
    rcases hmem with hmem | hmem
    · exact (List.append_cancel_right hmem).symm
    · exact absurd (by simpa using hmem) hlast
  have hxnil : x = [] := by
    rw [hrest] at hends
    have hone := (hends.trans (List.Perm.swap _ _ _)).cons_inv
    rw [List.perm_singleton, List.singleton_inj] at hone
    simpa using hone.symm
  subst hxnil
  rw [closedPieces, hrest] at hpieces
  apply PiecesInOrder.divided hend hroom hlast hm A (blocks 511 w) Y B
  · rw [hpieces, ← hr]
    simp
  · refine ⟨hfree.symm, ?_⟩
    have hflat := flatten_blocks (n := 511) (by decide) w
    rw [hrest] at hflat
    rw [hflat, hw, List.append_nil]
  · exact horder

structure Split (s : Str) (A Z : List Str) : Prop where
  perm : (A ++ lastRest (lines s) :: Z).Perm (openText 511 (lines s))
  order : InOrder (A ++ lastRest (lines s) :: Z)
  read : openText 511 (ordered s) = A ++ readLines 512 (lastRest (lines s) ++ Z.flatten)
  zero : 0 ∉ lastRest (lines s) ++ Z.flatten
  piece : ∀ p ∈ Z, Piece 511 p
  done : ∀ p ∈ Z, Finished 511 p

theorem exists_split (hzero : 0 ∉ s) (hend : ¬Ended s) (h : Sorts (sortText s) s) (hlast : lastRest (lines s) ≠ []) :
    ∃ A Z, Split s A Z := by
  obtain ⟨hout, hroom⟩ := taken_of_sorts hzero hend h
  obtain ⟨A, Z, hsplit, hdone⟩ := qsort_split hzero hend hroom hlast
  have hperm := qsort_perm (taken s)
  have horder := qsort_inOrder (zero_notMem_taken hzero)
  have hread := readLines_sorted_unended hzero h hout
  have htext : sortText s = A.flatten ++ (lastRest (lines s) ++ Z.flatten) := by
    rw [sortText, hsplit, List.flatten_append, List.flatten_cons]
  rw [hsplit] at hperm horder
  have hmem (p : Str) (hp : p ∈ A ++ Z) : p ∈ taken s := by
    apply hperm.subset
    rw [List.mem_append, List.mem_cons]
    exact (List.mem_append.mp hp).imp_right .inr
  have hpiece : ∀ p ∈ A ++ Z, Piece 511 p := fun p hp => piece_taken hzero p (hmem p hp)
  have hzeros : ∀ p ∈ A ++ Z, 0 ∉ p := fun p hp => zero_notMem_taken hzero p (hmem p hp)
  rw [List.forall_mem_append] at hdone hpiece hzeros
  rw [htext, readLines_finished (n := 511) (by decide) hpiece.1 hdone.1 hzeros.1] at hread
  rw [taken_unended hzero hend hroom] at hperm
  refine ⟨A, Z, hperm, horder, hread.symm, ?_, hpiece.2, hdone.2⟩
  have hall := zero_notMem_sorted hzero
  rw [htext, List.mem_append, not_or] at hall
  exact hall.2

-- the line that the rest goes into ends with the first piece behind it that has an end
theorem Split.piecesInOrder (h : Split s A Z) (hend : ¬Ended s) (hroom : (openText 511 (lines s)).length ≤ 1024)
    (hlast : lastRest (lines s) ≠ []) : PiecesInOrder s := by
  obtain ⟨hperm, horder, hread, hzero, hpiece, hdone⟩ := h
  obtain ⟨Y, E, rfl, hline, hE⟩ : ∃ Y E, Z = Y ++ E ∧ (∀ p ∈ Y, NEWLINE ∉ p) ∧ ∀ q ∈ E.head?, NEWLINE ∈ q := by
    refine ⟨_, _, (List.takeWhile_append_dropWhile (p := fun p : Str => NEWLINE ∉ p)).symm, ?_, ?_⟩
    · exact fun p hp => by simpa using List.mem_takeWhile_imp hp
    · intro q hq
      have hstop := List.head?_dropWhile_not (fun p : Str => NEWLINE ∉ p) Z
      rw [hq] at hstop
      simpa using hstop
  rw [List.flatten_append, ← List.append_assoc, List.mem_append, not_or] at hzero
  rw [List.forall_mem_append] at hpiece hdone
  cases E with
  | nil =>
    rw [List.append_nil] at horder hperm hread
    rw [readLines_unclosed (by decide) (newline_notMem_turned hline) hzero.1] at hread
    apply unended_of_sorts hend hroom hlast hperm _ hline horder hread
    intro p hp
    exact (hdone.1 p hp).resolve_right fun hc => hline p hp (List.mem_of_getLast? hc)
  | cons q B =>
    have hq : NEWLINE ∈ q := hE q rfl
    rw [List.forall_mem_cons] at hpiece hdone
    obtain ⟨x, rfl⟩ : ∃ x, q = x ++ [NEWLINE] :=
      ⟨q.dropLast, (List.dropLast_append_getLast? NEWLINE (hpiece.2.1.getLast? hq)).symm⟩
    have hx : NEWLINE ∉ x := by
      have hfirst := hpiece.2.1.line
      rwa [List.dropLast_concat] at hfirst
    have hxzero : 0 ∉ x := fun hc => hzero.2 (List.mem_append_left _ (List.mem_append_left _ hc))
    have hB : ∀ p ∈ B, 0 ∉ p := fun p hp hc => hzero.2 (List.mem_append_right _ (List.mem_flatten_of_mem hp hc))
    have hassoc : lastRest (lines s) ++ (Y ++ (x ++ [NEWLINE]) :: B).flatten =
        lastRest (lines s) ++ Y.flatten ++ x ++ NEWLINE :: B.flatten := by simp
    rw [hassoc, readLines_closed (by decide), readLines_finished_nil hpiece.2.2 hdone.2.2 hB] at hread
    · apply divided_of_sorts hend hroom hlast (B := B) _ hline hx
      · simpa using horder
      · rw [hread, closedPieces]
        simp
      · simpa using hperm
    · rw [List.mem_append, not_or]
      exact ⟨newline_notMem_turned hline, hx⟩
    · rw [List.mem_append, not_or]
      exact ⟨hzero.1, hxzero⟩

theorem piecesInOrder_of_unended (hzero : 0 ∉ s) (hend : ¬Ended s) (h : Sorts (sortText s) s) : PiecesInOrder s := by
  by_cases hlast : lastRest (lines s) = []
  · obtain ⟨hout, hroom⟩ := taken_of_sorts hzero hend h
    have hdone : ∀ p ∈ taken s, Finished 511 p := by
      obtain ⟨ps, hps, hdone⟩ := openText_finished (lines s)
      rw [hlast, unclosed, if_pos rfl, List.append_nil] at hps
      rwa [taken_unended hzero hend hroom, hps]
    have hread := readLines_sorted hzero hdone
    have hperm := qsort_perm (taken s)
    rw [readLines_sorted_unended hzero h hout] at hread
    rw [← hread, taken_unended hzero hend hroom] at hperm
    have hm : lastRest (ordered s) = [] := by
      have hall := (openText_ordered (lines_ne_nil hend)).trans (hperm.symm.append_right _)
      rw [List.perm_append_left_iff, hlast, unclosed, if_pos rfl, List.append_nil] at hall
      have hlen := hall.length_eq
      by_contra hne
      rw [unclosed, if_neg hne] at hlen
      simp at hlen
    apply PiecesInOrder.unended hend hroom (hm.trans hlast.symm) (openText 511 (ordered s)) [] []
    · rw [hlast, unclosed, if_pos rfl, List.append_nil, List.append_nil]
    · exact ⟨.refl _, by simp⟩
    · rw [hlast, unclosed, if_pos rfl, List.append_nil, List.append_nil, hread]
      exact qsort_inOrder (zero_notMem_taken hzero)
  · obtain ⟨A, Z, hsplit⟩ := exists_split hzero hend h hlast
    exact hsplit.piecesInOrder hend (taken_of_sorts hzero hend h).2 hlast

theorem cmdSort_sorts_iff {fopen : Fopen} {argv : List Str} (hopen : firstOperand (bytes "sort") fopen argv = .ok s)
    (hzero : 0 ∉ s) : Sorts (cmdSort fopen argv) s ↔ PiecesInOrder s := by
  have hout : cmdSort fopen argv = sortText s := by rw [cmdSort, operate, hopen]
  rw [hout]
  constructor
  · intro h
    by_cases hend : Ended s
    · exact piecesInOrder_of_ended hzero hend h
    · exact piecesInOrder_of_unended hzero hend h
  · exact sorts_of_piecesInOrder hzero

/-! ### Short lines -/

def NoneCutIn (ls : List Str) : Prop := ∀ l ∈ ls, ∀ l' ∈ ls, ∀ c t, l' = l ++ c :: t → NEWLINE ≤ c

theorem newline_le_iff {a b : Str} (hb : NEWLINE ∉ b) (h : a ≤ b) :
    a ++ [NEWLINE] ≤ b ++ [NEWLINE] ↔ ∀ c t, b = a ++ c :: t → NEWLINE ≤ c := by
  induction a generalizing b with
  | nil =>
    cases b with
    | nil => simp
    | cons c t =>
      rw [List.mem_cons, not_or] at hb
      rw [List.nil_append, List.cons_append, List.cons_le_cons_iff, or_iff_left fun heq => hb.1 heq.1]
      constructor
      · rintro hlt _ _ heq
        rw [← (List.cons.inj heq).1]
        exact UInt8.le_of_lt hlt
      · exact fun hle => UInt8.lt_of_le_of_ne (hle c t rfl) hb.1
  | cons x a ih =>
    cases b with
    | nil => exact absurd (List.le_nil.mp h) (List.cons_ne_nil x a)
    | cons y b =>
      rw [List.mem_cons, not_or] at hb
      rw [List.cons_le_cons_iff] at h
      rw [List.cons_append, List.cons_append, List.cons_le_cons_iff]
      by_cases hxy : x = y
      · subst hxy
        have hle : a ≤ b := (h.resolve_left (UInt8.lt_irrefl x)).2
        simp [ih hb.2 hle]
      · have hlt : x < y := h.resolve_right fun heq => hxy heq.1
        exact iff_of_true (.inl hlt) fun c t heq => absurd (List.cons.inj heq).1.symm hxy

theorem zero_notMem_newline (h : 0 ∉ u) : 0 ∉ u ++ [NEWLINE] := by
  rw [List.mem_append, not_or]
  exact ⟨h, by decide⟩

theorem noneCutIn_iff (hline : ∀ l ∈ ls, NEWLINE ∉ l) (hzero : ∀ l ∈ ls, 0 ∉ l) :
    InOrder ((qsort ls).map (· ++ [NEWLINE])) ↔ NoneCutIn ls := by
  have hmem {l : Str} : l ∈ qsort ls ↔ l ∈ ls := (qsort_perm ls).mem_iff
  have hle := qsort_inOrder hzero
  rw [inOrder_iff fun l hl => hzero l (hmem.mp hl)] at hle
  have hmap : ∀ l ∈ (qsort ls).map (· ++ [NEWLINE]), 0 ∉ l := by
    rw [List.forall_mem_map]
    exact fun l hl => zero_notMem_newline (hzero l (hmem.mp hl))
  rw [inOrder_iff hmap, List.pairwise_map]
  constructor
  · intro h l hl l' hl' c t heq
    have hlt : l < l' := by
      rw [heq, ← List.append_nil l, List.append_assoc]
      exact List.append_left_lt (List.nil_lt_cons c t)
    obtain ⟨A, B, hsplit⟩ := List.append_of_mem (hmem.mpr hl)
    have hl'' := hmem.mpr hl'
    rw [hsplit] at h hle hl''
    rw [List.pairwise_append, List.pairwise_cons] at h hle
    rw [List.mem_append, List.mem_cons] at hl''
    rcases hl'' with hA | rfl | hB
    · exact absurd (hle.2.2 l' hA l List.mem_cons_self) (List.not_le.mpr hlt)
    · exact absurd hlt (List.lt_irrefl _)
    · exact (newline_le_iff (hline l' hl') (hle.2.1.1 l' hB)).mp (h.2.1.1 l' hB) c t heq
  · intro h
    apply hle.imp_of_mem
    intro l l' hl hl' hll'
    exact (newline_le_iff (hline l' (hmem.mp hl')) hll').mpr (h l (hmem.mp hl) l' (hmem.mp hl'))

theorem closedText_short (h : ∀ l ∈ ls, l.length < 511) : closedText 511 ls = ls.map (· ++ [NEWLINE]) := by
  induction ls with
  | nil => rfl
  | cons l ls ih =>
    rw [List.forall_mem_cons] at h
    rw [closedText_cons, closedPieces, blocks_of_lt h.1, rest_of_lt h.1, ih h.2]
    rfl

theorem piecesInOrder_short_ended (hzero : 0 ∉ s) (hend : Ended s) (hroom : (lines s).length ≤ 1024)
    (hshort : ∀ l ∈ lines s, l.length < 511) : PiecesInOrder s ↔ NoneCutIn (lines s) := by
  have hshort' : ∀ l ∈ ordered s, l.length < 511 := fun l hl => hshort l ((ordered_perm s).subset hl)
  have hlen : (closedText 511 (lines s)).length ≤ 1024 := by rwa [closedText_short hshort, List.length_map]
  rw [← noneCutIn_iff (fun l hl => newline_notMem_lines hl) (zero_notMem_lines hzero)]
  constructor
  · intro h
    cases h with
    | ended _ _ horder =>
      rw [closedText_short hshort'] at horder
      exact horder
    | oneMore _ hmore => omega
    | unended hopen => exact absurd hend hopen
    | divided hopen => exact absurd hend hopen
  · intro h
    apply PiecesInOrder.ended hend hlen
    rw [closedText_short hshort']
    exact h

theorem Turned.eq_nil {r : Str} {C Y : List Str} (h : Turned r C Y) (hne : r ≠ []) (hline : NEWLINE ∉ r)
    (hends : ∀ p ∈ C, p.getLast? = some NEWLINE) : C = [] ∧ Y = [] := by
  rcases List.eq_nil_or_concat' Y with hY | ⟨Y', p, hY⟩
  · have hC := h.perm
    rw [hY, List.nil_perm] at hC
    exact ⟨hC, hY⟩
  · have hp : p.getLast? = some NEWLINE := hends p (h.perm.subset (by rw [hY]; simp))
    have hpne : p ≠ [] := by
      rintro rfl
      cases hp
    have hlast := congrArg List.getLast? h.text
    rw [hY, List.flatten_append, List.flatten_singleton, ← List.append_assoc, List.getLast?_append_of_ne_nil _ hpne, hp,
      List.getLast?_append_of_ne_nil _ hne] at hlast
    exact absurd (List.mem_of_getLast? hlast.symm) hline

theorem inOrder_concat (hzero : ∀ l ∈ ls ++ [u], 0 ∉ l) :
    InOrder (ls ++ [u]) ↔ InOrder ls ∧ ∀ l ∈ ls, l ≤ u := by
  rw [inOrder_iff hzero, List.pairwise_append, inOrder_iff fun l hl => hzero l (List.mem_append_left _ hl)]
  simp

theorem openText_short (h : ∀ l ∈ ls, l.length < 511) (hu : u.length < 511) (hne : u ≠ []) :
    openText 511 (ls ++ [u]) = ls.map (· ++ [NEWLINE]) ++ [u] := by
  rw [openText_concat, closedText_short h, openPieces, blocks_of_lt hu, rest_of_lt hu, unclosed, if_neg hne,
    List.nil_append]

theorem inOrder_short (hzero : ∀ l ∈ ls ++ [u], 0 ∉ l) :
    InOrder (ls.map (· ++ [NEWLINE]) ++ [u]) ↔ InOrder (ls.map (· ++ [NEWLINE])) ∧ ∀ l ∈ ls, l ++ [NEWLINE] ≤ u := by
  rw [List.forall_mem_append, List.forall_mem_singleton] at hzero
  rw [inOrder_concat, List.forall_mem_map]
  rw [List.forall_mem_append, List.forall_mem_map, List.forall_mem_singleton]
  exact ⟨fun l hl => zero_notMem_newline (hzero.1 l hl), hzero.2⟩

theorem ordered_eq_concat (hzero : 0 ∉ s) (hlines : lines s = init ++ [u]) (hordered : ordered s = ls ++ [u]) :
    ls = qsort init := by
  have hzeros := zero_notMem_lines hzero
  have hperm := ordered_perm s
  have horder : InOrder (ordered s) := qsort_inOrder hzeros
  rw [hordered] at horder
  rw [hordered, hlines, List.perm_append_right_iff] at hperm
  rw [hlines, List.forall_mem_append] at hzeros
  exact eq_qsort hzeros.1 hperm (List.pairwise_append.mp horder).1

theorem ordered_concat (hzero : 0 ∉ s) (hlines : lines s = init ++ [u]) (hle : ∀ l ∈ init, l ≤ u) :
    ordered s = qsort init ++ [u] := by
  have hzeros := zero_notMem_lines hzero
  have hmem {l : Str} : l ∈ qsort init ↔ l ∈ init := (qsort_perm init).mem_iff
  symm
  apply eq_qsort hzeros
  · rw [hlines, List.perm_append_right_iff]
    exact qsort_perm init
  · rw [hlines, List.forall_mem_append, List.forall_mem_singleton] at hzeros
    rw [inOrder_concat]
    · exact ⟨qsort_inOrder hzeros.1, fun l hl => hle l (hmem.mp hl)⟩
    · rw [List.forall_mem_append, List.forall_mem_singleton]
      exact ⟨fun l hl => hzeros.1 l (hmem.mp hl), hzeros.2⟩

theorem le_of_newline_le {l : Str} (h : l ++ [NEWLINE] ≤ u) : l ≤ u := by
  have hlt : l ≤ l ++ [NEWLINE] := by
    have happend : l ++ [] ≤ l ++ [NEWLINE] := List.append_left_le (List.nil_le [NEWLINE])
    rwa [List.append_nil] at happend
  exact List.le_trans hlt h

theorem last_ne_nil (hend : ¬Ended s) (hlines : lines s = init ++ [u]) : u ≠ [] := by
  obtain ⟨init', u', hu, hlines', -⟩ := eq_joined hend
  rw [hlines] at hlines'
  rwa [List.singleton_inj.mp (List.append_inj' hlines' rfl).2]

theorem turned_short (hshort : ∀ l ∈ ls, l.length < 511) (hu : u.length < 511) (hne : u ≠ []) (hline : NEWLINE ∉ u)
    {C Y : List Str} (hturn : Turned u C Y) (hpieces : openText 511 (ls ++ [u]) = A ++ C ++ [u]) :
    A = ls.map (· ++ [NEWLINE]) ∧ Y = [] := by
  rw [openText_short hshort hu hne, List.append_left_inj] at hpieces
  have hC : ∀ p ∈ C, p.getLast? = some NEWLINE := by
    intro p hp
    have hmem : p ∈ ls.map (· ++ [NEWLINE]) := hpieces ▸ List.mem_append_right A hp
    obtain ⟨l, -, rfl⟩ := List.mem_map.mp hmem
    simp
  obtain ⟨rfl, rfl⟩ := hturn.eq_nil hne hline hC
  rw [List.append_nil] at hpieces
  exact ⟨hpieces.symm, rfl⟩

theorem piecesInOrder_short_unended (hzero : 0 ∉ s) (hend : ¬Ended s) (hroom : (lines s).length ≤ 1024)
    (hshort : ∀ l ∈ lines s, l.length < 511) (hlines : lines s = init ++ [u]) :
    PiecesInOrder s ↔ NoneCutIn init ∧ ∀ l ∈ init, l ++ [NEWLINE] ≤ u := by
  have hline := fun l => newline_notMem_lines (s := s) (l := l)
  have hzeros := zero_notMem_lines hzero
  have hne := last_ne_nil hend hlines
  have hshort' : ∀ l ∈ ordered s, l.length < 511 := fun l hl => hshort l ((ordered_perm s).subset hl)
  rw [hlines, List.forall_mem_append, List.forall_mem_singleton] at hshort hline hzeros
  have hsorted : ∀ l ∈ qsort init ++ [u], 0 ∉ l := by
    rw [List.forall_mem_append, List.forall_mem_singleton]
    exact ⟨fun l hl => hzeros.1 l ((qsort_perm init).subset hl), hzeros.2⟩
  have hrest : lastRest (lines s) = u := by rw [hlines, lastRest_concat, rest_of_lt hshort.2]
  constructor
  · intro h
    obtain ⟨ls, m, hordered⟩ := exists_last (ordered_ne_nil (lines_ne_nil hend))
    rw [hordered, List.forall_mem_append, List.forall_mem_singleton] at hshort'
    cases h with
    | ended hclosed => exact absurd hclosed hend
    | oneMore hclosed => exact absurd hclosed hend
    | divided _ _ _ hnil =>
      rw [hordered, lastRest_concat, rest_of_lt hshort'.2] at hnil
      exact absurd hnil (last_ordered_ne_nil hzero hordered (by rw [hlines]; simp) hne)
    | unended _ _ hsame A C Y hpieces hturn horder =>
      rw [hrest] at hsame hpieces hturn horder
      rw [hordered, lastRest_concat, rest_of_lt hshort'.2] at hsame
      subst hsame
      obtain rfl := ordered_eq_concat hzero hlines hordered
      rw [hordered, unclosed, if_neg hne] at hpieces
      obtain ⟨rfl, rfl⟩ := turned_short hshort'.1 hshort.2 hne hline.2 hturn hpieces
      rw [List.append_nil, unclosed, if_neg hne, inOrder_short hsorted, noneCutIn_iff hline.1 hzeros.1] at horder
      exact ⟨horder.1, fun l hl => horder.2 l ((qsort_perm init).symm.subset hl)⟩
  · rintro ⟨hnone, hle⟩
    have hordered := ordered_concat hzero hlines fun l hl => le_of_newline_le (hle l hl)
    rw [hordered, List.forall_mem_append] at hshort'
    apply PiecesInOrder.unended hend _ _ ((qsort init).map (· ++ [NEWLINE])) [] []
    · rw [hordered, openText_short hshort'.1 hshort.2 hne, hrest, unclosed, if_neg hne, List.append_nil]
    · exact ⟨.refl _, by simp⟩
    · rw [hrest, unclosed, if_neg hne, List.append_nil, inOrder_short hsorted, noneCutIn_iff hline.1 hzeros.1]
      exact ⟨hnone, fun l hl => hle l ((qsort_perm init).subset hl)⟩
    · rw [hlines] at hroom ⊢
      rw [openText_short hshort.1 hshort.2 hne]
      simpa using hroom
    · rw [hrest, hordered, lastRest_concat, rest_of_lt hshort.2]

theorem cmdSort_sorts_two : Sorts (cmdSort (oneText (bytes "b\na\n")) [bytes "sort", bytes "f"]) (bytes "b\na\n") :=
  (cmdSort_sorts_iff (s := bytes "b\na\n") rfl (by decide)).mpr
    (.ended (by decide) (by decide) (by rw [InOrder]; decide))

theorem cmdSort_unterminated : ¬Sorts (cmdSort (oneText (bytes "b\na")) [bytes "sort", bytes "f"]) (bytes "b\na") := by
  intro h
  have hlen := h.perm.length_eq
  revert hlen
  decide

end JurkOS.Userland.Sort
