import JurkOS.Lib.Pieces
import Mathlib.Algebra.Order.BigOperators.Group.List

/-!
A loop of `fgets` and `fputs` copies a text piece by piece; texts that are put
together from parts, and what is kept of a text that is filtered piece by piece.
-/

namespace Lib.Pieces

open Libc

variable {α β : Type} {size n : ℕ} {s t : Str}

theorem flatten_map_eq_iff {f g : β → List α} {xs : List β} (hle : ∀ x ∈ xs, (g x).length ≤ (f x).length) :
    (xs.map g).flatten = (xs.map f).flatten ↔ ∀ x ∈ xs, g x = f x := by
  constructor
  · intro h
    induction xs with
    | nil => exact fun x hx => nomatch hx
    | cons x xs ih =>
      rw [List.forall_mem_cons] at hle
      have hlen := congrArg List.length h
      have hrest : ((xs.map g).flatten).length ≤ ((xs.map f).flatten).length := by
        rw [List.length_flatten, List.length_flatten, List.map_map, List.map_map]
        exact List.sum_le_sum hle.2
      simp only [List.map_cons, List.flatten_cons, List.length_append] at hlen h
      obtain ⟨hhead, htail⟩ := List.append_inj h (by have := hle.1; omega)
      rw [List.forall_mem_cons]
      exact ⟨hhead, ih hle.2 htail⟩
  · intro h
    rw [List.map_congr_left h]

def copied (size : ℕ) (s : Str) : Str := (readLines size s).flatten

theorem length_cstr_le (s : Str) : (cstr s).length ≤ s.length := (cstr_initial s).length_le

theorem length_cstr_lt (h : 0 ∈ s) : (cstr s).length < s.length := by
  apply Nat.lt_of_le_of_ne (length_cstr_le s)
  intro he
  have hcstr := zero_notMem_cstr s
  rw [(cstr_initial s).eq_of_length he] at hcstr
  exact hcstr h

theorem readLine_append_drop (n : ℕ) (s : Str) : readLine n s ++ s.drop (readLine n s).length = s := by
  have hinitial := readLine_initial n s
  rwa [List.prefix_iff_eq_append] at hinitial

theorem copied_cons (hsize : 2 ≤ size) (hs : s ≠ []) : copied size s =
    cstr (readLine (size - 1) s) ++ copied size (s.drop (readLine (size - 1) s).length) := by
  rw [copied, readLines_cons hsize hs, List.flatten_cons]
  rfl

theorem length_copied_le (hsize : 2 ≤ size) (s : Str) : (copied size s).length ≤ s.length := by
  induction hn : s.length using Nat.strong_induction_on generalizing s with
  | _ n ih =>
    by_cases hs : s = []
    · rw [hs]
      exact Nat.zero_le n
    · have hlt := drop_readLine_lt hsize hs
      have hrest := ih _ (hn ▸ hlt) _ rfl
      have hline := length_cstr_le (readLine (size - 1) s)
      have hsplit := congrArg List.length (readLine_append_drop (size - 1) s)
      rw [List.length_append] at hsplit
      rw [copied_cons hsize hs, List.length_append]
      omega

theorem length_copied_lt (hsize : 2 ≤ size) (h : 0 ∈ s) : (copied size s).length < s.length := by
  induction hn : s.length using Nat.strong_induction_on generalizing s with
  | _ n ih =>
    have hs : s ≠ [] := List.ne_nil_of_mem h
    have hlt := drop_readLine_lt hsize hs
    have hsplit := readLine_append_drop (size - 1) s
    have hlen := congrArg List.length hsplit
    rw [List.length_append] at hlen
    rw [← hsplit, List.mem_append] at h
    rw [copied_cons hsize hs, List.length_append]
    rcases h with hline | hrest
    · have hcut := length_cstr_lt hline
      have hle := length_copied_le hsize (s.drop (readLine (size - 1) s).length)
      omega
    · have hcut := ih _ (hn ▸ hlt) hrest rfl
      have hle := length_cstr_le (readLine (size - 1) s)
      omega

theorem copied_eq_iff (hsize : 2 ≤ size) : copied size s = s ↔ 0 ∉ s := by
  constructor
  · intro h hzero
    exact (length_copied_lt hsize hzero).ne (congrArg List.length h)
  · intro hzero
    obtain ⟨k, rfl⟩ : ∃ k, size = k + 1 := ⟨size - 1, by omega⟩
    exact (cut_readLines (by omega) hzero).2

theorem flatten_segments (s : Str) : (segments s).flatten = s := by
  obtain ⟨init, last, rfl, hinit, hlast⟩ := exists_text s
  rw [segments_text hinit hlast, List.flatten_append, flatten_unclosed]
  rfl

theorem readLines_segments (hsize : 2 ≤ size) (s : Str) : readLines size s = (segments s).flatMap (readLines size) := by
  obtain ⟨init, last, rfl, hinit, hlast⟩ := exists_text s
  have hunclosed : readLines size last = (unclosed last).flatMap (readLines size) := by
    rw [unclosed]
    split_ifs with hnil
    · rw [hnil]
      rfl
    · rw [List.flatMap_singleton]
  rw [segments_text hinit hlast, List.flatMap_append, ← hunclosed]
  clear hunclosed
  induction init with
  | nil => rfl
  | cons l init ih =>
    rw [List.forall_mem_cons] at hinit
    have hend : l ++ [NEWLINE] = [] ∨ (l ++ [NEWLINE]).getLast? = some NEWLINE := .inr List.getLast?_concat
    have hline : closed (l :: init) ++ last = (l ++ [NEWLINE]) ++ (closed init ++ last) := by simp
    rw [hline, readLines_append hsize hend, ih hinit.2, List.map_cons, List.flatMap_cons, List.append_assoc]

end Lib.Pieces
