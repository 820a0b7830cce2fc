import Mathlib.Algebra.Order.Ring.Nat
import Mathlib.Tactic.Common

/-!
A ring of `n` cells with two cursors: the writer fills the cell at `head`, the
reader takes the cell at `tail`, and one cell stays free, so that equal cursors
mean an empty ring.
-/

namespace Lib.Ring

variable {α : Type} {n head tail k : ℕ} {cell : ℕ → α}

def next (n i : ℕ) : ℕ := (i + 1) % n

def slot (n tail k : ℕ) : ℕ := (tail + k) % n

def count (n head tail : ℕ) : ℕ := if tail ≤ head then head - tail else head + n - tail

def cells (n head tail : ℕ) : List ℕ := (List.range (count n head tail)).map (slot n tail)

def pending (n : ℕ) (cell : ℕ → α) (head tail : ℕ) : List α := (cells n head tail).map cell

theorem next_cases (h : head < n) :
    (head + 1 < n ∧ next n head = head + 1) ∨ (head + 1 = n ∧ next n head = 0) := by
  by_cases hlast : head + 1 = n
  · exact .inr ⟨hlast, by rw [next, hlast, Nat.mod_self]⟩
  · have hlt : head + 1 < n := by omega
    exact .inl ⟨hlt, Nat.mod_eq_of_lt hlt⟩

theorem next_lt (h : head < n) : next n head < n := Nat.mod_lt _ (by omega)

theorem next_ne (hn : 1 < n) (h : head < n) : next n head ≠ head := by
  rcases next_cases h with ⟨hlt, he⟩ | ⟨hlast, he⟩ <;> omega

theorem slot_eq (ht : tail < n) (hk : k < n) :
    slot n tail k = if tail + k < n then tail + k else tail + k - n := by
  unfold slot
  split_ifs with h
  · exact Nat.mod_eq_of_lt h
  · rw [Nat.mod_eq_sub_mod (by omega), Nat.mod_eq_of_lt (by omega)]

theorem count_lt (hh : head < n) (ht : tail < n) : count n head tail < n := by
  unfold count
  split_ifs <;> omega

theorem slot_zero (ht : tail < n) : slot n tail 0 = tail := Nat.mod_eq_of_lt ht

theorem slot_count (hh : head < n) (ht : tail < n) : slot n tail (count n head tail) = head := by
  rw [slot_eq ht (count_lt hh ht)]
  unfold count
  split_ifs <;> omega

theorem slot_ne_head (hh : head < n) (ht : tail < n) (hk : k < count n head tail) :
    slot n tail k ≠ head := by
  have hlt := count_lt hh ht
  rw [slot_eq ht (by omega)]
  unfold count at hk hlt
  split_ifs at hk ⊢ <;> omega

theorem slot_next (ht : tail < n) (hk : k + 1 < n) : slot n (next n tail) k = slot n tail (k + 1) := by
  rw [slot_eq (next_lt ht) (by omega), slot_eq ht hk]
  rcases next_cases ht with ⟨h, he⟩ | ⟨h, he⟩ <;> rw [he] <;> split_ifs <;> omega

theorem count_push (hh : head < n) (ht : tail < n) (hroom : next n head ≠ tail) :
    count n (next n head) tail = count n head tail + 1 := by
  unfold count
  rcases next_cases hh with ⟨h, he⟩ | ⟨h, he⟩ <;> rw [he] at hroom ⊢ <;> split_ifs <;> omega

theorem count_pop (hh : head < n) (ht : tail < n) (hne : head ≠ tail) :
    count n head tail = count n head (next n tail) + 1 := by
  unfold count
  rcases next_cases ht with ⟨h, he⟩ | ⟨h, he⟩ <;> rw [he] <;> split_ifs <;> omega

theorem count_full (hh : head < n) (ht : tail < n) (hfull : next n head = tail) :
    count n head tail + 1 = n := by
  unfold count
  rcases next_cases hh with ⟨h, he⟩ | ⟨h, he⟩ <;> rw [he] at hfull <;> split_ifs <;> omega

theorem next_inj {i j : ℕ} (hi : i < n) (hj : j < n) (h : next n i = next n j) : i = j := by
  rcases next_cases hi with ⟨hi', hei⟩ | ⟨hi', hei⟩ <;> rcases next_cases hj with ⟨hj', hej⟩ | ⟨hj', hej⟩ <;> omega

theorem cells_push (hh : head < n) (ht : tail < n) (hroom : next n head ≠ tail) :
    cells n (next n head) tail = cells n head tail ++ [head] := by
  rw [cells, count_push hh ht hroom, List.range_succ, List.map_append, List.map_singleton,
    slot_count hh ht]
  rfl

theorem cells_pop (hh : head < n) (ht : tail < n) (hne : head ≠ tail) :
    cells n head tail = tail :: cells n head (next n tail) := by
  have hlt := count_lt hh ht
  have hpop := count_pop hh ht hne
  rw [cells, hpop, List.range_succ_eq_map, List.map_cons, slot_zero ht, List.map_map]
  congr 1
  apply List.map_congr_left
  intro k hk
  have hk' : k < count n head (next n tail) := List.mem_range.mp hk
  exact (slot_next ht (by omega)).symm

@[simp] theorem cells_self : cells n head head = [] := by simp [cells, count]

theorem head_notMem_cells (hh : head < n) (ht : tail < n) : head ∉ cells n head tail := by
  intro hmem
  obtain ⟨k, hk, he⟩ := List.mem_map.mp hmem
  exact slot_ne_head hh ht (List.mem_range.mp hk) he

theorem tail_notMem_cells (hh : head < n) (ht : tail < n) (hne : head ≠ tail) :
    tail ∉ cells n head (next n tail) := by
  intro hmem
  obtain ⟨k, hk, he⟩ := List.mem_map.mp hmem
  have hlt := count_lt hh ht
  have hpop := count_pop hh ht hne
  have hk' : k < count n head (next n tail) := List.mem_range.mp hk
  rw [slot_next ht (by omega), slot_eq ht (by omega)] at he
  split_ifs at he <;> omega

theorem tail_mem_cells (hh : head < n) (ht : tail < n) : tail ∈ cells n head tail ↔ head ≠ tail := by
  constructor
  · rintro hmem rfl
    exact head_notMem_cells hh ht hmem
  · intro hne
    rw [cells_pop hh ht hne]
    exact List.mem_cons_self

@[simp] theorem length_pending : (pending n cell head tail).length = count n head tail := by
  simp [pending, cells]

theorem pending_congr {cell' : ℕ → α} (h : ∀ i ∈ cells n head tail, cell' i = cell i) :
    pending n cell' head tail = pending n cell head tail := List.map_congr_left h

theorem pending_update {i : ℕ} (hi : i ∉ cells n head tail) (c : α) :
    pending n (Function.update cell i c) head tail = pending n cell head tail := by
  apply pending_congr
  rintro j hj
  have hne : j ≠ i := fun he => hi (he ▸ hj)
  exact Function.update_of_ne hne _ _

theorem pending_push (hh : head < n) (ht : tail < n) (hroom : next n head ≠ tail) :
    pending n cell (next n head) tail = pending n cell head tail ++ [cell head] := by
  simp [pending, cells_push hh ht hroom]

theorem pending_pop (hh : head < n) (ht : tail < n) (hne : head ≠ tail) :
    pending n cell head tail = cell tail :: pending n cell head (next n tail) := by
  simp [pending, cells_pop hh ht hne]

end Lib.Ring
