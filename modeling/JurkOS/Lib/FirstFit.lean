import Mathlib.Order.Bounds.Basic
import Mathlib.Order.Interval.Finset.Nat

/-!
First fit in one pass. The scan keeps the length and the start of the stretch of
free positions that ends where it stands, and stops when the stretch is long enough.
-/

namespace Lib.FirstFit

variable (free : ℕ → Bool) (count : ℕ)

def scan : ℕ → ℕ → ℕ → ℕ → Option ℕ
  | 0, _, _, _ => none
  | n + 1, i, consecutive, start =>
    if free i = true then
      let start := if consecutive = 0 then i else start
      if consecutive + 1 = count then some start else scan n (i + 1) (consecutive + 1) start
    else scan n (i + 1) 0 start

def Fits (p : ℕ) : Prop := ∀ i ∈ Finset.Ico p (p + count), free i = true

structure Pass (i consecutive start : ℕ) : Prop where
  start_add : consecutive ≠ 0 → start + consecutive = i
  stretch : ∀ j < i, i ≤ j + consecutive → free j = true
  ahead : ∀ p, Fits free count p → i ≤ p + consecutive
  short : consecutive < count

variable {free count} {i consecutive start n : ℕ}

theorem pass_zero (hcount : 0 < count) : Pass free count 0 0 0 where
  start_add h := absurd rfl h
  stretch _ hj := absurd hj (Nat.not_lt_zero _)
  ahead _ _ := Nat.zero_le _
  short := hcount

theorem Pass.grown (h : Pass free count i consecutive start) (hi : free i = true) :
    (if consecutive = 0 then i else start) + (consecutive + 1) = i + 1 ∧
      (∀ j < i + 1, i + 1 ≤ j + (consecutive + 1) → free j = true) ∧
      ∀ p, Fits free count p → i + 1 ≤ p + (consecutive + 1) := by
  refine ⟨?_, fun j hj hle => ?_, fun p hp => ?_⟩
  · split_ifs with hzero
    · omega
    · have := h.start_add hzero
      omega
  · by_cases hji : j = i
    · rwa [hji]
    · exact h.stretch j (by omega) (by omega)
  · have := h.ahead p hp
    omega

theorem Pass.reset (h : Pass free count i consecutive start) (hi : free i ≠ true) :
    Pass free count (i + 1) 0 start where
  start_add h := absurd rfl h
  stretch j hj hle := by omega
  ahead p hp := by
    have hle := h.ahead p hp
    have hshort := h.short
    by_contra hlt
    exact hi (hp i (Finset.mem_Ico.mpr ⟨by omega, by omega⟩))
  short := lt_of_le_of_lt (Nat.zero_le _) h.short

-- Induction on the positions left; `Pass` is the invariant of the loop.
theorem scan_some {p : ℕ} (h : Pass free count i consecutive start)
    (hscan : scan free count n i consecutive start = some p) :
    p + count ≤ i + n ∧ IsLeast {p | Fits free count p} p := by
  induction n generalizing i consecutive start with
  | zero => cases hscan
  | succ n ih =>
    unfold scan at hscan
    by_cases hi : free i = true
    · obtain ⟨hstart, hstretch, hahead⟩ := h.grown hi
      rw [if_pos hi] at hscan
      by_cases hcount : consecutive + 1 = count
      · rw [if_pos hcount] at hscan
        cases hscan
        rw [hcount] at hstart hahead hstretch
        refine ⟨by omega, fun j hj => ?_, fun p hp => ?_⟩
        · have := Finset.mem_Ico.mp hj
          exact hstretch j (by omega) (by omega)
        · have := hahead p hp
          omega
      · rw [if_neg hcount] at hscan
        have hshort := h.short
        have hnext := ih ⟨fun _ => hstart, hstretch, hahead, by omega⟩ hscan
        exact ⟨by omega, hnext.2⟩
    · rw [if_neg hi] at hscan
      have hnext := ih (h.reset hi) hscan
      exact ⟨by omega, hnext.2⟩

theorem scan_none (h : Pass free count i consecutive start)
    (hscan : scan free count n i consecutive start = none) (p : ℕ) (hp : p + count ≤ i + n) :
    ¬ Fits free count p := by
  induction n generalizing i consecutive start with
  | zero =>
    intro hfits
    have := h.ahead p hfits
    have := h.short
    omega
  | succ n ih =>
    unfold scan at hscan
    by_cases hi : free i = true
    · obtain ⟨hstart, hstretch, hahead⟩ := h.grown hi
      rw [if_pos hi] at hscan
      by_cases hcount : consecutive + 1 = count
      · rw [if_pos hcount] at hscan
        cases hscan
      · rw [if_neg hcount] at hscan
        have hshort := h.short
        exact ih ⟨fun _ => hstart, hstretch, hahead, by omega⟩ hscan (by omega)
    · rw [if_neg hi] at hscan
      exact ih (h.reset hi) hscan (by omega)

end Lib.FirstFit
