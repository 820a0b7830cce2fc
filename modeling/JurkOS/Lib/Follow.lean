import Mathlib.Tactic.Common

/-!
Chains of references. A walk goes on as long as there is a next reference and
gives up after a bounded number of them.
-/

namespace Lib.Follow

variable {α : Type}

def walk (next : α → Option α) : ℕ → α → Option α
  | 0, _ => none
  | n + 1, e =>
    match next e with
    | none => some e
    | some e' => walk next n e'

variable {next next' : α → Option α} {x y e e₀ z : α} {k m n : ℕ}

theorem walk_mono (h : walk next n e = some z) (hnm : n ≤ m) : walk next m e = some z := by
  induction n generalizing e m with
  | zero => cases h
  | succ n ih =>
    obtain ⟨m, rfl⟩ := Nat.exists_eq_succ_of_ne_zero (Nat.ne_of_gt (Nat.lt_of_lt_of_le (Nat.succ_pos n) hnm))
    rw [walk] at h ⊢
    cases he : next e with
    | none =>
      rw [he] at h
      exact h
    | some e' =>
      rw [he] at h
      exact ih h (Nat.le_of_succ_le_succ hnm)

theorem walk_end (h : walk next n e = some z) : next z = none := by
  induction n generalizing e with
  | zero => cases h
  | succ n ih =>
    rw [walk] at h
    cases he : next e with
    | none =>
      rw [he] at h
      obtain rfl := Option.some.inj h
      exact he
    | some e' =>
      rw [he] at h
      exact ih h

theorem walk_congr (hnext : ∀ d, next' d = next d) : walk next' n e = walk next n e := by
  have heq : next' = next := funext hnext
  rw [heq]

variable [DecidableEq α]

def passes (next : α → Option α) (x : α) : ℕ → α → Bool
  | 0, _ => false
  | n + 1, e => e = x ∨ (next e).any (passes next x n)

theorem not_passes_succ (h : passes next x (n + 1) e = false) :
    e ≠ x ∧ ∀ e', next e = some e' → passes next x n e' = false := by
  rw [passes, decide_eq_false_iff_not, not_or] at h
  refine ⟨h.1, fun e' he' => ?_⟩
  have hrest := h.2
  rw [he', Option.any_some, Bool.not_eq_true] at hrest
  exact hrest

theorem passes_succ (h : passes next x (n + 1) e = true) :
    e = x ∨ ∃ e', next e = some e' ∧ passes next x n e' = true := by
  rw [passes, decide_eq_true_eq] at h
  apply h.imp_right
  intro h
  cases he : next e with
  | none =>
    rw [he] at h
    cases h
  | some e' =>
    rw [he] at h
    exact ⟨e', rfl, h⟩

theorem passes_end (h : walk next n e = some z) : passes next z n e = true := by
  induction n generalizing e with
  | zero => cases h
  | succ n ih =>
    rw [walk] at h
    rw [passes, decide_eq_true_eq]
    cases he : next e with
    | none =>
      rw [he] at h
      exact .inl (Option.some.inj h)
    | some e' =>
      rw [he] at h
      exact .inr (ih h)

-- Induction on the length; a walk that misses the changed places goes the same way.
theorem walk_avoid (hnext : ∀ d, d ≠ x → d ≠ y → next' d = next d) (hx : passes next x n e = false)
    (hy : passes next y n e = false) : walk next' n e = walk next n e := by
  induction n generalizing e with
  | zero => rfl
  | succ n ih =>
    obtain ⟨hex, hrestx⟩ := not_passes_succ hx
    obtain ⟨hey, hresty⟩ := not_passes_succ hy
    rw [walk, walk, hnext e hex hey]
    cases he : next e with
    | none => rfl
    | some e' => exact ih (hrestx e' he) (hresty e' he)

theorem walk_cut (hnext : ∀ d, d ≠ x → next' d = next d) (hx : next' x = none) (h : passes next x n e = true) :
    walk next' n e = some x := by
  induction n generalizing e with
  | zero => cases h
  | succ n ih =>
    rw [walk]
    by_cases hex : e = x
    · rw [hex, hx]
    · obtain heq | ⟨e', he', hpass⟩ := passes_succ h
      · exact absurd heq hex
      · rw [hnext e hex, he']
        exact ih hpass

-- With a reference from `y` back to the start, a walk through `y` comes back until it gives up.
theorem walk_back (hnext : ∀ d, d ≠ x → d ≠ y → next' d = next d) (hx : next' x = none) (hy : next' y = some e₀)
    (hback : passes next x k e₀ = true ∨ passes next y k e₀ = true)
    (h : passes next x n e = true ∨ passes next y n e = true) : walk next' m e = none ∨ walk next' m e = some x := by
  induction m generalizing n e k with
  | zero => exact .inl rfl
  | succ m ih =>
    rw [walk]
    by_cases hex : e = x
    · rw [hex, hx]
      exact .inr rfl
    by_cases hey : e = y
    · rw [hey, hy]
      exact ih hback hback
    rw [hnext e hex hey]
    cases n with
    | zero => rcases h with h | h <;> cases h
    | succ n =>
      rcases h with h | h
      · obtain heq | ⟨e', he', hpass⟩ := passes_succ h
        · exact absurd heq hex
        · rw [he']
          exact ih hback (.inl hpass)
      · obtain heq | ⟨e', he', hpass⟩ := passes_succ h
        · exact absurd heq hey
        · rw [he']
          exact ih hback (.inr hpass)

theorem walk_through (h : passes next x n e = true) (hz : walk next n e = some z) : walk next n x = some z := by
  induction n generalizing e with
  | zero => cases h
  | succ n ih =>
    obtain rfl | ⟨e', he', hpass⟩ := passes_succ h
    · exact hz
    · rw [walk, he'] at hz
      exact walk_mono (ih hpass hz) (Nat.le_succ n)

end Lib.Follow
