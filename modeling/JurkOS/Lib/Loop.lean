import Mathlib.Data.Fintype.Pigeonhole
import Mathlib.Tactic.Common
import Mathlib.Logic.Function.Iterate

/-!
While loops. A loop turns as long as its test holds; `run` counts the turns and
gives up after a bounded number of them.
-/

namespace Lib.Loop

variable {σ τ : Type} (goes : σ → Prop) [DecidablePred goes] (next : σ → σ)

def run : ℕ → σ → Option (ℕ × σ)
  | 0, s => if goes s then none else some (0, s)
  | n + 1, s => if goes s then (run n (next s)).map fun r => (r.1 + 1, r.2) else some (0, s)

variable {goes next} {s t : σ} {n k : ℕ}

theorem run_stop (h : ¬ goes s) : run goes next n s = some (0, s) := by
  cases n <;> simp [run, h]

theorem run_goes (h : goes s) :
    run goes next (n + 1) s = (run goes next n (next s)).map fun r => (r.1 + 1, r.2) := by simp [run, h]

-- Induction on the number of turns that are allowed; the state steps along.
theorem run_eq_some_iff :
    run goes next n s = some (k, t) ↔ k ≤ n ∧ next^[k] s = t ∧ (∀ i < k, goes (next^[i] s)) ∧ ¬ goes t := by
  induction n generalizing s k with
  | zero =>
    by_cases h : goes s
    · simp only [run, if_pos h, reduceCtorEq, Nat.le_zero, false_iff]
      rintro ⟨rfl, rfl, -, hstop⟩
      exact hstop h
    · simp only [run, if_neg h, Option.some.injEq, Prod.mk.injEq, Nat.le_zero]
      constructor
      · rintro ⟨rfl, rfl⟩
        exact ⟨rfl, rfl, by simp, h⟩
      · rintro ⟨rfl, rfl, -, -⟩
        exact ⟨rfl, rfl⟩
  | succ n ih =>
    by_cases h : goes s
    · rw [run_goes h, Option.map_eq_some_iff]
      constructor
      · rintro ⟨⟨j, u⟩, hrun, hr⟩
        cases hr
        obtain ⟨hj, ht, hgoes, hstop⟩ := ih.mp hrun
        refine ⟨by omega, ht, fun i hi => ?_, hstop⟩
        cases i with
        | zero => exact h
        | succ i => exact hgoes i (by omega)
      · rintro ⟨hk, ht, hgoes, hstop⟩
        cases k with
        | zero =>
          subst ht
          exact absurd h hstop
        | succ k =>
          exact ⟨(k, t), ih.mpr ⟨by omega, ht, fun i hi => hgoes (i + 1) (by omega), hstop⟩, rfl⟩
    · rw [run_stop h]
      constructor
      · intro hr
        cases hr
        exact ⟨Nat.zero_le _, rfl, by simp, h⟩
      · rintro ⟨-, ht, hgoes, hstop⟩
        cases k with
        | zero =>
          subst ht
          rfl
        | succ k => exact absurd (hgoes 0 (Nat.succ_pos k)) h

theorem run_unique {m j : ℕ} {u : σ} (h : run goes next n s = some (k, t)) (h' : run goes next m s = some (j, u)) :
    k = j ∧ t = u := by
  obtain ⟨-, rfl, hgoes, hstop⟩ := run_eq_some_iff.mp h
  obtain ⟨-, rfl, hgoes', hstop'⟩ := run_eq_some_iff.mp h'
  obtain hlt | rfl | hlt := Nat.lt_trichotomy k j
  · exact absurd (hgoes' k hlt) hstop
  · exact ⟨rfl, rfl⟩
  · exact absurd (hgoes j hlt) hstop'

theorem run_invariant {I : σ → Prop} (hstep : ∀ s, I s → goes s → I (next s)) (hs : I s)
    (h : run goes next n s = some (k, t)) : I t ∧ ¬ goes t := by
  obtain ⟨-, rfl, hgoes, hstop⟩ := run_eq_some_iff.mp h
  have hall : ∀ j ≤ k, I (next^[j] s) := by
    intro j hj
    induction j with
    | zero => exact hs
    | succ j ih =>
      rw [Function.iterate_succ_apply']
      exact hstep _ (ih (by omega)) (hgoes j (by omega))
  exact ⟨hall k le_rfl, hstop⟩

theorem run_halts {I : σ → Prop} {V : σ → ℕ} (hstep : ∀ s, I s → goes s → I (next s) ∧ V (next s) < V s)
    (hs : I s) (hn : V s ≤ n) : ∃ k t, run goes next n s = some (k, t) := by
  induction n generalizing s with
  | zero =>
    have hstop : ¬ goes s := by
      intro h
      have := (hstep s hs h).2
      omega
    exact ⟨0, s, run_stop hstop⟩
  | succ n ih =>
    by_cases h : goes s
    · obtain ⟨hI, hV⟩ := hstep s hs h
      obtain ⟨k, t, hrun⟩ := ih hI (by omega)
      exact ⟨k + 1, t, by rw [run_goes h, hrun]; rfl⟩
    · exact ⟨0, s, run_stop h⟩

theorem run_isSome_iff : (run goes next n s).isSome ↔ ∃ k ≤ n, ¬ goes (next^[k] s) := by
  induction n generalizing s with
  | zero => by_cases h : goes s <;> simp [run, h]
  | succ n ih =>
    by_cases h : goes s
    · rw [run_goes h, Option.isSome_map, ih]
      constructor
      · rintro ⟨k, hk, hstop⟩
        exact ⟨k + 1, by omega, hstop⟩
      · rintro ⟨k, hk, hstop⟩
        cases k with
        | zero => exact absurd h hstop
        | succ k => exact ⟨k, by omega, hstop⟩
    · rw [run_stop h]
      simp only [Option.isSome_some, true_iff]
      exact ⟨0, Nat.zero_le _, h⟩

section Orbit

variable {f : ℕ → ℕ} {a N : ℕ}

theorem orbit_repeats (h : ∀ i ≤ N, f^[i] a < N) : ∃ i j, i < j ∧ j ≤ N ∧ f^[i] a = f^[j] a := by
  obtain ⟨i, j, hne, heq⟩ := Fintype.exists_ne_map_eq_of_card_lt
    (fun i : Fin (N + 1) => (⟨f^[i] a, h i (Nat.lt_succ_iff.mp i.2)⟩ : Fin N)) (by simp)
  have hval : f^[i] a = f^[j] a := congrArg Fin.val heq
  rcases Nat.lt_or_gt_of_ne (fun h => hne (Fin.ext h)) with hij | hij
  · exact ⟨i, j, hij, Nat.lt_succ_iff.mp j.2, hval⟩
  · exact ⟨j, i, hij, Nat.lt_succ_iff.mp i.2, hval.symm⟩

-- The first place of the orbit with the property comes before any repetition.
theorem orbit_early {P : ℕ → Prop} (hout : ∀ i, ¬ P (f^[i] a) → f^[i] a < N) (h : ∃ j, P (f^[j] a)) :
    ∃ j ≤ N, P (f^[j] a) := by
  classical
  refine ⟨Nat.find h, ?_, Nat.find_spec h⟩
  by_contra hlt
  have hbefore : ∀ i ≤ N, f^[i] a < N := fun i hi => hout i (Nat.find_min h (by omega))
  obtain ⟨i, j, hij, hj, heq⟩ := orbit_repeats hbefore
  have hcut : f^[Nat.find h - j + i] a = f^[Nat.find h] a := by
    rw [Function.iterate_add_apply, heq, ← Function.iterate_add_apply]
    congr 2
    omega
  exact Nat.find_min h (by omega : Nat.find h - j + i < Nat.find h) (hcut ▸ Nat.find_spec h)

-- What the orbit meets after `N` steps lies on its cycle.
theorem orbit_recurs (h : ∀ i, f^[i] a < N) {j : ℕ} (hj : N ≤ j) (n : ℕ) : ∃ i, n ≤ i ∧ f^[i] a = f^[j] a := by
  obtain ⟨i, i', hlt, hi', heq⟩ := orbit_repeats (fun i _ => h i)
  have hperiod : ∀ k ≥ i, f^[k + (i' - i)] a = f^[k] a := by
    intro k hk
    have hsplit : f^[k - i + i'] a = f^[k - i + i] a := by
      rw [Function.iterate_add_apply, ← heq, ← Function.iterate_add_apply]
    rwa [show k - i + i' = k + (i' - i) by omega, Nat.sub_add_cancel hk] at hsplit
  have hmany : ∀ q, f^[j + q * (i' - i)] a = f^[j] a := by
    intro q
    induction q with
    | zero => simp
    | succ q ih => rw [Nat.succ_mul, ← Nat.add_assoc, hperiod _ (by omega), ih]
  refine ⟨j + n * (i' - i), ?_, hmany n⟩
  have hle : n * 1 ≤ n * (i' - i) := Nat.mul_le_mul_left n (by omega)
  omega

theorem orbit_late {P : ℕ → Prop} (h : ∀ i, f^[i] a < N) {j : ℕ} (hj : N ≤ j) (hP : P (f^[j] a)) :
    ∃ i, N ≤ i ∧ i ≤ N + N ∧ P (f^[i] a) := by
  have hafter (i : ℕ) : f^[i] (f^[N] a) = f^[i + N] a := (Function.iterate_add_apply f i N a).symm
  obtain ⟨i, hi, hPi⟩ := orbit_early (P := P) (f := f) (a := f^[N] a) (N := N)
    (fun i _ => hafter i ▸ h (i + N)) ⟨j - N, by rwa [hafter, Nat.sub_add_cancel hj]⟩
  exact ⟨i + N, by omega, by omega, hafter i ▸ hPi⟩

end Orbit

end Lib.Loop
