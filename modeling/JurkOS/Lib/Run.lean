import Mathlib.Data.List.Induction
import Mathlib.Tactic.Common

/-!
Runs of a labelled transition relation. An invariant is proved once for the
initial states and once for a step; `Steps.invariant` carries it along a run.
-/

namespace Lib.Run

variable {σ ι : Type} {step : σ → ι → σ → Prop}

inductive Steps (step : σ → ι → σ → Prop) : σ → List ι → σ → Prop
  | nil (s : σ) : Steps step s [] s
  | cons {s t u : σ} {i : ι} {l : List ι} (h : step s i t) (rest : Steps step t l u) :
      Steps step s (i :: l) u

def Reachable (init : σ → Prop) (step : σ → ι → σ → Prop) (s : σ) : Prop :=
  ∃ s₀ l, init s₀ ∧ Steps step s₀ l s

theorem Steps.invariant {P : σ → Prop} (hstep : ∀ s i t, P s → step s i t → P t)
    {s t : σ} {l : List ι} (h : Steps step s l t) (hs : P s) : P t := by
  induction h with
  | nil s => exact hs
  | cons h rest ih => exact ih (hstep _ _ _ hs h)

theorem Reachable.invariant {init P : σ → Prop} (hinit : ∀ s, init s → P s)
    (hstep : ∀ s i t, P s → step s i t → P t) {s : σ} (h : Reachable init step s) : P s := by
  obtain ⟨s₀, l, h₀, hl⟩ := h
  exact hl.invariant hstep (hinit s₀ h₀)

theorem Steps.restrict {P : σ → Prop} (hstep : ∀ s i t, P s → step s i t → P t) {s t : σ} {l : List ι}
    (h : Steps step s l t) (hs : P s) : Steps (fun s i t => P s ∧ step s i t) s l t := by
  induction h with
  | nil s => exact .nil s
  | cons h rest ih => exact .cons ⟨hs, h⟩ (ih (hstep _ _ _ hs h))

theorem Steps.single {s t : σ} {i : ι} (h : step s i t) : Steps step s [i] t := .cons h (.nil t)

theorem Steps.append {s t u : σ} {l l' : List ι} (h : Steps step s l t) (h' : Steps step t l' u) :
    Steps step s (l ++ l') u := by
  induction h with
  | nil s => exact h'
  | cons h rest ih => exact .cons h (ih h')

theorem Steps.split {s u : σ} {l l' : List ι} (h : Steps step s (l ++ l') u) :
    ∃ t, Steps step s l t ∧ Steps step t l' u := by
  induction l generalizing s with
  | nil => exact ⟨s, .nil s, h⟩
  | cons i l ih =>
    cases h with
    | cons hi rest =>
      obtain ⟨t, h₁, h₂⟩ := ih rest
      exact ⟨t, .cons hi h₁, h₂⟩

theorem Reachable.start {init : σ → Prop} {s : σ} (h : init s) : Reachable init step s :=
  ⟨s, [], h, .nil s⟩

theorem Reachable.next {init : σ → Prop} {s t : σ} {i : ι} (h : Reachable init step s)
    (ht : step s i t) : Reachable init step t := by
  obtain ⟨s₀, l, h₀, hl⟩ := h
  exact ⟨s₀, l ++ [i], h₀, hl.append (.single ht)⟩

theorem forall_foldl_iff {f : σ → ι → σ} {P : σ → Prop} {Good : σ → ι → Prop}
    (hstep : ∀ s i, P s → (P (f s i) ↔ Good s i)) {s : σ} (hs : P s) (w : List ι) :
    (∀ l, l <+: w → P (l.foldl f s)) ↔ ∀ l i, l ++ [i] <+: w → Good (l.foldl f s) i := by
  constructor
  · intro h l i hl
    have hnext := h (l ++ [i]) hl
    rw [List.foldl_append] at hnext
    exact (hstep _ i (h l ((List.prefix_append l [i]).trans hl))).mp hnext
  · intro h l
    induction l using List.reverseRecOn with
    | nil => exact fun _ => hs
    | append_singleton l i ih =>
      intro hl
      rw [List.foldl_append]
      exact (hstep _ i (ih ((List.prefix_append l [i]).trans hl))).mpr (h l i hl)

end Lib.Run
