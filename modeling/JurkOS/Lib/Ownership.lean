import JurkOS.Lib.Run
import Mathlib.Data.Set.Lattice

/-!
Exclusive ownership along a run: a resource that an event takes from the free
ones is not taken again before some event gives it back.
-/

namespace Lib.Ownership

open Lib.Run

variable {σ ι α : Type} {step : σ → ι → σ → Prop} {free : σ → Set α} {taken given : ι → Set α}

def Accounts (step : σ → ι → σ → Prop) (free : σ → Set α) (taken given : ι → Set α) : Prop :=
  ∀ s i t, step s i t → taken i ⊆ free s ∧ free t ⊆ (free s \ taken i) ∪ given i

theorem not_free_of_kept (h : Accounts step free taken given) {s t : σ} {l : List ι} {x : α}
    (hl : Steps step s l t) (hx : x ∉ free s) (hkept : ∀ i ∈ l, x ∉ given i) : x ∉ free t := by
  induction hl with
  | nil s => exact hx
  | @cons s t u i l hst rest ih =>
    apply ih
    · intro hxt
      rcases (h _ _ _ hst).2 hxt with hx' | hx'
      · exact hx hx'.1
      · exact hkept i List.mem_cons_self hx'
    · exact fun j hj => hkept j (List.mem_cons_of_mem _ hj)

theorem exclusive (h : Accounts step free taken given) {s t : σ} {l₁ l₂ l₃ : List ι} {i j : ι} {x : α}
    (hrun : Steps step s (l₁ ++ i :: (l₂ ++ j :: l₃)) t) (hi : x ∈ taken i) (hgi : x ∉ given i)
    (hj : x ∈ taken j) : ∃ k ∈ l₂, x ∈ given k := by
  obtain ⟨u, -, hrest⟩ := hrun.split
  cases hrest with
  | @cons _ v _ _ _ hui hrest =>
    obtain ⟨w, hmid, hlast⟩ := hrest.split
    by_contra hnone
    have hv : x ∉ free v := fun hxv => by
      rcases (h _ _ _ hui).2 hxv with hx | hx
      · exact hx.2 hi
      · exact hgi hx
    have hw : x ∉ free w :=
      not_free_of_kept h hmid hv (fun k hk hxk => hnone ⟨k, hk, hxk⟩)
    cases hlast with
    | cons hwj _ => exact hw ((h _ _ _ hwj).1 hj)

end Lib.Ownership
