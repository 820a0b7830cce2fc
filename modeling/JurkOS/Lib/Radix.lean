import Mathlib.Data.Finset.Card
import Mathlib.Data.List.Induction
import Mathlib.Algebra.Order.Ring.Nat
import Mathlib.Tactic.Common

/-!
Radix trees in a store of tables. A table has an entry for each index; `child`
reads an entry as a reference to the table one level down. In a separated tree
every table is reached by one path only, so a write at a table is a write at
one path.
-/

namespace Lib.Radix

variable {α ι ε : Type} (child : ε → Option α)

def walk (T : α → ι → ε) : α → List ι → Option α
  | t, [] => some t
  | t, i :: p => (child (T t i)).bind fun u => walk T u p

def Separated (T : α → ι → ε) (r : α) (d : ℕ) : Prop :=
  ∀ p q t, p.length ≤ d → q.length ≤ d → walk child T r p = some t → walk child T r q = some t → p = q

def entry (z : ε) (T : α → ι → ε) (r : α) (p : List ι) (i : ι) : ε :=
  ((walk child T r p).map fun t => T t i).getD z

variable {child} {T T' : α → ι → ε} {r t n : α} {d : ℕ} {p q : List ι} {i : ι}

theorem walk_append : walk child T r (p ++ q) = (walk child T r p).bind fun t => walk child T t q := by
  induction p generalizing r with
  | nil => rfl
  | cons i p ih =>
    rw [List.cons_append, walk, walk, Option.bind_assoc]
    exact congrArg _ (funext fun u => ih)

theorem walk_singleton : walk child T r [i] = child (T r i) := Option.bind_fun_some _

theorem walk_concat : walk child T r (p ++ [i]) = (walk child T r p).bind fun t => child (T t i) := by
  rw [walk_append]
  apply congrArg
  funext t
  exact walk_singleton

theorem entry_of_walk {z : ε} (h : walk child T r p = some t) : entry child z T r p i = T t i := by
  rw [entry, h]
  rfl

theorem entry_of_none {z : ε} (h : walk child T r p = none) : entry child z T r p i = z := by
  rw [entry, h]
  rfl

theorem walk_congr_child {child' : ε → Option α}
    (hkeep : ∀ q u j, q.length < d → walk child T r q = some u → child' (T' u j) = child (T u j))
    (hq : q.length ≤ d) : walk child' T' r q = walk child T r q := by
  induction q using List.reverseRecOn with
  | nil => rfl
  | append_singleton q j ih =>
    rw [List.length_append, List.length_singleton] at hq
    rw [walk_concat, walk_concat, ih (by omega)]
    cases hu : walk child T r q with
    | none => rfl
    | some u => rw [Option.bind_some, Option.bind_some, hkeep q u j (by omega) hu]

theorem walk_congr (hkeep : ∀ q u j, q.length < d → walk child T r q = some u → T' u j = T u j)
    (hq : q.length ≤ d) : walk child T' r q = walk child T r q :=
  walk_congr_child (fun q u j hlt hu => congrArg child (hkeep q u j hlt hu)) hq

theorem Separated.congr (hsep : Separated child T r d)
    (hwalk : ∀ q, q.length ≤ d → walk child T' r q = walk child T r q) : Separated child T' r d := by
  intro p q t hp hq hpt hqt
  rw [hwalk p hp] at hpt
  rw [hwalk q hq] at hqt
  exact hsep p q t hp hq hpt hqt

theorem entry_congr {z : ε} (hkeep : ∀ q u j, q.length ≤ d → walk child T r q = some u → T' u j = T u j)
    (hq : q.length ≤ d) : entry child z T' r q i = entry child z T r q i := by
  have hwalk := walk_congr (fun q u j hlt => hkeep q u j hlt.le) hq
  cases hu : walk child T r q with
  | none => rw [entry_of_none (hwalk.trans hu), entry_of_none hu]
  | some u => rw [entry_of_walk (hwalk.trans hu), entry_of_walk hu, hkeep q u i hq hu]

theorem walk_blank {z : ε} (hz : child z = none) (hblank : ∀ j, T r j = z) (ht : walk child T r p = some t) :
    p = [] := by
  cases p with
  | nil => rfl
  | cons i p =>
    rw [walk, hblank, hz] at ht
    cases ht

theorem separated_blank {z : ε} (hz : child z = none) (hblank : ∀ j, T r j = z) : Separated child T r d := by
  intro p q t _ _ hp hq
  rw [walk_blank hz hblank hp, walk_blank hz hblank hq]

theorem walk_leaf (hsep : Separated child T r d) (ht : walk child T r p = some t) (hp : p.length = d)
    (hkeep : ∀ q u j, q.length ≤ d → walk child T r q = some u → u ≠ t → T' u j = T u j)
    (hq : q.length ≤ d) : walk child T' r q = walk child T r q := by
  apply walk_congr (d := d) _ hq
  intro q u j hlt hu
  apply hkeep q u j hlt.le hu
  rintro rfl
  have := hsep q p u hlt.le hp.le hu ht
  rw [this] at hlt
  omega

theorem entry_leaf [DecidableEq ι] {z v : ε} (hsep : Separated child T r d) (ht : walk child T r p = some t)
    (hp : p.length = d) (hv : T' t i = v)
    (hkeep : ∀ q u j, q.length ≤ d → walk child T r q = some u → (u ≠ t ∨ j ≠ i) → T' u j = T u j)
    (hq : q.length = d) (j : ι) :
    entry child z T' r q j = if q = p ∧ j = i then v else entry child z T r q j := by
  have hwalk := walk_leaf hsep ht hp (fun q u j hq hu hne => hkeep q u j hq hu (.inl hne)) hq.le
  cases hu : walk child T r q with
  | none =>
    have hne : q ≠ p := by
      rintro rfl
      simp [hu] at ht
    rw [entry_of_none (hwalk.trans hu), if_neg (fun h => hne h.1), entry_of_none hu]
  | some u =>
    rw [entry_of_walk (hwalk.trans hu), entry_of_walk hu]
    split_ifs with h
    · obtain ⟨rfl, rfl⟩ := h
      rw [ht] at hu
      rw [← Option.some.inj hu, hv]
    · apply hkeep q u j hq.le hu
      by_contra hcon
      rw [not_or, not_not, not_not] at hcon
      obtain ⟨rfl, rfl⟩ := hcon
      exact h ⟨hsep q p u hq.le hp.le hu ht, rfl⟩

structure Grown (child : ε → Option α) (z : ε) (T T' : α → ι → ε) (r : α) (d : ℕ) (p : List ι) (i : ι)
    (t n : α) : Prop where
  table : walk child T r p = some t
  above : p.length < d
  empty : child (T t i) = none
  hung : child (T' t i) = some n
  blank : ∀ j, T' n j = z
  fresh : ∀ q, q.length ≤ d → walk child T r q ≠ some n
  keep : ∀ q u j, q.length ≤ d → walk child T r q = some u → (u ≠ t ∨ j ≠ i) → T' u j = T u j

variable {z : ε}

theorem Grown.walk [DecidableEq ι] (h : Grown child z T T' r d p i t n) (hz : child z = none)
    (hsep : Separated child T r d) (hq : q.length ≤ d) :
    walk child T' r q = if q = p ++ [i] then some n else walk child T r q := by
  induction q using List.reverseRecOn with
  | nil => rw [if_neg (by simp)]; rfl
  | append_singleton q j ih =>
    rw [List.length_append, List.length_singleton] at hq
    rw [walk_concat, walk_concat, ih (by omega)]
    by_cases hnew : q = p ++ [i]
    · -- below the new table everything is blank, as it was below the empty entry
      have hold : Radix.walk child T r q = none := by
        rw [hnew, walk_concat, h.table, Option.bind_some, h.empty]
      have hlen : q ++ [j] ≠ p ++ [i] := fun he => by
        have := congrArg List.length he
        simp [hnew] at this
      rw [if_pos hnew, if_neg hlen, hold, Option.bind_some, Option.bind_none, h.blank, hz]
    · rw [if_neg hnew]
      cases hu : Radix.walk child T r q with
      | none =>
        have hne : q ++ [j] ≠ p ++ [i] := fun he => by
          rw [(List.append_inj' he rfl).1, h.table] at hu
          cases hu
        rw [if_neg hne]
        rfl
      | some u =>
        rw [Option.bind_some, Option.bind_some]
        split_ifs with he
        · obtain ⟨rfl, hji⟩ := List.append_inj' he rfl
          rw [h.table] at hu
          rw [← Option.some.inj hu, List.singleton_inj.mp hji, h.hung]
        · rw [h.keep q u j (by omega) hu]
          by_contra hcon
          rw [not_or, not_not, not_not] at hcon
          obtain ⟨rfl, rfl⟩ := hcon
          exact he (by rw [hsep q p u (by omega) h.above.le hu h.table])

theorem Grown.separated [DecidableEq ι] (h : Grown child z T T' r d p i t n) (hz : child z = none)
    (hsep : Separated child T r d) : Separated child T' r d := by
  intro q q' u hq hq' hu hu'
  rw [h.walk hz hsep hq] at hu
  rw [h.walk hz hsep hq'] at hu'
  split_ifs at hu hu' with he he'
  · rw [he, he']
  · exact absurd (hu'.trans hu.symm) (h.fresh q' hq')
  · exact absurd (hu.trans hu'.symm) (h.fresh q hq)
  · exact hsep q q' u hq hq' hu hu'

theorem Grown.entry [DecidableEq ι] (h : Grown child z T T' r d p i t n) (hz : child z = none)
    (hsep : Separated child T r d) (hq : q.length = d) (j : ι) :
    entry child z T' r q j = entry child z T r q j := by
  have hwalk := h.walk hz hsep hq.le
  by_cases hnew : q = p ++ [i]
  · have hold : Radix.walk child T r q = none := by
      rw [hnew, walk_concat, h.table, Option.bind_some, h.empty]
    rw [if_pos hnew] at hwalk
    rw [entry_of_walk hwalk, entry_of_none hold, h.blank]
  · rw [if_neg hnew] at hwalk
    cases hu : Radix.walk child T r q with
    | none => rw [entry_of_none (hwalk.trans hu), entry_of_none hu]
    | some u =>
      rw [entry_of_walk (hwalk.trans hu), entry_of_walk hu]
      apply h.keep q u j hq.le hu
      left
      rintro rfl
      have hsame := hsep q p u hq.le h.above.le hu h.table
      have := h.above
      rw [← hsame] at this
      omega

def missing [DecidableEq α] (child : ε → Option α) (T : α → ι → ε) (r : α) (S : Finset (List ι)) : Finset (List ι) :=
  S.filter fun q => Radix.walk child T r q = none

theorem missing_congr [DecidableEq α] {S : Finset (List ι)}
    (hwalk : ∀ q ∈ S, Radix.walk child T' r q = Radix.walk child T r q) :
    missing child T' r S = missing child T r S :=
  Finset.filter_congr fun q hq => by rw [hwalk q hq]

theorem Grown.card_missing [DecidableEq α] [DecidableEq ι] {S : Finset (List ι)} (h : Grown child z T T' r d p i t n)
    (hz : child z = none) (hsep : Separated child T r d) (hS : ∀ q ∈ S, q.length ≤ d) (hmem : p ++ [i] ∈ S) :
    (missing child T' r S).card + 1 = (missing child T r S).card := by
  have hold : p ++ [i] ∈ missing child T r S := by
    apply Finset.mem_filter.mpr
    refine ⟨hmem, ?_⟩
    rw [walk_concat, h.table, Option.bind_some, h.empty]
  have hrest : missing child T' r S = (missing child T r S).erase (p ++ [i]) := by
    ext q
    rw [Finset.mem_erase, missing, missing, Finset.mem_filter, Finset.mem_filter]
    constructor
    · rintro ⟨hq, hnone⟩
      rw [h.walk hz hsep (hS q hq)] at hnone
      split_ifs at hnone with he
      exact ⟨he, hq, hnone⟩
    · rintro ⟨hne, hq, hnone⟩
      rw [h.walk hz hsep (hS q hq), if_neg hne]
      exact ⟨hq, hnone⟩
  rw [hrest, Finset.card_erase_add_one hold]

end Lib.Radix
