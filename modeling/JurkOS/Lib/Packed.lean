import JurkOS.Lib.Memory
import Mathlib.Data.List.Nodup

/-!
Packed structures in memory, field behind field, and tables of them.
-/

namespace Lib.Packed

open Lib.Memory

def loadFields (m : Mem) (p : ℕ) : List ℕ → List ℕ
  | [] => []
  | k :: sizes => load m p k :: loadFields m (p + k) sizes

def storeFields (m : Mem) (p : ℕ) : List (ℕ × ℕ) → Mem
  | [] => m
  | (k, v) :: fields => storeFields (store m p k v) (p + k) fields

variable {m m' : Mem} {p n : ℕ} {sizes : List ℕ}

theorem loadFields_congr (h : ∀ b ∈ Span p sizes.sum, m' b = m b) : loadFields m' p sizes = loadFields m p sizes := by
  induction sizes generalizing p with
  | nil => rfl
  | cons k sizes ih =>
    rw [List.sum_cons] at h
    rw [loadFields, loadFields, load_congr, ih]
    · intro b hb
      apply h
      rw [mem_span] at hb ⊢
      omega
    · intro b hb
      apply h
      rw [mem_span] at hb ⊢
      omega

theorem storeFields_changedIn (m : Mem) (p : ℕ) (fields : List (ℕ × ℕ)) :
    ChangedIn (Span p (fields.map Prod.fst).sum) m (storeFields m p fields) := by
  induction fields generalizing m p with
  | nil => exact ChangedIn.refl _ m
  | cons f fields ih =>
    obtain ⟨k, v⟩ := f
    rw [List.map_cons, List.sum_cons]
    apply ChangedIn.trans ((store_changedIn m p k v).mono _) ((ih _ _).mono _)
    · intro b hb
      rw [mem_span] at hb ⊢
      omega
    · intro b hb
      rw [mem_span] at hb ⊢
      omega

theorem loadFields_storeFields (m : Mem) (p : ℕ) {fields : List (ℕ × ℕ)} (h : ∀ f ∈ fields, f.2 < 256 ^ f.1) :
    loadFields (storeFields m p fields) p (fields.map Prod.fst) = fields.map Prod.snd := by
  induction fields generalizing m p with
  | nil => rfl
  | cons f fields ih =>
    obtain ⟨k, v⟩ := f
    rw [List.forall_mem_cons] at h
    have hfirst : load (storeFields (store m p k v) (p + k) fields) p k = v := by
      rw [load_of_changedIn (storeFields_changedIn _ _ _), load_store_of_lt h.1]
      rw [Set.disjoint_left]
      intro b hb hb'
      rw [mem_span] at hb hb'
      omega
    rw [List.map_cons, List.map_cons, storeFields, loadFields, hfirst, ih _ _ h.2]

variable {α : Type} {put : α → List (ℕ × ℕ)}

def storeTable (put : α → List (ℕ × ℕ)) (size base : ℕ) (m : Mem) (entries : List (ℕ × α)) : Mem :=
  entries.foldl (fun m e => storeFields m (base + size * e.1) (put e.2)) m

variable {size base : ℕ} {entries : List (ℕ × α)}

theorem storeTable_other (hsize : ∀ x, ((put x).map Prod.fst).sum = size) (hn : n ∉ entries.map Prod.fst) :
    ∀ b ∈ Span (base + size * n) size, storeTable put size base m entries b = m b := by
  induction entries generalizing m with
  | nil => exact fun b _ => rfl
  | cons e entries ih =>
    rw [List.map_cons, List.mem_cons, not_or] at hn
    intro b hb
    have hrest := ih (m := storeFields m (base + size * e.1) (put e.2)) hn.2 b hb
    rw [storeTable, List.foldl_cons]
    apply hrest.trans
    apply storeFields_changedIn
    rw [hsize, mem_span]
    rw [mem_span] at hb
    rcases Nat.lt_or_gt_of_ne hn.1 with hlt | hlt
    · have := Nat.mul_le_mul_left size (Nat.succ_le_of_lt hlt)
      rw [Nat.mul_succ] at this
      omega
    · have := Nat.mul_le_mul_left size (Nat.succ_le_of_lt hlt)
      rw [Nat.mul_succ] at this
      omega

theorem loadFields_storeTable (hsize : ∀ x, (put x).map Prod.fst = sizes)
    (hnodup : (entries.map Prod.fst).Nodup) {x : α}
    (hput : ∀ f ∈ put x, f.2 < 256 ^ f.1) (hx : (n, x) ∈ entries) :
    loadFields (storeTable put sizes.sum base m entries) (base + sizes.sum * n) sizes = (put x).map Prod.snd := by
  induction entries generalizing m with
  | nil => cases hx
  | cons e entries ih =>
    rw [List.map_cons, List.nodup_cons] at hnodup
    rcases List.mem_cons.mp hx with rfl | hx
    · have hkeep : ∀ b ∈ Span (base + sizes.sum * n) sizes.sum,
          storeTable put sizes.sum base (storeFields m (base + sizes.sum * n) (put x)) entries b =
            storeFields m (base + sizes.sum * n) (put x) b :=
        storeTable_other (fun y => congrArg List.sum (hsize y)) hnodup.1
      rw [storeTable, List.foldl_cons]
      apply (loadFields_congr hkeep).trans
      rw [← hsize x]
      exact loadFields_storeFields _ _ hput
    · exact ih hnodup.2 hx

end Lib.Packed
