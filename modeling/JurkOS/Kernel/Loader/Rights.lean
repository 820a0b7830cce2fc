import JurkOS.Kernel.Loader.Image

/-!
The rights of the pages at the moment of the stores, with write protection on
for the kernel too.
-/

namespace JurkOS.Kernel.Loader

open Lib Lib.Memory Paging Pmm

variable {a : Arch} {frame : ℕ → ℕ} {cr3 : ℕ}

structure Store.Allowed (L : List Phdr) (x : Store) : Prop where
  writable : ∃ rights, x.rights = some rights ∧ rights &&& PAGE_WRITABLE ≠ 0
  inside : ∃ ph ∈ L, x.virt ∈ Span ph.vaddr ph.memsz

structure Granted (a : Arch) (L before : List Phdr) (ph : Phdr) (v : ℕ) (l : Option (ℕ × UInt8)) : Prop where
  canonical : canonical a v
  writable : (∃ x, l = some x ∧ x.1 &&& PAGE_WRITABLE ≠ 0) ∨
    l = none ∧ ∃ q, (before ++ [ph]).find? (fun q => q.Covers a (pageNumber a v)) = some q ∧ q.flags &&& PF_W ≠ 0
  inside : ∃ q ∈ L, v ∈ Span q.vaddr q.memsz

theorem look_of_not_canonical {t : Paging.State} {v : ℕ} (hc : ¬ canonical a v) : look a cr3 t v = none := by
  unfold look mmu
  rw [if_neg hc]
  rfl

theorem mapped_of_not_canonical {ph : Phdr} {v : ℕ} (hc : ¬ canonical a v) (l : Option (ℕ × UInt8)) :
    ph.mapped a v l = l :=
  if_neg fun h => hc h.1

theorem effects_of_not_canonical {b : Buffer a} {v : ℕ} (hc : ¬ canonical a v) (L : List Phdr) :
    effects b L v none = none := by
  induction L with
  | nil => rfl
  | cons ph L ih =>
    have hhead : ph.effect b v none = none := by
      rw [Phdr.effect, mapped_of_not_canonical hc]
      rfl
    exact (congrArg (effects b L v) hhead).trans ih

theorem mapped_rights {b : Buffer a} {v : ℕ} (hc : canonical a v) (before : List Phdr) (ph : Phdr)
    (l : Option (ℕ × UInt8)) : (ph.mapped a v (effects b before v l)).map Prod.fst =
      (l.map Prod.fst).or (((before ++ [ph]).find? fun q => q.Covers a (pageNumber a v)).map Phdr.rights) := by
  have hlast : effects b (before ++ [ph]) v l = ph.effect b v (effects b before v l) := effects_append before [ph] l
  have hrights := effects_rights (b := b) hc (before ++ [ph]) l
  rw [hlast, Phdr.effect, map_fst_setSnd] at hrights
  exact hrights

theorem mapped_writable_iff {t : Paging.State} {b : Buffer a} {before : List Phdr} {ph : Phdr} {v : ℕ} :
    (∃ rights, (ph.mapped a v (effects b before v (look a cr3 t v))).map Prod.fst = some rights ∧
        rights &&& PAGE_WRITABLE ≠ 0) ↔
      canonical a v ∧ ((∃ x, look a cr3 t v = some x ∧ x.1 &&& PAGE_WRITABLE ≠ 0) ∨ look a cr3 t v = none ∧
        ∃ q, (before ++ [ph]).find? (fun q => q.Covers a (pageNumber a v)) = some q ∧ q.flags &&& PF_W ≠ 0) := by
  by_cases hc : canonical a v
  · rw [mapped_rights hc]
    cases look a cr3 t v with
    | some x =>
      constructor
      · rintro ⟨rights, hrights, hw⟩
        cases hrights
        exact ⟨hc, Or.inl ⟨x, rfl, hw⟩⟩
      · rintro ⟨-, ⟨y, hy, hw⟩ | ⟨hnone, -⟩⟩
        · cases hy
          exact ⟨x.1, rfl, hw⟩
        · cases hnone
    | none =>
      rw [Option.map_none, Option.none_or]
      constructor
      · rintro ⟨rights, hrights, hw⟩
        obtain ⟨q, hq, rfl⟩ := Option.map_eq_some_iff.mp hrights
        exact ⟨hc, Or.inr ⟨rfl, q, hq, q.rights_writable.mp hw⟩⟩
      · rintro ⟨-, ⟨y, hy, -⟩ | ⟨-, q, hq, hw⟩⟩
        · cases hy
        · exact ⟨q.rights, by rw [hq]; rfl, q.rights_writable.mpr hw⟩
  · rw [look_of_not_canonical hc, effects_of_not_canonical hc, mapped_of_not_canonical hc]
    constructor
    · rintro ⟨rights, hrights, -⟩
      cases hrights
    · exact fun h => absurd h.1 hc

theorem LoadedAll.granted {b : Buffer a} {t : Paging.State} {s : State} {L before after : List Phdr} {ph : Phdr} {v : ℕ}
    (h : LoadedAll frame cr3 b L ⟨t, []⟩ s) (hallowed : ∀ x ∈ s.stores, x.Allowed L)
    (hsplit : L = before ++ ph :: after) (hv : v < 2 ^ a.wordBits) (hstored : ph.stored b v ≠ none) :
    Granted a L before ph v (Loader.look a cr3 t v) := by
  obtain ⟨hwritable, hinside⟩ := hallowed _ (h.store_mem hsplit hv hstored)
  obtain ⟨hc, hw⟩ := mapped_writable_iff.mp hwritable
  exact ⟨hc, hw, hinside⟩

end JurkOS.Kernel.Loader
