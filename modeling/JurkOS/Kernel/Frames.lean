import JurkOS.Kernel.PagingRuns

/-!
`pmm_alloc_page`, called again and again, as the source of frames.
-/

namespace JurkOS.Kernel.Pmm

open Paging

variable (a : Arch)

def drawn (p : State) : ℕ → State
  | 0 => p
  | k + 1 => (pmmAllocPage a (drawn p k)).2

def framesOf (p : State) (k : ℕ) : ℕ := (pmmAllocPage a (drawn a p k)).1

variable {a} {p : State}

theorem pmmAllocPage_cases (hnw : p.totalPages * PAGE_SIZE ≤ 2 ^ a.wordBits) :
    p.freeSet = ∅ ∧ pmmAllocPage a p = (0, p) ∨
      ∃ j ∈ p.freeSet, (pmmAllocPage a p).1 = j * PAGE_SIZE ∧ Change a p (pmmAllocPage a p).2 {j} ∅ := by
  cases allocPageLoop_change (n := p.totalPages) (i := 0) (Nat.zero_add _) hnw with
  | inl hnone =>
    left
    exact ⟨Finset.eq_empty_of_forall_notMem fun j hj => absurd (hnone.2 j hj) (Nat.not_lt_zero j), hnone.1⟩
  | inr h =>
    obtain ⟨j, hj, -, hframe, hchange⟩ := h
    exact Or.inr ⟨j, hj, hframe, hchange⟩

theorem pmmAllocPage_total (hnw : p.totalPages * PAGE_SIZE ≤ 2 ^ a.wordBits) :
    (pmmAllocPage a p).2.totalPages = p.totalPages := by
  cases pmmAllocPage_cases hnw with
  | inl h => rw [h.2]
  | inr h =>
    obtain ⟨j, -, -, hchange⟩ := h
    exact hchange.total

theorem drawn_total (hnw : p.totalPages * PAGE_SIZE ≤ 2 ^ a.wordBits) (k : ℕ) :
    (drawn a p k).totalPages = p.totalPages := by
  induction k with
  | zero => rfl
  | succ k ih => exact (pmmAllocPage_total (by rwa [ih])).trans ih

theorem drawn_cases (hnw : p.totalPages * PAGE_SIZE ≤ 2 ^ a.wordBits) (k : ℕ) :
    (drawn a p k).freeSet = ∅ ∧ framesOf a p k = 0 ∧ drawn a p (k + 1) = drawn a p k ∨
      ∃ j ∈ (drawn a p k).freeSet, framesOf a p k = j * PAGE_SIZE ∧
        (drawn a p (k + 1)).freeSet = (drawn a p k).freeSet \ {j} := by
  cases pmmAllocPage_cases (p := drawn a p k) (by rwa [drawn_total hnw]) with
  | inl h => exact Or.inl ⟨h.1, congrArg Prod.fst h.2, congrArg Prod.snd h.2⟩
  | inr h =>
    obtain ⟨j, hj, hframe, hchange⟩ := h
    exact Or.inr ⟨j, hj, hframe, hchange.free.trans (Finset.union_empty _)⟩

theorem drawn_succ_subset (hnw : p.totalPages * PAGE_SIZE ≤ 2 ^ a.wordBits) (k : ℕ) :
    (drawn a p (k + 1)).freeSet ⊆ (drawn a p k).freeSet := by
  cases drawn_cases hnw k with
  | inl h => rw [h.2.2]
  | inr h =>
    obtain ⟨j, -, -, hfree⟩ := h
    rw [hfree]
    exact Finset.sdiff_subset

theorem drawn_subset (hnw : p.totalPages * PAGE_SIZE ≤ 2 ^ a.wordBits) {i k : ℕ} (h : i ≤ k) :
    (drawn a p k).freeSet ⊆ (drawn a p i).freeSet := by
  induction k, h using Nat.le_induction with
  | base => exact Finset.Subset.refl _
  | succ k _ ih => exact (drawn_succ_subset hnw k).trans ih

theorem drawn_card (hnw : p.totalPages * PAGE_SIZE ≤ 2 ^ a.wordBits) (k : ℕ) :
    (drawn a p k).freeSet.card = p.freeSet.card - k := by
  induction k with
  | zero => rfl
  | succ k ih =>
    cases drawn_cases hnw k with
    | inl h =>
      rw [h.1, Finset.card_empty] at ih
      rw [h.2.2, h.1, Finset.card_empty]
      omega
    | inr h =>
      obtain ⟨j, hj, -, hfree⟩ := h
      rw [hfree, Finset.card_sdiff_of_subset (Finset.singleton_subset_iff.mpr hj), Finset.card_singleton, ih]
      omega

theorem drawn_freePages (hnw : p.totalPages * PAGE_SIZE ≤ 2 ^ a.wordBits) (hp : Counted a p) (k : ℕ) :
    (drawn a p k).freePages = p.freePages - k := by
  have hcounted : Counted a (drawn a p k) := by
    induction k with
    | zero => exact hp
    | succ k ih =>
      change Counted a (pmmAllocPage a (drawn a p k)).2
      cases pmmAllocPage_cases (p := drawn a p k) (by rwa [drawn_total hnw]) with
      | inl h => rwa [h.2]
      | inr h =>
        obtain ⟨j, -, -, hchange⟩ := h
        exact hchange.counted ih
  rw [hcounted.count, drawn_card hnw, hp.count]

theorem framesOf_frames {root k : ℕ} (hnw : p.totalPages * PAGE_SIZE ≤ 2 ^ a.wordBits) (hk : k ≤ p.freeSet.card)
    (hnull : 0 ∉ p.freeSet) (haligned : root % PAGE_SIZE = 0) (hroot : root / PAGE_SIZE ∉ p.freeSet) :
    Frames a (framesOf a p) root k := by
  have hframe (i : ℕ) (hi : i < k) : ∃ j ∈ (drawn a p i).freeSet, framesOf a p i = j * PAGE_SIZE ∧
      (drawn a p (i + 1)).freeSet = (drawn a p i).freeSet \ {j} := by
    cases drawn_cases hnw i with
    | inl h =>
      have hcard := drawn_card hnw i
      rw [h.1, Finset.card_empty] at hcard
      omega
    | inr h => exact h
  have hfree (i j : ℕ) (hj : j ∈ (drawn a p i).freeSet) : j ∈ p.freeSet := drawn_subset hnw (Nat.zero_le i) hj
  have hlater (i i' : ℕ) (hi' : i' < k) (hlt : i < i') : framesOf a p i ≠ framesOf a p i' := by
    obtain ⟨j, hj, he, hgone⟩ := hframe i (by omega)
    obtain ⟨j', hj', he', -⟩ := hframe i' hi'
    intro hsame
    rw [he, he'] at hsame
    have hjj : j = j' := Nat.eq_of_mul_eq_mul_right (by decide) hsame
    have hstill := drawn_subset hnw (Nat.succ_le_of_lt hlt) hj'
    rw [hgone, ← hjj] at hstill
    exact (Finset.mem_sdiff.mp hstill).2 (Finset.mem_singleton_self j)
  refine ⟨haligned, ?_, ?_, ?_, ?_, ?_⟩
  · intro i hi hzero
    obtain ⟨j, hj, he, -⟩ := hframe i hi
    rw [he] at hzero
    have hj0 : j = 0 := (Nat.mul_eq_zero.mp hzero).resolve_right (by decide)
    exact hnull (hj0 ▸ hfree i j hj)
  · intro i hi
    obtain ⟨j, -, he, -⟩ := hframe i hi
    rw [he]
    exact Nat.mul_mod_left _ _
  · intro i hi
    obtain ⟨j, hj, he, -⟩ := hframe i hi
    have hlt := (mem_freeSet.mp (hfree i j hj)).1
    rw [he]
    exact ((Nat.mul_lt_mul_right (by decide)).mpr hlt).trans_le hnw
  · intro i hi i' hi' hsame
    by_contra hne
    cases Nat.lt_or_gt_of_ne hne with
    | inl hlt => exact hlater i i' hi' hlt hsame
    | inr hlt => exact hlater i' i hi hlt hsame.symm
  · intro i hi hsame
    obtain ⟨j, hj, he, -⟩ := hframe i hi
    rw [← hsame, he, Nat.mul_div_cancel _ (by decide)] at hroot
    exact hroot (hfree i j hj)

theorem framesOf_masked (k : ℕ) : framesOf a p k &&& frameMask a = framesOf a p k := by
  have hframe : ∃ j, framesOf a p k = a.wrap (j * PAGE_SIZE) := by
    unfold framesOf pmmAllocPage
    generalize (drawn a p k).totalPages = n
    generalize 0 = i
    induction n generalizing i with
    | zero => exact ⟨0, by simp [allocPageLoop, Arch.wrap]⟩
    | succ n ih =>
      unfold allocPageLoop
      split
      · exact ⟨i, rfl⟩
      · exact ih _
  obtain ⟨j, hj⟩ := hframe
  have hlt : framesOf a p k < 2 ^ a.wordBits := by
    rw [hj]
    exact Nat.mod_lt _ (by positivity)
  have haligned : framesOf a p k % 2 ^ 12 = 0 := by
    have hw : 12 ≤ a.wordBits := by cases a <;> decide
    rw [hj, Arch.wrap, Nat.mod_mod_of_dvd _ (pow_dvd_pow 2 hw)]
    exact Nat.mul_mod_left _ _
  rw [and_frameMask hlt]
  omega

end JurkOS.Kernel.Pmm
