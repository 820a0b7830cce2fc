import JurkOS.Kernel.Pmm
import JurkOS.Lib.Ownership

/-!
Runs of the physical page allocator: the free page counter, the end of the
bitmap, and exclusive ownership of frames.
-/

namespace JurkOS.Kernel.Pmm

open Lib Lib.Memory Lib.Run

inductive Call
  | pmmMarkRegion (base length : ℕ) (used : Bool)
  | pmmAllocPage
  | pmmAllocPages (count : ℕ)
  | pmmFreePage (ptr : ℕ)
  | pmmFreePages (ptr count : ℕ)

variable (a : Arch)

/-- The pointer that the call returns (0 for a call without a result) and the state after it. -/
def call (s : State) : Call → ℕ × State
  | .pmmMarkRegion base length used => (0, pmmMarkRegion a s base length used)
  | .pmmAllocPage => pmmAllocPage a s
  | .pmmAllocPages count => pmmAllocPages a s count
  | .pmmFreePage ptr => (0, pmmFreePage a s ptr)
  | .pmmFreePages ptr count => (0, pmmFreePages a s ptr count)

def Call.Words : Call → Prop
  | .pmmMarkRegion base length _ => base < 2 ^ a.wordBits ∧ length < 2 ^ a.wordBits
  | .pmmAllocPage => True
  | .pmmAllocPages count => count < 2 ^ a.wordBits
  | .pmmFreePage ptr => ptr < 2 ^ a.wordBits
  | .pmmFreePages ptr count => ptr < 2 ^ a.wordBits ∧ count < 2 ^ a.wordBits

structure Event where
  call : Call
  result : ℕ

def Step (s : State) (e : Event) (t : State) : Prop :=
  e.call.Words a ∧ call a s e.call = (e.result, t)

def returned (e : Event) : Set ℕ :=
  match e.call with
  | .pmmAllocPage => {page | e.result ≠ 0 ∧ page = e.result / PAGE_SIZE}
  | .pmmAllocPages count =>
    {page | e.result ≠ 0 ∧ e.result / PAGE_SIZE ≤ page ∧ page < e.result / PAGE_SIZE + count}
  | _ => ∅

def covered (e : Event) : Set ℕ :=
  match e.call with
  | .pmmFreePage ptr => {page | ptr ≠ 0 ∧ page = ptr / PAGE_SIZE}
  | .pmmFreePages ptr count =>
    {page | ptr ≠ 0 ∧ ∃ i < count, page = a.wrap (ptr / PAGE_SIZE + i)}
  | .pmmMarkRegion base length false =>
    {page | base / PAGE_SIZE ≤ page ∧ page < base / PAGE_SIZE + length / PAGE_SIZE}
  | _ => ∅

structure Sound (memSize : ℕ) (s : State) : Prop where
  total : s.totalPages = memSize / PAGE_SIZE
  counted : Counted a s

variable {a}

theorem Sound.total_le {memSize : ℕ} {s : State} (h : Sound a memSize s) (hmem : memSize < 2 ^ a.wordBits) :
    s.totalPages * PAGE_SIZE ≤ 2 ^ a.wordBits := by
  rw [h.total]
  exact (Nat.div_mul_le_self _ _).trans hmem.le

theorem pmmInit_test {memSize i : ℕ} {bitmap : Mem} (hmem : memSize < 2 ^ a.wordBits)
    (hi : i < memSize / PAGE_SIZE) : bitmapTest (pmmInit a memSize bitmap).bitmap i = true := by
  have hw : 2 ^ 32 ≤ 2 ^ a.wordBits := Nat.pow_le_pow_right (by decide) (by cases a <;> decide)
  have hwrap : a.wrap (memSize / PAGE_SIZE + 7) = memSize / PAGE_SIZE + 7 := by
    rw [PAGE_SIZE]
    exact Arch.wrap_of_lt (by omega)
  have hbyte : i / 8 ∈ Span 0 (a.wrap (memSize / PAGE_SIZE + 7) / 8) := by
    rw [hwrap]
    exact ⟨by omega, by omega⟩
  have hff : ∀ k : Fin 8, (0xFF : UInt8).toNat.testBit k = true := by decide
  rw [bitmapTest_eq]
  change (memset 0xFF (a.wrap (memSize / PAGE_SIZE + 7) / 8) bitmap 0 (i / 8)).toNat.testBit (i % 8) = true
  rw [memset_apply hbyte]
  exact hff ⟨i % 8, Nat.mod_lt _ (by decide)⟩

theorem pmmInit_sound {memSize : ℕ} (bitmap : Mem) (hmem : memSize < 2 ^ a.wordBits) :
    Sound a memSize (pmmInit a memSize bitmap) := by
  refine ⟨rfl, (Nat.div_le_self _ _).trans_lt hmem, ?_, fun d hd => absurd hd List.not_mem_nil⟩
  have hempty : (pmmInit a memSize bitmap).freeSet = ∅ := by
    ext i
    rw [mem_freeSet]
    constructor
    · rintro ⟨hi, hclear⟩
      rw [pmmInit_test hmem hi] at hclear
      cases hclear
    · intro h
      cases h
  rw [hempty]
  rfl

theorem regionPages_covered {total base length result : ℕ} :
    (regionPages total (base / PAGE_SIZE) 0 (length / PAGE_SIZE) : Set ℕ) ⊆
      covered a ⟨.pmmMarkRegion base length false, result⟩ := by
  intro page hpage
  have := Finset.mem_Ico.mp (Finset.mem_filter.mp hpage).1
  exact ⟨by omega, by omega⟩

theorem pmmAllocPage_change {memSize : ℕ} {s : State} (hs : Sound a memSize s) (hmem : memSize < 2 ^ a.wordBits) :
    ∃ T : Finset ℕ, Change a s (pmmAllocPage a s).2 T ∅ ∧ T ⊆ s.freeSet ∧
      returned ⟨.pmmAllocPage, (pmmAllocPage a s).1⟩ ⊆ T := by
  rcases allocPageLoop_change (a := a) (s := s) (n := s.totalPages) (i := 0) (Nat.zero_add _)
    (hs.total_le hmem) with ⟨hnone, -⟩ | ⟨j, hj, -, hr, hch⟩
  · refine ⟨∅, ?_, Finset.empty_subset _, ?_⟩
    · rw [pmmAllocPage, hnone]
      exact Change.refl s
    · rintro page ⟨hne, -⟩
      rw [pmmAllocPage, hnone] at hne
      exact absurd rfl hne
  · refine ⟨{j}, hch, Finset.singleton_subset_iff.mpr hj, ?_⟩
    rintro page ⟨-, hpage⟩
    rw [pmmAllocPage, hr, Nat.mul_div_cancel _ (by decide)] at hpage
    exact Finset.mem_singleton.mpr hpage

theorem pmmAllocPages_change {memSize : ℕ} {s : State} (count : ℕ) (hs : Sound a memSize s)
    (hmem : memSize < 2 ^ a.wordBits) :
    ∃ T : Finset ℕ, Change a s (pmmAllocPages a s count).2 T ∅ ∧ T ⊆ s.freeSet ∧
      returned ⟨.pmmAllocPages count, (pmmAllocPages a s count).1⟩ ⊆ T := by
  have hnull (h : pmmAllocPages a s count = (0, s)) :
      ∃ T : Finset ℕ, Change a s (pmmAllocPages a s count).2 T ∅ ∧ T ⊆ s.freeSet ∧
        returned ⟨.pmmAllocPages count, (pmmAllocPages a s count).1⟩ ⊆ T := by
    rw [h]
    exact ⟨∅, Change.refl s, Finset.empty_subset _, fun page hpage => absurd rfl hpage.1⟩
  by_cases hcount : count = 0
  · exact hnull (if_pos hcount)
  rcases allocPagesLoop_change (a := a) (s := s) (n := s.totalPages) (i := 0) count 0 0 (Nat.zero_add _)
    (hs.total_le hmem) (fun h => absurd rfl h) with hnone | ⟨p, hsub, -, hr, hch⟩
  · exact hnull ((if_neg hcount).trans hnone)
  · rw [pmmAllocPages, if_neg hcount]
    refine ⟨Finset.Ico p (p + count), hch, hsub, ?_⟩
    rintro page ⟨-, hle, hlt⟩
    rw [hr, Nat.mul_div_cancel _ (by decide)] at hle hlt
    exact Finset.mem_coe.mpr (Finset.mem_Ico.mpr ⟨hle, hlt⟩)

theorem pmmFreePage_change {result : ℕ} (s : State) (ptr : ℕ) :
    ∃ G : Finset ℕ, Change a s (pmmFreePage a s ptr) ∅ G ∧ (G : Set ℕ) ⊆ covered a ⟨.pmmFreePage ptr, result⟩ := by
  unfold pmmFreePage
  split_ifs with hnull
  · exact ⟨∅, Change.refl s, by simp⟩
  · refine ⟨_, releasePage_change s _, fun page hpage => ⟨hnull, ?_⟩⟩
    split_ifs at hpage
    · exact Finset.mem_singleton.mp hpage
    · simp at hpage

theorem pmmFreePages_change {result : ℕ} (s : State) (ptr count : ℕ) :
    ∃ G : Finset ℕ, Change a s (pmmFreePages a s ptr count) ∅ G ∧
      (G : Set ℕ) ⊆ covered a ⟨.pmmFreePages ptr count, result⟩ := by
  unfold pmmFreePages
  split_ifs with hnull
  · exact ⟨∅, Change.refl s, by simp⟩
  · refine ⟨_, freePagesLoop_change s, fun page hpage => ⟨hnull, ?_⟩⟩
    obtain ⟨i, hi, rfl⟩ := Finset.mem_image.mp (Finset.mem_filter.mp hpage).1
    exact ⟨i, by have := (Finset.mem_Ico.mp hi).2; omega, rfl⟩

theorem step_change {memSize : ℕ} {s t : State} {e : Event} (hs : Sound a memSize s)
    (hmem : memSize < 2 ^ a.wordBits) (h : Step a s e t) :
    ∃ T G : Finset ℕ, Change a s t T G ∧ returned e ⊆ T ∧ returned e ⊆ s.freeSet ∧
      (G : Set ℕ) ⊆ covered a e := by
  obtain ⟨c, result⟩ := e
  obtain ⟨hwords, hcall⟩ := h
  have hnone : (∅ : Set ℕ) ⊆ (∅ : Finset ℕ) := Set.empty_subset _
  cases c with
  | pmmMarkRegion base length used =>
    obtain ⟨-, rfl⟩ := Prod.mk.inj hcall
    refine ⟨_, _, pmmMarkRegion_change hs.counted hwords.1 hwords.2, Set.empty_subset _, Set.empty_subset _, ?_⟩
    cases used with
    | true => simp
    | false => exact regionPages_covered
  | pmmAllocPage =>
    obtain ⟨T, hch, hfree, hret⟩ := pmmAllocPage_change hs hmem
    rw [show pmmAllocPage a s = (result, t) from hcall] at hch hret
    exact ⟨T, ∅, hch, hret, hret.trans (Finset.coe_subset.mpr hfree), by simp⟩
  | pmmAllocPages count =>
    obtain ⟨T, hch, hfree, hret⟩ := pmmAllocPages_change count hs hmem
    rw [show pmmAllocPages a s count = (result, t) from hcall] at hch hret
    exact ⟨T, ∅, hch, hret, hret.trans (Finset.coe_subset.mpr hfree), by simp⟩
  | pmmFreePage ptr =>
    obtain ⟨-, rfl⟩ := Prod.mk.inj hcall
    obtain ⟨G, hch, hcov⟩ := pmmFreePage_change (a := a) s ptr
    exact ⟨∅, G, hch, Set.empty_subset _, Set.empty_subset _, hcov⟩
  | pmmFreePages ptr count =>
    obtain ⟨-, rfl⟩ := Prod.mk.inj hcall
    obtain ⟨G, hch, hcov⟩ := pmmFreePages_change (a := a) s ptr count
    exact ⟨∅, G, hch, Set.empty_subset _, Set.empty_subset _, hcov⟩

theorem step_sound {memSize : ℕ} {s t : State} {e : Event} (hmem : memSize < 2 ^ a.wordBits)
    (hs : Sound a memSize s) (h : Step a s e t) : Sound a memSize t := by
  obtain ⟨T, G, hch, -⟩ := step_change hs hmem h
  exact ⟨hch.total.trans hs.total, hch.counted hs.counted⟩

structure Accounted (memSize : ℕ) (s₀ s : State) : Prop where
  total : s.totalPages = memSize / PAGE_SIZE
  count : s.freePages = ((Finset.range s.totalPages).filter fun i => bitmapTest s.bitmap i = false).card
  decrements : ∀ d ∈ s.decrements, d.2 ≤ d.1
  beyond : ∀ i, s.totalPages ≤ i → bitmapTest s.bitmap i = bitmapTest s₀.bitmap i

theorem run_accounted {memSize : ℕ} {bitmap : Mem} {l : List Event} {s : State}
    (hmem : memSize < 2 ^ a.wordBits) (hrun : Steps (Step a) (pmmInit a memSize bitmap) l s) :
    Accounted memSize (pmmInit a memSize bitmap) s := by
  have hinv : Sound a memSize s ∧ ∀ i, memSize / PAGE_SIZE ≤ i →
      bitmapTest s.bitmap i = bitmapTest (pmmInit a memSize bitmap).bitmap i := by
    refine hrun.invariant (P := fun s => Sound a memSize s ∧ ∀ i, memSize / PAGE_SIZE ≤ i →
      bitmapTest s.bitmap i = bitmapTest (pmmInit a memSize bitmap).bitmap i) ?_ ?_
    · rintro s e t ⟨hs, hbeyond⟩ hstep
      obtain ⟨T, G, hch, -⟩ := step_change hs hmem hstep
      refine ⟨step_sound hmem hs hstep, fun i hi => ?_⟩
      rw [hch.beyond i (by rw [hs.total]; exact hi), hbeyond i hi]
    · exact ⟨pmmInit_sound bitmap hmem, fun _ _ => rfl⟩
  obtain ⟨hs, hbeyond⟩ := hinv
  exact ⟨hs.total, hs.counted.count, hs.counted.covered, fun i hi => hbeyond i (hs.total ▸ hi)⟩

theorem run_accounted_alloc :
    Accounted 16384 (pmmInit .x86_64 16384 fun _ => 0)
      (pmmAllocPages .x86_64 (pmmMarkRegion .x86_64 (pmmInit .x86_64 16384 fun _ => 0) 4096 12288 false) 2).2 :=
  run_accounted (a := .x86_64) (l := [⟨.pmmMarkRegion 4096 12288 false, 0⟩, ⟨.pmmAllocPages 2, 4096⟩])
    (by decide) (.cons ⟨⟨by decide, by decide⟩, rfl⟩ (.cons ⟨(by decide : 2 < 2 ^ 64), rfl⟩ (.nil _)))

theorem step_accounts {memSize : ℕ} (hmem : memSize < 2 ^ a.wordBits) :
    Ownership.Accounts (fun s e t => Sound a memSize s ∧ Step a s e t)
      (fun s => (s.freeSet : Set ℕ)) returned (covered a) := by
  rintro s e t ⟨hs, hstep⟩
  obtain ⟨T, G, hch, hret, hfree, hcov⟩ := step_change hs hmem hstep
  refine ⟨hfree, fun page hpage => ?_⟩
  dsimp only at hpage
  rw [hch.free, Finset.coe_union, Finset.coe_sdiff] at hpage
  rcases hpage with hpage | hpage
  · exact .inl ⟨hpage.1, fun h => hpage.2 (hret h)⟩
  · exact .inr (hcov hpage)

theorem returned_not_covered {e : Event} {page : ℕ} (h : page ∈ returned e) : page ∉ covered a e := by
  obtain ⟨c, result⟩ := e
  cases c with
  | pmmAllocPage => exact Set.notMem_empty page
  | pmmAllocPages count => exact Set.notMem_empty page
  | pmmMarkRegion base length used => exact absurd h (Set.notMem_empty page)
  | pmmFreePage ptr => exact absurd h (Set.notMem_empty page)
  | pmmFreePages ptr count => exact absurd h (Set.notMem_empty page)

theorem frame_exclusive {memSize page : ℕ} {bitmap : Mem} {l₁ l₂ l₃ : List Event} {i j : Event} {s : State}
    (hmem : memSize < 2 ^ a.wordBits)
    (hrun : Steps (Step a) (pmmInit a memSize bitmap) (l₁ ++ i :: (l₂ ++ j :: l₃)) s)
    (hi : page ∈ returned i) (hj : page ∈ returned j) : ∃ k ∈ l₂, page ∈ covered a k := by
  have hsound : Sound a memSize (pmmInit a memSize bitmap) := pmmInit_sound bitmap hmem
  exact Ownership.exclusive (step_accounts hmem)
    (hrun.restrict (fun _ _ _ hs hstep => step_sound hmem hs hstep) hsound) hi (returned_not_covered hi) hj

def onePage : State := pmmMarkRegion .x86_64 (pmmInit .x86_64 8192 fun _ => 0) 4096 4096 false

theorem onePage_run : Steps (Step .x86_64) (pmmInit .x86_64 8192 fun _ => 0)
    ([⟨.pmmMarkRegion 4096 4096 false, 0⟩] ++
      ⟨.pmmAllocPage, 4096⟩ :: ([⟨.pmmFreePage 4096, 0⟩] ++ ⟨.pmmAllocPage, 4096⟩ :: []))
    (pmmAllocPage .x86_64 (pmmFreePage .x86_64 (pmmAllocPage .x86_64 onePage).2 4096)).2 :=
  .cons (t := onePage) ⟨⟨by decide, by decide⟩, rfl⟩
    (.cons (t := (pmmAllocPage .x86_64 onePage).2) ⟨trivial, rfl⟩
      (.cons (t := pmmFreePage .x86_64 (pmmAllocPage .x86_64 onePage).2 4096) ⟨(by decide : 4096 < 2 ^ 64), rfl⟩
        (.cons ⟨trivial, rfl⟩ (.nil _))))

theorem frame_exclusive_again : ∃ k ∈ [(⟨.pmmFreePage 4096, 0⟩ : Event)], 1 ∈ covered .x86_64 k :=
  frame_exclusive (by decide) onePage_run ⟨by decide, by decide⟩ ⟨by decide, by decide⟩

end JurkOS.Kernel.Pmm
