import JurkOS.Kernel.PmmRuns
import JurkOS.Lib.FirstFit

/-!
What the callers of the physical page allocator may rely on: first fit, the page
that is given back, and the pages that a region touches.
-/

namespace JurkOS.Kernel.Pmm

open Lib Lib.Memory Lib.Run Lib.FirstFit

variable {a : Arch} {s : State}

variable (a) in
def takeRun (s : State) (count p : ℕ) : ℕ × State :=
  (a.wrap (p * PAGE_SIZE), { s with bitmap := setRun a p count 0 s.bitmap }.decrement a count)

def State.isFree (s : State) (i : ℕ) : Bool := decide (i ∈ s.freeSet)

theorem allocPagesLoop_scan {count n i consecutive start : ℕ} (hn : i + n = s.totalPages) :
    allocPagesLoop a count n i consecutive start s =
      (scan s.isFree count n i consecutive start).elim (0, s) (takeRun a s count) := by
  induction n generalizing i consecutive start with
  | zero => rfl
  | succ n ih =>
    have hfree : s.isFree i = true ↔ bitmapTest s.bitmap i = false := by
      unfold State.isFree
      rw [decide_eq_true_iff, mem_freeSet]
      exact and_iff_right (by omega)
    unfold allocPagesLoop scan
    simp only [hfree]
    by_cases hi : bitmapTest s.bitmap i = false
    · rw [if_pos hi, if_pos hi]
      by_cases hcount : consecutive + 1 = count
      · simp only [if_pos hcount]
        rfl
      · simp only [if_neg hcount]
        exact ih (by omega)
    · rw [if_neg hi, if_neg hi]
      exact ih (by omega)

theorem fits_iff {count p : ℕ} : Fits s.isFree count p ↔ Finset.Ico p (p + count) ⊆ s.freeSet := by
  constructor
  · intro h i hi
    exact of_decide_eq_true (h i hi)
  · intro h i hi
    exact decide_eq_true (h hi)

theorem run_le_total {count p : ℕ} (hcount : 0 < count) (h : Finset.Ico p (p + count) ⊆ s.freeSet) :
    p + count ≤ s.totalPages := by
  have hlast : p + count - 1 ∈ s.freeSet := by
    apply h
    rw [Finset.mem_Ico]
    omega
  have := (mem_freeSet.mp hlast).1
  omega

theorem Change.bits {t : State} {T : Finset ℕ} (h : Change a s t T ∅) (hT : T ⊆ s.freeSet) (i : ℕ) :
    bitmapTest t.bitmap i ≠ bitmapTest s.bitmap i ↔ i ∈ T := by
  by_cases hi : i < s.totalPages
  · have hfree : bitmapTest t.bitmap i = false ↔ bitmapTest s.bitmap i = false ∧ i ∉ T := by
      have hmem : i ∈ t.freeSet ↔ i ∈ s.freeSet ∧ i ∉ T := by
        rw [h.free, Finset.union_empty, Finset.mem_sdiff]
      rw [mem_freeSet, mem_freeSet, h.total] at hmem
      tauto
    have hsub : i ∈ T → bitmapTest s.bitmap i = false := fun hiT => (mem_freeSet.mp (hT hiT)).2
    cases hs : bitmapTest s.bitmap i with
    | false =>
      rw [hs] at hfree
      simpa using not_congr hfree
    | true =>
      rw [hs] at hfree hsub
      have ht : bitmapTest t.bitmap i = true := by simpa using hfree
      rw [ht]
      simpa using hsub
  · have hnot : i ∉ T := fun hiT => hi (mem_freeSet.mp (hT hiT)).1
    simp [h.beyond i (by omega), hnot]

structure Taken (s t : State) (count p : ℕ) : Prop where
  total : t.totalPages = s.totalPages
  bits : ∀ i, bitmapTest t.bitmap i ≠ bitmapTest s.bitmap i ↔ i ∈ Finset.Ico p (p + count)
  free : t.freePages + count = s.freePages

theorem pmmAllocPages_first_fit {memSize count : ℕ} {bitmap : Mem} {l : List Event} (hmem : memSize < 2 ^ a.wordBits)
    (hrun : Steps (Step a) (pmmInit a memSize bitmap) l s) (hzero : 0 ∉ s.freeSet) (hcount : 1 ≤ count) :
    (∃ p, IsLeast {p | Finset.Ico p (p + count) ⊆ s.freeSet} p ∧ p * PAGE_SIZE ≠ 0 ∧
        (pmmAllocPages a s count).1 = p * PAGE_SIZE ∧ Taken s (pmmAllocPages a s count).2 count p) ∨
      (∀ p, ¬ Finset.Ico p (p + count) ⊆ s.freeSet) ∧ pmmAllocPages a s count = (0, s) := by
  have hs : Sound a memSize s :=
    hrun.invariant (fun _ _ _ hs hstep => step_sound hmem hs hstep) (pmmInit_sound bitmap hmem)
  have hle := hs.total_le hmem
  have hpass : Pass s.isFree count 0 0 0 := pass_zero hcount
  have hcall : pmmAllocPages a s count =
      (scan s.isFree count s.totalPages 0 0 0).elim (0, s) (takeRun a s count) := by
    rw [pmmAllocPages, if_neg (by omega), allocPagesLoop_scan (Nat.zero_add _)]
  cases hscan : scan s.isFree count s.totalPages 0 0 0 with
  | none =>
    right
    refine ⟨fun p hp => ?_, by rw [hcall, hscan]; rfl⟩
    have hp' := run_le_total hcount hp
    exact scan_none hpass hscan p (by omega) (fits_iff.mpr hp)
  | some p =>
    left
    obtain ⟨hend, hleast⟩ := scan_some hpass hscan
    simp only [fits_iff] at hleast
    have hsub : Finset.Ico p (p + count) ⊆ s.freeSet := hleast.1
    have hp : p ≠ 0 := by
      rintro rfl
      exact hzero (hsub (Finset.mem_Ico.mpr ⟨le_refl 0, by omega⟩))
    rw [hscan] at hcall
    rw [hcall]
    have hchange : Change a s (takeRun a s count p).2 (Finset.Ico p (p + count)) ∅ := by
      apply setRun_change hsub
      rw [PAGE_SIZE] at hle
      omega
    have hcard : (takeRun a s count p).2.freePages + count = s.freePages := by
      have ht := hchange.counted hs.counted
      have hlen : (Finset.Ico p (p + count)).card = count := by rw [Nat.card_Ico, Nat.add_sub_cancel_left]
      have hall := Finset.card_le_card hsub
      rw [ht.count, hs.counted.count, hchange.free, Finset.union_empty, Finset.card_sdiff_of_subset hsub]
      omega
    refine ⟨p, hleast, Nat.mul_ne_zero hp (by decide), ?_, hchange.total, hchange.bits hsub, hcard⟩
    apply Arch.wrap_of_lt
    rw [PAGE_SIZE] at hle ⊢
    omega

def threePages : State := pmmMarkRegion .x86_64 (pmmInit .x86_64 16384 fun _ => 0) 4096 12288 false

theorem threePages_run : Steps (Step .x86_64) (pmmInit .x86_64 16384 fun _ => 0) [⟨.pmmMarkRegion 4096 12288 false, 0⟩]
    threePages := .single ⟨⟨by decide, by decide⟩, rfl⟩

theorem pmmAllocPages_first_fit_two :
    (∃ p, IsLeast {p | Finset.Ico p (p + 2) ⊆ threePages.freeSet} p ∧ p * PAGE_SIZE ≠ 0 ∧
        (pmmAllocPages .x86_64 threePages 2).1 = p * PAGE_SIZE ∧
        Taken threePages (pmmAllocPages .x86_64 threePages 2).2 2 p) ∨
      (∀ p, ¬ Finset.Ico p (p + 2) ⊆ threePages.freeSet) ∧ pmmAllocPages .x86_64 threePages 2 = (0, threePages) :=
  pmmAllocPages_first_fit (by decide) threePages_run (by decide) (by decide)

theorem byte_clear_set : ∀ x : Fin 256, ∀ k : Fin 8, (x : ℕ).testBit k = false →
    (UInt8.ofNat x ||| (1 <<< UInt8.ofNat k)) &&& ~~~(1 <<< UInt8.ofNat k) = UInt8.ofNat x := by
  set_option maxRecDepth 10000 in decide

theorem bitmapClear_set {bitmap : Mem} {bit : ℕ} (h : bitmapTest bitmap bit = false) :
    bitmapClear (bitmapSet bitmap bit) bit = bitmap := by
  rw [bitmapTest_eq] at h
  have hbyte := byte_clear_set ⟨(bitmap (bit / 8)).toNat, (bitmap (bit / 8)).toNat_lt⟩
    ⟨bit % 8, Nat.mod_lt _ (by decide)⟩ h
  simp only [UInt8.ofNat_toNat] at hbyte
  unfold bitmapClear bitmapSet
  rw [Function.update_self, Function.update_idem, hbyte, Function.update_eq_self]

variable (a) in
def takePage (s : State) (i : ℕ) : State := { s with bitmap := bitmapSet s.bitmap i }.decrement a 1

theorem allocPageLoop_lowest {n i : ℕ} (hn : i + n = s.totalPages) (hbelow : ∀ j < i, j ∉ s.freeSet) :
    s.freeSet = ∅ ∧ allocPageLoop a n i s = (0, s) ∨
      ∃ j, IsLeast (s.freeSet : Set ℕ) j ∧ allocPageLoop a n i s = (a.wrap (j * PAGE_SIZE), takePage a s j) := by
  induction n generalizing i with
  | zero =>
    left
    refine ⟨Finset.eq_empty_of_forall_notMem fun j hj => ?_, rfl⟩
    have hlt := (mem_freeSet.mp hj).1
    exact hbelow j (by omega) hj
  | succ n ih =>
    unfold allocPageLoop
    by_cases hi : bitmapTest s.bitmap i = false
    · right
      refine ⟨i, ⟨Finset.mem_coe.mpr (mem_freeSet.mpr ⟨by omega, hi⟩), fun j hj => ?_⟩, if_pos hi⟩
      by_contra hlt
      exact hbelow j (by omega) hj
    · rw [if_neg hi]
      apply ih (by omega)
      intro j hj hmem
      by_cases hji : j = i
      · exact hi (hji ▸ (mem_freeSet.mp hmem).2)
      · exact hbelow j (by omega) hmem

theorem pmmAllocPage_lowest (a : Arch) (s : State) : s.freeSet = ∅ ∧ pmmAllocPage a s = (0, s) ∨
    ∃ j, IsLeast (s.freeSet : Set ℕ) j ∧ pmmAllocPage a s = (a.wrap (j * PAGE_SIZE), takePage a s j) :=
  allocPageLoop_lowest (Nat.zero_add _) fun j hj => absurd hj (Nat.not_lt_zero j)

structure Undoable (a : Arch) (s : State) : Prop where
  null_iff : (pmmAllocPage a s).1 = 0 ↔ s.freeSet = ∅
  null_keeps : (pmmAllocPage a s).1 = 0 → (pmmAllocPage a s).2 = s
  bitmap : (pmmAllocPage a s).1 ≠ 0 → (pmmFreePage a (pmmAllocPage a s).2 (pmmAllocPage a s).1).bitmap = s.bitmap
  freePages : (pmmAllocPage a s).1 ≠ 0 →
    (pmmFreePage a (pmmAllocPage a s).2 (pmmAllocPage a s).1).freePages = s.freePages

theorem releasePage_take {j : ℕ} (hs : Counted a s) (hj : j ∈ s.freeSet) :
    (releasePage a (takePage a s j) j).bitmap = s.bitmap ∧
      (releasePage a (takePage a s j) j).freePages = s.freePages := by
  obtain ⟨hlt, hfree⟩ := mem_freeSet.mp hj
  have hset : bitmapTest (bitmapSet s.bitmap j) j = true := by simp [bitmapTest_set]
  have hpos : 0 < s.freePages := by
    rw [hs.count]
    exact Finset.card_pos.mpr ⟨j, hj⟩
  have hmax : s.freePages ≤ s.totalPages := by
    rw [hs.count]
    exact (Finset.card_filter_le _ _).trans_eq (Finset.card_range _)
  have htotal := hs.total_lt
  have hback : a.wrap (a.sub s.freePages 1 + 1) = s.freePages := by
    rw [Arch.sub_of_le (by omega) hpos, Arch.wrap_of_lt (by omega), Nat.sub_add_cancel hpos]
  unfold releasePage
  rw [if_pos ⟨hlt, hset⟩]
  exact ⟨bitmapClear_set hfree, hback⟩

theorem undoable_iff {memSize : ℕ} {bitmap : Mem} {l : List Event} (hmem : memSize < 2 ^ a.wordBits)
    (hrun : Steps (Step a) (pmmInit a memSize bitmap) l s) : Undoable a s ↔ 0 ∉ s.freeSet := by
  have hs : Sound a memSize s :=
    hrun.invariant (fun _ _ _ hs hstep => step_sound hmem hs hstep) (pmmInit_sound bitmap hmem)
  have hle := hs.total_le hmem
  rcases pmmAllocPage_lowest a s with ⟨hempty, hcall⟩ | ⟨j, hj, hcall⟩
  · apply iff_of_true
    · constructor
      · simp [hcall, hempty]
      · simp [hcall]
      · simp [hcall]
      · simp [hcall]
    · simp [hempty]
  · have hjmem : j ∈ s.freeSet := hj.1
    have hne : s.freeSet ≠ ∅ := Finset.ne_empty_of_mem hjmem
    have haddress : a.wrap (j * PAGE_SIZE) = j * PAGE_SIZE := by
      have hlt := (mem_freeSet.mp hjmem).1
      rw [PAGE_SIZE] at hle ⊢
      exact Arch.wrap_of_lt (by omega)
    have hnull : (pmmAllocPage a s).1 = 0 ↔ 0 ∈ s.freeSet := by
      rw [hcall, haddress, Nat.mul_eq_zero]
      constructor
      · rintro (rfl | h)
        · exact hjmem
        · cases h
      · intro hzero
        exact Or.inl (Nat.le_zero.mp (hj.2 hzero))
    constructor
    · intro h hzero
      exact hne (h.null_iff.mp (hnull.mpr hzero))
    · intro hzero
      have hnonnull : (pmmAllocPage a s).1 ≠ 0 := fun h => hzero (hnull.mp h)
      have hfree : pmmFreePage a (pmmAllocPage a s).2 (pmmAllocPage a s).1 = releasePage a (takePage a s j) j := by
        unfold pmmFreePage
        rw [if_neg hnonnull, hcall, haddress, Nat.mul_div_cancel _ (by decide)]
      obtain ⟨hbitmap, hcount⟩ := releasePage_take hs.counted hjmem
      refine ⟨iff_of_false hnonnull hne, fun h => absurd h hnonnull, fun _ => ?_, fun _ => ?_⟩
      · rw [hfree, hbitmap]
      · rw [hfree, hcount]

theorem undoable_threePages : Undoable .x86_64 threePages :=
  (undoable_iff (by decide) threePages_run).mpr (by decide)

def lowPage : State := pmmMarkRegion .x86_64 (pmmInit .x86_64 4096 fun _ => 0) 0 4096 false

theorem lowPage_run :
    Steps (Step .x86_64) (pmmInit .x86_64 4096 fun _ => 0) [⟨.pmmMarkRegion 0 4096 false, 0⟩] lowPage :=
  .single ⟨⟨by decide, by decide⟩, rfl⟩

theorem lowPage_lost :
    Steps (Step .x86_64) (pmmInit .x86_64 4096 fun _ => 0) [⟨.pmmMarkRegion 0 4096 false, 0⟩] lowPage ∧
    (pmmAllocPage .x86_64 lowPage).1 = 0 ∧ lowPage.freeSet ≠ ∅ ∧ ¬ Undoable .x86_64 lowPage := by
  have hnull : (pmmAllocPage .x86_64 lowPage).1 = 0 := by decide
  have hfree : lowPage.freeSet ≠ ∅ := by decide
  exact ⟨lowPage_run, hnull, hfree, fun h => hfree (h.null_iff.mp hnull)⟩

def Meets (base length page : ℕ) : Prop := ∃ x, base ≤ x ∧ x < base + length ∧ x / PAGE_SIZE = page

def Inside (base length page : ℕ) : Prop := ∀ x, x / PAGE_SIZE = page → base ≤ x ∧ x < base + length

def Conservative (s t : State) (base length : ℕ) : Bool → Prop
  | true => (∀ page < s.totalPages, Meets base length page → bitmapTest t.bitmap page = true) ∧
      ∀ page, ¬ (page < s.totalPages ∧ Meets base length page) →
        bitmapTest t.bitmap page = bitmapTest s.bitmap page
  | false => ∀ page, ¬ (page < s.totalPages ∧ Inside base length page) →
      bitmapTest t.bitmap page = bitmapTest s.bitmap page

def RoundingHarmless (s : State) (base length : ℕ) : Bool → Prop
  | true => ∀ page < s.totalPages, base / PAGE_SIZE + length / PAGE_SIZE ≤ page → Meets base length page →
      bitmapTest s.bitmap page = true
  | false => base % PAGE_SIZE = 0 ∨ length < PAGE_SIZE ∨ s.totalPages ≤ base / PAGE_SIZE ∨
      bitmapTest s.bitmap (base / PAGE_SIZE) = false

theorem markPage_bitmap (used : Bool) (page : ℕ) :
    (markPage a used s page).totalPages = s.totalPages ∧
      (markPage a used s page).bitmap =
        if bitmapTest s.bitmap page = used then s.bitmap
        else if used then bitmapSet s.bitmap page else bitmapClear s.bitmap page := by
  cases used with
  | true =>
    cases hbit : bitmapTest s.bitmap page with
    | true => simp [markPage, hbit]
    | false => by_cases hpos : s.freePages > 0 <;> simp [markPage, hbit, hpos, State.decrement]
  | false =>
    cases hbit : bitmapTest s.bitmap page with
    | true => simp [markPage, hbit, State.increment]
    | false => simp [markPage, hbit]

theorem markPage_test (used : Bool) (page i : ℕ) :
    bitmapTest (markPage a used s page).bitmap i = if page = i then used else bitmapTest s.bitmap i := by
  rw [(markPage_bitmap used page).2]
  by_cases hsame : bitmapTest s.bitmap page = used
  · rw [if_pos hsame]
    by_cases hi : page = i
    · rw [if_pos hi, ← hi, hsame]
    · rw [if_neg hi]
  · rw [if_neg hsame]
    cases used with
    | true => by_cases hi : page = i <;> simp [bitmapTest_set, hi]
    | false => by_cases hi : page = i <;> simp [bitmapTest_clear, hi]

theorem markRegionLoop_test {startPage : ℕ} {used : Bool} {n i : ℕ} (hnw : startPage + i + n ≤ 2 ^ a.wordBits)
    (page : ℕ) : bitmapTest (markRegionLoop a startPage used n i s).bitmap page =
      if startPage + i ≤ page ∧ page < startPage + i + n ∧ page < s.totalPages then used
      else bitmapTest s.bitmap page := by
  induction n generalizing i s with
  | zero =>
    rw [if_neg (by omega)]
    rfl
  | succ n ih =>
    rw [markRegionLoop, Arch.wrap_of_lt (by omega)]
    by_cases hlt : startPage + i < s.totalPages
    · rw [if_pos hlt, ih (by omega), (markPage_bitmap used _).1, markPage_test]
      by_cases hpage : startPage + i = page
      · rw [if_neg (by omega), if_pos hpage, if_pos (by omega)]
      · rw [if_neg hpage]
        by_cases hin : startPage + i ≤ page ∧ page < startPage + i + (n + 1) ∧ page < s.totalPages
        · rw [if_pos hin, if_pos (by omega)]
        · rw [if_neg hin, if_neg (by omega)]
    · rw [if_neg hlt, if_neg (by omega)]

theorem pmmMarkRegion_test {base length : ℕ} (used : Bool) (hnw : base + length < 2 ^ a.wordBits) (page : ℕ) :
    bitmapTest (pmmMarkRegion a s base length used).bitmap page =
      if base / PAGE_SIZE ≤ page ∧ page < base / PAGE_SIZE + length / PAGE_SIZE ∧ page < s.totalPages then used
      else bitmapTest s.bitmap page := by
  apply markRegionLoop_test
  rw [PAGE_SIZE]
  omega

theorem meets_of_marked {base length page : ℕ} (hle : base / PAGE_SIZE ≤ page)
    (hlt : page < base / PAGE_SIZE + length / PAGE_SIZE) : Meets base length page := by
  unfold Meets
  rw [PAGE_SIZE] at *
  by_cases hfirst : page = base / 4096
  · exact ⟨base, le_refl _, by omega, hfirst.symm⟩
  · exact ⟨page * 4096, by omega, by omega, Nat.mul_div_cancel _ (by decide)⟩

theorem Meets.le {base length page : ℕ} (h : Meets base length page) : base / PAGE_SIZE ≤ page := by
  obtain ⟨x, hle, -, rfl⟩ := h
  exact Nat.div_le_div_right hle

theorem inside_iff {base length page : ℕ} (hle : base / PAGE_SIZE ≤ page)
    (hlt : page < base / PAGE_SIZE + length / PAGE_SIZE) :
    Inside base length page ↔ page ≠ base / PAGE_SIZE ∨ base % PAGE_SIZE = 0 := by
  unfold Inside
  rw [PAGE_SIZE] at *
  constructor
  · intro h
    have hfirst := (h (page * 4096) (Nat.mul_div_cancel _ (by decide))).1
    omega
  · rintro h x rfl
    omega

theorem pmmMarkRegion_conservative_iff {base length : ℕ} (used : Bool) (hnw : base + length < 2 ^ a.wordBits) :
    Conservative s (pmmMarkRegion a s base length used) base length used ↔ RoundingHarmless s base length used := by
  have htest := pmmMarkRegion_test (s := s) used hnw
  cases used with
  | true =>
    unfold Conservative RoundingHarmless
    simp only [htest]
    constructor
    · rintro ⟨hused, -⟩ page hpage hbehind hmeets
      have := hused page hpage hmeets
      rwa [if_neg (by omega)] at this
    · intro h
      refine ⟨fun page hpage hmeets => ?_, fun page hout => ?_⟩
      · have hle := hmeets.le
        split_ifs with hin
        · rfl
        · exact h page hpage (by omega) hmeets
      · apply if_neg
        rintro ⟨hle, hlt, hpage⟩
        exact hout ⟨hpage, meets_of_marked hle hlt⟩
  | false =>
    unfold Conservative RoundingHarmless
    simp only [htest]
    constructor
    · intro h
      by_contra hbad
      simp only [not_or, Bool.not_eq_false] at hbad
      obtain ⟨hoff, hlen, hmanaged, hbit⟩ := hbad
      have hcount : 0 < length / PAGE_SIZE := Nat.div_pos (by omega) (by decide)
      have hnot : ¬ Inside base length (base / PAGE_SIZE) := by
        rw [inside_iff (le_refl _) (by omega)]
        simpa using hoff
      have := h (base / PAGE_SIZE) (fun hin => hnot hin.2)
      rw [if_pos ⟨le_refl _, by omega, by omega⟩, hbit] at this
      cases this
    · intro h page hout
      split_ifs with hin
      · obtain ⟨hle, hlt, hpage⟩ := hin
        have hnot : ¬ (page ≠ base / PAGE_SIZE ∨ base % PAGE_SIZE = 0) := by
          intro hinside
          exact hout ⟨hpage, (inside_iff hle hlt).mpr hinside⟩
        simp only [not_or, not_not] at hnot
        obtain ⟨rfl, hoff⟩ := hnot
        rcases h with haligned | hshort | hbeyond | hfree
        · exact absurd haligned hoff
        · rw [Nat.div_eq_of_lt hshort] at hlt
          omega
        · omega
        · exact hfree.symm
      · rfl

theorem pmmMarkRegion_conservative_aligned :
    Conservative threePages (pmmMarkRegion .x86_64 threePages 8192 4096 true) 8192 4096 true :=
  (pmmMarkRegion_conservative_iff true (by decide)).mpr fun page hpage hbehind hmeets => by
    obtain ⟨x, -, hlt, rfl⟩ := hmeets
    rw [PAGE_SIZE] at *
    omega

theorem pmmMarkRegion_rounds :
    ¬ Conservative threePages (pmmMarkRegion .x86_64 threePages 4096 1 true) 4096 1 true ∧
      ¬ Conservative threePages (pmmMarkRegion .x86_64 threePages 2048 4096 false) 2048 4096 false := by
  constructor
  · intro h
    have hused := h.1 1 (by decide) ⟨4096, by decide, by decide, by decide⟩
    exact absurd hused (by decide)
  · intro h
    have hkept := h 0 (fun hin => absurd (hin.2 0 rfl).1 (by decide))
    exact absurd hkept (by decide)

end JurkOS.Kernel.Pmm
