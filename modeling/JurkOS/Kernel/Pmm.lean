import JurkOS.Kernel.Types
import JurkOS.Kernel.CString
import Mathlib.Data.Finset.Card
import Mathlib.Order.Interval.Finset.Nat

/-!
The physical page allocator of `mem/pmm.c`. The bitmap is the memory from
`bitmap_base` on.
-/

namespace JurkOS.Kernel.Pmm

open Lib.Memory

def PAGE_SIZE : ℕ := 4096

def bitmapSet (bitmap : Mem) (bit : ℕ) : Mem :=
  Function.update bitmap (bit / 8) (bitmap (bit / 8) ||| (1 <<< UInt8.ofNat (bit % 8)))

def bitmapClear (bitmap : Mem) (bit : ℕ) : Mem :=
  Function.update bitmap (bit / 8) (bitmap (bit / 8) &&& ~~~(1 <<< UInt8.ofNat (bit % 8)))

def bitmapTest (bitmap : Mem) (bit : ℕ) : Bool :=
  (bitmap (bit / 8) &&& (1 <<< UInt8.ofNat (bit % 8))) != 0

/-- `decrements` is a record kept for the proofs: the value of `free_pages` before each
decrement that ran, and the amount. -/
structure State where
  bitmap : Mem
  totalPages : ℕ
  freePages : ℕ
  decrements : List (ℕ × ℕ)

variable (a : Arch)

def State.decrement (s : State) (k : ℕ) : State :=
  { s with freePages := a.sub s.freePages k, decrements := (s.freePages, k) :: s.decrements }

def State.increment (s : State) : State := { s with freePages := a.wrap (s.freePages + 1) }

def pmmInit (memSize : ℕ) (bitmap : Mem) : State :=
  let totalPages := memSize / PAGE_SIZE
  let bitmapSize := a.wrap (totalPages + 7) / 8
  ⟨memset 0xFF bitmapSize bitmap 0, totalPages, 0, []⟩

def markPage (used : Bool) (s : State) (page : ℕ) : State :=
  if used then
    if bitmapTest s.bitmap page = false then
      let s := { s with bitmap := bitmapSet s.bitmap page }
      if s.freePages > 0 then s.decrement a 1 else s
    else s
  else
    if bitmapTest s.bitmap page then
      { s with bitmap := bitmapClear s.bitmap page }.increment a
    else s

def markRegionLoop (startPage : ℕ) (used : Bool) : ℕ → ℕ → State → State
  | 0, _, s => s
  | n + 1, i, s =>
    if a.wrap (startPage + i) < s.totalPages then
      markRegionLoop startPage used n (i + 1) (markPage a used s (a.wrap (startPage + i)))
    else s

def pmmMarkRegion (s : State) (base length : ℕ) (used : Bool) : State :=
  markRegionLoop a (base / PAGE_SIZE) used (length / PAGE_SIZE) 0 s

def allocPageLoop : ℕ → ℕ → State → ℕ × State
  | 0, _, s => (0, s)
  | n + 1, i, s =>
    if bitmapTest s.bitmap i = false then
      (a.wrap (i * PAGE_SIZE), { s with bitmap := bitmapSet s.bitmap i }.decrement a 1)
    else allocPageLoop n (i + 1) s

def pmmAllocPage (s : State) : ℕ × State := allocPageLoop a s.totalPages 0 s

def setRun (startPage : ℕ) : ℕ → ℕ → Mem → Mem
  | 0, _, bitmap => bitmap
  | n + 1, j, bitmap => setRun startPage n (j + 1) (bitmapSet bitmap (a.wrap (startPage + j)))

def allocPagesLoop (count : ℕ) : ℕ → ℕ → ℕ → ℕ → State → ℕ × State
  | 0, _, _, _, s => (0, s)
  | n + 1, i, consecutive, startPage, s =>
    if bitmapTest s.bitmap i = false then
      let startPage := if consecutive = 0 then i else startPage
      let consecutive := consecutive + 1
      if consecutive = count then
        (a.wrap (startPage * PAGE_SIZE),
          { s with bitmap := setRun a startPage count 0 s.bitmap }.decrement a count)
      else allocPagesLoop count n (i + 1) consecutive startPage s
    else allocPagesLoop count n (i + 1) 0 startPage s

def pmmAllocPages (s : State) (count : ℕ) : ℕ × State :=
  if count = 0 then (0, s) else allocPagesLoop a count s.totalPages 0 0 0 s

def releasePage (s : State) (page : ℕ) : State :=
  if page < s.totalPages ∧ bitmapTest s.bitmap page = true then
    { s with bitmap := bitmapClear s.bitmap page }.increment a
  else s

def pmmFreePage (s : State) (ptr : ℕ) : State :=
  if ptr = 0 then s else releasePage a s (ptr / PAGE_SIZE)

def freePagesLoop (startPage : ℕ) : ℕ → ℕ → State → State
  | 0, _, s => s
  | n + 1, i, s => freePagesLoop startPage n (i + 1) (releasePage a s (a.wrap (startPage + i)))

def pmmFreePages (s : State) (ptr count : ℕ) : State :=
  if ptr = 0 then s else freePagesLoop a (ptr / PAGE_SIZE) count 0 s

variable {a}

/-! ### Bits -/

theorem mask_testBit : ∀ k j : Fin 8,
    ((1 <<< UInt8.ofNat k : UInt8).toNat.testBit j = decide (k = j)) ∧
      ((~~~(1 <<< UInt8.ofNat k) : UInt8).toNat.testBit j = decide (k ≠ j)) := by
  decide

theorem byte_and_mask : ∀ x : Fin 256, ∀ k : Fin 8,
    ((UInt8.ofNat x &&& (1 <<< UInt8.ofNat k)) != 0) = (x : ℕ).testBit k := by
  decide +kernel

theorem bitmapTest_eq (bitmap : Mem) (bit : ℕ) :
    bitmapTest bitmap bit = (bitmap (bit / 8)).toNat.testBit (bit % 8) := by
  have h := byte_and_mask ⟨(bitmap (bit / 8)).toNat, (bitmap (bit / 8)).toNat_lt⟩
    ⟨bit % 8, Nat.mod_lt _ (by decide)⟩
  simpa [bitmapTest, UInt8.ofNat_toNat] using h

theorem bitmapTest_set (bitmap : Mem) (bit i : ℕ) :
    bitmapTest (bitmapSet bitmap bit) i = (bitmapTest bitmap i || decide (bit = i)) := by
  rw [bitmapTest_eq, bitmapTest_eq, bitmapSet]
  by_cases hbyte : i / 8 = bit / 8
  · have hmask := (mask_testBit ⟨bit % 8, Nat.mod_lt _ (by decide)⟩ ⟨i % 8, Nat.mod_lt _ (by decide)⟩).1
    have heq : bit % 8 = i % 8 ↔ bit = i := by omega
    simp only [Fin.mk.injEq, heq] at hmask
    rw [hbyte, Function.update_self, UInt8.toNat_or, Nat.testBit_or, hmask]
  · have hne : bit ≠ i := fun he => hbyte (by rw [he])
    rw [Function.update_of_ne hbyte]
    simp [hne]

theorem bitmapTest_clear (bitmap : Mem) (bit i : ℕ) :
    bitmapTest (bitmapClear bitmap bit) i = (bitmapTest bitmap i && decide (bit ≠ i)) := by
  rw [bitmapTest_eq, bitmapTest_eq, bitmapClear]
  by_cases hbyte : i / 8 = bit / 8
  · have hmask := (mask_testBit ⟨bit % 8, Nat.mod_lt _ (by decide)⟩ ⟨i % 8, Nat.mod_lt _ (by decide)⟩).2
    have heq : bit % 8 = i % 8 ↔ bit = i := by omega
    simp only [ne_eq, Fin.mk.injEq, heq] at hmask
    rw [hbyte, Function.update_self, UInt8.toNat_and, Nat.testBit_and, hmask]
  · have hne : bit ≠ i := fun he => hbyte (by rw [he])
    rw [Function.update_of_ne hbyte]
    simp [hne]

/-! ### Free pages -/

def State.freeSet (s : State) : Finset ℕ :=
  (Finset.range s.totalPages).filter fun i => bitmapTest s.bitmap i = false

theorem mem_freeSet {s : State} {i : ℕ} :
    i ∈ s.freeSet ↔ i < s.totalPages ∧ bitmapTest s.bitmap i = false := by
  rw [State.freeSet, Finset.mem_filter, Finset.mem_range]

variable (a) in
structure Counted (s : State) : Prop where
  total_lt : s.totalPages < 2 ^ a.wordBits
  count : s.freePages = s.freeSet.card
  covered : ∀ d ∈ s.decrements, d.2 ≤ d.1

variable (a) in
structure Change (s t : State) (taken given : Finset ℕ) : Prop where
  total : t.totalPages = s.totalPages
  free : t.freeSet = s.freeSet \ taken ∪ given
  beyond : ∀ i, s.totalPages ≤ i → bitmapTest t.bitmap i = bitmapTest s.bitmap i
  counted : Counted a s → Counted a t

theorem Change.refl (s : State) : Change a s s ∅ ∅ := ⟨rfl, by simp, fun _ _ => rfl, id⟩

theorem Change.trans_taken {s t u : State} {T T' : Finset ℕ} (h : Change a s t T ∅)
    (h' : Change a t u T' ∅) : Change a s u (T ∪ T') ∅ where
  total := h'.total.trans h.total
  free := by
    rw [h'.free, h.free, Finset.union_empty, Finset.union_empty, Finset.union_empty]
    exact sdiff_sdiff_left
  beyond := fun i hi => (h'.beyond i (h.total.symm ▸ hi)).trans (h.beyond i hi)
  counted := fun hs => h'.counted (h.counted hs)

theorem Change.trans_given {s t u : State} {G G' : Finset ℕ} (h : Change a s t ∅ G)
    (h' : Change a t u ∅ G') : Change a s u ∅ (G ∪ G') where
  total := h'.total.trans h.total
  free := by
    rw [h'.free, h.free, Finset.sdiff_empty, Finset.sdiff_empty, Finset.union_assoc]
  beyond := fun i hi => (h'.beyond i (h.total.symm ▸ hi)).trans (h.beyond i hi)
  counted := fun hs => h'.counted (h.counted hs)

theorem freeSet_set (s : State) (i : ℕ) :
    State.freeSet { s with bitmap := bitmapSet s.bitmap i } = s.freeSet \ {i} := by
  ext j
  rw [Finset.mem_sdiff, mem_freeSet, mem_freeSet, Finset.mem_singleton]
  simp only [bitmapTest_set, Bool.or_eq_false_iff, decide_eq_false_iff_not]
  rw [and_assoc, eq_comm (a := i)]

theorem freeSet_clear {s : State} {i : ℕ} (hi : i < s.totalPages) :
    State.freeSet { s with bitmap := bitmapClear s.bitmap i } = s.freeSet ∪ {i} := by
  ext j
  rw [Finset.mem_union, mem_freeSet, mem_freeSet, Finset.mem_singleton]
  simp only [bitmapTest_clear, Bool.and_eq_false_iff, decide_eq_false_iff_not, ne_eq, not_not]
  constructor
  · rintro ⟨hj, hfree | rfl⟩
    · exact .inl ⟨hj, hfree⟩
    · exact .inr rfl
  · rintro (⟨hj, hfree⟩ | rfl)
    · exact ⟨hj, .inl hfree⟩
    · exact ⟨hi, .inr rfl⟩

theorem Counted.take {s : State} {bitmap : Mem} {T : Finset ℕ} (hs : Counted a s) (hT : T ⊆ s.freeSet)
    (hfree : State.freeSet { s with bitmap := bitmap } = s.freeSet \ T) :
    Counted a ({ s with bitmap := bitmap }.decrement a T.card) := by
  have hle : T.card ≤ s.freePages := by rw [hs.count]; exact Finset.card_le_card hT
  have hmax : s.freePages ≤ s.totalPages := by
    rw [hs.count]
    exact (Finset.card_filter_le _ _).trans_eq (Finset.card_range _)
  have hlt := hs.total_lt
  refine ⟨hs.total_lt, ?_, ?_⟩
  · change a.sub s.freePages T.card = (State.freeSet { s with bitmap := bitmap }).card
    rw [hfree, Finset.card_sdiff_of_subset hT, ← hs.count, Arch.sub_of_le (by omega) hle]
  · intro d hd
    rcases List.mem_cons.mp hd with rfl | hd
    · exact hle
    · exact hs.covered d hd

theorem Counted.give {s : State} {i : ℕ} (hs : Counted a s) (hi : i < s.totalPages)
    (hused : bitmapTest s.bitmap i = true) :
    Counted a ({ s with bitmap := bitmapClear s.bitmap i }.increment a) := by
  have hnot : i ∉ s.freeSet := fun hf => by simp [mem_freeSet, hused] at hf
  have hcard : (s.freeSet ∪ {i}).card = s.freePages + 1 := by
    rw [hs.count, Finset.union_comm, ← Finset.insert_eq, Finset.card_insert_of_notMem hnot]
  have hle : (s.freeSet ∪ {i}).card ≤ s.totalPages := by
    rw [← freeSet_clear hi]
    exact (Finset.card_filter_le _ _).trans_eq (Finset.card_range _)
  have hlt := hs.total_lt
  refine ⟨hs.total_lt, ?_, hs.covered⟩
  change a.wrap (s.freePages + 1) = (State.freeSet { s with bitmap := bitmapClear s.bitmap i }).card
  rw [freeSet_clear hi, hcard, Arch.wrap_of_lt (by omega)]

/-! ### The operations -/

theorem take_change {s : State} {i : ℕ} (hi : i ∈ s.freeSet) :
    Change a s ({ s with bitmap := bitmapSet s.bitmap i }.decrement a 1) {i} ∅ where
  total := rfl
  free := (freeSet_set s i).trans (Finset.union_empty _).symm
  beyond := by
    intro j hj
    have hne : i ≠ j := fun he => by have := (mem_freeSet.mp hi).1; omega
    change bitmapTest (bitmapSet s.bitmap i) j = _
    simp [bitmapTest_set, hne]
  counted := fun hs => hs.take (T := {i}) (Finset.singleton_subset_iff.mpr hi) (freeSet_set s i)

theorem releasePage_change (s : State) (page : ℕ) :
    Change a s (releasePage a s page) ∅ (if page < s.totalPages then {page} else ∅) := by
  unfold releasePage
  by_cases hlt : page < s.totalPages
  · cases hbit : bitmapTest s.bitmap page with
    | true =>
      rw [if_pos ⟨hlt, rfl⟩, if_pos hlt]
      refine ⟨rfl, (freeSet_clear hlt).trans (by rw [Finset.sdiff_empty]), ?_, fun hs => hs.give hlt hbit⟩
      intro j hj
      have hne : page ≠ j := by omega
      change bitmapTest (bitmapClear s.bitmap page) j = _
      simp [bitmapTest_clear, hne]
    | false =>
      have hmem : page ∈ s.freeSet := mem_freeSet.mpr ⟨hlt, hbit⟩
      rw [if_neg (by simp), if_pos hlt]
      refine ⟨rfl, ?_, fun _ _ => rfl, id⟩
      rw [Finset.sdiff_empty, Finset.union_eq_left.mpr (Finset.singleton_subset_iff.mpr hmem)]
  · rw [if_neg (fun h => hlt h.1), if_neg hlt]
    exact Change.refl s

theorem markPage_used {s : State} {page : ℕ} (hlt : page < s.totalPages) (hs : Counted a s) :
    Change a s (markPage a true s page) {page} ∅ := by
  cases hbit : bitmapTest s.bitmap page with
  | true =>
    have hnot : page ∉ s.freeSet := fun hf => by simp [mem_freeSet, hbit] at hf
    simp only [markPage, hbit, ↓reduceIte, Bool.true_eq_false]
    refine ⟨rfl, ?_, fun _ _ => rfl, id⟩
    rw [Finset.union_empty, Finset.sdiff_singleton_eq_erase, Finset.erase_eq_of_notMem hnot]
  | false =>
    have hmem : page ∈ s.freeSet := mem_freeSet.mpr ⟨hlt, hbit⟩
    have hpos : 0 < s.freePages := by rw [hs.count]; exact Finset.card_pos.mpr ⟨page, hmem⟩
    simp only [markPage, hbit, ↓reduceIte, if_pos hpos]
    exact take_change hmem

theorem markPage_unused (s : State) {page : ℕ} (hlt : page < s.totalPages) :
    Change a s (markPage a false s page) ∅ {page} := by
  have h := releasePage_change (a := a) s page
  rw [if_pos hlt, releasePage] at h
  simpa only [markPage, Bool.false_eq_true, ↓reduceIte, hlt, true_and] using h

theorem Change.congr {s t : State} {T T' G G' : Finset ℕ} (h : Change a s t T G) (hT : T = T')
    (hG : G = G') : Change a s t T' G' := by
  subst hT hG
  exact h

def regionPages (total startPage i n : ℕ) : Finset ℕ :=
  (Finset.Ico (startPage + i) (startPage + i + n)).filter (· < total)

theorem regionPages_zero {total startPage i : ℕ} : regionPages total startPage i 0 = ∅ := by
  simp [regionPages]

theorem regionPages_succ {total startPage i n : ℕ} (hlt : startPage + i < total) :
    {startPage + i} ∪ regionPages total startPage (i + 1) n = regionPages total startPage i (n + 1) := by
  ext j
  simp only [regionPages, Finset.mem_union, Finset.mem_singleton, Finset.mem_filter, Finset.mem_Ico]
  omega

theorem regionPages_empty {total startPage i n : ℕ} (hle : total ≤ startPage + i) :
    regionPages total startPage i n = ∅ := by
  ext j
  simp only [regionPages, Finset.mem_filter, Finset.mem_Ico, Finset.notMem_empty, iff_false]
  omega

-- Induction on the rounds left; the loop stops early at the first page past the end.
theorem markRegionLoop_change {startPage n i : ℕ} {used : Bool} {s : State} (hs : Counted a s)
    (hnw : startPage + i + n < 2 ^ a.wordBits) :
    Change a s (markRegionLoop a startPage used n i s)
      (if used then regionPages s.totalPages startPage i n else ∅)
      (if used then ∅ else regionPages s.totalPages startPage i n) := by
  induction n generalizing i s with
  | zero =>
    rw [markRegionLoop, regionPages_zero]
    exact (Change.refl s).congr (by simp) (by simp)
  | succ n ih =>
    rw [markRegionLoop, Arch.wrap_of_lt (by omega)]
    split_ifs with hlt hused hused
    · subst hused
      have hpage := markPage_used hlt hs
      have hrest := ih (hpage.counted hs) (i := i + 1) (by omega)
      rw [hpage.total, if_pos rfl, if_pos rfl] at hrest
      exact (hpage.trans_taken hrest).congr (regionPages_succ hlt) rfl
    · rw [Bool.not_eq_true] at hused
      subst hused
      have hpage := markPage_unused (a := a) s hlt
      have hrest := ih (hpage.counted hs) (i := i + 1) (by omega)
      rw [hpage.total] at hrest
      exact (hpage.trans_given hrest).congr rfl (regionPages_succ hlt)
    · exact (Change.refl s).congr (regionPages_empty (not_lt.mp hlt)).symm rfl
    · exact (Change.refl s).congr rfl (regionPages_empty (not_lt.mp hlt)).symm

theorem pmmMarkRegion_change {s : State} {base length : ℕ} {used : Bool} (hs : Counted a s)
    (hbase : base < 2 ^ a.wordBits) (hlength : length < 2 ^ a.wordBits) :
    Change a s (pmmMarkRegion a s base length used)
      (if used then regionPages s.totalPages (base / PAGE_SIZE) 0 (length / PAGE_SIZE) else ∅)
      (if used then ∅ else regionPages s.totalPages (base / PAGE_SIZE) 0 (length / PAGE_SIZE)) := by
  apply markRegionLoop_change hs
  rw [PAGE_SIZE]
  omega

theorem allocPageLoop_change {s : State} {n i : ℕ} (hn : i + n = s.totalPages)
    (hnw : s.totalPages * PAGE_SIZE ≤ 2 ^ a.wordBits) :
    (allocPageLoop a n i s = (0, s) ∧ ∀ j ∈ s.freeSet, j < i) ∨
      ∃ j ∈ s.freeSet, i ≤ j ∧ (allocPageLoop a n i s).1 = j * PAGE_SIZE ∧
        Change a s (allocPageLoop a n i s).2 {j} ∅ := by
  induction n generalizing i with
  | zero =>
    left
    refine ⟨rfl, fun j hj => ?_⟩
    have := (mem_freeSet.mp hj).1
    omega
  | succ n ih =>
    unfold allocPageLoop
    cases hbit : bitmapTest s.bitmap i with
    | false =>
      right
      have hlt : i * PAGE_SIZE < 2 ^ a.wordBits := by
        rw [PAGE_SIZE] at hnw ⊢
        omega
      have hmem : i ∈ s.freeSet := mem_freeSet.mpr ⟨by omega, hbit⟩
      exact ⟨i, hmem, le_refl i, by rw [if_pos rfl, Arch.wrap_of_lt hlt], by rw [if_pos rfl]; exact take_change hmem⟩
    | true =>
      rw [if_neg (by simp)]
      rcases ih (i := i + 1) (by omega) with ⟨hnone, hall⟩ | ⟨j, hj, hij, hrest⟩
      · left
        refine ⟨hnone, fun j hj => ?_⟩
        have hji := hall j hj
        have hne : j ≠ i := by
          rintro rfl
          simp [mem_freeSet, hbit] at hj
        omega
      · exact .inr ⟨j, hj, by omega, hrest⟩

theorem setRun_test {startPage n j i : ℕ} {bitmap : Mem} (hnw : startPage + j + n ≤ 2 ^ a.wordBits) :
    bitmapTest (setRun a startPage n j bitmap) i =
      (bitmapTest bitmap i || decide (i ∈ Finset.Ico (startPage + j) (startPage + j + n))) := by
  induction n generalizing j bitmap with
  | zero => simp [setRun]
  | succ n ih =>
    rw [setRun, ih (by omega), Arch.wrap_of_lt (by omega), bitmapTest_set, Bool.or_assoc]
    congr 1
    rw [← Bool.decide_or, decide_eq_decide, Finset.mem_Ico, Finset.mem_Ico]
    omega

theorem setRun_change {s : State} {startPage count : ℕ} (hT : Finset.Ico startPage (startPage + count) ⊆ s.freeSet)
    (hnw : startPage + count ≤ 2 ^ a.wordBits) :
    Change a s ({ s with bitmap := setRun a startPage count 0 s.bitmap }.decrement a count)
      (Finset.Ico startPage (startPage + count)) ∅ := by
  have htest (i : ℕ) : bitmapTest (setRun a startPage count 0 s.bitmap) i =
      (bitmapTest s.bitmap i || decide (i ∈ Finset.Ico startPage (startPage + count))) :=
    setRun_test (by omega)
  have hfree : State.freeSet { s with bitmap := setRun a startPage count 0 s.bitmap } =
      s.freeSet \ Finset.Ico startPage (startPage + count) := by
    ext i
    rw [Finset.mem_sdiff, mem_freeSet, mem_freeSet]
    simp only [htest, Bool.or_eq_false_iff, decide_eq_false_iff_not]
    rw [and_assoc]
  refine ⟨rfl, hfree.trans (Finset.union_empty _).symm, ?_, fun hs => ?_⟩
  · intro i hi
    have hnot : i ∉ Finset.Ico startPage (startPage + count) := fun hm => by
      have := (mem_freeSet.mp (hT hm)).1
      omega
    change bitmapTest (setRun a startPage count 0 s.bitmap) i = _
    rw [htest, decide_eq_false hnot, Bool.or_false]
  · have h := hs.take hT hfree
    rwa [Nat.card_Ico, Nat.add_sub_cancel_left] at h

-- The scan variables: `consecutive` free pages end just before `i`, the first of them at `startPage`.
theorem allocPagesLoop_change {s : State} {n i : ℕ} (count consecutive startPage : ℕ)
    (hn : i + n = s.totalPages) (hnw : s.totalPages * PAGE_SIZE ≤ 2 ^ a.wordBits)
    (hrun : consecutive ≠ 0 → startPage + consecutive = i ∧ Finset.Ico startPage i ⊆ s.freeSet) :
    allocPagesLoop a count n i consecutive startPage s = (0, s) ∨
      ∃ p, Finset.Ico p (p + count) ⊆ s.freeSet ∧ p + count ≤ s.totalPages ∧
        (allocPagesLoop a count n i consecutive startPage s).1 = p * PAGE_SIZE ∧
        Change a s (allocPagesLoop a count n i consecutive startPage s).2 (Finset.Ico p (p + count)) ∅ := by
  induction n generalizing i consecutive startPage with
  | zero => exact .inl rfl
  | succ n ih =>
    unfold allocPagesLoop
    cases hbit : bitmapTest s.bitmap i with
    | true =>
      rw [if_neg (by simp)]
      exact ih _ _ (by omega) (fun h => absurd rfl h)
    | false =>
      rw [if_pos rfl]
      have hmem : i ∈ s.freeSet := mem_freeSet.mpr ⟨by omega, hbit⟩
      have hgrown : (if consecutive = 0 then i else startPage) + (consecutive + 1) = i + 1 ∧
          Finset.Ico (if consecutive = 0 then i else startPage) (i + 1) ⊆ s.freeSet := by
        split_ifs with hzero
        · subst hzero
          exact ⟨rfl, fun j hj => by
            have := Finset.mem_Ico.mp hj
            rwa [show j = i by omega]⟩
        · obtain ⟨hend, hsub⟩ := hrun hzero
          refine ⟨by omega, fun j hj => ?_⟩
          have := Finset.mem_Ico.mp hj
          by_cases hji : j = i
          · rwa [hji]
          · exact hsub (Finset.mem_Ico.mpr ⟨this.1, by omega⟩)
      set p := if consecutive = 0 then i else startPage
      dsimp only
      by_cases hcount : consecutive + 1 = count
      · right
        rw [if_pos hcount]
        have hend : p + count = i + 1 := by rw [← hcount]; exact hgrown.1
        have hsub : Finset.Ico p (p + count) ⊆ s.freeSet := by rw [hend]; exact hgrown.2
        refine ⟨p, hsub, by omega, ?_, setRun_change hsub ?_⟩
        · rw [PAGE_SIZE] at hnw ⊢
          exact Arch.wrap_of_lt (by omega)
        · rw [PAGE_SIZE] at hnw
          omega
      · rw [if_neg hcount]
        exact ih _ _ (by omega) (fun _ => hgrown)

theorem freePagesLoop_change {startPage n i : ℕ} (s : State) :
    Change a s (freePagesLoop a startPage n i s) ∅
      (((Finset.Ico i (i + n)).image fun j => a.wrap (startPage + j)).filter (· < s.totalPages)) := by
  induction n generalizing i s with
  | zero => exact (Change.refl s).congr rfl (by simp)
  | succ n ih =>
    unfold freePagesLoop
    have hpage := releasePage_change (a := a) s (a.wrap (startPage + i))
    have hrest := ih (i := i + 1) (releasePage a s (a.wrap (startPage + i)))
    rw [hpage.total] at hrest
    refine (hpage.trans_given hrest).congr rfl ?_
    have hIco : Finset.Ico i (i + (n + 1)) = insert i (Finset.Ico (i + 1) (i + 1 + n)) := by
      ext j
      rw [Finset.mem_insert, Finset.mem_Ico, Finset.mem_Ico]
      omega
    rw [hIco, Finset.image_insert, Finset.filter_insert]
    split_ifs
    · rw [← Finset.insert_eq]
    · rw [Finset.empty_union]

end JurkOS.Kernel.Pmm
