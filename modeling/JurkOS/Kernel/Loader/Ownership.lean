import JurkOS.Kernel.Frames
import JurkOS.Kernel.Loader.Demand

/-!
Runs of loads: the frames that are entered into the page tables.
-/

namespace JurkOS.Kernel.Loader

open Lib Lib.Memory Lib.Radix Lib.Run Paging Pmm

variable (a : Arch) (frame : ℕ → ℕ) (cr3 : ℕ)

/-! ### The frames entered, in their order -/

def nextTableFrames (t : Paging.State) (table idx : ℕ) : List ℕ :=
  if entryAt a t.mem table idx &&& PAGE_PRESENT = 0 then [frame t.allocs] else []

def descendFrames (flags : ℕ) : List (Index a) → ℕ → Paging.State → List ℕ
  | [], _, _ => []
  | i :: p, u, t =>
    nextTableFrames a frame t u i ++
      descendFrames flags p (nextTable a frame t u i flags).1 (nextTable a frame t u i flags).2

def vmmMapPageFrames (t : Paging.State) (phys virt flags : ℕ) : List ℕ :=
  descendFrames a frame flags (path a virt) (start a cr3 t).kernelTable (start a cr3 t) ++ [phys &&& frameMask a]

def mapFreshFrames (t : Paging.State) (virt flags : ℕ) : List ℕ :=
  let phys := frame t.allocs
  vmmMapPageFrames a frame cr3 { t with mem := memset 0 PAGE_SIZE t.mem phys, allocs := t.allocs + 1 } phys virt flags

def mapLoopFrames (startPage flags : ℕ) : ℕ → ℕ → Paging.State → List ℕ
  | 0, _, _ => []
  | n + 1, p, t =>
    let virt := a.wrap (startPage + p * PAGE_SIZE)
    if vmmGetPhys a t virt = 0 then
      mapFreshFrames a frame cr3 t virt flags ++
        mapLoopFrames startPage flags n (p + 1) (mapFresh a frame cr3 t virt flags)
    else mapLoopFrames startPage flags n (p + 1) t

def segmentsFrames (b : Buffer a) : List Phdr → State → List ℕ
  | [], _ => []
  | ph :: L, s =>
    mapLoopFrames a frame cr3 (ph.startPage (frameMask a)) ph.pageFlags (ph.pagesNeeded a (frameMask a)) 0 s.tables ++
      segmentsFrames b L (loadSegment a frame cr3 (frameMask a) b ph s)

def elfFrames (c : ElfClass) (b : Buffer a) (s : State) : List ℕ :=
  if Accepted a c b then segmentsFrames a frame cr3 b (b.segments c) s else []

def xecFrames : ℕ → ℕ → Paging.State → List ℕ
  | 0, _, _ => []
  | n + 1, i, t =>
    let virt := a.wrap (XEC_BASE_VADDR + i * PAGE_SIZE)
    let flags := PAGE_USER ||| PAGE_WRITABLE
    mapFreshFrames a frame cr3 t virt flags ++ xecFrames n (i + 1) (mapFresh a frame cr3 t virt flags)

def stackFrames : ℕ → ℕ → Paging.State → List ℕ
  | 0, _, _ => []
  | n + 1, p, t =>
    let page := frame t.allocs
    let t := { t with allocs := t.allocs + 1 }
    let virt := stackBase a + p * PAGE_SIZE
    let flags := PAGE_USER ||| PAGE_WRITABLE
    vmmMapPageFrames a frame cr3 t page virt flags ++
      stackFrames n (p + 1) (vmmMapPage a frame cr3 t page virt flags)

variable {a frame cr3} {t : Paging.State} {s : State}

def given (frame : ℕ → ℕ) (i j : ℕ) : List ℕ := (List.range' i (j - i)).map frame

theorem given_self (i : ℕ) : given frame i i = [] := by
  unfold given
  rw [Nat.sub_self]
  rfl

theorem given_succ (i : ℕ) : given frame i (i + 1) = [frame i] := by
  unfold given
  rw [Nat.add_sub_cancel_left]
  rfl

theorem given_append {i j k : ℕ} (hij : i ≤ j) (hjk : j ≤ k) :
    given frame i j ++ given frame j k = given frame i k := by
  have hfirst : i + (j - i) = j := by omega
  have hsum : j - i + (k - j) = k - i := by omega
  have happend := List.range'_append_1 (s := i) (m := j - i) (n := k - j)
  rw [hfirst, hsum] at happend
  unfold given
  rw [← happend, List.map_append]

theorem descendFrames_eq {flags u : ℕ} {p : List (Index a)} :
    descendFrames a frame flags p u t = given frame t.allocs (descend a frame flags p u t).2.allocs := by
  induction p generalizing u t with
  | nil => exact (given_self _).symm
  | cons i p ih =>
    have hone : nextTableFrames a frame t u i = given frame t.allocs (nextTable a frame t u i flags).2.allocs := by
      unfold nextTableFrames nextTable
      split_ifs
      · exact (given_succ _).symm
      · exact (given_self _).symm
    rw [descendFrames, hone, ih]
    exact given_append (nextTable_allocs t u i flags) (descend_allocs _)

theorem vmmMapPageFrames_perm {v flags : ℕ} {m : Mem} (hmask : ∀ i, frame i &&& frameMask a = frame i)
    (hflags : flags < 2 ^ 12) :
    (vmmMapPageFrames a frame cr3 { t with mem := m, allocs := t.allocs + 1 } (frame t.allocs) v flags).Perm
      (given frame t.allocs
        (vmmMapPage a frame cr3 { t with mem := m, allocs := t.allocs + 1 } (frame t.allocs) v flags).allocs) := by
  unfold vmmMapPageFrames
  rw [vmmMapPage_eq hflags, descendFrames_eq, hmask, start_allocs]
  set t₁ : Paging.State := { t with mem := m, allocs := t.allocs + 1 } with ht₁
  have hle : t.allocs + 1 ≤ (descend a frame flags (path a v) (start a cr3 t₁).kernelTable (start a cr3 t₁)).2.allocs :=
    (start_allocs t₁).symm.le.trans (descend_allocs _)
  have hgiven := @given_append frame _ _ _ (Nat.le_succ t.allocs) hle
  rw [given_succ] at hgiven
  exact List.perm_append_comm.trans (List.Perm.of_eq hgiven)

theorem mapFreshFrames_perm {v flags : ℕ} (hmask : ∀ i, frame i &&& frameMask a = frame i) (hflags : flags < 2 ^ 12) :
    (mapFreshFrames a frame cr3 t v flags).Perm (given frame t.allocs (mapFresh a frame cr3 t v flags).allocs) :=
  vmmMapPageFrames_perm hmask hflags

theorem mapLoopFrames_perm {startPage flags n p : ℕ} (hmask : ∀ i, frame i &&& frameMask a = frame i)
    (hflags : flags < 2 ^ 12) : (mapLoopFrames a frame cr3 startPage flags n p t).Perm
      (given frame t.allocs (mapLoop a frame cr3 startPage flags n p t).allocs) := by
  induction n generalizing p t with
  | zero => exact List.Perm.of_eq (given_self _).symm
  | succ n ih =>
    rw [mapLoopFrames, mapLoop]
    by_cases hnone : vmmGetPhys a t (a.wrap (startPage + p * PAGE_SIZE)) = 0
    · rw [if_pos hnone, if_pos hnone]
      have hfirst : t.allocs ≤ (mapFresh a frame cr3 t (a.wrap (startPage + p * PAGE_SIZE)) flags).allocs :=
        (Nat.le_succ _).trans (mapFresh_allocs hflags)
      rw [← given_append hfirst (mapLoop_allocs hflags)]
      exact (mapFreshFrames_perm hmask hflags).append ih
    · rw [if_neg hnone, if_neg hnone]
      exact ih

theorem segmentsFrames_perm {b : Buffer a} {L : List Phdr} (hmask : ∀ i, frame i &&& frameMask a = frame i) :
    (segmentsFrames a frame cr3 b L s).Perm
      (given frame s.tables.allocs (loadSegments frame cr3 b L s).tables.allocs) := by
  induction L generalizing s with
  | nil => exact List.Perm.of_eq (given_self _).symm
  | cons ph L ih =>
    have hpages : (mapLoopFrames a frame cr3 (ph.startPage (frameMask a)) ph.pageFlags
        (ph.pagesNeeded a (frameMask a)) 0 s.tables).Perm
        (given frame s.tables.allocs
          (mapLoop a frame cr3 (ph.startPage (frameMask a)) ph.pageFlags (ph.pagesNeeded a (frameMask a)) 0
            s.tables).allocs) :=
      mapLoopFrames_perm hmask ph.pageFlags_lt
    have hallocs : (loadSegment a frame cr3 (frameMask a) b ph s).tables.allocs =
        (mapLoop a frame cr3 (ph.startPage (frameMask a)) ph.pageFlags (ph.pagesNeeded a (frameMask a)) 0
          s.tables).allocs := by
      rw [loadSegment_eq, Phdr.store_allocs]
    rw [← hallocs] at hpages
    change (_ ++ segmentsFrames a frame cr3 b L (loadSegment a frame cr3 (frameMask a) b ph s)).Perm
      (given frame s.tables.allocs
        (loadSegments frame cr3 b L (loadSegment a frame cr3 (frameMask a) b ph s)).tables.allocs)
    rw [← given_append loadSegment_allocs loadSegments_allocs]
    exact hpages.append ih

theorem elfFrames_perm {c : ElfClass} {b : Buffer a} (hmask : ∀ i, frame i &&& frameMask a = frame i) :
    (elfFrames a frame cr3 c b s).Perm
      (given frame s.tables.allocs (elfLoad a frame cr3 c b s).2.tables.allocs) := by
  unfold elfFrames
  by_cases hacc : Accepted a c b
  · rw [if_pos hacc, elfLoad_segments hacc]
    exact segmentsFrames_perm hmask
  · rw [if_neg hacc, elfLoad, if_neg hacc]
    exact List.Perm.of_eq (given_self _).symm

theorem xecMapLoop_allocs {n i : ℕ} : t.allocs + n ≤ (xecMapLoop a frame cr3 n i t).allocs := by
  induction n generalizing i t with
  | zero => exact le_refl _
  | succ n ih =>
    have hfirst : t.allocs + 1 ≤ (mapFresh a frame cr3 t (a.wrap (XEC_BASE_VADDR + i * PAGE_SIZE))
        (PAGE_USER ||| PAGE_WRITABLE)).allocs := mapFresh_allocs (by decide)
    exact le_trans (by omega) (ih (t := mapFresh a frame cr3 t (a.wrap (XEC_BASE_VADDR + i * PAGE_SIZE))
      (PAGE_USER ||| PAGE_WRITABLE)))

theorem xecFrames_perm {n i : ℕ} (hmask : ∀ i, frame i &&& frameMask a = frame i) :
    (xecFrames a frame cr3 n i t).Perm (given frame t.allocs (xecMapLoop a frame cr3 n i t).allocs) := by
  induction n generalizing i t with
  | zero => exact List.Perm.of_eq (given_self _).symm
  | succ n ih =>
    have hflags : PAGE_USER ||| PAGE_WRITABLE < 2 ^ 12 := by decide
    have hfirst : t.allocs ≤ (mapFresh a frame cr3 t (a.wrap (XEC_BASE_VADDR + i * PAGE_SIZE))
        (PAGE_USER ||| PAGE_WRITABLE)).allocs := (Nat.le_succ _).trans (mapFresh_allocs hflags)
    rw [xecFrames, xecMapLoop, ← given_append hfirst ((Nat.le_add_right _ _).trans xecMapLoop_allocs)]
    exact (mapFreshFrames_perm hmask hflags).append ih

theorem stackLoop_allocs {n p : ℕ} : t.allocs + n ≤ (stackLoop a frame cr3 n p t).allocs := by
  induction n generalizing p t with
  | zero => exact le_refl _
  | succ n ih =>
    rw [stackLoop]
    set t₁ : Paging.State := { t with allocs := t.allocs + 1 } with ht₁
    have hfirst : t₁.allocs ≤ (vmmMapPage a frame cr3 t₁ (frame t.allocs) (stackBase a + p * PAGE_SIZE)
        (PAGE_USER ||| PAGE_WRITABLE)).allocs := vmmMapPage_allocs (by decide)
    have hcount : t₁.allocs = t.allocs + 1 := rfl
    exact le_trans (by omega) ih

theorem stackFrames_perm {n p : ℕ} (hmask : ∀ i, frame i &&& frameMask a = frame i) :
    (stackFrames a frame cr3 n p t).Perm (given frame t.allocs (stackLoop a frame cr3 n p t).allocs) := by
  induction n generalizing p t with
  | zero => exact List.Perm.of_eq (given_self _).symm
  | succ n ih =>
    have hflags : PAGE_USER ||| PAGE_WRITABLE < 2 ^ 12 := by decide
    rw [stackFrames, stackLoop]
    set t₁ : Paging.State := { t with allocs := t.allocs + 1 } with ht₁
    have hone : (vmmMapPageFrames a frame cr3 t₁ (frame t.allocs) (stackBase a + p * PAGE_SIZE)
        (PAGE_USER ||| PAGE_WRITABLE)).Perm (given frame t.allocs (vmmMapPage a frame cr3 t₁ (frame t.allocs)
          (stackBase a + p * PAGE_SIZE) (PAGE_USER ||| PAGE_WRITABLE)).allocs) :=
      vmmMapPageFrames_perm (m := t.mem) hmask hflags
    have hfirst : t.allocs ≤ (vmmMapPage a frame cr3 t₁ (frame t.allocs) (stackBase a + p * PAGE_SIZE)
        (PAGE_USER ||| PAGE_WRITABLE)).allocs := (Nat.le_succ _).trans (vmmMapPage_allocs (t := t₁) hflags)
    rw [← given_append hfirst ((Nat.le_add_right _ _).trans stackLoop_allocs)]
    exact hone.append ih

/-! ### Calls -/

inductive Call (a : Arch)
  | xecLoad (b : Buffer a)
  | elf64Load (b : Buffer a)
  | elf32Load (b : Buffer a)
  | mapStack
  -- a program stores a byte
  | store (v : ℕ) (x : UInt8)

variable (frame cr3) in
def Call.run (s : State) : Call a → State
  | .xecLoad b => (Loader.xecLoad frame cr3 b s).2
  | .elf64Load b => (Loader.elf64Load a frame cr3 b s).2
  | .elf32Load b => (Loader.elf32Load a frame cr3 b s).2
  | .mapStack => Loader.mapStack a frame cr3 s
  | .store v x => storeByte a cr3 s (a.wrap v) x

variable (frame cr3) in
def Call.frames (s : State) : Call a → List ℕ
  | .xecLoad b => xecFrames a frame cr3 (xecPages b) 0 s.tables
  | .elf64Load b => elfFrames a frame cr3 elf64 b s
  | .elf32Load b => elfFrames a frame cr3 elf32 b s
  | .mapStack => stackFrames a frame cr3 16 0 s.tables
  | .store _ _ => []

/-- The frames that the call asks for: its tables that are missing, and its pages. An ELF file takes
no frame for a page that is there, a flat image and the stack take one anyway. -/
def Call.demand (r : ℕ) (t : Paging.State) : Call a → ℕ
  | .xecLoad b => missingTables a r t (tablePaths a b.flatPages) + xecPages b
  | .elf64Load b =>
    if Accepted a elf64 b then
      missingTables a r t (tablePaths a (b.elfPages elf64)) + (unmappedPages a t (b.elfPages elf64)).card
    else 0
  | .elf32Load b =>
    if Accepted a elf32 b then
      missingTables a r t (tablePaths a (b.elfPages elf32)) + (unmappedPages a t (b.elfPages elf32)).card
    else 0
  | .mapStack => missingTables a r t (tablePaths a (stackPages a)) + 16
  | .store _ _ => 0

theorem xecLoad_tables (b : Buffer a) : (xecLoad frame cr3 b s).2 = if b.size = 0 then s else
    fill a cr3 XEC_BASE_VADDR b.byteAt b.size 0
      { s with tables := xecMapLoop a frame cr3 (xecPages b) 0 s.tables } := by
  unfold xecLoad
  split_ifs
  · rfl
  · rfl

theorem xecPages_empty {b : Buffer a} (h : b.size = 0) : xecPages b = 0 := by
  unfold xecPages
  rw [h]
  decide

theorem Call.frames_perm (hmask : ∀ i, frame i &&& frameMask a = frame i) (c : Call a) :
    (c.frames frame cr3 s).Perm (given frame s.tables.allocs (c.run frame cr3 s).tables.allocs) := by
  cases c with
  | xecLoad b =>
    change (xecFrames a frame cr3 (xecPages b) 0 s.tables).Perm
      (given frame s.tables.allocs (Loader.xecLoad frame cr3 b s).2.tables.allocs)
    rw [xecLoad_tables]
    split_ifs with hempty
    · rw [xecPages_empty hempty]
      exact List.Perm.of_eq (given_self _).symm
    · rw [fill_allocs]
      exact xecFrames_perm hmask
  | elf64Load b => exact elfFrames_perm hmask
  | elf32Load b => exact elfFrames_perm hmask
  | mapStack => exact stackFrames_perm hmask
  | store v x =>
    change List.Perm [] (given frame s.tables.allocs (storeByte a cr3 s (a.wrap v) x).tables.allocs)
    rw [storeByte_allocs, given_self]

theorem elfLoad_allocs {c : ElfClass} {b : Buffer a} :
    s.tables.allocs ≤ (elfLoad a frame cr3 c b s).2.tables.allocs := by
  by_cases hacc : Accepted a c b
  · rw [elfLoad_segments hacc]
    exact loadSegments_allocs
  · rw [elfLoad, if_neg hacc]

theorem Call.run_allocs (c : Call a) : s.tables.allocs ≤ (c.run frame cr3 s).tables.allocs := by
  cases c with
  | xecLoad b =>
    change s.tables.allocs ≤ (Loader.xecLoad frame cr3 b s).2.tables.allocs
    rw [xecLoad_tables]
    split_ifs
    · exact le_refl _
    · rw [fill_allocs]
      exact (Nat.le_add_right _ _).trans xecMapLoop_allocs
  | elf64Load b => exact elfLoad_allocs
  | elf32Load b => exact elfLoad_allocs
  | mapStack => exact (Nat.le_add_right _ _).trans stackLoop_allocs
  | store v x => exact (storeByte_allocs s _ _).symm.le

theorem elfLoad_wellFormed {c : ElfClass} {b : Buffer a} (hroot : root a cr3 ≠ 0)
    (hf : Frames a frame (root a cr3) (elfLoad a frame cr3 c b s).2.tables.allocs)
    (h : WellFormed a frame cr3 s.tables) : WellFormed a frame cr3 (elfLoad a frame cr3 c b s).2.tables := by
  by_cases hacc : Accepted a c b
  · exact (elfLoad_spec hroot hacc hf h).wellFormed
  · rw [elfLoad, if_neg hacc]
    exact h

theorem Call.run_wellFormed {N : ℕ} (hroot : root a cr3 ≠ 0) (hf : Frames a frame (root a cr3) N)
    (h : WellFormed a frame cr3 s.tables) (c : Call a) (hN : s.tables.allocs + c.demand (root a cr3) s.tables ≤ N) :
    WellFormed a frame cr3 (c.run frame cr3 s).tables ∧ (c.run frame cr3 s).tables.allocs ≤ N := by
  have helf (k : ElfClass) (b : Buffer a) (hN : s.tables.allocs + (if Accepted a k b then
      missingTables a (root a cr3) s.tables (tablePaths a (b.elfPages k)) +
        (unmappedPages a s.tables (b.elfPages k)).card
      else 0) ≤ N) : WellFormed a frame cr3 (elfLoad a frame cr3 k b s).2.tables ∧
        (elfLoad a frame cr3 k b s).2.tables.allocs ≤ N := by
    have hle : (elfLoad a frame cr3 k b s).2.tables.allocs ≤ N := by
      by_cases hacc : Accepted a k b
      · rw [if_pos hacc] at hN
        exact elfLoad_outlook hroot hf h (by unfold outlook; omega)
      · rw [elfLoad, if_neg hacc]
        exact (Nat.le_add_right _ _).trans hN
    exact ⟨elfLoad_wellFormed hroot (hf.mono hle) h, hle⟩
  cases c with
  | xecLoad b =>
    change s.tables.allocs + (missingTables a (root a cr3) s.tables (tablePaths a b.flatPages) + xecPages b) ≤ N at hN
    change WellFormed a frame cr3 (Loader.xecLoad frame cr3 b s).2.tables ∧
      (Loader.xecLoad frame cr3 b s).2.tables.allocs ≤ N
    have hpages (j : ℕ) (hj : j < xecPages b) : a.wrap (XEC_BASE_VADDR + (0 + j) * PAGE_SIZE) ∈ b.flatPages := by
      rw [Nat.zero_add]
      exact List.mem_map.mpr ⟨j, List.mem_range.mpr hj, rfl⟩
    obtain ⟨hwf, hle⟩ := xecMapLoop_demand hf h hpages (by omega)
    rw [xecLoad_tables]
    split_ifs
    · exact ⟨h, by omega⟩
    · set t₁ := xecMapLoop a frame cr3 (xecPages b) 0 s.tables with ht₁
      have hfill := fill_outlook (n := b.size) (i := 0) (s := { s with tables := t₁ }) XEC_BASE_VADDR b.byteAt hroot
        (hf.mono hle) hwf
      rw [fill_allocs]
      exact ⟨hfill.1, hle⟩
  | elf64Load b => exact helf elf64 b hN
  | elf32Load b => exact helf elf32 b hN
  | mapStack =>
    change s.tables.allocs + (missingTables a (root a cr3) s.tables (tablePaths a (stackPages a)) + 16) ≤ N at hN
    have hpages (j : ℕ) (hj : j < 16) : stackBase a + (0 + j) * PAGE_SIZE ∈ stackPages a := by
      rw [Nat.zero_add]
      exact List.mem_map.mpr ⟨j, List.mem_range.mpr hj, rfl⟩
    exact stackLoop_demand hf h hpages (by omega)
  | store v x =>
    change s.tables.allocs + 0 ≤ N at hN
    have hvirt : a.wrap v < 2 ^ a.wordBits := Nat.mod_lt _ (by positivity)
    refine ⟨(storeByte_spec x (hf.mono (by omega)) h hvirt).1, ?_⟩
    exact (storeByte_allocs s _ _).trans_le (by omega)

/-! ### Runs -/

structure Event (a : Arch) where
  call : Call a
  frames : List ℕ

variable (frame cr3) in
def Step (s : State) (e : Event a) (s' : State) : Prop :=
  s' = e.call.run frame cr3 s ∧ e.frames = e.call.frames frame cr3 s

def Enough (p : Pmm.State) (cr3 : ℕ) (t : Paging.State) (c : Call a) : Prop :=
  c.demand (root a cr3) t ≤ (drawn a p t.allocs).freeSet.card

variable (a) in
structure Supply (p : Pmm.State) (cr3 : ℕ) : Prop where
  total : p.totalPages * PAGE_SIZE ≤ 2 ^ a.wordBits
  nonnull : 0 ∉ p.freeSet
  root_nonnull : root a cr3 ≠ 0
  root_used : root a cr3 / PAGE_SIZE ∉ p.freeSet

theorem Supply.frames {p : Pmm.State} (h : Supply a p cr3) : Frames a (framesOf a p) (root a cr3) p.freeSet.card :=
  framesOf_frames h.total (le_refl _) h.nonnull root_aligned h.root_used

theorem run_wellFormed {p : Pmm.State} {s s' : State} {l : List (Event a)} (hp : Supply a p cr3)
    (h : WellFormed a (framesOf a p) cr3 s.tables) (hallocs : s.tables.allocs ≤ p.freeSet.card)
    (hrun : Steps (fun s e s' => Enough p cr3 s.tables e.call ∧ Step (framesOf a p) cr3 s e s') s l s') :
    WellFormed a (framesOf a p) cr3 s'.tables ∧ s'.tables.allocs ≤ p.freeSet.card ∧ s.tables.allocs ≤ s'.tables.allocs ∧
      (l.flatMap Event.frames).Perm (given (framesOf a p) s.tables.allocs s'.tables.allocs) := by
  induction hrun with
  | nil s => exact ⟨h, hallocs, le_refl _, List.Perm.of_eq (given_self _).symm⟩
  | @cons s t u e l hstep rest ih =>
    obtain ⟨henough, rfl, hframes⟩ := hstep
    have hcard := drawn_card hp.total s.tables.allocs
    unfold Enough at henough
    obtain ⟨hwf, hle⟩ := Call.run_wellFormed hp.root_nonnull hp.frames h e.call (by omega)
    obtain ⟨hwf', hle', hmono, hperm⟩ := ih hwf hle
    have hone : s.tables.allocs ≤ (e.call.run (framesOf a p) cr3 s).tables.allocs := e.call.run_allocs
    refine ⟨hwf', hle', hone.trans hmono, ?_⟩
    rw [List.flatMap_cons, hframes, ← given_append hone hmono]
    exact (e.call.frames_perm framesOf_masked).append hperm

theorem run_enters_once {p : Pmm.State} {s s' : State} {l : List (Event a)} (hp : Supply a p cr3)
    (h : WellFormed a (framesOf a p) cr3 s.tables) (hallocs : s.tables.allocs ≤ p.freeSet.card)
    (hrun : Steps (fun s e s' => Enough p cr3 s.tables e.call ∧ Step (framesOf a p) cr3 s e s') s l s') :
    (∀ i, s.tables.allocs ≤ i → i < s'.tables.allocs → framesOf a p i ≠ 0) ∧
      (∀ f ∈ l.flatMap Event.frames, ∃ i, s.tables.allocs ≤ i ∧ i < s'.tables.allocs ∧ f = framesOf a p i) ∧
      (l.flatMap Event.frames).Nodup := by
  obtain ⟨-, hle, -, hperm⟩ := run_wellFormed hp h hallocs hrun
  have hf := hp.frames.mono hle
  refine ⟨fun i _ hi => hf.nonnull i hi, ?_, ?_⟩
  · intro f hmem
    obtain ⟨i, hi, rfl⟩ := List.mem_map.mp (hperm.mem_iff.mp hmem)
    rw [List.mem_range'_1] at hi
    exact ⟨i, hi.1, by omega, rfl⟩
  · apply hperm.nodup_iff.mpr
    apply List.Nodup.map_on
    · intro i hi j hj he
      rw [List.mem_range'_1] at hi hj
      exact hf.distinct i (by omega) j (by omega) he
    · exact List.nodup_range'

def noPages : Pmm.State := pmmInit .x86_64 0x20000 fun _ => 0

def sixteenPages : Pmm.State := pmmMarkRegion .x86_64 noPages 0x2000 0x10000 false

theorem sixteenPages_supply : Supply .x86_64 sixteenPages 0x1000 :=
  ⟨by decide, by decide, by decide, by decide⟩

def oneByte : Buffer .x86_64 := ⟨fun _ => 0xC3, 1, by decide⟩

theorem run_enters_once_xec :
    (Call.xecLoad oneByte).frames (framesOf .x86_64 sixteenPages) 0x1000 ⟨emptyTables, []⟩ ≠ [] ∧
    ([⟨.xecLoad oneByte, (Call.xecLoad oneByte).frames (framesOf .x86_64 sixteenPages) 0x1000
      ⟨emptyTables, []⟩⟩].flatMap (Event.frames (a := .x86_64))).Nodup :=
  ⟨List.append_ne_nil_of_left_ne_nil (List.append_ne_nil_of_right_ne_nil _ (List.cons_ne_nil _ _)) _,
    (run_enters_once sixteenPages_supply emptyTables_wellFormed (Nat.zero_le _)
      (.single ⟨by unfold Enough; decide, rfl, rfl⟩)).2.2⟩

theorem run_enters_null :
    0 ∈ (Call.xecLoad oneByte).frames (framesOf .x86_64 noPages) 0x1000 ⟨emptyTables, []⟩ := by
  have hnull : framesOf .x86_64 noPages 0 &&& frameMask .x86_64 = 0 := by decide
  apply List.mem_append_left
  apply List.mem_append_right
  exact List.mem_singleton.mpr hnull.symm

end JurkOS.Kernel.Loader
