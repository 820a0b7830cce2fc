import JurkOS.Kernel.Fs.Read
import JurkOS.Kernel.Loader.MapRights
import JurkOS.Kernel.Loader.Ownership
import JurkOS.Kernel.PmmRuns

/-!
`loader_exec` of `loader/loader.c`, called again and again: the pages and the heap
that it leaves. The heap is an object of its own, which no segment and no program
reaches.
-/

namespace JurkOS.Kernel.Loader

open Lib Lib.Memory Lib.FreeList Lib.Run Fs Kheap Paging Pmm

structure ExecState where
  heap : Mem
  loader : State

variable {σ : Type} (K : Machine σ) (v : Fs.State σ) (A : HeapArea K.arch) (fuel : ℕ) (frame : ℕ → ℕ) (cr3 : ℕ)
  (appEntry : ℕ → Mem → ℤ × Mem)

def loaderExec (file : ℕ) (s : ExecState) : Option (ℤ × ExecState) :=
  if file = 0 then some (-1, s)
  else
    match v.nodes file with
    | none => none
    | some node =>
      if node.length = 0 then some (-1, s)
      else
        match kmalloc K.arch A.heapHead fuel s.heap node.length with
        | none => none
        | some (buffer, heap) =>
          if buffer = 0 then some (-1, { s with heap := heap })
          else
            match vfsRead K v file 0 node.length buffer (fun i => heap (buffer + i)) with
            | none => none
            | some (bytesRead, out) =>
              let heap := copyOut out 0 node.length buffer heap
              if bytesRead = 0 then
                (kfree K.arch A.heapHead fuel heap buffer).map fun heap => (-1, { s with heap := heap })
              -- no object covers the page of the null pointer
              else if h : bytesRead + PAGE_SIZE ≤ 2 ^ K.arch.wordBits then
                let b : Buffer K.arch := ⟨fun i => heap (K.arch.wrap (buffer + i)), bytesRead, h⟩
                let r := loaderExecBuffer frame cr3 appEntry b s.loader
                (kfree K.arch A.heapHead fuel heap buffer).map fun heap => (r.1, ⟨heap, r.2⟩)
              else none

def freePages (p : Pmm.State) (s : ExecState) : ℕ := (drawn K.arch p s.loader.tables.allocs).freePages

variable {K v A fuel frame cr3 appEntry}

section Buffers

variable {a : Arch} {s : State}

def Buffer.Launches (b : Buffer a) : Prop :=
  match loaderProbe b with
  | .elf64 => Accepted a elf64 b
  | .elf32 => Accepted a elf32 b
  | _ => b.size ≠ 0

variable (frame cr3) in
theorem loadBinary_launches {b : Buffer a} (h : b.Launches) :
    ∃ entry s', loadBinary frame cr3 b s = (some entry, s') ∧ s.tables.allocs ≤ s'.tables.allocs := by
  have hflat (hsize : b.size ≠ 0) :
      ∃ entry s', xecLoad frame cr3 b s = (some entry, s') ∧ s.tables.allocs ≤ s'.tables.allocs := by
    have hallocs : s.tables.allocs ≤ ((Call.xecLoad b).run frame cr3 s).tables.allocs := Call.run_allocs _
    refine ⟨XEC_BASE_VADDR, (xecLoad frame cr3 b s).2, ?_, hallocs⟩
    unfold xecLoad
    rw [if_neg hsize]
  have helf {c : ElfClass} (hacc : Accepted a c b) :
      ∃ entry s', elfLoad a frame cr3 c b s = (some entry, s') ∧ s.tables.allocs ≤ s'.tables.allocs := by
    refine ⟨_, _, elfLoad_eq hacc, ?_⟩
    have hallocs : s.tables.allocs ≤ (elfLoad a frame cr3 c b s).2.tables.allocs := elfLoad_allocs
    rwa [elfLoad_eq hacc] at hallocs
  unfold Buffer.Launches at h
  unfold loadBinary
  cases hprobe : loaderProbe b with
  | elf64 =>
    rw [hprobe] at h
    exact helf h
  | elf32 =>
    rw [hprobe] at h
    exact helf h
  | unknown =>
    rw [hprobe] at h
    exact hflat h
  | xecFlat =>
    rw [hprobe] at h
    exact hflat h

theorem loaderExecBuffer_allocs {b : Buffer a} (h : b.Launches) : s.tables.allocs + 16 ≤
    (loaderExecBuffer frame cr3 appEntry b s).2.tables.allocs := by
  obtain ⟨entry, s', hload, hle⟩ := loadBinary_launches frame cr3 (s := s) h
  unfold loaderExecBuffer
  rw [hload]
  have hstack : s'.tables.allocs + 16 ≤ (stackLoop a frame cr3 16 0 s'.tables).allocs := stackLoop_allocs
  exact le_trans (by omega) hstack

theorem xecMapLoop_allocs_le {n i : ℕ} {t : Paging.State} :
    (xecMapLoop a frame cr3 n i t).allocs ≤ t.allocs + n * (levels a + 1) := by
  induction n generalizing i t with
  | zero => exact Nat.le_add_right _ _
  | succ n ih =>
    have hpage : (mapFresh a frame cr3 t (a.wrap (XEC_BASE_VADDR + i * PAGE_SIZE))
        (PAGE_USER ||| PAGE_WRITABLE)).allocs ≤ t.allocs + 1 + levels a := vmmMapPage_allocs_le
    rw [xecMapLoop, Nat.add_mul, Nat.one_mul]
    exact ih.trans (by omega)

theorem stackLoop_allocs_le {n i : ℕ} {t : Paging.State} :
    (stackLoop a frame cr3 n i t).allocs ≤ t.allocs + n * (levels a + 1) := by
  induction n generalizing i t with
  | zero => exact Nat.le_add_right _ _
  | succ n ih =>
    have hpage : (vmmMapPage a frame cr3 { t with allocs := t.allocs + 1 } (frame t.allocs)
        (stackBase a + i * PAGE_SIZE) (PAGE_USER ||| PAGE_WRITABLE)).allocs ≤ t.allocs + 1 + levels a :=
      vmmMapPage_allocs_le
    rw [stackLoop, Nat.add_mul, Nat.one_mul]
    exact ih.trans (by omega)

theorem xecLoad_allocs_le {b : Buffer a} :
    (xecLoad frame cr3 b s).2.tables.allocs ≤ s.tables.allocs + xecPages b * (levels a + 1) := by
  rw [xecLoad_tables]
  split_ifs
  · exact Nat.le_add_right _ _
  · rw [fill_allocs]
    exact xecMapLoop_allocs_le

variable (frame cr3 appEntry) in
theorem loaderExecBuffer_flat {b : Buffer a} (h : b.size < 4) :
    (loaderExecBuffer frame cr3 appEntry b s).2.tables.allocs ≤
      s.tables.allocs + (xecPages b + 16) * (levels a + 1) := by
  have hprobe : loaderProbe b = .unknown := if_pos h
  have hload : (xecLoad frame cr3 b s).2.tables.allocs ≤ s.tables.allocs + xecPages b * (levels a + 1) :=
    xecLoad_allocs_le
  unfold loaderExecBuffer loadBinary
  rw [hprobe, Nat.add_mul]
  dsimp only
  cases hrun : xecLoad frame cr3 b s with
  | mk entry s' =>
    rw [hrun] at hload
    dsimp only at hload
    cases entry with
    | none => exact hload.trans (by omega)
    | some entry =>
      have hstack : (stackLoop a frame cr3 16 0 s'.tables).allocs ≤ s'.tables.allocs + 16 * (levels a + 1) :=
        stackLoop_allocs_le
      exact hstack.trans (by omega)

end Buffers

variable (K v) in
structure Executable (file : ℕ) (node : Node) : Prop where
  nonnull : file ≠ 0
  node_eq : v.nodes file = some node
  length_pos : 0 < node.length
  length_le : node.length + 15 ≤ K.arch.SIZE_MAX
  launches : ∀ buffer out, buffer ≠ 0 → ∃ n out', vfsRead K v file 0 node.length buffer out = some (n, out') ∧
    ∀ b : Buffer K.arch, b.size = n → (∀ i < n, b.byte i = out' i) → b.Launches

theorem Buffer.Launches.size_pos {a : Arch} {b : Buffer a} (h : b.Launches) : 0 < b.size := by
  by_contra hzero
  have hsize : b.size = 0 := by omega
  unfold Launches loaderProbe at h
  rw [if_pos (by omega)] at h
  exact h hsize

variable {s : ExecState} {live : List (ℕ × ℕ)} {l l' : List Block} {file q : ℕ} {node : Node}

variable (frame cr3 appEntry) in
theorem loaderExec_noRoom (hx : Executable K v file node) (hl : Kheap.Holds A ⟨s.heap, live⟩ l)
    (hfuel : A.size ≤ fuel)
    (halloc : alloc (BLOCK_HEADER_SIZE K.arch) 16 (alignSize K.arch node.length) A.start l = none) :
    kmalloc K.arch A.heapHead fuel s.heap node.length = some (0, s.heap) ∧
      loaderExec K v A fuel frame cr3 appEntry file s = some (-1, s) := by
  have hrun := kmalloc_holds hl hfuel hx.length_le hx.length_pos
  rw [halloc] at hrun
  refine ⟨hrun, ?_⟩
  unfold loaderExec
  rw [if_neg hx.nonnull, hx.node_eq]
  simp only [hx.length_pos.ne', if_false, hrun, if_true]

variable (frame cr3 appEntry) in
theorem loaderExec_room (hx : Executable K v file node) (hl : Kheap.Holds A ⟨s.heap, live⟩ l)
    (hfuel : A.size ≤ fuel) (hpage : PAGE_SIZE ≤ A.start)
    (halloc : alloc (BLOCK_HEADER_SIZE K.arch) 16 (alignSize K.arch node.length) A.start l = some (q, l')) :
    (∃ p m, kmalloc K.arch A.heapHead fuel s.heap node.length = some (p, m) ∧ p ≠ 0) ∧
      ∃ (b : Buffer K.arch) (buffer : ℕ) (out out' : Mem) (ret : ℤ) (m : Mem), b.Launches ∧ buffer ≠ 0 ∧
        vfsRead K v file 0 node.length buffer out = some (b.size, out') ∧
        loaderExec K v A fuel frame cr3 appEntry file s =
          some (ret, ⟨m, (loaderExecBuffer frame cr3 appEntry b s.loader).2⟩) ∧
        Kheap.Holds A ⟨m, live⟩ l := by
  obtain ⟨m₁, hk, hstart, hinside, hback⟩ := kmalloc_kfree hl hfuel hx.length_le hx.length_pos halloc
  have hnw := A.no_wrap
  set buffer := q + BLOCK_HEADER_SIZE K.arch with hbuffer
  have hpos : buffer ≠ 0 := by
    have := header_pos K.arch
    omega
  obtain ⟨n, out, hread, hlaunch⟩ := hx.launches buffer (fun i => m₁ (buffer + i)) hpos
  obtain ⟨hn, -⟩ := vfsRead_within hread
  set m₂ := copyOut out 0 node.length buffer m₁ with hm₂
  have hsize : n + PAGE_SIZE ≤ 2 ^ K.arch.wordBits := by omega
  set b : Buffer K.arch := ⟨fun i => m₂ (K.arch.wrap (buffer + i)), n, hsize⟩ with hb
  have hbyte (i : ℕ) (hi : i < n) : b.byte i = out i := by
    change m₂ (K.arch.wrap (buffer + i)) = out i
    rw [Arch.wrap_of_lt (by omega), hm₂, copyOut, if_pos (by omega), Nat.zero_add, Nat.add_sub_cancel_left]
  have hok : b.Launches := hlaunch b rfl hbyte
  have hch : ChangedIn (Span buffer node.length) m₁ m₂ := by
    intro x hx
    exact if_neg fun hin => hx hin
  obtain ⟨m₃, hfree, hl₃⟩ := hback m₂ hch
  set r := loaderExecBuffer frame cr3 appEntry b s.loader with hr
  refine ⟨⟨buffer, m₁, hk, hpos⟩, b, buffer, _, out, r.1, m₃, hok, hpos, hread, ?_, hl₃⟩
  have hn0 : n ≠ 0 := hok.size_pos.ne'
  unfold loaderExec
  rw [if_neg hx.nonnull, hx.node_eq]
  simp only [hx.length_pos.ne', if_false, hk, hpos, hread, ← hm₂, hn0, hsize, dif_pos, hfree, Option.map_some,
    ← hb, ← hr]

variable (K v A fuel frame cr3 appEntry) in
def rerun (file : ℕ) (s : ExecState) : ExecState :=
  ((loaderExec K v A fuel frame cr3 appEntry file s).map Prod.snd).getD s

theorem rerun_eq {ret : ℤ} {t : ExecState} (h : loaderExec K v A fuel frame cr3 appEntry file s = some (ret, t)) :
    rerun K v A fuel frame cr3 appEntry file s = t := by
  unfold rerun
  rw [h]
  rfl

variable (frame cr3 appEntry) in
theorem rerun_room (hx : Executable K v file node) (hl : Kheap.Holds A ⟨s.heap, live⟩ l)
    (hfuel : A.size ≤ fuel) (hpage : PAGE_SIZE ≤ A.start)
    (halloc : alloc (BLOCK_HEADER_SIZE K.arch) 16 (alignSize K.arch node.length) A.start l = some (q, l')) (k : ℕ) :
    let run := fun k => (rerun K v A fuel frame cr3 appEntry file)^[k] s
    (∃ ret, loaderExec K v A fuel frame cr3 appEntry file (run k) = some (ret, run (k + 1))) ∧
      Kheap.Holds A ⟨(run k).heap, live⟩ l ∧
      (run k).loader.tables.allocs + 16 ≤ (run (k + 1)).loader.tables.allocs := by
  intro run
  have hnext (k : ℕ) (hk : Kheap.Holds A ⟨(run k).heap, live⟩ l) :
      (∃ ret, loaderExec K v A fuel frame cr3 appEntry file (run k) = some (ret, run (k + 1))) ∧
        Kheap.Holds A ⟨(run (k + 1)).heap, live⟩ l ∧
        (run k).loader.tables.allocs + 16 ≤ (run (k + 1)).loader.tables.allocs := by
    obtain ⟨-, b, -, -, -, ret, m, hok, -, -, hrun, hm⟩ := loaderExec_room frame cr3 appEntry hx hk hfuel hpage halloc
    have hsucc : run (k + 1) = ⟨m, (loaderExecBuffer frame cr3 appEntry b (run k).loader).2⟩ :=
      (Function.iterate_succ_apply' _ _ _).trans (rerun_eq hrun)
    rw [hsucc]
    exact ⟨⟨ret, hrun⟩, hm, loaderExecBuffer_allocs hok⟩
  have hholds : Kheap.Holds A ⟨(run k).heap, live⟩ l := by
    induction k with
    | zero => exact hl
    | succ k ih => exact (hnext k ih).2.1
  obtain ⟨hrun, -, hallocs⟩ := hnext k hholds
  exact ⟨hrun, hholds, hallocs⟩

theorem freePages_eq {p : Pmm.State} {memSize : ℕ} {bitmap : Mem} {calls : List Pmm.Event}
    (hmem : memSize < 2 ^ K.arch.wordBits)
    (hpmm : Steps (Pmm.Step K.arch) (pmmInit K.arch memSize bitmap) calls p) :
    freePages K p s = p.freePages - s.loader.tables.allocs := by
  have hsound : Sound K.arch memSize p :=
    hpmm.invariant (fun _ _ _ hs hstep => step_sound hmem hs hstep) (pmmInit_sound bitmap hmem)
  exact drawn_freePages (hsound.total_le hmem) hsound.counted _

theorem loaderExec_steady_iff {p : Pmm.State} {memSize : ℕ} {bitmap : Mem} {calls : List Pmm.Event}
    (hmem : memSize < 2 ^ K.arch.wordBits)
    (hpmm : Steps (Pmm.Step K.arch) (pmmInit K.arch memSize bitmap) calls p)
    (hheap : Reachable (Kheap.Init A) (Kheap.Step A fuel) ⟨s.heap, live⟩) (hfuel : A.size ≤ fuel)
    (hpage : PAGE_SIZE ≤ A.start) (hx : Executable K v file node) :
    ∃ run : ℕ → ExecState, run 0 = s ∧
      (∀ k, ∃ ret, loaderExec K v A fuel (framesOf K.arch p) cr3 appEntry file (run k) = some (ret, run (k + 1))) ∧
      ((∀ k ≥ 1, freePages K p (run (k + 1)) = freePages K p (run k) ∧
          heapFree A fuel (run (k + 1)).heap = heapFree A fuel (run k).heap) ↔
        kmalloc K.arch A.heapHead fuel s.heap node.length = some (0, s.heap) ∨ freePages K p (run 1) = 0) := by
  obtain ⟨l, hl⟩ := reachable_holds hfuel hheap
  cases halloc : alloc (BLOCK_HEADER_SIZE K.arch) 16 (alignSize K.arch node.length) A.start l with
  | none =>
    obtain ⟨hnull, hrun⟩ := loaderExec_noRoom (framesOf K.arch p) cr3 appEntry hx hl hfuel halloc
    refine ⟨fun _ => s, rfl, fun _ => ⟨-1, hrun⟩, ?_⟩
    exact iff_of_true (fun _ _ => ⟨rfl, rfl⟩) (Or.inl hnull)
  | some r =>
    obtain ⟨q, l'⟩ := r
    obtain ⟨⟨u, m, hroom, hnonnull⟩, -⟩ := loaderExec_room (framesOf K.arch p) cr3 appEntry hx hl hfuel
      hpage halloc
    have hruns := rerun_room (framesOf K.arch p) cr3 appEntry hx hl hfuel hpage halloc
    set run := fun k => (rerun K v A fuel (framesOf K.arch p) cr3 appEntry file)^[k] s
    have hheapFree (k : ℕ) : heapFree A fuel (run k).heap = freeBytes l := (hruns k).2.1.heapFree_eq hfuel
    have hpages (k : ℕ) : freePages K p (run k) = p.freePages - (run k).loader.tables.allocs :=
      freePages_eq hmem hpmm
    refine ⟨run, rfl, fun k => (hruns k).1, ?_, ?_⟩
    · intro hsteady
      have hone := (hsteady 1 (le_refl 1)).1
      have hmore := (hruns 1).2.2
      rw [hpages, hpages] at hone
      right
      rw [hpages]
      omega
    · rintro (hnull | hnone)
      · rw [hroom] at hnull
        cases hnull
        exact absurd rfl hnonnull
      · have hzero (k : ℕ) (hk : 1 ≤ k) : freePages K p (run k) = 0 := by
          induction k, hk using Nat.le_induction with
          | base => exact hnone
          | succ k _ ih =>
            have hmore := (hruns k).2.2
            rw [hpages] at ih ⊢
            omega
        intro k hk
        refine ⟨?_, (hheapFree (k + 1)).trans (hheapFree k).symm⟩
        rw [hzero k hk, hzero (k + 1) (by omega)]

def retDisk (x : ℕ) : UInt8 :=
  if x = 24 then 156 else if x = 64 + 68 then 1 else if x = 156 then 0xC3 else 0

def retMachine : Machine ℕ := ⟨.x86_64, bump, retDisk, 0⟩

def retNode : Node where
  flags := VFS_FILE
  length := 1
  read := some .jurkvfs
  devicePriv := some (.jurkvfs 0)

def retFiles : Fs.State ℕ where
  nodes := Function.update (fun _ => none) 1 (some retNode)
  vfsRoot := 0
  devRoot := 0
  currentFat := {}
  currentFs := { diskData := 0, diskSize := 157, header := 0, inodes := 64 }
  heap := 0

theorem vfsRead_retFiles {buffer : ℕ} (h : buffer ≠ 0) (out : Mem) :
    vfsRead retMachine retFiles 1 0 1 buffer out = some (1, copyOut retDisk 156 1 0 out) := by
  have hnode : retFiles.nodes 1 = some retNode := rfl
  have hsize : load retMachine.mem (jurkvfsInode retFiles.currentFs 0 + 68) 4 = 1 := by decide
  unfold vfsRead
  rw [if_neg (by simp [h]), hnode]
  change jurkvfsReadImpl retMachine retFiles retNode 0 1 out = _
  unfold jurkvfsReadImpl
  simp only [retNode, hsize]
  rfl

theorem retFiles_executable : Executable retMachine retFiles 1 retNode where
  nonnull := by decide
  node_eq := rfl
  length_pos := by decide
  length_le := by decide
  launches := by
    intro buffer out hbuffer
    refine ⟨1, _, vfsRead_retFiles hbuffer out, fun b hsize _ => ?_⟩
    unfold Buffer.Launches loaderProbe
    rw [if_pos (by omega)]
    change b.size ≠ 0
    omega

def manyPages : Pmm.State := pmmMarkRegion .x86_64 (pmmInit .x86_64 0x50000 fun _ => 0) 0x2000 0x4E000 false

theorem manyPages_run : Steps (Pmm.Step .x86_64) (pmmInit .x86_64 0x50000 fun _ => 0)
    [⟨.pmmMarkRegion 0x2000 0x4E000 false, 0⟩] manyPages := .single ⟨⟨by decide, by decide⟩, rfl⟩

def booted : ExecState := ⟨smallHeap.mem, ⟨emptyTables, []⟩⟩

theorem booted_reachable : Reachable (Kheap.Init smallArea) (Kheap.Step smallArea 256) ⟨booted.heap, []⟩ :=
  .start ⟨fun _ => 0, rfl⟩

def retEntry (_ : ℕ) (m : Mem) : ℤ × Mem := (0, m)

theorem loaderExec_steady_ret :
    ∃ run : ℕ → ExecState, run 0 = booted ∧
      (∀ k, ∃ ret, loaderExec retMachine retFiles smallArea 256 (framesOf .x86_64 manyPages) 0x1000 retEntry 1 (run k) =
        some (ret, run (k + 1))) ∧
      ((∀ k ≥ 1, freePages retMachine manyPages (run (k + 1)) = freePages retMachine manyPages (run k) ∧
          heapFree smallArea 256 (run (k + 1)).heap = heapFree smallArea 256 (run k).heap) ↔
        kmalloc .x86_64 64 256 smallHeap.mem 1 = some (0, smallHeap.mem) ∨
          freePages retMachine manyPages (run 1) = 0) :=
  loaderExec_steady_iff (K := retMachine) (by decide) manyPages_run booted_reachable (le_refl 256) (le_refl 4096)
    retFiles_executable

theorem loaderExec_leaks :
    ∃ run : ℕ → ExecState, run 0 = booted ∧
      (∀ k, ∃ ret, loaderExec retMachine retFiles smallArea 256 (framesOf .x86_64 manyPages) 0x1000 retEntry 1 (run k) =
        some (ret, run (k + 1))) ∧
      freePages retMachine manyPages (run 2) ≠ freePages retMachine manyPages (run 1) := by
  have hl : Kheap.Holds smallArea ⟨booted.heap, []⟩ [⟨232, true⟩] :=
    Kheap.init_holds smallArea fun _ => 0
  have halloc : alloc 24 16 (alignSize .x86_64 1) 4096 [⟨232, true⟩] = some (4096, [⟨16, false⟩, ⟨192, true⟩]) := by
    decide
  have hruns := rerun_room (framesOf .x86_64 manyPages) 0x1000 retEntry retFiles_executable hl (le_refl 256)
    (le_refl 4096) halloc
  set run := fun k =>
    (rerun retMachine retFiles smallArea 256 (framesOf .x86_64 manyPages) 0x1000 retEntry 1)^[k] booted
  refine ⟨run, rfl, fun k => (hruns k).1, ?_⟩
  have hpages (k : ℕ) : freePages retMachine manyPages (run k) = 78 - (run k).loader.tables.allocs := by
    have hfree : manyPages.freePages = 78 := by set_option maxRecDepth 10000 in decide
    rw [← hfree]
    exact freePages_eq (K := retMachine) (by decide) manyPages_run
  have hfew : (run 1).loader.tables.allocs ≤ 68 := by
    obtain ⟨-, b, buffer, out, out', ret, m, -, hbuffer, hread, hrun, -⟩ := loaderExec_room (framesOf .x86_64 manyPages)
      0x1000 retEntry retFiles_executable hl (le_refl 256) (le_refl 4096) halloc
    have hsize : 1 = b.size := congrArg Prod.fst (Option.some.inj ((vfsRead_retFiles hbuffer out).symm.trans hread))
    have hnext : run 1 = ⟨m, (loaderExecBuffer (framesOf .x86_64 manyPages) 0x1000 retEntry b booted.loader).2⟩ :=
      rerun_eq hrun
    have hle := loaderExecBuffer_flat (framesOf .x86_64 manyPages) 0x1000 retEntry (s := booted.loader)
      (b := b) (by omega)
    have hpagesNeeded : xecPages b = 1 := by
      unfold xecPages
      rw [← hsize]
      rfl
    rw [hpagesNeeded] at hle
    rw [hnext]
    exact hle
  have hmore : (run 1).loader.tables.allocs + 16 ≤ (run 2).loader.tables.allocs := (hruns 1).2.2
  rw [hpages, hpages]
  omega

end JurkOS.Kernel.Loader
