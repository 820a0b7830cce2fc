import JurkOS.Kernel.Fs.FileBytes
import JurkOS.Kernel.KheapRequests
import JurkOS.Kernel.Loader.Repeats

/-!
What `loader_exec` of `loader/loader.c` hands to `loader_exec_buffer`: the length
of a file is kept in its node, the count of the bytes comes from its volume.
-/

namespace JurkOS.Kernel.Loader

open Lib Lib.Memory Lib.FreeList Lib.Run Fs Kheap Paging Pmm

section Rejected

variable {a : Arch} {frame : ℕ → ℕ} {cr3 : ℕ} {appEntry : ℕ → Mem → ℤ × Mem} {b b' : Buffer a} {s : State}

theorem byteAt_of_lt {i : ℕ} (hi : i < b.size) : b.byteAt i = b.byte i := by
  have hsize := b.size_le
  apply congrArg b.byte
  apply Arch.wrap_of_lt
  omega

theorem launches_congr (hsize : b.size = b'.size) (hbytes : ∀ i < b.size, b.byte i = b'.byte i) (h : b.Launches) :
    b'.Launches := by
  have hbyteAt (i : ℕ) (hi : i < b.size) : b'.byteAt i = b.byteAt i := by
    rw [byteAt_of_lt hi, byteAt_of_lt (hsize ▸ hi), hbytes i hi]
  have hprobe : loaderProbe b' = loaderProbe b := by
    unfold loaderProbe
    rw [← hsize]
    by_cases hfour : b.size < 4
    · rw [if_pos hfour, if_pos hfour]
    rw [if_neg hfour, if_neg hfour, hbyteAt 0 (by omega), hbyteAt 1 (by omega), hbyteAt 2 (by omega),
      hbyteAt 3 (by omega)]
    by_cases hfive : 4 < b.size
    · rw [hbyteAt 4 hfive]
    · simp only [hfive, false_and, if_false]
  have hacc {c : ElfClass} (hc : 5 ≤ c.ehdrSize) (h : Accepted a c b) : Accepted a c b' := by
    obtain ⟨hlong, h0, h1, h2, h3, h4⟩ := h
    refine ⟨hsize ▸ hlong, ?_⟩
    rw [hbyteAt 0 (by omega), hbyteAt 1 (by omega), hbyteAt 2 (by omega), hbyteAt 3 (by omega), hbyteAt 4 (by omega)]
    exact ⟨h0, h1, h2, h3, h4⟩
  unfold Buffer.Launches at h ⊢
  rw [hprobe]
  cases hkind : loaderProbe b with
  | elf64 =>
    rw [hkind] at h
    exact hacc (by decide) h
  | elf32 =>
    rw [hkind] at h
    exact hacc (by decide) h
  | unknown =>
    rw [hkind] at h
    exact hsize ▸ h
  | xecFlat =>
    rw [hkind] at h
    exact hsize ▸ h

theorem loadBinary_rejects (h : ¬ b.Launches) : loadBinary frame cr3 b s = (none, s) := by
  unfold Buffer.Launches at h
  unfold loadBinary
  cases hkind : loaderProbe b with
  | elf64 =>
    rw [hkind] at h
    exact if_neg h
  | elf32 =>
    rw [hkind] at h
    exact if_neg h
  | unknown =>
    rw [hkind] at h
    exact if_pos (not_not.mp h)
  | xecFlat =>
    rw [hkind] at h
    exact if_pos (not_not.mp h)

theorem loaderExecBuffer_rejects (h : ¬ b.Launches) : loaderExecBuffer frame cr3 appEntry b s = (-1, s) := by
  unfold loaderExecBuffer
  rw [loadBinary_rejects h]

end Rejected

variable {σ : Type} (K : Machine σ) (v : Fs.State σ) (A : HeapArea K.arch) (fuel : ℕ) (frame : ℕ → ℕ) (cr3 : ℕ)
  (appEntry : ℕ → Mem → ℤ × Mem)

def readBinary (file : ℕ) (heap : Mem) : Option (Option (ℕ × Buffer K.arch) × Mem) :=
  if file = 0 then some (none, heap)
  else
    match v.nodes file with
    | none => none
    | some node =>
      if node.length = 0 then some (none, heap)
      else
        match kmalloc K.arch A.heapHead fuel heap node.length with
        | none => none
        | some (buffer, heap) =>
          if buffer = 0 then some (none, heap)
          else
            match vfsRead K v file 0 node.length buffer (fun i => heap (buffer + i)) with
            | none => none
            | some (bytesRead, out) =>
              let heap := copyOut out 0 node.length buffer heap
              if bytesRead = 0 then (kfree K.arch A.heapHead fuel heap buffer).map fun heap => (none, heap)
              else if h : bytesRead + PAGE_SIZE ≤ 2 ^ K.arch.wordBits then
                some (some (buffer, ⟨fun i => heap (K.arch.wrap (buffer + i)), bytesRead, h⟩), heap)
              else none

def execHanded (loader : State) : Option (ℕ × Buffer K.arch) × Mem → Option (ℤ × ExecState)
  | (none, heap) => some (-1, ⟨heap, loader⟩)
  | (some (buffer, b), heap) =>
    let r := loaderExecBuffer frame cr3 appEntry b loader
    (kfree K.arch A.heapHead fuel heap buffer).map fun heap => (r.1, ⟨heap, r.2⟩)

theorem loaderExec_eq_readBinary (file : ℕ) (s : ExecState) : loaderExec K v A fuel frame cr3 appEntry file s =
    (readBinary K v A fuel file s.heap).bind (execHanded K A fuel frame cr3 appEntry s.loader) := by
  unfold loaderExec readBinary
  by_cases hfile : file = 0
  · rw [if_pos hfile, if_pos hfile]
    rfl
  rw [if_neg hfile, if_neg hfile]
  cases v.nodes file with
  | none => rfl
  | some node =>
    by_cases hempty : node.length = 0
    · simp only [hempty, if_true]
      rfl
    simp only [hempty, if_false]
    cases kmalloc K.arch A.heapHead fuel s.heap node.length with
    | none => rfl
    | some r =>
      obtain ⟨buffer, heap⟩ := r
      by_cases hnull : buffer = 0
      · simp only [hnull, if_true]
        rfl
      simp only [hnull, if_false]
      cases vfsRead K v file 0 node.length buffer (fun i => heap (buffer + i)) with
      | none => rfl
      | some r =>
        obtain ⟨bytesRead, out⟩ := r
        dsimp only
        split_ifs
        · rw [Option.map_eq_bind, Option.bind_map]
          rfl
        · rfl
        · rfl

def RunsWhole (file : ℕ) (node : Node) (live : List (ℕ × ℕ)) (s : ExecState) : Prop :=
  ∃ handed heap ret t l, readBinary K v A fuel file s.heap = some (handed, heap) ∧
    loaderExec K v A fuel frame cr3 appEntry file s = some (ret, t) ∧
    Kheap.Holds A ⟨s.heap, live⟩ l ∧ Kheap.Holds A ⟨t.heap, live⟩ l ∧
    ((∃ buffer b, handed = some (buffer, b) ∧ b.size = node.length ∧
        ∀ k < node.length, b.byte k = fileByte K v node k) ∨
      ret = -1 ∧ t.loader = s.loader)

def Refused (node : Node) : Prop :=
  ∀ b : Buffer K.arch, (∀ k, k < b.size ↔ k < node.length ∧ HasByte K v node k) →
    (∀ k < b.size, b.byte k = fileByte K v node k) → ¬ b.Launches

variable {K v A fuel frame cr3 appEntry}
variable {s : ExecState} {live : List (ℕ × ℕ)} {l l' : List Block} {file q n : ℕ} {node : Node}

theorem length_le_SIZE_MAX (hx : VolumeFile K v node) : node.length ≤ K.arch.SIZE_MAX := by
  have hlt := hx.length_lt
  have hword : 2 ^ 32 ≤ 2 ^ K.arch.wordBits := Nat.pow_le_pow_right (by decide) (by cases K.arch <;> decide)
  rw [Arch.SIZE_MAX]
  omega

theorem readBinary_noRoom (hfile : file ≠ 0) (hnode : v.nodes file = some node)
    (hnull : kmalloc K.arch A.heapHead fuel s.heap node.length = some (0, s.heap)) :
    readBinary K v A fuel file s.heap = some (none, s.heap) := by
  unfold readBinary
  rw [if_neg hfile, hnode]
  simp only [hnull, if_true]
  split_ifs <;> rfl

-- The block is as long as what is read into it, also where the rounded length is not the length of the file.
theorem readBinary_room (hl : Kheap.Holds A ⟨s.heap, live⟩ l) (hfuel : A.size ≤ fuel) (hpage : PAGE_SIZE ≤ A.start)
    (hfile : file ≠ 0) (hnode : v.nodes file = some node) (hx : VolumeFile K v node) (hpos : 0 < node.length)
    (halloc : alloc (BLOCK_HEADER_SIZE K.arch) 16 (alignSize K.arch node.length) A.start l = some (q, l'))
    (hn : ∀ k, k < n ↔ k < node.length ∧ HasByte K v node k) (hfit : n ≤ alignSize K.arch node.length) :
    ∃ buffer m₁ heap m₃, kmalloc K.arch A.heapHead fuel s.heap node.length = some (buffer, m₁) ∧ buffer ≠ 0 ∧
      kfree K.arch A.heapHead fuel heap buffer = some m₃ ∧ Kheap.Holds A ⟨m₃, live⟩ l ∧
      (n = 0 → readBinary K v A fuel file s.heap = some (none, m₃)) ∧
      (0 < n → ∃ b, readBinary K v A fuel file s.heap = some (some (buffer, b), heap) ∧ b.size = n ∧
        ∀ k < n, b.byte k = fileByte K v node k) := by
  obtain ⟨m₁, hk, hstart, hinside, hback⟩ := kmalloc_serves_kfree hl hfuel hpos
    (fun b hb => request_split hl (length_le_SIZE_MAX hx) hb) hfit halloc
  have hnw := A.no_wrap
  set buffer := q + BLOCK_HEADER_SIZE K.arch with hbuffer
  have hnonnull : buffer ≠ 0 := by
    have := header_pos K.arch
    omega
  obtain ⟨n', out, hread, hn', hout⟩ := vfsRead_file hfile hnode hx hnonnull fun i => m₁ (buffer + i)
  obtain rfl : n' = n := eq_of_forall_lt_iff fun k => (hn' k).trans (hn k).symm
  have hshort : n' ≤ node.length := le_of_forall_lt fun k hk => ((hn k).mp hk).1
  set heap := copyOut out 0 node.length buffer m₁ with hheap
  have hch : ChangedIn (Span buffer n') m₁ heap := by
    intro x hout'
    change (if buffer ≤ x ∧ x < buffer + node.length then out (0 + (x - buffer)) else m₁ x) = m₁ x
    split_ifs with hin
    · have hfar : ¬ x - buffer < n' := fun hlt => hout' ⟨hin.1, by omega⟩
      rw [Nat.zero_add, hout, if_neg hfar, Nat.add_sub_cancel' hin.1]
    · rfl
  obtain ⟨m₃, hfree, hl₃⟩ := hback heap hch
  refine ⟨buffer, m₁, heap, m₃, hk, hnonnull, hfree, hl₃, fun hzero => ?_, fun hmore => ?_⟩
  · unfold readBinary
    rw [if_neg hfile, hnode]
    simp only [hpos.ne', hk, hnonnull, hread, hzero, ← hheap, if_true, if_false, hfree, Option.map_some]
  · have hsize : n' + PAGE_SIZE ≤ 2 ^ K.arch.wordBits := by omega
    refine ⟨⟨fun i => heap (K.arch.wrap (buffer + i)), n', hsize⟩, ?_, rfl, fun k hk => ?_⟩
    · unfold readBinary
      rw [if_neg hfile, hnode]
      simp only [hpos.ne', hk, hnonnull, hread, hmore.ne', ← hheap, if_false, hsize, dif_pos]
    · change heap (K.arch.wrap (buffer + k)) = _
      rw [Arch.wrap_of_lt (by omega), hheap, copyOut, if_pos (by omega), Nat.zero_add, Nat.add_sub_cancel_left, hout,
        if_pos hk]

variable (frame cr3 appEntry) in
theorem loaderExec_ends (hl : Kheap.Holds A ⟨s.heap, live⟩ l) (hfuel : A.size ≤ fuel) (hpage : PAGE_SIZE ≤ A.start)
    (hfile : file ≠ 0) (hnode : v.nodes file = some node) (hx : VolumeFile K v node)
    (hn : ∀ k, k < n ↔ k < node.length ∧ HasByte K v node k) (hfit : n ≤ alignSize K.arch node.length) :
    ((kmalloc K.arch A.heapHead fuel s.heap node.length = some (0, s.heap) ∨ n = 0) ∧
      ∃ m, readBinary K v A fuel file s.heap = some (none, m) ∧ Kheap.Holds A ⟨m, live⟩ l) ∨
    kmalloc K.arch A.heapHead fuel s.heap node.length ≠ some (0, s.heap) ∧ 0 < n ∧
      ∃ buffer b heap m, readBinary K v A fuel file s.heap = some (some (buffer, b), heap) ∧ b.size = n ∧
        (∀ k < n, b.byte k = fileByte K v node k) ∧
        loaderExec K v A fuel frame cr3 appEntry file s =
          some ((loaderExecBuffer frame cr3 appEntry b s.loader).1,
            ⟨m, (loaderExecBuffer frame cr3 appEntry b s.loader).2⟩) ∧
        Kheap.Holds A ⟨m, live⟩ l := by
  have hnone (hnull : kmalloc K.arch A.heapHead fuel s.heap node.length = some (0, s.heap)) :=
    readBinary_noRoom hfile hnode hnull
  by_cases hempty : node.length = 0
  · have hnull : kmalloc K.arch A.heapHead fuel s.heap node.length = some (0, s.heap) := by
      rw [hempty, kmalloc, if_pos rfl]
    left
    exact ⟨.inl hnull, s.heap, hnone hnull, hl⟩
  have hpos : 0 < node.length := Nat.pos_of_ne_zero hempty
  cases halloc : alloc (BLOCK_HEADER_SIZE K.arch) 16 (alignSize K.arch node.length) A.start l with
  | none =>
    have hnull := kmalloc_serves hl hfuel hpos (fun b hb => request_split hl (length_le_SIZE_MAX hx) hb)
      (Nat.zero_le _)
    rw [halloc] at hnull
    left
    exact ⟨.inl hnull, s.heap, hnone hnull, hl⟩
  | some r =>
    obtain ⟨q, l'⟩ := r
    obtain ⟨buffer, m₁, heap, m₃, hk, hnonnull, hfree, hl₃, hzero, hmore⟩ :=
      readBinary_room hl hfuel hpage hfile hnode hx hpos halloc hn hfit
    obtain rfl | hcount := Nat.eq_zero_or_pos n
    · left
      exact ⟨.inr rfl, m₃, hzero rfl, hl₃⟩
    · right
      obtain ⟨b, hread, hsize, hbytes⟩ := hmore hcount
      refine ⟨fun hnull => ?_, hcount, buffer, b, heap, m₃, hread, hsize, hbytes, ?_, hl₃⟩
      · rw [hk] at hnull
        cases hnull
        exact hnonnull rfl
      · rw [loaderExec_eq_readBinary, hread, Option.bind_some, execHanded, hfree]
        rfl

theorem runsWhole_of_none {m : Mem} (hread : readBinary K v A fuel file s.heap = some (none, m))
    (hl : Kheap.Holds A ⟨s.heap, live⟩ l) (hm : Kheap.Holds A ⟨m, live⟩ l) :
    RunsWhole K v A fuel frame cr3 appEntry file node live s := by
  refine ⟨none, m, -1, ⟨m, s.loader⟩, l, hread, ?_, hl, hm, .inr ⟨rfl, rfl⟩⟩
  rw [loaderExec_eq_readBinary, hread]
  rfl

-- A binary that is launched has the pages of its stack mapped.
theorem loaderExecBuffer_launches {b : Buffer K.arch} {loader : State} (h : b.Launches) :
    (loaderExecBuffer frame cr3 appEntry b loader).2 ≠ loader := by
  intro hsame
  have hpages : loader.tables.allocs + 16 ≤ (loaderExecBuffer frame cr3 appEntry b loader).2.tables.allocs :=
    loaderExecBuffer_allocs h
  rw [hsame] at hpages
  omega

theorem loaderExec_whole_iff (hheap : Reachable (Kheap.Init A) (Kheap.Step A fuel) ⟨s.heap, live⟩)
    (hfuel : A.size ≤ fuel) (hpage : PAGE_SIZE ≤ A.start) (hfile : file ≠ 0) (hnode : v.nodes file = some node)
    (hx : VolumeFile K v node) :
    (kmalloc K.arch A.heapHead fuel s.heap node.length = some (0, s.heap) ∨ ¬ HasByte K v node 0 →
      RunsWhole K v A fuel frame cr3 appEntry file node live s) ∧
    (node.length + 15 ≤ K.arch.SIZE_MAX →
      (RunsWhole K v A fuel frame cr3 appEntry file node live s ↔
        kmalloc K.arch A.heapHead fuel s.heap node.length = some (0, s.heap) ∨
          (∀ k < node.length, HasByte K v node k) ∨ Refused K v node)) := by
  obtain ⟨l, hl⟩ := reachable_holds hfuel hheap
  obtain ⟨n, -, -, hn, -⟩ := vfsRead_file hfile hnode hx Nat.one_ne_zero fun _ => 0
  have hends := loaderExec_ends frame cr3 appEntry hl hfuel hpage hfile hnode hx hn
  have hnothing (hno : kmalloc K.arch A.heapHead fuel s.heap node.length = some (0, s.heap) ∨ n = 0) :
      RunsWhole K v A fuel frame cr3 appEntry file node live s := by
    rcases hno with hnull | rfl
    · exact runsWhole_of_none (readBinary_noRoom hfile hnode hnull) hl hl
    · rcases hends (Nat.zero_le _) with ⟨-, m, hread, hm⟩ | ⟨-, hpos, -⟩
      · exact runsWhole_of_none hread hl hm
      · exact absurd hpos (lt_irrefl 0)
  constructor
  · rintro (hnull | hbad)
    · exact hnothing (.inl hnull)
    · apply hnothing
      right
      exact Nat.eq_zero_of_not_pos fun hlt => hbad ((hn 0).mp hlt).2
  intro hfits
  have hshort : n ≤ node.length := le_of_forall_lt fun k hk => ((hn k).mp hk).1
  have hfit : n ≤ alignSize K.arch node.length := by
    rw [alignSize_eq hfits]
    omega
  rcases hends hfit with ⟨hno, -⟩ | ⟨hroom, -, buffer, b, heap, m, hread, hsize, hbytes, hexec, hm⟩
  · apply iff_of_true (hnothing hno)
    rcases hno with hnull | rfl
    · exact .inl hnull
    · refine .inr (.inr fun b hb _ hlaunch => ?_)
      exact absurd ((hn 0).mpr ((hb 0).mp hlaunch.size_pos)) (Nat.lt_irrefl 0)
  constructor
  · rintro ⟨handed, heap', ret, t, l', hread', hexec', -, -, ⟨buffer', b', rfl, hsize', -⟩ | ⟨-, hsame⟩⟩
    · right
      left
      intro k hk
      rw [hread] at hread'
      cases hread'
      exact ((hn k).mp (by omega)).2
    · refine .inr (.inr fun b' hb' hbytes' hlaunch => ?_)
      rw [hexec] at hexec'
      cases hexec'
      apply loaderExecBuffer_launches _ hsame
      have hcount : b'.size = n := eq_of_forall_lt_iff fun k => (hb' k).trans (hn k).symm
      apply launches_congr (hcount.trans hsize.symm) _ hlaunch
      intro k hk
      rw [hbytes' k hk, hbytes k (hcount ▸ hk)]
  · rintro (hnull | hall | hrefused)
    · exact absurd hnull hroom
    · have hwhole : n = node.length := eq_of_forall_lt_iff fun k => (hn k).trans (and_iff_left_of_imp (hall k))
      rw [hwhole] at hsize hbytes
      exact ⟨_, heap, _, _, l, hread, hexec, hl, hm, .inl ⟨buffer, b, rfl, hsize, hbytes⟩⟩
    · refine ⟨_, heap, _, _, l, hread, hexec, hl, hm, .inr ?_⟩
      have hno := hrefused b (by rwa [hsize]) (by rwa [hsize])
      rw [loaderExecBuffer_rejects hno]
      exact ⟨rfl, rfl⟩

theorem loaderExec_whole_ret :
    RunsWhole retMachine retFiles smallArea 256 (framesOf .x86_64 manyPages) 0x1000 retEntry 1 retNode [] booted := by
  have hnode : retFiles.nodes 1 = some retNode := rfl
  have hx : VolumeFile retMachine retFiles retNode := .jurkvfs 0 rfl rfl (by decide)
  have hlength : retNode.length = 1 := rfl
  have hfits : retNode.length + 15 ≤ Arch.x86_64.SIZE_MAX := by
    rw [hlength]
    decide
  apply ((loaderExec_whole_iff (A := smallArea) booted_reachable (le_refl 256) (le_refl 4096) one_ne_zero hnode
    hx).2 hfits).mpr
  exact .inr (.inl fun k hk => trivial)

def wideArea : HeapArea .x86_64 where
  start := 12288
  size := 1024
  heapHead := 96
  start_pos := by decide
  header_lt := by decide
  no_wrap := by decide
  head_no_wrap := by decide
  head_apart := by decide

def wideHeap : ExecState := ⟨kheapInit .x86_64 96 12288 1024 fun _ => 0, ⟨emptyTables, []⟩⟩

def cutNode : Node where
  flags := VFS_FILE
  length := 600
  read := some .fat32
  devicePriv := some (.fat32 2 600)

def cutFiles : Fs.State ℕ := { twoClusterState with nodes := Function.update (fun _ => none) 1 (some cutNode) }

theorem cutNode_volume : VolumeFile twoClusterMachine cutFiles cutNode := by
  have hfat : cutFiles.currentFat = twoClusterState.currentFat := by rw [cutFiles]
  apply VolumeFile.fat32 2 0x100000 2048 rfl
  · simp [cutNode]
  · simp [cutNode]
  · rw [hfat]
    exact twoCluster_volume

theorem cutNode_bytes (k : ℕ) : k < 512 ↔ k < cutNode.length ∧ HasByte twoClusterMachine cutFiles cutNode k := by
  have hsize : cutFiles.currentFat.clusterSize = 512 := by decide
  have hnext : chainCluster twoClusterMachine.mem cutFiles.currentFat 2 1 = 0x0FFFFFFF := by decide
  change _ ↔ k < 600 ∧ ChainHolds twoClusterMachine.mem cutFiles.currentFat 2 0 k
  unfold ChainHolds
  rw [hsize]
  constructor
  · intro hk
    refine ⟨by omega, fun j hj => ?_⟩
    obtain rfl : j = 0 := by omega
    exact ⟨by decide, fun _ => by decide⟩
  · rintro ⟨hk, hchain⟩
    by_contra hfar
    have hend := (hchain 1 (by omega)).1
    rw [hnext] at hend
    omega

theorem loaderExec_runs_part : Reachable (Kheap.Init wideArea) (Kheap.Step wideArea 1024) ⟨wideHeap.heap, []⟩ ∧
    cutFiles.nodes 1 = some cutNode ∧ VolumeFile twoClusterMachine cutFiles cutNode ∧
    ¬ RunsWhole twoClusterMachine cutFiles wideArea 1024 (framesOf .x86_64 manyPages) 0x1000 retEntry 1 cutNode []
      wideHeap := by
  refine ⟨.start ⟨fun _ => 0, rfl⟩, rfl, cutNode_volume, ?_⟩
  rintro ⟨handed, heap', ret, t, l, hread', hexec', hl, -, hrun⟩
  have hnode : cutFiles.nodes 1 = some cutNode := rfl
  have hfit : 512 ≤ alignSize .x86_64 cutNode.length := by decide
  rcases loaderExec_ends (framesOf .x86_64 manyPages) 0x1000 retEntry hl (le_refl 1024) (by decide) (by decide) hnode
    cutNode_volume cutNode_bytes hfit with ⟨hno, -⟩ | ⟨-, -, buffer, b, heap, m, hread, hsize, hbytes, hexec, -⟩
  · have hblock : (kmalloc .x86_64 96 1024 wideHeap.heap 600).map Prod.fst = some 12312 := by decide
    rcases hno with hnull | hzero
    · change kmalloc .x86_64 96 1024 wideHeap.heap 600 = _ at hnull
      rw [hnull] at hblock
      cases hblock
    · cases hzero
  · rw [hread] at hread'
    cases hread'
    rcases hrun with ⟨buffer', b', hb, hlong, -⟩ | ⟨-, hsame⟩
    · cases hb
      rw [hsize] at hlong
      cases hlong
    · rw [hexec] at hexec'
      cases hexec'
      apply loaderExecBuffer_launches _ hsame
      have hfirst : b.byteAt 0 ≠ 0x7F := by
        rw [byteAt_of_lt (by omega), hbytes 0 (by decide)]
        decide
      have hprobe : loaderProbe b = .xecFlat := by
        unfold loaderProbe
        rw [if_neg (by omega), if_neg fun h => hfirst h.1]
      unfold Buffer.Launches
      rw [hprobe]
      change b.size ≠ 0
      omega

end JurkOS.Kernel.Loader
