import JurkOS.Kernel.Fs.Read
import JurkOS.Kernel.Fs.Readdir
import JurkOS.Lib.Traced

/-!
What the drivers read of their disks, load by load.
-/

namespace JurkOS.Kernel.Fs

open Lib Lib.Libc Lib.Memory Lib.Traced

def memcmpReads (m : Mem) : ℕ → List UInt8 → Traced Bool
  | _, [] => pure true
  | p, c :: l => do
    let c' ← peek m p
    if c' = c then memcmpReads m (p + 1) l else pure false

/-! ### FAT32 -/

section Fat32

variable (m : Mem)

def partitionLbaReads (raw : ℕ) : Traced ℕ := do
  let low ← peek m (raw + 510)
  if low ≠ 0x55 then pure 0
  else do
    let high ← peek m (raw + 511)
    if high ≠ 0xAA then pure 0
    else do
      let partType ← peek m (raw + 450)
      if partType = 0x0B ∨ partType = 0x0C then word m (raw + 454) 4 else pure 0

def fat32VolumeReads (diskData : ℕ) : Traced Unit := do
  let lba ← partitionLbaReads m diskData
  let bpb := diskData + wrap32 (lba * 512)
  let _ ← word m (bpb + 11) 2
  let _ ← word m (bpb + 13) 1
  let _ ← memcmpReads m (bpb + 82) (bytes "FAT32   ")
  let _ ← word m (bpb + 44) 4
  let _ ← word m (bpb + 14) 2
  let _ ← word m (bpb + 36) 4
  let _ ← word m (bpb + 16) 1
  pure ()

variable (fs : Fat32Fs)

def fatEntryOffset (cluster : ℕ) : ℕ :=
  let fatOffset := wrap32 (cluster * 4)
  wrap32 (wrap32 (fs.fatStartSector + fatOffset / fs.bytesPerSector) * fs.bytesPerSector) +
    fatOffset % fs.bytesPerSector

def clusterOffset (cluster : ℕ) : ℕ :=
  wrap32 (wrap32 (fs.dataStartSector + wrap32 ((cluster - 2) * fs.sectorsPerCluster)) * fs.bytesPerSector)

def nextClusterReads (cluster : ℕ) : Traced ℕ := do
  let next ← word m (fs.diskBase + fatEntryOffset fs cluster) 4
  pure (next &&& 0x0FFFFFFF)

def Hidden (e : ℕ) : Prop := m (e + 11) = FAT_ATTR_LFN ∨ m (e + 11) &&& FAT_ATTR_VOLUME_ID ≠ 0

instance (e : ℕ) : Decidable (Hidden m e) := inferInstanceAs (Decidable (_ ∨ _))

section Slots

variable {α : Type} (visit : α → ℕ → Traced (Option α))

/-- A turn of the loop over the slots of a cluster: state and offset of the slot. `visit` deals with the
entries that are neither deleted nor hidden, and stops at one by `none`. -/
def slotReads (s : α × ℕ) : Traced ((α × ℕ) ⊕ Option ℕ) := do
  let e := fs.diskBase + s.2
  let first ← peek m e
  if first = 0x00 then pure (.inr none)
  else if first = 0xE5 then pure (.inl (s.1, s.2 + 32))
  else do
    let _ ← peek m (e + 11)
    if Hidden m e then pure (.inl (s.1, s.2 + 32))
    else do
      match ← visit s.1 e with
      | none => pure (.inr (some e))
      | some x => pure (.inl (x, s.2 + 32))

def scanReads (x : α) (cluster : ℕ) : Traced ((α × ℕ) ⊕ Option ℕ) :=
  loop (slotReads m fs visit) (fs.clusterSize / 32) (x, clusterOffset fs cluster)

def clusterReads (s : ℕ × α) : Traced ((ℕ × α) ⊕ Option ℕ) :=
  if 2 ≤ s.1 ∧ s.1 < 0x0FFFFFF8 then do
    match ← scanReads m fs visit s.2 s.1 with
    | .inl x => do
      let next ← nextClusterReads m fs s.1
      pure (.inl (next, x.1))
    | .inr e => pure (.inr e)
  else pure (.inr none)

end Slots

def finddirVisit (name : Name) (_ : Unit) (e : ℕ) : Traced (Option Unit) := do
  let raw ← block m e 11
  if fat32FormatName raw = name then do
    let _ ← word m (e + 20) 2
    let _ ← word m (e + 26) 2
    let _ ← word m (e + 28) 4
    pure none
  else pure (some ())

def readdirVisit (index currentMatch e : ℕ) : Traced (Option ℕ) := do
  let first ← peek m e
  if first = 0x2E then pure (some currentMatch)
  else if currentMatch = index then do
    let _ ← block m e 11
    let _ ← word m (e + 20) 2
    let _ ← word m (e + 26) 2
    pure none
  else pure (some (wrap32 (currentMatch + 1)))

def skipReads (skip cluster : ℕ) : Traced (ℕ ⊕ ℕ) :=
  loop (fun c => if c < 0x0FFFFFF8 then do
    let next ← nextClusterReads m fs c
    pure (.inl next)
  else pure (.inr c)) skip cluster

structure CopyState where
  bytesRead : ℕ
  cluster : ℕ
  clusterOffset : ℕ
  out : Mem

def CopyState.count (size : ℕ) (s : CopyState) : ℕ := min (fs.clusterSize - s.clusterOffset) (size - s.bytesRead)

def copyReads (size : ℕ) (s : CopyState) : Traced (CopyState ⊕ ℕ × Mem) :=
  if s.bytesRead < size ∧ 2 ≤ s.cluster ∧ s.cluster < 0x0FFFFFF8 then do
    let src := fs.diskBase + clusterOffset fs s.cluster + s.clusterOffset
    let n := s.count fs size
    let _ ← block m src n
    let next ← nextClusterReads m fs s.cluster
    pure (.inl ⟨s.bytesRead + n, next, 0, copyOut m src n s.bytesRead s.out⟩)
  else pure (.inr (s.bytesRead, s.out))

def fileReads (firstCluster fileSize offset size : ℕ) (out : Mem) : Traced (CopyState ⊕ ℕ × Mem) :=
  if fileSize ≤ offset then pure (.inr (0, out))
  else do
    let size := if fileSize < wrap32 (offset + size) then fileSize - offset else size
    let start ← skipReads m fs (offset / fs.clusterSize) firstCluster
    loop (copyReads m fs size) (size + 1) ⟨0, start.elim id id, offset % fs.clusterSize, out⟩

/-! ### The values are those of the driver -/

variable {m fs}

theorem value_partitionLbaReads (raw : ℕ) : (partitionLbaReads m raw).value = partitionLba m raw := by
  unfold partitionLbaReads partitionLba
  simp only [value_bind, value_ite, value_pure]
  by_cases hlow : m (raw + 510) = 0x55
  · by_cases hhigh : m (raw + 511) = 0xAA
    · simp [hlow, hhigh, Nat.add_assoc]
    · simp [hhigh]
  · simp [hlow]

theorem value_nextClusterReads (c : ℕ) : (nextClusterReads m fs c).value = fat32GetNextCluster m fs c := by
  unfold nextClusterReads fatEntryOffset fat32GetNextCluster
  simp only [value_bind, value_pure, Nat.add_assoc]

theorem fat32GetClusterPtr_eq {c : ℕ} (h : 2 ≤ c) :
    fat32GetClusterPtr fs c = some (fs.diskBase + clusterOffset fs c) := if_neg (by omega)

section Slots

variable {α : Type} {visit : α → ℕ → Traced (Option α)}

variable (m fs visit) in
theorem value_slotReads (x : α) (o : ℕ) : (slotReads m fs visit (x, o)).value =
    if m (fs.diskBase + o) = 0 then .inr none
    else if m (fs.diskBase + o) = 0xE5 ∨ Hidden m (fs.diskBase + o) then .inl (x, o + 32)
    else match (visit x (fs.diskBase + o)).value with
      | none => .inr (some (fs.diskBase + o))
      | some y => .inl (y, o + 32) := by
  unfold slotReads
  simp only [value_bind, value_ite, value_pure]
  by_cases hend : m (fs.diskBase + o) = 0
  · rw [if_pos hend, if_pos hend]
  rw [if_neg hend, if_neg hend]
  by_cases hdeleted : m (fs.diskBase + o) = 0xE5
  · rw [if_pos hdeleted, if_pos (Or.inl hdeleted)]
  by_cases hhidden : Hidden m (fs.diskBase + o)
  · rw [if_neg hdeleted, if_pos hhidden, if_pos (Or.inr hhidden)]
  rw [if_neg hdeleted, if_neg hhidden, if_neg (not_or.mpr ⟨hdeleted, hhidden⟩)]
  cases (visit x (fs.diskBase + o)).value <;> rfl

end Slots

theorem value_finddirVisit (name : Name) (x : Unit) (e : ℕ) : (finddirVisit m name x e).value =
    if fat32FormatName (bytesAt m e 11) = name then none else some () := by
  unfold finddirVisit
  simp only [value_bind, value_ite, value_pure]
  rfl

theorem value_readdirVisit (index cm e : ℕ) : (readdirVisit m index cm e).value =
    if m e = 0x2E then some cm else if cm = index then none else some (wrap32 (cm + 1)) := by
  unfold readdirVisit
  simp only [value_bind, value_ite, value_pure]

def Scan.ofLoop : (Unit × ℕ) ⊕ Option ℕ → Scan
  | .inl _ => .more
  | .inr none => .ended
  | .inr (some e) => .found e

def ReaddirScan.ofLoop : (ℕ × ℕ) ⊕ Option ℕ → ReaddirScan
  | .inl x => .more x.1
  | .inr none => .ended
  | .inr (some e) => .found e

section Slots

variable {α : Type} {visit : α → ℕ → Traced (Option α)}

variable (m fs visit) in
theorem value_loop_slotReads (n : ℕ) (x : α) (o : ℕ) : (loop (slotReads m fs visit) (n + 1) (x, o)).value =
    if m (fs.diskBase + o) = 0 then .inr none
    else if m (fs.diskBase + o) = 0xE5 ∨ Hidden m (fs.diskBase + o) then
      (loop (slotReads m fs visit) n (x, o + 32)).value
    else match (visit x (fs.diskBase + o)).value with
      | none => .inr (some (fs.diskBase + o))
      | some y => (loop (slotReads m fs visit) n (y, o + 32)).value := by
  have hslot := value_slotReads m fs visit x o
  split_ifs at hslot ⊢ with hend hskip
  · exact value_loop_inr hslot
  · exact value_loop_inl hslot
  · cases hvisit : (visit x (fs.diskBase + o)).value with
    | none =>
      rw [hvisit] at hslot
      exact value_loop_inr hslot
    | some y =>
      rw [hvisit] at hslot
      exact value_loop_inl hslot

end Slots

theorem scanCluster_succ (name : Name) (n e : ℕ) : scanCluster m name (n + 1) e =
    if m e = 0 then .ended
    else if m e = 0xE5 ∨ Hidden m e then scanCluster m name n (e + 32)
    else if fat32FormatName (bytesAt m e 11) = name then .found e
    else scanCluster m name n (e + 32) := by
  by_cases hdeleted : m e = 0xE5
  · simp [scanCluster, hdeleted]
  by_cases hlfn : m (e + 11) = FAT_ATTR_LFN
  · simp [scanCluster, Hidden, hlfn]
  by_cases hlabel : m (e + 11) &&& FAT_ATTR_VOLUME_ID = 0
  · simp [scanCluster, Hidden, hdeleted, hlfn, hlabel]
  · simp [scanCluster, Hidden, hlabel]

theorem readdirCluster_succ (index n e cm : ℕ) : readdirCluster m index (n + 1) e cm =
    if m e = 0 then .ended
    else if m e = 0xE5 ∨ Hidden m e then readdirCluster m index n (e + 32) cm
    else if m e = 0x2E then readdirCluster m index n (e + 32) cm
    else if cm = index then .found e
    else readdirCluster m index n (e + 32) (wrap32 (cm + 1)) := by
  by_cases hdeleted : m e = 0xE5
  · simp [readdirCluster, hdeleted]
  by_cases hlfn : m (e + 11) = FAT_ATTR_LFN
  · simp [readdirCluster, Hidden, hlfn]
  by_cases hlabel : m (e + 11) &&& FAT_ATTR_VOLUME_ID = 0
  · simp [readdirCluster, Hidden, hdeleted, hlfn, hlabel]
  · simp [readdirCluster, Hidden, hlabel]

theorem scanCluster_reads (name : Name) (n o : ℕ) : scanCluster m name n (fs.diskBase + o) =
    .ofLoop (loop (slotReads m fs (finddirVisit m name)) n ((), o)).value := by
  induction n generalizing o with
  | zero => rfl
  | succ n ih =>
    have hrest := ih (o + 32)
    rw [← Nat.add_assoc] at hrest
    rw [scanCluster_succ, value_loop_slotReads, value_finddirVisit, hrest]
    split_ifs <;> rfl

theorem readdirCluster_reads (index n o cm : ℕ) : readdirCluster m index n (fs.diskBase + o) cm =
    .ofLoop (loop (slotReads m fs (readdirVisit m index)) n (cm, o)).value := by
  induction n generalizing o cm with
  | zero => rfl
  | succ n ih =>
    have hrest (cm' : ℕ) := ih (o + 32) cm'
    simp only [← Nat.add_assoc] at hrest
    rw [readdirCluster_succ, value_loop_slotReads, value_readdirVisit, hrest, hrest]
    split_ifs <;> rfl

section Clusters

variable {α : Type} {visit : α → ℕ → Traced (Option α)}

variable (m fs visit) in
theorem value_loop_clusterReads (fuel c : ℕ) (x : α) : (loop (clusterReads m fs visit) (fuel + 1) (c, x)).value =
    if 2 ≤ c ∧ c < 0x0FFFFFF8 then
      match (scanReads m fs visit x c).value with
      | .inl y => (loop (clusterReads m fs visit) fuel (fat32GetNextCluster m fs c, y.1)).value
      | .inr e => .inr e
    else .inr none := by
  split_ifs with hdata
  · cases hscan : (scanReads m fs visit x c).value with
    | inl y =>
      apply value_loop_inl
      unfold clusterReads
      rw [if_pos hdata, value_bind, hscan]
      simp only [value_bind, value_pure]
      rw [value_nextClusterReads]
    | inr e =>
      apply value_loop_inr
      unfold clusterReads
      rw [if_pos hdata, value_bind, hscan]
      rfl
  · apply value_loop_inr
    unfold clusterReads
    rw [if_neg hdata]
    rfl

end Clusters

variable (fs) in
theorem clusterPtr_cases (c : ℕ) : (2 ≤ c ∧ c < 0x0FFFFFF8) ∧ fat32GetClusterPtr fs c =
      some (fs.diskBase + clusterOffset fs c) ∨
    ¬ (2 ≤ c ∧ c < 0x0FFFFFF8) ∧ (c < 0x0FFFFFF8 → fat32GetClusterPtr fs c = none) := by
  by_cases hdata : 2 ≤ c ∧ c < 0x0FFFFFF8
  · exact Or.inl ⟨hdata, fat32GetClusterPtr_eq hdata.1⟩
  · exact Or.inr ⟨hdata, fun hend => if_pos (by omega)⟩

theorem finddirLoop_reads (name : Name) (fuel c : ℕ) : finddirLoop m fs name fuel c =
    (loop (clusterReads m fs (finddirVisit m name)) fuel (c, ())).value.elim (fun _ => none) some := by
  induction fuel generalizing c with
  | zero => rfl
  | succ fuel ih =>
    rw [value_loop_clusterReads]
    unfold finddirLoop
    obtain ⟨hdata, hptr⟩ | ⟨hdata, hptr⟩ := clusterPtr_cases fs c
    · have hscan : scanCluster m name (fs.clusterSize / 32) (fs.diskBase + clusterOffset fs c) =
          .ofLoop (scanReads m fs (finddirVisit m name) () c).value := scanCluster_reads name _ _
      rw [if_pos hdata.2, if_pos hdata, hptr]
      dsimp only
      rw [hscan]
      cases (scanReads m fs (finddirVisit m name) () c).value with
      | inl y => exact ih _
      | inr e => cases e <;> rfl
    · rw [if_neg hdata]
      split_ifs with hend
      · rw [hptr hend]
        rfl
      · rfl

theorem readdirLoop_reads (index fuel c cm : ℕ) : readdirLoop m fs index fuel c cm =
    (loop (clusterReads m fs (readdirVisit m index)) fuel (c, cm)).value.elim (fun _ => none) some := by
  induction fuel generalizing c cm with
  | zero => rfl
  | succ fuel ih =>
    rw [value_loop_clusterReads]
    unfold readdirLoop
    obtain ⟨hdata, hptr⟩ | ⟨hdata, hptr⟩ := clusterPtr_cases fs c
    · have hscan : readdirCluster m index (fs.clusterSize / 32) (fs.diskBase + clusterOffset fs c) cm =
          .ofLoop (scanReads m fs (readdirVisit m index) cm c).value := readdirCluster_reads index _ _ _
      rw [if_pos hdata.2, if_pos hdata, hptr]
      dsimp only
      rw [hscan]
      cases (scanReads m fs (readdirVisit m index) cm c).value with
      | inl y => exact ih _ _
      | inr e => cases e <;> rfl
    · rw [if_neg hdata]
      split_ifs with hend
      · rw [hptr hend]
        rfl
      · rfl

theorem skipLoop_reads (skip c : ℕ) : skipLoop m fs skip c = (skipReads m fs skip c).value.elim id id := by
  induction skip generalizing c with
  | zero => rfl
  | succ skip ih =>
    unfold skipLoop skipReads
    by_cases hend : c < 0x0FFFFFF8
    · rw [if_pos hend, value_loop_inl (y := fat32GetNextCluster m fs c), ih]
      · rfl
      · rw [if_pos hend]
        simp only [value_bind, value_pure]
        rw [value_nextClusterReads]
    · rw [if_neg hend, value_loop_inr (r := c)]
      · rfl
      · rw [if_neg hend]
        rfl

theorem readLoop_reads (size fuel : ℕ) (s : CopyState) :
    readLoop m fs size fuel s.bytesRead s.cluster s.clusterOffset s.out =
      (loop (copyReads m fs size) fuel s).value.elim (fun _ => none) some := by
  induction fuel generalizing s with
  | zero => rfl
  | succ fuel ih =>
    have hdone (h : ¬ (s.bytesRead < size ∧ 2 ≤ s.cluster ∧ s.cluster < 0x0FFFFFF8)) :
        some (s.bytesRead, s.out) = (loop (copyReads m fs size) (fuel + 1) s).value.elim (fun _ => none) some := by
      rw [value_loop_inr (r := (s.bytesRead, s.out))]
      · rfl
      · unfold copyReads
        rw [if_neg h]
        rfl
    unfold readLoop
    split_ifs with hmore
    · by_cases htwo : 2 ≤ s.cluster
      · rw [fat32GetClusterPtr_eq htwo]
        dsimp only
        have hturn : (copyReads m fs size s).value = .inl ⟨s.bytesRead + s.count fs size,
            fat32GetNextCluster m fs s.cluster, 0, copyOut m (fs.diskBase + clusterOffset fs s.cluster +
              s.clusterOffset) (s.count fs size) s.bytesRead s.out⟩ := by
          unfold copyReads
          rw [if_pos ⟨hmore.1, htwo, hmore.2⟩]
          simp only [value_bind, value_pure]
          rw [value_nextClusterReads]
        rw [value_loop_inl hturn, ← ih]
        rfl
      · have hnone : fat32GetClusterPtr fs s.cluster = none := if_pos (by omega)
        rw [hnone]
        exact hdone fun h => htwo h.2.1
    · exact hdone fun h => hmore ⟨h.1, h.2.2⟩

theorem fat32ReadImpl_reads {σ : Type} (K : Machine σ) (s : State σ) {node : Node} {c fileSize : ℕ}
    (h : node.devicePriv = some (.fat32 c fileSize)) (offset size : ℕ) (out : Mem) :
    fat32ReadImpl K s node offset size out =
      (fileReads K.mem s.currentFat c fileSize offset size out).value.elim (fun _ => none) some := by
  unfold fat32ReadImpl fileReads
  rw [h]
  dsimp only
  split_ifs with hend
  · rfl
  all_goals
    rw [skipLoop_reads, value_bind]
    exact readLoop_reads _ _ ⟨0, _, _, out⟩

end Fat32

/-! ### JurkVFS -/

section Jurkvfs

variable (m : Mem)

def jurkvfsVolumeReads (diskImage : ℕ) : Traced Unit := do
  let _ ← memcmpReads m diskImage JURKVFS_MAGIC
  let _ ← word m (diskImage + 20) 4
  let _ ← word m (diskImage + 16) 4
  let _ ← word m (diskImage + 24) 4
  pure ()

def strcmpReads : ℕ → Name → Traced Bool
  | p, [] => do
    let c ← peek m p
    pure (c = 0)
  | p, c :: name => do
    let c' ← peek m p
    if c' = c then strcmpReads (p + 1) name else pure false

def strcpyReads : ℕ → ℕ → Traced (Option Name)
  | _, 0 => pure none
  | p, n + 1 => do
    let c ← peek m p
    if c = 0 then pure (some [])
    else do
      let name ← strcpyReads (p + 1) n
      pure (name.map (c :: ·))

variable (fs : JurkvfsFs)

/-- What `jurkvfs_create_vfs_node` reads, up to an overrun of the name. -/
def nodeReads (i : ℕ) : Traced (Option Name) := do
  let name ← strcpyReads m (jurkvfsInode fs i) FS_MAX_NAME
  let _ ← word m (jurkvfsInode fs i + 68) 4
  let _ ← word m (jurkvfsInode fs i + 64) 4
  pure name

section Inodes

variable {α : Type} (visit : α → ℕ → Traced (Option α))

/-- A turn of the loops over the inode table. `visit` deals with the children of `parent`. -/
def inodeReads (parent : ℕ) (s : α × ℕ) : Traced ((α × ℕ) ⊕ ℕ) := do
  let p ← word m (jurkvfsInode fs s.2 + 76) 4
  if p = parent ∧ s.2 ≠ parent then do
    match ← visit s.1 s.2 with
    | none => pure (.inr s.2)
    | some x => pure (.inl (x, s.2 + 1))
  else pure (.inl (s.1, s.2 + 1))

def tableReads (parent : ℕ) (x : α) : Traced ((α × ℕ) ⊕ ℕ) := do
  let total ← word m (fs.header + 16) 4
  loop (inodeReads m fs visit parent) total (x, 0)

end Inodes

def finddirNode (name : Name) (_ : Unit) (i : ℕ) : Traced (Option Unit) := do
  let same ← strcmpReads m (jurkvfsInode fs i) name
  if same then do
    let _ ← nodeReads m fs i
    pure none
  else pure (some ())

def readdirNode (index currentMatch i : ℕ) : Traced (Option ℕ) :=
  if currentMatch = index then do
    let _ ← strcpyReads m (jurkvfsInode fs i) FS_MAX_NAME
    let _ ← word m (jurkvfsInode fs i + 64) 4
    pure none
  else pure (some (wrap32 (currentMatch + 1)))

def dataReads (i offset size : ℕ) (out : Mem) : Traced (ℕ × Mem) := do
  let inodeSize ← word m (jurkvfsInode fs i + 68) 4
  if inodeSize ≤ offset then pure (0, out)
  else do
    let size := if inodeSize < wrap32 (offset + size) then inodeSize - offset else size
    let base ← word m (fs.header + 24) 4
    let inodeOffset ← word m (jurkvfsInode fs i + 72) 4
    let src := fs.diskData + base + inodeOffset + offset
    let _ ← block m src size
    pure (size, copyOut m src size 0 out)

/-! ### The values are those of the driver -/

variable {m fs}

theorem strcmpEq_reads (p : ℕ) (name : Name) : strcmpEq m p name = (strcmpReads m p name).value := by
  induction name generalizing p with
  | nil => rfl
  | cons c name ih =>
    unfold strcmpEq strcmpReads
    simp only [value_bind, value_ite, value_pure]
    by_cases hc : m p = c
    · rw [if_pos hc, ih, decide_eq_true hc, Bool.true_and]
    · rw [if_neg hc, decide_eq_false hc, Bool.false_and]

theorem strcpyFrom_reads (p n : ℕ) : strcpyFrom m p n = (strcpyReads m p n).value := by
  induction n generalizing p with
  | zero => rfl
  | succ n ih =>
    unfold strcpyFrom strcpyReads
    simp only [value_bind, value_ite, value_pure]
    rw [ih]

theorem value_nodeReads (i : ℕ) : (nodeReads m fs i).value = strcpyFrom m (jurkvfsInode fs i) FS_MAX_NAME :=
  (strcpyFrom_reads _ _).symm

section Inodes

variable {α : Type} {visit : α → ℕ → Traced (Option α)} {parent : ℕ}

abbrev Child (m : Mem) (fs : JurkvfsFs) (parent i : ℕ) : Prop :=
  load m (jurkvfsInode fs i + 76) 4 = parent ∧ i ≠ parent

variable (m fs visit parent) in
theorem value_inodeReads (x : α) (i : ℕ) : (inodeReads m fs visit parent (x, i)).value =
    if Child m fs parent i then
      match (visit x i).value with
      | none => .inr i
      | some y => .inl (y, i + 1)
    else .inl (x, i + 1) := by
  unfold inodeReads
  simp only [value_bind, value_ite, value_pure]
  by_cases hchild : Child m fs parent i
  · rw [if_pos hchild, if_pos hchild]
    cases (visit x i).value <;> rfl
  · rw [if_neg hchild, if_neg hchild]

end Inodes

theorem value_finddirNode (name : Name) (x : Unit) (i : ℕ) : (finddirNode m fs name x i).value =
    if strcmpEq m (jurkvfsInode fs i) name then none else some () := by
  unfold finddirNode
  simp only [value_bind, value_ite, value_pure]
  rw [strcmpEq_reads]

theorem value_readdirNode (index cm i : ℕ) : (readdirNode m fs index cm i).value =
    if cm = index then none else some (wrap32 (cm + 1)) := by
  unfold readdirNode
  simp only [value_bind, value_ite, value_pure]

theorem finddirInode_reads (parent : ℕ) (name : Name) (n i : ℕ) : finddirInode m fs parent name n i =
    (loop (inodeReads m fs (finddirNode m fs name) parent) n ((), i)).value.elim (fun _ => none) some := by
  induction n generalizing i with
  | zero => rfl
  | succ n ih =>
    have hturn := value_inodeReads m fs (finddirNode m fs name) parent () i
    rw [value_finddirNode] at hturn
    unfold finddirInode
    split_ifs with hfound
    · rw [if_pos ⟨hfound.1, hfound.2.1⟩, if_pos hfound.2.2] at hturn
      rw [value_loop_inr hturn]
      rfl
    · have hnext : (inodeReads m fs (finddirNode m fs name) parent ((), i)).value = .inl ((), i + 1) := by
        rw [hturn]
        split_ifs with hchild hname
        · exact absurd ⟨hchild.1, hchild.2, hname⟩ hfound
        · rfl
        · rfl
      rw [value_loop_inl hnext]
      exact ih _

theorem readdirInode_reads (parent index n i cm : ℕ) : readdirInode m fs parent index n i cm =
    (loop (inodeReads m fs (readdirNode m fs index) parent) n (cm, i)).value.elim (fun _ => none) some := by
  induction n generalizing i cm with
  | zero => rfl
  | succ n ih =>
    have hturn := value_inodeReads m fs (readdirNode m fs index) parent cm i
    rw [value_readdirNode] at hturn
    unfold readdirInode
    split_ifs with hchild hindex
    · rw [if_pos hchild, if_pos hindex] at hturn
      rw [value_loop_inr hturn]
      rfl
    · rw [if_pos hchild, if_neg hindex] at hturn
      rw [value_loop_inl hturn]
      exact ih _ _
    · rw [if_neg hchild] at hturn
      rw [value_loop_inl hturn]
      exact ih _ _

theorem jurkvfsReadImpl_reads {σ : Type} (K : Machine σ) (s : State σ) {node : Node} {i : ℕ}
    (h : node.devicePriv = some (.jurkvfs i)) (offset size : ℕ) (out : Mem) :
    jurkvfsReadImpl K s node offset size out = some (dataReads K.mem s.currentFs i offset size out).value := by
  unfold jurkvfsReadImpl dataReads
  rw [h]
  dsimp only
  simp only [value_bind, value_ite, value_pure]
  split_ifs
  all_goals rfl

end Jurkvfs

end JurkOS.Kernel.Fs
