import JurkOS.Kernel.Fs.Vfs

/-!
Reading files: `vfs_read` and the read handlers of the two volumes. The buffer
of the caller is an object of its own, `out` is what it holds.
-/

namespace JurkOS.Kernel.Fs

open Lib.Libc Lib.Memory

variable {σ : Type} (K : Machine σ)

/-- `memcpy(buffer + at, src, n)` -/
def copyOut (m : Mem) (src n pos : ℕ) (out : Mem) : Mem :=
  fun i => if pos ≤ i ∧ i < pos + n then m (src + (i - pos)) else out i

def skipLoop (m : Mem) (fs : Fat32Fs) : ℕ → ℕ → ℕ
  | 0, cluster => cluster
  | skip + 1, cluster => if cluster < 0x0FFFFFF8 then skipLoop m fs skip (fat32GetNextCluster m fs cluster) else cluster

def readLoop (m : Mem) (fs : Fat32Fs) (size : ℕ) : ℕ → ℕ → ℕ → ℕ → Mem → Option (ℕ × Mem)
  | 0, _, _, _, _ => none
  | fuel + 1, bytesRead, cluster, clusterOffset, out =>
    if bytesRead < size ∧ cluster < 0x0FFFFFF8 then
      match fat32GetClusterPtr fs cluster with
      | none => some (bytesRead, out)
      | some cptr =>
        let toCopy := min (fs.clusterSize - clusterOffset) (size - bytesRead)
        readLoop m fs size fuel (bytesRead + toCopy) (fat32GetNextCluster m fs cluster) 0
          (copyOut m (cptr + clusterOffset) toCopy bytesRead out)
    else some (bytesRead, out)

/-- Every turn of the copy loop but the last copies a byte at least, so `size + 1` turns are enough. -/
def fat32ReadImpl (s : State σ) (node : Node) (offset size : ℕ) (out : Mem) : Option (ℕ × Mem) :=
  match node.devicePriv with
  | none => some (0, out)
  | some (.jurkvfs _) => none
  | some (.fat32 firstCluster fileSize) =>
    let fs := s.currentFat
    if fileSize ≤ offset then some (0, out)
    else
      let size := if fileSize < wrap32 (offset + size) then fileSize - offset else size
      let cluster := skipLoop K.mem fs (offset / fs.clusterSize) firstCluster
      readLoop K.mem fs size (size + 1) 0 cluster (offset % fs.clusterSize) out

def jurkvfsReadImpl (s : State σ) (node : Node) (offset size : ℕ) (out : Mem) : Option (ℕ × Mem) :=
  match node.devicePriv with
  | none => some (0, out)
  | some (.fat32 _ _) => none
  | some (.jurkvfs inodeIndex) =>
    let fs := s.currentFs
    let inode := jurkvfsInode fs inodeIndex
    let inodeSize := load K.mem (inode + 68) 4
    if inodeSize ≤ offset then some (0, out)
    else
      let size := if inodeSize < wrap32 (offset + size) then inodeSize - offset else size
      let dataBase := fs.diskData + load K.mem (fs.header + 24) 4
      some (size, copyOut K.mem (dataBase + load K.mem (inode + 72) 4 + offset) size 0 out)

def vfsRead (s : State σ) (p offset size buffer : ℕ) (out : Mem) : Option (ℕ × Mem) :=
  if p = 0 ∨ buffer = 0 then some (0, out)
  else
    match s.nodes p with
    | none => none
    | some node =>
      match node.read with
      | none => some (0, out)
      | some .fat32 => fat32ReadImpl K s node offset size out
      | some .jurkvfs => jurkvfsReadImpl K s node offset size out

variable {K}

theorem readLoop_within {m : Mem} {fs : Fat32Fs} {size fuel bytesRead cluster clusterOffset n : ℕ} {out out' : Mem}
    (hle : bytesRead ≤ size) (h : readLoop m fs size fuel bytesRead cluster clusterOffset out = some (n, out')) :
    n ≤ size ∧ ∀ i, size ≤ i → out' i = out i := by
  induction fuel generalizing bytesRead cluster clusterOffset out with
  | zero => cases h
  | succ fuel ih =>
    have hdone (h : some (bytesRead, out) = some (n, out')) : n ≤ size ∧ ∀ i, size ≤ i → out' i = out i := by
      cases h
      exact ⟨hle, fun _ _ => rfl⟩
    unfold readLoop at h
    split at h
    · split at h
      · exact hdone h
      · obtain ⟨hn, hkeep⟩ := ih (by omega) h
        refine ⟨hn, fun i hi => (hkeep i hi).trans ?_⟩
        exact if_neg (by omega)
    · exact hdone h

theorem vfsRead_within {s : State σ} {p offset size buffer n : ℕ} {out out' : Mem}
    (h : vfsRead K s p offset size buffer out = some (n, out')) : n ≤ size ∧ ∀ i, size ≤ i → out' i = out i := by
  have hnone (h : some (0, out) = some (n, out')) : n ≤ size ∧ ∀ i, size ≤ i → out' i = out i := by
    cases h
    exact ⟨Nat.zero_le _, fun _ _ => rfl⟩
  -- a length that is cut off at the end of the file is shorter than the one asked for
  have hcut (fileSize : ℕ) :
      (if fileSize < wrap32 (offset + size) then fileSize - offset else size) ≤ size := by
    have hwrap : wrap32 (offset + size) ≤ offset + size := Nat.mod_le _ _
    split_ifs <;> omega
  unfold vfsRead at h
  split at h
  · exact hnone h
  split at h
  · cases h
  split at h
  · exact hnone h
  · unfold fat32ReadImpl at h
    split at h
    · exact hnone h
    · cases h
    · split at h
      · exact hnone h
      · obtain ⟨hn, hkeep⟩ := readLoop_within (Nat.zero_le _) h
        exact ⟨hn.trans (hcut _), fun i hi => hkeep i ((hcut _).trans hi)⟩
  · unfold jurkvfsReadImpl at h
    split at h
    · exact hnone h
    · cases h
    · rename_i inodeIndex _
      have hle := hcut (load K.mem (jurkvfsInode s.currentFs inodeIndex + 68) 4)
      dsimp only at h
      split at h
      · exact hnone h
      · cases h
        refine ⟨hle, fun i hi => if_neg ?_⟩
        omega

end JurkOS.Kernel.Fs
