import JurkOS.Kernel.Fs.DiskRuns
import JurkOS.Kernel.Fs.FileReads

/-!
The bytes of a file, and those that one read of its whole length delivers: the
length is kept in the directory entry, the bytes are where the chain says.
-/

namespace JurkOS.Kernel.Fs

open Lib Lib.Libc Lib.Memory

variable {σ : Type}

section Chain

variable {m : Mem} {fs : Fat32Fs} {size : ℕ}

def chainByte (m : Mem) (fs : Fat32Fs) (c k : ℕ) : UInt8 :=
  m (fs.diskBase + clusterOffset fs (chainCluster m fs c (k / fs.clusterSize)) + k % fs.clusterSize)

theorem chainByte_near {c k : ℕ} (h : k < fs.clusterSize) :
    chainByte m fs c k = m (fs.diskBase + clusterOffset fs c + k) := by
  unfold chainByte chainCluster
  rw [Nat.div_eq_of_lt h, Nat.mod_eq_of_lt h]
  rfl

theorem chainByte_far {c k : ℕ} (hpos : 0 < fs.clusterSize) (h : fs.clusterSize ≤ k) :
    chainByte m fs c k = chainByte m fs (fat32GetNextCluster m fs c) (k - fs.clusterSize) := by
  have hk : k = k - fs.clusterSize + fs.clusterSize := (Nat.sub_add_cancel h).symm
  unfold chainByte
  rw [hk, Nat.add_div_right _ hpos, Nat.add_mod_right, Nat.add_sub_cancel, ← chainCluster_succ]

-- Induction on the turns: a turn writes what is left of its cluster, and none writes below.
theorem readLoop_bytes {fuel n : ℕ} {t : CopyState} {out : Mem} (hoff : t.clusterOffset < fs.clusterSize)
    (hle : t.bytesRead ≤ size)
    (h : readLoop m fs size fuel t.bytesRead t.cluster t.clusterOffset t.out = some (n, out)) :
    t.bytesRead ≤ n ∧ ∀ k, out k =
      if t.bytesRead ≤ k ∧ k < n then chainByte m fs t.cluster (k - t.bytesRead + t.clusterOffset) else t.out k := by
  induction fuel generalizing t with
  | zero => cases h
  | succ fuel ih =>
    have hpos : 0 < fs.clusterSize := Nat.lt_of_le_of_lt (Nat.zero_le _) hoff
    rw [readLoop_turn] at h
    by_cases hgoes : copyGoes size t
    · rw [if_pos hgoes] at h
      have hmore : t.bytesRead < size := hgoes.1
      have hturn := copyTurn_bytes m fs (fat32GetNextCluster m fs) size t
      set t' := copyTurn m fs (fat32GetNextCluster m fs) size t with ht'
      have hle' : t'.bytesRead ≤ size := by
        rw [hturn]
        omega
      obtain ⟨hn, hout⟩ := ih (t := t') hpos hle' h
      have hend : n ≤ size := (readLoop_within hle' h).1
      refine ⟨by omega, fun k => ?_⟩
      rw [hout k]
      by_cases hnear : k < t'.bytesRead
      · rw [if_neg (by omega)]
        by_cases hlow : t.bytesRead ≤ k
        · have hcount : k < t.bytesRead + t.count fs size := hnear
          have hfirst : k - t.bytesRead + t.clusterOffset < fs.clusterSize := by omega
          rw [if_pos ⟨hlow, by omega⟩, chainByte_near hfirst]
          change (if t.bytesRead ≤ k ∧ k < t.bytesRead + t.count fs size then _ else _) = _
          rw [if_pos ⟨hlow, hcount⟩, Nat.add_comm (k - t.bytesRead), Nat.add_assoc _ t.clusterOffset]
        · rw [if_neg (fun hk => hlow hk.1)]
          exact if_neg (fun hk => hlow hk.1)
      · by_cases hlast : k < n
        · have hnext : fs.clusterSize ≤ k - t.bytesRead + t.clusterOffset := by omega
          rw [if_pos ⟨by omega, hlast⟩, if_pos ⟨by omega, hlast⟩, chainByte_far hpos hnext]
          change chainByte m fs (fat32GetNextCluster m fs t.cluster) (k - t'.bytesRead + 0) = _
          congr 1
          omega
        · rw [if_neg (fun hk => hlast hk.2), if_neg (fun hk => hlast hk.2)]
          exact if_neg (fun hk => hnear hk.2)
    · rw [if_neg hgoes] at h
      cases h
      refine ⟨le_rfl, fun k => ?_⟩
      rw [if_neg (by omega)]

end Chain

inductive VolumeFile (K : Machine σ) (v : State σ) (node : Node) : Prop
  | fat32 (first diskData diskSize : ℕ) (read_eq : node.read = some .fat32)
    (priv_eq : node.devicePriv = some (.fat32 first node.length)) (length_lt : node.length < 2 ^ 32)
    (volume : fat32Volume K.mem diskData diskSize = some v.currentFat)
  | jurkvfs (i : ℕ) (read_eq : node.read = some .jurkvfs) (priv_eq : node.devicePriv = some (.jurkvfs i))
    (length_eq : node.length = load K.mem (jurkvfsInode v.currentFs i + 68) 4)

def HasByte (K : Machine σ) (v : State σ) (node : Node) (k : ℕ) : Prop :=
  match node.devicePriv with
  | some (.fat32 first _) => ChainHolds K.mem v.currentFat first 0 k
  | _ => True

def fileByte (K : Machine σ) (v : State σ) (node : Node) (k : ℕ) : UInt8 :=
  match node.devicePriv with
  | some (.fat32 first _) => chainByte K.mem v.currentFat first k
  | some (.jurkvfs i) =>
    let dataBase := v.currentFs.diskData + load K.mem (v.currentFs.header + 24) 4
    K.mem (dataBase + load K.mem (jurkvfsInode v.currentFs i + 72) 4 + k)
  | none => 0

variable {K : Machine σ} {v : State σ} {node : Node}

theorem VolumeFile.length_lt (h : VolumeFile K v node) : node.length < 2 ^ 32 := by
  cases h with
  | fat32 _ _ _ _ _ hlt _ => exact hlt
  | jurkvfs _ _ _ hlength =>
    rw [hlength]
    exact load_lt _ _ 4

theorem vfsRead_file {file buffer : ℕ} (hfile : file ≠ 0) (hnode : v.nodes file = some node)
    (hx : VolumeFile K v node) (hbuffer : buffer ≠ 0) (out : Mem) :
    ∃ n out', vfsRead K v file 0 node.length buffer out = some (n, out') ∧
      (∀ k, k < n ↔ k < node.length ∧ HasByte K v node k) ∧
      ∀ k, out' k = if k < n then fileByte K v node k else out k := by
  have hlt := hx.length_lt
  have hclip : ¬ node.length < wrap32 (0 + node.length) := by
    rw [Nat.zero_add, wrap32, Nat.mod_eq_of_lt hlt]
    exact lt_irrefl _
  unfold vfsRead HasByte fileByte
  rw [if_neg (by simp [hfile, hbuffer]), hnode]
  cases hx with
  | fat32 first d z hread hpriv _ hvolume =>
    have hpos := clusterSize_pos hvolume
    simp only [hread, hpriv]
    by_cases hempty : node.length = 0
    · refine ⟨0, out, ?_, by simp [hempty], fun k => (if_neg (Nat.not_lt_zero k)).symm⟩
      simp [fat32ReadImpl, hpriv, hempty]
    · obtain ⟨n, out', hrun, hdel⟩ := fat32ReadImpl_delivers (K := K) (s := v) node.length out hpriv hpos
        (Nat.pos_of_ne_zero hempty)
      refine ⟨n, out', hrun, fun k => ?_, fun k => ?_⟩
      · rw [hdel, if_neg hclip, Nat.zero_add]
      · unfold fat32ReadImpl at hrun
        rw [hpriv] at hrun
        simp only [if_neg hclip, if_neg (Nat.not_le.mpr (Nat.pos_of_ne_zero hempty))] at hrun
        have hbytes := (readLoop_bytes (t := ⟨0, _, _, out⟩) (Nat.mod_lt 0 hpos) (Nat.zero_le _) hrun).2 k
        simpa [skipLoop] using hbytes
  | jurkvfs i hread hpriv hlength =>
    simp only [hread, hpriv]
    by_cases hempty : node.length = 0
    · refine ⟨0, out, ?_, by simp [hempty], fun k => (if_neg (Nat.not_lt_zero k)).symm⟩
      simp [jurkvfsReadImpl, hpriv, ← hlength, hempty]
    · have hrun : jurkvfsReadImpl K v node 0 node.length out = some (node.length,
          copyOut K.mem (v.currentFs.diskData + load K.mem (v.currentFs.header + 24) 4 +
            load K.mem (jurkvfsInode v.currentFs i + 72) 4 + 0) node.length 0 out) := by
        unfold jurkvfsReadImpl
        rw [hpriv]
        simp only [← hlength, if_neg hclip, if_neg (Nat.not_le.mpr (Nat.pos_of_ne_zero hempty))]
      refine ⟨_, _, hrun, by simp, fun k => ?_⟩
      simp [copyOut]

end JurkOS.Kernel.Fs
