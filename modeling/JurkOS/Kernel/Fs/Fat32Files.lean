import JurkOS.Kernel.Fs.Read
import Mathlib.Data.List.GetD

/-!
Files of a FAT32 volume: the clusters of a chain in unbounded arithmetic, and
the slices that the read handler delivers.
-/

namespace JurkOS.Kernel.Fs

open Lib.Libc Lib.Memory

variable {σ : Type}

/-- What the format says of the volume, for sectors of 512 bytes. -/
structure BootSector where
  lba : ℕ
  reservedSectors : ℕ
  numFats : ℕ
  tableSize : ℕ
  sectorsPerCluster : ℕ

def bootSector (m : Mem) (disk : ℕ) : BootSector :=
  let lba := partitionLba m disk
  let bpb := disk + lba * 512
  { lba := lba
    reservedSectors := load m (bpb + 14) 2
    numFats := load m (bpb + 16) 1
    tableSize := load m (bpb + 36) 4
    sectorsPerCluster := load m (bpb + 13) 1 }

namespace BootSector

def fatEntry (b : BootSector) (c : ℕ) : ℕ := (b.lba + b.reservedSectors) * 512 + 4 * c

def cluster (b : BootSector) (c : ℕ) : ℕ :=
  (b.lba + b.reservedSectors + b.numFats * b.tableSize + (c - 2) * b.sectorsPerCluster) * 512

def clusterBytes (b : BootSector) : ℕ := 512 * b.sectorsPerCluster

def DataCluster (b : BootSector) (c : ℕ) : Prop :=
  2 ≤ c ∧ c ≤ 0x0FFFFFF6 ∧ b.fatEntry c + 4 ≤ 2 ^ 32 ∧ b.cluster c + b.clusterBytes ≤ 2 ^ 32

def next (b : BootSector) (m : Mem) (disk c : ℕ) : ℕ := load m (disk + b.fatEntry c) 4 &&& 0x0FFFFFFF

def Chain (b : BootSector) (m : Mem) (disk : ℕ) : List ℕ → ℕ → Prop
  | [], c => 0x0FFFFFF8 ≤ c
  | c' :: chain, c => c' = c ∧ b.DataCluster c ∧ b.Chain m disk chain (b.next m disk c)

instance (b : BootSector) (c : ℕ) : Decidable (b.DataCluster c) := inferInstanceAs (Decidable (_ ∧ _ ∧ _ ∧ _))

instance (b : BootSector) (m : Mem) (disk : ℕ) : (chain : List ℕ) → (c : ℕ) → Decidable (b.Chain m disk chain c)
  | [], c => inferInstanceAs (Decidable (0x0FFFFFF8 ≤ c))
  | _ :: chain, c =>
    have : Decidable (b.Chain m disk chain (b.next m disk c)) := instDecidableChain b m disk chain _
    inferInstanceAs (Decidable (_ ∧ _ ∧ _))

def contents (b : BootSector) (m : Mem) (disk : ℕ) (chain : List ℕ) : List UInt8 :=
  chain.flatMap fun c => bytesAt m (disk + b.cluster c) b.clusterBytes

end BootSector

@[simp] theorem length_bytesAt (m : Mem) (p n : ℕ) : (bytesAt m p n).length = n := by simp [bytesAt]

theorem bytesAt_getD {m : Mem} {p n i : ℕ} (h : i < n) : (bytesAt m p n).getD i 0 = m (p + i) := by
  simp [bytesAt, h]

section Volume

variable {m : Mem} {disk diskSize : ℕ} {fs : Fat32Fs} {b : BootSector} {c : ℕ} {chain : List ℕ}

theorem length_contents : (b.contents m disk chain).length = chain.length * b.clusterBytes := by
  simp [BootSector.contents, List.length_flatMap]

theorem contents_cons : b.contents m disk (c :: chain) =
    bytesAt m (disk + b.cluster c) b.clusterBytes ++ b.contents m disk chain := List.flatMap_cons

theorem contents_getD_block {i : ℕ} (h : i < b.clusterBytes) :
    (b.contents m disk (c :: chain)).getD i 0 = m (disk + b.cluster c + i) := by
  rw [contents_cons, List.getD_append _ _ _ _ (by rwa [length_bytesAt]), bytesAt_getD h]

theorem contents_getD_tail {i : ℕ} (h : b.clusterBytes ≤ i) :
    (b.contents m disk (c :: chain)).getD i 0 = (b.contents m disk chain).getD (i - b.clusterBytes) 0 := by
  rw [contents_cons, List.getD_append_right _ _ _ _ (by rwa [length_bytesAt]), length_bytesAt]

theorem contents_drop (k : ℕ) : (b.contents m disk chain).drop (k * b.clusterBytes) =
    b.contents m disk (chain.drop k) := by
  induction k generalizing chain with
  | zero => simp
  | succ k ih =>
    cases chain with
    | nil => simp [BootSector.contents]
    | cons c chain =>
      have hk : (k + 1) * b.clusterBytes = b.clusterBytes + k * b.clusterBytes := by ring
      rw [contents_cons, hk, ← List.drop_drop, List.drop_left' (length_bytesAt _ _ _), List.drop_succ_cons]
      exact ih

structure Geometry (fs : Fat32Fs) (b : BootSector) (disk : ℕ) : Prop where
  diskBase : fs.diskBase = disk
  bytesPerSector : fs.bytesPerSector = 512
  sectorsPerCluster : fs.sectorsPerCluster = b.sectorsPerCluster
  clusterSize : fs.clusterSize = b.clusterBytes
  fatStartSector : fs.fatStartSector = b.lba + b.reservedSectors
  dataStartSector : fs.dataStartSector = b.lba + b.reservedSectors + b.numFats * b.tableSize
  clusterBytes_pos : 0 < b.clusterBytes

theorem wrap32_of_lt {x : ℕ} (h : x < 2 ^ 32) : wrap32 x = x := Nat.mod_eq_of_lt h

theorem geometry_of_volume (h : fat32Volume m disk diskSize = some fs) (h512 : fs.bytesPerSector = 512)
    (hc : (bootSector m disk).DataCluster c) : Geometry fs (bootSector m disk) disk := by
  have hfat := hc.2.2.1
  have hdata := hc.2.2.2
  unfold BootSector.fatEntry at hfat
  unfold BootSector.cluster BootSector.clusterBytes at hdata
  have hlba : wrap32 (partitionLba m disk * 512) = (bootSector m disk).lba * 512 := by
    apply wrap32_of_lt
    change (bootSector m disk).lba * 512 < 2 ^ 32
    omega
  have hspc := load_lt m (disk + (bootSector m disk).lba * 512 + 13) 1
  unfold fat32Volume at h
  simp only [hlba] at h
  split at h
  · cases h
  split at h
  · cases h
  rename_i hpos
  split at h
  · cases h
  cases h
  simp only at h512
  have hpos' : 0 < (bootSector m disk).sectorsPerCluster := by
    change 0 < load m (disk + (bootSector m disk).lba * 512 + 13) 1
    omega
  refine ⟨rfl, h512, rfl, ?_, ?_, ?_, Nat.mul_pos (by decide) hpos'⟩
  · change wrap32 _ = _
    rw [h512]
    apply wrap32_of_lt
    omega
  · apply wrap32_of_lt
    change (bootSector m disk).lba + (bootSector m disk).reservedSectors < _
    omega
  · have hstart : wrap32 ((bootSector m disk).lba + (bootSector m disk).reservedSectors) =
        (bootSector m disk).lba + (bootSector m disk).reservedSectors := wrap32_of_lt (by omega)
    have htable : wrap32 ((bootSector m disk).numFats * (bootSector m disk).tableSize) =
        (bootSector m disk).numFats * (bootSector m disk).tableSize := wrap32_of_lt (by omega)
    change wrap32 (wrap32 ((bootSector m disk).lba + (bootSector m disk).reservedSectors) +
      wrap32 ((bootSector m disk).numFats * (bootSector m disk).tableSize)) = _
    rw [hstart, htable]
    apply wrap32_of_lt
    omega

variable (g : Geometry fs b disk)

include g

theorem next_eq (hc : b.DataCluster c) : fat32GetNextCluster m fs c = b.next m disk c := by
  obtain ⟨-, hmax, hfat, -⟩ := hc
  unfold BootSector.fatEntry at hfat
  have hoff : wrap32 (c * 4) = c * 4 := wrap32_of_lt (by omega)
  have hdiv := Nat.div_add_mod (c * 4) 512
  unfold fat32GetNextCluster BootSector.next BootSector.fatEntry
  simp only [g.diskBase, g.bytesPerSector, g.fatStartSector, hoff]
  have hsector : wrap32 (b.lba + b.reservedSectors + c * 4 / 512) = b.lba + b.reservedSectors + c * 4 / 512 :=
    wrap32_of_lt (by omega)
  have hbyte : wrap32 ((b.lba + b.reservedSectors + c * 4 / 512) * 512) =
      (b.lba + b.reservedSectors + c * 4 / 512) * 512 := wrap32_of_lt (by omega)
  rw [hsector, hbyte]
  congr 2
  omega

theorem clusterPtr_eq (hc : b.DataCluster c) : fat32GetClusterPtr fs c = some (disk + b.cluster c) := by
  obtain ⟨hmin, -, -, hdata⟩ := hc
  have hpos := g.clusterBytes_pos
  unfold BootSector.cluster at hdata
  have hrel : wrap32 ((c - 2) * b.sectorsPerCluster) = (c - 2) * b.sectorsPerCluster := wrap32_of_lt (by omega)
  unfold fat32GetClusterPtr BootSector.cluster
  simp only [g.diskBase, g.bytesPerSector, g.dataStartSector, g.sectorsPerCluster, hrel]
  have hsector : wrap32 (b.lba + b.reservedSectors + b.numFats * b.tableSize + (c - 2) * b.sectorsPerCluster) =
      b.lba + b.reservedSectors + b.numFats * b.tableSize + (c - 2) * b.sectorsPerCluster :=
    wrap32_of_lt (by omega)
  rw [if_neg (by omega), hsector, wrap32_of_lt (by omega)]

theorem skipLoop_chain {k : ℕ} (h : b.Chain m disk chain c) (hk : k ≤ chain.length) :
    b.Chain m disk (chain.drop k) (skipLoop m fs k c) := by
  induction k generalizing chain c with
  | zero => exact h
  | succ k ih =>
    cases chain with
    | nil => simp at hk
    | cons c' chain =>
      obtain ⟨rfl, hc, ht⟩ := h
      have hlt : c' < 0x0FFFFFF8 := by
        have := hc.2.1
        omega
      unfold skipLoop
      rw [if_pos hlt, next_eq g hc]
      exact ih ht (by simpa using hk)

omit g in
theorem readLoop_done {size fuel clusterOffset : ℕ} {out : Mem} (hfuel : 0 < fuel) :
    readLoop m fs size fuel size c clusterOffset out = some (size, out) := by
  cases fuel with
  | zero => cases hfuel
  | succ fuel =>
    unfold readLoop
    rw [if_neg (fun h => lt_irrefl _ h.1)]

theorem readLoop_chain {size fuel bytesRead clusterOffset : ℕ} {out : Mem} (h : b.Chain m disk chain c)
    (hoff : clusterOffset < b.clusterBytes) (hle : bytesRead ≤ size)
    (hlen : clusterOffset + (size - bytesRead) ≤ chain.length * b.clusterBytes ∨ bytesRead = size)
    (hfuel : size - bytesRead < fuel) :
    readLoop m fs size fuel bytesRead c clusterOffset out = some (size, fun i =>
      if bytesRead ≤ i ∧ i < size then (b.contents m disk chain).getD (clusterOffset + (i - bytesRead)) 0
      else out i) := by
  by_cases hdone : bytesRead = size
  · subst hdone
    rw [readLoop_done (by omega)]
    congr 2
    funext i
    rw [if_neg (by omega)]
  have hlen' := hlen.resolve_right hdone
  induction chain generalizing c bytesRead clusterOffset out fuel with
  | nil =>
    rw [List.length_nil, Nat.zero_mul] at hlen'
    omega
  | cons c' chain ih =>
    obtain ⟨rfl, hc, ht⟩ := h
    cases fuel with
    | zero => omega
    | succ fuel =>
      have hlt : bytesRead < size ∧ c' < 0x0FFFFFF8 := by
        have := hc.2.1
        exact ⟨by omega, by omega⟩
      have hrest : (List.length (c' :: chain)) * b.clusterBytes = chain.length * b.clusterBytes + b.clusterBytes := by
        rw [List.length_cons]
        ring
      rw [hrest] at hlen'
      unfold readLoop
      rw [if_pos hlt, clusterPtr_eq g hc, next_eq g hc, g.clusterSize]
      simp only
      generalize hn : min (b.clusterBytes - clusterOffset) (size - bytesRead) = n
      have hstep : readLoop m fs size fuel (bytesRead + n) (b.next m disk c') 0
          (copyOut m (disk + b.cluster c' + clusterOffset) n bytesRead out) = some (size, fun i =>
            if bytesRead + n ≤ i ∧ i < size then (b.contents m disk chain).getD (0 + (i - (bytesRead + n))) 0
            else copyOut m (disk + b.cluster c' + clusterOffset) n bytesRead out i) := by
        by_cases hdone' : bytesRead + n = size
        · rw [hdone', readLoop_done (by omega)]
          congr 2
          funext i
          rw [if_neg (by omega)]
        · have hpos := g.clusterBytes_pos
          exact ih ht hpos (by omega) (Or.inl (by omega)) (by omega) hdone' (by omega)
      rw [hstep]
      congr 2
      funext i
      unfold copyOut
      by_cases h₁ : bytesRead + n ≤ i ∧ i < size
      · have hcb : n = b.clusterBytes - clusterOffset := by omega
        rw [if_pos h₁, if_pos ⟨by omega, h₁.2⟩, contents_getD_tail (by omega)]
        congr 1
        omega
      · rw [if_neg h₁]
        by_cases h₂ : bytesRead ≤ i ∧ i < bytesRead + n
        · rw [if_pos h₂, if_pos ⟨h₂.1, by omega⟩, contents_getD_block (by omega)]
          congr 1
          omega
        · rw [if_neg h₂, if_neg (by omega)]

end Volume

section Files

variable {K : Machine σ} {s : State σ} {p disk diskSize first size : ℕ} {node : Node} {chain : List ℕ}

structure File (K : Machine σ) (s : State σ) (disk : ℕ) (p size : ℕ) (chain : List ℕ) : Prop where
  volume : ∃ diskSize, fat32Volume K.mem disk diskSize = some s.currentFat
  sectors : s.currentFat.bytesPerSector = 512
  node : ∃ node first, s.nodes p = some node ∧ node.read = some .fat32 ∧
    node.devicePriv = some (.fat32 first size) ∧
    (chain = [] ∨ (bootSector K.mem disk).Chain K.mem disk chain first)
  long_enough : size ≤ chain.length * (bootSector K.mem disk).clusterBytes

def fileData (m : Mem) (disk size : ℕ) (chain : List ℕ) : List UInt8 :=
  ((bootSector m disk).contents m disk chain).take size

theorem length_fileData (f : File K s disk p size chain) : (fileData K.mem disk size chain).length = size := by
  rw [fileData, List.length_take, length_contents]
  exact min_eq_left f.long_enough

theorem fat32Read_eq (f : File K s disk p size chain) (hp : p ≠ 0) {offset n buffer : ℕ} {out : Mem}
    (hb : buffer ≠ 0) (h : offset + n < 2 ^ 32) :
    vfsRead K s p offset n buffer out = some (min n (size - offset), fun i =>
      if i < min n (size - offset) then (fileData K.mem disk size chain).getD (offset + i) 0 else out i) := by
  obtain ⟨node, first, hnode, hread, hpriv, hchain⟩ := f.node
  unfold vfsRead
  rw [if_neg (by tauto), hnode]
  simp only [hread, fat32ReadImpl, hpriv]
  by_cases hend : size ≤ offset
  · have hzero : min n (size - offset) = 0 := by omega
    rw [if_pos hend, hzero]
    simp
  rw [if_neg hend, wrap32_of_lt h]
  have hmin : (if size < offset + n then size - offset else n) = min n (size - offset) := by
    split <;> omega
  rw [hmin]
  have hlong := f.long_enough
  have hne : chain ≠ [] := by
    rintro rfl
    rw [List.length_nil, Nat.zero_mul] at hlong
    omega
  have hc := hchain.resolve_left hne
  obtain ⟨diskSize, hv⟩ := f.volume
  have hdata : (bootSector K.mem disk).DataCluster first := by
    cases chain with
    | nil => exact absurd rfl hne
    | cons c' chain => exact hc.1 ▸ hc.2.1
  have g := geometry_of_volume hv f.sectors hdata
  have hpos := g.clusterBytes_pos
  have hdiv := Nat.div_add_mod' offset (bootSector K.mem disk).clusterBytes
  have hmod := Nat.mod_lt offset hpos
  have hskip : offset / (bootSector K.mem disk).clusterBytes ≤ chain.length := by
    apply Nat.div_le_of_le_mul
    rw [Nat.mul_comm]
    omega
  have hrest : (chain.drop (offset / (bootSector K.mem disk).clusterBytes)).length *
      (bootSector K.mem disk).clusterBytes = chain.length * (bootSector K.mem disk).clusterBytes -
        offset / (bootSector K.mem disk).clusterBytes * (bootSector K.mem disk).clusterBytes := by
    rw [List.length_drop, Nat.sub_mul]
  rw [g.clusterSize, readLoop_chain g (skipLoop_chain g hc hskip) hmod (Nat.zero_le _)
    (Or.inl (by rw [hrest]; omega)) (by omega)]
  congr 2
  funext i
  by_cases hi : i < min n (size - offset)
  · have hoff : (offset / (bootSector K.mem disk).clusterBytes) * (bootSector K.mem disk).clusterBytes +
        (offset % (bootSector K.mem disk).clusterBytes + (i - 0)) = offset + i := by omega
    rw [if_pos ⟨Nat.zero_le i, hi⟩, if_pos hi, ← contents_drop, List.getD_eq_getElem?_getD, List.getElem?_drop, hoff,
      fileData, List.getD_eq_getElem?_getD, List.getElem?_take_of_lt (by omega)]
  · rw [if_neg (fun h => hi h.2), if_neg hi]

theorem bytesAt_slice {l : List UInt8} {out : Mem} {offset n : ℕ} (hn : offset + n ≤ l.length) :
    bytesAt (fun i => if i < n then l.getD (offset + i) 0 else out i) 0 n = (l.drop offset).take n := by
  apply List.ext_getElem
  · rw [length_bytesAt, List.length_take, List.length_drop]
    omega
  · intro i hi hi'
    have hlt : i < n := by rwa [length_bytesAt] at hi
    simp [bytesAt, hlt, List.getElem_take, List.getElem_drop]
    rw [List.getElem?_eq_getElem (by omega)]
    rfl

theorem fat32Read_bytes (f : File K s disk p size chain) (hp : p ≠ 0) {offset n buffer : ℕ} (out : Mem)
    (hb : buffer ≠ 0) (h : offset + n < 2 ^ 32) :
    ∃ out', vfsRead K s p offset n buffer out = some (min n (size - offset), out') ∧
      bytesAt out' 0 (min n (size - offset)) = ((fileData K.mem disk size chain).drop offset).take n ∧
      ∀ i, min n (size - offset) ≤ i → out' i = out i := by
  have hlen := length_fileData f
  refine ⟨_, fat32Read_eq f hp hb h, ?_, fun i hi => if_neg (not_lt.mpr hi)⟩
  by_cases hend : size ≤ offset
  · have hzero : min n (size - offset) = 0 := by omega
    rw [hzero, List.drop_of_length_le (by omega), List.take_nil]
    rfl
  · have hrest : ((fileData K.mem disk size chain).drop offset).length = size - offset := by
      rw [List.length_drop, hlen]
    rw [bytesAt_slice (by omega), List.take_eq_take_iff, hrest]
    omega

theorem fat32Read_slice (f : File K s disk p size chain) (hp : p ≠ 0) {buffer : ℕ} (hb : buffer ≠ 0) :
    (∀ offset n out, offset + n < 2 ^ 32 → ∃ count out', vfsRead K s p offset n buffer out = some (count, out') ∧
      count = (if size ≤ offset then 0 else min n (size - offset)) ∧
      bytesAt out' 0 count = ((fileData K.mem disk size chain).drop offset).take n ∧
      ∀ i, count ≤ i → out' i = out i) ∧
    ∀ offset a b out₁ out₂ out₃, offset + (a + b) < 2 ^ 32 → ∃ x y z,
      vfsRead K s p offset a buffer out₁ = some x ∧ vfsRead K s p (offset + a) b (buffer + a) out₂ = some y ∧
      vfsRead K s p offset (a + b) buffer out₃ = some z ∧
      bytesAt x.2 0 x.1 ++ bytesAt y.2 0 y.1 = bytesAt z.2 0 z.1 := by
  constructor
  · intro offset n out h
    obtain ⟨out', hr, hbytes, hframe⟩ := fat32Read_bytes f hp out hb h
    refine ⟨_, out', hr, ?_, hbytes, hframe⟩
    split <;> omega
  · intro offset a b out₁ out₂ out₃ h
    obtain ⟨x, hx, hxb, -⟩ := fat32Read_bytes f hp out₁ hb (show offset + a < 2 ^ 32 by omega)
    have hb' : buffer + a ≠ 0 := by omega
    obtain ⟨y, hy, hyb, -⟩ := fat32Read_bytes f hp out₂ hb' (show offset + a + b < 2 ^ 32 by omega)
    obtain ⟨z, hz, hzb, -⟩ := fat32Read_bytes f hp out₃ hb h
    refine ⟨_, _, _, hx, hy, hz, ?_⟩
    rw [hxb, hyb, hzb, ← List.drop_drop, List.take_add]

def twoClusterDisk (x : ℕ) : UInt8 :=
  let segment (base : ℕ) (l : List UInt8) : Option UInt8 :=
    if 0x100000 + base ≤ x then l[x - (0x100000 + base)]? else none
  ((segment 11 [0x00, 0x02, 1, 1, 0, 1]).orElse fun _ =>
    (segment 36 [1, 0, 0, 0]).orElse fun _ =>
    (segment 44 [2, 0, 0, 0]).orElse fun _ =>
    (segment 520 [0xFF, 0xFF, 0xFF, 0x0F, 2, 0, 0, 0]).orElse fun _ =>
    (segment 1024 (List.replicate 512 0x42)).orElse fun _ =>
    (segment 1536 (List.replicate 512 0x41))).getD 0

def twoClusterMachine : Machine ℕ := ⟨.x86_64, bump, twoClusterDisk, 16⟩

def twoClusterState : State ℕ where
  nodes p := if p = 8 then some { flags := VFS_FILE, read := some .fat32, devicePriv := some (.fat32 3 700) } else none
  vfsRoot := 0
  devRoot := 0
  currentFat := (fat32Volume twoClusterDisk 0x100000 2048).getD {}
  currentFs := {}
  heap := 16

theorem twoCluster_file : File twoClusterMachine twoClusterState 0x100000 8 700 [3, 2] where
  volume := ⟨2048, by decide⟩
  sectors := by decide
  node := ⟨_, 3, rfl, rfl, rfl, Or.inr (by decide)⟩
  long_enough := by decide

theorem fat32Read_slice_twoCluster : 500 + 100 < 2 ^ 32 ∧ ∃ count out',
    vfsRead twoClusterMachine twoClusterState 8 500 100 1 (fun _ => 0) = some (count, out') ∧ count = 100 ∧
      bytesAt out' 0 count = List.replicate 12 0x41 ++ List.replicate 88 0x42 := by
  refine ⟨by decide, ?_⟩
  obtain ⟨count, out', hr, hcount, hbytes, -⟩ :=
    (fat32Read_slice twoCluster_file (by decide) (by decide : 1 ≠ 0)).1 500 100 (fun _ => 0) (by decide)
  refine ⟨count, out', hr, hcount, ?_⟩
  rw [hbytes]
  decide +kernel

end Files

end JurkOS.Kernel.Fs
