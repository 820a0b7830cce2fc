import JurkOS.Kernel.Fs.Types

/-!
The FAT32 driver of `fs/fat32.c`: mounting and directory lookup.
-/

namespace JurkOS.Kernel.Fs

open Lib.Libc Lib.Memory

variable {σ : Type} (K : Machine σ)

def FAT_ATTR_VOLUME_ID : UInt8 := 0x08
def FAT_ATTR_DIRECTORY : UInt8 := 0x10
def FAT_ATTR_LFN : UInt8 := 0x0F

def sizeofFat32NodePriv : Arch → ℕ
  | .x86 => 12
  | .x86_64 => 16

def fat32GetNextCluster (m : Mem) (fs : Fat32Fs) (cluster : ℕ) : ℕ :=
  let fatOffset := wrap32 (cluster * 4)
  let fatSector := wrap32 (fs.fatStartSector + fatOffset / fs.bytesPerSector)
  let entOffset := fatOffset % fs.bytesPerSector
  load m (fs.diskBase + wrap32 (fatSector * fs.bytesPerSector) + entOffset) 4 &&& 0x0FFFFFFF

def fat32GetClusterPtr (fs : Fat32Fs) (cluster : ℕ) : Option ℕ :=
  if cluster < 2 then none
  else
    let sector := wrap32 (fs.dataStartSector + wrap32 ((cluster - 2) * fs.sectorsPerCluster))
    some (fs.diskBase + wrap32 (sector * fs.bytesPerSector))

def lowercase (c : UInt8) : UInt8 := if 0x41 ≤ c ∧ c ≤ 0x5A then c + 0x20 else c

def fat32FormatName (raw : List UInt8) : Name :=
  let base := ((raw.take 8).takeWhile (· ≠ 0x20)).map lowercase
  let ext := (((raw.drop 8).take 3).takeWhile (· ≠ 0x20)).map lowercase
  cstr (if raw.getD 8 0 ≠ 0x20 then base ++ 0x2E :: ext else base)

inductive Scan
  | ended
  | found (entry : ℕ)
  | more

def scanCluster (m : Mem) (name : Name) : ℕ → ℕ → Scan
  | 0, _ => .more
  | n + 1, e =>
    let attr := m (e + 11)
    if m e = 0x00 then .ended
    else if m e = 0xE5 then scanCluster m name n (e + 32)
    else if attr = FAT_ATTR_LFN then scanCluster m name n (e + 32)
    else if attr &&& FAT_ATTR_VOLUME_ID ≠ 0 then scanCluster m name n (e + 32)
    else if fat32FormatName (bytesAt m e 11) = name then .found e
    else scanCluster m name n (e + 32)

def finddirLoop (m : Mem) (fs : Fat32Fs) (name : Name) : ℕ → ℕ → Option (Option ℕ)
  | 0, _ => none
  | fuel + 1, cluster =>
    if cluster < 0x0FFFFFF8 then
      match fat32GetClusterPtr fs cluster with
      | none => some none
      | some cptr =>
        match scanCluster m name (fs.clusterSize / 32) cptr with
        | .ended => some none
        | .found e => some (some e)
        | .more => finddirLoop m fs name fuel (fat32GetNextCluster m fs cluster)
    else some none

def fat32CreateNode (s : State σ) (name : Name) (cluster size : ℕ) (isDir : Bool) : Option (ℕ × State σ) := do
  let (node, s) ← kzallocNode K (sizeofVfsNode K.arch) s
  let s ← kmallocPriv K (sizeofFat32NodePriv K.arch) s
  let priv := Priv.fat32 cluster size
  if isDir then
    some (node, s.setNode node
      { name := name, inode := cluster, length := size, devicePriv := some priv,
        flags := VFS_DIRECTORY, readdir := some .fat32, finddir := some .fat32 })
  else
    some (node, s.setNode node
      { name := name, inode := cluster, length := size, devicePriv := some priv,
        flags := VFS_FILE, read := some .fat32 })

def fat32FinddirImpl (s : State σ) (node : Node) (name : Name) : Option (ℕ × State σ) :=
  match node.devicePriv with
  | none => some (0, s)
  | some (.jurkvfs _) => none
  | some (.fat32 firstCluster _) => do
    match ← finddirLoop K.mem s.currentFat name K.fuel firstCluster with
    | none => some (0, s)
    | some e =>
      let firstCl := load K.mem (e + 20) 2 <<< 16 ||| load K.mem (e + 26) 2
      let isDir := K.mem (e + 11) &&& FAT_ATTR_DIRECTORY != 0
      fat32CreateNode K s (fat32FormatName (bytesAt K.mem e 11)) firstCl (load K.mem (e + 28) 4) isDir

def partitionLba (m : Mem) (raw : ℕ) : ℕ :=
  let partType := m (raw + 446 + 4)
  if m (raw + 510) = 0x55 ∧ m (raw + 511) = 0xAA ∧ (partType = 0x0B ∨ partType = 0x0C) then load m (raw + 446 + 8) 4
  else 0

/-- What `fat32_init` writes into `current_fat`; `none` where it rejects the disk. -/
def fat32Volume (m : Mem) (diskData diskSize : ℕ) : Option Fat32Fs :=
  if diskData = 0 ∨ diskSize < 512 then none
  else
    let lba := partitionLba m diskData
    let bpb := diskData + wrap32 (lba * 512)
    let bytesPerSector := load m (bpb + 11) 2
    let sectorsPerCluster := load m (bpb + 13) 1
    let reservedSectorCount := load m (bpb + 14) 2
    let numFats := load m (bpb + 16) 1
    let tableSize32 := load m (bpb + 36) 4
    let rootCluster := load m (bpb + 44) 4
    if bytesPerSector = 0 ∨ sectorsPerCluster = 0 then none
    else if bytesAt m (bpb + 82) 8 ≠ bytes "FAT32   " ∧ rootCluster = 0 then none
    else
      let fatStartSector := wrap32 (lba + reservedSectorCount)
      some
        { diskBase := diskData
          diskSize := diskSize
          partitionOffset := wrap32 (lba * 512)
          bytesPerSector := bytesPerSector
          sectorsPerCluster := sectorsPerCluster
          clusterSize := wrap32 (bytesPerSector * sectorsPerCluster)
          reservedSectors := reservedSectorCount
          fatStartSector := fatStartSector
          fatSizeSectors := tableSize32
          dataStartSector := wrap32 (fatStartSector + wrap32 (numFats * tableSize32))
          rootCluster := rootCluster }

def fat32Init (s : State σ) (diskData diskSize : ℕ) : Option (ℕ × State σ) :=
  match fat32Volume K.mem diskData diskSize with
  | none => some (0, s)
  | some fs => fat32CreateNode K { s with currentFat := fs } (bytes "/") fs.rootCluster 0 true

end JurkOS.Kernel.Fs
