import JurkOS.Kernel.Fs.Vfs

/-!
Listing of directories: `vfs_readdir` and the handlers behind it.
-/

namespace JurkOS.Kernel.Fs

open Lib.Libc Lib.Memory

variable {σ : Type} (K : Machine σ)

structure Dirent where
  name : Name
  inode : ℕ
  flags : ℕ
  deriving DecidableEq

def devfsReaddirImpl (s : State σ) (node : Node) (index : ℕ) : Option (Option Dirent) :=
  match node.children[index]? with
  | none => some none
  | some child => (s.nodes child).map fun child => some ⟨child.name, child.inode, child.flags⟩

def readdirInode (m : Mem) (fs : JurkvfsFs) (parent index : ℕ) : ℕ → ℕ → ℕ → Option ℕ
  | 0, _, _ => none
  | n + 1, i, currentMatch =>
    if load m (jurkvfsInode fs i + 76) 4 = parent ∧ i ≠ parent then
      if currentMatch = index then some i
      else readdirInode m fs parent index n (i + 1) (wrap32 (currentMatch + 1))
    else readdirInode m fs parent index n (i + 1) currentMatch

def jurkvfsReaddirImpl (s : State σ) (node : Node) (index : ℕ) : Option (Option Dirent) :=
  match node.devicePriv with
  | none => some none
  | some (.fat32 _ _) => none
  | some (.jurkvfs inodeIndex) =>
    match readdirInode K.mem s.currentFs inodeIndex index (totalInodes K.mem s.currentFs) 0 0 with
    | none => some none
    | some i => do
      let inode := jurkvfsInode s.currentFs i
      let name ← strcpyFrom K.mem inode FS_MAX_NAME
      some (some ⟨name, i, if load K.mem (inode + 64) 4 = JURKVFS_TYPE_DIR then VFS_DIRECTORY else VFS_FILE⟩)

inductive ReaddirScan
  | ended
  | found (entry : ℕ)
  | more (currentMatch : ℕ)

def readdirCluster (m : Mem) (index : ℕ) : ℕ → ℕ → ℕ → ReaddirScan
  | 0, _, currentMatch => .more currentMatch
  | n + 1, e, currentMatch =>
    let attr := m (e + 11)
    if m e = 0x00 then .ended
    else if m e = 0xE5 then readdirCluster m index n (e + 32) currentMatch
    else if attr = FAT_ATTR_LFN then readdirCluster m index n (e + 32) currentMatch
    else if attr &&& FAT_ATTR_VOLUME_ID ≠ 0 then readdirCluster m index n (e + 32) currentMatch
    else if m e = 0x2E then readdirCluster m index n (e + 32) currentMatch
    else if currentMatch = index then .found e
    else readdirCluster m index n (e + 32) (wrap32 (currentMatch + 1))

def readdirLoop (m : Mem) (fs : Fat32Fs) (index : ℕ) : ℕ → ℕ → ℕ → Option (Option ℕ)
  | 0, _, _ => none
  | fuel + 1, cluster, currentMatch =>
    if cluster < 0x0FFFFFF8 then
      match fat32GetClusterPtr fs cluster with
      | none => some none
      | some cptr =>
        match readdirCluster m index (fs.clusterSize / 32) cptr currentMatch with
        | .ended => some none
        | .found e => some (some e)
        | .more currentMatch => readdirLoop m fs index fuel (fat32GetNextCluster m fs cluster) currentMatch
    else some none

def fat32ReaddirImpl (s : State σ) (node : Node) (index : ℕ) : Option (Option Dirent) :=
  match node.devicePriv with
  | none => some none
  | some (.jurkvfs _) => none
  | some (.fat32 firstCluster _) => do
    match ← readdirLoop K.mem s.currentFat index K.fuel firstCluster 0 with
    | none => some none
    | some e =>
      let inode := load K.mem (e + 20) 2 <<< 16 ||| load K.mem (e + 26) 2
      let flags := if K.mem (e + 11) &&& FAT_ATTR_DIRECTORY ≠ 0 then VFS_DIRECTORY else VFS_FILE
      some (some ⟨fat32FormatName (bytesAt K.mem e 11), inode, flags⟩)

def vfsReaddir (s : State σ) (p index : ℕ) : Option (Option Dirent) :=
  if p = 0 then some none
  else
    match s.nodes p with
    | none => none
    | some node =>
      if node.flags &&& VFS_DIRECTORY = 0 then some none
      else
        match node.readdir with
        | none => some none
        | some .devfs => devfsReaddirImpl s node index
        | some .fat32 => fat32ReaddirImpl K s node index
        | some .jurkvfs => jurkvfsReaddirImpl K s node index

end JurkOS.Kernel.Fs
