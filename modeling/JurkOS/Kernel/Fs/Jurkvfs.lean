import JurkOS.Kernel.Fs.Types

/-!
The JurkVFS driver of `fs/jurkvfs.c`: mounting and directory lookup.
-/

namespace JurkOS.Kernel.Fs

open Lib.Libc Lib.Memory

variable {σ : Type} (K : Machine σ)

def JURKVFS_MAGIC : Name := bytes "JURKVFS1"
def JURKVFS_TYPE_DIR : ℕ := 2
def sizeofJurkvfsHeader : ℕ := 64
def sizeofJurkvfsInode : ℕ := 92

def sizeofJurkvfsNodePriv : Arch → ℕ
  | .x86 => 8
  | .x86_64 => 16

def jurkvfsInode (fs : JurkvfsFs) (i : ℕ) : ℕ := fs.inodes + sizeofJurkvfsInode * i

def totalInodes (m : Mem) (fs : JurkvfsFs) : ℕ := load m (fs.header + 16) 4

def finddirInode (m : Mem) (fs : JurkvfsFs) (parent : ℕ) (name : Name) : ℕ → ℕ → Option ℕ
  | 0, _ => none
  | n + 1, i =>
    if load m (jurkvfsInode fs i + 76) 4 = parent ∧ i ≠ parent ∧ strcmpEq m (jurkvfsInode fs i) name then some i
    else finddirInode m fs parent name n (i + 1)

def jurkvfsCreateVfsNode (s : State σ) (inodeIdx : ℕ) : Option (ℕ × State σ) := do
  let inode := jurkvfsInode s.currentFs inodeIdx
  let (node, s) ← kzallocNode K (sizeofVfsNode K.arch) s
  let name ← strcpyFrom K.mem inode FS_MAX_NAME
  let s ← kmallocPriv K (sizeofJurkvfsNodePriv K.arch) s
  let priv := Priv.jurkvfs inodeIdx
  if load K.mem (inode + 64) 4 = JURKVFS_TYPE_DIR then
    some (node, s.setNode node
      { name := name, inode := inodeIdx, length := load K.mem (inode + 68) 4, devicePriv := some priv,
        flags := VFS_DIRECTORY, readdir := some .jurkvfs, finddir := some .jurkvfs })
  else
    some (node, s.setNode node
      { name := name, inode := inodeIdx, length := load K.mem (inode + 68) 4, devicePriv := some priv,
        flags := VFS_FILE, read := some .jurkvfs })

def jurkvfsFinddirImpl (s : State σ) (node : Node) (name : Name) : Option (ℕ × State σ) :=
  match node.devicePriv with
  | none => some (0, s)
  | some (.fat32 _ _) => none
  | some (.jurkvfs inodeIndex) =>
    match finddirInode K.mem s.currentFs inodeIndex name (totalInodes K.mem s.currentFs) 0 with
    | none => some (0, s)
    | some i => jurkvfsCreateVfsNode K s i

def jurkvfsVolume (m : Mem) (diskImage imageSize : ℕ) : Option JurkvfsFs :=
  if diskImage = 0 ∨ imageSize < sizeofJurkvfsHeader then none
  else if bytesAt m diskImage 8 ≠ JURKVFS_MAGIC then none
  else
    some
      { diskData := diskImage
        diskSize := imageSize
        header := diskImage
        inodes := diskImage + load m (diskImage + 20) 4 }

def jurkvfsInit (s : State σ) (diskImage imageSize : ℕ) : Option (ℕ × State σ) :=
  match jurkvfsVolume K.mem diskImage imageSize with
  | none => some (0, s)
  | some fs => jurkvfsCreateVfsNode K { s with currentFs := fs } 0

end JurkOS.Kernel.Fs
