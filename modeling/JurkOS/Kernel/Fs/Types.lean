import JurkOS.Kernel.Types
import JurkOS.Kernel.Alloc
import JurkOS.Lib.Memory
import JurkOS.Lib.Libc

/-!
Nodes of the virtual file system (`vfs.h`) and what the drivers share. Nodes
live in a store of their own, keyed by address; disk images are plain memory.
-/

namespace JurkOS.Kernel.Fs

open Lib.Libc Lib.Memory

abbrev Name := List UInt8

def VFS_FILE : ℕ := 0x01
def VFS_DIRECTORY : ℕ := 0x02
def VFS_CHARDEVICE : ℕ := 0x03
def VFS_BLOCKDEVICE : ℕ := 0x04
def FS_MAX_NAME : ℕ := 128

inductive Finddir
  | devfs
  | fat32
  | jurkvfs
  deriving DecidableEq

inductive Readdir
  | devfs
  | fat32
  | jurkvfs
  deriving DecidableEq

/-- The read handlers of the volumes; those of devices are not kept. -/
inductive Read
  | fat32
  | jurkvfs
  deriving DecidableEq

/-- `device_priv`; the `fs` field in it always is the driver's one static volume. -/
inductive Priv
  | fat32 (firstCluster fileSize : ℕ)
  | jurkvfs (inodeIndex : ℕ)

/-- A `vfs_node_t`, with the children of the `devfs_entry` that it may start. -/
structure Node where
  name : Name := []
  flags : ℕ := 0
  length : ℕ := 0
  inode : ℕ := 0
  read : Option Read := none
  readdir : Option Readdir := none
  finddir : Option Finddir := none
  ptr : ℕ := 0
  devicePriv : Option Priv := none
  children : List ℕ := []

structure Fat32Fs where
  diskBase : ℕ := 0
  diskSize : ℕ := 0
  partitionOffset : ℕ := 0
  bytesPerSector : ℕ := 0
  sectorsPerCluster : ℕ := 0
  clusterSize : ℕ := 0
  reservedSectors : ℕ := 0
  fatStartSector : ℕ := 0
  fatSizeSectors : ℕ := 0
  dataStartSector : ℕ := 0
  rootCluster : ℕ := 0
  deriving DecidableEq

structure JurkvfsFs where
  diskData : ℕ := 0
  diskSize : ℕ := 0
  header : ℕ := 0
  inodes : ℕ := 0

structure State (σ : Type) where
  nodes : ℕ → Option Node
  vfsRoot : ℕ
  devRoot : ℕ
  currentFat : Fat32Fs
  currentFs : JurkvfsFs
  heap : σ

/-- `fuel` bounds the cluster chains that are followed. -/
structure Machine (σ : Type) where
  arch : Arch
  alloc : Allocator σ
  mem : Mem
  fuel : ℕ

variable {σ : Type}

/-- The operations give `none` where the code dereferences a null or stray pointer, overruns a
buffer, or does not come to an end. -/
def kzallocNode (K : Machine σ) (size : ℕ) (s : State σ) : Option (ℕ × State σ) :=
  let r := K.alloc.kmalloc s.heap size
  if r.1 = 0 then none
  else some (r.1, { s with nodes := Function.update s.nodes r.1 (some {}), heap := r.2 })

def kmallocPriv (K : Machine σ) (size : ℕ) (s : State σ) : Option (State σ) :=
  let r := K.alloc.kmalloc s.heap size
  if r.1 = 0 then none else some { s with heap := r.2 }

def State.setNode (s : State σ) (p : ℕ) (node : Node) : State σ :=
  { s with nodes := Function.update s.nodes p (some node) }

@[simp] theorem State.setNode_nodes (s : State σ) (p : ℕ) (node : Node) :
    (s.setNode p node).nodes = Function.update s.nodes p (some node) := rfl

@[simp] theorem State.setNode_vfsRoot (s : State σ) (p : ℕ) (node : Node) :
    (s.setNode p node).vfsRoot = s.vfsRoot := rfl

@[simp] theorem State.setNode_heap (s : State σ) (p : ℕ) (node : Node) : (s.setNode p node).heap = s.heap := rfl

def sizeofVfsNode : Arch → ℕ
  | .x86 => 172
  | .x86_64 => 208

def strcmpEq (m : Mem) (p : ℕ) : Name → Bool
  | [] => m p = 0
  | c :: s => m p = c && strcmpEq m (p + 1) s

def strcpyFrom (m : Mem) (p : ℕ) : ℕ → Option Name
  | 0 => none
  | n + 1 => if m p = 0 then some [] else (strcpyFrom m (p + 1) n).map (m p :: ·)

def bytesAt (m : Mem) (p n : ℕ) : List UInt8 := (List.range n).map fun i => m (p + i)

def wrap32 (x : ℕ) : ℕ := x % 2 ^ 32

variable {m : Mem} {p n k : ℕ}

theorem strcpyFrom_of_terminated (hk : k < n) (h : m (p + k) = 0) : ∃ s, strcpyFrom m p n = some s := by
  induction n generalizing p k with
  | zero => cases hk
  | succ n ih =>
    unfold strcpyFrom
    by_cases hend : m p = 0
    · exact ⟨[], if_pos hend⟩
    · cases k with
      | zero => exact absurd h hend
      | succ k =>
        obtain ⟨s, hs⟩ := ih (p := p + 1) (k := k) (by omega) (by rw [← h]; congr 1; omega)
        exact ⟨m p :: s, by rw [if_neg hend, hs]; rfl⟩

theorem strcpyFrom_isSome_iff : (∃ s, strcpyFrom m p n = some s) ↔ ∃ k < n, m (p + k) = 0 := by
  constructor
  · rintro ⟨s, hs⟩
    induction n generalizing p s with
    | zero => cases hs
    | succ n ih =>
      unfold strcpyFrom at hs
      by_cases hend : m p = 0
      · exact ⟨0, Nat.succ_pos n, hend⟩
      · rw [if_neg hend] at hs
        obtain ⟨t, ht, -⟩ := Option.map_eq_some_iff.mp hs
        obtain ⟨k, hk, hzero⟩ := ih t ht
        have hpos : p + 1 + k = p + (k + 1) := by omega
        exact ⟨k + 1, Nat.succ_lt_succ hk, hpos ▸ hzero⟩
  · rintro ⟨k, hk, hzero⟩
    exact strcpyFrom_of_terminated hk hzero

end JurkOS.Kernel.Fs
