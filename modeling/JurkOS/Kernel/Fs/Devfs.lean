import JurkOS.Kernel.Fs.Vfs

/-!
The device tree of `fs/devfs.c`.
-/

namespace JurkOS.Kernel.Fs

open Lib.Libc

variable {σ : Type} (K : Machine σ)

def sizeofDevfsEntry : Arch → ℕ
  | .x86 => 240
  | .x86_64 => 344

def devfsCreateEntry (s : State σ) (name : Name) (flags : ℕ) : Option (ℕ × State σ) := do
  let (entry, s) ← kzallocNode K (sizeofDevfsEntry K.arch) s
  -- `strcpy` into the name of the node
  if name.length < FS_MAX_NAME then
    some (entry, s.setNode entry { name := name, flags := flags, readdir := some .devfs, finddir := some .devfs })
  else none

def addChild (s : State σ) (parent entry : ℕ) : Option (State σ) := do
  let node ← s.nodes parent
  if node.children.length < 16 then
    some (s.setNode parent { node with children := node.children ++ [entry] })
  else some s

def devfsRegisterFolder (s : State σ) (folderPath : Name) : Option (State σ) :=
  if s.devRoot = 0 then some s
  else do
    let (sub, s) ← devfsCreateEntry K s folderPath VFS_DIRECTORY
    addChild s s.devRoot sub

def devfsFolder (s : State σ) (folder : Name) : Option (ℕ × State σ) := do
  let root ← s.nodes s.devRoot
  let found ← devfsFinddirLoop s folder root.children
  if found ≠ 0 then some (found, s)
  else do
    let (folder, s) ← devfsCreateEntry K s folder VFS_DIRECTORY
    let s ← addChild s s.devRoot folder
    some (folder, s)

def devfsRegister (s : State σ) (path : Name) (flags : ℕ) : Option (ℕ × State σ) :=
  if s.devRoot = 0 then some (0, s)
  else do
    let folder := path.takeWhile (· ≠ SLASH)
    let nodeName := if folder.length < path.length then path.drop (folder.length + 1) else path
    -- the buffers `folder[32]` and `node_name[64]`
    if folder.length < path.length ∧ 32 ≤ folder.length then none
    else if 64 ≤ nodeName.length then none
    else do
      let (parent, s) ← if folder.length < path.length then devfsFolder K s folder else some (s.devRoot, s)
      let (entry, s) ← devfsCreateEntry K s nodeName flags
      let s ← addChild s parent entry
      some (entry, s)

structure PciDevice where
  bus : UInt8
  slot : UInt8
  func : UInt8

def pciNode (dev : PciDevice) : Name :=
  bytes "pci/" ++ [0x30 + dev.bus / 10, 0x30 + dev.bus % 10, 0x3A, 0x30 + dev.slot / 10, 0x30 + dev.slot % 10, 0x2E,
    0x30 + dev.func]

def devfsNewRoot (s : State σ) : Option (State σ) := do
  let (root, s) ← devfsCreateEntry K s (bytes "dev") VFS_DIRECTORY
  some { s with devRoot := root }

def devfsDevices : List (Name × ℕ) :=
  [(bytes "null", VFS_CHARDEVICE), (bytes "zero", VFS_CHARDEVICE), (bytes "urandom", VFS_CHARDEVICE),
    (bytes "console", VFS_CHARDEVICE), (bytes "tty", VFS_CHARDEVICE), (bytes "ttyS0", VFS_CHARDEVICE),
    (bytes "fb0", VFS_CHARDEVICE), (bytes "input/kbd0", VFS_CHARDEVICE), (bytes "net/eth0", VFS_CHARDEVICE),
    (bytes "disk/jurk_root", VFS_BLOCKDEVICE), (bytes "disk/sda", VFS_BLOCKDEVICE)]

def registerAll : List (Name × ℕ) → State σ → Option (State σ)
  | [], s => some s
  | d :: rest, s => do
    let (_, s) ← devfsRegister K s d.1 d.2
    registerAll rest s

def devfsInit (s : State σ) (pci : List PciDevice) : Option (State σ) := do
  let s ← devfsNewRoot K s
  let s ← registerAll K (devfsDevices ++ pci.map fun dev => (pciNode dev, VFS_CHARDEVICE)) s
  let (_, s) ← vfsMount K s (bytes "/dev") s.devRoot
  some s

end JurkOS.Kernel.Fs
