import JurkOS.Kernel.Fs.Fat32
import JurkOS.Kernel.Fs.Jurkvfs

/-!
Path lookup and mounting of `fs/vfs.c`.
-/

namespace JurkOS.Kernel.Fs

open Lib.Libc

variable {σ : Type} (K : Machine σ)

def devfsFinddirLoop (s : State σ) (name : Name) : List ℕ → Option ℕ
  | [] => some 0
  | child :: rest =>
    match s.nodes child with
    | none => none
    | some node => if node.name = name then some child else devfsFinddirLoop s name rest

def devfsFinddirImpl (s : State σ) (node : Node) (name : Name) : Option (ℕ × State σ) :=
  (devfsFinddirLoop s name node.children).map (·, s)

def vfsInit (s : State σ) : Option (State σ) := do
  let (root, s) ← kzallocNode K (sizeofVfsNode K.arch) s
  some ({ s with vfsRoot := root }.setNode root { name := bytes "/", flags := VFS_DIRECTORY })

def vfsFinddir (s : State σ) (p : ℕ) (name : Name) : Option (ℕ × State σ) :=
  if p = 0 then some (0, s)
  else
    match s.nodes p with
    | none => none
    | some node =>
      if node.flags &&& VFS_DIRECTORY = 0 then some (0, s)
      else
        match node.finddir with
        | none => some (0, s)
        | some .devfs => devfsFinddirImpl s node name
        | some .fat32 => fat32FinddirImpl K s node name
        | some .jurkvfs => jurkvfsFinddirImpl K s node name

def SLASH : UInt8 := 0x2F

/-- The loops of `vfs_lookup` that cut the path: `token` holds what is read of the next token. -/
def tokens : Name → Name → List Name
  | token, [] => if token = [] then [] else [token]
  | token, c :: path =>
    if c = SLASH then
      if token = [] then tokens [] path else token :: tokens [] path
    else if token.length < FS_MAX_NAME - 1 then tokens (token ++ [c]) path
    else token :: tokens [c] path

def followPtr (s : State σ) (current : ℕ) : Option ℕ :=
  (s.nodes current).map fun node => if node.ptr ≠ 0 then node.ptr else current

def lookupLoop (s : State σ) (current : ℕ) : List Name → Option (ℕ × State σ)
  | [] => (followPtr s current).map (·, s)
  | token :: rest => do
    let current ← followPtr s current
    let (next, s) ← vfsFinddir K s current token
    if next = 0 then some (0, s) else lookupLoop s next rest

def vfsLookup (s : State σ) (path : Name) : Option (ℕ × State σ) :=
  if s.vfsRoot = 0 then some (0, s)
  else if path = [SLASH] then some (s.vfsRoot, s)
  else lookupLoop K s s.vfsRoot (tokens [] path)

def vfsMount (s : State σ) (path : Name) (target : ℕ) : Option (ℤ × State σ) :=
  if target = 0 then some (-1, s)
  else if path = [SLASH] then some (0, { s with vfsRoot := target })
  else do
    let (mountPoint, s) ← vfsLookup K s path
    if mountPoint = 0 then some (-1, s)
    else
      let node ← s.nodes mountPoint
      some (0, s.setNode mountPoint { node with ptr := target })

end JurkOS.Kernel.Fs
