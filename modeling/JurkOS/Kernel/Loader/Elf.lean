import JurkOS.Kernel.Paging

/-!
The ELF loaders of `loader/elf.c`. Frames and page tables are reached at their
physical addresses; what a program sees is stored through the tables.
-/

namespace JurkOS.Kernel.Loader

open Lib.Memory Paging Pmm

def PT_LOAD : ℕ := 1
def PF_W : ℕ := 2

structure Phdr where
  type : ℕ
  flags : ℕ
  offset : ℕ
  vaddr : ℕ
  filesz : ℕ
  memsz : ℕ
  deriving DecidableEq

/-- `~0xFFFULL`, as `elf64_load` has it. -/
def longMask (a : Arch) : ℕ := (~~~0xFFF#64).toNat % 2 ^ a.wordBits

/-- `~0xFFF` of an `int`, as `elf32_load` has it: the sign is extended to the word. -/
def intMask (a : Arch) : ℕ := ((~~~0xFFF#32).signExtend a.wordBits).toNat

theorem longMask_eq (a : Arch) : longMask a = frameMask a := by cases a <;> rfl

theorem intMask_eq (a : Arch) : intMask a = frameMask a := by cases a <;> rfl

/-- Where `Elf64_Ehdr`, `Elf64_Phdr` and their 32-bit siblings have the fields: position and length. -/
structure ElfClass where
  ident : UInt8
  ehdrSize : ℕ
  entry : ℕ × ℕ
  phoff : ℕ × ℕ
  phnum : ℕ × ℕ
  phdrSize : ℕ
  type : ℕ × ℕ
  flags : ℕ × ℕ
  offset : ℕ × ℕ
  vaddr : ℕ × ℕ
  filesz : ℕ × ℕ
  memsz : ℕ × ℕ
  mask : Arch → ℕ
  mask_eq : ∀ a, mask a = frameMask a

def elf64 : ElfClass where
  ident := 2
  ehdrSize := 64
  entry := (24, 8)
  phoff := (32, 8)
  phnum := (56, 2)
  phdrSize := 56
  type := (0, 4)
  flags := (4, 4)
  offset := (8, 8)
  vaddr := (16, 8)
  filesz := (32, 8)
  memsz := (40, 8)
  mask := longMask
  mask_eq := longMask_eq

def elf32 : ElfClass where
  ident := 1
  ehdrSize := 52
  entry := (24, 4)
  phoff := (28, 4)
  phnum := (44, 2)
  phdrSize := 32
  type := (0, 4)
  flags := (24, 4)
  offset := (4, 4)
  vaddr := (8, 4)
  filesz := (16, 4)
  memsz := (20, 4)
  mask := intMask
  mask_eq := intMask_eq

/-- The buffer and what lies around it, by index from its first byte; indices wrap as pointers
do, and no object covers the page of the null pointer. -/
structure Buffer (a : Arch) where
  byte : ℕ → UInt8
  size : ℕ
  size_le : size + PAGE_SIZE ≤ 2 ^ a.wordBits

/-- A store of one byte, with the rights of its page when it is made; `none` if there is no page. -/
structure Store where
  virt : ℕ
  rights : Option ℕ
  deriving DecidableEq

structure State where
  tables : Paging.State
  stores : List Store

variable {a : Arch}

namespace Buffer

def byteAt (b : Buffer a) (i : ℕ) : UInt8 := b.byte (a.wrap i)

def field (b : Buffer a) (pos : ℕ) (f : ℕ × ℕ) : ℕ := load b.byteAt (pos + f.1) f.2

def phdrPos (c : ElfClass) (b : Buffer a) (i : ℕ) : ℕ := a.wrap (b.field 0 c.phoff + c.phdrSize * i)

def phdr (c : ElfClass) (b : Buffer a) (i : ℕ) : Phdr :=
  let pos := b.phdrPos c i
  { type := b.field pos c.type
    flags := b.field pos c.flags
    offset := a.wrap (b.field pos c.offset)
    vaddr := a.wrap (b.field pos c.vaddr)
    filesz := a.wrap (b.field pos c.filesz)
    memsz := a.wrap (b.field pos c.memsz) }

end Buffer

variable (a) (frame : ℕ → ℕ) (cr3 : ℕ)

/-- Addresses outside of both halves do not reach the tables. -/
def canonical (v : ℕ) : Prop :=
  match a with
  | .x86_64 => v < 2 ^ 47 ∨ 2 ^ 64 - 2 ^ 47 ≤ v
  | .x86 => True

instance (v : ℕ) : Decidable (canonical a v) := by
  cases a
  · exact inferInstanceAs (Decidable True)
  · exact inferInstanceAs (Decidable (_ ∨ _))

def mmuWalk (m : Mem) : List (Index a) → ℕ → ℕ → Option (ℕ × ℕ)
  | [], t, rights => some (t, rights)
  | i :: p, t, rights =>
    let e := entries a m t i
    if e &&& PAGE_PRESENT = 0 then none else mmuWalk m p (e &&& frameMask a) (rights &&& e)

def mmu (t : Paging.State) (v : ℕ) : Option (ℕ × ℕ) :=
  if canonical a v then
    (mmuWalk a t.mem (path a v ++ [leaf a v]) (cr3 &&& frameMask a) (PAGE_WRITABLE ||| PAGE_USER)).map
      fun r => (r.1 + v % PAGE_SIZE, r.2)
  else none

def storeByte (s : State) (v : ℕ) (x : UInt8) : State :=
  match mmu a cr3 s.tables v with
  | none => { s with stores := ⟨v, none⟩ :: s.stores }
  | some (phys, rights) =>
    { tables := { s.tables with mem := Function.update s.tables.mem phys x }
      stores := ⟨v, some rights⟩ :: s.stores }

def fill (dest : ℕ) (src : ℕ → UInt8) : ℕ → ℕ → State → State
  | 0, _, s => s
  | n + 1, i, s => fill dest src n (i + 1) (storeByte a cr3 s (a.wrap (dest + i)) (src i))

def mapFresh (t : Paging.State) (virt flags : ℕ) : Paging.State :=
  let phys := frame t.allocs
  let t := { t with mem := memset 0 PAGE_SIZE t.mem phys, allocs := t.allocs + 1 }
  vmmMapPage a frame cr3 t phys virt flags

def mapLoop (startPage flags : ℕ) : ℕ → ℕ → Paging.State → Paging.State
  | 0, _, t => t
  | n + 1, p, t =>
    let virt := a.wrap (startPage + p * PAGE_SIZE)
    let t := if vmmGetPhys a t virt = 0 then mapFresh a frame cr3 t virt flags else t
    mapLoop startPage flags n (p + 1) t

def Phdr.pageFlags (ph : Phdr) : ℕ := if ph.flags &&& PF_W ≠ 0 then PAGE_USER ||| PAGE_WRITABLE else PAGE_USER

def Phdr.startPage (mask : ℕ) (ph : Phdr) : ℕ := ph.vaddr &&& mask

def Phdr.endPage (mask : ℕ) (ph : Phdr) : ℕ := a.wrap (ph.vaddr + ph.memsz + 0xFFF) &&& mask

def Phdr.pagesNeeded (mask : ℕ) (ph : Phdr) : ℕ := a.sub (ph.endPage a mask) (ph.startPage mask) / PAGE_SIZE

/-- The copy is made; the sum may wrap. -/
def Phdr.Copied (ph : Phdr) (size : ℕ) : Prop := 0 < ph.filesz ∧ a.wrap (ph.offset + ph.filesz) ≤ size

instance (ph : Phdr) (size : ℕ) : Decidable (ph.Copied a size) := inferInstanceAs (Decidable (_ ∧ _))

def loadSegment (mask : ℕ) (b : Buffer a) (ph : Phdr) (s : State) : State :=
  let s := { s with
    tables := mapLoop a frame cr3 (ph.startPage mask) ph.pageFlags (ph.pagesNeeded a mask) 0 s.tables }
  let s := if ph.Copied a b.size then fill a cr3 ph.vaddr (fun i => b.byteAt (ph.offset + i)) ph.filesz 0 s else s
  if ph.filesz < ph.memsz then
    fill a cr3 (a.wrap (ph.vaddr + ph.filesz)) (fun _ => 0) (ph.memsz - ph.filesz) 0 s
  else s

def phdrLoop (c : ElfClass) (b : Buffer a) : ℕ → ℕ → State → State
  | 0, _, s => s
  | n + 1, i, s =>
    let ph := b.phdr c i
    phdrLoop c b n (i + 1) (if ph.type ≠ PT_LOAD then s else loadSegment a frame cr3 (c.mask a) b ph s)

def Accepted (c : ElfClass) (b : Buffer a) : Prop :=
  c.ehdrSize ≤ b.size ∧ b.byteAt 0 = 0x7F ∧ b.byteAt 1 = 0x45 ∧ b.byteAt 2 = 0x4C ∧ b.byteAt 3 = 0x46 ∧
    b.byteAt 4 = c.ident

instance (c : ElfClass) (b : Buffer a) : Decidable (Accepted a c b) := inferInstanceAs (Decidable (_ ∧ _))

/-- The entry point if the loader returns 0, `none` if it returns -1. -/
def elfLoad (c : ElfClass) (b : Buffer a) (s : State) : Option ℕ × State :=
  if Accepted a c b then
    (some (a.wrap (b.field 0 c.entry)), phdrLoop a frame cr3 c b (b.field 0 c.phnum) 0 s)
  else (none, s)

def elf64Load : Buffer a → State → Option ℕ × State := elfLoad a frame cr3 elf64

def elf32Load : Buffer a → State → Option ℕ × State := elfLoad a frame cr3 elf32

variable {a frame cr3}

def Buffer.segments (c : ElfClass) (b : Buffer a) : List Phdr :=
  ((List.range (b.field 0 c.phnum)).map (b.phdr c)).filter fun ph => ph.type = PT_LOAD

theorem phdrLoop_eq {c : ElfClass} {b : Buffer a} {n i : ℕ} {s : State} : phdrLoop a frame cr3 c b n i s =
    (((List.range' i n).map (b.phdr c)).filter fun ph => ph.type = PT_LOAD).foldl
      (fun s ph => loadSegment a frame cr3 (frameMask a) b ph s) s := by
  induction n generalizing i s with
  | zero => rfl
  | succ n ih =>
    rw [phdrLoop, List.range'_succ, List.map_cons, List.filter_cons, ih]
    by_cases hload : (b.phdr c i).type = PT_LOAD
    · rw [if_neg (not_not.mpr hload), if_pos (decide_eq_true hload), List.foldl_cons, c.mask_eq]
    · rw [if_pos hload, if_neg (by simpa using hload)]

theorem elfLoad_eq {c : ElfClass} {b : Buffer a} {s : State} (hacc : Accepted a c b) :
    elfLoad a frame cr3 c b s = (some (a.wrap (b.field 0 c.entry)),
      (b.segments c).foldl (fun s ph => loadSegment a frame cr3 (frameMask a) b ph s) s) := by
  rw [elfLoad, if_pos hacc, phdrLoop_eq, Buffer.segments, List.range_eq_range']

structure Phdr.Words (a : Arch) (ph : Phdr) : Prop where
  offset : ph.offset < 2 ^ a.wordBits
  vaddr : ph.vaddr < 2 ^ a.wordBits
  filesz : ph.filesz < 2 ^ a.wordBits
  memsz : ph.memsz < 2 ^ a.wordBits

theorem Buffer.segments_words {c : ElfClass} {b : Buffer a} {ph : Phdr} (h : ph ∈ b.segments c) :
    ph.Words a ∧ ph.type = PT_LOAD := by
  have hpos : 0 < 2 ^ a.wordBits := by positivity
  obtain ⟨hmem, htype⟩ := List.mem_filter.mp h
  obtain ⟨i, -, rfl⟩ := List.mem_map.mp hmem
  exact ⟨⟨Nat.mod_lt _ hpos, Nat.mod_lt _ hpos, Nat.mod_lt _ hpos, Nat.mod_lt _ hpos⟩, of_decide_eq_true htype⟩

def oneSegmentByte (flags filesz : UInt8) : ℕ → UInt8
  | 0 => 0x7F
  | 1 => 0x45
  | 2 => 0x4C
  | 3 => 0x46
  | 4 => 2
  | 32 => 64
  | 56 => 1
  | 64 => 1
  | 68 => flags
  | 72 => 120
  | 82 => 0x40
  | 96 => filesz
  | 104 => 8
  | 120 => 0xAA
  | _ => 0

def oneSegment (flags filesz : UInt8) : Buffer .x86_64 := ⟨oneSegmentByte flags filesz, 124, by decide⟩

end JurkOS.Kernel.Loader
