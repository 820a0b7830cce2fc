import JurkOS.Kernel.Loader.Elf

/-!
`loader/xec.c` and `loader_exec_buffer` of `loader/loader.c`.
-/

namespace JurkOS.Kernel.Loader

open Lib.Memory Paging Pmm

inductive BinaryType
  | unknown
  | elf64
  | elf32
  | xecFlat
  deriving DecidableEq

def XEC_BASE_VADDR : ℕ := 0x40000000

variable {a : Arch} (frame : ℕ → ℕ) (cr3 : ℕ)

variable (a) in
def xecMapLoop : ℕ → ℕ → Paging.State → Paging.State
  | 0, _, t => t
  | n + 1, i, t =>
    xecMapLoop n (i + 1)
      (mapFresh a frame cr3 t (a.wrap (XEC_BASE_VADDR + i * PAGE_SIZE)) (PAGE_USER ||| PAGE_WRITABLE))

def xecPages (b : Buffer a) : ℕ := (b.size + PAGE_SIZE - 1) / PAGE_SIZE

def xecLoad (b : Buffer a) (s : State) : Option ℕ × State :=
  if b.size = 0 then (none, s)
  else
    let s := { s with tables := xecMapLoop a frame cr3 (xecPages b) 0 s.tables }
    (some XEC_BASE_VADDR, fill a cr3 XEC_BASE_VADDR b.byteAt b.size 0 s)

def loaderProbe (b : Buffer a) : BinaryType :=
  if b.size < 4 then .unknown
  else if b.byteAt 0 = 0x7F ∧ b.byteAt 1 = 0x45 ∧ b.byteAt 2 = 0x4C ∧ b.byteAt 3 = 0x46 then
    if 4 < b.size ∧ b.byteAt 4 = 2 then .elf64
    else if 4 < b.size ∧ b.byteAt 4 = 1 then .elf32
    else .xecFlat
  else .xecFlat

variable (a) in
def stackBase : ℕ :=
  match a with
  | .x86_64 => 0x00007FFFF0000000
  | .x86 => 0x70000000

variable (a) in
/-- The frames of the stack are not cleared. -/
def stackLoop : ℕ → ℕ → Paging.State → Paging.State
  | 0, _, t => t
  | n + 1, p, t =>
    let page := frame t.allocs
    let t := { t with allocs := t.allocs + 1 }
    stackLoop n (p + 1) (vmmMapPage a frame cr3 t page (stackBase a + p * PAGE_SIZE) (PAGE_USER ||| PAGE_WRITABLE))

variable (a) in
def mapStack (s : State) : State := { s with tables := stackLoop a frame cr3 16 0 s.tables }

def loadBinary (b : Buffer a) : State → Option ℕ × State :=
  match loaderProbe b with
  | .elf64 => elf64Load a frame cr3 b
  | .elf32 => elf32Load a frame cr3 b
  | _ => xecLoad frame cr3 b

/-- `appEntry` is the program: what it returns, and what it leaves in memory. -/
def loaderExecBuffer (appEntry : ℕ → Mem → ℤ × Mem) (b : Buffer a) (s : State) : ℤ × State :=
  match loadBinary frame cr3 b s with
  | (none, s) => (-1, s)
  | (some entry, s) =>
    let s := mapStack a frame cr3 s
    let r := appEntry entry s.tables.mem
    (r.1, { s with tables := { s.tables with mem := r.2 } })

end JurkOS.Kernel.Loader
