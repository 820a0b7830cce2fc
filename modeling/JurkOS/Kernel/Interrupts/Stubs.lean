import JurkOS.Kernel.Types
import JurkOS.Lib.WordStack
import Mathlib.Data.Nat.Bitwise

/-!
The stubs of `interrupts.s` for both builds, and what the processor does before them,
in them and at their `iret`. The kernel and what it loads run at one privilege level.
-/

namespace JurkOS.Kernel.Interrupts

open Lib.Memory Lib.WordStack

abbrev Register (a : Arch) := Word a.wordBytes

abbrev Selector := Fin (2 ^ 16)

inductive Gpr
  | ax | cx | dx | bx | bp | si | di | r8 | r9 | r10 | r11 | r12 | r13 | r14 | r15
  deriving DecidableEq

inductive Sreg
  | ds | es | fs | gs
  deriving DecidableEq

structure Cpu (a : Arch) where
  gpr : Gpr → Register a
  sreg : Sreg → Selector
  ip : Register a
  cs : Selector
  flags : Register a
  sp : Register a
  ss : Selector
  sse : Fin 16 → Fin (2 ^ 128)
  idtr : Register a
  gdtr : Register a

/-- `dev` is what lies behind the ports. -/
structure Machine (a : Arch) (D : Type) where
  cpu : Cpu a
  mem : Mem
  dev : D

inductive Callee
  | isr_handler
  | irq_handler

inductive Instr
  | pushImm (v : ℕ)
  | push (r : Gpr)
  | pushSeg (s : Sreg)
  | pushSp
  | pusha
  | movSp (r : Gpr)
  | movImm16 (v : ℕ) (r : Gpr)
  | movSeg (r : Gpr) (s : Sreg)
  | call (f : Callee)
  | addSp (n : ℕ)
  | pop (r : Gpr)
  | popSeg (s : Sreg)
  | popa
  | iret

open Instr

/-- The vectors that stand behind `ISR_ERRCODE`. -/
def ISR_ERRCODE : List ℕ := [8, 10, 11, 12, 13, 14, 17, 30]

def commonStub (f : Callee) : Arch → List Instr
  | .x86_64 =>
    [push .di, push .si, push .dx, push .cx, push .ax, push .r8, push .r9, push .r10, push .r11, push .bx, push .bp,
      push .r12, push .r13, push .r14, push .r15, movSp .di, call f, pop .r15, pop .r14, pop .r13, pop .r12, pop .bp,
      pop .bx, pop .r11, pop .r10, pop .r9, pop .r8, pop .ax, pop .cx, pop .dx, pop .si, pop .di, addSp 16, iret]
  | .x86 =>
    [pusha, pushSeg .ds, pushSeg .es, pushSeg .fs, pushSeg .gs, movImm16 0x10 .ax, movSeg .ax .ds, movSeg .ax .es,
      movSeg .ax .fs, movSeg .ax .gs, pushSp, call f, addSp 4, popSeg .gs, popSeg .fs, popSeg .es, popSeg .ds, popa,
      addSp 8, iret]

def isrStub (a : Arch) (num : ℕ) : List Instr :=
  (if num ∈ ISR_ERRCODE then [pushImm num] else [pushImm 0, pushImm num]) ++ commonStub .isr_handler a

def irqStub (a : Arch) (irqNum : ℕ) : List Instr := [pushImm 0, pushImm irqNum] ++ commonStub .irq_handler a

variable {a : Arch} {D : Type}

def selector (v : Register a) : Selector := ⟨v % 2 ^ 16, Nat.mod_lt _ (by decide)⟩

def Machine.stack (m : Machine a D) : Stack a.wordBytes := ⟨m.mem, m.cpu.sp⟩

def Machine.withStack (m : Machine a D) (s : Stack a.wordBytes) : Machine a D :=
  { m with cpu := { m.cpu with sp := s.sp }, mem := s.mem }

def Machine.push (m : Machine a D) (v : Register a) : Machine a D := m.withStack (m.stack.push v)

def Machine.pushAll (m : Machine a D) (vs : List (Register a)) : Machine a D := vs.foldr (fun v m => m.push v) m

def Machine.drop (m : Machine a D) (k : ℕ) : Machine a D := m.withStack (m.stack.drop k)

def Machine.slot (m : Machine a D) (k : ℕ) : Register a := peek a.wordBytes m.mem (m.cpu.sp + a.wordBytes * k)

def Cpu.setGpr (c : Cpu a) (r : Gpr) (v : Register a) : Cpu a := { c with gpr := Function.update c.gpr r v }

def Cpu.setSreg (c : Cpu a) (s : Sreg) (v : Selector) : Cpu a := { c with sreg := Function.update c.sreg s v }

/-- Where a word goes that is popped; `popa` skips the stack pointer. -/
inductive Place
  | gpr (r : Gpr)
  | sreg (s : Sreg)
  | nowhere
  deriving DecidableEq

def Cpu.put (c : Cpu a) (v : Register a) : Place → Cpu a
  | .gpr r => c.setGpr r v
  | .sreg s => c.setSreg s (selector v)
  | .nowhere => c

def Machine.popTo (m : Machine a D) (p : Place) : Machine a D :=
  let m' := m.drop 1
  { m' with cpu := m'.cpu.put (m.slot 0) p }

def popaPlaces : List Place :=
  [.gpr .di, .gpr .si, .gpr .bp, .nowhere, .gpr .bx, .gpr .dx, .gpr .cx, .gpr .ax]

def Cpu.pushaWords (c : Cpu a) : List (Register a) :=
  [c.gpr .di, c.gpr .si, c.gpr .bp, c.sp, c.gpr .bx, c.gpr .dx, c.gpr .cx, c.gpr .ax]

/-- What a stub is run with: the processor may move 16 bits when it pushes a selector, or a whole word;
the functions are given up to their `ret`. -/
structure Setting (a : Arch) (D : Type) where
  zeroExtends : Bool
  callee : Callee → Machine a D → Machine a D
  returnTo : Register a

def Machine.selectorWord (m : Machine a D) (zeroExtends : Bool) (v : Selector) : Register a :=
  let below := (m.stack.push (word _ 0)).sp.val
  word _ (v + if zeroExtends then 0 else 2 ^ 16 * load m.mem (below + 2) (a.wordBytes - 2))

def Machine.iret (m : Machine a D) : Machine a D :=
  { m with cpu :=
    { m.cpu with
      ip := m.slot 0
      cs := selector (m.slot 1)
      flags := m.slot 2
      sp := if a = .x86_64 then m.slot 3 else (m.drop 3).cpu.sp
      ss := if a = .x86_64 then selector (m.slot 4) else m.cpu.ss } }

/-- The flags that `add` sets are those that `iret` replaces. -/
def exec (σ : Setting a D) (m : Machine a D) : Instr → Machine a D
  | pushImm v => m.push (word _ v)
  | push r => m.push (m.cpu.gpr r)
  | pushSeg s => m.push (m.selectorWord σ.zeroExtends (m.cpu.sreg s))
  | pushSp => m.push m.cpu.sp
  | pusha => m.pushAll m.cpu.pushaWords
  | movSp r => { m with cpu := m.cpu.setGpr r m.cpu.sp }
  | movImm16 v r => { m with cpu := m.cpu.setGpr r (word _ (m.cpu.gpr r / 2 ^ 16 * 2 ^ 16 + v)) }
  | movSeg r s => { m with cpu := m.cpu.setSreg s (selector (m.cpu.gpr r)) }
  | call f => (σ.callee f (m.push σ.returnTo)).drop 1
  | addSp n => { m with cpu := { m.cpu with sp := word _ (m.cpu.sp + n) } }
  | pop r => m.popTo (.gpr r)
  | popSeg s => m.popTo (.sreg s)
  | popa => popaPlaces.foldl Machine.popTo m
  | iret => m.iret

def run (σ : Setting a D) (code : List Instr) (m : Machine a D) : Machine a D := code.foldl (exec σ) m

def ERROR_CODE : List ℕ := [8, 10, 11, 12, 13, 14, 17, 21, 29, 30]

/-- `TF`, `IF`, `NT` and `RF`, which an interrupt gate clears. -/
def GATE_CLEARS : ℕ := 0x14300

def Cpu.frame (c : Cpu a) : List (Register a) :=
  [c.ip, word _ c.cs, c.flags] ++ if a = .x86_64 then [c.sp, word _ c.ss] else []

/-- In long mode the frame begins at a multiple of 16. -/
def Cpu.frameBase (c : Cpu a) : ℕ := if a = .x86_64 then c.sp - c.sp % 16 else c.sp

def enter (offset : Register a) (cs : Selector) (err : Option (Register a)) (m : Machine a D) : Machine a D :=
  let flags := word _ (Nat.ldiff m.cpu.flags GATE_CLEARS)
  let c := { m.cpu with ip := offset, cs := cs, flags := flags, sp := word _ m.cpu.frameBase }
  ({ m with cpu := c } : Machine a D).pushAll (err.toList ++ m.cpu.frame)

inductive Field
  | gpr (r : Gpr)
  | sreg (s : Sreg)
  | pushedSp
  | int_no
  | err_code
  | ip
  | cs
  | flags
  | sp
  | ss
  deriving DecidableEq

/-- `struct cpu_state` and `struct cpu_state_32`. -/
def cpuState : Arch → List Field
  | .x86_64 =>
    [.gpr .r15, .gpr .r14, .gpr .r13, .gpr .r12, .gpr .bp, .gpr .bx, .gpr .r11, .gpr .r10, .gpr .r9, .gpr .r8, .gpr .ax,
      .gpr .cx, .gpr .dx, .gpr .si, .gpr .di, .int_no, .err_code, .ip, .cs, .flags, .sp, .ss]
  | .x86 =>
    [.sreg .gs, .sreg .fs, .sreg .es, .sreg .ds, .gpr .di, .gpr .si, .gpr .bp, .pushedSp, .gpr .bx, .gpr .dx, .gpr .cx,
      .gpr .ax, .int_no, .err_code, .ip, .cs, .flags, .sp, .ss]

def field (a : Arch) (m : Mem) (state : ℕ) (f : Field) : Register a :=
  peek a.wordBytes m (state + a.wordBytes * (cpuState a).idxOf f)

def Machine.stateArg (m : Machine a D) : Register a :=
  if a = .x86_64 then m.cpu.gpr .di else m.slot 1

end JurkOS.Kernel.Interrupts
