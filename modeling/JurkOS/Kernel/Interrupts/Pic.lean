import Mathlib.Data.Fin.Basic
import Mathlib.Data.Nat.Bitwise
import Mathlib.Tactic.Common

/-!
The pair of 8259 interrupt controllers, as far as `idt.c` uses them, and `pic_remap`.
-/

namespace JurkOS.Kernel.Interrupts

inductive Stage
  | icw2
  | icw3
  | icw4
  | ready
  deriving DecidableEq

structure Setup where
  stage : Stage
  single : Bool
  levelTriggered : Bool
  needsIcw4 : Bool
  autoEoi : Bool
  base : UInt8
  cascade : UInt8
  mask : UInt8
  inService : Fin 8 → Bool

structure Chip where
  setup : Setup
  line : Fin 8 → Bool
  request : Fin 8 → Bool

structure Pic where
  master : Chip
  slave : Chip

def endFirst (inService : Fin 8 → Bool) : Fin 8 → Bool :=
  match (List.finRange 8).find? inService with
  | some i => Function.update inService i false
  | none => inService

/-- Of the other commands only the end of interrupt is given that names no request. -/
def Setup.command (s : Setup) (v : UInt8) : Setup :=
  if v.toNat.testBit 4 then
    { s with
      stage := .icw2
      needsIcw4 := v.toNat.testBit 0
      single := v.toNat.testBit 1
      levelTriggered := v.toNat.testBit 3
      autoEoi := false
      mask := 0
      inService := fun _ => false }
  else if v = 0x20 then { s with inService := endFirst s.inService }
  else s

def Setup.data (s : Setup) (v : UInt8) : Setup :=
  let last := if s.needsIcw4 then .icw4 else .ready
  match s.stage with
  | .icw2 => { s with base := v &&& 0xF8, stage := if s.single then last else .icw3 }
  | .icw3 => { s with cascade := v, stage := last }
  | .icw4 => { s with autoEoi := v.toNat.testBit 1, stage := .ready }
  | .ready => { s with mask := v }

/-- The first initialisation word forgets the edges seen. -/
def Chip.command (c : Chip) (v : UInt8) : Chip :=
  { c with
    setup := c.setup.command v
    request := if v.toNat.testBit 4 then fun _ => false else c.request }

def Chip.data (c : Chip) (v : UInt8) : Chip := { c with setup := c.setup.data v }

def Chip.setLine (c : Chip) (i : Fin 8) (level : Bool) : Chip :=
  { c with
    line := Function.update c.line i level
    request := Function.update c.request i
      (level && (c.setup.levelTriggered || c.request i || !c.line i)) }

/-- The request that the controller asserts: nothing passes one in service. -/
def Chip.asserted (c : Chip) : Option (Fin 8) :=
  ((List.finRange 8).takeWhile fun i => !c.setup.inService i).find? fun i =>
    c.request i && !c.setup.mask.toNat.testBit i

def Chip.accept (c : Chip) (i : Fin 8) : Chip :=
  { c with
    setup := { c.setup with
      inService := if c.setup.autoEoi then c.setup.inService else Function.update c.setup.inService i true }
    request := if c.setup.levelTriggered then c.request else Function.update c.request i false }

/-- The vector is that of the lowest request if the line has dropped. -/
def Chip.acknowledge (c : Chip) : Chip × ℕ :=
  match c.asserted with
  | some i => (c.accept i, c.setup.base.toNat + i)
  | none => (c, c.setup.base.toNat + 7)

/-- The slave drives the master's second line. -/
def Pic.wire (p : Pic) : Pic := { p with master := p.master.setLine 2 p.slave.asserted.isSome }

abbrev keyboardLine : Fin 8 := 1

def Pic.write (p : Pic) (port : ℕ) (v : UInt8) : Pic :=
  if port = 0x20 then { p with master := p.master.command v }
  else if port = 0x21 then { p with master := p.master.data v }
  else if port = 0xA0 then { p with slave := p.slave.command v }
  else if port = 0xA1 then { p with slave := p.slave.data v }
  else p

def Pic.outb (p : Pic) (port : ℕ) (v : UInt8) : Pic := (p.write port v).wire

def Pic.setLine (p : Pic) (irq : Fin 16) (level : Bool) : Pic :=
  Pic.wire (
    if h : irq.val < 8 then { p with master := p.master.setLine ⟨irq, h⟩ level }
    else { p with slave := p.slave.setLine ⟨irq - 8, by omega⟩ level })

def Pic.acknowledge (p : Pic) : Pic × ℕ :=
  let (master, vector) := p.master.acknowledge
  match p.master.asserted with
  | some i =>
    if p.master.setup.cascade.toNat.testBit i then
      let (slave, vector) := p.slave.acknowledge
      (Pic.wire ⟨master, slave⟩, vector)
    else (Pic.wire ⟨master, p.slave⟩, vector)
  | none => (Pic.wire ⟨master, p.slave⟩, vector)

/-- Port 0x80 is that of `io_wait`. -/
def picRemap : List (ℕ × UInt8) :=
  [(0x20, 0x11), (0x80, 0), (0xA0, 0x11), (0x80, 0), (0x21, 0x20), (0x80, 0), (0xA1, 0x28), (0x80, 0), (0x21, 0x04),
    (0x80, 0), (0xA1, 0x02), (0x80, 0), (0x21, 0x01), (0x80, 0), (0xA1, 0x01), (0x80, 0), (0x21, 0xFC), (0xA1, 0xFF)]

def endOfInterrupt (vector : ℕ) : List (ℕ × UInt8) := (if 40 ≤ vector then [(0xA0, 0x20)] else []) ++ [(0x20, 0x20)]

def Pic.setups (p : Pic) : Setup × Setup := (p.master.setup, p.slave.setup)

def writeSetups (s : Setup × Setup) (w : ℕ × UInt8) : Setup × Setup :=
  if w.1 = 0x20 then (s.1.command w.2, s.2)
  else if w.1 = 0x21 then (s.1.data w.2, s.2)
  else if w.1 = 0xA0 then (s.1, s.2.command w.2)
  else if w.1 = 0xA1 then (s.1, s.2.data w.2)
  else s

def configured (base cascade mask : UInt8) (inService : Fin 8 → Bool) : Setup where
  stage := .ready
  single := false
  levelTriggered := false
  needsIcw4 := true
  autoEoi := false
  base := base
  cascade := cascade
  mask := mask
  inService := inService

def kernelMaster (inService : Fin 8 → Bool) : Setup := configured 0x20 0x04 0xFC inService

def kernelSlave : Setup := configured 0x28 0x02 0xFF fun _ => false

theorem setups_wire (p : Pic) : p.wire.setups = p.setups := rfl

theorem setups_setLine (p : Pic) (irq : Fin 16) (level : Bool) : (p.setLine irq level).setups = p.setups := by
  unfold Pic.setLine
  rw [setups_wire]
  split_ifs <;> rfl

theorem setups_outb (p : Pic) (port : ℕ) (v : UInt8) : (p.outb port v).setups = writeSetups p.setups (port, v) := by
  rw [Pic.outb, setups_wire]
  unfold Pic.write writeSetups
  split_ifs <;> rfl

theorem levelTriggered_data (s : Setup) (v : UInt8) : (s.data v).levelTriggered = s.levelTriggered := by
  unfold Setup.data
  cases s.stage <;> rfl

theorem picRemap_setups (s : Setup × Setup) :
    picRemap.foldl writeSetups s = (kernelMaster fun _ => false, kernelSlave) := by
  obtain ⟨⟨-, -, -, -, -, -, -, -, -⟩, ⟨-, -, -, -, -, -, -, -, -⟩⟩ := s
  rfl

def Chip.Latched (c : Chip) : Prop := ∀ i, c.request i = true → c.line i = true

theorem Chip.Latched.setLine {c : Chip} (h : c.Latched) (i : Fin 8) (level : Bool) : (c.setLine i level).Latched := by
  intro j hj
  by_cases he : j = i
  · subst he
    simp only [Chip.setLine, Function.update_self, Bool.and_eq_true] at hj ⊢
    exact hj.1
  · simp only [Chip.setLine, Function.update_of_ne he] at hj ⊢
    exact h j hj

theorem Chip.Latched.command {c : Chip} (h : c.Latched) (v : UInt8) : (c.command v).Latched := by
  intro i hi
  simp only [Chip.command] at hi ⊢
  split_ifs at hi
  exact h i hi

theorem Chip.latched_reset (c : Chip) {v : UInt8} (hv : v.toNat.testBit 4 = true) : (c.command v).Latched := by
  intro i hi
  simp only [Chip.command, hv, if_true] at hi
  exact absurd hi Bool.false_ne_true

theorem Chip.Latched.accept {c : Chip} (h : c.Latched) (i : Fin 8) : (c.accept i).Latched := by
  intro j hj
  apply h j
  simp only [Chip.accept] at hj
  split_ifs at hj
  · exact hj
  · by_cases he : j = i
    · rw [he, Function.update_self] at hj
      exact absurd hj Bool.false_ne_true
    · rwa [Function.update_of_ne he] at hj

theorem asserted_request {c : Chip} {i : Fin 8} (h : c.asserted = some i) :
    c.request i = true ∧ c.setup.mask.toNat.testBit i = false := by
  have hi := List.find?_some h
  simpa using hi

theorem wire_master {p : Pic} (i : Fin 8) (hi : i ≠ 2) :
    p.wire.master.line i = p.master.line i ∧ p.wire.master.request i = p.master.request i :=
  ⟨Function.update_of_ne hi _ _, Function.update_of_ne hi _ _⟩

theorem latched_setLine {p : Pic} (h : p.master.Latched) (irq : Fin 16) (level : Bool) :
    (p.setLine irq level).master.Latched := by
  unfold Pic.setLine
  split_ifs
  · exact (h.setLine _ _).setLine _ _
  · exact h.setLine _ _

theorem setLine_other {p : Pic} {irq : Fin 16} (h : irq ≠ 1) (level : Bool) :
    (p.setLine irq level).master.line 1 = p.master.line 1 ∧
      (p.setLine irq level).master.request 1 = p.master.request 1 := by
  unfold Pic.setLine
  split_ifs with hlow
  · have hne : (1 : Fin 8) ≠ ⟨irq, hlow⟩ := fun he => h (Fin.ext (congrArg Fin.val he).symm)
    obtain ⟨hline, hrequest⟩ := wire_master (p := { p with master := p.master.setLine ⟨irq, hlow⟩ level }) 1 (by decide)
    rw [hline, hrequest]
    exact ⟨Function.update_of_ne hne _ _, Function.update_of_ne hne _ _⟩
  · exact wire_master 1 (by decide)

theorem setLine_keyboard (p : Pic) (level : Bool) :
    (p.setLine 1 level).master.line 1 = level ∧
      (p.setLine 1 level).master.request 1 =
        (level && (p.master.setup.levelTriggered || p.master.request 1 || !p.master.line 1)) := by
  obtain ⟨hline, hrequest⟩ := wire_master (p := { p with master := p.master.setLine 1 level }) 1 (by decide)
  constructor
  · apply hline.trans
    simp [Chip.setLine]
  · apply hrequest.trans
    simp [Chip.setLine]

theorem latched_outb {p : Pic} (h : p.master.Latched) (port : ℕ) (v : UInt8) : (p.outb port v).master.Latched := by
  have hwrite : (p.write port v).master.Latched := by
    unfold Pic.write
    split_ifs
    · exact h.command v
    · exact h
    · exact h
    · exact h
    · exact h
  exact hwrite.setLine _ _

theorem latched_initialised (p : Pic) : (p.outb 0x20 0x11).master.Latched :=
  Chip.Latched.setLine (c := p.master.command 0x11) (p.master.latched_reset (by decide)) _ _

theorem outb_master (p : Pic) (port : ℕ) (v : UInt8) {i : Fin 8} (hi : i ≠ 2) :
    (p.outb port v).master.line i = p.master.line i ∧
      (p.outb port v).master.request i = (p.master.request i && !(port == 0x20 && v.toNat.testBit 4)) := by
  obtain ⟨hline, hrequest⟩ := wire_master (p := p.write port v) i hi
  rw [Pic.outb, hline, hrequest]
  unfold Pic.write
  split_ifs with hport
  · cases hbit : v.toNat.testBit 4 <;> simp [Chip.command, hbit, hport]
  · simp [Chip.data, hport]
  · simp [hport]
  · simp [hport]
  · simp [hport]

/-- What is in service while `irq_handler` has this vector; vector 39 comes when a request was dropped. -/
def servicing (vector : ℕ) : Fin 8 → Bool := fun i => vector == 32 + i.val && vector != 39

def IsVector (vector : ℕ) : Prop := vector = 32 ∨ vector = 33 ∨ vector = 39

theorem endFirst_servicing {vector : ℕ} (h : IsVector vector) : endFirst (servicing vector) = fun _ => false := by
  funext i
  rcases h with rfl | rfl | rfl <;> revert i <;> decide

theorem servicing_accept {i : Fin 8} (h : i = 0 ∨ i = 1) :
    Function.update (fun _ => false) i true = servicing (32 + i.val) := by
  funext j
  rcases h with rfl | rfl <;> revert j <;> decide

theorem servicing_none : servicing 39 = fun _ => false := by
  funext i
  revert i
  decide

theorem master_asserted {c : Chip} {inService : Fin 8 → Bool} (h : c.setup = kernelMaster inService) {i : Fin 8}
    (hi : c.asserted = some i) : i = 0 ∨ i = 1 := by
  have hopen : ∀ i : Fin 8, (kernelMaster inService).mask.toNat.testBit i = false → i = 0 ∨ i = 1 :=
    (by decide : ∀ i : Fin 8, (0xFC : UInt8).toNat.testBit i = false → i = 0 ∨ i = 1)
  apply hopen
  rw [← h]
  exact (asserted_request hi).2

theorem asserted_idle {c : Chip} (h : c.setup.inService = fun _ => false) :
    c.asserted = (List.finRange 8).find? fun i => c.request i && !c.setup.mask.toNat.testBit i := by
  rw [Chip.asserted, h]
  congr

theorem request_of_none {c : Chip} (h : c.setup = kernelMaster fun _ => false) (hc : c.asserted = none) :
    c.request 1 = false := by
  have hopen : (kernelMaster fun _ => false).mask.toNat.testBit (1 : Fin 8) = false := by decide
  rw [asserted_idle (by rw [h]; rfl), List.find?_eq_none, h] at hc
  have hone := hc 1 (List.mem_finRange 1)
  rw [hopen] at hone
  simpa using hone

theorem asserted_zero {c : Chip} (h : c.setup = kernelMaster fun _ => false) (hrequest : c.request 0 = true) :
    c.asserted = some 0 := by
  have hopen : (kernelMaster fun _ => false).mask.toNat.testBit 0 = false := by decide
  rw [asserted_idle (by rw [h]; rfl), h, List.finRange_succ, List.find?_cons_of_pos]
  simp [hrequest, hopen]

theorem asserted_one {c : Chip} (h : c.setup = kernelMaster fun _ => false) (htimer : c.request 0 = false)
    (hrequest : c.request 1 = true) : c.asserted = some 1 := by
  cases hc : c.asserted with
  | some i =>
    rcases master_asserted h hc with rfl | rfl
    · exact absurd (htimer.symm.trans (asserted_request hc).1) Bool.false_ne_true
    · rfl
  | none => exact absurd ((request_of_none h hc).symm.trans hrequest) Bool.false_ne_true

theorem acknowledge_some {p : Pic} (h : p.setups = (kernelMaster fun _ => false, kernelSlave)) {i : Fin 8}
    (hi : p.master.asserted = some i) : p.acknowledge = (Pic.wire ⟨p.master.accept i, p.slave⟩, 32 + i.val) := by
  have hmaster : p.master.setup = kernelMaster fun _ => false := congrArg Prod.fst h
  have hdirect : p.master.setup.cascade.toNat.testBit i = false := by
    rw [hmaster]
    rcases master_asserted hmaster hi with rfl | rfl <;> decide
  have hvector : p.master.acknowledge = (p.master.accept i, 32 + i.val) := by
    rw [Chip.acknowledge, hi, hmaster]
    rfl
  rw [Pic.acknowledge, hi, hvector]
  simp only [hdirect, Bool.false_eq_true, if_false]

theorem acknowledge_none {p : Pic} (h : p.setups = (kernelMaster fun _ => false, kernelSlave))
    (hi : p.master.asserted = none) : p.acknowledge = (p.wire, 39) := by
  have hmaster : p.master.setup = kernelMaster fun _ => false := congrArg Prod.fst h
  have hvector : p.master.acknowledge = (p.master, 39) := by
    rw [Chip.acknowledge, hi, hmaster]
    rfl
  rw [Pic.acknowledge, hi, hvector]

structure Acknowledged (p : Pic) (vector : ℕ) (p' : Pic) : Prop where
  isVector : IsVector vector
  setups : p'.setups = (kernelMaster (servicing vector), kernelSlave)
  latched : p'.master.Latched
  line : p'.master.line 1 = p.master.line 1
  request : p'.master.request 1 = (p.master.request 1 && vector != 33)
  requested : vector = 33 → p.master.request 1 = true

theorem acknowledge_kernel {p : Pic} (h : p.setups = (kernelMaster fun _ => false, kernelSlave))
    (hlatched : p.master.Latched) : Acknowledged p p.acknowledge.2 p.acknowledge.1 := by
  have hmaster : p.master.setup = kernelMaster fun _ => false := congrArg Prod.fst h
  have hslave : p.slave.setup = kernelSlave := congrArg Prod.snd h
  cases hc : p.master.asserted with
  | some i =>
    have hrequest := (asserted_request hc).1
    have hline := wire_master (p := ⟨p.master.accept i, p.slave⟩) 1 (by decide)
    have hsetup : (p.master.accept i).setup = kernelMaster (servicing (32 + i.val)) := by
      rw [← servicing_accept (master_asserted hmaster hc), Chip.accept, hmaster]
      rfl
    have hedge : (p.master.accept i).request = Function.update p.master.request i false := by
      rw [Chip.accept, hmaster]
      rfl
    rw [acknowledge_some h hc]
    refine ⟨?_, ?_, (hlatched.accept i).setLine _ _, hline.1, ?_, ?_⟩
    · rcases master_asserted hmaster hc with rfl | rfl
      · exact .inl rfl
      · exact .inr (.inl rfl)
    · rw [← hsetup, ← hslave]
      rfl
    · rw [hline.2, hedge]
      rcases master_asserted hmaster hc with rfl | rfl
      · simp
      · simp
    · intro hvector
      rcases master_asserted hmaster hc with rfl | rfl
      · exact absurd hvector (by simp)
      · exact hrequest
  | none =>
    have hline := wire_master (p := p) 1 (by decide)
    rw [acknowledge_none h hc]
    refine ⟨.inr (.inr rfl), ?_, hlatched.setLine _ _, hline.1, ?_, fun hvector => absurd hvector (by simp)⟩
    · rw [servicing_none, ← h]
      rfl
    · rw [hline.2]
      simp

theorem endOfInterrupt_setups {vector : ℕ} (h : IsVector vector) :
    endOfInterrupt vector = [(0x20, 0x20)] ∧
      writeSetups (kernelMaster (servicing vector), kernelSlave) (0x20, 0x20) =
        (kernelMaster fun _ => false, kernelSlave) := by
  constructor
  · rcases h with rfl | rfl | rfl <;> rfl
  · rw [← endFirst_servicing h]
    rfl

end JurkOS.Kernel.Interrupts
