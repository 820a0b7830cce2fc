import JurkOS.Kernel.Drivers.FormatReads
import JurkOS.Kernel.Interrupts.Idt

/-!
What `isr_handler` of x86-64 sends to the serial port about an exception.
-/

namespace JurkOS.Kernel.Interrupts

open Lib.Libc Lib.Memory Lib.WordStack
open Serial (ArgArea Arg PERCENT serialPrint serialPrintf stringArg)

abbrev Area := ArgArea .x86_64

def exceptionMessages : List Str :=
  ["Division by Zero (#DE)", "Debug (#DB)", "Non-Maskable Interrupt (#NMI)", "Breakpoint (#BP)", "Overflow (#OF)",
    "Bound Range Exceeded (#BR)", "Invalid Opcode (#UD)", "Device Not Available (#NM)", "Double Fault (#DF)",
    "Coprocessor Segment Overrun", "Invalid TSS (#TS)", "Segment Not Present (#NP)", "Stack-Segment Fault (#SS)",
    "General Protection Fault (#GP)", "Page Fault (#PF)", "Reserved", "x87 Floating-Point Exception (#MF)",
    "Alignment Check (#AC)", "Machine Check (#MC)", "SIMD Floating-Point Exception (#XM)",
    "Virtualization Exception (#VE)", "Control Protection Exception (#CP)", "Reserved", "Reserved", "Reserved",
    "Reserved", "Reserved", "Reserved", "Hypervisor Injection Exception", "VMM Communication Exception",
    "Security Exception (#SX)", "Reserved"].map bytes

/-- The arguments of the calls of `serial_printf`; `low` is a cast to `uint32_t`. -/
inductive Value
  | reason
  | cr2
  | word (f : Field)
  | low (f : Field)
  deriving DecidableEq

def ruler : Str := bytes "======================================================="

def isrCalls (num : ℕ) : List (Str × List Value) :=
  [(bytes "\n=======================================================\n", []),
    (bytes " !!! KERNEL PANIC: %s !!!\n", [.reason]),
    (bytes " Code Location (RIP): 0x%x  Error Code: 0x%x\n", [.word .ip, .low .err_code])] ++
  (if num = 14 then [(bytes " Faulting Memory Address (CR2): 0x%x\n", [.cr2])] else []) ++
  [(bytes " Stack Pointer (RSP): 0x%x\n", [.word .sp]),
    (bytes " RAX=0x%x RBX=0x%x RCX=0x%x RDX=0x%x\n",
      [.word (.gpr .ax), .word (.gpr .bx), .word (.gpr .cx), .word (.gpr .dx)]),
    (bytes " System halted.\n", []),
    (bytes "=======================================================\n", [])]

def printCalls (mem : Mem) (areas : ℕ → Area) : ℕ → List (Str × List Value) → Option Str
  | _, [] => some []
  | k, call :: calls => do
    let out ← serialPrintf mem (areas k) call.1 0
    let rest ← printCalls mem areas (k + 1) calls
    return out ++ rest

def isrHandler (mem : Mem) (state : ℕ) (areas : ℕ → Area) : Option Str :=
  let num := (field .x86_64 mem state .int_no).val
  if num < 32 then printCalls mem areas 0 (isrCalls num) else some []

/-- What the compiler puts into a slot; the upper half of one that holds a `uint32_t` is not said. -/
def Given (mem : Mem) (state cr2 high : ℕ) (messages : ℕ → BitVec 64) : Value → BitVec 64 → Prop
  | .reason, w => w = messages (field .x86_64 mem state .int_no)
  | .cr2, w => w.toNat = cr2
  | .word f, w => w.toNat = field .x86_64 mem state f
  | .low f, w => w.toNat = (field .x86_64 mem state f).val % 2 ^ 32 + 2 ^ 32 * high

/-! ### What a call prints -/

inductive Chunk
  | text (s : Str)
  | value (v : Value)
  deriving DecidableEq

def Value.letter : Value → UInt8
  | .reason => 0x73
  | _ => 0x78

def Chunk.format : Chunk → Str
  | .text s => s
  | .value v => [PERCENT, v.letter]

def Chunk.values : Chunk → List Value
  | .text _ => []
  | .value v => [v]

structure Shown where
  reason : Str
  cr2 : ℕ
  word : Field → ℕ
  high : ℕ

def Shown.value (shown : Shown) : Value → Str
  | .reason => shown.reason
  | .cr2 => Arg.hexadecimal shown.cr2
  | .word f => Arg.hexadecimal (shown.word f)
  | .low f => Arg.hexadecimal (shown.word f % 2 ^ 32 + 2 ^ 32 * shown.high)

def Shown.chunk (shown : Shown) : Chunk → Str
  | .text s => s
  | .value v => shown.value v

def Chunk.plain : Chunk → Bool
  | .text s => PERCENT ∉ s
  | .value _ => true

abbrev Line := List Chunk

def panicLines (num : ℕ) : List Line :=
  [[.text (NEWLINE :: ruler ++ [NEWLINE])],
    [.text (bytes " !!! KERNEL PANIC: "), .value .reason, .text (bytes " !!!\n")],
    [.text (bytes " Code Location (RIP): 0x"), .value (.word .ip), .text (bytes "  Error Code: 0x"),
      .value (.low .err_code), .text (bytes "\n")]] ++
  (if num = 14 then
    [[.text (bytes " Faulting Memory Address (CR2): 0x"), .value .cr2, .text (bytes "\n")]] else []) ++
  [[.text (bytes " Stack Pointer (RSP): 0x"), .value (.word .sp), .text (bytes "\n")],
    [.text (bytes " RAX=0x"), .value (.word (.gpr .ax)), .text (bytes " RBX=0x"), .value (.word (.gpr .bx)),
      .text (bytes " RCX=0x"), .value (.word (.gpr .cx)), .text (bytes " RDX=0x"), .value (.word (.gpr .dx)),
      .text (bytes "\n")],
    [.text (bytes " System halted.\n")],
    [.text (ruler ++ [NEWLINE])]]

def panicText (num : ℕ) (shown : Shown) : Str := (panicLines num).flatten.flatMap shown.chunk

def Line.call (line : Line) : Str × List Value := (line.flatMap Chunk.format, line.flatMap Chunk.values)

theorem isrCalls_eq (num : ℕ) : isrCalls num = (panicLines num).map Line.call := by
  rw [isrCalls, panicLines]
  split_ifs <;> decide

variable {mem : Mem} {state cr2 high : ℕ} {messages : ℕ → BitVec 64} {area : Area} {areas : ℕ → Area} {reason : Str}

theorem serialPrint_append (s t : Str) : serialPrint (s ++ t) = serialPrint s ++ serialPrint t := List.flatMap_append

theorem serialPrintf_text {s : Str} (hs : PERCENT ∉ s) (rest : Str) (i : ℕ) :
    serialPrintf mem area (s ++ rest) i = (serialPrintf mem area rest i).map (serialPrint s ++ ·) := by
  induction s with
  | nil => exact Option.map_id'.symm
  | cons c s ih =>
    rw [List.mem_cons, not_or] at hs
    have hstep : serialPrintf mem area (c :: (s ++ rest)) i =
        (serialPrintf mem area (s ++ rest) i).map (serialPrint [c] ++ ·) :=
      Serial.serialPrintf_literal (Ne.symm hs.1) (s ++ rest) i
    have hcons : serialPrint (c :: s) = serialPrint [c] ++ serialPrint s := serialPrint_append [c] s
    rw [List.cons_append, hstep, ih hs.2, Option.map_map, hcons]
    exact congrArg (fun f => Option.map f _) (funext fun t => (List.append_assoc _ _ t).symm)

def stored (mem : Mem) (state cr2 high : ℕ) (reason : Str) : Shown :=
  ⟨reason, cr2, fun f => field .x86_64 mem state f, high⟩

theorem serialPrint_hexadecimal (n : ℕ) : serialPrint (Arg.hexadecimal n) = Arg.hexadecimal n :=
  Serial.serialPrint_of_notMem (Serial.newline_notMem_hexadecimal n)

theorem conversion_value {v : Value} {i : ℕ} (hv : Given mem state cr2 high messages v (area i))
    (hreason : @stringArg .x86_64 mem (messages (field .x86_64 mem state .int_no)) = some reason) :
    Serial.conversion mem area v.letter i =
      (some (serialPrint ((stored mem state cr2 high reason).value v)), i + 1) := by
  have hhex := Serial.conversion_x mem area i
  rw [Serial.vaArg_uint64] at hhex
  cases v with
  | reason =>
    have hconv := Serial.conversion_s mem area i
    rw [show area i = _ from hv, hreason] at hconv
    exact hconv
  | cr2 =>
    rw [show (area i).toNat = _ from hv] at hhex
    exact hhex.trans (by rw [Shown.value, serialPrint_hexadecimal, stored])
  | word f =>
    rw [show (area i).toNat = _ from hv] at hhex
    exact hhex.trans (by rw [Shown.value, serialPrint_hexadecimal, stored])
  | low f =>
    rw [show (area i).toNat = _ from hv] at hhex
    exact hhex.trans (by rw [Shown.value, serialPrint_hexadecimal, stored])

theorem serialPrintf_value {v : Value} {i : ℕ} (hv : Given mem state cr2 high messages v (area i))
    (hreason : @stringArg .x86_64 mem (messages (field .x86_64 mem state .int_no)) = some reason) (rest : Str) :
    serialPrintf mem area (PERCENT :: v.letter :: rest) i = (serialPrintf mem area rest (i + 1)).map
      (serialPrint ((stored mem state cr2 high reason).value v) ++ ·) := by
  rw [serialPrintf, if_pos rfl]
  simp only [conversion_value hv hreason]
  cases serialPrintf mem area rest (i + 1) <;> rfl

def Passed (mem : Mem) (state cr2 high : ℕ) (messages : ℕ → BitVec 64) (areas : ℕ → Area) (k : ℕ)
    (calls : List (Str × List Value)) : Prop :=
  ∀ j call, calls[j]? = some call → ∀ i v, call.2[i]? = some v → Given mem state cr2 high messages v (areas (k + j) i)

theorem serialPrintf_line {line : Line} {i : ℕ} (hplain : ∀ chunk ∈ line, chunk.plain = true)
    (hgiven : ∀ j v, (line.flatMap Chunk.values)[j]? = some v → Given mem state cr2 high messages v (area (i + j)))
    (hreason : @stringArg .x86_64 mem (messages (field .x86_64 mem state .int_no)) = some reason) :
    serialPrintf mem area (line.flatMap Chunk.format) i =
      some (serialPrint (line.flatMap (stored mem state cr2 high reason).chunk)) := by
  induction line generalizing i with
  | nil => rfl
  | cons chunk line ih =>
    rw [List.forall_mem_cons] at hplain
    rw [List.flatMap_cons, List.flatMap_cons, serialPrint_append]
    cases chunk with
    | text s =>
      rw [Chunk.format, serialPrintf_text (of_decide_eq_true hplain.1), ih hplain.2 hgiven]
      rfl
    | value v =>
      have hrest : ∀ j w, (line.flatMap Chunk.values)[j]? = some w →
          Given mem state cr2 high messages w (area (i + 1 + j)) := by
        intro j w hw
        rw [Nat.add_assoc, Nat.add_comm 1]
        exact hgiven (j + 1) w hw
      have hvalue := serialPrintf_value (hgiven 0 v rfl) hreason (line.flatMap Chunk.format)
      exact hvalue.trans (by rw [ih hplain.2 hrest]; rfl)

theorem printCalls_lines {lines : List Line} {k : ℕ} (hplain : ∀ line ∈ lines, ∀ chunk ∈ line, chunk.plain = true)
    (hpassed : Passed mem state cr2 high messages areas k (lines.map Line.call))
    (hreason : @stringArg .x86_64 mem (messages (field .x86_64 mem state .int_no)) = some reason) :
    printCalls mem areas k (lines.map Line.call) =
      some (serialPrint (lines.flatten.flatMap (stored mem state cr2 high reason).chunk)) := by
  induction lines generalizing k with
  | nil => rfl
  | cons line lines ih =>
    rw [List.forall_mem_cons] at hplain
    have hgiven : ∀ j v, (line.flatMap Chunk.values)[j]? = some v →
        Given mem state cr2 high messages v (areas k (0 + j)) := by
      intro j v hv
      rw [Nat.zero_add]
      exact hpassed 0 line.call rfl j v hv
    have hline := serialPrintf_line hplain.1 hgiven hreason
    have hrest : Passed mem state cr2 high messages areas (k + 1) (lines.map Line.call) := by
      intro j call hcall i v hv
      rw [Nat.add_assoc, Nat.add_comm 1]
      exact hpassed (j + 1) call hcall i v hv
    rw [List.map_cons, printCalls, List.flatten_cons, List.flatMap_append, serialPrint_append, ih hplain.2 hrest]
    change ((serialPrintf mem (areas k) (line.flatMap Chunk.format) 0).bind _) = _
    rw [hline]
    rfl

theorem panicLines_plain (num : ℕ) : ∀ line ∈ panicLines num, ∀ chunk ∈ line, chunk.plain = true := by
  rw [panicLines]
  split_ifs <;> decide

theorem isrHandler_stored {num : ℕ} (hnum : (field .x86_64 mem state .int_no).val = num) (hlt : num < 32)
    (hpassed : Passed mem state cr2 high messages areas 0 (isrCalls num))
    (hreason : @stringArg .x86_64 mem (messages num) = some reason) :
    isrHandler mem state areas = some (serialPrint (panicText num (stored mem state cr2 high reason))) := by
  subst hnum
  rw [isrCalls_eq] at hpassed
  rw [isrHandler, if_pos hlt, isrCalls_eq]
  exact printCalls_lines (panicLines_plain _) hpassed hreason

/-! ### What is reported of the interrupted program -/

variable {D : Type} {m : Machine .x86_64 D} {σ : Setting .x86_64 D} {image : Image .x86_64}
  {fetch : Register .x86_64 → List Instr}

/-- Where the stub pushes an error code too many, every field from there on shows the word below its own. -/
def Cpu.seen (c : Cpu .x86_64) (num : ℕ) (code : Register .x86_64) : Field → ℕ
  | .gpr r => c.gpr r
  | .int_no => num
  | .err_code => if num = 21 ∨ num = 29 then 0 else ((errorCode num code).getD (word _ 0)).val
  | .ip => if num = 21 ∨ num = 29 then code else c.ip
  | .cs => if num = 21 ∨ num = 29 then c.ip.val else c.cs.val
  | .flags => if num = 21 ∨ num = 29 then c.cs.val else c.flags.val
  | .sp => if num = 21 ∨ num = 29 then c.flags else c.sp
  | .ss => if num = 21 ∨ num = 29 then c.sp.val else c.ss.val
  | _ => 0

theorem val_selector (s : Selector) : (word 8 s.val).val = s.val := val_word (lt_of_lt_of_le s.isLt (by decide))

theorem saves_gprs {c : Cpu .x86_64} {words : List (Register .x86_64)} {rs : List Gpr}
    (h : List.Forall₂ (Saves c) words (rs.map Place.gpr)) : words = rs.map c.gpr := by
  induction rs generalizing words with
  | nil => exact List.forall₂_nil_right_iff.mp h
  | cons r rs ih =>
    obtain ⟨v, words, hv, hrest, rfl⟩ := List.forall₂_cons_right_iff.mp h
    rw [ih hrest, show v = c.gpr r from hv]
    rfl

theorem field_seen (σ : Setting .x86_64 D) (hroom : depth .x86_64 + 16 ≤ m.cpu.sp) {num : ℕ} (hnum : num < 32)
    (code offset : Register .x86_64) (cs : Selector) {f : Field} (hf : f ∈ cpuState .x86_64) :
    let e := atCall σ (isrStub .x86_64 num) (enter offset cs (errorCode num code) m)
    (field .x86_64 e.mem e.stateArg f).val = m.cpu.seen num code f := by
  intro e
  have hval (k : ℕ) (hk : k < 32) : (word 8 k).val = k := val_word (lt_trans hk (by decide))
  by_cases hextra : num = 21 ∨ num = 29
  · obtain ⟨⟨words, hsaves, hholds⟩, -⟩ := isr_extra σ m hroom hextra code offset cs
    obtain rfl := saves_gprs hsaves
    have hget (v : Register .x86_64)
        (hv : ([Gpr.r15, .r14, .r13, .r12, .bp, .bx, .r11, .r10, .r9, .r8, .ax, .cx, .dx, .si, .di].map m.cpu.gpr ++
          ([num, 0].map (word _) ++ code :: m.cpu.frame))[(cpuState .x86_64).idxOf f]? = some v) :
        (field .x86_64 e.mem e.stateArg f).val = v.val := congrArg Fin.val (field_get hholds rfl hv)
    cases f with
    | gpr r => cases r <;> exact hget _ rfl
    | sreg s => exact absurd hf (by cases s <;> decide)
    | pushedSp => exact absurd hf (by decide)
    | int_no => exact (hget _ rfl).trans (hval num hnum)
    | err_code => exact (hget _ rfl).trans ((hval 0 (by decide)).trans (if_pos hextra).symm)
    | ip => exact (hget _ rfl).trans (if_pos hextra).symm
    | cs => exact (hget _ rfl).trans (if_pos hextra).symm
    | flags => exact (hget _ rfl).trans ((val_selector m.cpu.cs).trans (if_pos hextra).symm)
    | sp => exact (hget _ rfl).trans (if_pos hextra).symm
    | ss => exact (hget _ rfl).trans (if_pos hextra).symm
  · have hstate := isr_state σ m hroom num code offset cs
    rw [if_neg hextra] at hstate
    have hshows := hstate.shows f hf
    cases f with
    | gpr r => exact congrArg Fin.val hshows
    | sreg s => exact absurd hf (by cases s <;> decide)
    | pushedSp => exact absurd hf (by decide)
    | int_no => exact (congrArg Fin.val hshows).trans (hval num hnum)
    | err_code => exact (congrArg Fin.val hshows).trans (if_neg hextra).symm
    | ip => exact (congrArg Fin.val hshows).trans (if_neg hextra).symm
    | cs => exact (congrArg Fin.val hshows).trans ((val_selector m.cpu.cs).trans (if_neg hextra).symm)
    | flags => exact (congrArg Fin.val hshows).trans (if_neg hextra).symm
    | sp => exact (congrArg Fin.val (hshows rfl)).trans (if_neg hextra).symm
    | ss => exact (congrArg Fin.val (hshows rfl)).trans ((val_selector m.cpu.ss).trans (if_neg hextra).symm)

def Chunk.inState : Chunk → Bool
  | .value (.word f) => f ∈ cpuState .x86_64
  | .value (.low f) => f ∈ cpuState .x86_64
  | _ => true

theorem panicLines_inState (num : ℕ) : ∀ chunk ∈ (panicLines num).flatten, chunk.inState = true := by
  rw [panicLines]
  split_ifs <;> decide

theorem panicText_congr {word : Field → ℕ} (num : ℕ)
    (hword : ∀ f ∈ cpuState .x86_64, (field .x86_64 mem state f).val = word f) :
    panicText num (stored mem state cr2 high reason) = panicText num ⟨reason, cr2, word, high⟩ := by
  rw [panicText, panicText]
  apply List.flatMap_congr
  intro chunk hchunk
  have hstate := panicLines_inState num chunk hchunk
  cases chunk with
  | text s => rfl
  | value v =>
    cases v with
    | reason => rfl
    | cr2 => rfl
    | word f => exact congrArg Arg.hexadecimal (hword f (of_decide_eq_true hstate))
    | low f =>
      have hf := hword f (of_decide_eq_true hstate)
      exact congrArg (fun n => Arg.hexadecimal (n % 2 ^ 32 + 2 ^ 32 * high)) hf

theorem exception_report (m : Machine .x86_64 D) (hboot : Booted image m) (hlink : Linked image fetch)
    (hroom : depth .x86_64 + 16 ≤ m.cpu.sp) {num : ℕ} (hnum : num < 32) (code : Register .x86_64) :
    let entered := enter (image.isr num) 8 (errorCode num code) m
    let e := atCall σ (isrStub .x86_64 num) entered
    interrupt σ fetch num (errorCode num code) m = some (run σ (isrStub .x86_64 num) entered) ∧
      ∀ cr2 high messages areas, Passed e.mem e.stateArg cr2 high messages areas 0 (isrCalls num) →
        @stringArg .x86_64 e.mem (messages num) = some (exceptionMessages.getD num []) →
          isrHandler e.mem e.stateArg areas =
            some (serialPrint (panicText num ⟨exceptionMessages.getD num [], cr2, m.cpu.seen num code, high⟩)) := by
  intro entered e
  have hseen (f : Field) (hf : f ∈ cpuState .x86_64) : (field .x86_64 e.mem e.stateArg f).val = m.cpu.seen num code f :=
    field_seen σ hroom hnum code (image.isr num) 8 hf
  have hnumber : (field .x86_64 e.mem e.stateArg .int_no).val = num := hseen .int_no (by decide)
  constructor
  · rw [hboot.interrupt (isr_mem_vectors image hnum), hlink.isr num hnum]
  · intro cr2 high messages areas hpassed hreason
    rw [isrHandler_stored hnumber hnum hpassed hreason, panicText_congr num hseen]

/-! ### A report -/

def Value.slot (mem : Mem) (state cr2 high : ℕ) (messages : ℕ → BitVec 64) : Value → BitVec 64
  | .reason => messages (field .x86_64 mem state .int_no)
  | .cr2 => BitVec.ofNat 64 cr2
  | .word f => BitVec.ofNat 64 (field .x86_64 mem state f)
  | .low f => BitVec.ofNat 64 ((field .x86_64 mem state f).val % 2 ^ 32 + 2 ^ 32 * high)

theorem exists_passed (mem : Mem) (state : ℕ) (hcr2 : cr2 < 2 ^ 64) (hhigh : high < 2 ^ 32) (messages : ℕ → BitVec 64)
    (calls : List (Str × List Value)) : ∃ areas, Passed mem state cr2 high messages areas 0 calls := by
  refine ⟨fun k i => (((calls[k]?.getD ([], []))).2[i]?.getD .cr2).slot mem state cr2 high messages, ?_⟩
  intro j call hcall i v hv
  have hslot : ((((calls[0 + j]?.getD ([], []))).2[i]?.getD .cr2).slot mem state cr2 high messages) =
      v.slot mem state cr2 high messages := by
    rw [Nat.zero_add, hcall, Option.getD_some, hv, Option.getD_some]
  have hto {n : ℕ} (hn : n < 2 ^ 64) : (BitVec.ofNat 64 n).toNat = n := Nat.mod_eq_of_lt hn
  dsimp only
  rw [hslot]
  cases v with
  | reason => rfl
  | cr2 => exact hto hcr2
  | word f => exact hto (field .x86_64 mem state f).isLt
  | low f => exact hto (by have := Nat.mod_lt (field .x86_64 mem state f).val (show 0 < 2 ^ 32 by decide); omega)

theorem strcpyFrom_text {p n : ℕ} {s : Str} (hzero : 0 ∉ s) (hlen : s.length < n)
    (h : ∀ i ≤ s.length, mem (p + i) = s.getD i 0) : Fs.strcpyFrom mem p n = some s := by
  induction s generalizing p n with
  | nil =>
    obtain ⟨n, rfl⟩ := Nat.exists_eq_succ_of_ne_zero (Nat.ne_of_gt hlen)
    exact if_pos (h 0 (Nat.zero_le _))
  | cons c s ih =>
    obtain ⟨n, rfl⟩ := Nat.exists_eq_succ_of_ne_zero (Nat.ne_of_gt (Nat.zero_lt_of_lt hlen))
    rw [List.mem_cons, not_or] at hzero
    rw [List.length_cons] at hlen
    have hhead : mem p = c := h 0 (Nat.zero_le _)
    have hrest : Fs.strcpyFrom mem (p + 1) n = some s := by
      apply ih hzero.2 (by omega)
      intro i hi
      rw [Nat.add_assoc, Nat.add_comm 1]
      exact h (i + 1) (Nat.succ_le_succ hi)
    rw [Fs.strcpyFrom, if_neg (hhead ▸ Ne.symm hzero.1), hrest, hhead]
    rfl

theorem stringArg_of_ne {p : BitVec 64} (h : p.toNat ≠ 0) :
    @stringArg .x86_64 mem p = Fs.strcpyFrom mem p.toNat (2 ^ 64 - p.toNat) := if_neg h

section Example

def reservedMemory : Mem := fun b =>
  if b < 0x500000 then bootMemory bootImage b else (bytes "Reserved").getD (b - 0x500000) 0

def reservedMachine : Machine .x86_64 Unit := { bootMachine with mem := reservedMemory }

theorem reservedMachine_booted : Booted bootImage reservedMachine := by
  have hsame : ∀ b < 0x500000, reservedMachine.mem b = bootMachine.mem b := fun b hb => if_pos hb
  constructor
  · obtain ⟨m₀, hm₀⟩ := bootMachine_booted.idt
    refine ⟨m₀, fun b hb => ?_⟩
    have hlt : b < 4096 := by simpa [reservedMachine, bootMachine, word, idtSizes] using hb
    exact (hsame b (lt_trans hlt (by decide))).trans (hm₀ b hb)
  · obtain ⟨m₀, hm₀⟩ := bootMachine_booted.gdt
    refine ⟨m₀, fun i hi => ?_⟩
    refine Eq.trans (readSegment_congr fun b hb => hsame b ?_) (hm₀ i hi)
    have hgdt : reservedMachine.cpu.gdtr.val = 4096 := by decide
    have hsum : gdtSizes.sum = 8 := rfl
    rw [hgdt, hsum, mem_span] at hb
    omega

theorem exception_report_reserved :
    ∃ areas, isrHandler (atCall bootSetting (isrStub .x86_64 15) (enter (bootImage.isr 15) 8 none reservedMachine)).mem
      (atCall bootSetting (isrStub .x86_64 15) (enter (bootImage.isr 15) 8 none reservedMachine)).stateArg areas =
      some (serialPrint (panicText 15 ⟨bytes "Reserved", 0, bootMachine.cpu.seen 15 (word _ 0), 0⟩)) := by
  have hroom : depth .x86_64 + 16 ≤ reservedMachine.cpu.sp := by decide
  obtain ⟨-, hreport⟩ := exception_report (σ := bootSetting) reservedMachine reservedMachine_booted bootCode_linked
    hroom (by decide : 15 < 32) (word _ 0)
  obtain ⟨areas, hpassed⟩ := exists_passed (atCall bootSetting (isrStub .x86_64 15)
    (enter (bootImage.isr 15) 8 none reservedMachine)).mem (atCall bootSetting (isrStub .x86_64 15)
    (enter (bootImage.isr 15) 8 none reservedMachine)).stateArg (by decide : 0 < 2 ^ 64) (by decide : 0 < 2 ^ 32)
    (fun _ => 0x500000) (isrCalls 15)
  refine ⟨areas, hreport 0 0 (fun _ => 0x500000) areas hpassed ?_⟩
  have hcalled := isr_state bootSetting reservedMachine hroom 15 (word _ 0) (bootImage.isr 15) 8
  rw [if_neg (by decide)] at hcalled
  have hpointer : (0x500000 : BitVec 64).toNat = 0x500000 := by decide
  have hlen : (bytes "Reserved").length < 2 ^ 64 - 0x500000 := by decide
  refine (stringArg_of_ne (hpointer ▸ by decide)).trans ?_
  rw [hpointer]
  apply strcpyFrom_text (by decide) hlen
  intro i hi
  have hout : 0x500000 + i ∉ Span (reservedMachine.cpu.frameBase - depth .x86_64) (depth .x86_64) := by
    have hbase : reservedMachine.cpu.frameBase = 0x80000 := by decide
    have hdepth : depth .x86_64 = 192 := rfl
    rw [hbase, hdepth, mem_span]
    omega
  refine (hcalled.frame _ hout).trans ?_
  have hge : ¬0x500000 + i < 0x500000 := by omega
  exact (if_neg hge).trans (by rw [Nat.add_sub_cancel_left])

end Example

end JurkOS.Kernel.Interrupts
