import JurkOS.Kernel.CString
import JurkOS.Kernel.Interrupts.Transparency
import JurkOS.Lib.Packed

/-!
The tables of `idt.c` and `gdt.c` of both builds, and an interrupt from its vector on.
-/

namespace JurkOS.Kernel.Interrupts

open Lib.Memory Lib.WordStack Lib.Packed

/-- `struct idt_entry` as `idt_set_gate` fills it. -/
def idtEntry (a : Arch) (base : Register a) (sel flags : ℕ) : List (ℕ × ℕ) :=
  match a with
  | .x86_64 =>
    [(2, base &&& 0xFFFF), (2, sel), (1, 0), (1, flags), (2, base >>> 16 &&& 0xFFFF), (4, base >>> 32 &&& 0xFFFFFFFF),
      (4, 0)]
  | .x86 => [(2, base &&& 0xFFFF), (2, sel), (1, 0), (1, flags), (2, base >>> 16 &&& 0xFFFF)]

def idtSizes : Arch → List ℕ
  | .x86_64 => [2, 2, 1, 1, 2, 4, 4]
  | .x86 => [2, 2, 1, 1, 2]

def idtSetGate (a : Arch) (idt : ℕ) (m : Mem) (num : ℕ) (base : Register a) (sel flags : ℕ) : Mem :=
  storeFields m (idt + (idtSizes a).sum * num) (idtEntry a base sel flags)

/-- Where the linker has put the stubs. -/
structure Image (a : Arch) where
  isr : ℕ → Register a
  irq : ℕ → Register a

def Image.vectors {a : Arch} (image : Image a) : List (ℕ × Register a) :=
  (List.range 32).map (fun n => (n, image.isr n)) ++ (List.range 16).map (fun n => (32 + n, image.irq n))

def idtInit (a : Arch) (image : Image a) (idt : ℕ) (m : Mem) : Mem :=
  let m := memset 0 ((idtSizes a).sum * 256) m idt
  image.vectors.foldl (fun m v => idtSetGate a idt m v.1 v.2 0x08 0x8E) m

/-- `struct gdt_entry` as `gdt_set_gate` fills it. -/
def gdtEntry : ℕ × ℕ × ℕ × ℕ → List (ℕ × ℕ)
  | (base, limit, access, gran) =>
    [(2, limit &&& 0xFFFF), (2, base &&& 0xFFFF), (1, base >>> 16 &&& 0xFF), (1, access),
      (1, limit >>> 16 &&& 0x0F ||| gran &&& 0xF0), (1, base >>> 24 &&& 0xFF)]

def gdtSizes : List ℕ := [2, 2, 1, 1, 1, 1]

/-- The arguments of the calls of `gdt_set_gate`. -/
def segments : Arch → List (ℕ × ℕ × ℕ × ℕ × ℕ)
  | .x86_64 =>
    [(0, 0, 0, 0, 0), (1, 0, 0xFFFFFFFF, 0x9A, 0x20), (2, 0, 0xFFFFFFFF, 0x92, 0x00), (3, 0, 0xFFFFFFFF, 0xF2, 0x00),
      (4, 0, 0xFFFFFFFF, 0xFA, 0x20)]
  | .x86 =>
    [(0, 0, 0, 0, 0), (1, 0, 0xFFFFFFFF, 0x9A, 0xCF), (2, 0, 0xFFFFFFFF, 0x92, 0xCF), (3, 0, 0xFFFFFFFF, 0xFA, 0xCF),
      (4, 0, 0xFFFFFFFF, 0xF2, 0xCF)]

def gdtInit (a : Arch) (gdt : ℕ) (m : Mem) : Mem :=
  storeTable gdtEntry gdtSizes.sum gdt m (segments a)

structure Gate (a : Arch) where
  offset : Register a
  selector : Selector
  type : ℕ
  present : Bool

def readGate (a : Arch) (m : Mem) (p : ℕ) : Gate a where
  offset := word _ (load m p 2 + 2 ^ 16 * load m (p + 6) 2 + if a = .x86_64 then 2 ^ 32 * load m (p + 8) 4 else 0)
  selector := ⟨load m (p + 2) 2, load_lt m (p + 2) 2⟩
  type := load m (p + 5) 1 % 16
  present := (load m (p + 5) 1).testBit 7

/-- A descriptor; the bit of an access is the processor's own. -/
structure Segment where
  base : ℕ
  limit : ℕ
  access : ℕ
  flags : ℕ
  deriving DecidableEq

def readSegment (m : Mem) (p : ℕ) : Segment where
  base := load m (p + 2) 2 + 2 ^ 16 * load m (p + 4) 1 + 2 ^ 24 * load m (p + 7) 1
  limit := load m p 2 + 2 ^ 16 * (load m (p + 6) 1 % 16)
  access := load m (p + 5) 1 / 2
  flags := load m (p + 6) 1 / 16

def Segment.IsCode (a : Arch) (s : Segment) : Prop :=
  s.access.testBit 6 ∧ s.access / 2 ^ 4 % 4 = 0 ∧ s.access.testBit 3 ∧ s.access.testBit 2 ∧
    match a with
    | .x86_64 => s.flags.testBit 1 ∧ ¬s.flags.testBit 2
    | .x86 => s.base = 0 ∧ s.limit = 0xFFFFF ∧ s.flags.testBit 3 ∧ s.flags.testBit 2

instance (a : Arch) (s : Segment) : Decidable (s.IsCode a) := by
  unfold Segment.IsCode
  cases a <;> infer_instance

variable {a : Arch} {D : Type}

/-- `none` where the processor raises a further exception. -/
def interrupt (σ : Setting a D) (fetch : Register a → List Instr) (num : ℕ) (err : Option (Register a))
    (m : Machine a D) : Option (Machine a D) :=
  let gate := readGate a m.mem (m.cpu.idtr + (idtSizes a).sum * num)
  let segment := readSegment m.mem (m.cpu.gdtr + gdtSizes.sum * (gate.selector / 8))
  if gate.present ∧ gate.type = 0xE ∧ segment.IsCode a then
    some (run σ (fetch gate.offset) (enter gate.offset gate.selector err m))
  else none

/-- The tables are still as `idt_init` and `gdt_init` have left them. -/
structure Booted (image : Image a) (m : Machine a D) : Prop where
  idt : ∃ m₀, ∀ b ∈ Span m.cpu.idtr ((idtSizes a).sum * 256), m.mem b = idtInit a image m.cpu.idtr m₀ b
  gdt : ∃ m₀, ∀ i < 5, readSegment m.mem (m.cpu.gdtr + gdtSizes.sum * i) =
    readSegment (gdtInit a m.cpu.gdtr m₀) (m.cpu.gdtr + gdtSizes.sum * i)

structure Linked (image : Image a) (fetch : Register a → List Instr) : Prop where
  isr : ∀ num < 32, fetch (image.isr num) = isrStub a num
  irq : ∀ n < 16, fetch (image.irq n) = irqStub a (32 + n)

theorem idtInit_eq (image : Image a) (idt : ℕ) (m : Mem) :
    idtInit a image idt m = storeTable (fun base => idtEntry a base 0x08 0x8E) (idtSizes a).sum idt
      (memset 0 ((idtSizes a).sum * 256) m idt) image.vectors := rfl

theorem idtEntry_sizes (base : Register a) (sel flags : ℕ) : (idtEntry a base sel flags).map Prod.fst = idtSizes a := by
  cases a <;> rfl

theorem and_ones_lt (x k : ℕ) : x &&& (2 ^ k - 1) < 2 ^ k := by
  rw [Nat.and_two_pow_sub_one_eq_mod]
  exact Nat.mod_lt _ (by positivity)

theorem idtEntry_bounds (base : Register a) {sel flags : ℕ} (hsel : sel < 2 ^ 16) (hflags : flags < 2 ^ 8) :
    ∀ f ∈ idtEntry a base sel flags, f.2 < 256 ^ f.1 := by
  have hlow := and_ones_lt base 16
  have hmid := and_ones_lt (base.val >>> 16) 16
  have hhigh := and_ones_lt (base.val >>> 32) 32
  cases a with
  | x86 => simpa [idtEntry] using ⟨hlow, hsel, hflags, hmid⟩
  | x86_64 => simpa [idtEntry] using ⟨hlow, hsel, hflags, hmid, hhigh⟩

theorem join_halves {x : ℕ} (h : x < 2 ^ 32) : (x &&& 0xFFFF) + 2 ^ 16 * (x >>> 16 &&& 0xFFFF) = x := by
  have hlow : x &&& 0xFFFF = x % 2 ^ 16 := Nat.and_two_pow_sub_one_eq_mod x 16
  have hhigh : x >>> 16 &&& 0xFFFF = x / 2 ^ 16 % 2 ^ 16 := by
    rw [← Nat.shiftRight_eq_div_pow]
    exact Nat.and_two_pow_sub_one_eq_mod _ 16
  omega

theorem join_parts {x : ℕ} (h : x < 2 ^ 64) :
    (x &&& 0xFFFF) + 2 ^ 16 * (x >>> 16 &&& 0xFFFF) + 2 ^ 32 * (x >>> 32 &&& 0xFFFFFFFF) = x := by
  have hlow : x &&& 0xFFFF = x % 2 ^ 16 := Nat.and_two_pow_sub_one_eq_mod x 16
  have hmid : x >>> 16 &&& 0xFFFF = x / 2 ^ 16 % 2 ^ 16 := by
    rw [← Nat.shiftRight_eq_div_pow]
    exact Nat.and_two_pow_sub_one_eq_mod _ 16
  have hhigh : x >>> 32 &&& 0xFFFFFFFF = x / 2 ^ 32 % 2 ^ 32 := by
    rw [← Nat.shiftRight_eq_div_pow]
    exact Nat.and_two_pow_sub_one_eq_mod _ 32
  omega

theorem readGate_of_fields {m : Mem} {p sel flags : ℕ} {base : Register a} (hsel : sel < 2 ^ 16)
    (h : loadFields m p (idtSizes a) = (idtEntry a base sel flags).map Prod.snd) :
    readGate a m p = ⟨base, ⟨sel, hsel⟩, flags % 16, flags.testBit 7⟩ := by
  cases a with
  | x86 =>
    simp [idtSizes, idtEntry, loadFields] at h
    obtain ⟨h₀, h₂, -, h₅, h₆⟩ := h
    have hoffset : word 4 (load m p 2 + 2 ^ 16 * load m (p + 6) 2 + 0) = base := by
      apply Fin.ext
      rw [h₀, h₆, Nat.add_zero]
      exact (congrArg (· % 256 ^ 4) (join_halves base.isLt)).trans (Nat.mod_eq_of_lt base.isLt)
    simp only [readGate, h₂, h₅]
    congr
  | x86_64 =>
    simp [idtSizes, idtEntry, loadFields] at h
    obtain ⟨h₀, h₂, -, h₅, h₆, h₈, -⟩ := h
    have hoffset : word 8 (load m p 2 + 2 ^ 16 * load m (p + 6) 2 + 2 ^ 32 * load m (p + 8) 4) = base := by
      apply Fin.ext
      rw [h₀, h₆, h₈]
      exact (congrArg (· % 256 ^ 8) (join_parts base.isLt)).trans (Nat.mod_eq_of_lt base.isLt)
    simp only [readGate, h₂, h₅]
    congr

variable {image : Image a} {m : Machine a D}

theorem vectors_numbers (image : Image a) : image.vectors.map Prod.fst = List.range 48 := by
  rw [Image.vectors, List.map_append, List.map_map, List.map_map]
  rfl

theorem gate_in_table {n size : ℕ} (hn : n < 256) (idt : ℕ) :
    ∀ b ∈ Span (idt + size * n) size, b ∈ Span idt (size * 256) := by
  intro b hb
  have hle := Nat.mul_le_mul_left size (Nat.succ_le_of_lt hn)
  rw [Nat.mul_succ] at hle
  rw [mem_span] at hb ⊢
  omega

theorem Booted.gate (h : Booted image m) {n : ℕ} {base : Register a} (hn : (n, base) ∈ image.vectors) :
    readGate a m.mem (m.cpu.idtr + (idtSizes a).sum * n) = ⟨base, 8, 0xE, true⟩ := by
  obtain ⟨m₀, hm₀⟩ := h.idt
  have hlt : n < 48 := by
    rw [← List.mem_range, ← vectors_numbers image]
    exact List.mem_map_of_mem hn
  have hsame : ∀ b ∈ Span (m.cpu.idtr + (idtSizes a).sum * n) (idtSizes a).sum,
      m.mem b = idtInit a image m.cpu.idtr m₀ b := fun b hb => hm₀ b (gate_in_table (by omega) _ b hb)
  have hnodup : (image.vectors.map Prod.fst).Nodup := by
    rw [vectors_numbers]
    exact List.nodup_range
  have hread : loadFields (idtInit a image m.cpu.idtr m₀) (m.cpu.idtr + (idtSizes a).sum * n) (idtSizes a) =
      (idtEntry a base 0x08 0x8E).map Prod.snd := by
    rw [idtInit_eq]
    exact loadFields_storeTable (fun base => idtEntry_sizes base 0x08 0x8E) hnodup
      (idtEntry_bounds base (by decide) (by decide)) hn
  rw [← loadFields_congr hsame] at hread
  exact readGate_of_fields (by decide) hread

theorem Booted.no_gate (h : Booted image m) {n : ℕ} (hlow : 48 ≤ n) (hn : n < 256) :
    (readGate a m.mem (m.cpu.idtr + (idtSizes a).sum * n)).present = false := by
  obtain ⟨m₀, hm₀⟩ := h.idt
  have hnot : n ∉ image.vectors.map Prod.fst := by
    rw [vectors_numbers, List.mem_range]
    omega
  have hsize : ∀ base : Register a, ((idtEntry a base 0x08 0x8E).map Prod.fst).sum = (idtSizes a).sum :=
    fun base => congrArg List.sum (idtEntry_sizes base _ _)
  have hsum : 6 ≤ (idtSizes a).sum := by cases a <;> decide
  have hzero : load m.mem (m.cpu.idtr + (idtSizes a).sum * n + 5) 1 = 0 := by
    apply load_eq_zero
    intro b hb
    have hb' : b ∈ Span (m.cpu.idtr + (idtSizes a).sum * n) (idtSizes a).sum := by
      rw [mem_span] at hb ⊢
      omega
    have htable := gate_in_table hn m.cpu.idtr.val b hb'
    rw [hm₀ b htable, idtInit_eq, storeTable_other hsize hnot b hb']
    exact memset_apply htable
  rw [readGate, hzero]
  rfl

theorem readSegment_of_fields {m : Mem} {p base limit access gran : ℕ}
    (h : loadFields m p gdtSizes = (gdtEntry (base, limit, access, gran)).map Prod.snd) :
    readSegment m p = ⟨(base &&& 0xFFFF) + 2 ^ 16 * (base >>> 16 &&& 0xFF) + 2 ^ 24 * (base >>> 24 &&& 0xFF),
      (limit &&& 0xFFFF) + 2 ^ 16 * ((limit >>> 16 &&& 0x0F ||| gran &&& 0xF0) % 16), access / 2,
      (limit >>> 16 &&& 0x0F ||| gran &&& 0xF0) / 16⟩ := by
  simp [gdtSizes, gdtEntry, loadFields] at h
  obtain ⟨h₀, h₂, h₄, h₅, h₆, h₇⟩ := h
  rw [readSegment, h₀, h₂, h₄, h₅, h₆, h₇]

theorem readSegment_congr {m m' : Mem} {p : ℕ} (h : ∀ b ∈ Span p gdtSizes.sum, m' b = m b) :
    readSegment m' p = readSegment m p := by
  have hload (i k : ℕ) (hk : i + k ≤ 8) : load m' (p + i) k = load m (p + i) k := by
    apply load_congr
    intro b hb
    apply h
    have hsum : gdtSizes.sum = 8 := rfl
    rw [mem_span] at hb ⊢
    omega
  have hfirst : load m' p 2 = load m p 2 := hload 0 2 (by omega)
  rw [readSegment, readSegment, hload 2 2 (by omega), hload 4 1 (by omega), hload 7 1 (by omega), hfirst,
    hload 6 1 (by omega), hload 5 1 (by omega)]

theorem gdtEntry_bounds (base limit : ℕ) {access gran : ℕ} (haccess : access < 256) :
    ∀ f ∈ gdtEntry (base, limit, access, gran), f.2 < 256 ^ f.1 := by
  have hlimit := and_ones_lt limit 16
  have hlow := and_ones_lt base 16
  have hmid := and_ones_lt (base >>> 16) 8
  have hhigh := and_ones_lt (base >>> 24) 8
  have hgran : (limit >>> 16 &&& 0x0F ||| gran &&& 0xF0) < 2 ^ 8 := by
    apply Nat.or_lt_two_pow
    · exact Nat.and_lt_two_pow _ (by decide)
    · exact Nat.and_lt_two_pow _ (by decide)
  simpa [gdtEntry] using ⟨hlimit, hlow, hmid, haccess, hgran, hhigh⟩

theorem gdtEntry_sizes (x : ℕ × ℕ × ℕ × ℕ) : (gdtEntry x).map Prod.fst = gdtSizes := rfl

theorem loadFields_gdtInit {m : Mem} {n base limit access gran : ℕ} (h : (n, base, limit, access, gran) ∈ segments a)
    (haccess : access < 256) (gdt : ℕ) :
    loadFields (gdtInit a gdt m) (gdt + gdtSizes.sum * n) gdtSizes =
      (gdtEntry (base, limit, access, gran)).map Prod.snd := by
  have hnodup : ((segments a).map Prod.fst).Nodup := by cases a <;> decide
  rw [gdtInit]
  exact loadFields_storeTable gdtEntry_sizes hnodup (gdtEntry_bounds base limit haccess) h

theorem Booted.code (h : Booted image m) : (readSegment m.mem (m.cpu.gdtr + gdtSizes.sum * 1)).IsCode a := by
  obtain ⟨m₀, hm₀⟩ := h.gdt
  rw [hm₀ 1 (by decide)]
  cases a with
  | x86 =>
    have hcode : (1, 0, 0xFFFFFFFF, 0x9A, 0xCF) ∈ segments .x86 := by decide
    have hread := loadFields_gdtInit (m := m₀) hcode (by decide) m.cpu.gdtr
    rw [readSegment_of_fields hread]
    decide
  | x86_64 =>
    have hcode : (1, 0, 0xFFFFFFFF, 0x9A, 0x20) ∈ segments .x86_64 := by decide
    have hread := loadFields_gdtInit (m := m₀) hcode (by decide) m.cpu.gdtr
    rw [readSegment_of_fields hread]
    decide

variable {σ : Setting a D} {fetch : Register a → List Instr}

theorem Booted.interrupt (h : Booted image m) {n : ℕ} {base : Register a} (hn : (n, base) ∈ image.vectors)
    (err : Option (Register a)) : interrupt σ fetch n err m = some (run σ (fetch base) (enter base 8 err m)) := by
  have hselector : ((8 : Selector) : ℕ) / 8 = 1 := rfl
  simp only [Interrupts.interrupt, h.gate hn, hselector, h.code, and_self, if_true]

theorem irq_mem_vectors (image : Image a) {n : ℕ} (hn : n < 16) : (32 + n, image.irq n) ∈ image.vectors :=
  List.mem_append_right _ (List.mem_map_of_mem (List.mem_range.mpr hn))

theorem interrupt_transparent (m : Machine a D) (hboot : Booted image m) (hlink : Linked image fetch)
    (hroom : depth a + 16 ≤ m.cpu.sp) :
    (∀ n < 16,
      let e := atCall σ (irqStub a (32 + n)) (enter (image.irq n) 8 none m)
      let r := σ.callee .irq_handler e
      Called m (word _ (32 + n)) (word _ 0) e ∧ (Obeys m.cpu.frameBase e r →
        interrupt σ fetch (32 + n) none m = some { r with cpu := { m.cpu with sse := r.cpu.sse } })) ∧
    ∀ num, 48 ≤ num → num < 256 → ∀ err, interrupt σ fetch num err m = none := by
  constructor
  · intro n hn e r
    obtain ⟨hcalled, hback⟩ := irq_transparent σ m hroom (32 + n) (image.irq n) 8
    refine ⟨hcalled, fun hobeys => ?_⟩
    rw [hboot.interrupt (irq_mem_vectors image hn), hlink.irq n hn, hback hobeys]
  · intro num hlow hnum err
    apply if_neg
    rw [hboot.no_gate hlow hnum]
    exact fun h => nomatch h.1

theorem isr_mem_vectors (image : Image a) {num : ℕ} (hnum : num < 32) : (num, image.isr num) ∈ image.vectors :=
  List.mem_append_left _ (List.mem_map_of_mem (List.mem_range.mpr hnum))

theorem exception_state (m : Machine a D) (hboot : Booted image m) (hlink : Linked image fetch)
    (hroom : depth a + 16 ≤ m.cpu.sp) {num : ℕ} (hnum : num < 32) (code : Register a) :
    let err := errorCode num code
    let entered := enter (image.isr num) 8 err m
    let e := atCall σ (isrStub a num) entered
    interrupt σ fetch num err m = some (run σ (isrStub a num) entered) ∧
      if num = 21 ∨ num = 29 then
        field a e.mem e.stateArg .ip = code ∧ field a e.mem e.stateArg .cs = m.cpu.ip ∧
          (a = .x86_64 → (e.cpu.sp.val + 8) % 16 = 8)
      else Called m (word _ num) (err.getD (word _ 0)) e := by
  constructor
  · rw [hboot.interrupt (isr_mem_vectors image hnum), hlink.isr num hnum]
  · exact isr_state σ m hroom num code (image.isr num) 8

section Example

def bootMemory (image : Image .x86_64) : Mem := fun b =>
  if b < 4096 then idtInit .x86_64 image 0 (fun _ => 0) b else gdtInit .x86_64 4096 (fun _ => 0) b

def bootImage : Image .x86_64 := ⟨fun n => word _ (0x100000 + 16 * n), fun n => word _ (0x200000 + 16 * n)⟩

def bootCode (p : Register .x86_64) : List Instr :=
  if p.val < 0x200000 then isrStub .x86_64 ((p.val - 0x100000) / 16)
  else irqStub .x86_64 (32 + (p.val - 0x200000) / 16)

def bootMachine : Machine .x86_64 Unit where
  cpu := ⟨fun _ => word _ 7, fun _ => 0x10, word _ 0x123456, 8, word _ 0x202, word _ 0x80000, 0x10, fun _ => 0,
    word _ 0, word _ 4096⟩
  mem := bootMemory bootImage
  dev := ()

def bootSetting : Setting .x86_64 Unit := ⟨true, fun _ m => m, word _ 0x300000⟩

theorem bootMachine_booted : Booted bootImage bootMachine := by
  constructor
  · refine ⟨fun _ => 0, fun b hb => ?_⟩
    have hlt : b < 4096 := by simpa [bootMachine, word, idtSizes] using hb
    exact if_pos hlt
  · refine ⟨fun _ => 0, fun i _ => ?_⟩
    apply readSegment_congr
    intro b hb
    have hle : ¬b < 4096 := by
      have hgdt : bootMachine.cpu.gdtr.val = 4096 := by decide
      rw [hgdt, mem_span] at hb
      omega
    exact if_neg hle

theorem bootCode_linked : Linked bootImage bootCode := by
  constructor
  · intro num hnum
    have hval : (bootImage.isr num).val = 0x100000 + 16 * num := val_word (by simp [Arch.wordBytes]; omega)
    rw [bootCode, hval, if_pos (by omega)]
    congr
    omega
  · intro n hn
    have hval : (bootImage.irq n).val = 0x200000 + 16 * n := val_word (by simp [Arch.wordBytes]; omega)
    rw [bootCode, hval, if_neg (by omega)]
    congr
    omega

theorem keyboard_interrupt_transparent :
    ∃ r : Machine .x86_64 Unit, interrupt bootSetting bootCode 33 none bootMachine =
      some { r with cpu := { bootMachine.cpu with sse := r.cpu.sse } } := by
  have hroom : depth .x86_64 + 16 ≤ bootMachine.cpu.sp := by decide
  have h := interrupt_transparent (σ := bootSetting) bootMachine bootMachine_booted bootCode_linked hroom
  exact ⟨_, (h.1 1 (by decide)).2 ⟨rfl, fun _ _ => rfl, rfl, rfl, rfl, rfl, fun _ _ _ => rfl⟩⟩

theorem state_of_control_protection :
    let e := atCall bootSetting (isrStub .x86_64 21) (enter (bootImage.isr 21) 8 (some (word _ 3)) bootMachine)
    field .x86_64 e.mem e.stateArg .ip = word _ 3 :=
  (exception_state bootMachine bootMachine_booted bootCode_linked (by decide) (by decide : 21 < 32) (word _ 3)).2.1

end Example

end JurkOS.Kernel.Interrupts
