import JurkOS.Lib.Bits
import Mathlib.Data.List.Basic
import Mathlib.Data.Nat.Bitwise

/-!
The scan of `drivers/pci.c`: every function of the configuration space, read
through the two ports of configuration mechanism one, into a table of 64 devices.
-/

namespace JurkOS.Kernel.Pci

def MAX_PCI_DEVICES : ℕ := 64

structure Location where
  bus : ℕ
  slot : ℕ
  func : ℕ
  deriving DecidableEq

structure Location.Valid (f : Location) : Prop where
  bus_lt : f.bus < 256
  slot_lt : f.slot < 32
  func_lt : f.func < 8

def Location.Before (f g : Location) : Prop :=
  f.bus < g.bus ∨ f.bus = g.bus ∧ (f.slot < g.slot ∨ f.slot = g.slot ∧ f.func < g.func)

/-- The configuration space: the word at each offset of each function. -/
structure Space where
  word : Location → ℕ → UInt32

/-- What `inl(PCI_CONFIG_DATA)` returns after `outl(PCI_CONFIG_ADDRESS, address)`. -/
def Space.data (S : Space) (address : ℕ) : UInt32 :=
  if address.testBit 31 then
    S.word ⟨address / 2 ^ 16 % 256, address / 2 ^ 11 % 32, address / 2 ^ 8 % 8⟩ (address / 4 % 64 * 4)
  else 0xFFFFFFFF

def pciReadConfig (S : Space) (bus slot func offset : ℕ) : UInt32 :=
  S.data (bus <<< 16 ||| slot <<< 11 ||| func <<< 8 ||| (offset &&& 0xFC) ||| 0x80000000)

structure Device where
  bus : ℕ
  slot : ℕ
  func : ℕ
  vendorId : UInt16
  deviceId : UInt16
  classId : UInt8
  subclass : UInt8
  progIf : UInt8
  irq : UInt8
  bar : Fin 6 → UInt32

/-- `pci_devices` and `pci_device_count`; entries from the count on are stale. -/
structure Table where
  devices : ℕ → Device
  count : ℕ

def Table.push (t : Table) (dev : Device) : Table where
  devices := Function.update t.devices t.count dev
  count := t.count + 1

def pciCheckFunction (S : Space) (bus slot func : ℕ) (t : Table) : Table :=
  let reg0 := pciReadConfig S bus slot func 0x00
  let vendorId := (reg0 &&& 0xFFFF).toUInt16
  let deviceId := ((reg0 >>> 16) &&& 0xFFFF).toUInt16
  if vendorId = 0xFFFF ∨ MAX_PCI_DEVICES ≤ t.count then t
  else
    let reg8 := pciReadConfig S bus slot func 0x08
    let reg3c := pciReadConfig S bus slot func 0x3C
    t.push {
      bus := bus
      slot := slot
      func := func
      vendorId := vendorId
      deviceId := deviceId
      classId := ((reg8 >>> 24) &&& 0xFF).toUInt8
      subclass := ((reg8 >>> 16) &&& 0xFF).toUInt8
      progIf := ((reg8 >>> 8) &&& 0xFF).toUInt8
      irq := (reg3c &&& 0xFF).toUInt8
      bar := fun i => pciReadConfig S bus slot func (0x10 + i * 4) }

def scanSlot (S : Space) (bus : ℕ) (t : Table) (slot : ℕ) : Table :=
  let reg0 := pciReadConfig S bus slot 0 0x00
  if (reg0 &&& 0xFFFF).toUInt16 ≠ 0xFFFF then
    let t := pciCheckFunction S bus slot 0 t
    let regc := pciReadConfig S bus slot 0 0x0C
    if (regc >>> 16) &&& 0x80 ≠ 0 then
      (List.range' 1 7).foldl (fun t func =>
        let fnReg0 := pciReadConfig S bus slot func 0x00
        if (fnReg0 &&& 0xFFFF).toUInt16 ≠ 0xFFFF then pciCheckFunction S bus slot func t else t) t
    else t
  else t

def pciScan (S : Space) (t : Table) : Table :=
  (List.range 256).foldl (fun t bus => (List.range 32).foldl (scanSlot S bus) t) { t with count := 0 }

def pciFindDevice (t : Table) (vendorId deviceId : UInt16) : Option ℕ :=
  (List.range t.count).find? fun i =>
    (t.devices i).vendorId = vendorId ∧ (t.devices i).deviceId = deviceId

def Space.byte (S : Space) (f : Location) (i : ℕ) : UInt8 := UInt8.ofNat ((S.word f (i / 4 * 4)).toNat / 256 ^ (i % 4))

def Space.half (S : Space) (f : Location) (i : ℕ) : UInt16 :=
  UInt16.ofNat ((S.word f (i / 4 * 4)).toNat / 256 ^ (i % 4))

def Space.vendorId (S : Space) (f : Location) : UInt16 := S.half f 0x00

def Space.MultiFunction (S : Space) (f : Location) : Prop := (S.byte f 0x0E).toNat.testBit 7

def Space.device (S : Space) (f : Location) : Device where
  bus := f.bus
  slot := f.slot
  func := f.func
  vendorId := S.vendorId f
  deviceId := S.half f 0x02
  classId := S.byte f 0x0B
  subclass := S.byte f 0x0A
  progIf := S.byte f 0x09
  irq := S.byte f 0x3C
  bar := fun i => S.word f (0x10 + 4 * i)

structure Space.Present (S : Space) (f : Location) : Prop where
  answers : S.vendorId f ≠ 0xFFFF
  slot_answers : S.vendorId { f with func := 0 } ≠ 0xFFFF
  reached : f.func = 0 ∨ S.MultiFunction { f with func := 0 }

instance (S : Space) (f : Location) : Decidable (S.Present f) :=
  decidable_of_iff (S.vendorId f ≠ 0xFFFF ∧ S.vendorId { f with func := 0 } ≠ 0xFFFF ∧
      (f.func = 0 ∨ (S.byte { f with func := 0 } 0x0E).toNat.testBit 7 = true))
    ⟨fun ⟨h, h₀, hr⟩ => ⟨h, h₀, hr⟩, fun h => ⟨h.answers, h.slot_answers, h.reached⟩⟩

theorem or_bit31 {n : ℕ} (h : n < 2 ^ 31) : n ||| 0x80000000 = n + 2 ^ 31 := by
  rw [Nat.or_comm, Lib.Bits.or_low (show 0x80000000 % 2 ^ 31 = 0 by rfl) h, Nat.add_comm]
  rfl

theorem address_eq {bus slot func offset : ℕ} (hbus : bus < 256) (hslot : slot < 32) (hfunc : func < 8)
    (hoffset : offset < 64) :
    bus <<< 16 ||| slot <<< 11 ||| func <<< 8 ||| (offset * 4 &&& 0xFC) ||| 0x80000000 =
      2 ^ 31 + bus * 2 ^ 16 + slot * 2 ^ 11 + func * 2 ^ 8 + offset * 4 := by
  have hlow : offset * 4 &&& 0xFC = offset * 4 := by
    have := Lib.Bits.and_highMask (show 2 ≤ 8 by decide) (show offset * 4 < 2 ^ 8 by omega)
    rw [show 2 ^ 8 - 2 ^ 2 = 0xFC by rfl] at this
    omega
  simp only [Nat.shiftLeft_eq, hlow]
  rw [Lib.Bits.or_low (show bus * 2 ^ 16 % 2 ^ 16 = 0 by simp) (by omega),
    Lib.Bits.or_low (show (bus * 2 ^ 16 + slot * 2 ^ 11) % 2 ^ 11 = 0 by omega) (by omega),
    Lib.Bits.or_low (show (bus * 2 ^ 16 + slot * 2 ^ 11 + func * 2 ^ 8) % 2 ^ 8 = 0 by omega) (by omega),
    or_bit31 (by omega)]
  omega

theorem pciReadConfig_eq (S : Space) {f : Location} (hf : f.Valid) {i : ℕ} (hi : i < 64) :
    pciReadConfig S f.bus f.slot f.func (i * 4) = S.word f (i * 4) := by
  obtain ⟨hbus, hslot, hfunc⟩ := hf
  rw [pciReadConfig, address_eq hbus hslot hfunc hi, Space.data]
  have hbit : (2 ^ 31 + f.bus * 2 ^ 16 + f.slot * 2 ^ 11 + f.func * 2 ^ 8 + i * 4).testBit 31 = true := by
    rw [Nat.testBit_eq_decide_div_mod_eq, decide_eq_true_eq]
    omega
  rw [if_pos hbit]
  congr 1
  · cases f
    simp only [Location.mk.injEq]
    dsimp only at *
    omega
  · omega

theorem and_byte (x : UInt32) : (x &&& 0xFF).toUInt8 = UInt8.ofNat x.toNat := by
  apply UInt8.toNat_inj.mp
  simpa using Nat.and_two_pow_sub_one_eq_mod (x.toNat % 256) 8

theorem and_half (x : UInt32) : (x &&& 0xFFFF).toUInt16 = UInt16.ofNat x.toNat := by
  apply UInt16.toNat_inj.mp
  simpa using Nat.and_two_pow_sub_one_eq_mod (x.toNat % 65536) 16

theorem headerType_bit (x : UInt32) :
    (x >>> 16) &&& 0x80 ≠ 0 ↔ (UInt8.ofNat (x.toNat / 256 ^ 2)).toNat.testBit 7 = true := by
  have hand := Nat.and_two_pow (x.toNat / 256 ^ 2) 7
  have hbit : (x.toNat / 256 ^ 2 % 256).testBit 7 = (x.toNat / 256 ^ 2).testBit 7 :=
    Nat.testBit_mod_two_pow _ 8 7
  rw [ne_eq, ← UInt32.toNat_inj, UInt32.toNat_and, UInt32.toNat_shiftRight, Nat.shiftRight_eq_div_pow]
  simp only [UInt8.toNat_ofNat', Nat.reducePow, Nat.reduceMod, UInt32.reduceToNat] at *
  rw [hand, hbit]
  cases (x.toNat / 65536).testBit 7 <;> simp

theorem and_half_read (S : Space) {f : Location} (hf : f.Valid) :
    (pciReadConfig S f.bus f.slot f.func 0x00 &&& 0xFFFF).toUInt16 = S.vendorId f := by
  have hread := pciReadConfig_eq S hf (show 0 < 64 by decide)
  rw [Nat.zero_mul] at hread
  rw [hread, and_half]
  simp [Space.vendorId, Space.half]

def Table.recorded (t : Table) : List Device := (List.range t.count).map t.devices

@[simp] theorem length_recorded (t : Table) : t.recorded.length = t.count := by simp [Table.recorded]

theorem recorded_push (t : Table) (dev : Device) : (t.push dev).recorded = t.recorded ++ [dev] := by
  have hold : (List.range t.count).map (Function.update t.devices t.count dev) =
      (List.range t.count).map t.devices := by
    apply List.map_congr_left
    intro i hi
    exact Function.update_of_ne (List.mem_range.mp hi).ne _ _
  simp [Table.recorded, Table.push, List.range_succ, hold]

def Records (S : Space) (t : Table) (l : List Location) (t' : Table) : Prop :=
  t.count ≤ MAX_PCI_DEVICES → t'.recorded = (t.recorded ++ l.map S.device).take MAX_PCI_DEVICES

variable {S : Space} {t t' u : Table} {l l' : List Location}

theorem take_take_append {α : Type} (n : ℕ) (a b : List α) : (a.take n ++ b).take n = (a ++ b).take n := by
  rcases le_total n a.length with h | h
  · rw [List.take_append_of_le_length (by simpa using h), List.take_append_of_le_length h, List.take_take,
      Nat.min_self]
  · rw [List.take_of_length_le h]

theorem Records.count_le (h : Records S t l t') (hroom : t.count ≤ MAX_PCI_DEVICES) :
    t'.count ≤ MAX_PCI_DEVICES := by
  rw [← length_recorded, h hroom]
  exact List.length_take_le _ _

theorem Records.refl (S : Space) (t : Table) : Records S t [] t := by
  intro hroom
  rw [List.map_nil, List.append_nil, List.take_of_length_le (by rwa [length_recorded])]

theorem Records.trans (h : Records S t l t') (h' : Records S t' l' u) : Records S t (l ++ l') u := by
  intro hroom
  rw [h' (h.count_le hroom), h hroom, take_take_append, List.map_append, List.append_assoc]

theorem Records.foldl {α : Type} {g : α → List Location} {f : Table → α → Table} {xs : List α}
    (h : ∀ x ∈ xs, ∀ t, Records S t (g x) (f t x)) (t : Table) : Records S t (xs.flatMap g) (xs.foldl f t) := by
  induction xs generalizing t with
  | nil => exact .refl S t
  | cons x xs ih =>
    rw [List.flatMap_cons, List.foldl_cons]
    exact (h x List.mem_cons_self t).trans (ih (fun y hy => h y (List.mem_cons_of_mem x hy)) _)

theorem recorded_device {f : Location} (hf : f.Valid) :
    { bus := f.bus
      slot := f.slot
      func := f.func
      vendorId := S.vendorId f
      deviceId := ((pciReadConfig S f.bus f.slot f.func 0x00 >>> 16) &&& 0xFFFF).toUInt16
      classId := ((pciReadConfig S f.bus f.slot f.func 0x08 >>> 24) &&& 0xFF).toUInt8
      subclass := ((pciReadConfig S f.bus f.slot f.func 0x08 >>> 16) &&& 0xFF).toUInt8
      progIf := ((pciReadConfig S f.bus f.slot f.func 0x08 >>> 8) &&& 0xFF).toUInt8
      irq := (pciReadConfig S f.bus f.slot f.func 0x3C &&& 0xFF).toUInt8
      bar := fun i => pciReadConfig S f.bus f.slot f.func (0x10 + i * 4) : Device } = S.device f := by
  have h0 : pciReadConfig S f.bus f.slot f.func 0x00 = S.word f 0x00 := pciReadConfig_eq S hf (i := 0) (by decide)
  have h8 : pciReadConfig S f.bus f.slot f.func 0x08 = S.word f 0x08 := pciReadConfig_eq S hf (i := 2) (by decide)
  have h3c : pciReadConfig S f.bus f.slot f.func 0x3C = S.word f 0x3C := pciReadConfig_eq S hf (i := 15) (by decide)
  have hbar : (fun i : Fin 6 => pciReadConfig S f.bus f.slot f.func (0x10 + i * 4)) =
      fun i : Fin 6 => S.word f (0x10 + 4 * i) := by
    funext i
    have hi := pciReadConfig_eq S hf (show 4 + (i : ℕ) < 64 by omega)
    rw [show (4 + (i : ℕ)) * 4 = 0x10 + i * 4 by omega] at hi
    rw [hi, Nat.mul_comm]
  rw [h0, h8, h3c, hbar, and_byte, and_byte, and_byte, and_byte, and_half]
  simp [Space.device, Space.byte, Space.half, Nat.shiftRight_eq_div_pow]

theorem pciCheckFunction_records {f : Location} (hf : f.Valid) (hanswers : S.vendorId f ≠ 0xFFFF) (t : Table) :
    Records S t [f] (pciCheckFunction S f.bus f.slot f.func t) := by
  intro hroom
  rw [pciCheckFunction]
  simp only [and_half_read S hf, hanswers, false_or]
  split_ifs with hfull
  · rw [List.take_append_of_le_length (by rwa [length_recorded]),
      List.take_of_length_le (by rwa [length_recorded])]
  · rw [recorded_push, List.map_singleton, List.take_of_length_le (by simp; omega), recorded_device hf]

def slotFunctions (S : Space) (bus slot : ℕ) : List Location :=
  (List.range 8).flatMap fun func => if S.Present ⟨bus, slot, func⟩ then [⟨bus, slot, func⟩] else []

def functions (S : Space) : List Location :=
  (List.range 256).flatMap fun bus => (List.range 32).flatMap (slotFunctions S bus)

theorem slotFunctions_zero (S : Space) (bus slot : ℕ) :
    slotFunctions S bus slot = (if S.Present ⟨bus, slot, 0⟩ then [⟨bus, slot, 0⟩] else []) ++
      (List.range' 1 7).flatMap fun func => if S.Present ⟨bus, slot, func⟩ then [⟨bus, slot, func⟩] else [] := rfl

theorem slotFunctions_empty {bus slot : ℕ} (h : S.vendorId ⟨bus, slot, 0⟩ = 0xFFFF) :
    slotFunctions S bus slot = [] := by
  apply List.flatMap_eq_nil_iff.mpr
  intro func _
  exact if_neg fun hpresent => hpresent.slot_answers h

theorem slotFunctions_single {bus slot : ℕ} (hzero : S.Present ⟨bus, slot, 0⟩)
    (hmulti : ¬S.MultiFunction ⟨bus, slot, 0⟩) : slotFunctions S bus slot = [⟨bus, slot, 0⟩] := by
  have hnone : ∀ func ∈ List.range' 1 7, ¬S.Present ⟨bus, slot, func⟩ := by
    rintro func hfunc ⟨-, -, h | h⟩
    · exact absurd h (Nat.pos_iff_ne_zero.mp (List.mem_range'_1.mp hfunc).1)
    · exact hmulti h
  have hrest : ((List.range' 1 7).flatMap fun func =>
      if S.Present ⟨bus, slot, func⟩ then [(⟨bus, slot, func⟩ : Location)] else []) = [] := by
    apply List.flatMap_eq_nil_iff.mpr
    intro func hfunc
    exact if_neg (hnone func hfunc)
  rw [slotFunctions_zero, if_pos hzero, hrest, List.append_nil]

theorem scanSlot_records (S : Space) {bus slot : ℕ} (hbus : bus < 256) (hslot : slot < 32) (t : Table) :
    Records S t (slotFunctions S bus slot) (scanSlot S bus t slot) := by
  have hvalid : ∀ func < 8, Location.Valid ⟨bus, slot, func⟩ := fun func hfunc => ⟨hbus, hslot, hfunc⟩
  have hc : pciReadConfig S bus slot 0 0x0C = S.word ⟨bus, slot, 0⟩ 0x0C :=
    pciReadConfig_eq S (hvalid 0 (by decide)) (i := 3) (by decide)
  have hread : ∀ func < 8, (pciReadConfig S bus slot func 0x00 &&& 0xFFFF).toUInt16 = S.vendorId ⟨bus, slot, func⟩ := by
    intro func hfunc
    have := and_half_read S (hvalid func hfunc)
    exact this
  have hbit : (pciReadConfig S bus slot 0 0x0C >>> 16) &&& 0x80 ≠ 0 ↔ S.MultiFunction ⟨bus, slot, 0⟩ := by
    rw [hc, headerType_bit, Space.MultiFunction, Space.byte]
  rw [scanSlot]
  simp only [hread 0 (by decide)]
  by_cases hanswers : S.vendorId ⟨bus, slot, 0⟩ = 0xFFFF
  · rw [slotFunctions_empty hanswers, if_neg (not_not.mpr hanswers)]
    exact .refl S t
  · have hzero : S.Present ⟨bus, slot, 0⟩ := ⟨hanswers, hanswers, .inl rfl⟩
    have hfirst := pciCheckFunction_records (hvalid 0 (by decide)) hanswers t
    rw [if_pos hanswers]
    by_cases hmulti : S.MultiFunction ⟨bus, slot, 0⟩
    · rw [if_pos (hbit.mpr hmulti), slotFunctions_zero, if_pos hzero]
      apply hfirst.trans (Records.foldl _ _)
      intro func hfunc t
      have hlt : func < 8 := (List.mem_range'_1.mp hfunc).2
      rw [hread func hlt]
      split_ifs with hpresent h h
      · exact pciCheckFunction_records (hvalid func hlt) h t
      · exact absurd hpresent.answers h
      · exact absurd ⟨h, hanswers, .inr hmulti⟩ hpresent
      · exact .refl S t
    · rw [if_neg (fun h => hmulti (hbit.mp h)), slotFunctions_single hzero hmulti]
      exact hfirst

theorem mem_slotFunctions {bus slot : ℕ} {f : Location} :
    f ∈ slotFunctions S bus slot ↔ f.bus = bus ∧ f.slot = slot ∧ f.func < 8 ∧ S.Present f := by
  rw [slotFunctions, List.mem_flatMap]
  constructor
  · rintro ⟨func, hfunc, hf⟩
    split_ifs at hf with hpresent
    · rw [List.mem_singleton] at hf
      subst hf
      exact ⟨rfl, rfl, List.mem_range.mp hfunc, hpresent⟩
    · cases hf
  · rintro ⟨rfl, rfl, hfunc, hpresent⟩
    exact ⟨f.func, List.mem_range.mpr hfunc, by simp [hpresent]⟩

theorem mem_functions {f : Location} : f ∈ functions S ↔ f.Valid ∧ S.Present f := by
  simp only [functions, List.mem_flatMap, List.mem_range, mem_slotFunctions]
  constructor
  · rintro ⟨bus, hbus, slot, hslot, rfl, rfl, hfunc, hpresent⟩
    exact ⟨⟨hbus, hslot, hfunc⟩, hpresent⟩
  · rintro ⟨⟨hbus, hslot, hfunc⟩, hpresent⟩
    exact ⟨f.bus, hbus, f.slot, hslot, rfl, rfl, hfunc, hpresent⟩

theorem slotFunctions_sorted (S : Space) (bus slot : ℕ) : (slotFunctions S bus slot).Pairwise Location.Before := by
  rw [slotFunctions, List.pairwise_flatMap]
  constructor
  · intro func _
    split_ifs <;> simp
  · apply List.pairwise_lt_range.imp
    intro i j hij f hf g hg
    split_ifs at hf hg
    · rw [List.mem_singleton] at hf hg
      subst hf hg
      exact .inr ⟨rfl, .inr ⟨rfl, hij⟩⟩
    all_goals simp at hf hg

theorem functions_sorted (S : Space) : (functions S).Pairwise Location.Before := by
  rw [functions, List.pairwise_flatMap]
  constructor
  · intro bus _
    rw [List.pairwise_flatMap]
    refine ⟨fun slot _ => slotFunctions_sorted S bus slot, ?_⟩
    apply List.pairwise_lt_range.imp
    intro i j hij f hf g hg
    obtain ⟨hfb, hfs, -⟩ := mem_slotFunctions.mp hf
    obtain ⟨hgb, hgs, -⟩ := mem_slotFunctions.mp hg
    exact .inr ⟨hfb.trans hgb.symm, .inl (by rwa [hfs, hgs])⟩
  · apply List.pairwise_lt_range.imp
    intro i j hij f hf g hg
    obtain ⟨_, -, hf⟩ := List.mem_flatMap.mp hf
    obtain ⟨_, -, hg⟩ := List.mem_flatMap.mp hg
    exact .inl (by rwa [(mem_slotFunctions.mp hf).1, (mem_slotFunctions.mp hg).1])

theorem pciScan_records (S : Space) (t : Table) : Records S { t with count := 0 } (functions S) (pciScan S t) := by
  apply Records.foldl
  intro bus hbus t
  apply Records.foldl
  intro slot hslot t
  exact scanSlot_records S (List.mem_range.mp hbus) (List.mem_range.mp hslot) t

theorem pciFindDevice_eq_some {vendorId deviceId : UInt16} {i : ℕ} :
    pciFindDevice t vendorId deviceId = some i ↔
      i < t.count ∧ ((t.devices i).vendorId = vendorId ∧ (t.devices i).deviceId = deviceId) ∧
        ∀ j < i, ¬((t.devices j).vendorId = vendorId ∧ (t.devices j).deviceId = deviceId) := by
  rw [pciFindDevice, List.find?_range_eq_some]
  simp only [decide_eq_true_eq, List.mem_range, Bool.not_eq_true', decide_eq_false_iff_not]
  constructor
  · rintro ⟨hmatch, hi, hfirst⟩
    exact ⟨hi, hmatch, hfirst⟩
  · rintro ⟨hi, hmatch, hfirst⟩
    exact ⟨hmatch, hi, hfirst⟩

theorem pciFindDevice_eq_none {vendorId deviceId : UInt16} :
    pciFindDevice t vendorId deviceId = none ↔
      ∀ dev ∈ t.recorded, ¬(dev.vendorId = vendorId ∧ dev.deviceId = deviceId) := by
  simp [pciFindDevice, Table.recorded]

theorem pciScan_table (S : Space) (t : Table) :
    (∃ found : List Location, (∀ f, f ∈ found ↔ f.Valid ∧ S.Present f) ∧ found.Pairwise Location.Before ∧
      (pciScan S t).recorded = (found.take 64).map S.device) ∧
    ∀ vendorId deviceId,
      (∀ i, pciFindDevice (pciScan S t) vendorId deviceId = some i ↔
        i < (pciScan S t).count ∧
          (((pciScan S t).devices i).vendorId = vendorId ∧ ((pciScan S t).devices i).deviceId = deviceId) ∧
          ∀ j < i, ¬(((pciScan S t).devices j).vendorId = vendorId ∧
            ((pciScan S t).devices j).deviceId = deviceId)) ∧
      (pciFindDevice (pciScan S t) vendorId deviceId = none ↔
        ∀ dev ∈ (pciScan S t).recorded, ¬(dev.vendorId = vendorId ∧ dev.deviceId = deviceId)) := by
  refine ⟨⟨functions S, fun f => mem_functions, functions_sorted S, ?_⟩, fun vendorId deviceId => ⟨fun i => ?_, ?_⟩⟩
  · rw [pciScan_records S t (Nat.zero_le _), List.map_take]
    rfl
  · exact pciFindDevice_eq_some
  · exact pciFindDevice_eq_none

end JurkOS.Kernel.Pci
