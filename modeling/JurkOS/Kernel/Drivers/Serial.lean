import JurkOS.Kernel.Fs.Types
import Mathlib.Data.Nat.Digits.Defs

/-!
Formatted logging of `drivers/serial.c`. The arguments of a call lie in the
slots of its argument area, one a slot, and `va_arg` takes as many slots as
its type fills.
-/

namespace JurkOS.Kernel.Serial

open Lib.Libc Lib.Memory
open Fs (strcpyFrom)

def PERCENT : UInt8 := 0x25

variable {arch : Arch}

/-- The slots of the argument area, of 8 bytes or of 4. -/
abbrev ArgArea (arch : Arch) := ℕ → BitVec arch.wordBits

/-- `va_arg` for a type of `size` bytes, with the next slot. -/
def vaArg (area : ArgArea arch) (size i : ℕ) : ℕ × ℕ :=
  let n := (size + arch.wordBytes - 1) / arch.wordBytes
  (Nat.ofDigits (2 ^ arch.wordBits) ((List.range n).map fun j => (area (i + j)).toNat) % 2 ^ (8 * size), i + n)

def serialPrint (s : Str) : Str := s.flatMap fun c => if c = NEWLINE then [RETURN, c] else [c]

def hexChars : Str := bytes "0123456789abcdef"

def hexLoop : ℕ → ℕ → Str → Str
  | 0, _, buf => buf
  | n + 1, val, buf => hexLoop n (val >>> 4) (hexChars.getD (val &&& 0xF) 0 :: buf)

def serialPrintHex (val : ℕ) : Str := serialPrint (hexLoop 16 val [])

/-- Both loops: the digits are collected from the last and written from the first. -/
def decLoop (val : ℕ) (buf : Str) : Str :=
  if val = 0 then buf else decLoop (val / 10) ((0x30 + UInt8.ofNat (val % 10)) :: buf)

def serialPrintDec (val : ℤ) : Str :=
  (if val < 0 then bytes "-" else []) ++ if val = 0 then bytes "0" else decLoop val.natAbs []

def conversion (m : Mem) (area : ArgArea arch) (k : UInt8) (i : ℕ) : Option Str × ℕ :=
  if k = 0x73 then
    let (s, i) := vaArg area arch.wordBytes i
    (if s = 0 then some (serialPrint (bytes "(null)"))
      else (strcpyFrom m s (2 ^ arch.wordBits - s)).map serialPrint, i)
  else if k = 0x64 then
    let (d, i) := vaArg area 4 i
    (some (serialPrintDec (BitVec.ofNat 32 d).toInt), i)
  else if k = 0x78 then
    let (x, i) := vaArg area 8 i
    (some (serialPrintHex x), i)
  else if k = 0x63 then
    let (c, i) := vaArg area 4 i
    (some [UInt8.ofNat c], i)
  else if k = PERCENT then (some [PERCENT], i)
  else (some [], i)

/-- What a call prints; nothing is said where it reads behind its format or finds no end of a string. -/
def serialPrintf (m : Mem) (area : ArgArea arch) : Str → ℕ → Option Str
  | [], _ => some []
  | c :: fmt, i =>
    if c = PERCENT then
      match fmt with
      | [] => none
      | k :: fmt => do
        let out ← (conversion m area k i).1
        let rest ← serialPrintf m area fmt (conversion m area k i).2
        return out ++ rest
    else (serialPrintf m area fmt i).map (serialPrint [c] ++ ·)

/-! ### Calls -/

def stringArg (m : Mem) (p : BitVec arch.wordBits) : Option Str :=
  if p.toNat = 0 then some (bytes "(null)") else strcpyFrom m p.toNat (2 ^ arch.wordBits - p.toNat)

/-- An argument with its conversion; a `%x` takes an unsigned integer of at most pointer width. -/
inductive Arg (arch : Arch) (m : Mem)
  | s (p : BitVec arch.wordBits) (text : Str) (h : stringArg m p = some text)
  | d (v : BitVec 32)
  | x (v : BitVec arch.wordBits)
  | c (v : BitVec 32)

variable {m : Mem}

namespace Arg

def letter : Arg arch m → UInt8
  | s .. => 0x73
  | d _ => 0x64
  | x _ => 0x78
  | c _ => 0x63

/-- What a caller puts into the slot; an `int` leaves what is above its 32 bits open. -/
def Passed : Arg arch m → BitVec arch.wordBits → Prop
  | s p .., w => w = p
  | d v, w => w.toNat % 2 ^ 32 = v.toNat
  | x v, w => w = v
  | c v, w => w.toNat % 2 ^ 32 = v.toNat

def decimal (v : ℤ) : Str :=
  (if v < 0 then bytes "-" else []) ++
    if v = 0 then bytes "0" else (Nat.digits 10 v.natAbs).reverse.map fun d => 0x30 + UInt8.ofNat d

def hexadecimal (v : ℕ) : Str := (List.range 16).map fun i => hexChars.getD (v / 16 ^ (15 - i) % 16) 0

def output : Arg arch m → Str
  | s _ text _ => serialPrint text
  | d v => decimal v.toInt
  | x v => hexadecimal v.toNat
  | c v => [UInt8.ofNat v.toNat]

end Arg

inductive Piece (arch : Arch) (m : Mem)
  | lit (c : UInt8) (h : c ≠ 0 ∧ c ≠ PERCENT)
  | percent
  | conv (a : Arg arch m)

def Piece.text : Piece arch m → Str
  | lit c _ => [c]
  | percent => [PERCENT, PERCENT]
  | conv a => [PERCENT, a.letter]

def Piece.output : Piece arch m → Str
  | lit c _ => serialPrint [c]
  | percent => [PERCENT]
  | conv a => a.output

def Piece.arg : Piece arch m → Option (Arg arch m)
  | conv a => some a
  | _ => none

def Piece.IsHex : Piece arch m → Prop
  | conv (.x _) => True
  | _ => False

abbrev Format (arch : Arch) (m : Mem) := List (Piece arch m)

def Format.text (f : Format arch m) : Str := f.flatMap Piece.text

def Format.output (f : Format arch m) : Str := f.flatMap Piece.output

def Format.args (f : Format arch m) : List (Arg arch m) := f.filterMap Piece.arg

def Arg.slots : Arg arch m → ℕ
  | s .. => 1
  | d _ => 1
  | x _ => 8 / arch.wordBytes
  | c _ => 1

def Piece.slots : Piece arch m → ℕ
  | lit .. => 0
  | percent => 0
  | conv a => a.slots

def Format.slots (f : Format arch m) : ℕ := (f.map Piece.slots).sum

def Passes (area : ArgArea arch) (i : ℕ) (args : List (Arg arch m)) : Prop :=
  ∀ (k : ℕ) (a : Arg arch m), args[k]? = some a → a.Passed (area (i + k))

/-! ### Numbers -/

theorem hexLoop_eq (n val : ℕ) (buf : Str) :
    hexLoop n val buf = ((List.range n).map fun i => hexChars.getD (val / 16 ^ (n - 1 - i) % 16) 0) ++ buf := by
  induction n generalizing val buf with
  | zero => rfl
  | succ n ih =>
    have hlow : val &&& 0xF = val % 16 := Nat.and_two_pow_sub_one_eq_mod val 4
    rw [hexLoop, ih, List.range_succ, List.map_append, List.append_assoc, List.map_singleton, hlow]
    congr 1
    · apply List.map_congr_left
      intro i hi
      have hlt := List.mem_range.mp hi
      have hexp : n + 1 - 1 - i = n - 1 - i + 1 := by omega
      rw [hexp, pow_succ', ← Nat.div_div_eq_div_mul, Nat.shiftRight_eq_div_pow]
    · simp

theorem decLoop_eq (val : ℕ) (buf : Str) :
    decLoop val buf = ((Nat.digits 10 val).reverse.map fun d => 0x30 + UInt8.ofNat d) ++ buf := by
  induction val, buf using decLoop.induct with
  | case1 buf => simp [decLoop]
  | case2 val buf hne ih =>
    rw [decLoop, if_neg hne, ih, Nat.digits_def' (by decide) (Nat.pos_of_ne_zero hne)]
    simp

theorem serialPrint_of_notMem {s : Str} (h : NEWLINE ∉ s) : serialPrint s = s := by
  induction s with
  | nil => rfl
  | cons c s ih =>
    rw [List.mem_cons, not_or] at h
    have hs := ih h.2
    rw [serialPrint] at hs ⊢
    rw [List.flatMap_cons, hs, if_neg (Ne.symm h.1)]
    rfl

theorem newline_notMem_hexadecimal (v : ℕ) : NEWLINE ∉ Arg.hexadecimal v := by
  intro h
  obtain ⟨i, -, hi⟩ := List.mem_map.mp h
  have hdigit : ∀ d < 16, hexChars.getD d 0 ≠ NEWLINE := by decide
  exact hdigit _ (Nat.mod_lt _ (by decide)) hi

theorem serialPrintHex_eq (v : ℕ) : serialPrintHex v = Arg.hexadecimal v := by
  have hloop : hexLoop 16 v [] = Arg.hexadecimal v := by simp [hexLoop_eq, Arg.hexadecimal]
  rw [serialPrintHex, hloop, serialPrint_of_notMem (newline_notMem_hexadecimal v)]

theorem serialPrintDec_eq (v : ℤ) : serialPrintDec v = Arg.decimal v := by
  rw [serialPrintDec, Arg.decimal, decLoop_eq, List.append_nil]

/-! ### The slots a conversion takes -/

theorem vaArg_int (area : ArgArea arch) (i : ℕ) : vaArg area 4 i = ((area i).toNat % 2 ^ 32, i + 1) := by
  cases arch <;> simp [vaArg, Arch.wordBytes, Arch.wordBits]

theorem vaArg_pointer (area : ArgArea arch) (i : ℕ) : vaArg area arch.wordBytes i = ((area i).toNat, i + 1) := by
  have hlt := (area i).isLt
  cases arch <;> simp [vaArg, Arch.wordBytes, Arch.wordBits] at hlt ⊢ <;> exact hlt

theorem vaArg_uint64 (area : ArgArea .x86_64) (i : ℕ) : vaArg area 8 i = ((area i).toNat, i + 1) :=
  vaArg_pointer area i

theorem vaArg_uint64_x86 (area : ArgArea .x86) (i : ℕ) :
    vaArg area 8 i = ((area i).toNat + 2 ^ 32 * (area (i + 1)).toNat, i + 2) := by
  have h₀ : (area i).toNat < 2 ^ 32 := (area i).isLt
  have h₁ : (area (i + 1)).toNat < 2 ^ 32 := (area (i + 1)).isLt
  have hsum : (area i).toNat + 2 ^ 32 * (area (i + 1)).toNat < 2 ^ 64 := by omega
  simp only [vaArg, Arch.wordBytes, Arch.wordBits]
  norm_num [List.range_succ, Nat.ofDigits]
  exact hsum

variable {area area' : ArgArea arch} {i : ℕ}

theorem conversion_s (m : Mem) (area : ArgArea arch) (i : ℕ) :
    conversion m area 0x73 i = ((stringArg m (area i)).map serialPrint, i + 1) := by
  rw [conversion, if_pos rfl, vaArg_pointer, stringArg]
  dsimp only
  split_ifs <;> rfl

theorem conversion_d (m : Mem) (area : ArgArea arch) (i : ℕ) :
    conversion m area 0x64 i = (some (Arg.decimal (BitVec.ofNat 32 ((area i).toNat % 2 ^ 32)).toInt), i + 1) := by
  rw [conversion, if_neg (by decide), if_pos rfl, vaArg_int]
  dsimp only
  rw [serialPrintDec_eq]

theorem conversion_x (m : Mem) (area : ArgArea arch) (i : ℕ) :
    conversion m area 0x78 i = (some (Arg.hexadecimal (vaArg area 8 i).1), (vaArg area 8 i).2) := by
  rw [conversion, if_neg (by decide), if_neg (by decide), if_pos rfl, ← serialPrintHex_eq]

theorem conversion_c (m : Mem) (area : ArgArea arch) (i : ℕ) :
    conversion m area 0x63 i = (some [UInt8.ofNat ((area i).toNat % 2 ^ 32)], i + 1) := by
  rw [conversion, if_neg (by decide), if_neg (by decide), if_neg (by decide), if_pos rfl, vaArg_int]

theorem conversion_of_passed {a : Arg arch m} (hwidth : arch = .x86_64 ∨ ¬(Piece.conv a).IsHex)
    (h : a.Passed (area i)) : conversion m area a.letter i = (some a.output, i + 1) := by
  cases a with
  | s p text htext =>
    cases h
    rw [Arg.letter, conversion_s, htext]
    rfl
  | d v =>
    rw [Arg.letter, conversion_d, show (area i).toNat % 2 ^ 32 = v.toNat from h, BitVec.ofNat_toNat,
      BitVec.setWidth_eq]
    rfl
  | x v =>
    cases h
    rcases hwidth with rfl | hx
    · rw [Arg.letter, conversion_x, vaArg_uint64]
      rfl
    · exact absurd trivial hx
  | c v =>
    rw [Arg.letter, conversion_c, show (area i).toNat % 2 ^ 32 = v.toNat from h]
    rfl

theorem conversion_next (area : ArgArea arch) (a : Arg arch m) (i : ℕ) :
    (conversion m area a.letter i).2 = i + a.slots := by
  cases a with
  | s => rw [Arg.letter, conversion_s, Arg.slots]
  | d => rw [Arg.letter, conversion_d, Arg.slots]
  | x =>
    rw [Arg.letter, conversion_x, Arg.slots]
    cases arch <;> rfl
  | c => rw [Arg.letter, conversion_c, Arg.slots]

theorem Passes.cons {a : Arg arch m} {args : List (Arg arch m)} (h : Passes area i (a :: args)) :
    a.Passed (area i) ∧ Passes area (i + 1) args := by
  refine ⟨h 0 a rfl, fun k b hb => ?_⟩
  have := h (k + 1) b hb
  rwa [show i + (k + 1) = i + 1 + k by omega] at this

def Piece.printed (area : ArgArea arch) (i : ℕ) : Piece arch m → Option Str
  | conv a => (conversion m area a.letter i).1
  | p => some p.output

theorem serialPrintf_cons (area : ArgArea arch) (p : Piece arch m) (f : Format arch m) (i : ℕ) :
    serialPrintf m area (Format.text (p :: f)) i = (p.printed area i).bind fun out =>
      (serialPrintf m area f.text (i + p.slots)).map (out ++ ·) := by
  cases p with
  | lit c hc =>
    have htext : Format.text (.lit c hc :: f) = c :: Format.text f := rfl
    rw [htext, serialPrintf.eq_def]
    exact if_neg hc.2
  | percent =>
    have htext : Format.text (.percent :: f) = PERCENT :: PERCENT :: Format.text f := rfl
    have hconv : conversion m area PERCENT i = (some [PERCENT], i) := rfl
    rw [htext, serialPrintf, if_pos rfl, hconv]
    simp [Option.map_eq_bind, Option.bind_eq_bind, Piece.printed, Piece.output, Piece.slots]
  | conv a =>
    have htext : Format.text (.conv a :: f) = PERCENT :: a.letter :: Format.text f := rfl
    rw [htext, serialPrintf, if_pos rfl, conversion_next]
    simp [Option.map_eq_bind, Option.bind_eq_bind, Piece.printed, Piece.slots]

theorem serialPrintf_eq {f : Format arch m} (hwidth : arch = .x86_64 ∨ ∀ p ∈ f, ¬p.IsHex)
    (h : Passes area i f.args) : serialPrintf m area f.text i = some f.output := by
  induction f generalizing i with
  | nil => rfl
  | cons p f ih =>
    have hrest : arch = .x86_64 ∨ ∀ q ∈ f, ¬q.IsHex := hwidth.imp_right fun h q hq => h q (List.mem_cons_of_mem p hq)
    have hprint : Format.output (p :: f) = p.output ++ Format.output f := rfl
    rw [serialPrintf_cons, hprint]
    cases p with
    | lit c hc =>
      simp only [Piece.printed, Piece.slots, Option.bind_some]
      rw [Nat.add_zero, ih hrest h]
      rfl
    | percent =>
      simp only [Piece.printed, Piece.slots, Option.bind_some]
      rw [Nat.add_zero, ih hrest h]
      rfl
    | conv a =>
      obtain ⟨ha, hargs⟩ := Passes.cons (show Passes area i (a :: Format.args f) from h)
      have hconv := conversion_of_passed (hwidth.imp_right fun h => h _ List.mem_cons_self) ha
      have hnext := conversion_next area a i
      rw [hconv] at hnext
      simp only [Piece.printed, Piece.slots, Option.bind_some, hconv]
      rw [← hnext, ih hrest hargs]
      rfl

/-! ### Arguments out of step -/

theorem vaArg_congr {size : ℕ} (h : ∀ j < (vaArg area size i).2, area' j = area j) :
    vaArg area' size i = vaArg area size i := by
  simp only [vaArg] at h ⊢
  congr 3
  apply List.map_congr_left
  intro j hj
  have := List.mem_range.mp hj
  rw [h _ (by omega)]

theorem conversion_congr {k : UInt8} (h : ∀ j < (conversion m area k i).2, area' j = area j) :
    conversion m area' k i = conversion m area k i := by
  unfold conversion at *
  split_ifs at h ⊢
  · rw [vaArg_congr h]
  · rw [vaArg_congr h]
  · rw [vaArg_congr h]
  · rw [vaArg_congr h]
  · rfl
  · rfl

theorem Piece.printed_congr {p : Piece arch m} (h : ∀ j < i + p.slots, area' j = area j) :
    p.printed area' i = p.printed area i := by
  cases p with
  | lit c hc => rfl
  | percent => rfl
  | conv a => exact congrArg Prod.fst (conversion_congr (by rwa [conversion_next]))

theorem serialPrintf_congr {f : Format arch m} (h : ∀ j < i + f.slots, area' j = area j) :
    serialPrintf m area' f.text i = serialPrintf m area f.text i := by
  induction f generalizing i with
  | nil => rfl
  | cons p f ih =>
    have hslots : Format.slots (p :: f) = p.slots + Format.slots f := List.sum_cons
    rw [hslots] at h
    rw [serialPrintf_cons, serialPrintf_cons, Piece.printed_congr fun j hj => h j (by omega),
      ih fun j hj => h j (by omega)]

theorem serialPrintf_append (area : ArgArea arch) (f g : Format arch m) (i : ℕ) :
    serialPrintf m area (Format.text (f ++ g)) i = (serialPrintf m area f.text i).bind fun out =>
      (serialPrintf m area g.text (i + f.slots)).map (out ++ ·) := by
  induction f generalizing i with
  | nil => simp [Format.text, Format.slots, serialPrintf]
  | cons p f ih =>
    have hslots : Format.slots (p :: f) = p.slots + Format.slots f := List.sum_cons
    rw [List.cons_append, serialPrintf_cons, serialPrintf_cons, Option.bind_assoc]
    apply Option.bind_congr
    intro out _
    rw [ih, hslots, Nat.add_assoc, Option.map_bind, Option.bind_map]
    simp [Function.comp_def]

theorem exists_last {f : Format arch m} (h : f.args ≠ []) :
    ∃ (f₁ : Format arch m) (a : Arg arch m) (f₂ : Format arch m), f = f₁ ++ .conv a :: f₂ ∧ f₂.args = [] := by
  induction f with
  | nil => exact absurd rfl h
  | cons p f ih =>
    by_cases hf : Format.args f = []
    · cases p with
      | lit c hc => exact absurd hf h
      | percent => exact absurd hf h
      | conv a => exact ⟨[], a, f, rfl, hf⟩
    · obtain ⟨f₁, a, f₂, rfl, hf₂⟩ := ih hf
      exact ⟨p :: f₁, a, f₂, rfl, hf₂⟩

theorem Arg.slots_pos (a : Arg arch m) : 0 < a.slots := by
  cases a with
  | x => cases arch <;> simp [Arg.slots, Arch.wordBytes]
  | _ => exact Nat.one_pos

theorem length_args_le (f : Format arch m) : f.args.length ≤ f.slots := by
  induction f with
  | nil => exact le_refl 0
  | cons p f ih =>
    have hslots : Format.slots (p :: f) = p.slots + Format.slots f := List.sum_cons
    cases p with
    | lit c hc => exact ih.trans (by omega)
    | percent => exact ih.trans (by omega)
    | conv a =>
      have hpos := a.slots_pos
      have hlen : (Format.args (.conv a :: f)).length = (Format.args f).length + 1 := rfl
      rw [hlen, hslots]
      simp only [Piece.slots]
      omega

theorem slots_eq_zero {f : Format arch m} (h : f.args = []) : f.slots = 0 := by
  induction f with
  | nil => rfl
  | cons p f ih =>
    have hslots : Format.slots (p :: f) = p.slots + Format.slots f := List.sum_cons
    cases p with
    | lit c hc => exact hslots.trans (by rw [ih h]; rfl)
    | percent => exact hslots.trans (by rw [ih h]; rfl)
    | conv a => cases h

theorem args_ne_nil {f : Format arch m} (h : ∃ p ∈ f, p.IsHex) : f.args ≠ [] := by
  obtain ⟨p, hp, hx⟩ := h
  cases p with
  | conv a =>
    have ha : a ∈ f.args := List.mem_filterMap.mpr ⟨_, hp, rfl⟩
    exact List.ne_nil_of_mem ha
  | _ => exact absurd hx id

theorem length_args_lt {f : Format .x86 m} (h : ∃ p ∈ f, p.IsHex) : f.args.length < f.slots := by
  obtain ⟨p, hp, hx⟩ := h
  obtain ⟨f₁, f₂, rfl⟩ := List.append_of_mem hp
  cases p with
  | conv a =>
    cases a with
    | x v =>
      have h₁ := length_args_le f₁
      have h₂ := length_args_le f₂
      have hargs : (Format.args (f₁ ++ .conv (.x v) :: f₂)).length =
          (Format.args f₁).length + (Format.args f₂).length + 1 := by
        simp [Format.args, Piece.arg]
        omega
      have hslots : Format.slots (f₁ ++ .conv (.x v) :: f₂) =
          Format.slots f₁ + (2 + Format.slots f₂) := by
        simp [Format.slots, Piece.slots, Arg.slots, Arch.wordBytes]
      rw [hargs, hslots]
      omega
    | _ => exact absurd hx id
  | _ => exact absurd hx id

theorem strcpyFrom_first {p n : ℕ} {c : UInt8} {t : Str} (hc : c ≠ RETURN)
    (h : (strcpyFrom m p (n + 1)).map serialPrint = some (c :: t)) :
    m p = c ∧ (strcpyFrom m (p + 1) n).map serialPrint = some t := by
  obtain ⟨s, hs, hprint⟩ := Option.map_eq_some_iff.mp h
  unfold strcpyFrom at hs
  split_ifs at hs with hend
  · cases hs
    cases hprint
  · obtain ⟨s', hs', rfl⟩ := Option.map_eq_some_iff.mp hs
    rw [serialPrint, List.flatMap_cons] at hprint
    split_ifs at hprint
    · exact absurd (List.cons.inj hprint).1.symm hc
    · obtain ⟨rfl, rfl⟩ := List.cons.inj hprint
      exact ⟨rfl, by rw [hs']; rfl⟩

theorem not_null_twice (m : Mem) : ¬((strcpyFrom m 1 (2 ^ 32 - 2 + 1)).map serialPrint = some (bytes "(null)") ∧
    (strcpyFrom m 2 (2 ^ 32 - 3 + 1)).map serialPrint = some (bytes "(null)")) := by
  rintro ⟨h₁, h₂⟩
  have htail := (strcpyFrom_first (by decide) h₁).2
  have hn : m 2 = 0x6E := (strcpyFrom_first (n := 2 ^ 32 - 3) (by decide) htail).1
  have hparen : m 2 = 0x28 := (strcpyFrom_first (by decide) h₂).1
  rw [hn] at hparen
  exact absurd hparen (by decide)

theorem hexadecimal_high {lo : ℕ} (h : lo < 2 ^ 32) : Arg.hexadecimal lo ≠ Arg.hexadecimal (lo + 2 ^ 32 * 1) := by
  intro he
  have hdigit := congrArg (·[7]?) he
  have hlow : lo / 16 ^ (15 - 7) % 16 = 0 := by omega
  have hhigh : (lo + 2 ^ 32 * 1) / 16 ^ (15 - 7) % 16 = 1 := by omega
  simp only [Arg.hexadecimal, List.getElem?_map, List.getElem?_range (show 7 < 16 by decide), Option.map_some,
    hlow, hhigh] at hdigit
  exact absurd hdigit (by decide)

theorem conversion_varies (area : ArgArea .x86) (a : Arg .x86 m) (i : ℕ) : ∃ w w',
    (conversion m (Function.update area (i + a.slots - 1) w) a.letter i).1 ≠
      (conversion m (Function.update area (i + a.slots - 1) w') a.letter i).1 := by
  cases a with
  | s p text h =>
    by_contra hsame
    push Not at hsame
    have hi : i + Arg.slots (.s p text h) - 1 = i := rfl
    simp only [hi, Arg.letter, conversion_s, Function.update_self] at hsame
    exact not_null_twice m ⟨hsame 1#32 0#32, hsame 2#32 0#32⟩
  | d v =>
    refine ⟨0, 1, ?_⟩
    have hi : i + Arg.slots (.d v : Arg .x86 m) - 1 = i := rfl
    rw [hi, Arg.letter, conversion_d, conversion_d, Function.update_self, Function.update_self]
    have hzero : Arg.decimal 0 = bytes "0" := rfl
    have hone : Arg.decimal 1 = bytes "1" := by simp [Arg.decimal, bytes]
    intro he
    have he : Arg.decimal 0 = Arg.decimal 1 := Option.some.inj he
    rw [hzero, hone] at he
    exact absurd he (by decide)
  | x v =>
    refine ⟨0, 1, ?_⟩
    have hlt : (area i).toNat < 2 ^ 32 := (area i).isLt
    have hi : i + Arg.slots (.x v : Arg .x86 m) - 1 = i + 1 := rfl
    have hlow : ∀ w, Function.update area (i + 1) w i = area i := fun w => Function.update_of_ne (by omega) _ _
    rw [hi, Arg.letter, conversion_x, conversion_x, vaArg_uint64_x86, vaArg_uint64_x86, hlow, hlow,
      Function.update_self, Function.update_self]
    exact fun he => hexadecimal_high hlt (Option.some.inj he)
  | c v =>
    refine ⟨0, 1, ?_⟩
    have hi : i + Arg.slots (.c v : Arg .x86 m) - 1 = i := rfl
    rw [hi, Arg.letter, conversion_c, conversion_c, Function.update_self, Function.update_self]
    intro he
    exact absurd (Option.some.inj he) (by decide)

def Arg.word : Arg arch m → BitVec arch.wordBits
  | s p .. => p
  | d v => BitVec.ofNat _ v.toNat
  | x v => v
  | c v => BitVec.ofNat _ v.toNat

theorem Arg.passed_word (a : Arg arch m) : a.Passed a.word := by
  have hint : ∀ v : BitVec 32, (BitVec.ofNat arch.wordBits v.toNat).toNat % 2 ^ 32 = v.toNat := by
    intro v
    have hv := v.isLt
    cases arch <;> simp [Arch.wordBits, Arch.wordBytes] <;> omega
  cases a with
  | s => rfl
  | d v => exact hint v
  | x => rfl
  | c v => exact hint v

theorem exists_passes (args : List (Arg arch m)) : ∃ area : ArgArea arch, Passes area 0 args := by
  refine ⟨fun k => (args[k]?).elim 0 Arg.word, fun k a ha => ?_⟩
  simp only [Nat.zero_add, ha, Option.elim_some]
  exact a.passed_word

theorem Passes.update {args : List (Arg arch m)} (h : Passes area 0 args) {j : ℕ} (hj : args.length ≤ j)
    (w : BitVec arch.wordBits) : Passes (Function.update area j w) 0 args := by
  intro k a ha
  have hlt : k < args.length := (List.getElem?_eq_some_iff.mp ha).1
  rw [Function.update_of_ne (by omega)]
  exact h k a ha

theorem serialPrintf_last (area : ArgArea arch) (a : Arg arch m) {f : Format arch m} (hf : f.args = []) (i : ℕ) :
    serialPrintf m area (Format.text (.conv a :: f)) i =
      (conversion m area a.letter i).1.map (· ++ f.output) := by
  have hhex : ∀ p ∈ f, ¬p.IsHex := fun p hp hx => args_ne_nil ⟨p, hp, hx⟩ hf
  have hpasses : ∀ i, Passes area i f.args := by
    rw [hf]
    intro i k b hb
    cases hb
  rw [serialPrintf_cons, serialPrintf_eq (.inr hhex) (hpasses _)]
  simp only [Piece.printed, Option.map_some]
  rw [Option.map_eq_bind]
  rfl

theorem not_in_step {f : Format .x86 m} (hhex : ∃ p ∈ f, p.IsHex) :
    ∃ area : ArgArea .x86, Passes area 0 f.args ∧ serialPrintf m area f.text 0 ≠ some f.output := by
  by_contra hall
  push Not at hall
  have hbeyond := length_args_lt hhex
  obtain ⟨f₁, a, f₂, rfl, hlast⟩ := exists_last (args_ne_nil hhex)
  obtain ⟨area, harea⟩ := exists_passes (Format.args (f₁ ++ .conv a :: f₂))
  obtain ⟨w, w', hvaries⟩ := conversion_varies area a (Format.slots f₁)
  have hpos := a.slots_pos
  have hslots : Format.slots (f₁ ++ .conv a :: f₂) = Format.slots f₁ + a.slots := by
    have hnone := slots_eq_zero hlast
    simp only [Format.slots] at hnone
    simp [Format.slots, Piece.slots, hnone]
  have hprint : ∀ w, ((serialPrintf m area (Format.text f₁) 0).bind fun out =>
      ((conversion m (Function.update area (Format.slots f₁ + a.slots - 1) w) a.letter (Format.slots f₁)).1.map
        (· ++ Format.output f₂)).map (out ++ ·)) = some (Format.output (f₁ ++ .conv a :: f₂)) := by
    intro w
    have hbelow : ∀ j < 0 + Format.slots f₁,
        Function.update area (Format.slots f₁ + a.slots - 1) w j = area j := by
      intro j hj
      exact Function.update_of_ne (by omega) _ _
    rw [← hall _ (harea.update (j := Format.slots f₁ + a.slots - 1) (by omega) w), serialPrintf_append,
      serialPrintf_congr hbelow, Nat.zero_add, serialPrintf_last _ a hlast]
  obtain ⟨out, hout, hw⟩ := Option.bind_eq_some_iff.mp (hprint w)
  obtain ⟨out', hout', hw'⟩ := Option.bind_eq_some_iff.mp (hprint w')
  rw [hout] at hout'
  cases hout'
  rw [Option.map_map, Option.map_eq_some_iff] at hw hw'
  obtain ⟨c, hc, he⟩ := hw
  obtain ⟨c', hc', he'⟩ := hw'
  have hsame : c = c' := List.append_cancel_right (List.append_cancel_left (he.trans he'.symm))
  exact hvaries (hc.trans (hsame ▸ hc'.symm))

theorem serialPrintf_in_step_iff (f : Format arch m) :
    (∀ area : ArgArea arch, Passes area 0 f.args → serialPrintf m area f.text 0 = some f.output) ↔
      arch = .x86_64 ∨ ∀ p ∈ f, ¬p.IsHex := by
  constructor
  · intro h
    by_contra hnot
    push Not at hnot
    obtain ⟨harch, hhex⟩ := hnot
    cases arch with
    | x86_64 => exact harch rfl
    | x86 =>
      obtain ⟨area, hpasses, hne⟩ := not_in_step hhex
      exact hne (h area hpasses)
  · exact fun hwidth area h => serialPrintf_eq hwidth h

/-! The report of a dead init process, with its code and its reason. -/

def reason : Mem := fun p => if p = 16 then 0x45 else 0

def reasonArg : Arg .x86 reason := .s 16 (bytes "E") (by decide)

def panicLine : Format .x86 reason := [.conv (.x 7), .lit 0x20 (by decide), .conv reasonArg]

theorem serialPrintf_panic_x86 :
    ¬∀ area : ArgArea .x86, Passes area 0 panicLine.args →
      serialPrintf reason area panicLine.text 0 = some panicLine.output := by
  intro h
  have hrun := h (fun k => if k = 0 then 7 else if k = 1 then 16 else 0) ?_
  · exact absurd hrun (by decide)
  · intro k a ha
    rcases k with _ | _ | k
    · cases ha
      rfl
    · cases ha
      rfl
    · cases ha

end JurkOS.Kernel.Serial
