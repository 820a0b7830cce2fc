import Mathlib.Data.Nat.Digits.Lemmas
import JurkOS.Kernel.Drivers.Serial
import JurkOS.Kernel.Strings

/-!
`int_to_str` of `kernel_main.c`, which writes the exit code on the panic screen.
-/

namespace JurkOS.Kernel.IntToStr

open Lib.Libc Lib.Memory
open Serial (decLoop decLoop_eq)

def digitLoop : ℕ → ℕ → Str → Str
  | 0, _, temp => temp
  | room + 1, val, temp => if val > 0 then digitLoop room (val / 10) ((0x30 + UInt8.ofNat (val % 10)) :: temp) else temp

def copyOut (buf max : ℕ) : ℕ → Str → List (ℕ × UInt8)
  | out, [] => [(buf + out, 0)]
  | out, c :: temp => if out < max - 1 then (buf + out, c) :: copyOut buf max (out + 1) temp else [(buf + out, 0)]

/-- What is written; nothing is said where `-val` is no `int`. -/
def intToStr (val : BitVec 32) (buf max : ℕ) : Option (List (ℕ × UInt8)) :=
  if max = 0 then some []
  else if val = 0 then some [(buf, 0x30), (buf + 1, 0)]
  else if val.toInt < 0 then
    if val = BitVec.intMin 32 then none
    else
      let temp := digitLoop 30 (-val).toNat []
      if 0 < max - 1 then some ((buf, 0x2D) :: copyOut buf max 1 temp) else some (copyOut buf max 0 temp)
  else some (copyOut buf max 0 (digitLoop 30 val.toNat []))

structure Prints (m : Mem) (val : BitVec 32) (buf max : ℕ) (writes : List (ℕ × UInt8)) : Prop where
  inside : ∀ w ∈ writes, buf ≤ w.1 ∧ w.1 < buf + max
  text : ∃ text, text.length < max ∧ 0 ∉ text ∧ TextAt (applyWrites m writes) buf text ∧
    (12 ≤ max → text = Serial.Arg.decimal val.toInt)

variable {m : Mem} {val : BitVec 32} {buf max : ℕ}

theorem digitLoop_eq {room v : ℕ} (h : v < 10 ^ room) (temp : Str) : digitLoop room v temp = decLoop v temp := by
  induction room generalizing v temp with
  | zero =>
    obtain rfl : v = 0 := by simpa using h
    rw [digitLoop, decLoop, if_pos rfl]
  | succ room ih =>
    rw [digitLoop, decLoop]
    by_cases hv : v = 0
    · rw [if_pos hv, if_neg (by omega)]
    · rw [if_neg hv, if_pos (Nat.pos_of_ne_zero hv)]
      apply ih
      rw [pow_succ] at h
      omega

theorem copyOut_eq (buf : ℕ) {max out : ℕ} (hout : out ≤ max - 1) (temp : Str) :
    copyOut buf max out temp = strcpyWrites (buf + out) (temp.take (max - 1 - out)) := by
  induction temp generalizing out with
  | nil => rw [copyOut, List.take_nil, strcpyWrites]
  | cons c temp ih =>
    rw [copyOut]
    split_ifs with hroom
    · obtain ⟨k, hk⟩ : ∃ k, max - 1 - out = k + 1 := ⟨max - 1 - out - 1, by omega⟩
      rw [ih (by omega), hk, List.take_succ_cons, strcpyWrites, show max - 1 - (out + 1) = k by omega, Nat.add_assoc]
    · rw [show max - 1 - out = 0 by omega, List.take_zero, strcpyWrites]

theorem toNat_of_nonneg (h : ¬val.toInt < 0) : val.toNat = val.toInt.natAbs := by
  rw [BitVec.toInt_eq_toNat_cond] at h ⊢
  split_ifs at h ⊢ <;> omega

theorem toNat_neg (h : val.toInt < 0) (hmin : val ≠ BitVec.intMin 32) :
    (-val).toNat = val.toInt.natAbs ∧ val.toInt.natAbs < 10 ^ 30 := by
  have hne : val.toNat ≠ 2 ^ 31 := fun he => hmin (BitVec.eq_of_toNat_eq he)
  have hlt := val.isLt
  rw [BitVec.toNat_neg]
  rw [BitVec.toInt_eq_toNat_cond] at h ⊢
  split_ifs at h ⊢ <;> omega

theorem decimal_of_ne_zero {v : ℤ} (h : v ≠ 0) :
    Serial.Arg.decimal v = (if v < 0 then [0x2D] else []) ++ decLoop v.natAbs [] := by
  rw [Serial.Arg.decimal, if_neg h, decLoop_eq, List.append_nil]
  rfl

theorem intToStr_eq (hmax : 1 ≤ max) (hval : val ≠ 0) (hmin : val ≠ BitVec.intMin 32) :
    intToStr val buf max = some (strcpyWrites buf ((Serial.Arg.decimal val.toInt).take (max - 1))) := by
  have hne : val.toInt ≠ 0 := fun h => hval (BitVec.toInt_inj.mp h)
  have hlt : val.toInt.natAbs < 10 ^ 30 := by
    have := val.isLt
    rw [BitVec.toInt_eq_toNat_cond]
    split_ifs <;> omega
  rw [intToStr, if_neg (by omega), if_neg hval, decimal_of_ne_zero hne]
  by_cases hneg : val.toInt < 0
  · rw [if_pos hneg, if_neg hmin, if_pos hneg]
    dsimp only
    rw [(toNat_neg hneg hmin).1, digitLoop_eq hlt]
    split_ifs with hroom
    · obtain ⟨k, hk⟩ : ∃ k, max - 1 = k + 1 := ⟨max - 1 - 1, by omega⟩
      rw [copyOut_eq buf (by omega), hk]
      rfl
    · rw [copyOut_eq buf (by omega), show max - 1 = 0 by omega]
      rfl
  · rw [if_neg hneg, if_neg hneg, toNat_of_nonneg hneg, digitLoop_eq hlt, copyOut_eq buf (Nat.zero_le _)]
    rfl

theorem length_decimal_le (v : BitVec 32) : (Serial.Arg.decimal v.toInt).length ≤ 11 := by
  have hsign : (if v.toInt < 0 then [(0x2D : UInt8)] else []).length ≤ 1 := by split_ifs <;> simp
  by_cases hv : v.toInt = 0
  · rw [hv]
    decide
  · rw [decimal_of_ne_zero hv, decLoop_eq, List.append_nil, List.length_append, List.length_map, List.length_reverse]
    have hdigits : (Nat.digits 10 v.toInt.natAbs).length ≤ 10 := by
      rw [Nat.digits_length_le_iff (by decide)]
      have := v.isLt
      rw [BitVec.toInt_eq_toNat_cond]
      split_ifs <;> omega
    omega

theorem zero_notMem_decimal (v : ℤ) : 0 ∉ Serial.Arg.decimal v := by
  have hdigit {d : ℕ} (hd : d < 10) : (0x30 + UInt8.ofNat d : UInt8) ≠ 0 := by
    have hall : ∀ k : Fin 10, (0x30 + UInt8.ofNat k : UInt8) ≠ 0 := by decide
    exact hall ⟨d, hd⟩
  rw [Serial.Arg.decimal, List.mem_append, not_or]
  constructor
  · split_ifs <;> decide
  · split_ifs
    · decide
    · rw [List.mem_map]
      rintro ⟨d, hd, he⟩
      exact hdigit (Nat.digits_lt_base (by decide) (List.mem_reverse.mp hd)) he

/-- The text is right, if and only if the number is not the least `int` (`-val` overflows) and the array takes
more than one byte or the number is not zero (`"0"` is written without a look at the size). -/
theorem intToStr_prints_iff (m : Mem) (val : BitVec 32) (buf : ℕ) (hmax : 1 ≤ max) :
    (∃ writes, intToStr val buf max = some writes ∧ Prints m val buf max writes) ↔
      val ≠ BitVec.intMin 32 ∧ ¬(val = 0 ∧ max = 1) := by
  by_cases hval : val = 0
  · have hwrites : intToStr val buf max = some (strcpyWrites buf [0x30]) := by
      rw [intToStr, if_neg (by omega), if_pos hval]
      rfl
    have hmin : val ≠ BitVec.intMin 32 := hval ▸ by decide
    rw [hwrites, and_iff_right hmin]
    constructor
    · rintro ⟨writes, he, hprints⟩ ⟨-, rfl⟩
      obtain rfl := Option.some.inj he
      exact absurd (hprints.inside (buf + 1, 0) (by simp [strcpyWrites])).2 (by simp)
    · intro hroom
      have hmax : 1 < max := lt_of_le_of_ne hmax fun h => hroom ⟨hval, h.symm⟩
      refine ⟨_, rfl, fun w hw => ⟨strcpyWrites_le w hw, ?_⟩, [0x30], ?_, by decide, textAt_strcpy m buf _, ?_⟩
      · exact (strcpyWrites_within [0x30]).mpr (by simp; omega) w hw
      · simp
        omega
      · intro _
        rw [hval]
        rfl
  · by_cases hmin : val = BitVec.intMin 32
    · have hnone : intToStr val buf max = none := by
        rw [intToStr, if_neg (by omega), if_neg hval, if_pos (hmin ▸ by decide), if_pos hmin]
      rw [hnone]
      apply iff_of_false
      · rintro ⟨writes, he, -⟩
        cases he
      · exact fun h => h.1 hmin
    · rw [intToStr_eq hmax hval hmin]
      refine iff_of_true ⟨_, rfl, fun w hw => ⟨strcpyWrites_le w hw, ?_⟩, _, ?_, ?_, textAt_strcpy m buf _, ?_⟩
        ⟨hmin, fun h => hval h.1⟩
      · refine (strcpyWrites_within _).mpr ?_ w hw
        rw [List.length_take]
        omega
      · rw [List.length_take]
        omega
      · exact fun h => zero_notMem_decimal _ (List.mem_of_mem_take h)
      · intro hroom
        have hlen := length_decimal_le val
        exact List.take_of_length_le (by omega)

theorem intToStr_prints_one : ∃ writes, intToStr (-1) 0 12 = some writes ∧ Prints (fun _ => 0xFF) (-1) 0 12 writes :=
  (intToStr_prints_iff (fun _ => 0xFF) (-1) 0 (by decide)).mpr (by decide)

theorem intToStr_intMin : ¬∃ writes, intToStr (BitVec.intMin 32) 0 16 = some writes ∧
    Prints (fun _ => 0xFF) (BitVec.intMin 32) 0 16 writes := by
  rintro ⟨writes, he, -⟩
  have hnone : intToStr (BitVec.intMin 32) 0 16 = none := by decide
  rw [hnone] at he
  cases he

end JurkOS.Kernel.IntToStr
