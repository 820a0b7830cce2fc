import JurkOS.Lib.Bits

/-!
The two builds of the kernel (`types.h`): the width of `size_t` and `uintptr_t`
and the arithmetic on them.
-/

namespace JurkOS.Kernel

inductive Arch
  | x86
  | x86_64
  deriving DecidableEq, Repr

namespace Arch

def wordBytes : Arch → ℕ
  | x86 => 4
  | x86_64 => 8

def wordBits (a : Arch) : ℕ := 8 * a.wordBytes

def wrap (a : Arch) (x : ℕ) : ℕ := x % 2 ^ a.wordBits

def sub (a : Arch) (x y : ℕ) : ℕ := a.wrap (x + (2 ^ a.wordBits - y))

def SIZE_MAX (a : Arch) : ℕ := 2 ^ a.wordBits - 1

theorem four_le_wordBytes (a : Arch) : 4 ≤ a.wordBytes := by cases a <;> decide

theorem wrap_of_lt {a : Arch} {x : ℕ} (h : x < 2 ^ a.wordBits) : a.wrap x = x := Nat.mod_eq_of_lt h

theorem sub_of_le {a : Arch} {x y : ℕ} (hx : x < 2 ^ a.wordBits) (h : y ≤ x) : a.sub x y = x - y := by
  have he : x + (2 ^ a.wordBits - y) = x - y + 2 ^ a.wordBits := by omega
  rw [sub, wrap, he, Nat.add_mod_right, Nat.mod_eq_of_lt (by omega)]

theorem pow_wordBytes (a : Arch) : 256 ^ a.wordBytes = 2 ^ a.wordBits := by
  rw [wordBits, pow_mul]
  rfl

end Arch

end JurkOS.Kernel
