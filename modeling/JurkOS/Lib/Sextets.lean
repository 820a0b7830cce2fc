import JurkOS.Lib.Libc
import Mathlib.Data.Nat.Bitwise

/-!
Base64: octets as a stream of bits, six bits to a letter, and a sign that fills
the text up to a multiple of four.
-/

namespace Lib.Sextets

open Lib.Libc

def alphabet : Str := bytes "ABCDEFGHIJKLMNOPQRSTUVWXYZabcdefghijklmnopqrstuvwxyz0123456789+/"

def PAD : UInt8 := 0x3D

def octetBits (c : UInt8) : List Bool := (List.range 8).map fun i => c.toNat.testBit (7 - i)

def bits (s : Str) : List Bool := s.flatMap octetBits

def number (bs : List Bool) : ℕ := bs.foldl (fun n b => 2 * n + b.toNat) 0

def letter (bs : List Bool) : UInt8 := alphabet.getD (number bs) 0

def letters : List Bool → Str
  | b₀ :: b₁ :: b₂ :: b₃ :: b₄ :: b₅ :: bs => letter [b₀, b₁, b₂, b₃, b₄, b₅] :: letters bs
  | [] => []
  | bs => [letter (bs ++ List.replicate (6 - bs.length) false)]

def padded (text : Str) : Str := text ++ List.replicate ((4 - text.length % 4) % 4) PAD

def encode (s : Str) : Str := padded (letters (bits s))

example : encode (bytes "foob") = bytes "Zm9vYg==" := by decide

theorem octetBits_eq (c : UInt8) : octetBits c =
    [c.toNat.testBit 7, c.toNat.testBit 6, c.toNat.testBit 5, c.toNat.testBit 4, c.toNat.testBit 3, c.toNat.testBit 2,
      c.toNat.testBit 1, c.toNat.testBit 0] := rfl

theorem number_six (b₀ b₁ b₂ b₃ b₄ b₅ : Bool) : number [b₀, b₁, b₂, b₃, b₄, b₅] =
    32 * b₀.toNat + 16 * b₁.toNat + 8 * b₂.toNat + 4 * b₃.toNat + 2 * b₄.toNat + b₅.toNat := by
  simp only [number, List.foldl_cons, List.foldl_nil]
  omega

/-! The four letters of a group take six, two and four, four and two, and six bits. -/

theorem number_first {a : ℕ} (ha : a < 256) :
    number [a.testBit 7, a.testBit 6, a.testBit 5, a.testBit 4, a.testBit 3, a.testBit 2] = a / 4 := by
  simp only [number_six, Nat.toNat_testBit]
  omega

theorem number_second (a : ℕ) {b : ℕ} (hb : b < 256) :
    number [a.testBit 1, a.testBit 0, b.testBit 7, b.testBit 6, b.testBit 5, b.testBit 4] =
      a % 4 * 16 + b / 16 := by
  simp only [number_six, Nat.toNat_testBit]
  omega

theorem number_third (b : ℕ) {c : ℕ} (hc : c < 256) :
    number [b.testBit 3, b.testBit 2, b.testBit 1, b.testBit 0, c.testBit 7, c.testBit 6] =
      b % 16 * 4 + c / 64 := by
  simp only [number_six, Nat.toNat_testBit]
  omega

theorem number_fourth (c : ℕ) :
    number [c.testBit 5, c.testBit 4, c.testBit 3, c.testBit 2, c.testBit 1, c.testBit 0] = c % 64 := by
  simp only [number_six, Nat.toNat_testBit]
  omega

def group (a b c : UInt8) : Str :=
  [alphabet.getD (a.toNat / 4) 0, alphabet.getD (a.toNat % 4 * 16 + b.toNat / 16) 0,
    alphabet.getD (b.toNat % 16 * 4 + c.toNat / 64) 0, alphabet.getD (c.toNat % 64) 0]

theorem letters_group (a b c : UInt8) (bs : List Bool) :
    letters (octetBits a ++ (octetBits b ++ (octetBits c ++ bs))) = group a b c ++ letters bs := by
  simp only [octetBits_eq, List.cons_append, List.nil_append, letters, letter, group]
  rw [number_first a.toNat_lt, number_second a.toNat b.toNat_lt, number_third b.toNat c.toNat_lt, number_fourth]

theorem encode_group (a b c : UInt8) (s : Str) : encode (a :: b :: c :: s) = group a b c ++ encode s := by
  have hbits : bits (a :: b :: c :: s) = octetBits a ++ (octetBits b ++ (octetBits c ++ bits s)) := rfl
  have hlen : (group a b c ++ letters (bits s)).length = 4 + (letters (bits s)).length := List.length_append
  rw [encode, hbits, letters_group, padded, hlen, Nat.add_mod_left, List.append_assoc]
  rfl

theorem encode_one (a : UInt8) : encode [a] = (group a 0 0).take 2 ++ [PAD, PAD] := by
  have hbits : bits [a] = octetBits a := List.append_nil _
  have hletters : letters (octetBits a) = (group a 0 0).take 2 := by
    have hfirst := congrArg (alphabet.getD · 0) (number_first a.toNat_lt)
    have hsecond := congrArg (alphabet.getD · 0) (number_second a.toNat (b := 0) (by decide))
    exact congrArg₂ (fun c d => [c, d]) hfirst hsecond
  rw [encode, hbits, hletters]
  rfl

theorem encode_two (a b : UInt8) : encode [a, b] = (group a b 0).take 3 ++ [PAD] := by
  have hbits : bits [a, b] = octetBits a ++ octetBits b := congrArg _ (List.append_nil _)
  have hletters : letters (octetBits a ++ octetBits b) = (group a b 0).take 3 := by
    have hfirst := congrArg (alphabet.getD · 0) (number_first a.toNat_lt)
    have hsecond := congrArg (alphabet.getD · 0) (number_second a.toNat b.toNat_lt)
    have hthird := congrArg (alphabet.getD · 0) (number_third b.toNat (c := 0) (by decide))
    rw [octetBits_eq, octetBits_eq, group]
    exact congrArg₂ _ hfirst (congrArg₂ (fun c d => [c, d]) hsecond hthird)
  rw [encode, hbits, hletters]
  rfl

end Lib.Sextets
