import JurkOS.Lib.Sextets
import Mathlib.Data.List.GetD
import Mathlib.Data.List.Nodup

/-!
`base64_encode` of `NoneCompiled/main.c`: it tells strings apart, and it is the
usual encoding where no group of three bytes is left open.
-/

namespace JurkOS.Userland

open Lib Lib.Libc

def base64Table : Str := bytes "ABCDEFGHIJKLMNOPQRSTUVWXYZabcdefghijklmnopqrstuvwxyz0123456789+/"

def base64Char (sextet : ℕ) : UInt8 := base64Table.getD (sextet &&& 0x3F) 0

def octet (data : Str) (i : ℕ) : ℕ × ℕ := if i < data.length then ((data.getD i 0).toNat, i + 1) else (0, i)

def base64Loop (data : Str) : ℕ → ℕ → Str
  | 0, _ => []
  | n + 1, i =>
    if i < data.length then
      let (octetA, i) := octet data i
      let (octetB, i) := octet data i
      let (octetC, i) := octet data i
      let triple := octetA <<< 16 + octetB <<< 8 + octetC
      base64Char (triple >>> 18) :: base64Char (triple >>> 12) ::
        (if i > data.length + 1 then 0x3D else base64Char (triple >>> 6)) ::
        (if i > data.length then 0x3D else base64Char triple) :: base64Loop data n i
    else []

def base64Encode (data : Str) : Str := base64Loop data data.length 0

def quad (a b c : UInt8) : Str :=
  let triple := a.toNat <<< 16 + b.toNat <<< 8 + c.toNat
  [base64Char (triple >>> 18), base64Char (triple >>> 12), base64Char (triple >>> 6), base64Char triple]

def quads : Str → Str
  | [] => []
  | [a] => quad a 0 0
  | [a, b] => quad a b 0
  | a :: b :: c :: rest => quad a b c ++ quads rest

theorem octet_cons {data rest : Str} {i : ℕ} {a : UInt8} (h : data.drop i = a :: rest) :
    octet data i = (a.toNat, i + 1) ∧ data.drop (i + 1) = rest := by
  have hlt : i < data.length := by
    by_contra hle
    rw [List.drop_eq_nil_of_le (by omega)] at h
    cases h
  rw [List.drop_eq_getElem_cons hlt] at h
  obtain ⟨hhead, htail⟩ := List.cons.inj h
  refine ⟨?_, htail⟩
  rw [octet, if_pos hlt, List.getD_eq_getElem _ _ hlt, hhead]

theorem octet_nil {data : Str} {i : ℕ} (h : data.drop i = []) : octet data i = (0, i) := by
  rw [octet, if_neg (by have := List.drop_eq_nil_iff.mp h; omega)]

theorem length_of_drop {data rest : Str} {i : ℕ} {a : UInt8} (h : data.drop i = a :: rest) :
    data.length = i + 1 + rest.length := by
  have hlen := congrArg List.length h
  rw [List.length_drop, List.length_cons] at hlen
  omega

-- The index never passes the end, so no `=` is written.
theorem base64Loop_eq {data : Str} {n i : ℕ} (hn : data.length ≤ n + i) :
    base64Loop data n i = quads (data.drop i) := by
  induction n generalizing i with
  | zero => rw [base64Loop, List.drop_eq_nil_of_le (by omega), quads]
  | succ n ih =>
    unfold base64Loop
    cases hd : data.drop i with
    | nil =>
      have := List.drop_eq_nil_iff.mp hd
      rw [if_neg (by omega), quads]
    | cons a rest =>
      have hlen := length_of_drop hd
      obtain ⟨ha, hd₁⟩ := octet_cons hd
      rw [if_pos (by omega), ha]
      dsimp only
      cases rest with
      | nil =>
        rw [octet_nil hd₁]
        dsimp only
        rw [octet_nil hd₁]
        dsimp only
        rw [List.length_nil] at hlen
        rw [if_neg (by omega), if_neg (by omega), ih (by omega), hd₁]
        rfl
      | cons b rest =>
        obtain ⟨hb, hd₂⟩ := octet_cons hd₁
        rw [hb]
        dsimp only
        rw [List.length_cons] at hlen
        cases rest with
        | nil =>
          rw [octet_nil hd₂]
          dsimp only
          rw [List.length_nil] at hlen
          rw [if_neg (by omega), if_neg (by omega), ih (by omega), hd₂]
          rfl
        | cons c rest =>
          obtain ⟨hc, hd₃⟩ := octet_cons hd₂
          rw [hc]
          dsimp only
          rw [List.length_cons] at hlen
          rw [if_neg (by omega), if_neg (by omega), ih (by omega), hd₃]
          rfl

theorem base64Encode_eq (data : Str) : base64Encode data = quads data :=
  base64Loop_eq (by omega)

theorem length_base64Table : base64Table.length = 64 := by decide +kernel

theorem base64Table_nodup : base64Table.Nodup := by decide +kernel

theorem base64Table_text : ∀ c ∈ base64Table, c ≠ 0 ∧ c ≠ NEWLINE := by decide +kernel

theorem base64Char_eq (x : ℕ) : ∃ h : x % 64 < base64Table.length, base64Char x = base64Table[x % 64] := by
  have h : x % 64 < base64Table.length := length_base64Table ▸ Nat.mod_lt x (by decide)
  exact ⟨h, by rw [base64Char, Nat.and_two_pow_sub_one_eq_mod x 6, List.getD_eq_getElem _ _ h]⟩

theorem base64Char_injective {x y : ℕ} (h : base64Char x = base64Char y) : x % 64 = y % 64 := by
  obtain ⟨hx, hxc⟩ := base64Char_eq x
  obtain ⟨hy, hyc⟩ := base64Char_eq y
  rw [hxc, hyc] at h
  exact base64Table_nodup.getElem_inj_iff.mp h

theorem base64Char_text (x : ℕ) : base64Char x ≠ 0 ∧ base64Char x ≠ NEWLINE := by
  obtain ⟨hx, hxc⟩ := base64Char_eq x
  rw [hxc]
  exact base64Table_text _ (List.getElem_mem hx)

theorem quad_injective {a b c a' b' c' : UInt8} (h : quad a b c = quad a' b' c') : a = a' ∧ b = b' ∧ c = c' := by
  simp only [quad, List.cons.injEq, and_true] at h
  obtain ⟨h₁, h₂, h₃, h₄⟩ := h
  have h₁ := base64Char_injective h₁
  have h₂ := base64Char_injective h₂
  have h₃ := base64Char_injective h₃
  have h₄ := base64Char_injective h₄
  simp only [Nat.shiftRight_eq_div_pow, Nat.shiftLeft_eq] at h₁ h₂ h₃ h₄
  have := a.toNat_lt
  have := b.toNat_lt
  have := c.toNat_lt
  have := a'.toNat_lt
  have := b'.toNat_lt
  have := c'.toNat_lt
  refine ⟨UInt8.toNat_inj.mp ?_, UInt8.toNat_inj.mp ?_, UInt8.toNat_inj.mp ?_⟩
  all_goals omega

theorem quads_cons (a : UInt8) (s : Str) :
    quads (a :: s) = quad a (s.getD 0 0) (s.getD 1 0) ++ quads (s.drop 2) := by
  cases s with
  | nil => rfl
  | cons b s =>
    cases s with
    | nil => rfl
    | cons c s => rfl

theorem length_quad (a b c : UInt8) : (quad a b c).length = 4 := rfl

theorem eq_of_getD {s t : Str} (hs : 0 ∉ s) (ht : 0 ∉ t) (h : s.getD 0 0 = t.getD 0 0) :
    s = [] ∧ t = [] ∨ ∃ a s' t', s = a :: s' ∧ t = a :: t' := by
  cases s with
  | nil =>
    cases t with
    | nil => exact .inl ⟨rfl, rfl⟩
    | cons b t =>
      have hb : 0 = b := h
      exact absurd (by rw [hb]; exact List.mem_cons_self) ht
  | cons a s =>
    cases t with
    | nil =>
      have ha : a = 0 := h
      exact absurd (by rw [ha]; exact List.mem_cons_self) hs
    | cons b t => exact .inr ⟨a, s, t, rfl, by rw [show b = a from h.symm]⟩

theorem quads_injective {s t : Str} (hs : 0 ∉ s) (ht : 0 ∉ t) (h : quads s = quads t) : s = t := by
  induction hn : s.length using Nat.strong_induction_on generalizing s t with
  | _ n ih =>
    cases s with
    | nil =>
      cases t with
      | nil => rfl
      | cons b t =>
        rw [quads_cons] at h
        cases h
    | cons a s =>
      cases t with
      | nil =>
        rw [quads_cons] at h
        cases h
      | cons b t =>
        rw [quads_cons, quads_cons] at h
        obtain ⟨hquad, hrest⟩ := List.append_inj h (by rw [length_quad, length_quad])
        obtain ⟨rfl, h₁, h₂⟩ := quad_injective hquad
        rw [List.mem_cons, not_or] at hs ht
        rcases eq_of_getD hs.2 ht.2 h₁ with ⟨rfl, rfl⟩ | ⟨b, s, t, rfl, rfl⟩
        · rfl
        have hs' := not_or.mp (List.mem_cons.not.mp hs.2)
        have ht' := not_or.mp (List.mem_cons.not.mp ht.2)
        rcases eq_of_getD hs'.2 ht'.2 h₂ with ⟨rfl, rfl⟩ | ⟨c, s, t, rfl, rfl⟩
        · rfl
        have hs'' := not_or.mp (List.mem_cons.not.mp hs'.2)
        have ht'' := not_or.mp (List.mem_cons.not.mp ht'.2)
        have hlen : s.length < n := by
          simp only [List.length_cons] at hn
          omega
        rw [ih s.length hlen hs''.2 ht''.2 hrest rfl]

theorem base64Encode_injective {s t : Str} (hs : 0 ∉ s) (ht : 0 ∉ t) (h : base64Encode s = base64Encode t) : s = t := by
  rw [base64Encode_eq, base64Encode_eq] at h
  exact quads_injective hs ht h

theorem length_quads (s : Str) : (quads s).length = 4 * ((s.length + 2) / 3) := by
  induction s using quads.induct with
  | case1 => rfl
  | case2 a => rw [quads, length_quad, List.length_singleton]
  | case3 a b => rw [quads, length_quad, List.length_cons, List.length_singleton]
  | case4 a b c rest ih =>
    rw [quads, List.length_append, length_quad, ih]
    simp only [List.length_cons]
    omega

theorem length_base64Encode (s : Str) : (base64Encode s).length = 4 * ((s.length + 2) / 3) := by
  rw [base64Encode_eq, length_quads]

theorem base64Encode_text {s : Str} {c : UInt8} (hc : c ∈ base64Encode s) : c ≠ 0 ∧ c ≠ NEWLINE := by
  have hquad {a b d : UInt8} (h : c ∈ quad a b d) : c ≠ 0 ∧ c ≠ NEWLINE := by
    simp only [quad, List.mem_cons, List.not_mem_nil, or_false] at h
    rcases h with rfl | rfl | rfl | rfl
    all_goals exact base64Char_text _
  rw [base64Encode_eq] at hc
  induction s using quads.induct with
  | case1 => cases hc
  | case2 a => exact hquad hc
  | case3 a b => exact hquad hc
  | case4 a b d rest ih =>
    rw [quads, List.mem_append] at hc
    rcases hc with hc | hc
    · exact hquad hc
    · exact ih hc

theorem base64Char_letter {x y : ℕ} (h : x % 64 = y) : base64Char x = Sextets.alphabet.getD y 0 := by
  rw [base64Char, Nat.and_two_pow_sub_one_eq_mod x 6, ← h]
  rfl

theorem quad_eq (a b c : UInt8) : quad a b c = Sextets.group a b c := by
  have ha := a.toNat_lt
  have hb := b.toNat_lt
  have hc := c.toNat_lt
  simp only [quad, Sextets.group, Nat.shiftLeft_eq, Nat.shiftRight_eq_div_pow]
  rw [base64Char_letter, base64Char_letter, base64Char_letter, base64Char_letter]
  all_goals omega

theorem pad_notMem_group (a b c : UInt8) : Sextets.PAD ∉ Sextets.group a b c := by
  have hletter {x : ℕ} (h : x < 64) : Sextets.PAD ≠ Sextets.alphabet.getD x 0 := by
    have htable : Sextets.PAD ∉ base64Table := by decide
    have hlen : x < Sextets.alphabet.length := length_base64Table.symm ▸ h
    rw [List.getD_eq_getElem _ _ hlen]
    exact fun he => htable (he ▸ List.getElem_mem hlen)
  have ha := a.toNat_lt
  have hb := b.toNat_lt
  have hc := c.toNat_lt
  simp only [Sextets.group, List.mem_cons, List.not_mem_nil, or_false, not_or]
  refine ⟨hletter ?_, hletter ?_, hletter ?_, hletter ?_⟩
  all_goals omega

/-- The usual text, if and only if no group is left open: the index stops at the end of the string, where the
tests for `=` look for one behind it. -/
theorem base64Encode_usual_iff (s : Str) : base64Encode s = Sextets.encode s ↔ 3 ∣ s.length := by
  rw [base64Encode_eq]
  induction s using quads.induct with
  | case1 => exact iff_of_true rfl (Nat.dvd_zero 3)
  | case2 a =>
    rw [quads, quad_eq, Sextets.encode_one]
    apply iff_of_false
    · intro h
      apply pad_notMem_group a 0 0
      rw [h]
      exact List.mem_append_right _ List.mem_cons_self
    · simp
  | case3 a b =>
    rw [quads, quad_eq, Sextets.encode_two]
    apply iff_of_false
    · intro h
      apply pad_notMem_group a b 0
      rw [h]
      exact List.mem_append_right _ List.mem_cons_self
    · simp
  | case4 a b c rest ih =>
    rw [quads, quad_eq, Sextets.encode_group, List.append_cancel_left_eq, ih]
    simp only [List.length_cons]
    omega

theorem base64Encode_pads : base64Encode (bytes "f") ≠ Sextets.encode (bytes "f") := by decide

end JurkOS.Userland
