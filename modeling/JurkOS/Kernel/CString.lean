import JurkOS.Lib.Memory

/-!
The memory functions of `lib/string.c`.
-/

namespace JurkOS.Kernel

open Lib.Memory

def memset (c : UInt8) : ℕ → Mem → ℕ → Mem
  | 0, m, _ => m
  | n + 1, m, p => memset c n (Function.update m p c) (p + 1)

/-- `*d++ = *s++`, `n` times. -/
def copyUp (m : Mem) (d s : ℕ) : ℕ → Mem
  | 0 => m
  | n + 1 => copyUp (Function.update m d (m s)) (d + 1) (s + 1) n

/-- `*--d = *--s`, `n` times. -/
def copyDown (m : Mem) (d s : ℕ) : ℕ → Mem
  | 0 => m
  | n + 1 => copyDown (Function.update m (d - 1) (m (s - 1))) (d - 1) (s - 1) n

def memcpy (m : Mem) (dest src n : ℕ) : Mem := copyUp m dest src n

def memmove (m : Mem) (dest src n : ℕ) : Mem :=
  if dest < src then copyUp m dest src n else copyDown m (dest + n) (src + n) n

theorem memset_changedIn (c : UInt8) (n : ℕ) (m : Mem) (p : ℕ) :
    ChangedIn (Span p n) m (memset c n m p) := by
  induction n generalizing m p with
  | zero => exact ChangedIn.refl _ _
  | succ n ih =>
    intro b hb
    have hne : b ≠ p := fun he => hb ⟨by omega, by omega⟩
    have htail : b ∉ Span (p + 1) n := fun ht => hb ⟨by have := ht.1; omega, by have := ht.2; omega⟩
    rw [memset, ih _ _ b htail, Function.update_of_ne hne]

theorem memset_apply {c : UInt8} {n : ℕ} {m : Mem} {p b : ℕ} (hb : b ∈ Span p n) :
    memset c n m p b = c := by
  induction n generalizing m p with
  | zero => obtain ⟨h₁, h₂⟩ := hb; omega
  | succ n ih =>
    unfold memset
    by_cases he : b = p
    · have hout : p ∉ Span (p + 1) n := by simp
      rw [he, memset_changedIn c n _ _ p hout, Function.update_self]
    · exact ih ⟨by have := hb.1; omega, by have := hb.2; omega⟩

variable {dest src n : ℕ}

theorem copyUp_moves (m : Mem) (hclear : dest ≤ src ∨ src + n ≤ dest) : Moves m (copyUp m dest src n) dest src n := by
  induction n generalizing m dest src with
  | zero => exact moves_zero m dest src
  | succ n ih =>
    apply Moves.first (by omega)
    exact ih _ (by omega)

theorem copyDown_moves (m : Mem) (hle : src ≤ dest) (n : ℕ) :
    Moves m (copyDown m (dest + n) (src + n) n) dest src n := by
  induction n generalizing m with
  | zero => exact moves_zero m dest src
  | succ n ih =>
    apply Moves.last hle
    exact ih _

theorem copyUp_changedIn (m : Mem) (dest src n : ℕ) : ChangedIn (Span dest n) m (copyUp m dest src n) := by
  induction n generalizing m dest src with
  | zero => exact ChangedIn.refl _ m
  | succ n ih =>
    intro b hb
    rw [mem_span] at hb
    have hout : b ∉ Span (dest + 1) n := by
      rw [mem_span]
      omega
    have hne : b ≠ dest := by omega
    exact (ih _ _ _ b hout).trans (Function.update_of_ne hne _ _)

theorem copyUp_first (m : Mem) (dest src n : ℕ) : copyUp m dest src (n + 1) dest = m src := by
  have hout : dest ∉ Span (dest + 1) n := fun hin => absurd hin.1 (Nat.not_succ_le_self dest)
  exact (copyUp_changedIn _ _ _ _ _ hout).trans (Function.update_self ..)

theorem copyUp_repeats (m : Mem) (hle : src ≤ dest) {i : ℕ} (hi : i < n) :
    copyUp m dest src n (dest + i) = copyUp m dest src n (src + i) := by
  induction n generalizing m dest src i with
  | zero => cases hi
  | succ n ih =>
    cases i with
    | zero =>
      have hout : src ∉ Span (dest + 1) n := fun hin => absurd (hle.trans_lt hin.1) (Nat.lt_irrefl src)
      have hsrc : Function.update m dest (m src) src = m src := by
        by_cases hsame : src = dest
        · rw [hsame, Function.update_self]
        · exact Function.update_of_ne hsame _ _
      exact (copyUp_first m dest src n).trans ((copyUp_changedIn _ _ _ _ _ hout).trans hsrc).symm
    | succ i =>
      have hrest : copyUp _ (dest + 1) (src + 1) n (dest + 1 + i) = copyUp _ (dest + 1) (src + 1) n (src + 1 + i) :=
        ih (Function.update m dest (m src)) (Nat.succ_le_succ hle) (Nat.lt_of_succ_lt_succ hi)
      rw [Nat.add_assoc, Nat.add_assoc, Nat.add_comm 1] at hrest
      exact hrest

theorem memmove_moves (m : Mem) (dest src n : ℕ) :
    Moves m (memmove m dest src n) dest src n ∧ (dest ≤ src → Moves m (memcpy m dest src n) dest src n) := by
  constructor
  · rw [memmove]
    split_ifs with hlt
    · exact copyUp_moves m (.inl hlt.le)
    · exact copyDown_moves m (Nat.not_lt.mp hlt) n
  · intro hle
    exact copyUp_moves m (.inl hle)

theorem memcpy_moves_iff (m : Mem) (dest src n : ℕ) : Moves m (memcpy m dest src n) dest src n ↔
    dest ≤ src ∨ ∀ i, dest + i < src + n → m (dest + i) = m (src + i) := by
  by_cases hle : dest ≤ src
  · exact iff_of_true (copyUp_moves m (.inl hle)) (.inl hle)
  obtain ⟨δ, hδ, rfl⟩ : ∃ δ, 0 < δ ∧ dest = src + δ := ⟨dest - src, by omega, by omega⟩
  have hrepeats {i : ℕ} (hi : i < n) := copyUp_repeats m (Nat.le_add_right src δ) hi
  rw [or_iff_right hle]
  constructor
  · intro h i hi
    have hhere := h.moved i (by omega)
    have hthere := h.moved (δ + i) (by omega)
    have hsame := hrepeats (i := δ + i) (by omega)
    rw [← Nat.add_assoc src] at hthere hsame
    rw [← hthere, ← hhere]
    exact hsame
  · intro h
    refine ⟨fun i hi => ?_, copyUp_changedIn m _ src n⟩
    -- a byte that is read behind the first `δ` was written `δ` turns before
    induction i using Nat.strong_induction_on with
    | _ i ih =>
      by_cases hfirst : i < δ
      · have hout : src + i ∉ Span (src + δ) n := by
          rw [mem_span]
          omega
        exact (hrepeats hi).trans (copyUp_changedIn m _ src n _ hout)
      · obtain ⟨k, rfl⟩ := Nat.exists_eq_add_of_le (Nat.not_lt.mp hfirst)
        have hk := ih k (by omega) (by omega)
        have hperiod := h k (by omega)
        rw [← Nat.add_assoc src, hperiod, ← hk]
        have hsame := hrepeats hi
        rw [← Nat.add_assoc src] at hsame
        exact hsame

end JurkOS.Kernel
