import Mathlib.Data.Set.Lattice
import Mathlib.Order.CompletePartialOrder
import Mathlib.Algebra.Order.Ring.Nat
import Mathlib.Tactic.NormNum

/-!
Byte-addressed memory with little-endian words. A run of stores is described by
the set of addresses it may change, so that everything outside is framed.
-/

namespace Lib.Memory

abbrev Mem := ℕ → UInt8

def load (m : Mem) (p : ℕ) : ℕ → ℕ
  | 0 => 0
  | k + 1 => (m p).toNat + 256 * load m (p + 1) k

def store (m : Mem) (p : ℕ) : ℕ → ℕ → Mem
  | 0, _ => m
  | k + 1, v => store (Function.update m p (UInt8.ofNat v)) (p + 1) k (v / 256)

def Span (p n : ℕ) : Set ℕ := {b | p ≤ b ∧ b < p + n}

def ChangedIn (S : Set ℕ) (m m' : Mem) : Prop := ∀ b, b ∉ S → m' b = m b

structure Moves (m m' : Mem) (dest src n : ℕ) : Prop where
  moved : ∀ i < n, m' (dest + i) = m (src + i)
  frame : ChangedIn (Span dest n) m m'

@[simp] theorem mem_span {p n b : ℕ} : b ∈ Span p n ↔ p ≤ b ∧ b < p + n := Iff.rfl

theorem ChangedIn.refl (S : Set ℕ) (m : Mem) : ChangedIn S m m := fun _ _ => rfl

theorem ChangedIn.trans {S : Set ℕ} {m₁ m₂ m₃ : Mem} (h : ChangedIn S m₁ m₂) (h' : ChangedIn S m₂ m₃) :
    ChangedIn S m₁ m₃ := fun b hb => (h' b hb).trans (h b hb)

theorem ChangedIn.mono {S T : Set ℕ} {m m' : Mem} (h : ChangedIn S m m') (hST : S ⊆ T) :
    ChangedIn T m m' := fun b hb => h b (fun hS => hb (hST hS))

theorem load_congr {m m' : Mem} {p k : ℕ} (h : ∀ b ∈ Span p k, m' b = m b) :
    load m' p k = load m p k := by
  induction k generalizing p with
  | zero => rfl
  | succ k ih =>
    have hp : m' p = m p := h p ⟨le_refl _, by omega⟩
    have ht : load m' (p + 1) k = load m (p + 1) k :=
      ih (fun b hb => h b ⟨by have := hb.1; omega, by have := hb.2; omega⟩)
    simp only [load, hp, ht]

theorem load_lt (m : Mem) (p k : ℕ) : load m p k < 256 ^ k := by
  induction k generalizing p with
  | zero => simp [load]
  | succ k ih =>
    have hh := (m p).toNat_lt
    have ht := ih (p + 1)
    rw [load, pow_succ]
    omega

theorem load_of_changedIn {S : Set ℕ} {m m' : Mem} {p k : ℕ} (h : ChangedIn S m m')
    (hd : Disjoint (Span p k) S) : load m' p k = load m p k :=
  load_congr (fun b hb => h b (Set.disjoint_left.mp hd hb))

theorem store_changedIn (m : Mem) (p k v : ℕ) : ChangedIn (Span p k) m (store m p k v) := by
  induction k generalizing m p v with
  | zero => exact ChangedIn.refl _ _
  | succ k ih =>
    intro b hb
    have hne : b ≠ p := fun he => hb ⟨by omega, by omega⟩
    have htail : b ∉ Span (p + 1) k := fun ht => hb ⟨by have := ht.1; omega, by have := ht.2; omega⟩
    simp only [store, ih _ _ _ b htail, Function.update_of_ne hne]

theorem load_store (m : Mem) (p k v : ℕ) : load (store m p k v) p k = v % 256 ^ k := by
  induction k generalizing m p v with
  | zero => simp [load, Nat.mod_one]
  | succ k ih =>
    have hhead : store m p (k + 1) v p = UInt8.ofNat v := by
      have hout : p ∉ Span (p + 1) k := by simp
      simp only [store, store_changedIn _ _ _ _ p hout, Function.update_self]
    have hmod : v % 256 ^ (k + 1) = v % 256 + 256 * (v / 256 % 256 ^ k) := by
      rw [pow_succ', Nat.mod_mul]
    simp only [load, hhead, hmod, UInt8.toNat_ofNat']
    simp only [store, ih]

theorem load_store_of_lt {m : Mem} {p k v : ℕ} (hv : v < 256 ^ k) : load (store m p k v) p k = v := by
  rw [load_store, Nat.mod_eq_of_lt hv]

theorem load_store_of_disjoint {m : Mem} {p k v q j : ℕ} (h : q + j ≤ p ∨ p + k ≤ q) :
    load (store m p k v) q j = load m q j := by
  apply load_of_changedIn (store_changedIn m p k v)
  rw [Set.disjoint_left]
  rintro b ⟨h₁, h₂⟩ ⟨h₃, h₄⟩
  omega

theorem load_eq_zero {m : Mem} {p k : ℕ} (h : ∀ b ∈ Span p k, m b = 0) : load m p k = 0 := by
  induction k generalizing p with
  | zero => rfl
  | succ k ih =>
    have hp : m p = 0 := h p ⟨le_refl _, by omega⟩
    have ht : load m (p + 1) k = 0 :=
      ih (fun b hb => h b ⟨by have := hb.1; omega, by have := hb.2; omega⟩)
    simp [load, hp, ht]

theorem load_eq_ones {m : Mem} {p k : ℕ} (h : ∀ b ∈ Span p k, m b = 0xFF) : load m p k + 1 = 256 ^ k := by
  induction k generalizing p with
  | zero => rfl
  | succ k ih =>
    have hp : m p = 0xFF := h p ⟨le_refl _, by omega⟩
    have ht : load m (p + 1) k + 1 = 256 ^ k :=
      ih (fun b hb => h b ⟨by have := hb.1; omega, by have := hb.2; omega⟩)
    have hbyte : (0xFF : UInt8).toNat = 255 := rfl
    rw [load, hp, hbyte, pow_succ]
    omega

section Moves

variable {m m' : Mem} {dest src n : ℕ}

theorem moves_zero (m : Mem) (dest src : ℕ) : Moves m m dest src 0 :=
  ⟨fun i hi => absurd hi (Nat.not_lt_zero i), ChangedIn.refl _ m⟩

theorem Moves.first (hclear : dest ≤ src ∨ src + n < dest)
    (h : Moves (Function.update m dest (m src)) m' (dest + 1) (src + 1) n) : Moves m m' dest src (n + 1) := by
  constructor
  · intro i hi
    cases i with
    | zero =>
      have hout : dest ∉ Span (dest + 1) n := fun hin => absurd hin.1 (Nat.not_succ_le_self dest)
      exact (h.frame dest hout).trans (Function.update_self ..)
    | succ i =>
      have hne : src + 1 + i ≠ dest := by omega
      have hi' := h.moved i (Nat.lt_of_succ_lt_succ hi)
      rw [Function.update_of_ne hne, Nat.add_assoc, Nat.add_assoc, Nat.add_comm 1] at hi'
      exact hi'
  · intro b hb
    rw [mem_span] at hb
    have hout : b ∉ Span (dest + 1) n := by
      rw [mem_span]
      omega
    have hne : b ≠ dest := by omega
    rw [h.frame b hout, Function.update_of_ne hne]

theorem Moves.last (hle : src ≤ dest)
    (h : Moves (Function.update m (dest + n) (m (src + n))) m' dest src n) : Moves m m' dest src (n + 1) := by
  constructor
  · intro i hi
    rcases Nat.lt_succ_iff_lt_or_eq.mp hi with hlt | rfl
    · have hne : src + i ≠ dest + n := by omega
      rw [h.moved i hlt, Function.update_of_ne hne]
    · have hout : dest + i ∉ Span dest i := fun hin => absurd hin.2 (Nat.lt_irrefl _)
      exact (h.frame _ hout).trans (Function.update_self ..)
  · intro b hb
    rw [mem_span] at hb
    have hout : b ∉ Span dest n := by
      rw [mem_span]
      omega
    have hne : b ≠ dest + n := by omega
    rw [h.frame b hout, Function.update_of_ne hne]

theorem Moves.eq_ite (h : Moves m m' dest src n) (b : ℕ) :
    m' b = if dest ≤ b ∧ b < dest + n then m (src + (b - dest)) else m b := by
  split_ifs with hb
  · have hi := h.moved (b - dest) (by omega)
    rwa [Nat.add_sub_cancel' hb.1] at hi
  · exact h.frame b hb

theorem Moves.load (h : Moves m m' dest src n) {i k : ℕ} (hi : i + k ≤ n) :
    Memory.load m' (dest + i) k = Memory.load m (src + i) k := by
  induction k generalizing i with
  | zero => rfl
  | succ k ih =>
    have hrest := ih (i := i + 1) (by omega)
    rw [← Nat.add_assoc, ← Nat.add_assoc] at hrest
    rw [Memory.load, Memory.load, h.moved i (by omega), hrest]

end Moves

end Lib.Memory
