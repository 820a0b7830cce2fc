import JurkOS.Lib.Memory

/-!
Computations that record the addresses they read.
-/

namespace Lib

open Memory

structure Traced (α : Type) where
  reads : List ℕ
  value : α

namespace Traced

variable {α β : Type}

instance : Monad Traced where
  pure x := ⟨[], x⟩
  bind x f := ⟨x.reads ++ (f x.value).reads, (f x.value).value⟩

@[reducible] def peek (m : Mem) (p : ℕ) : Traced UInt8 := ⟨[p], m p⟩

@[reducible] def word (m : Mem) (p k : ℕ) : Traced ℕ := ⟨List.range' p k, load m p k⟩

@[reducible] def block (m : Mem) (p k : ℕ) : Traced (List UInt8) :=
  ⟨List.range' p k, (List.range k).map fun i => m (p + i)⟩

def Within (S : Set ℕ) (x : Traced α) : Prop := ∀ p ∈ x.reads, p ∈ S

@[simp] theorem value_pure (x : α) : (pure x : Traced α).value = x := rfl

@[simp] theorem value_bind (x : Traced α) (f : α → Traced β) : (x >>= f).value = (f x.value).value := rfl

@[simp] theorem reads_pure (x : α) : (pure x : Traced α).reads = [] := rfl

@[simp] theorem reads_bind (x : Traced α) (f : α → Traced β) :
    (x >>= f).reads = x.reads ++ (f x.value).reads := rfl

@[simp] theorem value_ite {c : Prop} [Decidable c] (x y : Traced α) :
    (if c then x else y).value = if c then x.value else y.value := apply_ite _ _ _ _

variable {S : Set ℕ}

theorem within_pure (x : α) : Within S (pure x : Traced α) := fun _ hp => absurd hp List.not_mem_nil

theorem within_bind {x : Traced α} {f : α → Traced β} :
    Within S (x >>= f) ↔ Within S x ∧ Within S (f x.value) := by
  unfold Within
  rw [reads_bind]
  simp only [List.mem_append]
  constructor
  · exact fun h => ⟨fun p hp => h p (Or.inl hp), fun p hp => h p (Or.inr hp)⟩
  · rintro ⟨hx, hf⟩ p (hp | hp)
    · exact hx p hp
    · exact hf p hp

theorem within_peek {m : Mem} {p : ℕ} : Within S (peek m p) ↔ p ∈ S := by
  simp [Within]

theorem within_word {m : Mem} {p k : ℕ} : Within S (word m p k) ↔ ∀ i < k, p + i ∈ S := by
  simp only [Within, List.mem_range'_1]
  constructor
  · exact fun h i hi => h (p + i) (by omega)
  · intro h q hq
    have hq' := h (q - p) (by omega)
    rwa [Nat.add_sub_cancel' hq.1] at hq'

theorem within_block {m : Mem} {p k : ℕ} : Within S (block m p k) ↔ ∀ i < k, p + i ∈ S :=
  within_word (m := m)

theorem Within.ite {c : Prop} [Decidable c] {x y : Traced α} (hx : c → Within S x) (hy : ¬ c → Within S y) :
    Within S (if c then x else y) := by
  split
  · exact hx ‹_›
  · exact hy ‹_›

/-- At most `n` turns; `inl` is where the next turn starts, `inr` the result. -/
def loop (turn : α → Traced (α ⊕ β)) : ℕ → α → Traced (α ⊕ β)
  | 0, x => pure (.inl x)
  | n + 1, x => do
    match ← turn x with
    | .inl y => loop turn n y
    | .inr r => pure (.inr r)

/-- `P` holds wherever a turn starts. -/
def Along (next : α → α ⊕ β) (P : α → Prop) : ℕ → α → Prop
  | 0, _ => True
  | n + 1, x => P x ∧ ∀ y, next x = .inl y → Along next P n y

variable {turn : α → Traced (α ⊕ β)} {n : ℕ}

theorem value_loop_inl {x y : α} (h : (turn x).value = .inl y) :
    (loop turn (n + 1) x).value = (loop turn n y).value := by
  rw [loop, value_bind, h]

theorem value_loop_inr {x : α} {r : β} (h : (turn x).value = .inr r) : (loop turn (n + 1) x).value = .inr r := by
  rw [loop, value_bind, h]
  rfl

theorem within_loop {P : α → Prop} (h : ∀ x, Within S (turn x) ↔ P x) (n : ℕ) (x : α) :
    Within S (loop turn n x) ↔ Along (fun x => (turn x).value) P n x := by
  induction n generalizing x with
  | zero => exact ⟨fun _ => trivial, fun _ => within_pure _⟩
  | succ n ih =>
    rw [loop, within_bind, h]
    apply and_congr_right
    intro _
    cases hx : (turn x).value with
    | inl y =>
      rw [ih]
      constructor
      · intro hy z hz
        cases Sum.inl.inj (hx.symm.trans hz)
        exact hy
      · exact fun hall => hall y hx
    | inr r =>
      constructor
      · intro _ z hz
        cases hx.symm.trans hz
      · exact fun _ => within_pure _

/-- The loop reads nothing outside of `S`, however long it turns, and ends with a result that has `P`. -/
structure Settles (S : Set ℕ) (turn : α → Traced (α ⊕ β)) (P : β → Prop) (x : α) : Prop where
  inside : ∀ n, Within S (loop turn n x)
  ends : ∃ n r, (loop turn n x).value = .inr r ∧ P r

variable {P : β → Prop}

theorem not_settles {x : α} (h : ¬Within S (turn x)) : ¬Settles S turn P x :=
  fun hs => h (within_bind.mp (hs.inside 1)).1

theorem settles_inr {x : α} {r : β} (hr : (turn x).value = .inr r) :
    Settles S turn P x ↔ Within S (turn x) ∧ P r := by
  constructor
  · intro h
    obtain ⟨n, r', hend, hP⟩ := h.ends
    cases n with
    | zero => cases hend
    | succ n =>
      rw [value_loop_inr hr] at hend
      exact ⟨not_not.mp (mt not_settles (not_not.mpr h)), Sum.inr.inj hend ▸ hP⟩
  · rintro ⟨hin, hP⟩
    refine ⟨fun n => ?_, 1, r, value_loop_inr hr, hP⟩
    cases n with
    | zero => exact within_pure _
    | succ n =>
      rw [loop, within_bind, hr]
      exact ⟨hin, within_pure _⟩

theorem settles_inl {x y : α} (hy : (turn x).value = .inl y) (hin : Within S (turn x)) :
    Settles S turn P x ↔ Settles S turn P y := by
  have hturn (n : ℕ) : Within S (loop turn (n + 1) x) ↔ Within S (loop turn n y) := by
    rw [loop, within_bind, hy]
    exact and_iff_right hin
  constructor
  · rintro ⟨hinside, n, r, hend, hP⟩
    refine ⟨fun n => (hturn n).mp (hinside (n + 1)), ?_⟩
    cases n with
    | zero => cases hend
    | succ n => exact ⟨n, r, (value_loop_inl hy).symm.trans hend, hP⟩
  · rintro ⟨hinside, n, r, hend, hP⟩
    refine ⟨fun n => ?_, n + 1, r, (value_loop_inl hy).trans hend, hP⟩
    cases n with
    | zero => exact within_pure _
    | succ n => exact (hturn n).mpr (hinside n)

end Traced

end Lib
