import Mathlib.Algebra.Order.Ring.Nat
import Mathlib.Algebra.BigOperators.Group.List.Basic
import Mathlib.Data.List.Chain
import Mathlib.Tactic.Ring

/-!
Sequences of blocks laid out end to end, each a header of `h` bytes and a
payload, with first-fit allocation and full coalescing. `g` is the smallest
payload that is split off as a block of its own.
-/

namespace Lib.FreeList

structure Block where
  size : ℕ
  free : Bool
  deriving DecidableEq, Repr

variable (h g : ℕ)

def extent : List Block → ℕ
  | [] => 0
  | b :: l => h + b.size + extent l

def placed : ℕ → List Block → List (ℕ × Block)
  | _, [] => []
  | p, b :: l => (p, b) :: placed (p + (h + b.size)) l

/-- First fit, splitting when a header and `g` more bytes are left over. -/
def alloc (s : ℕ) : ℕ → List Block → Option (ℕ × List Block)
  | _, [] => none
  | p, b :: l =>
    if b.free = true ∧ s ≤ b.size then
      if s + h + g ≤ b.size then some (p, ⟨s, false⟩ :: ⟨b.size - s - h, true⟩ :: l)
      else some (p, ⟨b.size, false⟩ :: l)
    else (alloc s (p + (h + b.size)) l).map (fun r => (r.1, b :: r.2))

def release (q : ℕ) : ℕ → List Block → List Block
  | _, [] => []
  | p, b :: l => if p = q then ⟨b.size, true⟩ :: l else b :: release q (p + (h + b.size)) l

def coalesce : List Block → List Block
  | b :: c :: l =>
    if b.free && c.free then coalesce (⟨b.size + (h + c.size), true⟩ :: l)
    else b :: coalesce (c :: l)
  | l => l
termination_by l => l.length

def Separated (l : List Block) : Prop := l.IsChain (fun b c => ¬(b.free = true ∧ c.free = true))

variable {h g}

@[simp] theorem extent_nil : extent h [] = 0 := rfl

@[simp] theorem extent_cons (b : Block) (l : List Block) :
    extent h (b :: l) = h + b.size + extent h l := rfl

@[simp] theorem placed_nil (p : ℕ) : placed h p [] = [] := rfl

@[simp] theorem placed_cons (p : ℕ) (b : Block) (l : List Block) :
    placed h p (b :: l) = (p, b) :: placed h (p + (h + b.size)) l := rfl

theorem alloc_nil (s p : ℕ) : alloc h g s p [] = none := rfl

theorem alloc_cons (s p : ℕ) (b : Block) (l : List Block) :
    alloc h g s p (b :: l) =
      if b.free = true ∧ s ≤ b.size then
        if s + h + g ≤ b.size then some (p, ⟨s, false⟩ :: ⟨b.size - s - h, true⟩ :: l)
        else some (p, ⟨b.size, false⟩ :: l)
      else (alloc h g s (p + (h + b.size)) l).map (fun r => (r.1, b :: r.2)) := rfl

theorem release_nil (q p : ℕ) : release h q p [] = [] := rfl

theorem release_cons (q p : ℕ) (b : Block) (l : List Block) :
    release h q p (b :: l) =
      if p = q then ⟨b.size, true⟩ :: l else b :: release h q (p + (h + b.size)) l := rfl

theorem coalesce_eq (l : List Block) :
    coalesce h l = match l with
      | b :: c :: l =>
        if b.free && c.free then coalesce h (⟨b.size + (h + c.size), true⟩ :: l)
        else b :: coalesce h (c :: l)
      | l => l := by
  rw [coalesce.eq_def]

theorem coalesce_merge {b c : Block} (l : List Block) (hb : b.free = true) (hc : c.free = true) :
    coalesce h (b :: c :: l) = coalesce h (⟨b.size + (h + c.size), true⟩ :: l) := by
  rw [coalesce_eq]; simp [hb, hc]

theorem coalesce_skip {b c : Block} (l : List Block) (hbc : ¬(b.free = true ∧ c.free = true)) :
    coalesce h (b :: c :: l) = b :: coalesce h (c :: l) := by
  rw [coalesce_eq]
  exact if_neg (by simpa using hbc)

@[simp] theorem coalesce_nil : coalesce h [] = [] := coalesce_eq []

@[simp] theorem coalesce_single (b : Block) : coalesce h [b] = [b] := coalesce_eq [b]

/-! ### Positions -/

theorem placed_inside {p q : ℕ} {b : Block} {l : List Block} (hm : (q, b) ∈ placed h p l) :
    p ≤ q ∧ q + (h + b.size) ≤ p + extent h l := by
  induction l generalizing p with
  | nil => simp at hm
  | cons c l ih =>
    rw [placed_cons, List.mem_cons] at hm
    rw [extent_cons]
    rcases hm with heq | hm
    · obtain ⟨rfl, rfl⟩ := Prod.mk.inj heq
      omega
    · have := ih hm
      omega

theorem placed_mem {p q : ℕ} {b : Block} {l : List Block} (hm : (q, b) ∈ placed h p l) : b ∈ l := by
  induction l generalizing p with
  | nil => simp at hm
  | cons c l ih =>
    rcases List.mem_cons.mp hm with heq | hm
    · exact (Prod.mk.inj heq).2 ▸ List.mem_cons_self
    · exact List.mem_cons_of_mem _ (ih hm)

theorem mem_placed {b : Block} {l : List Block} (hm : b ∈ l) (p : ℕ) : ∃ q, (q, b) ∈ placed h p l := by
  induction l generalizing p with
  | nil => simp at hm
  | cons c l ih =>
    rcases List.mem_cons.mp hm with rfl | hm
    · exact ⟨p, by simp⟩
    · obtain ⟨q, hq⟩ := ih hm (p + (h + c.size))
      exact ⟨q, List.mem_cons_of_mem _ hq⟩

theorem placed_apart {p q r : ℕ} {b c : Block} {l : List Block} (hb : (q, b) ∈ placed h p l)
    (hc : (r, c) ∈ placed h p l) : (q = r ∧ b = c) ∨ q + (h + b.size) ≤ r ∨ r + (h + c.size) ≤ q := by
  induction l generalizing p with
  | nil => simp at hb
  | cons d l ih =>
    rw [placed_cons, List.mem_cons] at hb hc
    rcases hb with hb | hb <;> rcases hc with hc | hc
    · obtain ⟨rfl, rfl⟩ := Prod.mk.inj hb
      obtain ⟨rfl, rfl⟩ := Prod.mk.inj hc
      exact .inl ⟨rfl, rfl⟩
    · obtain ⟨rfl, rfl⟩ := Prod.mk.inj hb
      exact .inr (.inl (placed_inside hc).1)
    · obtain ⟨rfl, rfl⟩ := Prod.mk.inj hc
      exact .inr (.inr (placed_inside hb).1)
    · exact ih hb hc

theorem placed_length_le {l : List Block} : l.length * h ≤ extent h l := by
  induction l with
  | nil => simp
  | cons b l ih =>
    rw [List.length_cons, extent_cons, Nat.add_mul, Nat.one_mul]
    omega

/-! ### Allocation -/

theorem alloc_none {s p : ℕ} {l : List Block} :
    alloc h g s p l = none ↔ ∀ b ∈ l, b.free = true → b.size < s := by
  induction l generalizing p with
  | nil => simp [alloc_nil]
  | cons b l ih =>
    rw [alloc_cons, List.forall_mem_cons]
    by_cases hfit : b.free = true ∧ s ≤ b.size
    · have hn : ¬(b.free = true → b.size < s) := fun hlt => by have := hlt hfit.1; omega
      rw [if_pos hfit]
      split_ifs <;> simp [hn]
    · have hn : b.free = true → b.size < s := fun hb => by
        have := not_and.mp hfit hb
        omega
      rw [if_neg hfit, Option.map_eq_none_iff, ih]
      exact ⟨fun hl => ⟨hn, hl⟩, And.right⟩

theorem alloc_spec {s p q : ℕ} {l l' : List Block} (ha : alloc h g s p l = some (q, l')) :
    ∃ b n, (q, b) ∈ placed h p l ∧ b.free = true ∧ s ≤ n ∧ n ≤ b.size ∧
      (q, ⟨n, false⟩) ∈ placed h p l' ∧
      ∀ r k, (r, ⟨k, false⟩) ∈ placed h p l' ↔ (r, ⟨k, false⟩) ∈ placed h p l ∨ (r = q ∧ k = n) := by
  induction l generalizing p l' with
  | nil => simp [alloc_nil] at ha
  | cons b l ih =>
    rw [alloc_cons] at ha
    split_ifs at ha with hfit hsplit
    · obtain ⟨rfl, rfl⟩ := Prod.mk.inj (Option.some.inj ha)
      have hend : p + (h + s) + (h + (b.size - s - h)) = p + (h + b.size) := by omega
      refine ⟨b, s, by simp, hfit.1, le_refl _, hfit.2, by simp, fun r k => ?_⟩
      have hb : (⟨k, false⟩ : Block) ≠ b := fun he => by simp [← he] at hfit
      simp only [placed_cons, hend, List.mem_cons, Prod.mk.injEq, Block.mk.injEq, hb]
      simp only [Bool.false_eq_true, and_false, false_or, and_true]
      exact or_comm
    · obtain ⟨rfl, rfl⟩ := Prod.mk.inj (Option.some.inj ha)
      refine ⟨b, b.size, by simp, hfit.1, hfit.2, le_refl _, by simp, fun r k => ?_⟩
      have hb : (⟨k, false⟩ : Block) ≠ b := fun he => by simp [← he] at hfit
      simp only [placed_cons, List.mem_cons, Prod.mk.injEq, Block.mk.injEq, hb]
      simp only [and_false, false_or, and_true]
      exact or_comm
    · obtain ⟨⟨q', l₁⟩, hl, he⟩ := Option.map_eq_some_iff.mp ha
      obtain ⟨rfl, rfl⟩ := Prod.mk.inj he
      obtain ⟨c, n, hc, hfree, hsn, hnc, hmem, hall⟩ := ih hl
      refine ⟨c, n, List.mem_cons_of_mem _ hc, hfree, hsn, hnc, List.mem_cons_of_mem _ hmem, fun r k => ?_⟩
      rw [placed_cons, placed_cons, List.mem_cons, List.mem_cons, hall, or_assoc]

theorem alloc_extent {s p q : ℕ} {l l' : List Block} (ha : alloc h g s p l = some (q, l')) :
    extent h l' = extent h l := by
  induction l generalizing p l' with
  | nil => simp [alloc_nil] at ha
  | cons b l ih =>
    rw [alloc_cons] at ha
    split_ifs at ha with hfit hsplit
    · obtain ⟨-, rfl⟩ := Prod.mk.inj (Option.some.inj ha)
      simp only [extent_cons]
      omega
    · obtain ⟨-, rfl⟩ := Prod.mk.inj (Option.some.inj ha)
      simp only [extent_cons]
    · obtain ⟨⟨q', l₁⟩, hl, he⟩ := Option.map_eq_some_iff.mp ha
      obtain ⟨rfl, rfl⟩ := Prod.mk.inj he
      rw [extent_cons, extent_cons, ih hl]

theorem alloc_head {s p q : ℕ} {b : Block} {l l' : List Block}
    (ha : alloc h g s p (b :: l) = some (q, l')) :
    ∃ c r, l' = c :: r ∧ (c.free = true → b.free = true) := by
  rw [alloc_cons] at ha
  split_ifs at ha with hfit hsplit
  · obtain ⟨-, rfl⟩ := Prod.mk.inj (Option.some.inj ha)
    exact ⟨_, _, rfl, fun _ => hfit.1⟩
  · obtain ⟨-, rfl⟩ := Prod.mk.inj (Option.some.inj ha)
    exact ⟨_, _, rfl, fun _ => hfit.1⟩
  · obtain ⟨⟨q', l₁⟩, hl, he⟩ := Option.map_eq_some_iff.mp ha
    obtain ⟨-, rfl⟩ := Prod.mk.inj he
    exact ⟨_, _, rfl, id⟩

theorem alloc_separated {s p q : ℕ} {l l' : List Block} (hl : Separated l)
    (ha : alloc h g s p l = some (q, l')) : Separated l' := by
  induction l generalizing p l' with
  | nil => simp [alloc_nil] at ha
  | cons b l ih =>
    have hcopy := ha
    rw [alloc_cons] at ha
    split_ifs at ha with hfit hsplit
    · obtain ⟨-, rfl⟩ := Prod.mk.inj (Option.some.inj ha)
      cases l with
      | nil => simp [Separated]
      | cons c l =>
        have hbc := (List.isChain_cons_cons.mp hl).1
        have hc : c.free = false := by simpa [hfit.1] using hbc
        have htail := (List.isChain_cons_cons.mp hl).2
        refine List.isChain_cons_cons.mpr ⟨by simp, List.isChain_cons_cons.mpr ⟨by simp [hc], htail⟩⟩
    · obtain ⟨-, rfl⟩ := Prod.mk.inj (Option.some.inj ha)
      cases l with
      | nil => simp [Separated]
      | cons c l =>
        exact List.isChain_cons_cons.mpr ⟨by simp, (List.isChain_cons_cons.mp hl).2⟩
    · obtain ⟨⟨q', l₁⟩, hl₁, he⟩ := Option.map_eq_some_iff.mp ha
      obtain ⟨rfl, rfl⟩ := Prod.mk.inj he
      cases l with
      | nil => simp [alloc_nil] at hl₁
      | cons c l =>
        obtain ⟨d, r, rfl, hd⟩ := alloc_head hl₁
        have hbc := List.isChain_cons_cons.mp hl
        exact List.isChain_cons_cons.mpr ⟨fun hbd => hbc.1 ⟨hbd.1, hd hbd.2⟩, ih hbc.2 hl₁⟩

/-! ### Release -/

theorem release_extent {q p : ℕ} {l : List Block} : extent h (release h q p l) = extent h l := by
  induction l generalizing p with
  | nil => rfl
  | cons b l ih =>
    rw [release_cons]
    split_ifs
    · rfl
    · rw [extent_cons, extent_cons, ih]

theorem release_positions {q p r : ℕ} {b : Block} {l : List Block}
    (hm : (r, b) ∈ placed h p (release h q p l)) : ∃ c, (r, c) ∈ placed h p l := by
  induction l generalizing p with
  | nil => simp [release_nil] at hm
  | cons c l ih =>
    rw [release_cons] at hm
    split_ifs at hm with hpq
    · rcases List.mem_cons.mp hm with heq | hm
      · exact ⟨c, by simp [(Prod.mk.inj heq).1]⟩
      · exact ⟨b, List.mem_cons_of_mem _ hm⟩
    · rcases List.mem_cons.mp hm with heq | hm
      · exact ⟨c, by simp [(Prod.mk.inj heq).1]⟩
      · obtain ⟨d, hd⟩ := ih hm
        exact ⟨d, List.mem_cons_of_mem _ hd⟩

theorem release_used (hh : 0 < h) {q p r k : ℕ} {l : List Block} :
    (r, ⟨k, false⟩) ∈ placed h p (release h q p l) ↔ (r, ⟨k, false⟩) ∈ placed h p l ∧ r ≠ q := by
  induction l generalizing p with
  | nil => simp [release_nil]
  | cons b l ih =>
    rw [release_cons]
    split_ifs with hpq
    · subst hpq
      have hlater : (r, (⟨k, false⟩ : Block)) ∈ placed h (p + (h + b.size)) l → r ≠ p := fun hm => by
        have := (placed_inside hm).1
        omega
      simp only [placed_cons, List.mem_cons, Prod.mk.injEq, Block.mk.injEq, Bool.false_eq_true, and_false, false_or]
      constructor
      · exact fun hm => ⟨.inr hm, hlater hm⟩
      · rintro ⟨hm | hm, hne⟩
        · exact absurd hm.1 hne
        · exact hm
    · rw [placed_cons, placed_cons, List.mem_cons, List.mem_cons, ih]
      constructor
      · rintro (heq | ⟨hm, hne⟩)
        · exact ⟨.inl heq, fun hrq => hpq ((Prod.mk.inj heq).1.symm.trans hrq)⟩
        · exact ⟨.inr hm, hne⟩
      · rintro ⟨heq | hm, hne⟩
        · exact .inl heq
        · exact .inr ⟨hm, hne⟩

/-! ### Coalescing -/

theorem coalesce_head (b : Block) (l : List Block) :
    ∃ c r, coalesce h (b :: l) = c :: r ∧ c.free = b.free := by
  induction l generalizing b with
  | nil => exact ⟨b, [], coalesce_single b, rfl⟩
  | cons c l ih =>
    by_cases hbc : b.free = true ∧ c.free = true
    · rw [coalesce_merge l hbc.1 hbc.2]
      obtain ⟨d, r, he, hd⟩ := ih ⟨b.size + (h + c.size), true⟩
      exact ⟨d, r, he, hd.trans hbc.1.symm⟩
    · rw [coalesce_skip l hbc]
      exact ⟨b, _, rfl, rfl⟩

theorem coalesce_separated (l : List Block) : Separated (coalesce h l) := by
  cases l with
  | nil => simp [Separated]
  | cons b l =>
    induction l generalizing b with
    | nil => simp [Separated]
    | cons c l ih =>
      by_cases hbc : b.free = true ∧ c.free = true
      · rw [coalesce_merge l hbc.1 hbc.2]
        exact ih _
      · rw [coalesce_skip l hbc]
        obtain ⟨d, r, he, hd⟩ := coalesce_head c l (h := h)
        have hr := ih c
        rw [he] at hr ⊢
        exact List.isChain_cons_cons.mpr ⟨by rwa [hd], hr⟩

theorem coalesce_extent (l : List Block) : extent h (coalesce h l) = extent h l := by
  cases l with
  | nil => simp
  | cons b l =>
    induction l generalizing b with
    | nil => simp
    | cons c l ih =>
      by_cases hbc : b.free = true ∧ c.free = true
      · rw [coalesce_merge l hbc.1 hbc.2, ih]
        simp only [extent_cons]
        omega
      · rw [coalesce_skip l hbc, extent_cons, ih, extent_cons b]

theorem coalesce_used {p r k : ℕ} (l : List Block) :
    (r, ⟨k, false⟩) ∈ placed h p (coalesce h l) ↔ (r, ⟨k, false⟩) ∈ placed h p l := by
  cases l with
  | nil => simp
  | cons b l =>
    induction l generalizing b p with
    | nil => simp
    | cons c l ih =>
      by_cases hbc : b.free = true ∧ c.free = true
      · have hend : p + (h + (b.size + (h + c.size))) = p + (h + b.size) + (h + c.size) := by omega
        have hb : (⟨k, false⟩ : Block) ≠ b := fun he => by simp [← he] at hbc
        have hc : (⟨k, false⟩ : Block) ≠ c := fun he => by simp [← he] at hbc
        rw [coalesce_merge l hbc.1 hbc.2, ih]
        simp only [placed_cons, hend, List.mem_cons, Prod.mk.injEq, Block.mk.injEq, hb, hc]
        simp only [Bool.false_eq_true, and_false, false_or]
      · rw [coalesce_skip l hbc, placed_cons, List.mem_cons, ih, placed_cons p b, List.mem_cons]

theorem coalesce_of_separated {l : List Block} (hl : Separated l) : coalesce h l = l := by
  induction l with
  | nil => exact coalesce_nil
  | cons b l ih =>
    cases l with
    | nil => exact coalesce_single b
    | cons c l =>
      obtain ⟨hbc, hl⟩ := List.isChain_cons_cons.mp hl
      rw [coalesce_skip l hbc, ih hl]

-- Induction on the sequence: the block that first fit took is split again as it was before.
theorem coalesce_release_alloc (hh : 0 < h) {s p q : ℕ} {l l' : List Block} (hl : Separated l)
    (ha : alloc h g s p l = some (q, l')) : coalesce h (release h q p l') = l := by
  induction l generalizing p l' with
  | nil => simp [alloc_nil] at ha
  | cons b l ih =>
    have hcopy := hl
    rw [alloc_cons] at ha
    split_ifs at ha with hfit hsplit
    · obtain ⟨rfl, rfl⟩ := Prod.mk.inj (Option.some.inj ha)
      have hsum : s + (h + (b.size - s - h)) = b.size := by omega
      have hb : (⟨b.size, true⟩ : Block) = b := by rw [← hfit.1]
      rw [release_cons, if_pos rfl, coalesce_merge l rfl rfl, hsum, hb]
      exact coalesce_of_separated hcopy
    · obtain ⟨rfl, rfl⟩ := Prod.mk.inj (Option.some.inj ha)
      have hb : (⟨b.size, true⟩ : Block) = b := by rw [← hfit.1]
      rw [release_cons, if_pos rfl, hb]
      exact coalesce_of_separated hcopy
    · obtain ⟨⟨q', l₁⟩, hl₁, he⟩ := Option.map_eq_some_iff.mp ha
      obtain ⟨rfl, rfl⟩ := Prod.mk.inj he
      obtain ⟨c, n, hc, -⟩ := alloc_spec hl₁
      have hlater := (placed_inside hc).1
      have hback := ih (List.IsChain.of_cons hl) hl₁
      rw [release_cons, if_neg (by omega)]
      cases hr : release h q' (p + (h + b.size)) l₁ with
      | nil =>
        rw [hr, coalesce_nil] at hback
        rw [coalesce_single, hback]
      | cons c r =>
        rw [hr] at hback
        obtain ⟨d, t, hd, hfree⟩ := coalesce_head c r (h := h)
        have hbc : ¬(b.free = true ∧ c.free = true) := by
          rw [← hback, hd] at hl
          rw [← hfree]
          exact (List.isChain_cons_cons.mp hl).1
        rw [coalesce_skip r hbc, hback]

/-! ### Free intervals -/

def Clear (lo hi : ℕ) (U : Set (ℕ × ℕ)) (x y : ℕ) : Prop :=
  lo ≤ x ∧ x < y ∧ y ≤ hi ∧ ∀ u ∈ U, u.1 + u.2 ≤ x ∨ y ≤ u.1

def MaximalClear (lo hi : ℕ) (U : Set (ℕ × ℕ)) (x y : ℕ) : Prop :=
  Clear lo hi U x y ∧ ∀ x' y', Clear lo hi U x' y' → x' ≤ x → y ≤ y' → x' = x ∧ y' = y

def usedSpans (h p : ℕ) (l : List Block) : Set (ℕ × ℕ) :=
  {u | ∃ n, (u.1, ⟨n, false⟩) ∈ placed h p l ∧ u.2 = h + n}

theorem usedSpans_tail {p : ℕ} {b : Block} {l : List Block} :
    usedSpans h (p + (h + b.size)) l ⊆ usedSpans h p (b :: l) := by
  rintro u ⟨n, hm, hu⟩
  exact ⟨n, List.mem_cons_of_mem _ hm, hu⟩

-- Induction on the sequence: no clear interval crosses from a free block into its neighbour.
theorem clear_within (hh : 0 < h) {p x y : ℕ} {l : List Block} (hl : Separated l)
    (hc : Clear p (p + extent h l) (usedSpans h p l) x y) :
    ∃ q b, (q, b) ∈ placed h p l ∧ b.free = true ∧ q ≤ x ∧ y ≤ q + (h + b.size) := by
  induction l generalizing p with
  | nil =>
    obtain ⟨hlo, hxy, hhi, -⟩ := hc
    rw [extent_nil] at hhi
    omega
  | cons b l ih =>
    obtain ⟨hlo, hxy, hhi, hu⟩ := hc
    have hlt : Separated l := List.IsChain.of_cons hl
    have htail (hx : p + (h + b.size) ≤ x) : ∃ q c, (q, c) ∈ placed h p (b :: l) ∧
        c.free = true ∧ q ≤ x ∧ y ≤ q + (h + c.size) := by
      have hhi' : y ≤ p + (h + b.size) + extent h l := by rw [extent_cons] at hhi; omega
      obtain ⟨q, c, hm, hrest⟩ := ih hlt ⟨hx, hxy, hhi', fun u hm => hu u (usedSpans_tail hm)⟩
      exact ⟨q, c, List.mem_cons_of_mem _ hm, hrest⟩
    by_cases hx : p + (h + b.size) ≤ x
    · exact htail hx
    cases hb : b.free with
    | false =>
      have hspan : (p, h + b.size) ∈ usedSpans h p (b :: l) := ⟨b.size, by simp [← hb], rfl⟩
      have := hu _ hspan
      dsimp only at this
      omega
    | true =>
      refine ⟨p, b, by simp, hb, hlo, ?_⟩
      by_contra hy
      cases l with
      | nil => simp only [extent_cons, extent_nil] at hhi; omega
      | cons c l =>
        have hbc := (List.isChain_cons_cons.mp hl).1
        have hcf : c.free = false := by simpa [hb] using hbc
        have hspan : (p + (h + b.size), h + c.size) ∈ usedSpans h p (b :: c :: l) :=
          ⟨c.size, by simp [← hcf], rfl⟩
        have := hu _ hspan
        dsimp only at this
        omega

theorem free_maximal (hh : 0 < h) {p q : ℕ} {b : Block} {l : List Block} (hl : Separated l)
    (hm : (q, b) ∈ placed h p l) (hb : b.free = true) :
    MaximalClear p (p + extent h l) (usedSpans h p l) q (q + (h + b.size)) := by
  have hin := placed_inside hm
  refine ⟨⟨hin.1, by omega, hin.2, ?_⟩, ?_⟩
  · rintro ⟨r, k⟩ ⟨n, hr, hk⟩
    dsimp only at hr hk ⊢
    rcases placed_apart hm hr with ⟨-, he⟩ | hlt | hlt
    · simp [he] at hb
    · exact .inr hlt
    · left
      dsimp only at hlt
      omega
  · intro x y hc hx hy
    obtain ⟨r, c, hr, hcf, hrx, hyr⟩ := clear_within hh hl hc
    rcases placed_apart hm hr with ⟨rfl, rfl⟩ | hlt | hlt <;> omega

theorem alloc_none_iff_clear (hh : 0 < h) {s p : ℕ} {l : List Block} (hl : Separated l) :
    alloc h g s p l = none ↔
      ∀ x y, MaximalClear p (p + extent h l) (usedSpans h p l) x y → y - x < h + s := by
  rw [alloc_none]
  constructor
  · intro hsmall x y hxy
    obtain ⟨q, b, hm, hb, hx, hy⟩ := clear_within hh hl hxy.1
    have := hsmall b (placed_mem hm) hb
    omega
  · intro hshort b hm hb
    obtain ⟨q, hq⟩ := mem_placed hm (h := h) p
    have := hshort _ _ (free_maximal hh hl hq hb)
    omega

theorem separated_all_free {l : List Block} (hl : Separated l) (hne : l ≠ [])
    (hfree : ∀ b ∈ l, b.free = true) : ∃ n, l = [⟨n, true⟩] ∧ extent h l = h + n := by
  match l, hne with
  | [b], _ =>
    have hb := hfree b (by simp)
    exact ⟨b.size, by rw [← hb], by simp⟩
  | b :: c :: r, _ =>
    have hbc := (List.isChain_cons_cons.mp hl).1
    exact absurd ⟨hfree b (by simp), hfree c (by simp)⟩ hbc

end Lib.FreeList
