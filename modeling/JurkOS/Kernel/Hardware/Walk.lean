import JurkOS.Kernel.Loader.FreshPage

/-!
The walk of an x86-64 processor through four levels of tables, with large pages,
and the tables that `vmm_init` takes over from CR3.
-/

namespace JurkOS.Kernel.Hardware

open Lib Lib.Memory Lib.Radix Paging Pmm Loader

abbrev Path := List (Index .x86_64)

/-- `PS`: the entry maps a page of 1 GiB or 2 MiB. -/
def PAGE_LARGE : ℕ := 0x80

/-- The address in an entry ends below bit 52; bit 63 is `NX`. -/
def addressMask (shift : ℕ) : ℕ := 2 ^ 52 - 2 ^ shift

def hwChild (e : ℕ) : Option ℕ :=
  if e &&& PAGE_PRESENT = 0 ∨ e &&& PAGE_LARGE ≠ 0 then none else some (e &&& addressMask 12)

def hwWalk (m : Mem) (v : ℕ) : Path → ℕ → Option ℕ
  | [], _ => none
  | i :: p, t =>
    let e := entries .x86_64 m t i
    let shift := 12 + 9 * p.length
    if e &&& PAGE_PRESENT = 0 then none
    else if p = [] ∨ e &&& PAGE_LARGE ≠ 0 then
      -- in the top-level table the bit is reserved
      if p.length = 3 then none else some ((e &&& addressMask shift) + v % 2 ^ shift)
    else hwWalk m v p (e &&& addressMask 12)

def hwRoot (cr3 : ℕ) : ℕ := cr3 &&& addressMask 12

def translate (m : Mem) (cr3 v : ℕ) : Option ℕ :=
  if canonical .x86_64 v then hwWalk m v (path .x86_64 v ++ [leaf .x86_64 v]) (hwRoot cr3) else none

variable (m : Mem) (cr3 : ℕ)

def Table (u : ℕ) : Prop := ∃ q : Path, q.length ≤ 3 ∧ walk hwChild (entries .x86_64 m) (hwRoot cr3) q = some u

/-- A tree of tables as a bootloader may leave it; no table is at the null pointer. -/
structure FourLevel : Prop where
  cr3_lt : cr3 < 2 ^ 52
  separated : Separated hwChild (entries .x86_64 m) (hwRoot cr3) 3
  nonnull : ∀ u, Table m cr3 u → u ≠ 0
  top : ∀ i, entries .x86_64 m (hwRoot cr3) i &&& PAGE_PRESENT ≠ 0 →
    entries .x86_64 m (hwRoot cr3) i &&& PAGE_LARGE = 0

def SameTables (m' : Mem) : Prop := ∀ u, Table m cr3 u → ∀ x ∈ Span u PAGE_SIZE, m' x = m x

def Plain : Prop :=
  ∀ (q : Path) t i, q.length ≤ 3 → walk hwChild (entries .x86_64 m) (hwRoot cr3) q = some t →
    entries .x86_64 m t i &&& PAGE_PRESENT ≠ 0 →
      entries .x86_64 m t i < 2 ^ 52 ∧ (q.length < 3 → entries .x86_64 m t i &&& PAGE_LARGE = 0)

variable (n : ℕ)

/-- After `vmm_init`, and after `n` calls of `pmm_alloc_page`. -/
def adopted : Paging.State := vmmInit .x86_64 cr3 ⟨m, 0, n⟩

variable (frame : ℕ → ℕ)

/-- Only canonical addresses have a translation, and only such are asked for. -/
structure Agrees : Prop where
  phys : ∀ v < 2 ^ 64, canonical .x86_64 v →
    vmmGetPhys .x86_64 (adopted m cr3 n) v = (translate m cr3 v).getD 0
  map : ∀ phys < 2 ^ 64, ∀ virt < 2 ^ 64, canonical .x86_64 virt → ∀ flags < 2 ^ 64, ∀ w < 2 ^ 64,
    w / PAGE_SIZE ≠ virt / PAGE_SIZE →
      translate (vmmMapPage .x86_64 frame cr3 (adopted m cr3 n) phys virt flags).mem cr3 w = translate m cr3 w

/-- What the next three calls of `pmm_alloc_page` return are pages of their own, none of them a table. -/
structure Spare : Prop where
  nonnull : ∀ i < 3, frame (n + i) ≠ 0
  aligned : ∀ i < 3, frame (n + i) % PAGE_SIZE = 0
  lt : ∀ i < 3, frame (n + i) < 2 ^ 52
  distinct : ∀ i < 3, ∀ j < 3, frame (n + i) = frame (n + j) → i = j
  apart : ∀ i < 3, ¬ Table m cr3 (frame (n + i))

variable {m cr3 n frame} {m' : Mem}

theorem and_addressMask {x : ℕ} (hx : x < 2 ^ 52) : x &&& addressMask 12 = x &&& frameMask .x86_64 := by
  have hhigh : x &&& addressMask 12 = x / 2 ^ 12 * 2 ^ 12 := Bits.and_highMask (by decide) hx
  have hword : x < 2 ^ Arch.x86_64.wordBits := hx.trans_le (Nat.pow_le_pow_right (by decide) (by decide))
  rw [hhigh, and_frameMask hword]

theorem addressMask_aligned (x : ℕ) : (x &&& addressMask 12) % PAGE_SIZE = 0 := by
  have hmask : addressMask 12 % 2 ^ 12 = 0 := by decide
  have hpage : PAGE_SIZE = 2 ^ 12 := rfl
  rw [hpage, Nat.and_mod_two_pow, hmask, Nat.and_zero]

theorem addressMask_lt (x : ℕ) : (x &&& addressMask 12) + PAGE_SIZE ≤ 2 ^ 52 := by
  have hle : x &&& addressMask 12 ≤ addressMask 12 := Nat.and_le_right
  have hmask : addressMask 12 + PAGE_SIZE = 2 ^ 52 := by decide
  omega

theorem entries_lt (m : Mem) (t : ℕ) (i : Index .x86_64) :
    entries .x86_64 m t i < 2 ^ Arch.x86_64.wordBits := load_lt _ _ 8

theorem hwRoot_aligned : hwRoot cr3 % PAGE_SIZE = 0 := addressMask_aligned cr3

theorem hwChild_eq_some {e u : ℕ} (h : hwChild e = some u) :
    e &&& PAGE_PRESENT ≠ 0 ∧ e &&& PAGE_LARGE = 0 ∧ u = e &&& addressMask 12 := by
  unfold hwChild at h
  split_ifs at h with hno
  rw [not_or, not_not] at hno
  exact ⟨hno.1, hno.2, (Option.some.inj h).symm⟩

theorem hwChild_of_table {e : ℕ} (hpresent : e &&& PAGE_PRESENT ≠ 0) (htable : e &&& PAGE_LARGE = 0) :
    hwChild e = some (e &&& addressMask 12) := if_neg (not_or.mpr ⟨hpresent, not_not.mpr htable⟩)

theorem exists_address (p : Path) (hp : p.length = 4) {o : ℕ} (ho : o < PAGE_SIZE) :
    ∃ v < 2 ^ 64, canonical .x86_64 v ∧ path .x86_64 v ++ [leaf .x86_64 v] = p ∧ v % PAGE_SIZE = o := by
  match p, hp with
  | [i, j, k, l], _ =>
    have hi : (i : ℕ) < 512 := i.isLt
    have hj : (j : ℕ) < 512 := j.isLt
    have hk : (k : ℕ) < 512 := k.isLt
    have hl : (l : ℕ) < 512 := l.isLt
    rw [PAGE_SIZE] at ho
    -- the upper half is sign-extended
    obtain ⟨high, hhigh⟩ : ∃ high : ℕ, high = if (i : ℕ) < 256 then 0 else 2 ^ 16 - 1 := ⟨_, rfl⟩
    have hhigh' : (i : ℕ) < 256 ∧ high = 0 ∨ 256 ≤ (i : ℕ) ∧ high = 2 ^ 16 - 1 := by
      split_ifs at hhigh <;> omega
    refine ⟨((((high * 512 + i) * 512 + j) * 512 + k) * 512 + l) * 4096 + o, by omega, ?_, ?_, ?_⟩
    · change _ ∨ _
      omega
    · simp only [path, leaf, List.cons_append, List.nil_append, List.cons.injEq, and_true, Fin.ext_iff, tableIndex_val]
      simp only [fanout, Arch.wordBytes, PAGE_SIZE]
      omega
    · rw [PAGE_SIZE]
      omega

theorem path_leaf_length (v : ℕ) : (path .x86_64 v ++ [leaf .x86_64 v]).length = 4 := by
  rw [List.length_append, length_path]
  rfl

theorem hwWalk_cons (v t : ℕ) (i : Index .x86_64) (p : Path) :
    hwWalk m v (i :: p) t =
      if entries .x86_64 m t i &&& PAGE_PRESENT = 0 then none
      else if p = [] ∨ entries .x86_64 m t i &&& PAGE_LARGE ≠ 0 then
        if p.length = 3 then none
        else some ((entries .x86_64 m t i &&& addressMask (12 + 9 * p.length)) + v % 2 ^ (12 + 9 * p.length))
      else hwWalk m v p (entries .x86_64 m t i &&& addressMask 12) := rfl

theorem hwWalk_append {v u t : ℕ} {q p : Path} (hp : p ≠ []) (hq : walk hwChild (entries .x86_64 m) t q = some u) :
    hwWalk m v (q ++ p) t = hwWalk m v p u := by
  induction q generalizing t with
  | nil =>
    rw [← Option.some.inj hq]
    rfl
  | cons i q ih =>
    rw [walk] at hq
    obtain ⟨u', hchild, hrest⟩ := Option.bind_eq_some_iff.mp hq
    obtain ⟨hpresent, htable, rfl⟩ := hwChild_eq_some hchild
    have hmore : ¬ (q ++ p = [] ∨ entries .x86_64 m t i &&& PAGE_LARGE ≠ 0) := by
      rw [not_or, not_not]
      exact ⟨List.append_ne_nil_of_right_ne_nil q hp, htable⟩
    rw [List.cons_append, hwWalk_cons]
    simp only [if_neg hpresent, if_neg hmore]
    exact ih hrest

theorem hwWalk_page {v t : ℕ} {i : Index .x86_64} {p : Path} (hpresent : entries .x86_64 m t i &&& PAGE_PRESENT ≠ 0)
    (hpage : p = [] ∨ entries .x86_64 m t i &&& PAGE_LARGE ≠ 0) (hp : p.length < 3) :
    hwWalk m v (i :: p) t =
      some ((entries .x86_64 m t i &&& addressMask (12 + 9 * p.length)) + v % 2 ^ (12 + 9 * p.length)) := by
  rw [hwWalk_cons]
  simp only [if_neg hpresent, if_pos hpage, if_neg hp.ne]

theorem hwWalk_reserved {v t : ℕ} {i : Index .x86_64} {p : Path} (hlarge : entries .x86_64 m t i &&& PAGE_LARGE ≠ 0)
    (hp : p.length = 3) : hwWalk m v (i :: p) t = none := by
  rw [hwWalk_cons]
  simp only [if_pos (Or.inr hlarge : p = [] ∨ _), if_pos hp, ite_self]

theorem hwWalk_congr {v t : ℕ} {p : Path} (hkeep : ∀ (q : Path) u j, q.length < p.length →
      walk hwChild (entries .x86_64 m) t q = some u → entries .x86_64 m' u j = entries .x86_64 m u j) :
    hwWalk m' v p t = hwWalk m v p t := by
  induction p generalizing t with
  | nil => rfl
  | cons i p ih =>
    have hhead : entries .x86_64 m' t i = entries .x86_64 m t i := hkeep [] t i (Nat.succ_pos _) rfl
    rw [hwWalk_cons, hwWalk_cons, hhead]
    by_cases hpresent : entries .x86_64 m t i &&& PAGE_PRESENT = 0
    · simp only [if_pos hpresent]
    · by_cases hpage : p = [] ∨ entries .x86_64 m t i &&& PAGE_LARGE ≠ 0
      · simp only [if_neg hpresent, if_pos hpage]
      · simp only [if_neg hpresent, if_neg hpage]
        rw [not_or, not_not] at hpage
        apply ih
        intro q u j hq hu
        apply hkeep (i :: q) u j (Nat.succ_lt_succ hq)
        rw [walk, hwChild_of_table hpresent hpage.2]
        exact hu

theorem hwWalk_isSome (v w : ℕ) (p : Path) (t : ℕ) : (hwWalk m v p t).isSome = (hwWalk m w p t).isSome := by
  induction p generalizing t with
  | nil => rfl
  | cons i p ih =>
    rw [hwWalk_cons, hwWalk_cons]
    split_ifs
    · rfl
    · rfl
    · rfl
    · exact ih _

theorem Table.aligned {u : ℕ} (h : Table m cr3 u) : u % PAGE_SIZE = 0 ∧ u + PAGE_SIZE ≤ 2 ^ 52 := by
  obtain ⟨q, -, hu⟩ := h
  induction q using List.reverseRecOn with
  | nil =>
    rw [← Option.some.inj hu]
    exact ⟨addressMask_aligned cr3, addressMask_lt cr3⟩
  | append_singleton q j _ =>
    rw [walk_concat] at hu
    obtain ⟨t, -, hchild⟩ := Option.bind_eq_some_iff.mp hu
    obtain ⟨-, -, rfl⟩ := hwChild_eq_some hchild
    exact ⟨addressMask_aligned _, addressMask_lt _⟩

theorem SameTables.entries_eq (h : SameTables m cr3 m') {q : Path} {u : ℕ} (hq : q.length ≤ 3)
    (hu : walk hwChild (entries .x86_64 m) (hwRoot cr3) q = some u) (j : Index .x86_64) :
    entries .x86_64 m' u j = entries .x86_64 m u j := entries_congr (h u ⟨q, hq, hu⟩)

theorem SameTables.walk_eq (h : SameTables m cr3 m') {q : Path} (hq : q.length ≤ 3) :
    walk hwChild (entries .x86_64 m') (hwRoot cr3) q =
      walk hwChild (entries .x86_64 m) (hwRoot cr3) q :=
  walk_congr (fun _ _ j hlt hu => h.entries_eq hlt.le hu j) hq

theorem SameTables.table (h : SameTables m cr3 m') (u : ℕ) : Table m' cr3 u ↔ Table m cr3 u := by
  unfold Table
  apply exists_congr
  intro q
  apply and_congr_right
  intro hq
  rw [h.walk_eq hq]

theorem SameTables.translate_eq (h : SameTables m cr3 m') (v : ℕ) : translate m' cr3 v = translate m cr3 v := by
  unfold translate
  apply if_congr Iff.rfl _ rfl
  apply hwWalk_congr
  intro q u j hq hu
  rw [path_leaf_length] at hq
  exact h.entries_eq (Nat.lt_succ_iff.mp hq) hu j

theorem SameTables.fourLevel (h : SameTables m cr3 m') (hm : FourLevel m cr3) : FourLevel m' cr3 where
  cr3_lt := hm.cr3_lt
  separated := hm.separated.congr fun _ hq => h.walk_eq hq
  nonnull u hu := hm.nonnull u ((h.table u).mp hu)
  top i := by
    have hnil : walk hwChild (entries .x86_64 m) (hwRoot cr3) [] = some (hwRoot cr3) := rfl
    rw [h.entries_eq (Nat.zero_le _) hnil]
    exact hm.top i

theorem SameTables.plain (h : SameTables m cr3 m') (hm : Plain m cr3) : Plain m' cr3 := by
  intro q t i hq ht
  rw [h.walk_eq hq] at ht
  rw [h.entries_eq hq ht]
  exact hm q t i hq ht

theorem root_eq (h : cr3 < 2 ^ 52) : root .x86_64 cr3 = hwRoot cr3 := (and_addressMask h).symm

theorem FourLevel.root_ne_zero (h : FourLevel m cr3) : hwRoot cr3 ≠ 0 := h.nonnull _ ⟨[], Nat.zero_le _, rfl⟩

theorem adopted_table (h : FourLevel m cr3) : (adopted m cr3 n).kernelTable = hwRoot cr3 := root_eq h.cr3_lt

theorem vmmGetPhys_leafEntry {s : Paging.State} {r : ℕ} (hr : r ≠ 0) (hs : s.kernelTable = r) (v : ℕ) :
    vmmGetPhys .x86_64 s v =
      ((child .x86_64 (leafEntry .x86_64 r s v)).map (· + v % PAGE_SIZE)).getD 0 := by
  have hoff : v &&& 0xFFF = v % 2 ^ 12 := Nat.and_two_pow_sub_one_eq_mod v 12
  rw [vmmGetPhys, ptIdx_eq, pageTable_of_table hr hs, hoff]
  unfold leafEntry
  cases hw : walk (child .x86_64) (entries .x86_64 s.mem) r (path .x86_64 v) with
  | none =>
    rw [entry_of_none hw, child_zero]
    rfl
  | some t =>
    rw [entry_of_walk hw]
    change (if entries .x86_64 s.mem t (leaf .x86_64 v) &&& PAGE_PRESENT = 0 then 0 else _) = _
    unfold child
    split_ifs
    · rfl
    · have haligned : (entries .x86_64 s.mem t (leaf .x86_64 v) &&& frameMask .x86_64) % 2 ^ 12 = 0 := by
        rw [and_frameMask (entries_lt _ _ _)]
        exact Nat.mul_mod_left _ _
      exact Bits.or_low haligned (Nat.mod_lt _ (by decide))

end JurkOS.Kernel.Hardware
