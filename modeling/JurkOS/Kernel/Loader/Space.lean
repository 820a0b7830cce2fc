import JurkOS.Kernel.Loader.Elf
import JurkOS.Kernel.PagingRuns

/-!
The address space as a map from page numbers to pages. The tables in memory
hold it: every page has a frame of its own, apart from all tables.
-/

namespace JurkOS.Kernel.Loader

open Lib Lib.Memory Lib.Radix Paging Pmm

structure Page where
  flags : ℕ
  bytes : ℕ → UInt8

abbrev Space := ℕ → Option Page

variable (a : Arch) (frame : ℕ → ℕ) (r : ℕ)

def leafEntry (t : Paging.State) (v : ℕ) : ℕ := entry (child a) 0 (entries a t.mem) r (path a v) (leaf a v)

def ReachedTable (t : Paging.State) (u : ℕ) : Prop :=
  ∃ q : List (Index a), q.length ≤ levels a ∧ walk (child a) (entries a t.mem) r q = some u

structure Holds (t : Paging.State) (A : Space) (F : ℕ → ℕ) : Prop where
  tree : Tree a frame r t
  table : t.kernelTable = r ∨ t.kernelTable = 0 ∧ ∀ v, A (pageNumber a v) = none
  absent : ∀ v, A (pageNumber a v) = none → child a (leafEntry a r t v) = none
  present : ∀ v pg, A (pageNumber a v) = some pg →
    leafEntry a r t v = F (pageNumber a v) ||| pg.flags ||| PAGE_PRESENT
  flags : ∀ k pg, A k = some pg → pg.flags < 2 ^ 12
  bytes : ∀ k pg, A k = some pg → ∀ o < PAGE_SIZE, t.mem (F k + o) = pg.bytes o
  given : ∀ k pg, A k = some pg → ∃ i < t.allocs, F k = frame i
  apart : ∀ k pg, A k = some pg → ¬ ReachedTable a r t (F k)
  distinct : ∀ k l pg pg', A k = some pg → A l = some pg' → F k = F l → k = l
  upper : ∀ (q : List (Index a)) u i, q.length < levels a → walk (child a) (entries a t.mem) r q = some u →
    child a (entries a t.mem u i) ≠ none → entries a t.mem u i &&& (PAGE_WRITABLE ||| PAGE_USER) =
      PAGE_WRITABLE ||| PAGE_USER

variable {a frame r} {t : Paging.State} {A : Space} {F : ℕ → ℕ}

theorem ReachedTable.aligned {k u : ℕ} (hf : Frames a frame r k) (htree : Tree a frame r t) (hk : t.allocs ≤ k)
    (h : ReachedTable a r t u) : u % PAGE_SIZE = 0 := by
  obtain ⟨q, hq, hu⟩ := h
  exact (hf.mono hk).table_aligned (htree.owned q u hq hu)

theorem Holds.frame_aligned {k : ℕ} {pg : Page} (hf : Frames a frame r t.allocs) (h : Holds a frame r t A F)
    (hk : A k = some pg) : F k % PAGE_SIZE = 0 ∧ F k ≠ 0 ∧ F k < 2 ^ a.wordBits := by
  obtain ⟨i, hi, he⟩ := h.given k pg hk
  rw [he]
  exact ⟨hf.aligned i hi, hf.nonnull i hi, hf.word i hi⟩

theorem reachedTable_congr {m : Mem} (hkeep : ∀ u, ReachedTable a r t u → ∀ x ∈ Span u PAGE_SIZE, m x = t.mem x)
    {q : List (Index a)} (hq : q.length ≤ levels a) :
    walk (child a) (entries a m) r q = walk (child a) (entries a t.mem) r q := by
  apply walk_congr (d := levels a) _ hq
  intro q u j hlt hu
  exact entries_congr (hkeep u ⟨q, hlt.le, hu⟩)

theorem Holds.change {m : Mem} (h : Holds a frame r t A F) {B : Space}
    (hkeep : ∀ u, ReachedTable a r t u → ∀ x ∈ Span u PAGE_SIZE, m x = t.mem x)
    (hsame : ∀ k, (B k).map Page.flags = (A k).map Page.flags)
    (hbytes : ∀ k pg, B k = some pg → ∀ o < PAGE_SIZE, m (F k + o) = pg.bytes o) :
    Holds a frame r { t with mem := m } B F := by
  have hwalk {q : List (Index a)} (hq : q.length ≤ levels a) := reachedTable_congr hkeep hq
  have hreach (u : ℕ) : ReachedTable a r { t with mem := m } u ↔ ReachedTable a r t u := by
    constructor
    · rintro ⟨q, hq, hu⟩
      exact ⟨q, hq, by rwa [hwalk hq] at hu⟩
    · rintro ⟨q, hq, hu⟩
      exact ⟨q, hq, by rwa [hwalk hq]⟩
  have hleaf (v : ℕ) : leafEntry a r { t with mem := m } v = leafEntry a r t v := by
    apply entry_congr (d := levels a) _ (length_path v).le
    intro q u j hq hu
    exact entries_congr (hkeep u ⟨q, hq, hu⟩)
  have hnone (k : ℕ) (hk : B k = none) : A k = none := by
    have := hsame k
    rw [hk, Option.map_none] at this
    exact Option.map_eq_none_iff.mp this.symm
  have hsome (k : ℕ) (pg : Page) (hk : B k = some pg) : ∃ pg', A k = some pg' ∧ pg'.flags = pg.flags := by
    have := hsame k
    rw [hk, Option.map_some] at this
    exact Option.map_eq_some_iff.mp this.symm
  have hnone' (k : ℕ) (hk : A k = none) : B k = none := by
    have := hsame k
    rw [hk, Option.map_none] at this
    exact Option.map_eq_none_iff.mp this
  refine ⟨⟨h.tree.separated.congr fun q hq => hwalk hq, ?_⟩, ?_, ?_, ?_, ?_, hbytes, ?_, ?_, ?_, ?_⟩
  · intro q u hq hu
    rw [hwalk hq] at hu
    exact h.tree.owned q u hq hu
  · exact h.table.imp id fun hz => ⟨hz.1, fun v => hnone' _ (hz.2 v)⟩
  · intro v hv
    rw [hleaf]
    exact h.absent v (hnone _ hv)
  · intro v pg hv
    obtain ⟨pg', hpg', hflags⟩ := hsome _ _ hv
    rw [hleaf, h.present v pg' hpg', hflags]
  · intro k pg hk
    obtain ⟨pg', hpg', hflags⟩ := hsome _ _ hk
    exact hflags ▸ h.flags k pg' hpg'
  · intro k pg hk
    obtain ⟨pg', hpg', -⟩ := hsome _ _ hk
    exact h.given k pg' hpg'
  · intro k pg hk
    obtain ⟨pg', hpg', -⟩ := hsome _ _ hk
    rw [hreach]
    exact h.apart k pg' hpg'
  · intro k l pg pg' hk hl
    obtain ⟨x, hx, -⟩ := hsome _ _ hk
    obtain ⟨y, hy, -⟩ := hsome _ _ hl
    exact h.distinct k l x y hx hy
  · intro q u i hq hu
    rw [hwalk hq.le] at hu
    have he : entries a m u i = entries a t.mem u i := entries_congr (hkeep u ⟨q, hq.le, hu⟩)
    change child a (entries a m u i) ≠ none → entries a m u i &&& _ = _
    rw [he]
    exact h.upper q u i hq hu

theorem update_some_cases {k l : ℕ} {pg pg' : Page} (h : Function.update A k (some pg) l = some pg') :
    l = k ∧ pg' = pg ∨ l ≠ k ∧ A l = some pg' := by
  by_cases he : l = k
  · subst he
    rw [Function.update_self] at h
    exact Or.inl ⟨rfl, (Option.some.inj h).symm⟩
  · rw [Function.update_of_ne he] at h
    exact Or.inr ⟨he, h⟩

def Space.put (A : Space) (k o : ℕ) (x : UInt8) : Space :=
  Function.update A k ((A k).map fun pg => { pg with bytes := Function.update pg.bytes o x })

theorem Holds.store_kept {v u : ℕ} {pg : Page} (hf : Frames a frame r t.allocs) (h : Holds a frame r t A F)
    (hv : A (pageNumber a v) = some pg) (x : UInt8) (hu : ReachedTable a r t u) :
    ∀ y ∈ Span u PAGE_SIZE, Function.update t.mem (F (pageNumber a v) + v % PAGE_SIZE) x y = t.mem y := by
  intro y hy
  have hoff : v % PAGE_SIZE < PAGE_SIZE := Nat.mod_lt _ (by decide)
  apply Function.update_of_ne
  rintro rfl
  obtain ⟨hlo, hhi⟩ := hy
  have hne : u ≠ F (pageNumber a v) := fun he => h.apart _ pg hv (he ▸ hu)
  have hapart := pages_apart (hu.aligned hf h.tree (le_refl _)) (h.frame_aligned hf hv).1 hne.symm
  omega

theorem Holds.store {v : ℕ} {pg : Page} (hf : Frames a frame r t.allocs) (h : Holds a frame r t A F)
    (hv : A (pageNumber a v) = some pg) (x : UInt8) :
    Holds a frame r { t with mem := Function.update t.mem (F (pageNumber a v) + v % PAGE_SIZE) x }
      (A.put (pageNumber a v) (v % PAGE_SIZE) x) F := by
  have hoff : v % PAGE_SIZE < PAGE_SIZE := Nat.mod_lt _ (by decide)
  have hframe := (h.frame_aligned hf hv).1
  apply h.change
  · exact fun u hu => h.store_kept hf hv x hu
  · intro k
    unfold Space.put
    by_cases hk : k = pageNumber a v
    · rw [hk, Function.update_self, Option.map_map]
      rfl
    · rw [Function.update_of_ne hk]
  · intro k pg' hk o ho
    unfold Space.put at hk
    by_cases hkv : k = pageNumber a v
    · subst hkv
      rw [Function.update_self, hv, Option.map_some] at hk
      cases hk
      simp only
      by_cases hov : o = v % PAGE_SIZE
      · rw [hov, Function.update_self, Function.update_self]
      · rw [Function.update_of_ne (by omega), Function.update_of_ne hov]
        exact h.bytes _ pg hv o ho
    · rw [Function.update_of_ne hkv] at hk
      have hne : F k ≠ F (pageNumber a v) := fun he => hkv (h.distinct k _ pg' pg hk hv he)
      have hapart := pages_apart hframe (h.frame_aligned hf hk).1 hne
      rw [Function.update_of_ne (by omega)]
      exact h.bytes k pg' hk o ho

theorem mmuWalk_append (m : Mem) (p q : List (Index a)) (u rights : ℕ) :
    mmuWalk a m (p ++ q) u rights = (mmuWalk a m p u rights).bind fun x => mmuWalk a m q x.1 x.2 := by
  induction p generalizing u rights with
  | nil => rfl
  | cons i p ih =>
    rw [List.cons_append, mmuWalk, mmuWalk]
    split
    · rfl
    · exact ih _ _

theorem mmuWalk_upper (h : Holds a frame r t A F) {pre p : List (Index a)} {u : ℕ}
    (hpre : walk (child a) (entries a t.mem) r pre = some u) (hlen : pre.length + p.length ≤ levels a) :
    mmuWalk a t.mem p u (PAGE_WRITABLE ||| PAGE_USER) =
      (walk (child a) (entries a t.mem) u p).map (·, PAGE_WRITABLE ||| PAGE_USER) := by
  induction p generalizing pre u with
  | nil => rfl
  | cons i p ih =>
    rw [List.length_cons] at hlen
    unfold mmuWalk walk
    by_cases he : entries a t.mem u i &&& PAGE_PRESENT = 0
    · have hnone : child a (entries a t.mem u i) = none := if_pos he
      rw [if_pos he, hnone]
      rfl
    · have hsome : child a (entries a t.mem u i) = some (entries a t.mem u i &&& frameMask a) := if_neg he
      have hrights := h.upper pre u i (by omega) hpre (by rw [hsome]; exact Option.some_ne_none _)
      have hnext : walk (child a) (entries a t.mem) r (pre ++ [i]) = some (entries a t.mem u i &&& frameMask a) := by
        rw [walk_concat, hpre]
        exact hsome
      rw [if_neg he, hsome, Nat.and_comm (PAGE_WRITABLE ||| PAGE_USER), hrights]
      exact ih hnext (by rw [List.length_append, List.length_singleton]; omega)

theorem entry_rights {f : ℕ} (low : ℕ) (hf : f % PAGE_SIZE = 0) :
    (PAGE_WRITABLE ||| PAGE_USER) &&& (f ||| low ||| PAGE_PRESENT) = (PAGE_WRITABLE ||| PAGE_USER) &&& low := by
  have hmask : (PAGE_WRITABLE ||| PAGE_USER) = (PAGE_WRITABLE ||| PAGE_USER) &&& (2 ^ 3 - 1) := by decide
  have hframe : (PAGE_WRITABLE ||| PAGE_USER) &&& f = 0 := by
    have hzero : f % 2 ^ 3 = 0 := by
      rw [PAGE_SIZE] at hf
      omega
    rw [hmask, Nat.and_assoc, Nat.and_comm (2 ^ 3 - 1), Nat.and_two_pow_sub_one_eq_mod, hzero, Nat.and_zero]
  have hpresent : (PAGE_WRITABLE ||| PAGE_USER) &&& PAGE_PRESENT = 0 := by decide
  rw [Nat.and_or_distrib_left, Nat.and_or_distrib_left, hframe, hpresent, Nat.zero_or, Nat.or_zero]

theorem Holds.child_leaf {v : ℕ} {pg : Page} (hf : Frames a frame r t.allocs) (h : Holds a frame r t A F)
    (hv : A (pageNumber a v) = some pg) : child a (leafEntry a r t v) = some (F (pageNumber a v)) := by
  obtain ⟨haligned, -, hword⟩ := h.frame_aligned hf hv
  rw [h.present v pg hv]
  exact child_entry haligned hword (h.flags _ pg hv)

theorem Holds.leaf_cases (hf : Frames a frame r t.allocs) (h : Holds a frame r t A F) (v : ℕ) :
    A (pageNumber a v) = none ∧ leafEntry a r t v &&& PAGE_PRESENT = 0 ∨
      ∃ pg, A (pageNumber a v) = some pg ∧ leafEntry a r t v &&& PAGE_PRESENT ≠ 0 ∧
        leafEntry a r t v &&& frameMask a = F (pageNumber a v) := by
  cases hv : A (pageNumber a v) with
  | none =>
    have hnone := h.absent v hv
    unfold child at hnone
    by_cases he : leafEntry a r t v &&& PAGE_PRESENT = 0
    · exact Or.inl ⟨rfl, he⟩
    · rw [if_neg he] at hnone
      cases hnone
  | some pg =>
    have hsome := h.child_leaf hf hv
    unfold child at hsome
    by_cases he : leafEntry a r t v &&& PAGE_PRESENT = 0
    · rw [if_pos he] at hsome
      cases hsome
    · rw [if_neg he, Option.some.injEq] at hsome
      exact Or.inr ⟨pg, rfl, he, hsome⟩

theorem Holds.no_page {v : ℕ} (hf : Frames a frame r t.allocs) (h : Holds a frame r t A F)
    (hw : walk (child a) (entries a t.mem) r (path a v) = none) : A (pageNumber a v) = none := by
  obtain ⟨hv, -⟩ | ⟨pg, -, hpresent, -⟩ := h.leaf_cases hf v
  · exact hv
  · have hleaf : leafEntry a r t v = 0 := entry_of_none hw
    rw [hleaf, Nat.zero_and] at hpresent
    exact absurd rfl hpresent

theorem mmu_eq {cr3 : ℕ} (hr : root a cr3 = r) (hf : Frames a frame r t.allocs) (h : Holds a frame r t A F) (v : ℕ) :
    mmu a cr3 t v = if canonical a v then (A (pageNumber a v)).map fun pg =>
      (F (pageNumber a v) + v % PAGE_SIZE, (PAGE_WRITABLE ||| PAGE_USER) &&& pg.flags) else none := by
  unfold mmu
  by_cases hc : canonical a v
  · have hroot : walk (child a) (entries a t.mem) r [] = some r := rfl
    have hupper := mmuWalk_upper (p := path a v) h hroot (by rw [length_path, List.length_nil, Nat.zero_add])
    rw [if_pos hc, if_pos hc, mmuWalk_append]
    change ((mmuWalk a t.mem (path a v) (root a cr3) _).bind _).map _ = _
    rw [hr, hupper]
    cases hw : walk (child a) (entries a t.mem) r (path a v) with
    | none =>
      rw [h.no_page hf hw]
      rfl
    | some u =>
      have hleaf : leafEntry a r t v = entries a t.mem u (leaf a v) := entry_of_walk hw
      rw [Option.map_some, Option.bind_some, mmuWalk, ← hleaf]
      obtain ⟨hv, hpresent⟩ | ⟨pg, hv, hpresent, hframe⟩ := h.leaf_cases hf v
      · rw [hv, if_pos hpresent]
        rfl
      · have hrights := entry_rights pg.flags (h.frame_aligned hf hv).1
        rw [← h.present v pg hv] at hrights
        rw [hv, if_neg hpresent, hframe, hrights]
        rfl
  · rw [if_neg hc, if_neg hc]

theorem vmmGetPhys_zero_iff (hr : r ≠ 0) (hf : Frames a frame r t.allocs) (h : Holds a frame r t A F) (v : ℕ) :
    vmmGetPhys a t v = 0 ↔ A (pageNumber a v) = none := by
  unfold vmmGetPhys
  rw [ptIdx_eq]
  cases h.table with
  | inr hz => simp [pageTable_of_null hz.1, hz.2 v]
  | inl htable =>
    rw [pageTable_of_table hr htable]
    cases hw : walk (child a) (entries a t.mem) r (path a v) with
    | none => simp [h.no_page hf hw]
    | some u =>
      have hleaf : leafEntry a r t v = entryAt a t.mem u (leaf a v) := entry_of_walk hw
      simp only [← hleaf]
      obtain ⟨hv, hpresent⟩ | ⟨pg, hv, hpresent, hframe⟩ := h.leaf_cases hf v
      · simp [hv, hpresent]
      · have hne := (h.frame_aligned hf hv).2.1
        rw [hv, if_neg hpresent, hframe]
        simp only [reduceCtorEq, iff_false]
        intro hor
        exact hne (Nat.or_eq_zero_iff.mp hor).1

end JurkOS.Kernel.Loader
