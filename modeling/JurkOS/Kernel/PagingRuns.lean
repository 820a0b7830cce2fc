import JurkOS.Kernel.Paging
import JurkOS.Lib.Run

/-!
Runs of `vmm_map_page` and `vmm_unmap_page`: translation is a finite map from
page numbers to frames.
-/

namespace JurkOS.Kernel.Paging

open Lib Lib.Memory Lib.Radix Lib.Run Pmm

inductive Event
  | vmmMapPage (phys virt flags : ℕ)
  | vmmUnmapPage (virt : ℕ)
  -- other code stores outside the tables
  | store (x : ℕ) (v : UInt8)

variable (a : Arch) (frame : ℕ → ℕ) (cr3 : ℕ)

def root : ℕ := cr3 &&& frameMask a

def Step (s : State) : Event → State → Prop
  | .vmmMapPage phys virt flags, t =>
    phys < 2 ^ a.wordBits ∧ virt < 2 ^ a.wordBits ∧ flags < 0x1000 ∧ t = vmmMapPage a frame cr3 s phys virt flags
  | .vmmUnmapPage virt, t => virt < 2 ^ a.wordBits ∧ t = vmmUnmapPage a s virt
  | .store x v, t =>
    (∀ u ∈ tables frame (root a cr3) s.allocs, x ∉ Span u PAGE_SIZE) ∧
      t = { s with mem := Function.update s.mem x v }

/-- The top-level table is empty; `vmm_init` has run, or the first `vmm_map_page` runs it. -/
structure Init (s : State) : Prop where
  table : s.kernelTable = 0 ∨ s.kernelTable = root a cr3
  empty : ∀ b ∈ Span (root a cr3) PAGE_SIZE, s.mem b = 0
  allocs : s.allocs = 0

def remember (M : ℕ → Option ℕ) : Event → ℕ → Option ℕ
  | .vmmMapPage phys virt _ => Function.update M (pageNumber a virt) (some (phys / PAGE_SIZE * PAGE_SIZE))
  | .vmmUnmapPage virt => Function.update M (pageNumber a virt) none
  | .store _ _ => M

def mapped (l : List Event) : ℕ → Option ℕ := l.foldl (remember a) fun _ => none

def translate (M : ℕ → Option ℕ) (v : ℕ) : ℕ :=
  match M (pageNumber a v) with
  | none => 0
  | some f => f ||| (v &&& 0xFFF)

def Event.page : Event → Option ℕ
  | .vmmMapPage _ virt _ => some (pageNumber a virt)
  | .vmmUnmapPage virt => some (pageNumber a virt)
  | .store _ _ => none

structure Refines (r : ℕ) (s : State) (M : ℕ → Option ℕ) : Prop where
  tree : Tree a frame r s
  table : s.kernelTable = r ∨ s.kernelTable = 0 ∧ ∀ k, M k = none
  maps : ∀ v, child a (entry (child a) 0 (entries a s.mem) r (path a v) (leaf a v)) = M (pageNumber a v)

variable {a frame cr3}

theorem root_aligned : root a cr3 % PAGE_SIZE = 0 := by
  have hmask : frameMask a % 2 ^ 12 = 0 := by cases a <;> decide
  have hpage : PAGE_SIZE = 2 ^ 12 := rfl
  rw [root, hpage, Nat.and_mod_two_pow, hmask, Nat.and_zero]

theorem pageTable_of_table {s : State} {r virt : ℕ} (hr : r ≠ 0) (htable : s.kernelTable = r) :
    pageTable a s virt = walk (child a) (entries a s.mem) r (path a virt) := by
  rw [pageTable_eq, if_neg (by rw [htable]; exact hr), htable]

theorem pageTable_of_null {s : State} {virt : ℕ} (hzero : s.kernelTable = 0) : pageTable a s virt = none := by
  rw [pageTable_eq, if_pos hzero]

theorem vmmGetPhys_eq {s : State} {r : ℕ} {M : ℕ → Option ℕ} (hr : r ≠ 0) (h : Refines a frame r s M) (v : ℕ) :
    vmmGetPhys a s v = translate a M v := by
  rw [vmmGetPhys, translate, ptIdx_eq]
  rcases h.table with htable | ⟨hzero, hnone⟩
  · rw [pageTable_of_table hr htable, ← h.maps v]
    cases hw : walk (child a) (entries a s.mem) r (path a v) with
    | none => rw [entry_of_none hw, child_zero]
    | some t =>
      rw [entry_of_walk hw, child]
      change (if entries a s.mem t (leaf a v) &&& PAGE_PRESENT = 0 then 0
        else (entries a s.mem t (leaf a v) &&& frameMask a) ||| (v &&& 0xFFF)) = _
      split_ifs <;> rfl
  · rw [pageTable_of_null hzero, hnone]

theorem nextTable_allocs (s : State) (t i flags : ℕ) : s.allocs ≤ (nextTable a frame s t i flags).2.allocs := by
  unfold nextTable
  split_ifs
  · exact Nat.le_succ _
  · exact le_refl _

theorem descend_allocs {flags t : ℕ} {p : List (Index a)} (s : State) :
    s.allocs ≤ (descend a frame flags p t s).2.allocs := by
  induction p generalizing t s with
  | nil => exact le_refl _
  | cons i p ih => exact (nextTable_allocs s t i flags).trans (ih _)

structure Extends (a : Arch) (frame : ℕ → ℕ) (r : ℕ) (s s' : State) : Prop where
  tree : Tree a frame r s'
  table : s'.kernelTable = s.kernelTable
  entry : ∀ q j, q.length = levels a → entry (child a) 0 (entries a s'.mem) r q j =
    entry (child a) 0 (entries a s.mem) r q j

theorem nextTable_spec {r t flags : ℕ} {s : State} {pre : List (Index a)} (i : Index a)
    (hf : Frames a frame r (nextTable a frame s t i flags).2.allocs) (htree : Tree a frame r s)
    (ht : walk (child a) (entries a s.mem) r pre = some t) (hpre : pre.length < levels a) :
    Extends a frame r s (nextTable a frame s t i flags).2 ∧
      walk (child a) (entries a (nextTable a frame s t i flags).2.mem) r (pre ++ [i]) =
        some (nextTable a frame s t i flags).1 := by
  rcases nextTable_cases hf htree ht hpre with ⟨hsame, hchild⟩ | ⟨hallocs, htable, hnew, hgrown⟩
  · rw [hsame]
    refine ⟨⟨htree, rfl, fun _ _ _ => rfl⟩, ?_⟩
    rw [walk_concat, ht]
    exact hchild
  · have hwalk {q : List (Index a)} (hq : q.length ≤ levels a) :=
      hgrown.walk child_zero htree.separated hq
    have hlen : (pre ++ [i]).length ≤ levels a := by
      rw [List.length_append, List.length_singleton]
      exact hpre
    refine ⟨⟨⟨hgrown.separated child_zero htree.separated, ?_⟩, htable, ?_⟩, ?_⟩
    · intro q u hq hu
      rw [hwalk hq] at hu
      rw [hallocs]
      split_ifs at hu
      · exact .inr ⟨s.allocs, Nat.lt_succ_self _, (Option.some.inj hu).symm⟩
      · rcases htree.owned q u hq hu with hroot | ⟨k, hk, hframe⟩
        · exact .inl hroot
        · exact .inr ⟨k, by omega, hframe⟩
    · exact fun q j hq => hgrown.entry child_zero htree.separated hq j
    · rw [hwalk hlen, if_pos rfl, hnew]

theorem Extends.trans {r : ℕ} {s s' s'' : State} (h : Extends a frame r s s') (h' : Extends a frame r s' s'') :
    Extends a frame r s s'' where
  tree := h'.tree
  table := h'.table.trans h.table
  entry := fun q j hq => (h'.entry q j hq).trans (h.entry q j hq)

theorem descend_spec {r t flags : ℕ} {s : State} (pre p : List (Index a))
    (hf : Frames a frame r (descend a frame flags p t s).2.allocs) (htree : Tree a frame r s)
    (ht : walk (child a) (entries a s.mem) r pre = some t) (hlen : pre.length + p.length = levels a) :
    Extends a frame r s (descend a frame flags p t s).2 ∧
      walk (child a) (entries a (descend a frame flags p t s).2.mem) r (pre ++ p) =
        some (descend a frame flags p t s).1 := by
  induction p generalizing pre t s with
  | nil => exact ⟨⟨htree, rfl, fun _ _ _ => rfl⟩, by rw [List.append_nil]; exact ht⟩
  | cons i p ih =>
    rw [List.length_cons] at hlen
    obtain ⟨hnext, hwalk⟩ := nextTable_spec i (hf.mono (descend_allocs _)) htree ht (by omega)
    obtain ⟨hrest, hwalk'⟩ := ih _ hf hnext.tree hwalk (by rw [List.length_append, List.length_singleton]; omega)
    rw [List.append_assoc, List.singleton_append] at hwalk'
    exact ⟨hnext.trans hrest, hwalk'⟩

theorem writeLeaf_keep {r t v : ℕ} {s : State} (e : ℕ) (hf : Frames a frame r s.allocs) (htree : Tree a frame r s)
    (ht : walk (child a) (entries a s.mem) r (path a v) = some t) {q : List (Index a)} {u : ℕ} {j : Index a}
    (hq : q.length ≤ levels a) (hu : walk (child a) (entries a s.mem) r q = some u) (hne : u ≠ t ∨ j ≠ leaf a v) :
    entries a (writeEntry a s t (leaf a v) e).mem u j = entries a s.mem u j :=
  entries_setEntry_ne (hf.table_aligned (htree.owned _ t (length_path v).le ht))
    (hf.table_aligned (htree.owned q u hq hu)) hne

theorem writeLeaf_walk {r t v : ℕ} {s : State} (e : ℕ) (hf : Frames a frame r s.allocs) (htree : Tree a frame r s)
    (ht : walk (child a) (entries a s.mem) r (path a v) = some t) {q : List (Index a)} (hq : q.length ≤ levels a) :
    walk (child a) (entries a (writeEntry a s t (leaf a v) e).mem) r q = walk (child a) (entries a s.mem) r q :=
  walk_leaf htree.separated ht (length_path v)
    (fun _ _ _ hq hu hne => writeLeaf_keep e hf htree ht hq hu (Or.inl hne)) hq

theorem setLeaf_refines {r t e v : ℕ} {s : State} {M : ℕ → Option ℕ} (hf : Frames a frame r s.allocs)
    (hr : s.kernelTable = r) (htree : Tree a frame r s)
    (hmaps : ∀ w, child a (entry (child a) 0 (entries a s.mem) r (path a w) (leaf a w)) = M (pageNumber a w))
    (ht : walk (child a) (entries a s.mem) r (path a v) = some t) (he : e < 2 ^ a.wordBits) :
    Refines a frame r (writeEntry a s t (leaf a v) e)
      (Function.update M (pageNumber a v) (child a e)) := by
  have hwalk (q : List (Index a)) (hq : q.length ≤ levels a) := writeLeaf_walk e hf htree ht hq
  refine ⟨⟨htree.separated.congr hwalk, ?_⟩, .inl hr, ?_⟩
  · intro q u hq hu
    rw [hwalk q hq] at hu
    exact htree.owned q u hq hu
  · intro w
    have hself : entries a (writeEntry a s t (leaf a v) e).mem t (leaf a v) = e := entries_setEntry_self he
    rw [entry_leaf htree.separated ht (length_path v) hself
      (fun q u j hq hu hne => writeLeaf_keep e hf htree ht hq hu hne) (length_path w)]
    by_cases hpage : pageNumber a w = pageNumber a v
    · rw [if_pos (path_leaf_eq_iff.mpr hpage), hpage, Function.update_self]
    · rw [if_neg (fun h => hpage (path_leaf_eq_iff.mp h)), Function.update_of_ne hpage, hmaps]

theorem start_allocs (s : State) : (start a cr3 s).allocs = s.allocs := by
  unfold start
  split_ifs
  · rfl
  · rfl

theorem start_mem (s : State) : (start a cr3 s).mem = s.mem := by
  unfold start
  split_ifs
  · rfl
  · rfl

theorem descend_allocs_le {flags t : ℕ} {p : List (Index a)} (s : State) :
    (descend a frame flags p t s).2.allocs ≤ s.allocs + p.length := by
  induction p generalizing t s with
  | nil => exact le_refl _
  | cons i p ih =>
    have hone : (nextTable a frame s t i flags).2.allocs ≤ s.allocs + 1 := by
      unfold nextTable
      split_ifs
      · exact le_refl _
      · exact Nat.le_succ _
    have hrest := ih (t := (nextTable a frame s t i flags).1) (nextTable a frame s t i flags).2
    rw [List.length_cons]
    exact hrest.trans (by omega)

theorem vmmMapPage_refines {s : State} {M : ℕ → Option ℕ} {phys virt flags : ℕ} (hphys : phys < 2 ^ a.wordBits)
    (hflags : flags < 0x1000) (hf : Frames a frame (root a cr3) (vmmMapPage a frame cr3 s phys virt flags).allocs)
    (h : Refines a frame (root a cr3) s M) :
    Refines a frame (root a cr3) (vmmMapPage a frame cr3 s phys virt flags)
      (Function.update M (pageNumber a virt) (some (phys / PAGE_SIZE * PAGE_SIZE))) := by
  rw [vmmMapPage_eq hflags] at hf ⊢
  -- `vmm_init` sets the table pointer and leaves the tables alone
  have hstart : (start a cr3 s).kernelTable = root a cr3 := by
    unfold start
    rcases h.table with htable | ⟨hzero, -⟩
    · split_ifs
      · rfl
      · exact htable
    · rw [if_pos hzero]
      rfl
  have htree : Tree a frame (root a cr3) (start a cr3 s) := by
    refine ⟨?_, ?_⟩
    · rw [start_mem]
      exact h.tree.separated
    · rw [start_mem, start_allocs]
      exact h.tree.owned
  obtain ⟨hext, hwalk⟩ := descend_spec [] (path a virt)
    (t := (start a cr3 s).kernelTable) hf htree (by rw [hstart, walk])
    (by rw [length_path, List.length_nil, Nat.zero_add])
  have hmaps (w : ℕ) : child a (entry (child a) 0 (entries a
      (descend a frame flags (path a virt) (start a cr3 s).kernelTable (start a cr3 s)).2.mem)
      (root a cr3) (path a w) (leaf a w)) = M (pageNumber a w) := by
    rw [hext.entry _ _ (length_path w), start_mem, h.maps]
  have hpage : (phys &&& frameMask a) = phys / PAGE_SIZE * PAGE_SIZE := and_frameMask hphys
  have hlt : phys / PAGE_SIZE * PAGE_SIZE < 2 ^ a.wordBits := (Nat.div_mul_le_self _ _).trans_lt hphys
  have hw : 12 ≤ a.wordBits := by cases a <;> decide
  have hflag : flags < 2 ^ a.wordBits :=
    hflags.trans_le (Nat.pow_le_pow_right (n := 2) (by decide) hw)
  have hword : (phys &&& frameMask a) ||| flags ||| PAGE_PRESENT < 2 ^ a.wordBits := by
    have hone : PAGE_PRESENT < 2 ^ a.wordBits := Nat.one_lt_two_pow (by omega)
    rw [hpage]
    exact Nat.or_lt_two_pow (Nat.or_lt_two_pow hlt hflag) hone
  have hfd : Frames a frame (root a cr3)
      (descend a frame flags (path a virt) (start a cr3 s).kernelTable (start a cr3 s)).2.allocs := hf
  have hleaf := setLeaf_refines (v := virt) hfd (hext.table.trans hstart) hext.tree hmaps hwalk hword
  rw [hpage, child_entry (Nat.mul_mod_left _ _) hlt hflags] at hleaf
  rw [hpage]
  exact hleaf

theorem vmmUnmapPage_refines {s : State} {M : ℕ → Option ℕ} {r virt : ℕ} (hr : r ≠ 0)
    (hf : Frames a frame r s.allocs) (h : Refines a frame r s M) :
    Refines a frame r (vmmUnmapPage a s virt) (Function.update M (pageNumber a virt) none) := by
  have hkeep (hnone : M (pageNumber a virt) = none) :
      Refines a frame r s (Function.update M (pageNumber a virt) none) := by
    rwa [← hnone, Function.update_eq_self]
  rw [vmmUnmapPage, ptIdx_eq]
  rcases h.table with htable | ⟨hzero, hnone⟩
  · rw [pageTable_of_table hr htable]
    cases hw : walk (child a) (entries a s.mem) r (path a virt) with
    | none =>
      apply hkeep
      rw [← h.maps virt, entry_of_none hw, child_zero]
    | some t =>
      have hleaf := setLeaf_refines (v := virt) hf htable h.tree h.maps hw (Nat.pow_pos (by decide))
      rwa [child_zero] at hleaf
  · rw [pageTable_of_null hzero]
    exact hkeep (hnone _)

theorem store_refines {s : State} {M : ℕ → Option ℕ} {r x : ℕ} {v : UInt8}
    (hx : ∀ u ∈ tables frame r s.allocs, x ∉ Span u PAGE_SIZE) (h : Refines a frame r s M) :
    Refines a frame r { s with mem := Function.update s.mem x v } M := by
  have hkeep (q : List (Index a)) (u : ℕ) (j : Index a) (hq : q.length ≤ levels a)
      (hu : walk (child a) (entries a s.mem) r q = some u) :
      entries a (Function.update s.mem x v) u j = entries a s.mem u j := by
    refine entries_congr fun b hb => Function.update_of_ne ?_ _ _
    rintro rfl
    exact hx u (h.tree.owned q u hq hu) hb
  have hwalk (q : List (Index a)) (hq : q.length ≤ levels a) :=
    walk_congr (fun q u j hlt => hkeep q u j (Nat.le_of_lt hlt)) hq
  refine ⟨⟨h.tree.separated.congr hwalk, ?_⟩, h.table, ?_⟩
  · intro q u hq hu
    rw [hwalk q hq] at hu
    exact h.tree.owned q u hq hu
  · intro w
    rw [entry_congr hkeep (length_path w).le, h.maps]

theorem step_allocs {s t : State} {e : Event} (h : Step a frame cr3 s e t) : s.allocs ≤ t.allocs := by
  cases e with
  | vmmMapPage phys virt flags =>
    obtain ⟨-, -, hflags, rfl⟩ := h
    rw [vmmMapPage_eq hflags]
    exact (start_allocs s).symm.le.trans (descend_allocs _)
  | vmmUnmapPage virt =>
    obtain ⟨-, rfl⟩ := h
    unfold vmmUnmapPage
    split
    · exact le_refl _
    · exact le_refl _
  | store x v =>
    obtain ⟨-, rfl⟩ := h
    exact le_refl _

theorem step_refines {s t : State} {e : Event} {M : ℕ → Option ℕ} (hroot : root a cr3 ≠ 0)
    (hf : Frames a frame (root a cr3) t.allocs) (hs : Refines a frame (root a cr3) s M)
    (h : Step a frame cr3 s e t) : Refines a frame (root a cr3) t (remember a M e) := by
  have hf' := hf.mono (step_allocs h)
  cases e with
  | vmmMapPage phys virt flags =>
    obtain ⟨hphys, -, hflags, rfl⟩ := h
    exact vmmMapPage_refines hphys hflags hf hs
  | vmmUnmapPage virt =>
    obtain ⟨-, rfl⟩ := h
    exact vmmUnmapPage_refines hroot hf' hs
  | store x v =>
    obtain ⟨hx, rfl⟩ := h
    exact store_refines hx hs

theorem Init.blank {s : State} (h : Init a cr3 s) (j : Index a) : entries a s.mem (root a cr3) j = 0 := by
  have hj := wordBytes_mul_index j
  apply load_eq_zero
  intro b hb
  apply h.empty b
  exact ⟨by have := hb.1; omega, by have := hb.2; omega⟩

theorem init_refines {s : State} (h : Init a cr3 s) : Refines a frame (root a cr3) s fun _ => none := by
  have hblank := h.blank
  refine ⟨⟨separated_blank child_zero hblank, ?_⟩, ?_, ?_⟩
  · intro q t _ ht
    obtain rfl := walk_blank child_zero hblank ht
    exact .inl (Option.some.inj ht).symm
  · exact h.table.symm.imp id fun hzero => ⟨hzero, fun _ => rfl⟩
  · intro w
    have hnone : walk (child a) (entries a s.mem) (root a cr3) (path a w) = none := by
      cases hw : walk (child a) (entries a s.mem) (root a cr3) (path a w) with
      | none => rfl
      | some t =>
        have hnil := congrArg List.length (walk_blank child_zero hblank hw)
        rw [length_path] at hnil
        cases a <;> cases hnil
    rw [entry_of_none hnone, child_zero]

theorem run_refines {s t : State} {l : List Event} {M : ℕ → Option ℕ} (hroot : root a cr3 ≠ 0)
    (hrun : Steps (Step a frame cr3) s l t) (hf : Frames a frame (root a cr3) t.allocs)
    (hs : Refines a frame (root a cr3) s M) : Refines a frame (root a cr3) t (l.foldl (remember a) M) := by
  have hallocs {s t : State} {l : List Event} (hrun : Steps (Step a frame cr3) s l t) : s.allocs ≤ t.allocs := by
    induction hrun with
    | nil s => exact le_refl _
    | cons h rest ih => exact (step_allocs h).trans ih
  induction hrun generalizing M with
  | nil s => exact hs
  | cons h rest ih => exact ih hf (step_refines hroot (hf.mono (hallocs rest)) hs h)

theorem remember_other {M : ℕ → Option ℕ} {e : Event} {k : ℕ} (h : e.page a ≠ some k) :
    remember a M e k = M k := by
  cases e with
  | vmmMapPage phys virt flags => exact Function.update_of_ne (fun hk => h (congrArg some hk.symm)) _ _
  | vmmUnmapPage virt => exact Function.update_of_ne (fun hk => h (congrArg some hk.symm)) _ _
  | store x v => rfl

theorem vmmGetPhys_run {s₀ s : State} {l : List Event} (hroot : root a cr3 ≠ 0) (hinit : Init a cr3 s₀)
    (hrun : Steps (Step a frame cr3) s₀ l s) (hf : Frames a frame (root a cr3) s.allocs) :
    (∀ v, vmmGetPhys a s v = translate a (mapped a l) v) ∧
      ∀ e t, Step a frame cr3 s e t → Frames a frame (root a cr3) t.allocs →
        ∀ v, e.page a ≠ some (pageNumber a v) → vmmGetPhys a t v = vmmGetPhys a s v := by
  have hs : Refines a frame (root a cr3) s (mapped a l) := run_refines hroot hrun hf (init_refines hinit)
  refine ⟨fun v => vmmGetPhys_eq hroot hs v, fun e t hstep hft v hpage => ?_⟩
  rw [vmmGetPhys_eq hroot (step_refines hroot hft hs hstep), vmmGetPhys_eq hroot hs, translate, translate,
    remember_other hpage]

def emptyTables : State := ⟨fun _ => 0, 0, 0⟩

def frameStream (i : ℕ) : ℕ := 0x2000 + 0x1000 * i

theorem frameStream_frames {k : ℕ} (hk : k ≤ 2 ^ 16) : Frames a frameStream 0x1000 k := by
  have hw : 2 ^ 32 ≤ 2 ^ a.wordBits := Nat.pow_le_pow_right (by decide) (by cases a <;> decide)
  unfold frameStream
  refine ⟨rfl, ?_, ?_, ?_, ?_, ?_⟩
  · intro i hi
    omega
  · intro i hi
    rw [PAGE_SIZE]
    omega
  · intro i hi
    omega
  · intro i hi j hj h
    omega
  · intro i hi
    omega

def oneMapped : State := vmmMapPage .x86 frameStream 0x1000 emptyTables 0x5000 0x400000 3

theorem oneMapped_run : Steps (Step .x86 frameStream 0x1000) emptyTables [.vmmMapPage 0x5000 0x400000 3] oneMapped :=
  .single ⟨by decide, by decide, by decide, rfl⟩

theorem vmmGetPhys_run_map : vmmGetPhys .x86 oneMapped 0x400123 = 0x5123 :=
  (vmmGetPhys_run (by decide) ⟨.inl rfl, fun _ _ => rfl, rfl⟩ oneMapped_run
    ⟨rfl, by decide, by decide, by decide, by decide, by decide⟩).1 0x400123

end JurkOS.Kernel.Paging
