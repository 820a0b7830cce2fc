import JurkOS.Kernel.Loader.FreshPage
import JurkOS.Kernel.Loader.Image
import JurkOS.Kernel.Loader.MapRights
import JurkOS.Kernel.Loader.Repeats

/-!
The flat image of `xec_load` in memory: its bytes, the frames behind it, and the
translation of everything else.
-/

namespace JurkOS.Kernel.Loader

open Lib Lib.Memory Lib.Radix Lib.Run Paging Pmm

variable (a : Arch) (frame : ℕ → ℕ) (cr3 : ℕ)

def xecAddr (x : ℕ) : ℕ := a.wrap (XEC_BASE_VADDR + x)

structure Flat (t₀ : Paging.State) (g : ℕ → ℕ) (k : ℕ) (B : ℕ → UInt8) (t : Paging.State) : Prop where
  tree : Tree a frame (root a cr3) t
  table : t.kernelTable = 0 ∨ t.kernelTable = root a cr3
  upper : UpperKept a (root a cr3) t₀ t
  page : ∀ i < k, ∀ v, pageNumber a v = pageNumber a (xecAddr a (i * PAGE_SIZE)) →
    child a (leafEntry a (root a cr3) t v) = some (g i)
  other : ∀ v, (∀ i < k, pageNumber a v ≠ pageNumber a (xecAddr a (i * PAGE_SIZE))) →
    leafEntry a (root a cr3) t v = leafEntry a (root a cr3) t₀ v
  data : ∀ i < k, DataFrame a frame (root a cr3) t (g i)
  fresh : ∀ i < k, ∃ j, t₀.allocs ≤ j ∧ j < t.allocs ∧ g i = frame j
  distinct : ∀ i < k, ∀ j < k, g i = g j → i = j
  bytes : ∀ i < k, ∀ o < PAGE_SIZE, t.mem (g i + o) = B (i * PAGE_SIZE + o)

variable {a frame cr3} {t₀ t : Paging.State} {g : ℕ → ℕ} {k : ℕ} {B : ℕ → UInt8}

/-! ### The pages of the image -/

theorem xecAddr_pages {i o : ℕ} (ho : o < PAGE_SIZE) :
    pageNumber a (xecAddr a (i * PAGE_SIZE + o)) = pageNumber a (xecAddr a (i * PAGE_SIZE)) ∧
      xecAddr a (i * PAGE_SIZE + o) % PAGE_SIZE = o := by
  cases a with
  | x86_64 =>
    simp only [xecAddr, XEC_BASE_VADDR, Arch.wrap, pageNumber, fanout, levels, Arch.wordBytes, Arch.wordBits,
      PAGE_SIZE] at *
    omega
  | x86 =>
    simp only [xecAddr, XEC_BASE_VADDR, Arch.wrap, pageNumber, fanout, levels, Arch.wordBytes, Arch.wordBits,
      PAGE_SIZE] at *
    omega

theorem xecAddr_inj {i j : ℕ} (hi : i < fanout a ^ (levels a + 1)) (hj : j < fanout a ^ (levels a + 1))
    (h : pageNumber a (xecAddr a (i * PAGE_SIZE)) = pageNumber a (xecAddr a (j * PAGE_SIZE))) : i = j := by
  cases a with
  | x86_64 =>
    simp only [xecAddr, XEC_BASE_VADDR, Arch.wrap, pageNumber, fanout, levels, Arch.wordBytes, Arch.wordBits,
      PAGE_SIZE] at *
    omega
  | x86 =>
    simp only [xecAddr, XEC_BASE_VADDR, Arch.wrap, pageNumber, fanout, levels, Arch.wordBytes, Arch.wordBits,
      PAGE_SIZE] at *
    omega

/-! ### The loop over the pages -/

theorem Flat.init (htree : Tree a frame (root a cr3) t)
    (htable : t.kernelTable = 0 ∨ t.kernelTable = root a cr3) : Flat a frame cr3 t g 0 B t where
  tree := htree
  table := htable
  upper _ _ _ _ _ _ := rfl
  page i hi := absurd hi (Nat.not_lt_zero i)
  other _ _ := rfl
  data i hi := absurd hi (Nat.not_lt_zero i)
  fresh i hi := absurd hi (Nat.not_lt_zero i)
  distinct i hi := absurd hi (Nat.not_lt_zero i)
  bytes i hi := absurd hi (Nat.not_lt_zero i)

theorem Flat.mapFresh {flags : ℕ} (h : Flat a frame cr3 t₀ g k (fun _ => 0) t) (hle : t₀.allocs ≤ t.allocs)
    (hk : k < fanout a ^ (levels a + 1)) (hflags : flags < 2 ^ 12)
    (hf : Frames a frame (root a cr3) (mapFresh a frame cr3 t (xecAddr a (k * PAGE_SIZE)) flags).allocs) :
    Flat a frame cr3 t₀ (Function.update g k (frame t.allocs)) (k + 1) (fun _ => 0)
      (Loader.mapFresh a frame cr3 t (xecAddr a (k * PAGE_SIZE)) flags) := by
  have hmap := mapFresh_mapsFresh hflags hf h.tree h.table
  have hallocs : t.allocs + 1 ≤ (Loader.mapFresh a frame cr3 t (xecAddr a (k * PAGE_SIZE)) flags).allocs :=
    mapFresh_allocs hflags
  have hfirst : Frames a frame (root a cr3) (t.allocs + 1) := hf.mono hallocs
  generalize Loader.mapFresh a frame cr3 t (xecAddr a (k * PAGE_SIZE)) flags = t' at *
  have hold (i : ℕ) (hi : i < k) : Function.update g k (frame t.allocs) i = g i :=
    Function.update_of_ne hi.ne _ _
  have hnew : Function.update g k (frame t.allocs) k = frame t.allocs := Function.update_self k _ g
  have hcases (i : ℕ) (hi : i < k + 1) : i < k ∨ i = k := Nat.lt_succ_iff_lt_or_eq.mp hi
  refine ⟨hmap.keeps.tree, .inr hmap.table, h.upper.trans hmap.keeps.upper, ?_, ?_, ?_, ?_, ?_, ?_⟩
  · intro i hi v hv
    rcases hcases i hi with hlt | rfl
    · rw [hold i hlt, hmap.other v]
      · exact h.page i hlt v hv
      · rw [hv]
        intro he
        exact hlt.ne (xecAddr_inj (hlt.trans hk) hk he)
    · rw [hnew]
      exact hmap.page v hv
  · intro v hv
    rw [hmap.other v (hv k (Nat.lt_succ_self k))]
    exact h.other v fun i hi => hv i (Nat.lt_succ_of_lt hi)
  · intro i hi
    rcases hcases i hi with hlt | rfl
    · rw [hold i hlt]
      exact (hmap.keeps.data _ (h.data i hlt)).1
    · rw [hnew]
      exact hmap.data
  · intro i hi
    rcases hcases i hi with hlt | rfl
    · obtain ⟨j, hj, hj', he⟩ := h.fresh i hlt
      exact ⟨j, hj, by omega, (hold i hlt).trans he⟩
    · exact ⟨t.allocs, hle, by omega, hnew⟩
  · intro i hi j hj he
    rcases hcases i hi with hlt | rfl
    · rcases hcases j hj with hlt' | rfl
      · rw [hold i hlt, hold j hlt'] at he
        exact h.distinct i hlt j hlt' he
      · rw [hold i hlt, hnew] at he
        exact absurd he ((h.data i hlt).ne_fresh hfirst)
    · rcases hcases j hj with hlt' | rfl
      · rw [hold j hlt', hnew] at he
        exact absurd he.symm ((h.data j hlt').ne_fresh hfirst)
      · rfl
  · intro i hi o ho
    rcases hcases i hi with hlt | rfl
    · rw [hold i hlt, (hmap.keeps.data _ (h.data i hlt)).2 o ho]
      exact h.bytes i hlt o ho
    · rw [hnew]
      exact hmap.zero o ho

theorem Flat.xecMapLoop {n : ℕ} (h : Flat a frame cr3 t₀ g k (fun _ => 0) t) (hle : t₀.allocs ≤ t.allocs)
    (hk : k + n ≤ fanout a ^ (levels a + 1))
    (hf : Frames a frame (root a cr3) (xecMapLoop a frame cr3 n k t).allocs) :
    ∃ g', Flat a frame cr3 t₀ g' (k + n) (fun _ => 0) (Loader.xecMapLoop a frame cr3 n k t) := by
  induction n generalizing k g t with
  | zero => exact ⟨g, h⟩
  | succ n ih =>
    rw [Loader.xecMapLoop] at hf ⊢
    have hflags : PAGE_USER ||| PAGE_WRITABLE < 2 ^ 12 := by decide
    set t' := Loader.mapFresh a frame cr3 t (xecAddr a (k * PAGE_SIZE)) (PAGE_USER ||| PAGE_WRITABLE) with ht'
    have hmore : t.allocs + 1 ≤ t'.allocs := mapFresh_allocs hflags
    have hrest : t'.allocs ≤ (Loader.xecMapLoop a frame cr3 n (k + 1) t').allocs :=
      (Nat.le_add_right _ n).trans xecMapLoop_allocs
    have hone := h.mapFresh hle (by omega) hflags (hf.mono hrest)
    have hnext := ih hone (hle.trans ((Nat.le_succ _).trans hmore)) (by omega) hf
    rwa [Nat.add_right_comm k 1 n] at hnext

/-! ### The copy -/

theorem Flat.mmu_page (h : Flat a frame cr3 t₀ g k B t) {x : ℕ} (hx : x < k * PAGE_SIZE)
    (hc : canonical a (xecAddr a x)) :
    (mmu a cr3 t (xecAddr a x)).map Prod.fst = some (g (x / PAGE_SIZE) + x % PAGE_SIZE) := by
  have hoff : x % PAGE_SIZE < PAGE_SIZE := Nat.mod_lt _ (by decide)
  have hsplit : x / PAGE_SIZE * PAGE_SIZE + x % PAGE_SIZE = x := Nat.div_add_mod' x PAGE_SIZE
  obtain ⟨hpage, hmod⟩ := xecAddr_pages (a := a) (i := x / PAGE_SIZE) hoff
  rw [hsplit] at hpage hmod
  have hi : x / PAGE_SIZE < k := Nat.div_lt_of_lt_mul (by rwa [Nat.mul_comm])
  rw [mmu_fst, if_pos hc, h.page _ hi _ hpage, hmod]
  rfl

theorem Flat.store {i o : ℕ} (hf : Frames a frame (root a cr3) t.allocs) (h : Flat a frame cr3 t₀ g k B t)
    (hi : i < k) (ho : o < PAGE_SIZE) (y : UInt8) :
    Flat a frame cr3 t₀ g k (Function.update B (i * PAGE_SIZE + o) y)
      { t with mem := Function.update t.mem (g i + o) y } := by
  have haligned (j : ℕ) (hj : j < k) : g j % PAGE_SIZE = 0 := (h.data j hj).aligned hf (le_refl _)
  have hkeep (u : ℕ) (hu : ReachedTable a (root a cr3) t u) :
      ∀ x ∈ Span u PAGE_SIZE, Function.update t.mem (g i + o) y x = t.mem x := by
    intro x hx
    apply Function.update_of_ne
    rintro rfl
    have hne : g i ≠ u := fun he => (h.data i hi).apart (he ▸ hu)
    exact not_mem_page (haligned i hi) (hu.aligned hf h.tree (le_refl _)) hne ho hx
  refine ⟨tree_congr hkeep (le_refl _) h.tree, h.table, h.upper.trans (upperKept_congr hkeep), ?_, ?_, ?_, h.fresh,
    h.distinct, ?_⟩
  · intro j hj v hv
    rw [leafEntry_congr hkeep]
    exact h.page j hj v hv
  · intro v hv
    rw [leafEntry_congr hkeep]
    exact h.other v hv
  · intro j hj
    exact ⟨(h.data j hj).given, fun hreach => (h.data j hj).apart (reached_congr hkeep hreach)⟩
  · intro j hj o' ho'
    change Function.update t.mem (g i + o) y (g j + o') = _
    by_cases hat : j * PAGE_SIZE + o' = i * PAGE_SIZE + o
    · have hji : j = i := by
        rw [PAGE_SIZE] at *
        omega
      subst hji
      have hoo : o' = o := Nat.add_left_cancel hat
      rw [hoo, Function.update_self, Function.update_self]
    · rw [Function.update_of_ne hat, Function.update_of_ne, h.bytes j hj o' ho']
      intro he
      by_cases hji : j = i
      · subst hji
        exact hat (by rw [Nat.add_left_cancel he])
      · have hne : g j ≠ g i := fun hg => hji (h.distinct j hj i hi hg)
        apply not_mem_page (haligned j hj) (haligned i hi) hne ho'
        rw [he]
        exact ⟨by omega, by omega⟩

theorem Flat.storeByte {s : State} {x : ℕ} (hf : Frames a frame (root a cr3) s.tables.allocs)
    (h : Flat a frame cr3 t₀ g k B s.tables) (hx : x < k * PAGE_SIZE) (hc : canonical a (xecAddr a x)) (y : UInt8) :
    Flat a frame cr3 t₀ g k (Function.update B x y) (storeByte a cr3 s (xecAddr a x) y).tables ∧
      ∀ z ∈ (Loader.storeByte a cr3 s (xecAddr a x) y).stores, z ∈ s.stores ∨ z.rights ≠ none := by
  have hpage := h.mmu_page hx hc
  obtain ⟨⟨phys, rights⟩, hmmu, hphys⟩ := Option.map_eq_some_iff.mp hpage
  have hi : x / PAGE_SIZE < k := Nat.div_lt_of_lt_mul (by rwa [Nat.mul_comm])
  have hstore := h.store hf hi (Nat.mod_lt x (by decide)) y
  rw [Nat.div_add_mod', ← hphys] at hstore
  unfold Loader.storeByte
  rw [hmmu]
  refine ⟨hstore, fun z hz => ?_⟩
  rcases List.mem_cons.mp hz with rfl | hz
  · exact .inr (Option.some_ne_none _)
  · exact .inl hz

-- `B` and the bytes from `i` to `i + n` of `src` on top of it
theorem Flat.fill {s : State} {n i : ℕ} (src : ℕ → UInt8) (hf : Frames a frame (root a cr3) s.tables.allocs)
    (h : Flat a frame cr3 t₀ g k B s.tables) (hn : i + n ≤ k * PAGE_SIZE)
    (hc : ∀ x, i ≤ x → x < i + n → canonical a (xecAddr a x)) :
    Flat a frame cr3 t₀ g k (fun x => if i ≤ x ∧ x < i + n then src x else B x)
        (fill a cr3 XEC_BASE_VADDR src n i s).tables ∧
      ∀ z ∈ (Loader.fill a cr3 XEC_BASE_VADDR src n i s).stores, z ∈ s.stores ∨ z.rights ≠ none := by
  induction n generalizing i B s with
  | zero =>
    have hnone : (fun x => if i ≤ x ∧ x < i + 0 then src x else B x) = B := by
      funext x
      rw [if_neg (by omega)]
    rw [hnone]
    exact ⟨h, fun z hz => .inl hz⟩
  | succ n ih =>
    obtain ⟨hone, hstores⟩ := h.storeByte hf (x := i) (by omega) (hc i (le_refl i) (by omega)) (src i)
    have hf' : Frames a frame (root a cr3) (Loader.storeByte a cr3 s (xecAddr a i) (src i)).tables.allocs := by
      rwa [storeByte_allocs]
    obtain ⟨hall, hstores'⟩ := ih (i := i + 1) hf' hone (by omega) fun x hx hx' => hc x (by omega) (by omega)
    have hbytes : (fun x => if i + 1 ≤ x ∧ x < i + 1 + n then src x else Function.update B i (src i) x) =
        fun x => if i ≤ x ∧ x < i + (n + 1) then src x else B x := by
      funext x
      by_cases hx : x = i
      · rw [hx, if_neg (by omega), if_pos (by omega), Function.update_self]
      · rw [Function.update_of_ne hx]
        apply if_congr _ rfl rfl
        omega
    rw [hbytes] at hall
    refine ⟨hall, fun z hz => ?_⟩
    rcases hstores' z hz with hz' | hz'
    · exact hstores z hz'
    · exact .inr hz'

theorem fill_stores {dest n i : ℕ} {src : ℕ → UInt8} {s : State} {z : Store} (hz : z ∈ s.stores) :
    z ∈ (fill a cr3 dest src n i s).stores := by
  induction n generalizing i s with
  | zero => exact hz
  | succ n ih =>
    apply ih
    unfold Loader.storeByte
    split
    · exact List.mem_cons_of_mem _ hz
    · exact List.mem_cons_of_mem _ hz

theorem fill_missed {dest n i j : ℕ} {src : ℕ → UInt8} {s : State} (hi : i ≤ j) (hj : j < i + n)
    (hc : ¬ canonical a (a.wrap (dest + j))) :
    ⟨a.wrap (dest + j), none⟩ ∈ (fill a cr3 dest src n i s).stores := by
  induction n generalizing i s with
  | zero => omega
  | succ n ih =>
    rw [fill]
    by_cases hat : i = j
    · subst hat
      apply fill_stores
      have hnone : mmu a cr3 s.tables (a.wrap (dest + i)) = none := if_neg hc
      unfold Loader.storeByte
      rw [hnone]
      exact List.mem_cons_self
    · exact ih (by omega) (by omega)

/-! ### The whole load -/

theorem xecPages_range {b : Buffer a} (hb : b.size ≠ 0) (hc : ∀ x < b.size, canonical a (xecAddr a x)) :
    b.size ≤ xecPages b * PAGE_SIZE ∧ xecPages b ≤ fanout a ^ (levels a + 1) ∧
      ∀ x < xecPages b * PAGE_SIZE, canonical a (xecAddr a x) := by
  have hsize := b.size_le
  refine ⟨?_, ?_⟩
  · simp only [xecPages, PAGE_SIZE]
    omega
  · cases a with
    | x86_64 =>
      -- the first address past the lower half would be stored to
      have hhalf : b.size ≤ 2 ^ 47 - XEC_BASE_VADDR := by
        by_contra hover
        have hlast := hc (2 ^ 47 - XEC_BASE_VADDR) (Nat.not_le.mp hover)
        exact absurd hlast (by decide)
      constructor
      · simp only [xecPages, fanout, levels, Arch.wordBytes, PAGE_SIZE, XEC_BASE_VADDR] at *
        omega
      · intro x hx
        left
        simp only [xecAddr, xecPages, Arch.wrap, Arch.wordBytes, Arch.wordBits, PAGE_SIZE, XEC_BASE_VADDR] at *
        omega
    | x86 =>
      constructor
      · simp only [xecPages, fanout, levels, Arch.wordBytes, Arch.wordBits, PAGE_SIZE] at *
        omega
      · intro x _
        exact trivial

def xecByte (b : Buffer a) (x : ℕ) : UInt8 := if x < b.size then b.byte x else 0

theorem xecLoad_flat {b : Buffer a} (hb : b.size ≠ 0) (hc : ∀ x < b.size, canonical a (xecAddr a x))
    (htree : Tree a frame (root a cr3) t) (htable : t.kernelTable = 0 ∨ t.kernelTable = root a cr3)
    (hf : Frames a frame (root a cr3) (xecLoad frame cr3 b ⟨t, []⟩).2.tables.allocs) :
    (∃ g, Flat a frame cr3 t g (xecPages b) (xecByte b) (xecLoad frame cr3 b ⟨t, []⟩).2.tables) ∧
      ReturnsZero (xecLoad frame cr3 b ⟨t, []⟩) := by
  obtain ⟨hsize, hpages, -⟩ := xecPages_range hb hc
  unfold xecLoad at hf ⊢
  rw [if_neg hb] at hf ⊢
  dsimp only at hf ⊢
  rw [fill_allocs] at hf
  have hinit : Flat a frame cr3 t (fun _ => 0) 0 (fun _ => 0) t := Flat.init htree htable
  obtain ⟨g, hloop⟩ := hinit.xecMapLoop (le_refl _) (by rwa [Nat.zero_add]) hf
  rw [Nat.zero_add] at hloop
  have hbound : 0 + b.size ≤ xecPages b * PAGE_SIZE := by omega
  have hfill := hloop.fill (s := ⟨xecMapLoop a frame cr3 (xecPages b) 0 t, []⟩) b.byteAt hf hbound
    fun x _ hx => hc x (by omega)
  have hbytes : (fun x => if 0 ≤ x ∧ x < 0 + b.size then b.byteAt x else 0) = xecByte b := by
    funext x
    unfold xecByte Buffer.byteAt
    by_cases hx : x < b.size
    · have hword : x < 2 ^ a.wordBits := by
        have := b.size_le
        omega
      rw [if_pos (by omega), if_pos hx, Arch.wrap_of_lt hword]
    · rw [if_neg (by omega), if_neg hx]
  rw [hbytes] at hfill
  refine ⟨⟨g, hfill.1⟩, Option.some_ne_none _, fun z hz => ?_⟩
  exact (hfill.2 z hz).resolve_left List.not_mem_nil

theorem canonical_of_returnsZero {b : Buffer a} (hzero : ReturnsZero (xecLoad frame cr3 b ⟨t, []⟩)) {x : ℕ}
    (hx : x < b.size) : canonical a (xecAddr a x) := by
  by_contra hc
  have hb : b.size ≠ 0 := by omega
  have hmissed : (⟨xecAddr a x, none⟩ : Store) ∈ (xecLoad frame cr3 b ⟨t, []⟩).2.stores := by
    unfold xecLoad
    rw [if_neg hb]
    exact fill_missed (Nat.zero_le x) (by omega) hc
  exact hzero.2 _ hmissed rfl

/-! ### The tables and the allocator -/

structure TablesOf (a : Arch) (frame : ℕ → ℕ) (cr3 : ℕ) (l : List MapCall) (s t : Paging.State) : Prop where
  init : Init a cr3 s
  frames : Frames a frame (root a cr3) t.allocs
  table : t.kernelTable = (mapCalls a frame cr3 l s).kernelTable
  allocs : t.allocs = (mapCalls a frame cr3 l s).allocs
  kept : ∀ u ∈ tables frame (root a cr3) t.allocs, ∀ x ∈ Span u PAGE_SIZE, t.mem x = (mapCalls a frame cr3 l s).mem x

structure Continues (a : Arch) (frame : ℕ → ℕ) (cr3 : ℕ) (t : Paging.State) (p : Pmm.State) : Prop where
  frames : ∀ i, frame (t.allocs + i) = framesOf a p i
  null : 0 ∉ p.freeSet
  used : ∀ u ∈ tables frame (root a cr3) t.allocs, u / PAGE_SIZE ∉ p.freeSet

theorem TablesOf.tree {l : List MapCall} {s : Paging.State} (h : TablesOf a frame cr3 l s t) :
    Tree a frame (root a cr3) t ∧ (t.kernelTable = 0 ∨ t.kernelTable = root a cr3) := by
  have hf : Frames a frame (root a cr3) (mapCalls a frame cr3 l s).allocs := by
    rw [← h.allocs]
    exact h.frames
  have hcalls := mapCalls_calls h.init hf
  refine ⟨?_, by rw [h.table]; exact hcalls.table⟩
  apply tree_congr (t := mapCalls a frame cr3 l s) _ h.allocs.ge hcalls.tree
  rintro u ⟨q, hq, hu⟩ x hx
  apply h.kept u _ x hx
  rw [h.allocs]
  exact hcalls.tree.owned q u hq hu

theorem framesOf_free {p : Pmm.State} (hnw : p.totalPages * PAGE_SIZE ≤ 2 ^ a.wordBits) {i : ℕ}
    (hi : i < p.freeSet.card) : ∃ j ∈ p.freeSet, framesOf a p i = j * PAGE_SIZE := by
  rcases drawn_cases hnw i with ⟨hnone, -⟩ | ⟨j, hj, he, -⟩
  · have hcard := drawn_card hnw i
    rw [hnone, Finset.card_empty] at hcard
    omega
  · exact ⟨j, drawn_subset hnw (Nat.zero_le i) hj, he⟩

theorem Continues.frames_all {p : Pmm.State} (h : Continues a frame cr3 t p)
    (hold : Frames a frame (root a cr3) t.allocs) (hnw : p.totalPages * PAGE_SIZE ≤ 2 ^ a.wordBits) :
    Frames a frame (root a cr3) (t.allocs + p.freeSet.card) := by
  have hnew : Frames a (framesOf a p) (root a cr3) p.freeSet.card :=
    framesOf_frames hnw (le_refl _) h.null root_aligned (h.used _ (.inl rfl))
  have hcases (i : ℕ) (hi : i < t.allocs + p.freeSet.card) :
      i < t.allocs ∨ ∃ j < p.freeSet.card, i = t.allocs + j ∧ frame i = framesOf a p j := by
    by_cases hlt : i < t.allocs
    · exact .inl hlt
    · refine .inr ⟨i - t.allocs, by omega, by omega, ?_⟩
      rw [← h.frames, Nat.add_sub_cancel' (Nat.not_lt.mp hlt)]
  -- an earlier frame is used, a new one is free
  have hapart (i j : ℕ) (hi : i < t.allocs) (hj : j < p.freeSet.card) : frame i ≠ framesOf a p j := by
    obtain ⟨k, hk, he⟩ := framesOf_free hnw hj
    intro hsame
    apply h.used (frame i) (.inr ⟨i, hi, rfl⟩)
    rw [hsame, he, Nat.mul_div_cancel _ (by decide)]
    exact hk
  refine ⟨root_aligned, ?_, ?_, ?_, ?_, ?_⟩
  · intro i hi
    rcases hcases i hi with hlt | ⟨j, hj, -, he⟩
    · exact hold.nonnull i hlt
    · rw [he]
      exact hnew.nonnull j hj
  · intro i hi
    rcases hcases i hi with hlt | ⟨j, hj, -, he⟩
    · exact hold.aligned i hlt
    · rw [he]
      exact hnew.aligned j hj
  · intro i hi
    rcases hcases i hi with hlt | ⟨j, hj, -, he⟩
    · exact hold.word i hlt
    · rw [he]
      exact hnew.word j hj
  · intro i hi i' hi' hsame
    rcases hcases i hi with hlt | ⟨j, hj, hij, he⟩
    · rcases hcases i' hi' with hlt' | ⟨j', hj', -, he'⟩
      · exact hold.distinct i hlt i' hlt' hsame
      · rw [he'] at hsame
        exact absurd hsame (hapart i j' hlt hj')
    · rcases hcases i' hi' with hlt' | ⟨j', hj', hij', he'⟩
      · rw [he] at hsame
        exact absurd hsame.symm (hapart i' j hlt' hj)
      · rw [he, he'] at hsame
        rw [hij, hij', hnew.distinct j hj j' hj' hsame]
  · intro i hi
    rcases hcases i hi with hlt | ⟨j, hj, -, he⟩
    · exact hold.not_root i hlt
    · rw [he]
      exact hnew.not_root j hj

structure FlatImage (a : Arch) (cr3 : ℕ) (b : Buffer a) (p : Pmm.State) (t t' : Paging.State) : Prop where
  bytes : ∀ x < xecPages b * PAGE_SIZE, readByte a cr3 t' (xecAddr a x) = some (if x < b.size then b.byte x else 0)
  backed : ∃ page : ℕ → ℕ, (∀ i < xecPages b, page i ∈ p.freeSet) ∧
    (∀ i < xecPages b, ∀ j < xecPages b, page i = page j → i = j) ∧
    ∀ x < xecPages b * PAGE_SIZE, (mmu a cr3 t' (xecAddr a x)).map Prod.fst =
      some (page (x / PAGE_SIZE) * PAGE_SIZE + x % PAGE_SIZE)
  other : ∀ v < 2 ^ a.wordBits, (∀ x < xecPages b * PAGE_SIZE, v ≠ xecAddr a x) → mmu a cr3 t' v = mmu a cr3 t v

theorem Flat.mmu_other {n : ℕ} (h : Flat a frame cr3 t₀ g n B t) (hc : ∀ x < n * PAGE_SIZE, canonical a (xecAddr a x))
    {v : ℕ} (hv : v < 2 ^ a.wordBits) (hout : ∀ x < n * PAGE_SIZE, v ≠ xecAddr a x) :
    mmu a cr3 t v = mmu a cr3 t₀ v := by
  by_cases hcv : canonical a v
  · apply mmu_kept h.upper
    apply h.other v
    intro i hi hpage
    have hoff : v % PAGE_SIZE < PAGE_SIZE := Nat.mod_lt _ (by decide)
    obtain ⟨hsame, hmod⟩ := xecAddr_pages (a := a) (i := i) hoff
    have hx : i * PAGE_SIZE + v % PAGE_SIZE < n * PAGE_SIZE := by
      have hle := Nat.mul_le_mul_right PAGE_SIZE (Nat.succ_le_of_lt hi)
      rw [Nat.succ_mul] at hle
      omega
    apply hout _ hx
    exact canonical_inj hcv (hc _ hx) hv (Nat.mod_lt _ (by positivity)) (hpage.trans hsame.symm) hmod.symm
  · have hnone (t : Paging.State) : mmu a cr3 t v = none := if_neg hcv
    rw [hnone, hnone]

theorem xecLoad_image {b : Buffer a} {l : List MapCall} {s : Paging.State} {p : Pmm.State} {memSize : ℕ}
    {bitmap : Mem} {calls : List Pmm.Event} (hb : b.size ≠ 0) (ht : TablesOf a frame cr3 l s t)
    (hmem : memSize < 2 ^ a.wordBits) (hpmm : Steps (Pmm.Step a) (pmmInit a memSize bitmap) calls p)
    (hp : Continues a frame cr3 t p)
    (henough : (xecLoad frame cr3 b ⟨t, []⟩).2.tables.allocs ≤ t.allocs + p.freeSet.card)
    (hzero : ReturnsZero (xecLoad frame cr3 b ⟨t, []⟩)) :
    FlatImage a cr3 b p t (xecLoad frame cr3 b ⟨t, []⟩).2.tables := by
  have hsound : Sound a memSize p :=
    hpmm.invariant (fun _ _ _ hs hstep => step_sound hmem hs hstep) (pmmInit_sound bitmap hmem)
  have hnw := hsound.total_le hmem
  have hf := (hp.frames_all ht.frames hnw).mono henough
  have hcanonical (x : ℕ) (hx : x < b.size) : canonical a (xecAddr a x) := canonical_of_returnsZero hzero hx
  obtain ⟨hsize, hpages, hrange⟩ := xecPages_range hb hcanonical
  obtain ⟨htree, htable⟩ := ht.tree
  obtain ⟨⟨g, hflat⟩, -⟩ := xecLoad_flat hb hcanonical htree htable hf
  have hfree (i : ℕ) (hi : i < xecPages b) : ∃ j ∈ p.freeSet, g i = j * PAGE_SIZE := by
    obtain ⟨j, hj, hj', he⟩ := hflat.fresh i hi
    rw [he, ← Nat.add_sub_cancel' hj, hp.frames]
    exact framesOf_free hnw (by omega)
  have haligned (i : ℕ) (hi : i < xecPages b) : g i / PAGE_SIZE ∈ p.freeSet ∧ g i / PAGE_SIZE * PAGE_SIZE = g i := by
    obtain ⟨j, hj, he⟩ := hfree i hi
    rw [he, Nat.mul_div_cancel _ (by decide)]
    exact ⟨hj, rfl⟩
  have hindex {x : ℕ} (hx : x < xecPages b * PAGE_SIZE) : x / PAGE_SIZE < xecPages b :=
    Nat.div_lt_of_lt_mul (by rwa [Nat.mul_comm])
  refine ⟨?_, ⟨fun i => g i / PAGE_SIZE, fun i hi => (haligned i hi).1, ?_, ?_⟩, ?_⟩
  · intro x hx
    have hmmu := hflat.mmu_page hx (hrange x hx)
    obtain ⟨y, hy, hphys⟩ := Option.map_eq_some_iff.mp hmmu
    have hbyte := hflat.bytes _ (hindex hx) _ (Nat.mod_lt x (by decide))
    rw [Nat.div_add_mod', ← hphys] at hbyte
    unfold readByte look
    rw [hy, Option.map_some, Option.map_some, hbyte]
    rfl
  · intro i hi j hj hsame
    apply hflat.distinct i hi j hj
    rw [← (haligned i hi).2, ← (haligned j hj).2]
    exact congrArg (· * PAGE_SIZE) hsame
  · intro x hx
    rw [hflat.mmu_page hx (hrange x hx), (haligned _ (hindex hx)).2]
  · intro v hv hout
    exact hflat.mmu_other hrange hv hout

theorem manyPages_continues : Continues .x86_64 (framesOf .x86_64 manyPages) 0x1000 emptyTables manyPages where
  frames i := congrArg (framesOf .x86_64 manyPages) (Nat.zero_add i)
  null := by set_option maxRecDepth 10000 in decide
  used := by
    rintro u (rfl | ⟨i, hi, -⟩)
    · set_option maxRecDepth 10000 in decide
    · exact absurd hi (Nat.not_lt_zero i)

theorem emptyTables_tablesOf : TablesOf .x86_64 frame 0x1000 [] emptyTables emptyTables where
  init := emptyTables_init
  frames := ⟨root_aligned, fun _ hi => absurd hi (Nat.not_lt_zero _), fun _ hi => absurd hi (Nat.not_lt_zero _),
    fun _ hi => absurd hi (Nat.not_lt_zero _), fun _ hi => absurd hi (Nat.not_lt_zero _),
    fun _ hi => absurd hi (Nat.not_lt_zero _)⟩
  table := rfl
  allocs := rfl
  kept _ _ _ _ := rfl

def countingBytes : Buffer .x86_64 := ⟨fun x => .ofNat x, 5000, by decide⟩

theorem countingBytes_enough :
    (xecLoad (framesOf .x86_64 manyPages) 0x1000 countingBytes ⟨emptyTables, []⟩).2.tables.allocs ≤
      emptyTables.allocs + manyPages.freeSet.card := by
  have hfew : emptyTables.allocs + xecPages countingBytes * (levels .x86_64 + 1) ≤
      emptyTables.allocs + manyPages.freeSet.card := by set_option maxRecDepth 10000 in decide
  exact xecLoad_allocs_le.trans hfew

theorem xecLoad_image_counting : xecPages countingBytes = 2 ∧
    FlatImage .x86_64 0x1000 countingBytes manyPages emptyTables
      (xecLoad (framesOf .x86_64 manyPages) 0x1000 countingBytes ⟨emptyTables, []⟩).2.tables := by
  have htables : TablesOf .x86_64 (framesOf .x86_64 manyPages) 0x1000 [] emptyTables emptyTables :=
    emptyTables_tablesOf
  have hcanonical (x : ℕ) (hx : x < countingBytes.size) : canonical .x86_64 (xecAddr .x86_64 x) := by
    have hsize : x < 5000 := hx
    have haddr : xecAddr .x86_64 x ≤ XEC_BASE_VADDR + x := Nat.mod_le _ _
    have hbase : XEC_BASE_VADDR = 0x40000000 := rfl
    left
    omega
  have hf : Frames .x86_64 (framesOf .x86_64 manyPages) (root .x86_64 0x1000)
      (xecLoad (framesOf .x86_64 manyPages) 0x1000 countingBytes ⟨emptyTables, []⟩).2.tables.allocs :=
    (manyPages_continues.frames_all htables.frames (by set_option maxRecDepth 10000 in decide)).mono
      countingBytes_enough
  obtain ⟨htree, htable⟩ := htables.tree
  exact ⟨rfl, xecLoad_image (by decide) htables (by decide) manyPages_run manyPages_continues countingBytes_enough
    (xecLoad_flat (by decide) hcanonical htree htable hf).2⟩

end JurkOS.Kernel.Loader
