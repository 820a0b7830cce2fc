import JurkOS.Kernel.Loader.MapRights

/-!
A fresh page mapped into tables of any contents: which tables stay, which frames
are left alone, and what the processor then finds.
-/

namespace JurkOS.Kernel.Loader

open Lib Lib.Memory Lib.Radix Paging Pmm

variable (a : Arch) (frame : ℕ → ℕ) (r : ℕ)

structure DataFrame (t : Paging.State) (f : ℕ) : Prop where
  given : ∃ i < t.allocs, f = frame i
  apart : ¬ ReachedTable a r t f

def UpperKept (t t' : Paging.State) : Prop :=
  ∀ (q : List (Index a)) u i, q.length < levels a → walk (child a) (entries a t.mem) r q = some u →
    child a (entries a t.mem u i) ≠ none → entries a t'.mem u i = entries a t.mem u i

def UpperAdded (t t' : Paging.State) : Prop :=
  ∀ (q : List (Index a)) u i, q.length < levels a → walk (child a) (entries a t'.mem) r q = some u →
    child a (entries a t'.mem u i) ≠ none →
      walk (child a) (entries a t.mem) r q = some u ∧ entries a t'.mem u i = entries a t.mem u i ∨
        ∃ j f, t.allocs ≤ j ∧ j < t'.allocs ∧
          entries a t'.mem u i = frame j ||| (PAGE_WRITABLE ||| (f &&& PAGE_USER)) ||| PAGE_PRESENT

structure Keeps (t t' : Paging.State) : Prop where
  tree : Tree a frame r t'
  allocs : t.allocs ≤ t'.allocs
  upper : UpperKept a r t t'
  added : UpperAdded a frame r t t'
  data : ∀ f, DataFrame a frame r t f → DataFrame a frame r t' f ∧ ∀ o < PAGE_SIZE, t'.mem (f + o) = t.mem (f + o)

variable {a frame r} {t t' t'' : Paging.State}

theorem UpperKept.walk (h : UpperKept a r t t') {q : List (Index a)} {u : ℕ} (hq : q.length ≤ levels a)
    (hu : walk (child a) (entries a t.mem) r q = some u) : Radix.walk (child a) (entries a t'.mem) r q = some u := by
  induction q using List.reverseRecOn generalizing u with
  | nil => exact hu
  | append_singleton q j ih =>
    rw [List.length_append, List.length_singleton] at hq
    rw [walk_concat] at hu ⊢
    obtain ⟨w, hw, hchild⟩ := Option.bind_eq_some_iff.mp hu
    have hkept := h q w j (by omega) hw (by rw [hchild]; exact Option.some_ne_none u)
    rw [ih (by omega) hw, Option.bind_some, hkept]
    exact hchild

theorem UpperKept.trans (h : UpperKept a r t t') (h' : UpperKept a r t' t'') : UpperKept a r t t'' := by
  intro q u i hq hu hchild
  have hone := h q u i hq hu hchild
  rw [← hone] at hchild ⊢
  exact h' q u i hq (h.walk hq.le hu) hchild

theorem Keeps.refl (htree : Tree a frame r t) : Keeps a frame r t t where
  tree := htree
  allocs := le_refl _
  upper _ _ _ _ _ _ := rfl
  added _ _ _ _ hu _ := .inl ⟨hu, rfl⟩
  data _ hf := ⟨hf, fun _ _ => rfl⟩

theorem Keeps.trans (h : Keeps a frame r t t') (h' : Keeps a frame r t' t'') : Keeps a frame r t t'' where
  tree := h'.tree
  allocs := h.allocs.trans h'.allocs
  upper := h.upper.trans h'.upper
  added := by
    intro q u i hq hu hchild
    rcases h'.added q u i hq hu hchild with ⟨hu', hsame'⟩ | ⟨j, f, hj, hj', he⟩
    · rw [hsame'] at hchild ⊢
      rcases h.added q u i hq hu' hchild with hold | ⟨j, f, hj, hj', he⟩
      · exact .inl hold
      · exact .inr ⟨j, f, hj, hj'.trans_le h'.allocs, he⟩
    · exact .inr ⟨j, f, h.allocs.trans hj, hj', he⟩
  data := by
    intro f hf
    obtain ⟨hf', hbytes⟩ := h.data f hf
    obtain ⟨hf'', hbytes'⟩ := h'.data f hf'
    exact ⟨hf'', fun o ho => (hbytes' o ho).trans (hbytes o ho)⟩

theorem DataFrame.ne_fresh {f : ℕ} (hf : Frames a frame r (t.allocs + 1)) (h : DataFrame a frame r t f) :
    f ≠ frame t.allocs := by
  obtain ⟨i, hi, rfl⟩ := h.given
  intro he
  exact hi.ne (hf.distinct i (Nat.lt_succ_of_lt hi) t.allocs (Nat.lt_succ_self _) he)

theorem DataFrame.aligned {f k : ℕ} (hf : Frames a frame r k) (hk : t.allocs ≤ k) (h : DataFrame a frame r t f) :
    f % PAGE_SIZE = 0 := by
  obtain ⟨i, hi, rfl⟩ := h.given
  exact hf.aligned i (hi.trans_le hk)

theorem not_mem_page {f u o : ℕ} (hf : f % PAGE_SIZE = 0) (hu : u % PAGE_SIZE = 0) (hne : f ≠ u) (ho : o < PAGE_SIZE) :
    f + o ∉ Span u PAGE_SIZE := by
  rintro ⟨hlo, hhi⟩
  have hapart := pages_apart hu hf hne
  omega

theorem tree_congr {m : Mem} (hkeep : ∀ u, ReachedTable a r t u → ∀ x ∈ Span u PAGE_SIZE, m x = t.mem x)
    {n : ℕ} (hn : t.allocs ≤ n) {k : ℕ} (htree : Tree a frame r t) : Tree a frame r ⟨m, k, n⟩ where
  separated := htree.separated.congr fun q hq => reachedTable_congr hkeep hq
  owned := by
    intro q u hq hu
    change walk (child a) (entries a m) r q = some u at hu
    rw [reachedTable_congr hkeep hq] at hu
    apply (htree.owned q u hq hu).imp_right
    rintro ⟨i, hi, he⟩
    exact ⟨i, hi.trans_le hn, he⟩

theorem upperKept_congr {m : Mem} (hkeep : ∀ u, ReachedTable a r t u → ∀ x ∈ Span u PAGE_SIZE, m x = t.mem x)
    {n k : ℕ} : UpperKept a r t ⟨m, k, n⟩ :=
  fun q u _ hq hu _ => entries_congr (hkeep u ⟨q, hq.le, hu⟩)

theorem upperAdded_congr {m : Mem} (hkeep : ∀ u, ReachedTable a r t u → ∀ x ∈ Span u PAGE_SIZE, m x = t.mem x)
    {n k : ℕ} : UpperAdded a frame r t ⟨m, k, n⟩ := by
  intro q u i hq hu _
  change walk (child a) (entries a m) r q = some u at hu
  rw [reachedTable_congr hkeep hq.le] at hu
  exact .inl ⟨hu, entries_congr (hkeep u ⟨q, hq.le, hu⟩)⟩

theorem reached_congr {m : Mem} (hkeep : ∀ u, ReachedTable a r t u → ∀ x ∈ Span u PAGE_SIZE, m x = t.mem x)
    {n k u : ℕ} (h : ReachedTable a r ⟨m, k, n⟩ u) : ReachedTable a r t u := by
  obtain ⟨q, hq, hu⟩ := h
  change walk (child a) (entries a m) r q = some u at hu
  rw [reachedTable_congr hkeep hq] at hu
  exact ⟨q, hq, hu⟩

theorem leafEntry_congr {m : Mem} (hkeep : ∀ u, ReachedTable a r t u → ∀ x ∈ Span u PAGE_SIZE, m x = t.mem x)
    {n k : ℕ} (v : ℕ) : leafEntry a r ⟨m, k, n⟩ v = leafEntry a r t v := by
  apply entry_congr (d := levels a) _ (length_path v).le
  intro q u j hq hu
  exact entries_congr (hkeep u ⟨q, hq, hu⟩)

theorem take_keeps {m : Mem} (hf : Frames a frame r (t.allocs + 1)) (htree : Tree a frame r t)
    (hm : ChangedIn (Span (frame t.allocs) PAGE_SIZE) t.mem m) :
    Keeps a frame r t ⟨m, t.kernelTable, t.allocs + 1⟩ ∧
      DataFrame a frame r ⟨m, t.kernelTable, t.allocs + 1⟩ (frame t.allocs) := by
  have hkeep (u : ℕ) (hu : ReachedTable a r t u) : ∀ x ∈ Span u PAGE_SIZE, m x = t.mem x :=
    tables_kept hf htree hm hu
  refine ⟨⟨tree_congr hkeep (Nat.le_succ _) htree, Nat.le_succ _, upperKept_congr hkeep, upperAdded_congr hkeep, ?_⟩,
    ⟨t.allocs, Nat.lt_succ_self _, rfl⟩, ?_⟩
  · intro f hdata
    refine ⟨⟨?_, fun h => hdata.apart (reached_congr hkeep h)⟩, ?_⟩
    · obtain ⟨i, hi, he⟩ := hdata.given
      exact ⟨i, Nat.lt_succ_of_lt hi, he⟩
    · intro o ho
      apply hm
      apply not_mem_page _ (hf.aligned _ (Nat.lt_succ_self _)) (hdata.ne_fresh hf) ho
      exact hdata.aligned hf (Nat.le_succ _)
  · intro h
    obtain ⟨q, hq, hu⟩ := reached_congr hkeep h
    exact hf.fresh (htree.owned q _ hq hu)

theorem nextTable_keeps {pre : List (Index a)} {u flags : ℕ} {i : Index a}
    (hf : Frames a frame r (nextTable a frame t u i flags).2.allocs) (htree : Tree a frame r t)
    (hu : walk (child a) (entries a t.mem) r pre = some u) (hpre : pre.length < levels a) :
    Keeps a frame r t (nextTable a frame t u i flags).2 := by
  have hspec := (nextTable_spec i hf htree hu hpre).1
  rcases nextTable_cases hf htree hu hpre with ⟨hsame, -⟩ | ⟨hallocs, -, -, hgrown⟩
  · rw [hsame]
    exact Keeps.refl htree
  · rw [hallocs] at hf
    have haligned : frame t.allocs % PAGE_SIZE = 0 := hf.aligned _ (Nat.lt_succ_self _)
    have hreach : ReachedTable a r t u := ⟨pre, hpre.le, hu⟩
    refine ⟨hspec.tree, by omega, ?_, ?_, ?_⟩
    · intro q w j hq hw hchild
      apply hgrown.keep q w j hq.le hw
      by_contra hboth
      rw [not_or, not_not, not_not] at hboth
      obtain ⟨rfl, rfl⟩ := hboth
      exact hchild hgrown.empty
    · intro q w j hq hw hchild
      rw [hgrown.walk child_zero htree.separated hq.le] at hw
      split_ifs at hw with hnew
      · rw [← Option.some.inj hw, hgrown.blank, child_zero] at hchild
        exact absurd rfl hchild
      · by_cases hat : w = u ∧ j = i
        · obtain ⟨rfl, rfl⟩ := hat
          refine .inr ⟨t.allocs, flags, le_refl _, by omega, ?_⟩
          exact nextTable_entry (hf.word _ (Nat.lt_succ_self _)) hgrown.empty
        · rw [not_and_or] at hat
          exact .inl ⟨hw, hgrown.keep q w j hq.le hw hat⟩
    · intro f hdata
      have hfresh := hdata.ne_fresh hf
      have hpage := hdata.aligned hf (Nat.le_succ _)
      refine ⟨⟨?_, ?_⟩, fun o ho => ?_⟩
      · obtain ⟨j, hj, he⟩ := hdata.given
        exact ⟨j, by omega, he⟩
      · rintro ⟨q, hq, hw⟩
        rw [hgrown.walk child_zero htree.separated hq] at hw
        split_ifs at hw
        · exact hfresh (Option.some.inj hw).symm
        · exact hdata.apart ⟨q, hq, hw⟩
      · have hne : f ≠ u := fun he => hdata.apart (he ▸ hreach)
        have htable := hreach.aligned hf htree (Nat.le_succ _)
        exact nextTable_mem (not_mem_page hpage htable hne ho) (not_mem_page hpage haligned hfresh ho)

theorem descend_keeps (pre : List (Index a)) {p : List (Index a)} {u flags : ℕ}
    (hf : Frames a frame r (descend a frame flags p u t).2.allocs) (htree : Tree a frame r t)
    (hu : walk (child a) (entries a t.mem) r pre = some u) (hlen : pre.length + p.length = levels a) :
    Keeps a frame r t (descend a frame flags p u t).2 := by
  induction p generalizing pre u t with
  | nil => exact Keeps.refl htree
  | cons i p ih =>
    rw [List.length_cons] at hlen
    have hfn : Frames a frame r (nextTable a frame t u i flags).2.allocs := hf.mono (descend_allocs _)
    have hone := nextTable_keeps hfn htree hu (by omega)
    have hwalk := (nextTable_spec i hfn htree hu (by omega)).2
    apply hone.trans
    exact ih _ hf hone.tree hwalk (by rw [List.length_append, List.length_singleton]; omega)

theorem writeLeaf_keeps {u v : ℕ} (e : ℕ) (hf : Frames a frame r t.allocs) (htree : Tree a frame r t)
    (hu : walk (child a) (entries a t.mem) r (path a v) = some u) :
    Keeps a frame r t (writeEntry a t u (leaf a v) e) := by
  have hwalk (q : List (Index a)) (hq : q.length ≤ levels a) := writeLeaf_walk e hf htree hu hq
  have hreach : ReachedTable a r t u := ⟨path a v, (length_path v).le, hu⟩
  have hupper (q : List (Index a)) (w : ℕ) (j : Index a) (hq : q.length < levels a)
      (hw : walk (child a) (entries a t.mem) r q = some w) :
      entries a (writeEntry a t u (leaf a v) e).mem w j = entries a t.mem w j := by
    apply writeLeaf_keep e hf htree hu hq.le hw
    left
    rintro rfl
    have hsame := htree.separated q (path a v) w hq.le (length_path v).le hw hu
    rw [hsame, length_path] at hq
    exact lt_irrefl _ hq
  refine ⟨⟨htree.separated.congr hwalk, ?_⟩, le_refl _, fun q w j hq hw _ => hupper q w j hq hw, ?_, ?_⟩
  · intro q w hq hw
    rw [hwalk q hq] at hw
    exact htree.owned q w hq hw
  · intro q w j hq hw _
    rw [hwalk q hq.le] at hw
    exact .inl ⟨hw, hupper q w j hq hw⟩
  · intro f hdata
    refine ⟨⟨hdata.given, ?_⟩, fun o ho => ?_⟩
    · rintro ⟨q, hq, hw⟩
      rw [hwalk q hq] at hw
      exact hdata.apart ⟨q, hq, hw⟩
    · have hindex := wordBytes_mul_index (leaf a v)
      have hne : f ≠ u := fun he => hdata.apart (he ▸ hreach)
      have houtside := not_mem_page (hdata.aligned hf (le_refl _)) (hreach.aligned hf htree (le_refl _)) hne ho
      apply store_changedIn
      rintro ⟨hlo, hhi⟩
      exact houtside ⟨by omega, by omega⟩

variable {cr3 : ℕ}

theorem vmmMapPage_keeps {phys v flags : ℕ}
    (hf : Frames a frame (root a cr3) (vmmMapPage a frame cr3 t phys v flags).allocs)
    (htree : Tree a frame (root a cr3) t) (htable : t.kernelTable = 0 ∨ t.kernelTable = root a cr3)
    (hword : (phys &&& frameMask a) ||| leafFlags a flags ||| PAGE_PRESENT < 2 ^ a.wordBits) :
    Keeps a frame (root a cr3) t (vmmMapPage a frame cr3 t phys v flags) ∧
      (vmmMapPage a frame cr3 t phys v flags).kernelTable = root a cr3 ∧
      ∀ w, leafEntry a (root a cr3) (vmmMapPage a frame cr3 t phys v flags) w =
        if pageNumber a w = pageNumber a v then (phys &&& frameMask a) ||| leafFlags a flags ||| PAGE_PRESENT
        else leafEntry a (root a cr3) t w := by
  rw [vmmMapPage_flags] at hf ⊢
  have hstart : (start a cr3 t).kernelTable = root a cr3 := by
    unfold start
    split_ifs with hzero
    · rfl
    · exact htable.resolve_left hzero
  have hfirst : Keeps a frame (root a cr3) t (start a cr3 t) := by
    unfold start
    split_ifs
    · exact ⟨⟨htree.separated, htree.owned⟩, le_refl _, fun _ _ _ _ _ _ => rfl, fun _ _ _ _ hu _ => .inl ⟨hu, rfl⟩,
        fun _ h => ⟨⟨h.given, h.apart⟩, fun _ _ => rfl⟩⟩
    · exact Keeps.refl htree
  have hleaf₁ (w : ℕ) : leafEntry a (root a cr3) (start a cr3 t) w = leafEntry a (root a cr3) t w := by
    unfold leafEntry
    rw [start_mem]
  set t₁ := start a cr3 t
  have htop : walk (child a) (entries a t₁.mem) (root a cr3) [] = some t₁.kernelTable := by rw [walk, hstart]
  have hlen : ([] : List (Index a)).length + (path a v).length = levels a := by
    rw [length_path, List.length_nil, Nat.zero_add]
  have hfd : Frames a frame (root a cr3) (descend a frame flags (path a v) t₁.kernelTable t₁).2.allocs := hf
  obtain ⟨hext, hwalk⟩ := descend_spec [] (path a v) hfd hfirst.tree htop hlen
  have hdescend := descend_keeps [] hfd hfirst.tree htop hlen
  have hwrite := writeLeaf_keeps ((phys &&& frameMask a) ||| leafFlags a flags ||| PAGE_PRESENT) hfd hext.tree hwalk
  refine ⟨hfirst.trans (hdescend.trans hwrite), hext.table.trans hstart, fun w => ?_⟩
  rw [leafEntry_writeEntry hfd hext.tree hwalk hword]
  have hsame : leafEntry a (root a cr3) (descend a frame flags (path a v) t₁.kernelTable t₁).2 w =
      leafEntry a (root a cr3) t₁ w := hext.entry _ _ (length_path w)
  rw [hsame, hleaf₁]

variable (a frame cr3) in
structure MapsFresh (v : ℕ) (t t' : Paging.State) : Prop where
  keeps : Keeps a frame (root a cr3) t t'
  table : t'.kernelTable = root a cr3
  page : ∀ w, pageNumber a w = pageNumber a v → child a (leafEntry a (root a cr3) t' w) = some (frame t.allocs)
  other : ∀ w, pageNumber a w ≠ pageNumber a v → leafEntry a (root a cr3) t' w = leafEntry a (root a cr3) t w
  data : DataFrame a frame (root a cr3) t' (frame t.allocs)
  zero : ∀ o < PAGE_SIZE, t'.mem (frame t.allocs + o) = 0

theorem mapFresh_mapsFresh {v flags : ℕ} (hflags : flags < 2 ^ 12)
    (hf : Frames a frame (root a cr3) (mapFresh a frame cr3 t v flags).allocs)
    (htree : Tree a frame (root a cr3) t) (htable : t.kernelTable = 0 ∨ t.kernelTable = root a cr3) :
    MapsFresh a frame cr3 v t (mapFresh a frame cr3 t v flags) := by
  have hfirst : Frames a frame (root a cr3) (t.allocs + 1) := hf.mono (mapFresh_allocs hflags)
  have haligned : frame t.allocs % PAGE_SIZE = 0 := hfirst.aligned _ (Nat.lt_succ_self _)
  have hphys : frame t.allocs < 2 ^ a.wordBits := hfirst.word _ (Nat.lt_succ_self _)
  have hframe : frame t.allocs &&& frameMask a = frame t.allocs := by
    have hpage : frame t.allocs % 2 ^ 12 = 0 := haligned
    rw [and_frameMask hphys]
    omega
  have hlow : leafFlags a flags = flags := leafFlags_of_lt hflags
  have hword : (frame t.allocs &&& frameMask a) ||| leafFlags a flags ||| PAGE_PRESENT < 2 ^ a.wordBits := by
    have hlow' : flags ||| PAGE_PRESENT < 2 ^ 12 := Nat.or_lt_two_pow hflags (by decide)
    have hw : 2 ^ 12 ≤ 2 ^ a.wordBits := Nat.pow_le_pow_right (by decide) (by cases a <;> decide)
    rw [hframe, hlow, Nat.or_assoc]
    exact Nat.or_lt_two_pow hphys (hlow'.trans_le hw)
  have hzero (o : ℕ) (ho : o < PAGE_SIZE) : memset 0 PAGE_SIZE t.mem (frame t.allocs) (frame t.allocs + o) = 0 := by
    have hspan : frame t.allocs + o ∈ Span (frame t.allocs) PAGE_SIZE := ⟨by omega, by omega⟩
    exact memset_apply hspan
  unfold mapFresh at hf ⊢
  dsimp only at hf ⊢
  have hclear := memset_changedIn 0 PAGE_SIZE t.mem (frame t.allocs)
  generalize memset 0 PAGE_SIZE t.mem (frame t.allocs) = m at *
  obtain ⟨htake, hdata⟩ := take_keeps hfirst htree hclear
  obtain ⟨hmap, htop, hleaf⟩ := vmmMapPage_keeps hf htake.tree htable hword
  obtain ⟨hdata', hbytes⟩ := hmap.data _ hdata
  refine ⟨htake.trans hmap, htop, fun w hw => ?_, fun w hw => ?_, hdata', fun o ho => (hbytes o ho).trans (hzero o ho)⟩
  · rw [hleaf, if_pos hw, hframe, hlow]
    exact child_entry haligned hphys hflags
  · rw [hleaf, if_neg hw]
    exact leafEntry_congr (fun u hu => tables_kept hfirst htree hclear hu) w

theorem mmuWalk_fst (m : Mem) (p : List (Index a)) (u R : ℕ) :
    (mmuWalk a m p u R).map Prod.fst = walk (child a) (entries a m) u p := by
  induction p generalizing u R with
  | nil => rfl
  | cons i p ih =>
    unfold mmuWalk walk
    by_cases he : entries a m u i &&& PAGE_PRESENT = 0
    · have hnone : child a (entries a m u i) = none := if_pos he
      rw [if_pos he, hnone]
      rfl
    · have hsome : child a (entries a m u i) = some (entries a m u i &&& frameMask a) := if_neg he
      rw [if_neg he, hsome]
      exact ih _ _

theorem walk_leafEntry (t : Paging.State) (v : ℕ) :
    walk (child a) (entries a t.mem) r (path a v ++ [leaf a v]) = child a (leafEntry a r t v) := by
  rw [walk_concat]
  unfold leafEntry
  cases hw : walk (child a) (entries a t.mem) r (path a v) with
  | none => rw [entry_of_none hw, child_zero, Option.bind_none]
  | some u => rw [entry_of_walk hw, Option.bind_some]

theorem mmu_fst (t : Paging.State) (v : ℕ) : (mmu a cr3 t v).map Prod.fst =
    if canonical a v then (child a (leafEntry a (root a cr3) t v)).map (· + v % PAGE_SIZE) else none := by
  unfold mmu
  split_ifs
  · rw [← walk_leafEntry, ← mmuWalk_fst t.mem _ (root a cr3) (PAGE_WRITABLE ||| PAGE_USER), Option.map_map,
      Option.map_map]
    rfl
  · rfl

theorem UpperKept.mmuWalk (h : UpperKept a r t t') {pre p : List (Index a)} {u w R : ℕ}
    (hpre : Radix.walk (child a) (entries a t.mem) r pre = some u) (hlen : pre.length + p.length ≤ levels a)
    (hw : Radix.walk (child a) (entries a t.mem) u p = some w) :
    mmuWalk a t'.mem p u R = mmuWalk a t.mem p u R := by
  induction p generalizing pre u R with
  | nil => rfl
  | cons i p ih =>
    rw [List.length_cons] at hlen
    rw [Radix.walk] at hw
    obtain ⟨u', hchild, hrest⟩ := Option.bind_eq_some_iff.mp hw
    have hpresent : ¬ entries a t.mem u i &&& PAGE_PRESENT = 0 := by
      intro hzero
      rw [child, if_pos hzero] at hchild
      cases hchild
    have hnext : Radix.walk (child a) (entries a t.mem) r (pre ++ [i]) = some u' := by
      rw [walk_concat, hpre]
      exact hchild
    have hkept := h pre u i (by omega) hpre (by rw [hchild]; exact Option.some_ne_none u')
    unfold Loader.mmuWalk
    simp only [hkept, if_neg hpresent]
    rw [child, if_neg hpresent, Option.some.injEq] at hchild
    rw [hchild]
    exact ih hnext (by rw [List.length_append, List.length_singleton]; omega) hrest

theorem mmu_kept (h : UpperKept a (root a cr3) t t') {v : ℕ}
    (hleaf : leafEntry a (root a cr3) t' v = leafEntry a (root a cr3) t v) : mmu a cr3 t' v = mmu a cr3 t v := by
  cases hchild : child a (leafEntry a (root a cr3) t v) with
  | none =>
    have hnone (t : Paging.State) (hc : child a (leafEntry a (root a cr3) t v) = none) : mmu a cr3 t v = none := by
      have hfst : (mmu a cr3 t v).map Prod.fst = _ := mmu_fst t v
      rw [hc, Option.map_none, ite_self] at hfst
      exact Option.map_eq_none_iff.mp hfst
    rw [hnone t hchild, hnone t' (by rw [hleaf]; exact hchild)]
  | some f =>
    have hwalk := walk_leafEntry (a := a) (r := root a cr3) t v
    rw [hchild, walk_concat] at hwalk
    obtain ⟨u, hu, -⟩ := Option.bind_eq_some_iff.mp hwalk
    have hu' := h.walk (length_path v).le hu
    have hentry : entries a t'.mem u (leaf a v) = entries a t.mem u (leaf a v) := by
      unfold leafEntry at hleaf
      rwa [entry_of_walk hu, entry_of_walk hu'] at hleaf
    have hnil : Radix.walk (child a) (entries a t.mem) (root a cr3) [] = some (root a cr3) := rfl
    have hupper := h.mmuWalk (p := path a v) (R := PAGE_WRITABLE ||| PAGE_USER) hnil
      (by rw [length_path, List.length_nil, Nat.zero_add]) hu
    have hlast (x : ℕ × ℕ)
        (hx : Loader.mmuWalk a t.mem (path a v) (root a cr3) (PAGE_WRITABLE ||| PAGE_USER) = some x) : x.1 = u := by
      have hfst := mmuWalk_fst t.mem (path a v) (root a cr3) (PAGE_WRITABLE ||| PAGE_USER)
      rw [hx, hu] at hfst
      exact Option.some.inj hfst
    have hmmu (t : Paging.State) : mmu a cr3 t v = if canonical a v then
        (Loader.mmuWalk a t.mem (path a v ++ [leaf a v]) (root a cr3) (PAGE_WRITABLE ||| PAGE_USER)).map
          fun r => (r.1 + v % PAGE_SIZE, r.2)
        else none := rfl
    rw [hmmu, hmmu, mmuWalk_append, mmuWalk_append, hupper]
    cases hx : Loader.mmuWalk a t.mem (path a v) (root a cr3) (PAGE_WRITABLE ||| PAGE_USER) with
    | none => rfl
    | some x => simp only [Option.bind_some, Loader.mmuWalk, hlast x hx, hentry]

end JurkOS.Kernel.Loader
