import JurkOS.Kernel.Loader.Space

/-!
Mapping a fresh frame, cleared or as it is. Until its entry is written the page
stands under a key that no address has.
-/

namespace JurkOS.Kernel.Loader

open Lib Lib.Memory Lib.Radix Paging Pmm

variable {a : Arch} {frame : ℕ → ℕ} {r : ℕ} {t : Paging.State} {A : Space} {F : ℕ → ℕ}

variable (a) in
def pendingKey : ℕ := fanout a ^ (levels a + 1)

theorem pageNumber_ne_pending (v : ℕ) : pageNumber a v ≠ pendingKey a :=
  (Nat.mod_lt _ (Nat.pow_pos (fanout_pos a))).ne

theorem tables_kept {m : Mem} (hf : Frames a frame r (t.allocs + 1)) (htree : Tree a frame r t)
    (hm : ChangedIn (Span (frame t.allocs) PAGE_SIZE) t.mem m) {u : ℕ} (hu : ReachedTable a r t u) :
    ∀ x ∈ Span u PAGE_SIZE, m x = t.mem x := by
  intro x hx
  apply hm
  intro hx'
  have hne : u ≠ frame t.allocs := by
    obtain ⟨q, hq, hw⟩ := hu
    rintro rfl
    exact hf.fresh (htree.owned q _ hq hw)
  have haligned := hu.aligned (hf.mono (Nat.le_succ _)) htree (le_refl _)
  have hapart := pages_apart (hf.aligned _ (Nat.lt_succ_self _)) haligned hne
  obtain ⟨h₁, h₂⟩ := hx
  obtain ⟨h₃, h₄⟩ := hx'
  omega

theorem Holds.frame_fresh {k : ℕ} {pg : Page} (hf : Frames a frame r (t.allocs + 1)) (h : Holds a frame r t A F)
    (hk : A k = some pg) : F k ≠ frame t.allocs := by
  obtain ⟨i, hi, he⟩ := h.given k pg hk
  rw [he]
  intro heq
  exact hi.ne (hf.distinct i (Nat.lt_succ_of_lt hi) t.allocs (Nat.lt_succ_self _) heq)

theorem Holds.pend {m : Mem} {pg : Page} (hf : Frames a frame r (t.allocs + 1)) (h : Holds a frame r t A F)
    (hflags : pg.flags < 2 ^ 12) (hm : ChangedIn (Span (frame t.allocs) PAGE_SIZE) t.mem m)
    (hbytes : ∀ o < PAGE_SIZE, m (frame t.allocs + o) = pg.bytes o) :
    Holds a frame r { t with mem := m, allocs := t.allocs + 1 }
      (Function.update A (pendingKey a) (some pg)) (Function.update F (pendingKey a) (frame t.allocs)) := by
  have hold : Frames a frame r t.allocs := hf.mono (Nat.le_succ _)
  have hn : frame t.allocs % PAGE_SIZE = 0 := hf.aligned _ (Nat.lt_succ_self _)
  have hmem : Holds a frame r { t with mem := m } A F := by
    apply h.change
    · exact fun u hu => tables_kept hf h.tree hm hu
    · exact fun k => rfl
    · intro k pg hk o ho
      rw [← h.bytes k pg hk o ho]
      apply hm
      rintro ⟨h₁, h₂⟩
      have hapart := pages_apart hn (h.frame_aligned hold hk).1 (h.frame_fresh hf hk)
      omega
  refine ⟨⟨hmem.tree.separated, ?_⟩, ?_, ?_, ?_, ?_, ?_, ?_, ?_, ?_, hmem.upper⟩
  · intro q u hq hu
    cases hmem.tree.owned q u hq hu with
    | inl hroot => exact Or.inl hroot
    | inr hi =>
      obtain ⟨i, hi, he⟩ := hi
      exact Or.inr ⟨i, Nat.lt_succ_of_lt hi, he⟩
  · refine h.table.imp id fun hz => ⟨hz.1, fun v => ?_⟩
    rw [Function.update_of_ne (pageNumber_ne_pending v)]
    exact hz.2 v
  · intro v hv
    rw [Function.update_of_ne (pageNumber_ne_pending v)] at hv
    exact hmem.absent v hv
  · intro v pg' hv
    rw [Function.update_of_ne (pageNumber_ne_pending v)] at hv ⊢
    exact hmem.present v pg' hv
  · intro k pg' hk
    cases update_some_cases hk with
    | inl hp => exact hp.2 ▸ hflags
    | inr hp => exact h.flags k pg' hp.2
  · intro k pg' hk o ho
    cases update_some_cases hk with
    | inl hp =>
      rw [hp.1, hp.2, Function.update_self]
      exact hbytes o ho
    | inr hp =>
      rw [Function.update_of_ne hp.1]
      exact hmem.bytes k pg' hp.2 o ho
  · intro k pg' hk
    cases update_some_cases hk with
    | inl hp => exact ⟨t.allocs, Nat.lt_succ_self _, by rw [hp.1, Function.update_self]⟩
    | inr hp =>
      obtain ⟨i, hi, he⟩ := h.given k pg' hp.2
      exact ⟨i, Nat.lt_succ_of_lt hi, by rw [Function.update_of_ne hp.1, he]⟩
  · intro k pg' hk
    cases update_some_cases hk with
    | inl hp =>
      rw [hp.1, Function.update_self]
      rintro ⟨q, hq, hu⟩
      exact hf.fresh (hmem.tree.owned q _ hq hu)
    | inr hp =>
      rw [Function.update_of_ne hp.1]
      exact hmem.apart k pg' hp.2
  · intro k l pg' pg'' hk hl he
    cases update_some_cases hk with
    | inl hp =>
      cases update_some_cases hl with
      | inl hp' => rw [hp.1, hp'.1]
      | inr hp' =>
        rw [hp.1, Function.update_self, Function.update_of_ne hp'.1] at he
        exact absurd he.symm (h.frame_fresh hf hp'.2)
    | inr hp =>
      cases update_some_cases hl with
      | inl hp' =>
        rw [hp'.1, Function.update_self, Function.update_of_ne hp.1] at he
        exact absurd he (h.frame_fresh hf hp.2)
      | inr hp' =>
        rw [Function.update_of_ne hp.1, Function.update_of_ne hp'.1] at he
        exact h.distinct k l pg' pg'' hp.2 hp'.2 he

theorem nextTable_mem {u flags x : ℕ} {i : Index a} (hx : x ∉ Span u PAGE_SIZE)
    (hx' : x ∉ Span (frame t.allocs) PAGE_SIZE) : (nextTable a frame t u i flags).2.mem x = t.mem x := by
  have hi := wordBytes_mul_index i
  unfold nextTable
  split
  · have hentry : x ∉ Span (u + a.wordBytes * i) a.wordBytes := by
      rintro ⟨h₁, h₂⟩
      exact hx ⟨by omega, by omega⟩
    exact (store_changedIn _ _ _ _ x hentry).trans (memset_changedIn _ _ _ _ x hx')
  · rfl

theorem nextTable_entry {u flags : ℕ} {i : Index a} (hword : frame t.allocs < 2 ^ a.wordBits)
    (hempty : child a (entries a t.mem u i) = none) :
    entries a (nextTable a frame t u i flags).2.mem u i =
      frame t.allocs ||| (PAGE_WRITABLE ||| (flags &&& PAGE_USER)) ||| PAGE_PRESENT := by
  have he : entryAt a t.mem u i &&& PAGE_PRESENT = 0 := by
    by_contra hne
    have hsome : child a (entries a t.mem u i) = some _ := if_neg hne
    rw [hsome] at hempty
    cases hempty
  have hw : 12 ≤ a.wordBits := by cases a <;> decide
  have hlow : PAGE_WRITABLE ||| (flags &&& PAGE_USER) ||| PAGE_PRESENT < 2 ^ a.wordBits := by
    have hlow' : PAGE_WRITABLE ||| (flags &&& PAGE_USER) ||| PAGE_PRESENT < 2 ^ 12 :=
      Nat.or_lt_two_pow (Nat.or_lt_two_pow (by decide) (Nat.and_lt_two_pow flags (by decide))) (by decide)
    exact hlow'.trans_le (Nat.pow_le_pow_right (by decide) hw)
  unfold nextTable
  rw [if_pos he]
  rw [← tableEntry_eq]
  apply entries_setEntry_self
  rw [tableEntry_eq, Nat.or_assoc]
  exact Nat.or_lt_two_pow hword hlow

theorem nextTable_holds {pre : List (Index a)} {u flags : ℕ} {i : Index a}
    (hf : Frames a frame r (nextTable a frame t u i flags).2.allocs) (h : Holds a frame r t A F)
    (hu : walk (child a) (entries a t.mem) r pre = some u) (hpre : pre.length < levels a)
    (huser : flags &&& PAGE_USER = PAGE_USER) :
    Holds a frame r (nextTable a frame t u i flags).2 A F ∧
      walk (child a) (entries a (nextTable a frame t u i flags).2.mem) r (pre ++ [i]) =
        some (nextTable a frame t u i flags).1 := by
  obtain ⟨hext, hwalk⟩ := nextTable_spec i hf h.tree hu hpre
  refine ⟨?_, hwalk⟩
  cases nextTable_cases hf h.tree hu hpre with
  | inl hsame =>
    rw [hsame.1]
    exact h
  | inr hnew =>
    obtain ⟨hallocs, htable, hn, hgrown⟩ := hnew
    rw [hallocs] at hf
    have hold : Frames a frame r t.allocs := hf.mono (Nat.le_succ _)
    have haligned : frame t.allocs % PAGE_SIZE = 0 := hf.aligned _ (Nat.lt_succ_self _)
    have hleaf (v : ℕ) : leafEntry a r (nextTable a frame t u i flags).2 v = leafEntry a r t v :=
      hext.entry (path a v) (leaf a v) (length_path v)
    refine ⟨hext.tree, ?_, ?_, ?_, h.flags, ?_, ?_, ?_, h.distinct, ?_⟩
    · rw [htable]
      exact h.table
    · intro v hv
      rw [hleaf]
      exact h.absent v hv
    · intro v pg hv
      rw [hleaf]
      exact h.present v pg hv
    · intro k pg hk o ho
      rw [← h.bytes k pg hk o ho]
      have hk' := (h.frame_aligned hold hk).1
      apply nextTable_mem
      · rintro ⟨h₁, h₂⟩
        have hreach : ReachedTable a r t u := ⟨pre, hpre.le, hu⟩
        have hne : F k ≠ u := fun he => h.apart k pg hk (he ▸ hreach)
        have hapart := pages_apart (hreach.aligned hold h.tree (le_refl _)) hk' hne
        omega
      · rintro ⟨h₁, h₂⟩
        have hapart := pages_apart haligned hk' (h.frame_fresh hf hk)
        omega
    · intro k pg hk
      obtain ⟨j, hj, he⟩ := h.given k pg hk
      exact ⟨j, by omega, he⟩
    · rintro k pg hk ⟨q, hq, hw⟩
      rw [hgrown.walk child_zero h.tree.separated hq] at hw
      split_ifs at hw
      · exact h.frame_fresh hf hk (Option.some.inj hw).symm
      · exact h.apart k pg hk ⟨q, hq, hw⟩
    · intro q w j hq hw hpresent
      rw [hgrown.walk child_zero h.tree.separated hq.le] at hw
      split_ifs at hw with hnew
      · rw [← Option.some.inj hw, hgrown.blank, child_zero] at hpresent
        exact absurd rfl hpresent
      · by_cases hat : w = u ∧ j = i
        · obtain ⟨rfl, rfl⟩ := hat
          rw [nextTable_entry (hf.word _ (Nat.lt_succ_self _)) hgrown.empty, Nat.and_comm]
          have hrights := entry_rights (PAGE_WRITABLE ||| (flags &&& PAGE_USER)) haligned
          rw [huser] at hrights ⊢
          exact hrights.trans (by decide)
        · rw [not_and_or] at hat
          rw [hgrown.keep q w j hq.le hw hat] at hpresent ⊢
          exact h.upper q w j hq hw hpresent

theorem descend_holds (pre : List (Index a)) {p : List (Index a)} {u flags : ℕ}
    (hf : Frames a frame r (descend a frame flags p u t).2.allocs) (h : Holds a frame r t A F)
    (hu : walk (child a) (entries a t.mem) r pre = some u) (hlen : pre.length + p.length = levels a)
    (huser : flags &&& PAGE_USER = PAGE_USER) :
    Holds a frame r (descend a frame flags p u t).2 A F ∧
      walk (child a) (entries a (descend a frame flags p u t).2.mem) r (pre ++ p) =
        some (descend a frame flags p u t).1 := by
  induction p generalizing pre u t with
  | nil => exact ⟨h, by rw [List.append_nil]; exact hu⟩
  | cons i p ih =>
    rw [List.length_cons] at hlen
    obtain ⟨hnext, hwalk⟩ := nextTable_holds (hf.mono (descend_allocs _)) h hu (by omega) huser
    obtain ⟨hrest, hwalk'⟩ := ih _ hf hnext hwalk (by rw [List.length_append, List.length_singleton]; omega)
    rw [List.append_assoc, List.singleton_append] at hwalk'
    exact ⟨hrest, hwalk'⟩

theorem descend_kernelTable {p : List (Index a)} {u flags : ℕ} :
    (descend a frame flags p u t).2.kernelTable = t.kernelTable := by
  induction p generalizing u t with
  | nil => rfl
  | cons i p ih =>
    have hnext : (nextTable a frame t u i flags).2.kernelTable = t.kernelTable := by
      unfold nextTable
      split <;> rfl
    exact ih.trans hnext

theorem leafEntry_writeEntry {v u e : ℕ} (hf : Frames a frame r t.allocs) (htree : Tree a frame r t)
    (hu : walk (child a) (entries a t.mem) r (path a v) = some u) (hword : e < 2 ^ a.wordBits) (w : ℕ) :
    leafEntry a r (writeEntry a t u (leaf a v) e) w =
      if pageNumber a w = pageNumber a v then e else leafEntry a r t w := by
  have hself : entries a (writeEntry a t u (leaf a v) e).mem u (leaf a v) = e := entries_setEntry_self hword
  have hentry := entry_leaf (z := 0) htree.separated hu (length_path v) hself
    (fun q w j hq hw hne => writeLeaf_keep e hf htree hu hq hw hne) (length_path w) (leaf a w)
  unfold leafEntry
  rw [hentry]
  by_cases hp : pageNumber a w = pageNumber a v
  · rw [if_pos (path_leaf_eq_iff.mpr hp), if_pos hp]
  · rw [if_neg (fun hpl => hp (path_leaf_eq_iff.mp hpl)), if_neg hp]

theorem Holds.entry_lt {k : ℕ} {pg : Page} (hf : Frames a frame r t.allocs) (h : Holds a frame r t A F)
    (hk : A k = some pg) : F k ||| pg.flags ||| PAGE_PRESENT < 2 ^ a.wordBits := by
  have hw : 12 ≤ a.wordBits := by cases a <;> decide
  have hone : PAGE_PRESENT < 2 ^ a.wordBits := Nat.one_lt_two_pow (by omega)
  have hflags := (h.flags _ pg hk).trans_le (Nat.pow_le_pow_right (n := 2) (by decide) hw)
  exact Nat.or_lt_two_pow (Nat.or_lt_two_pow (h.frame_aligned hf hk).2.2 hflags) hone

theorem Holds.page_kept {k u e o : ℕ} {i : Index a} {pg : Page} (hf : Frames a frame r t.allocs)
    (h : Holds a frame r t A F) (hu : ReachedTable a r t u) (hk : A k = some pg) (ho : o < PAGE_SIZE) :
    (writeEntry a t u i e).mem (F k + o) = t.mem (F k + o) := by
  have hindex := wordBytes_mul_index i
  have hne : F k ≠ u := fun hku => h.apart k pg hk (hku ▸ hu)
  have hapart := pages_apart (hu.aligned hf h.tree (le_refl _)) (h.frame_aligned hf hk).1 hne
  apply store_changedIn
  rintro ⟨h₁, h₂⟩
  omega

theorem update_move_cases {k l q : ℕ} {pg pg' : Page}
    (h : Function.update (Function.update A q none) k (some pg) l = some pg') :
    l = k ∧ pg' = pg ∨ l ≠ k ∧ l ≠ q ∧ A l = some pg' := by
  refine (update_some_cases h).imp_right fun ⟨hlk, hl⟩ => ?_
  by_cases hlq : l = q
  · subst hlq
    rw [Function.update_self] at hl
    cases hl
  · rw [Function.update_of_ne hlq] at hl
    exact ⟨hlk, hlq, hl⟩

theorem Holds.writeLeaf {v u : ℕ} {pg : Page} (hf : Frames a frame r t.allocs) (h : Holds a frame r t A F)
    (htable : t.kernelTable = r) (hpending : A (pendingKey a) = some pg)
    (hu : walk (child a) (entries a t.mem) r (path a v) = some u) :
    Holds a frame r (writeEntry a t u (leaf a v) (F (pendingKey a) ||| pg.flags ||| PAGE_PRESENT))
      (Function.update (Function.update A (pendingKey a) none) (pageNumber a v) (some pg))
      (Function.update F (pageNumber a v) (F (pendingKey a))) := by
  have hword := h.entry_lt hf hpending
  generalize he : F (pendingKey a) ||| pg.flags ||| PAGE_PRESENT = e at hword ⊢
  have hreach : ReachedTable a r t u := ⟨path a v, (length_path v).le, hu⟩
  have hwalk (q : List (Index a)) (hq : q.length ≤ levels a) := writeLeaf_walk e hf h.tree hu hq
  have hleaf (w : ℕ) := leafEntry_writeEntry hf h.tree hu hword w
  refine ⟨⟨h.tree.separated.congr hwalk, ?_⟩, Or.inl htable, ?_, ?_, ?_, ?_, ?_, ?_, ?_, ?_⟩
  · intro q w hq hw
    rw [hwalk q hq] at hw
    exact h.tree.owned q w hq hw
  · intro w hw
    have hwv : pageNumber a w ≠ pageNumber a v := by
      intro hwv
      rw [hwv, Function.update_self] at hw
      cases hw
    rw [Function.update_of_ne hwv, Function.update_of_ne (pageNumber_ne_pending w)] at hw
    rw [hleaf, if_neg hwv]
    exact h.absent w hw
  · intro w pg' hw
    rw [hleaf]
    cases update_move_cases hw with
    | inl hp => rw [if_pos hp.1, hp.1, hp.2, Function.update_self, he]
    | inr hp =>
      rw [if_neg hp.1, Function.update_of_ne hp.1]
      exact h.present w pg' hp.2.2
  · intro k pg' hk
    cases update_move_cases hk with
    | inl hp => exact hp.2 ▸ h.flags _ pg hpending
    | inr hp => exact h.flags k pg' hp.2.2
  · intro k pg' hk o ho
    cases update_move_cases hk with
    | inl hp =>
      rw [hp.1, hp.2, Function.update_self, h.page_kept hf hreach hpending ho]
      exact h.bytes _ pg hpending o ho
    | inr hp =>
      rw [Function.update_of_ne hp.1, h.page_kept hf hreach hp.2.2 ho]
      exact h.bytes k pg' hp.2.2 o ho
  · intro k pg' hk
    cases update_move_cases hk with
    | inl hp =>
      rw [hp.1, Function.update_self]
      exact h.given _ pg hpending
    | inr hp =>
      rw [Function.update_of_ne hp.1]
      exact h.given k pg' hp.2.2
  · rintro k pg' hk ⟨q, hq, hw⟩
    rw [hwalk q hq] at hw
    cases update_move_cases hk with
    | inl hp =>
      rw [hp.1, Function.update_self] at hw
      exact h.apart _ pg hpending ⟨q, hq, hw⟩
    | inr hp =>
      rw [Function.update_of_ne hp.1] at hw
      exact h.apart k pg' hp.2.2 ⟨q, hq, hw⟩
  · intro k l pg' pg'' hk hl hkl
    cases update_move_cases hk with
    | inl hp =>
      cases update_move_cases hl with
      | inl hp' => rw [hp.1, hp'.1]
      | inr hp' =>
        rw [hp.1, Function.update_self, Function.update_of_ne hp'.1] at hkl
        exact absurd (h.distinct _ l pg pg'' hpending hp'.2.2 hkl).symm hp'.2.1
    | inr hp =>
      cases update_move_cases hl with
      | inl hp' =>
        rw [hp'.1, Function.update_self, Function.update_of_ne hp.1] at hkl
        exact absurd (h.distinct k _ pg' pg hp.2.2 hpending hkl) hp.2.1
      | inr hp' =>
        rw [Function.update_of_ne hp.1, Function.update_of_ne hp'.1] at hkl
        exact h.distinct k l pg' pg'' hp.2.2 hp'.2.2 hkl
  · intro q w j hq hw
    rw [hwalk q hq.le] at hw
    have hwu : w ≠ u := by
      rintro rfl
      have hsame := h.tree.separated q (path a v) w hq.le (length_path v).le hw hu
      rw [hsame, length_path] at hq
      exact lt_irrefl _ hq
    rw [writeLeaf_keep e hf h.tree hu hq.le hw (Or.inl hwu)]
    exact h.upper q w j hq hw

def Space.map (A : Space) (k : ℕ) (pg : Page) : Space := Function.update A k (some pg)

theorem start_holds {cr3 : ℕ} (hr : root a cr3 = r) (h : Holds a frame r t A F) :
    Holds a frame r (start a cr3 t) A F ∧ (start a cr3 t).kernelTable = r ∧ (start a cr3 t).allocs = t.allocs := by
  unfold start
  by_cases hz : t.kernelTable = 0
  · rw [if_pos hz]
    exact ⟨⟨⟨h.tree.separated, h.tree.owned⟩, Or.inl hr, h.absent, h.present, h.flags, h.bytes, h.given, h.apart,
      h.distinct, h.upper⟩, hr, rfl⟩
  · rw [if_neg hz]
    exact ⟨h, h.table.resolve_right fun hn => hz hn.1, rfl⟩

theorem mapPage_holds {cr3 v : ℕ} {m : Mem} {pg : Page} (hr : root a cr3 = r)
    (hf : Frames a frame r
      (vmmMapPage a frame cr3 { t with mem := m, allocs := t.allocs + 1 } (frame t.allocs) v pg.flags).allocs)
    (h : Holds a frame r t A F) (hpending : A (pendingKey a) = none) (hflags : pg.flags < 2 ^ 12)
    (huser : pg.flags &&& PAGE_USER = PAGE_USER) (hm : ChangedIn (Span (frame t.allocs) PAGE_SIZE) t.mem m)
    (hbytes : ∀ o < PAGE_SIZE, m (frame t.allocs + o) = pg.bytes o) :
    ∃ F', Holds a frame r
      (vmmMapPage a frame cr3 { t with mem := m, allocs := t.allocs + 1 } (frame t.allocs) v pg.flags)
      (A.map (pageNumber a v) pg) F' := by
  rw [vmmMapPage_eq hflags] at hf ⊢
  set t₁ : Paging.State := { t with mem := m, allocs := t.allocs + 1 } with ht₁
  set A₁ := Function.update A (pendingKey a) (some pg) with hA₁
  have hallocs : (start a cr3 t₁).allocs = t.allocs + 1 := start_allocs t₁
  have hfd : Frames a frame r
      (descend a frame pg.flags (path a v) (start a cr3 t₁).kernelTable (start a cr3 t₁)).2.allocs := hf
  have hfirst : Frames a frame r (t.allocs + 1) := by
    rw [← hallocs]
    exact hfd.mono (descend_allocs _)
  have hframe : frame t.allocs &&& frameMask a = frame t.allocs := by
    have haligned : frame t.allocs % 2 ^ 12 = 0 := hfirst.aligned _ (Nat.lt_succ_self _)
    rw [and_frameMask (hfirst.word _ (Nat.lt_succ_self _))]
    omega
  obtain ⟨hstart, htable, -⟩ := start_holds hr (h.pend hfirst hflags hm hbytes)
  obtain ⟨hdescend, hwalk⟩ := descend_holds [] hfd hstart (by rw [htable, walk])
    (by rw [length_path, List.length_nil, Nat.zero_add]) huser
  have hlast := hdescend.writeLeaf (v := v) hfd (descend_kernelTable.trans htable) (Function.update_self ..) hwalk
  rw [Function.update_self] at hlast
  have hspace : Function.update (Function.update A₁ (pendingKey a) none) (pageNumber a v) (some pg) =
      A.map (pageNumber a v) pg := by
    rw [hA₁, Function.update_idem, ← hpending, Function.update_eq_self]
    rfl
  rw [hspace] at hlast
  rw [hframe]
  exact ⟨_, hlast⟩

end JurkOS.Kernel.Loader
