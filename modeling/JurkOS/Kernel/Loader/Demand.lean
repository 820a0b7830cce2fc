import JurkOS.Kernel.Loader.Exec
import JurkOS.Kernel.Loader.Segments

/-!
How many frames a load asks for: one for every table that is missing on the way
to its pages, and one for every page that it maps.
-/

namespace JurkOS.Kernel.Loader

open Lib Lib.Memory Lib.Radix Paging Pmm

variable (a : Arch) (r : ℕ)

def missingTables (t : Paging.State) (S : Finset (List (Index a))) : ℕ :=
  (missing (child a) (entries a t.mem) r S).card

def unmappedPages (t : Paging.State) (vs : List ℕ) : Finset ℕ :=
  ((vs.filter fun v => vmmGetPhys a t v = 0).map (pageNumber a)).toFinset

def tablePaths (vs : List ℕ) : Finset (List (Index a)) := (vs.flatMap fun v => (path a v).inits).toFinset

variable {a r} {frame : ℕ → ℕ} {cr3 : ℕ} {t : Paging.State} {S : Finset (List (Index a))} {N : ℕ}

theorem length_tablePaths {vs : List ℕ} {q : List (Index a)} (hq : q ∈ tablePaths a vs) : q.length ≤ levels a := by
  obtain ⟨v, -, hv⟩ := List.mem_flatMap.mp (List.mem_toFinset.mp hq)
  rw [← length_path v]
  exact ((List.mem_inits q _).mp hv).length_le

theorem mem_tablePaths {vs : List ℕ} {v : ℕ} (hv : v ∈ vs) {q : List (Index a)} (hq : q <+: path a v) :
    q ∈ tablePaths a vs :=
  List.mem_toFinset.mpr (List.mem_flatMap.mpr ⟨v, hv, (List.mem_inits q _).mpr hq⟩)

theorem nextTable_demand {u : ℕ} (flags : ℕ) {pre : List (Index a)} {i : Index a} (hf : Frames a frame r N)
    (htree : Tree a frame r t) (hu : walk (child a) (entries a t.mem) r pre = some u) (hpre : pre.length < levels a)
    (hS : ∀ q ∈ S, q.length ≤ levels a) (hmem : pre ++ [i] ∈ S) (hN : t.allocs + missingTables a r t S ≤ N) :
    (nextTable a frame t u i flags).2.allocs ≤ N ∧
      (nextTable a frame t u i flags).2.allocs + missingTables a r (nextTable a frame t u i flags).2 S =
        t.allocs + missingTables a r t S := by
  have hle : (nextTable a frame t u i flags).2.allocs ≤ N := by
    unfold nextTable
    split_ifs with he
    · have hchild : child a (entries a t.mem u i) = none := if_pos he
      have hin : pre ++ [i] ∈ missing (child a) (entries a t.mem) r S := by
        apply Finset.mem_filter.mpr
        refine ⟨hmem, ?_⟩
        rw [walk_concat, hu, Option.bind_some, hchild]
      have hpos : 0 < missingTables a r t S := Finset.card_pos.mpr ⟨_, hin⟩
      dsimp only
      omega
    · dsimp only
      omega
  refine ⟨hle, ?_⟩
  cases nextTable_cases (hf.mono hle) htree hu hpre with
  | inl hsame => rw [hsame.1]
  | inr hnew =>
    obtain ⟨hallocs, -, -, hgrown⟩ := hnew
    have hcard := hgrown.card_missing child_zero htree.separated hS hmem
    rw [hallocs]
    unfold missingTables
    omega

theorem descend_demand {p pre : List (Index a)} {u : ℕ} (flags : ℕ) (hf : Frames a frame r N) (htree : Tree a frame r t)
    (hu : walk (child a) (entries a t.mem) r pre = some u) (hlen : pre.length + p.length = levels a)
    (hS : ∀ q ∈ S, q.length ≤ levels a) (hmem : ∀ q, q ≠ [] → q <+: p → pre ++ q ∈ S)
    (hN : t.allocs + missingTables a r t S ≤ N) :
    (descend a frame flags p u t).2.allocs ≤ N ∧
      (descend a frame flags p u t).2.allocs + missingTables a r (descend a frame flags p u t).2 S =
        t.allocs + missingTables a r t S := by
  induction p generalizing pre u t with
  | nil => exact ⟨by change t.allocs ≤ N; omega, rfl⟩
  | cons i p ih =>
    rw [List.length_cons] at hlen
    have hone : pre ++ [i] ∈ S := hmem [i] (by simp) ⟨p, rfl⟩
    obtain ⟨hle, hcount⟩ := nextTable_demand flags hf htree hu (by omega) hS hone hN
    obtain ⟨hext, hwalk⟩ := nextTable_spec i (hf.mono hle) htree hu (by omega)
    have hrest := ih hext.tree hwalk (by rw [List.length_append, List.length_singleton]; omega)
      (fun q hne hq => by
        rw [List.append_assoc]
        exact hmem (i :: q) (by simp) (List.cons_prefix_cons.mpr ⟨rfl, hq⟩))
      (by omega)
    exact ⟨hrest.1, hrest.2.trans hcount⟩

theorem vmmMapPage_demand {v : ℕ} {m : Mem} (pg : Page) (hf : Frames a frame (root a cr3) N)
    (h : WellFormed a frame cr3 t) (hflags : pg.flags < 2 ^ 12)
    (hm : ChangedIn (Span (frame t.allocs) PAGE_SIZE) t.mem m)
    (hbytes : ∀ o < PAGE_SIZE, m (frame t.allocs + o) = pg.bytes o)
    (hS : ∀ q ∈ S, q.length ≤ levels a) (hmem : ∀ q, q <+: path a v → q ∈ S)
    (hN : t.allocs + 1 + missingTables a (root a cr3) t S ≤ N) :
    (vmmMapPage a frame cr3 { t with mem := m, allocs := t.allocs + 1 } (frame t.allocs) v pg.flags).allocs ≤ N ∧
      (vmmMapPage a frame cr3 { t with mem := m, allocs := t.allocs + 1 } (frame t.allocs) v pg.flags).allocs +
        missingTables a (root a cr3)
          (vmmMapPage a frame cr3 { t with mem := m, allocs := t.allocs + 1 } (frame t.allocs) v pg.flags) S =
        t.allocs + 1 + missingTables a (root a cr3) t S := by
  obtain ⟨A, F, hA, -⟩ := h
  rw [vmmMapPage_eq hflags]
  set t₁ : Paging.State := { t with mem := m, allocs := t.allocs + 1 } with ht₁
  have hfirst : Frames a frame (root a cr3) (t.allocs + 1) := hf.mono (by omega)
  obtain ⟨hstart, htable, hallocs⟩ := start_holds rfl (hA.pend hfirst hflags hm hbytes)
  have hmissing : missingTables a (root a cr3) (start a cr3 t₁) S = missingTables a (root a cr3) t S := by
    have hmemory : (start a cr3 t₁).mem = m := start_mem t₁
    unfold missingTables
    rw [hmemory, missing_congr fun q hq =>
      reachedTable_congr (t := t) (fun u hu => tables_kept hfirst hA.tree hm hu) (hS q hq)]
  have hroot : walk (child a) (entries a (start a cr3 t₁).mem) (root a cr3) [] =
      some (start a cr3 t₁).kernelTable := by
    rw [htable, walk]
  have hlen : ([] : List (Index a)).length + (path a v).length = levels a := by
    rw [length_path, List.length_nil, Nat.zero_add]
  obtain ⟨hle, hcount⟩ := descend_demand pg.flags hf hstart.tree hroot hlen hS
    (fun q _ hq => hmem q hq) (by rw [hmissing, hallocs]; omega)
  obtain ⟨hext, hwalk⟩ := descend_spec [] (path a v) (hf.mono hle) hstart.tree hroot hlen
  refine ⟨hle, ?_⟩
  rw [hmissing, hallocs] at hcount
  rw [← hcount]
  apply congrArg (_ + ·)
  unfold missingTables
  rw [missing_congr fun q hq => writeLeaf_walk _ (hf.mono hle) hext.tree hwalk (hS q hq)]

theorem vmmMapPage_unmapped {v w : ℕ} {m : Mem} (pg : Page) (hroot : root a cr3 ≠ 0)
    (hf : Frames a frame (root a cr3)
      (vmmMapPage a frame cr3 { t with mem := m, allocs := t.allocs + 1 } (frame t.allocs) v pg.flags).allocs)
    (h : WellFormed a frame cr3 t) (hflags : pg.flags < 2 ^ 12) (huser : pg.flags &&& PAGE_USER = PAGE_USER)
    (hm : ChangedIn (Span (frame t.allocs) PAGE_SIZE) t.mem m)
    (hbytes : ∀ o < PAGE_SIZE, m (frame t.allocs + o) = pg.bytes o) :
    vmmGetPhys a (vmmMapPage a frame cr3 { t with mem := m, allocs := t.allocs + 1 } (frame t.allocs) v pg.flags) w =
      0 ↔ vmmGetPhys a t w = 0 ∧ pageNumber a w ≠ pageNumber a v := by
  obtain ⟨A, F, hA, hpending⟩ := h
  have hold : Frames a frame (root a cr3) t.allocs :=
    hf.mono ((Nat.le_succ _).trans (vmmMapPage_allocs (t := { t with mem := m, allocs := t.allocs + 1 }) hflags))
  obtain ⟨F', hA'⟩ := mapPage_holds (v := v) rfl hf hA hpending hflags huser hm hbytes
  rw [vmmGetPhys_zero_iff hroot hf hA', vmmGetPhys_zero_iff hroot hold hA, Space.map]
  by_cases hpage : pageNumber a w = pageNumber a v
  · rw [hpage, Function.update_self]
    simp
  · rw [Function.update_of_ne hpage]
    exact ⟨fun h => ⟨h, hpage⟩, And.left⟩

theorem card_unmapped {t' : Paging.State} {vs : List ℕ} {v : ℕ} (hv : v ∈ vs) (hnone : vmmGetPhys a t v = 0)
    (h : ∀ w, vmmGetPhys a t' w = 0 ↔ vmmGetPhys a t w = 0 ∧ pageNumber a w ≠ pageNumber a v) :
    (unmappedPages a t' vs).card + 1 = (unmappedPages a t vs).card := by
  have hin : pageNumber a v ∈ unmappedPages a t vs := by
    simp only [unmappedPages, List.mem_toFinset, List.mem_map, List.mem_filter, decide_eq_true_eq]
    exact ⟨v, ⟨hv, hnone⟩, rfl⟩
  have herase : unmappedPages a t' vs = (unmappedPages a t vs).erase (pageNumber a v) := by
    ext k
    simp only [unmappedPages, Finset.mem_erase, List.mem_toFinset, List.mem_map, List.mem_filter, decide_eq_true_eq]
    constructor
    · rintro ⟨w, ⟨hw, hzero⟩, rfl⟩
      obtain ⟨hzero, hne⟩ := (h w).mp hzero
      exact ⟨hne, w, ⟨hw, hzero⟩, rfl⟩
    · rintro ⟨hne, w, ⟨hw, hzero⟩, rfl⟩
      exact ⟨w, ⟨hw, (h w).mpr ⟨hzero, hne⟩⟩, rfl⟩
  rw [herase, Finset.card_erase_add_one hin]

def outlook (a : Arch) (r : ℕ) (vs : List ℕ) (t : Paging.State) : ℕ :=
  t.allocs + missingTables a r t (tablePaths a vs) + (unmappedPages a t vs).card

theorem allocs_le_outlook (vs : List ℕ) : t.allocs ≤ outlook a r vs t := by
  unfold outlook
  omega

theorem outlook_le (vs : List ℕ) : outlook a r vs t ≤ t.allocs + (tablePaths a vs).card + vs.length := by
  have htables : missingTables a r t (tablePaths a vs) ≤ (tablePaths a vs).card := Finset.card_filter_le _ _
  have hpages : (unmappedPages a t vs).card ≤ vs.length := by
    apply (List.toFinset_card_le _).trans
    rw [List.length_map]
    exact List.length_filter_le _ _
  unfold outlook
  omega

theorem memset_blank (flags : ℕ) (m : Mem) (p : ℕ) :
    ∀ o < PAGE_SIZE, memset 0 PAGE_SIZE m p (p + o) = (⟨flags, fun _ => 0⟩ : Page).bytes o := by
  intro o ho
  have hspan : p + o ∈ Span p PAGE_SIZE := ⟨by omega, by omega⟩
  exact memset_apply hspan

theorem mapFresh_outlook {vs : List ℕ} {v flags : ℕ} (hroot : root a cr3 ≠ 0) (hf : Frames a frame (root a cr3) N)
    (h : WellFormed a frame cr3 t) (hflags : flags < 2 ^ 12) (huser : flags &&& PAGE_USER = PAGE_USER) (hv : v ∈ vs)
    (hnone : vmmGetPhys a t v = 0) (hN : outlook a (root a cr3) vs t ≤ N) :
    (mapFresh a frame cr3 t v flags).allocs ≤ N ∧
      outlook a (root a cr3) vs (mapFresh a frame cr3 t v flags) = outlook a (root a cr3) vs t := by
  have hpos : pageNumber a v ∈ unmappedPages a t vs := by
    simp only [unmappedPages, List.mem_toFinset, List.mem_map, List.mem_filter, decide_eq_true_eq]
    exact ⟨v, ⟨hv, hnone⟩, rfl⟩
  have hcard : 0 < (unmappedPages a t vs).card := Finset.card_pos.mpr ⟨_, hpos⟩
  unfold outlook at hN ⊢
  obtain ⟨hle, hcount⟩ := vmmMapPage_demand (S := tablePaths a vs) ⟨flags, fun _ => 0⟩ hf h hflags
    (memset_changedIn 0 PAGE_SIZE t.mem _) (memset_blank flags t.mem _) (fun q hq => length_tablePaths hq)
    (fun q hq => mem_tablePaths hv hq) (by omega)
  have hpages := card_unmapped hv hnone fun w => vmmMapPage_unmapped (w := w) ⟨flags, fun _ => 0⟩ hroot (hf.mono hle) h
    hflags huser (memset_changedIn 0 PAGE_SIZE t.mem _) (memset_blank flags t.mem _)
  refine ⟨hle, ?_⟩
  unfold mapFresh
  dsimp only at hcount hpages ⊢
  omega

theorem mapLoop_outlook {vs : List ℕ} {startPage flags n p : ℕ} (hroot : root a cr3 ≠ 0)
    (hf : Frames a frame (root a cr3) N) (h : WellFormed a frame cr3 t) (hflags : flags < 2 ^ 12)
    (huser : flags &&& PAGE_USER = PAGE_USER) (hvs : ∀ j < n, a.wrap (startPage + (p + j) * PAGE_SIZE) ∈ vs)
    (hN : outlook a (root a cr3) vs t ≤ N) :
    (mapLoop a frame cr3 startPage flags n p t).allocs ≤ N ∧
      outlook a (root a cr3) vs (mapLoop a frame cr3 startPage flags n p t) = outlook a (root a cr3) vs t := by
  induction n generalizing p t with
  | zero => exact ⟨(allocs_le_outlook vs).trans hN, rfl⟩
  | succ n ih =>
    have hrest (j : ℕ) (hj : j < n) : a.wrap (startPage + (p + 1 + j) * PAGE_SIZE) ∈ vs := by
      rw [Nat.add_right_comm, Nat.add_assoc]
      exact hvs (j + 1) (by omega)
    rw [mapLoop]
    set virt := a.wrap (startPage + p * PAGE_SIZE) with hvirt
    by_cases hnone : vmmGetPhys a t virt = 0
    · rw [if_pos hnone]
      obtain ⟨hle, hsame⟩ := mapFresh_outlook hroot hf h hflags huser (hvs 0 (by omega)) hnone hN
      obtain ⟨hle', hsame'⟩ := ih (mapFresh_spec (hf.mono hle) h hflags huser).1 hrest (hsame.trans_le hN)
      exact ⟨hle', hsame'.trans hsame⟩
    · rw [if_neg hnone]
      exact ih h hrest hN

theorem storeByte_outlook {vs : List ℕ} {s : State} {v : ℕ} {x : UInt8} (hroot : root a cr3 ≠ 0)
    (hf : Frames a frame (root a cr3) s.tables.allocs) (h : WellFormed a frame cr3 s.tables) :
    outlook a (root a cr3) vs (storeByte a cr3 s v x).tables = outlook a (root a cr3) vs s.tables := by
  obtain ⟨A, F, hA, -⟩ := h
  have hmmu := mmu_eq rfl hf hA v
  unfold storeByte
  by_cases hc : canonical a v
  · cases hpg : A (pageNumber a v) with
    | none =>
      rw [if_pos hc, hpg, Option.map_none] at hmmu
      rw [hmmu]
    | some pg =>
      rw [if_pos hc, hpg, Option.map_some] at hmmu
      simp only [hmmu]
      have hstored := hA.store hf hpg x
      set m := Function.update s.tables.mem (F (pageNumber a v) + v % PAGE_SIZE) x with hm
      have hzero (w : ℕ) : vmmGetPhys a { s.tables with mem := m } w = 0 ↔ vmmGetPhys a s.tables w = 0 := by
        have hiff := vmmGetPhys_zero_iff (t := { s.tables with mem := m }) hroot hf hstored w
        rw [hiff, vmmGetPhys_zero_iff hroot hf hA, Space.put]
        by_cases hpage : pageNumber a w = pageNumber a v
        · rw [hpage, Function.update_self, Option.map_eq_none_iff]
        · rw [Function.update_of_ne hpage]
      unfold outlook missingTables unmappedPages
      simp only [hzero]
      rw [missing_congr fun q hq =>
        reachedTable_congr (t := s.tables) (fun u hu => hA.store_kept hf hpg x hu) (length_tablePaths hq)]
  · rw [if_neg hc] at hmmu
    rw [hmmu]

theorem fill_outlook {s : State} {n i : ℕ} (dest : ℕ) (src : ℕ → UInt8) (hroot : root a cr3 ≠ 0)
    (hf : Frames a frame (root a cr3) s.tables.allocs) (h : WellFormed a frame cr3 s.tables) :
    WellFormed a frame cr3 (fill a cr3 dest src n i s).tables ∧
      ∀ vs, outlook a (root a cr3) vs (fill a cr3 dest src n i s).tables = outlook a (root a cr3) vs s.tables := by
  induction n generalizing i s with
  | zero => exact ⟨h, fun vs => rfl⟩
  | succ n ih =>
    have hvirt : a.wrap (dest + i) < 2 ^ a.wordBits := Nat.mod_lt _ (by positivity)
    have hone := (storeByte_spec (src i) hf h hvirt).1
    obtain ⟨hwf, hsame⟩ := ih (i := i + 1) (by rwa [storeByte_allocs]) hone
    exact ⟨hwf, fun vs => (hsame vs).trans (storeByte_outlook hroot hf h)⟩

theorem Phdr.copy_outlook {b : Buffer a} {ph : Phdr} {s : State} (hroot : root a cr3 ≠ 0)
    (hf : Frames a frame (root a cr3) s.tables.allocs) (h : WellFormed a frame cr3 s.tables) :
    WellFormed a frame cr3 (ph.copy b cr3 s).tables ∧
      ∀ vs, outlook a (root a cr3) vs (ph.copy b cr3 s).tables = outlook a (root a cr3) vs s.tables := by
  unfold Phdr.copy
  split_ifs
  · exact fill_outlook _ _ hroot hf h
  · exact ⟨h, fun vs => rfl⟩

theorem Phdr.clear_outlook {ph : Phdr} {s : State} (hroot : root a cr3 ≠ 0)
    (hf : Frames a frame (root a cr3) s.tables.allocs) (h : WellFormed a frame cr3 s.tables) :
    WellFormed a frame cr3 (ph.clear a cr3 s).tables ∧
      ∀ vs, outlook a (root a cr3) vs (ph.clear a cr3 s).tables = outlook a (root a cr3) vs s.tables := by
  unfold Phdr.clear
  split_ifs
  · exact fill_outlook _ _ hroot hf h
  · exact ⟨h, fun vs => rfl⟩

theorem Phdr.store_outlook {b : Buffer a} {ph : Phdr} {s : State} (hroot : root a cr3 ≠ 0)
    (hf : Frames a frame (root a cr3) s.tables.allocs) (h : WellFormed a frame cr3 s.tables) :
    WellFormed a frame cr3 (ph.store b cr3 s).tables ∧
      ∀ vs, outlook a (root a cr3) vs (ph.store b cr3 s).tables = outlook a (root a cr3) vs s.tables := by
  obtain ⟨hwf, hcopy⟩ := ph.copy_outlook (b := b) hroot hf h
  obtain ⟨hwf', hclear⟩ := ph.clear_outlook (s := ph.copy b cr3 s) hroot (by rwa [Phdr.copy_allocs]) hwf
  exact ⟨hwf', fun vs => (hclear vs).trans (hcopy vs)⟩

def Phdr.pages (a : Arch) (ph : Phdr) : List ℕ :=
  (List.range (ph.pagesNeeded a (frameMask a))).map fun j => a.wrap (ph.startPage (frameMask a) + j * PAGE_SIZE)

def Buffer.elfPages (c : ElfClass) (b : Buffer a) : List ℕ := (b.segments c).flatMap (Phdr.pages a)

theorem loadSegment_outlook {vs : List ℕ} {b : Buffer a} {ph : Phdr} {s : State} (hroot : root a cr3 ≠ 0)
    (hf : Frames a frame (root a cr3) N) (h : WellFormed a frame cr3 s.tables) (hvs : ∀ v ∈ ph.pages a, v ∈ vs)
    (hN : outlook a (root a cr3) vs s.tables ≤ N) :
    (loadSegment a frame cr3 (frameMask a) b ph s).tables.allocs ≤ N ∧
      WellFormed a frame cr3 (loadSegment a frame cr3 (frameMask a) b ph s).tables ∧
      outlook a (root a cr3) vs (loadSegment a frame cr3 (frameMask a) b ph s).tables =
        outlook a (root a cr3) vs s.tables := by
  have hpages (j : ℕ) (hj : j < ph.pagesNeeded a (frameMask a)) :
      a.wrap (ph.startPage (frameMask a) + (0 + j) * PAGE_SIZE) ∈ vs := by
    rw [Nat.zero_add]
    exact hvs _ (List.mem_map.mpr ⟨j, List.mem_range.mpr hj, rfl⟩)
  obtain ⟨hle, hmap⟩ := mapLoop_outlook hroot hf h ph.pageFlags_lt ph.pageFlags_user hpages hN
  have hwf := (mapLoop_spec hroot (hf.mono hle) h ph.pageFlags_lt ph.pageFlags_user).1
  rw [loadSegment_eq]
  set t₁ := mapLoop a frame cr3 (ph.startPage (frameMask a)) ph.pageFlags (ph.pagesNeeded a (frameMask a)) 0 s.tables
  obtain ⟨hwf', hstore⟩ := ph.store_outlook (b := b) (s := { s with tables := t₁ }) hroot (hf.mono hle) hwf
  exact ⟨(Phdr.store_allocs _).trans_le hle, hwf', (hstore vs).trans hmap⟩

theorem loadSegments_outlook {vs : List ℕ} {b : Buffer a} {L : List Phdr} {s : State} (hroot : root a cr3 ≠ 0)
    (hf : Frames a frame (root a cr3) N) (h : WellFormed a frame cr3 s.tables)
    (hvs : ∀ ph ∈ L, ∀ v ∈ ph.pages a, v ∈ vs) (hN : outlook a (root a cr3) vs s.tables ≤ N) :
    (loadSegments frame cr3 b L s).tables.allocs ≤ N := by
  induction L generalizing s with
  | nil => exact (allocs_le_outlook vs).trans hN
  | cons ph L ih =>
    obtain ⟨-, hwf, hsame⟩ := loadSegment_outlook (b := b) hroot hf h (hvs ph List.mem_cons_self) hN
    exact ih hwf (fun q hq => hvs q (List.mem_cons_of_mem _ hq)) (hsame.trans_le hN)

theorem elfLoad_outlook {c : ElfClass} {b : Buffer a} {s : State} (hroot : root a cr3 ≠ 0)
    (hf : Frames a frame (root a cr3) N) (h : WellFormed a frame cr3 s.tables)
    (hN : outlook a (root a cr3) (b.elfPages c) s.tables ≤ N) :
    (elfLoad a frame cr3 c b s).2.tables.allocs ≤ N := by
  by_cases hacc : Accepted a c b
  · rw [elfLoad_segments hacc]
    exact loadSegments_outlook hroot hf h (fun ph hph v hv => List.mem_flatMap.mpr ⟨ph, hph, hv⟩) hN
  · rw [elfLoad, if_neg hacc]
    exact (allocs_le_outlook _).trans hN

def Buffer.flatPages (b : Buffer a) : List ℕ :=
  (List.range (xecPages b)).map fun i => a.wrap (XEC_BASE_VADDR + i * PAGE_SIZE)

def stackPages (a : Arch) : List ℕ := (List.range 16).map fun p => stackBase a + p * PAGE_SIZE

theorem mapFresh_demand {vs : List ℕ} {v : ℕ} (flags : ℕ) (hf : Frames a frame (root a cr3) N)
    (h : WellFormed a frame cr3 t) (hflags : flags < 2 ^ 12) (huser : flags &&& PAGE_USER = PAGE_USER) (hv : v ∈ vs)
    (hN : t.allocs + 1 + missingTables a (root a cr3) t (tablePaths a vs) ≤ N) :
    WellFormed a frame cr3 (mapFresh a frame cr3 t v flags) ∧ (mapFresh a frame cr3 t v flags).allocs +
        missingTables a (root a cr3) (mapFresh a frame cr3 t v flags) (tablePaths a vs) =
      t.allocs + 1 + missingTables a (root a cr3) t (tablePaths a vs) := by
  obtain ⟨hle, hcount⟩ := vmmMapPage_demand (S := tablePaths a vs) ⟨flags, fun _ => 0⟩ hf h hflags
    (memset_changedIn 0 PAGE_SIZE t.mem _) (memset_blank flags t.mem _) (fun q hq => length_tablePaths hq)
    (fun q hq => mem_tablePaths hv hq) hN
  exact ⟨(mapFresh_spec (hf.mono hle) h hflags huser).1, hcount⟩

theorem xecMapLoop_demand {vs : List ℕ} {n i : ℕ} (hf : Frames a frame (root a cr3) N) (h : WellFormed a frame cr3 t)
    (hvs : ∀ j < n, a.wrap (XEC_BASE_VADDR + (i + j) * PAGE_SIZE) ∈ vs)
    (hN : t.allocs + n + missingTables a (root a cr3) t (tablePaths a vs) ≤ N) :
    WellFormed a frame cr3 (xecMapLoop a frame cr3 n i t) ∧ (xecMapLoop a frame cr3 n i t).allocs ≤ N := by
  induction n generalizing i t with
  | zero => exact ⟨h, by change t.allocs ≤ N; omega⟩
  | succ n ih =>
    obtain ⟨hwf, hcount⟩ := mapFresh_demand (v := a.wrap (XEC_BASE_VADDR + i * PAGE_SIZE))
      (PAGE_USER ||| PAGE_WRITABLE) hf h (by decide) (by decide) (hvs 0 (by omega)) (by omega)
    apply ih hwf
    · intro j hj
      rw [Nat.add_right_comm, Nat.add_assoc]
      exact hvs (j + 1) (by omega)
    · omega

theorem stackLoop_demand {vs : List ℕ} {n p : ℕ} (hf : Frames a frame (root a cr3) N) (h : WellFormed a frame cr3 t)
    (hvs : ∀ j < n, stackBase a + (p + j) * PAGE_SIZE ∈ vs)
    (hN : t.allocs + n + missingTables a (root a cr3) t (tablePaths a vs) ≤ N) :
    WellFormed a frame cr3 (stackLoop a frame cr3 n p t) ∧ (stackLoop a frame cr3 n p t).allocs ≤ N := by
  induction n generalizing p t with
  | zero => exact ⟨h, by change t.allocs ≤ N; omega⟩
  | succ n ih =>
    have hflags : PAGE_USER ||| PAGE_WRITABLE < 2 ^ 12 := by decide
    have huser : (PAGE_USER ||| PAGE_WRITABLE) &&& PAGE_USER = PAGE_USER := by decide
    have hsame : ChangedIn (Span (frame t.allocs) PAGE_SIZE) t.mem t.mem := ChangedIn.refl _ _
    have hv : stackBase a + p * PAGE_SIZE ∈ vs := hvs 0 (by omega)
    obtain ⟨hle, hcount⟩ := vmmMapPage_demand (S := tablePaths a vs)
      ⟨PAGE_USER ||| PAGE_WRITABLE, fun o => t.mem (frame t.allocs + o)⟩ hf h hflags hsame (fun o _ => rfl)
      (fun q hq => length_tablePaths hq) (fun q hq => mem_tablePaths hv hq) (by omega)
    have hwf := (vmmMapPage_spec (v := stackBase a + p * PAGE_SIZE)
      ⟨PAGE_USER ||| PAGE_WRITABLE, fun o => t.mem (frame t.allocs + o)⟩ (hf.mono hle) h hflags huser hsame
      (fun o _ => rfl)).1
    apply ih hwf
    · intro j hj
      rw [Nat.add_right_comm, Nat.add_assoc]
      exact hvs (j + 1) (by omega)
    · dsimp only at hcount ⊢
      omega

end JurkOS.Kernel.Loader
