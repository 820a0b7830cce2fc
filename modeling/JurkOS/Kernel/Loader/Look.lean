import JurkOS.Kernel.Loader.Mapping

/-!
What the processor finds at an address, and what the loops of the loader do to it.
-/

namespace JurkOS.Kernel.Loader

open Lib Lib.Memory Lib.Radix Paging Pmm

variable (a : Arch) (frame : ℕ → ℕ) (cr3 : ℕ)

def look (t : Paging.State) (v : ℕ) : Option (ℕ × UInt8) := (mmu a cr3 t v).map fun x => (x.2, t.mem x.1)

def WellFormed (t : Paging.State) : Prop :=
  ∃ A F, Holds a frame (root a cr3) t A F ∧ A (pendingKey a) = none

def Space.look (A : Space) (v : ℕ) : Option (ℕ × UInt8) :=
  if canonical a v then
    (A (pageNumber a v)).map fun pg => ((PAGE_WRITABLE ||| PAGE_USER) &&& pg.flags, pg.bytes (v % PAGE_SIZE))
  else none

variable {a frame cr3} {t : Paging.State} {A : Space} {F : ℕ → ℕ}

theorem Holds.look_eq (h : Holds a frame (root a cr3) t A F) (hf : Frames a frame (root a cr3) t.allocs) (v : ℕ) :
    look a cr3 t v = A.look a v := by
  unfold look Space.look
  rw [mmu_eq rfl hf h]
  by_cases hc : canonical a v
  · rw [if_pos hc, if_pos hc, Option.map_map]
    cases hv : A (pageNumber a v) with
    | none => rfl
    | some pg =>
      have hbyte := h.bytes _ pg hv (v % PAGE_SIZE) (Nat.mod_lt _ (by decide))
      rw [Option.map_some, Option.map_some, ← hbyte]
      rfl
  · rw [if_neg hc, if_neg hc]
    rfl

theorem Space.look_of_canonical {v : ℕ} (hc : canonical a v) : A.look a v =
    (A (pageNumber a v)).map fun pg => ((PAGE_WRITABLE ||| PAGE_USER) &&& pg.flags, pg.bytes (v % PAGE_SIZE)) :=
  if_pos hc

theorem Space.look_eq_none {v : ℕ} (hc : canonical a v) : A.look a v = none ↔ A (pageNumber a v) = none := by
  rw [Space.look_of_canonical hc, Option.map_eq_none_iff]

theorem canonical_inj {v w : ℕ} (hv : canonical a v) (hw : canonical a w) (hvlt : v < 2 ^ a.wordBits)
    (hwlt : w < 2 ^ a.wordBits) (hpage : pageNumber a v = pageNumber a w) (hoff : v % PAGE_SIZE = w % PAGE_SIZE) :
    v = w := by
  cases a with
  | x86_64 =>
    simp only [canonical, pageNumber, fanout, levels, Arch.wordBytes, Arch.wordBits, PAGE_SIZE] at *
    omega
  | x86 =>
    simp only [pageNumber, fanout, levels, Arch.wordBytes, Arch.wordBits, PAGE_SIZE] at *
    omega

theorem init_holds (h : Init a cr3 t) : Holds a frame (root a cr3) t (fun _ => none) fun _ => 0 := by
  have hblank := h.blank
  have hrefines : Refines a frame (root a cr3) t fun _ => none := init_refines h
  have htable : t.kernelTable = root a cr3 ∨ t.kernelTable = 0 ∧ ∀ v, (fun _ => none : Space) (pageNumber a v) = none :=
    hrefines.table.imp id fun hz => ⟨hz.1, fun _ => rfl⟩
  refine {
    tree := hrefines.tree
    table := htable
    absent := fun v _ => hrefines.maps v
    present := fun v pg hk => by cases hk
    flags := fun k pg hk => by cases hk
    bytes := fun k pg hk => by cases hk
    given := fun k pg hk => by cases hk
    apart := fun k pg hk => by cases hk
    distinct := fun k l pg pg' hk => by cases hk
    upper := ?_ }
  intro q u i _ hu hchild
  obtain rfl := walk_blank child_zero hblank hu
  rw [← Option.some.inj hu, hblank, child_zero] at hchild
  exact absurd rfl hchild

theorem init_wellFormed (h : Init a cr3 t) : WellFormed a frame cr3 t := ⟨_, _, init_holds h, rfl⟩

theorem init_look (h : Init a cr3 t) (v : ℕ) : look a cr3 t v = none := by
  have hf : Frames a (fun _ => 0) (root a cr3) t.allocs := by
    rw [h.allocs]
    exact ⟨root_aligned, fun i hi => by omega, fun i hi => by omega, fun i hi => by omega, fun i hi => by omega,
      fun i hi => by omega⟩
  rw [(init_holds h).look_eq hf, Space.look]
  split_ifs
  · rfl
  · rfl

theorem emptyTables_init : Init a 0x1000 emptyTables := ⟨Or.inl rfl, fun _ _ => rfl, rfl⟩

theorem emptyTables_wellFormed : WellFormed a frame 0x1000 emptyTables := init_wellFormed emptyTables_init

theorem Space.look_put {u v : ℕ} {x : UInt8} (hu : u < 2 ^ a.wordBits) (hv : v < 2 ^ a.wordBits)
    (hc : canonical a v) :
    (A.put (pageNumber a v) (v % PAGE_SIZE) x).look a u =
      if u = v then (A.look a u).map fun l => (l.1, x) else A.look a u := by
  unfold Space.look Space.put
  by_cases hcu : canonical a u
  · rw [if_pos hcu, if_pos hcu]
    by_cases hpage : pageNumber a u = pageNumber a v
    · rw [hpage, Function.update_self, Option.map_map, Option.map_map]
      by_cases huv : u = v
      · rw [if_pos huv, huv]
        apply congrArg (fun f => Option.map f (A (pageNumber a v)))
        funext pg
        simp only [Function.comp_apply, Function.update_self]
      · have hoff : u % PAGE_SIZE ≠ v % PAGE_SIZE := fun hoff => huv (canonical_inj hcu hc hu hv hpage hoff)
        rw [if_neg huv]
        apply congrArg (fun f => Option.map f (A (pageNumber a v)))
        funext pg
        simp only [Function.comp_apply, Function.update_of_ne hoff]
    · have huv : u ≠ v := fun he => hpage (he ▸ rfl)
      rw [Function.update_of_ne hpage, if_neg huv]
  · rw [if_neg hcu, if_neg hcu]
    simp

theorem eq_map_of_none {L : ℕ → Option (ℕ × UInt8)} {v : ℕ} (h : L v = none) (f : ℕ × UInt8 → ℕ × UInt8) (u : ℕ) :
    L u = if u = v then (L u).map f else L u := by
  split_ifs with huv
  · rw [huv, h]
    rfl
  · rfl

theorem storeByte_spec {s : State} {v : ℕ} (x : UInt8) (hf : Frames a frame (root a cr3) s.tables.allocs)
    (h : WellFormed a frame cr3 s.tables) (hv : v < 2 ^ a.wordBits) :
    WellFormed a frame cr3 (storeByte a cr3 s v x).tables ∧
      (storeByte a cr3 s v x).stores = ⟨v, (look a cr3 s.tables v).map Prod.fst⟩ :: s.stores ∧
      ∀ u < 2 ^ a.wordBits, look a cr3 (storeByte a cr3 s v x).tables u =
        if u = v then (look a cr3 s.tables u).map fun l => (l.1, x) else look a cr3 s.tables u := by
  obtain ⟨A, F, hA, hpending⟩ := h
  have hmmu := mmu_eq rfl hf hA v
  have hlook := hA.look_eq hf
  simp only [hlook]
  unfold storeByte
  by_cases hc : canonical a v
  · rw [if_pos hc] at hmmu
    cases hpg : A (pageNumber a v) with
    | none =>
      rw [hpg, Option.map_none] at hmmu
      have hnone : A.look a v = none := (Space.look_eq_none hc).mpr hpg
      simp only [hmmu, hlook, hnone, Option.map_none]
      exact ⟨⟨A, F, hA, hpending⟩, trivial, fun u _ => eq_map_of_none hnone _ u⟩
    | some pg =>
      rw [hpg, Option.map_some] at hmmu
      have hstored := hA.store hf hpg x
      have hstill : A.put (pageNumber a v) (v % PAGE_SIZE) x (pendingKey a) = none := by
        rw [Space.put, Function.update_of_ne (pageNumber_ne_pending v).symm]
        exact hpending
      have hrights : A.look a v = some ((PAGE_WRITABLE ||| PAGE_USER) &&& pg.flags, pg.bytes (v % PAGE_SIZE)) := by
        rw [Space.look_of_canonical hc, hpg]
        rfl
      simp only [hmmu, hrights, Option.map_some]
      refine ⟨⟨_, F, hstored, hstill⟩, trivial, fun u hu => ?_⟩
      rw [hstored.look_eq hf u, Space.look_put hu hv hc]
  · rw [if_neg hc] at hmmu
    have hnone : A.look a v = none := if_neg hc
    simp only [hmmu, hlook, hnone, Option.map_none]
    exact ⟨⟨A, F, hA, hpending⟩, trivial, fun u _ => eq_map_of_none hnone _ u⟩

theorem storeByte_allocs (s : State) (v : ℕ) (x : UInt8) :
    (storeByte a cr3 s v x).tables.allocs = s.tables.allocs := by
  unfold storeByte
  split <;> rfl

theorem fill_allocs {dest n i : ℕ} {src : ℕ → UInt8} (s : State) :
    (fill a cr3 dest src n i s).tables.allocs = s.tables.allocs := by
  induction n generalizing i s with
  | zero => rfl
  | succ n ih => exact (ih _).trans (storeByte_allocs s _ _)

theorem wrap_add_eq_iff {dest i u : ℕ} (hi : i < 2 ^ a.wordBits) (hdest : dest < 2 ^ a.wordBits)
    (hu : u < 2 ^ a.wordBits) : a.wrap (dest + i) = u ↔ a.sub u dest = i := by
  unfold Arch.sub Arch.wrap
  generalize 2 ^ a.wordBits = n at *
  have hfold {x : ℕ} (hle : n ≤ x) (hlt : x - n < n) : x % n = x - n := by
    rw [Nat.mod_eq_sub_mod hle, Nat.mod_eq_of_lt hlt]
  constructor
  · rintro rfl
    by_cases hlt : dest + i < n
    · rw [Nat.mod_eq_of_lt hlt, hfold (by omega) (by omega)]
      omega
    · rw [hfold (x := dest + i) (by omega) (by omega), Nat.mod_eq_of_lt (by omega)]
      omega
  · rintro rfl
    by_cases hle : dest ≤ u
    · rw [hfold (x := u + (n - dest)) (by omega) (by omega), Nat.mod_eq_of_lt (by omega)]
      omega
    · rw [Nat.mod_eq_of_lt (show u + (n - dest) < n by omega), hfold (by omega) (by omega)]
      omega

theorem fill_spec {s : State} {n i : ℕ} (dest : ℕ) (src : ℕ → UInt8)
    (hf : Frames a frame (root a cr3) s.tables.allocs) (h : WellFormed a frame cr3 s.tables)
    (hdest : dest < 2 ^ a.wordBits) (hn : i + n ≤ 2 ^ a.wordBits) :
    WellFormed a frame cr3 (fill a cr3 dest src n i s).tables ∧
      (∀ x, x ∈ (fill a cr3 dest src n i s).stores ↔ x ∈ s.stores ∨ x.virt < 2 ^ a.wordBits ∧
        i ≤ a.sub x.virt dest ∧ a.sub x.virt dest < i + n ∧ x.rights = (look a cr3 s.tables x.virt).map Prod.fst) ∧
      ∀ u < 2 ^ a.wordBits, look a cr3 (fill a cr3 dest src n i s).tables u =
        if i ≤ a.sub u dest ∧ a.sub u dest < i + n then (look a cr3 s.tables u).map fun l => (l.1, src (a.sub u dest))
        else look a cr3 s.tables u := by
  induction n generalizing i s with
  | zero =>
    refine ⟨h, fun x => ⟨Or.inl, ?_⟩, fun u _ => ?_⟩
    · rintro (hx | ⟨-, hle, hlt, -⟩)
      · exact hx
      · omega
    · rw [if_neg (by omega)]
      rfl
  | succ n ih =>
    have hi : i < 2 ^ a.wordBits := by omega
    have hvirt : a.wrap (dest + i) < 2 ^ a.wordBits := Nat.mod_lt _ (by positivity)
    obtain ⟨hwf, hstores, hlook⟩ := storeByte_spec (src i) hf h hvirt
    obtain ⟨hwf', hstores', hlook'⟩ := ih (i := i + 1) (by rwa [storeByte_allocs]) hwf (by omega)
    have hat (u : ℕ) (hu : u < 2 ^ a.wordBits) : u = a.wrap (dest + i) ↔ a.sub u dest = i := by
      rw [eq_comm]
      exact wrap_add_eq_iff hi hdest hu
    have hrights (u : ℕ) (hu : u < 2 ^ a.wordBits) :
        (look a cr3 (storeByte a cr3 s (a.wrap (dest + i)) (src i)).tables u).map Prod.fst =
          (look a cr3 s.tables u).map Prod.fst := by
      rw [hlook u hu]
      split_ifs
      · rw [Option.map_map]
        rfl
      · rfl
    refine ⟨hwf', fun x => ?_, fun u hu => ?_⟩
    · rw [fill, hstores', hstores, List.mem_cons]
      constructor
      · rintro ((rfl | hx) | ⟨hx, hle, hlt, hrts⟩)
        · have hsub := (hat _ hvirt).mp rfl
          exact Or.inr ⟨hvirt, by dsimp only; omega, by dsimp only; omega, rfl⟩
        · exact Or.inl hx
        · exact Or.inr ⟨hx, by omega, by omega, hrts.trans (hrights _ hx)⟩
      · rintro (hx | ⟨hx, hle, hlt, hrts⟩)
        · exact Or.inl (Or.inr hx)
        · by_cases hsub : a.sub x.virt dest = i
          · left
            left
            have hvx := (hat _ hx).mpr hsub
            rw [← hvx, ← hrts]
          · exact Or.inr ⟨hx, by omega, by omega, hrts.trans (hrights _ hx).symm⟩
    · rw [fill, hlook' u hu, hlook u hu]
      by_cases hsub : a.sub u dest = i
      · rw [if_pos ((hat u hu).mpr hsub), if_neg (by omega), if_pos (by omega), hsub]
      · rw [if_neg (fun he => hsub ((hat u hu).mp he))]
        by_cases hin : i ≤ a.sub u dest ∧ a.sub u dest < i + (n + 1)
        · rw [if_pos hin, if_pos (by omega)]
        · rw [if_neg hin, if_neg (by omega)]

theorem vmmMapPage_allocs {v phys flags : ℕ} (hflags : flags < 2 ^ 12) :
    t.allocs ≤ (vmmMapPage a frame cr3 t phys v flags).allocs := by
  rw [vmmMapPage_eq hflags]
  exact (start_allocs t).symm.le.trans (descend_allocs _)

theorem vmmMapPage_spec {v : ℕ} {m : Mem} (pg : Page)
    (hf : Frames a frame (root a cr3)
      (vmmMapPage a frame cr3 { t with mem := m, allocs := t.allocs + 1 } (frame t.allocs) v pg.flags).allocs)
    (h : WellFormed a frame cr3 t) (hflags : pg.flags < 2 ^ 12) (huser : pg.flags &&& PAGE_USER = PAGE_USER)
    (hm : ChangedIn (Span (frame t.allocs) PAGE_SIZE) t.mem m)
    (hbytes : ∀ o < PAGE_SIZE, m (frame t.allocs + o) = pg.bytes o) :
    WellFormed a frame cr3
        (vmmMapPage a frame cr3 { t with mem := m, allocs := t.allocs + 1 } (frame t.allocs) v pg.flags) ∧
      ∀ u, look a cr3
          (vmmMapPage a frame cr3 { t with mem := m, allocs := t.allocs + 1 } (frame t.allocs) v pg.flags) u =
        if canonical a u ∧ pageNumber a u = pageNumber a v then
          some ((PAGE_WRITABLE ||| PAGE_USER) &&& pg.flags, pg.bytes (u % PAGE_SIZE))
        else look a cr3 t u := by
  obtain ⟨A, F, hA, hpending⟩ := h
  have hold : Frames a frame (root a cr3) t.allocs :=
    hf.mono ((Nat.le_succ _).trans (vmmMapPage_allocs (t := { t with mem := m, allocs := t.allocs + 1 }) hflags))
  obtain ⟨F', hA'⟩ := mapPage_holds (v := v) rfl hf hA hpending hflags huser hm hbytes
  have hstill : A.map (pageNumber a v) pg (pendingKey a) = none := by
    rw [Space.map, Function.update_of_ne (pageNumber_ne_pending v).symm]
    exact hpending
  refine ⟨⟨_, F', hA', hstill⟩, fun u => ?_⟩
  rw [hA'.look_eq hf, hA.look_eq hold]
  unfold Space.look Space.map
  by_cases hc : canonical a u
  · rw [if_pos hc, if_pos hc]
    by_cases hpage : pageNumber a u = pageNumber a v
    · rw [if_pos ⟨hc, hpage⟩, hpage, Function.update_self]
      rfl
    · rw [if_neg (fun h => hpage h.2), Function.update_of_ne hpage]
  · rw [if_neg hc, if_neg hc, if_neg (fun h => hc h.1)]

theorem mapFresh_allocs {v flags : ℕ} (hflags : flags < 2 ^ 12) :
    t.allocs + 1 ≤ (mapFresh a frame cr3 t v flags).allocs :=
  vmmMapPage_allocs (t := { t with mem := memset 0 PAGE_SIZE t.mem (frame t.allocs), allocs := t.allocs + 1 }) hflags

theorem mapFresh_spec {v flags : ℕ} (hf : Frames a frame (root a cr3) (mapFresh a frame cr3 t v flags).allocs)
    (h : WellFormed a frame cr3 t) (hflags : flags < 2 ^ 12) (huser : flags &&& PAGE_USER = PAGE_USER) :
    WellFormed a frame cr3 (mapFresh a frame cr3 t v flags) ∧
      ∀ u, look a cr3 (mapFresh a frame cr3 t v flags) u =
        if canonical a u ∧ pageNumber a u = pageNumber a v then some ((PAGE_WRITABLE ||| PAGE_USER) &&& flags, 0)
        else look a cr3 t u := by
  have hzero (o : ℕ) (ho : o < PAGE_SIZE) :
      memset 0 PAGE_SIZE t.mem (frame t.allocs) (frame t.allocs + o) = 0 := by
    have hspan : frame t.allocs + o ∈ Span (frame t.allocs) PAGE_SIZE := ⟨by omega, by omega⟩
    exact memset_apply hspan
  exact vmmMapPage_spec ⟨flags, fun _ => 0⟩ hf h hflags huser (memset_changedIn _ _ _ _) hzero

theorem vmmGetPhys_look {v : ℕ} (hroot : root a cr3 ≠ 0) (hf : Frames a frame (root a cr3) t.allocs)
    (h : WellFormed a frame cr3 t) {u : ℕ} (hc : canonical a u) (hpage : pageNumber a u = pageNumber a v) :
    vmmGetPhys a t v = 0 ↔ look a cr3 t u = none := by
  obtain ⟨A, F, hA, -⟩ := h
  rw [vmmGetPhys_zero_iff hroot hf hA, hA.look_eq hf, Space.look_eq_none hc, hpage]

theorem mapLoop_allocs {startPage flags n p : ℕ} (hflags : flags < 2 ^ 12) :
    t.allocs ≤ (mapLoop a frame cr3 startPage flags n p t).allocs := by
  induction n generalizing p t with
  | zero => exact le_refl _
  | succ n ih =>
    apply le_trans _ ih
    split_ifs
    · exact (Nat.le_succ _).trans (mapFresh_allocs hflags)
    · exact le_refl _

theorem mapLoop_spec {startPage flags n p : ℕ} (hroot : root a cr3 ≠ 0)
    (hf : Frames a frame (root a cr3) (mapLoop a frame cr3 startPage flags n p t).allocs)
    (h : WellFormed a frame cr3 t) (hflags : flags < 2 ^ 12) (huser : flags &&& PAGE_USER = PAGE_USER) :
    WellFormed a frame cr3 (mapLoop a frame cr3 startPage flags n p t) ∧
      ∀ u, look a cr3 (mapLoop a frame cr3 startPage flags n p t) u =
        if canonical a u ∧ ∃ j < n, pageNumber a (a.wrap (startPage + (p + j) * PAGE_SIZE)) = pageNumber a u then
          (look a cr3 t u).or (some ((PAGE_WRITABLE ||| PAGE_USER) &&& flags, 0))
        else look a cr3 t u := by
  induction n generalizing p t with
  | zero =>
    refine ⟨h, fun u => ?_⟩
    rw [if_neg (by rintro ⟨-, j, hj, -⟩; omega)]
    rfl
  | succ n ih =>
    rw [mapLoop] at hf ⊢
    set virt := a.wrap (startPage + p * PAGE_SIZE) with hvirt
    set t' := if vmmGetPhys a t virt = 0 then mapFresh a frame cr3 t virt flags else t with ht'
    have hf' : Frames a frame (root a cr3) t'.allocs := hf.mono (mapLoop_allocs hflags)
    have hstep : WellFormed a frame cr3 t' ∧ ∀ u, look a cr3 t' u =
        if canonical a u ∧ pageNumber a u = pageNumber a virt then
          (look a cr3 t u).or (some ((PAGE_WRITABLE ||| PAGE_USER) &&& flags, 0))
        else look a cr3 t u := by
      by_cases hphys : vmmGetPhys a t virt = 0
      · rw [if_pos hphys] at ht'
        rw [ht'] at hf' ⊢
        obtain ⟨hwf, hlook⟩ := mapFresh_spec hf' h hflags huser
        refine ⟨hwf, fun u => ?_⟩
        rw [hlook]
        by_cases hu : canonical a u ∧ pageNumber a u = pageNumber a virt
        · have hold := hf'.mono ((Nat.le_succ _).trans (mapFresh_allocs hflags))
          rw [if_pos hu, if_pos hu, (vmmGetPhys_look hroot hold h hu.1 hu.2).mp hphys, Option.none_or]
        · rw [if_neg hu, if_neg hu]
      · rw [if_neg hphys] at ht'
        rw [ht'] at hf' ⊢
        refine ⟨h, fun u => ?_⟩
        by_cases hu : canonical a u ∧ pageNumber a u = pageNumber a virt
        · rw [if_pos hu]
          cases hlook : look a cr3 t u with
          | none => exact absurd ((vmmGetPhys_look hroot hf' h hu.1 hu.2).mpr hlook) hphys
          | some l => rfl
        · rw [if_neg hu]
    obtain ⟨hwf, hlook⟩ := ih hf hstep.1
    refine ⟨hwf, fun u => ?_⟩
    rw [hlook, hstep.2]
    have hsucc : (∃ j < n + 1, pageNumber a (a.wrap (startPage + (p + j) * PAGE_SIZE)) = pageNumber a u) ↔
        pageNumber a u = pageNumber a virt ∨
          ∃ j < n, pageNumber a (a.wrap (startPage + (p + 1 + j) * PAGE_SIZE)) = pageNumber a u := by
      rw [Nat.exists_lt_succ_left, eq_comm (a := pageNumber a u)]
      simp only [Nat.add_zero, Nat.add_assoc, Nat.add_comm 1]
      rfl
    simp only [hsucc]
    by_cases hc : canonical a u
    · by_cases hfirst : pageNumber a u = pageNumber a virt
      · rw [if_pos (And.intro hc hfirst), if_pos (And.intro hc (Or.inl hfirst)), Option.or_assoc,
          Option.or_self, ite_self]
      · simp only [hc, hfirst, true_and, false_or, if_false]
    · simp only [hc, false_and, if_false]

end JurkOS.Kernel.Loader
