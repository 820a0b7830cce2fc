import JurkOS.Kernel.Loader.Look

/-!
The effect of a segment, address by address: the page it may bring, and the byte
it leaves there.
-/

namespace JurkOS.Kernel.Loader

open Lib Lib.Memory Lib.Radix Paging Pmm

variable {a : Arch}

namespace Phdr

def Covers (a : Arch) (ph : Phdr) (k : ℕ) : Prop :=
  ∃ j < ph.pagesNeeded a (frameMask a), pageNumber a (a.wrap (ph.startPage (frameMask a) + j * PAGE_SIZE)) = k

instance (ph : Phdr) (k : ℕ) : Decidable (ph.Covers a k) := inferInstanceAs (Decidable (∃ _ < _, _))

def rights (ph : Phdr) : ℕ := (PAGE_WRITABLE ||| PAGE_USER) &&& ph.pageFlags

def mapped (a : Arch) (ph : Phdr) (u : ℕ) (l : Option (ℕ × UInt8)) : Option (ℕ × UInt8) :=
  if canonical a u ∧ ph.Covers a (pageNumber a u) then l.or (some (ph.rights, 0)) else l

def stored (b : Buffer a) (ph : Phdr) (u : ℕ) : Option UInt8 :=
  let d := a.sub u ph.vaddr
  if ph.filesz ≤ d ∧ d < ph.memsz then some 0
  else if ph.Copied a b.size ∧ d < ph.filesz then some (b.byteAt (ph.offset + d))
  else none

def effect (b : Buffer a) (ph : Phdr) (u : ℕ) (l : Option (ℕ × UInt8)) : Option (ℕ × UInt8) :=
  (ph.mapped a u l).map fun x => (x.1, (ph.stored b u).getD x.2)

theorem pageFlags_lt (ph : Phdr) : ph.pageFlags < 2 ^ 12 := by
  unfold pageFlags
  split <;> decide

theorem pageFlags_user (ph : Phdr) : ph.pageFlags &&& PAGE_USER = PAGE_USER := by
  unfold pageFlags
  split <;> decide

theorem rights_writable (ph : Phdr) : ph.rights &&& PAGE_WRITABLE ≠ 0 ↔ ph.flags &&& PF_W ≠ 0 := by
  unfold rights pageFlags
  by_cases hw : ph.flags &&& PF_W ≠ 0
  · rw [if_pos hw]
    exact ⟨fun _ => hw, fun _ => by decide⟩
  · rw [if_neg hw]
    exact ⟨fun h => absurd h (by decide), fun h => absurd h hw⟩

theorem covers_range {ph : Phdr} {v : ℕ} (hend : ph.vaddr + ph.memsz + 0xFFF < 2 ^ a.wordBits)
    (hv : v ∈ Span ph.vaddr ph.memsz) : ph.Covers a (pageNumber a v) := by
  obtain ⟨hlo, hhi⟩ := hv
  have hstart : ph.startPage (frameMask a) = ph.vaddr / 2 ^ 12 * 2 ^ 12 := and_frameMask (by omega)
  have hlast : ph.endPage a (frameMask a) = (ph.vaddr + ph.memsz + 0xFFF) / 2 ^ 12 * 2 ^ 12 := by
    rw [endPage, Arch.wrap_of_lt hend, and_frameMask hend]
  have hneeded : ph.pagesNeeded a (frameMask a) = (ph.vaddr + ph.memsz + 0xFFF) / 2 ^ 12 - ph.vaddr / 2 ^ 12 := by
    rw [pagesNeeded, hstart, hlast, Arch.sub_of_le (by omega) (by omega), PAGE_SIZE]
    omega
  refine ⟨v / 2 ^ 12 - ph.vaddr / 2 ^ 12, by rw [hneeded]; omega, ?_⟩
  have hvirt : ph.startPage (frameMask a) + (v / 2 ^ 12 - ph.vaddr / 2 ^ 12) * PAGE_SIZE = v / 2 ^ 12 * 2 ^ 12 := by
    rw [hstart, PAGE_SIZE]
    omega
  rw [hvirt, Arch.wrap_of_lt (by omega), pageNumber, pageNumber, PAGE_SIZE]
  congr 1
  omega

theorem stored_range {b : Buffer a} {ph : Phdr} {v : ℕ} (hv : v < 2 ^ a.wordBits) (hph : ph.vaddr < 2 ^ a.wordBits)
    (hle : ph.filesz ≤ ph.memsz) (hrange : ph.vaddr + ph.memsz ≤ 2 ^ a.wordBits) (h : ph.stored b v ≠ none) :
    v ∈ Span ph.vaddr ph.memsz := by
  have hsub : a.sub v ph.vaddr < ph.memsz := by
    unfold stored at h
    dsimp only at h
    split_ifs at h with hzero hcopy
    · exact hzero.2
    · exact hcopy.2.trans_le hle
    · exact absurd rfl h
  have hlt : a.sub v ph.vaddr < 2 ^ a.wordBits := Nat.mod_lt _ (by positivity)
  have hat := (wrap_add_eq_iff hlt hph hv).mpr rfl
  rw [Arch.wrap_of_lt (by omega)] at hat
  exact ⟨by omega, by omega⟩

end Phdr

variable {frame : ℕ → ℕ} {cr3 : ℕ} {b : Buffer a} {ph : Phdr} {s : State}

theorem sub_wrap_lt_iff {u v f n : ℕ} (hu : u < 2 ^ a.wordBits) (hv : v < 2 ^ a.wordBits) (hf : f < n)
    (hn : n < 2 ^ a.wordBits) : a.sub u (a.wrap (v + f)) < n - f ↔ f ≤ a.sub u v ∧ a.sub u v < n := by
  have hpos : 0 < 2 ^ a.wordBits := by positivity
  have hdest : a.wrap (v + f) < 2 ^ a.wordBits := Nat.mod_lt _ hpos
  have hassoc (d : ℕ) : a.wrap (a.wrap (v + f) + d) = a.wrap (v + (f + d)) := by
    unfold Arch.wrap
    rw [Nat.mod_add_mod, Nat.add_assoc]
  constructor
  · intro hlt
    have hat := (wrap_add_eq_iff (by omega) hdest hu).mpr rfl
    rw [hassoc] at hat
    have hsub := (wrap_add_eq_iff (by omega) hv hu).mp hat
    omega
  · rintro ⟨hle, hlt⟩
    have hsub : a.sub u v < 2 ^ a.wordBits := Nat.mod_lt _ hpos
    have hat := (wrap_add_eq_iff hsub hv hu).mpr rfl
    rw [← Nat.add_sub_cancel' hle, ← hassoc] at hat
    have hsub := (wrap_add_eq_iff (by omega) hdest hu).mp hat
    omega

namespace Phdr

def copy (b : Buffer a) (cr3 : ℕ) (ph : Phdr) (s : State) : State :=
  if ph.Copied a b.size then fill a cr3 ph.vaddr (fun i => b.byteAt (ph.offset + i)) ph.filesz 0 s else s

variable (a) in
def clear (cr3 : ℕ) (ph : Phdr) (s : State) : State :=
  if ph.filesz < ph.memsz then
    fill a cr3 (a.wrap (ph.vaddr + ph.filesz)) (fun _ => 0) (ph.memsz - ph.filesz) 0 s
  else s

def store (b : Buffer a) (cr3 : ℕ) (ph : Phdr) (s : State) : State := ph.clear a cr3 (ph.copy b cr3 s)

theorem copy_allocs (s : State) : (ph.copy b cr3 s).tables.allocs = s.tables.allocs := by
  unfold copy
  split_ifs
  · exact fill_allocs s
  · rfl

theorem clear_allocs (s : State) : (ph.clear a cr3 s).tables.allocs = s.tables.allocs := by
  unfold clear
  split_ifs
  · exact fill_allocs s
  · rfl

theorem store_allocs (s : State) : (ph.store b cr3 s).tables.allocs = s.tables.allocs :=
  (clear_allocs _).trans (copy_allocs s)

end Phdr

theorem loadSegment_eq : loadSegment a frame cr3 (frameMask a) b ph s = ph.store b cr3
    { s with
      tables := mapLoop a frame cr3 (ph.startPage (frameMask a)) ph.pageFlags (ph.pagesNeeded a (frameMask a)) 0
        s.tables } := rfl

theorem loadSegment_allocs : s.tables.allocs ≤ (loadSegment a frame cr3 (frameMask a) b ph s).tables.allocs := by
  rw [loadSegment_eq, Phdr.store_allocs]
  exact mapLoop_allocs ph.pageFlags_lt

theorem map_fst_setSnd (l : Option (ℕ × UInt8)) (f : ℕ × UInt8 → UInt8) :
    (l.map fun y => (y.1, f y)).map Prod.fst = l.map Prod.fst := by
  rw [Option.map_map]
  rfl

structure Filled (a : Arch) (frame : ℕ → ℕ) (cr3 : ℕ) (P : ℕ → Prop) [DecidablePred P] (f : ℕ → UInt8)
    (s s' : State) : Prop where
  wellFormed : WellFormed a frame cr3 s'.tables
  stores : ∀ x, x ∈ s'.stores ↔ x ∈ s.stores ∨
    x.virt < 2 ^ a.wordBits ∧ P x.virt ∧ x.rights = (look a cr3 s.tables x.virt).map Prod.fst
  look : ∀ u < 2 ^ a.wordBits, look a cr3 s'.tables u =
    if P u then (Loader.look a cr3 s.tables u).map fun l => (l.1, f u) else Loader.look a cr3 s.tables u

theorem Filled.rights {P : ℕ → Prop} [DecidablePred P] {f : ℕ → UInt8} {s' : State}
    (h : Filled a frame cr3 P f s s') {u : ℕ} (hu : u < 2 ^ a.wordBits) :
    (Loader.look a cr3 s'.tables u).map Prod.fst = (Loader.look a cr3 s.tables u).map Prod.fst := by
  rw [h.look u hu]
  split_ifs
  · exact map_fst_setSnd _ _
  · rfl

theorem Phdr.copy_spec (hf : Frames a frame (root a cr3) s.tables.allocs) (h : WellFormed a frame cr3 s.tables)
    (hph : ph.Words a) : Filled a frame cr3 (fun u => ph.Copied a b.size ∧ a.sub u ph.vaddr < ph.filesz)
      (fun u => b.byteAt (ph.offset + a.sub u ph.vaddr)) s (ph.copy b cr3 s) := by
  have hfile : ph.filesz < 2 ^ a.wordBits := hph.filesz
  unfold Phdr.copy
  by_cases hc : ph.Copied a b.size
  · obtain ⟨hwf, hstores, hlook⟩ := fill_spec (n := ph.filesz) (i := 0) ph.vaddr
      (fun i => b.byteAt (ph.offset + i)) hf h hph.vaddr (by omega)
    rw [if_pos hc]
    refine ⟨hwf, fun x => ?_, fun u hu => ?_⟩
    · rw [hstores]
      simp only [hc, Nat.zero_le, Nat.zero_add, true_and]
    · rw [hlook u hu]
      simp only [hc, Nat.zero_le, Nat.zero_add, true_and]
  · rw [if_neg hc]
    refine ⟨h, fun x => ?_, fun u hu => ?_⟩
    · simp only [hc, false_and, and_false, or_false]
    · rw [if_neg (fun h => hc h.1)]

theorem Phdr.clear_spec (hf : Frames a frame (root a cr3) s.tables.allocs) (h : WellFormed a frame cr3 s.tables)
    (hph : ph.Words a) : Filled a frame cr3 (fun u => ph.filesz ≤ a.sub u ph.vaddr ∧ a.sub u ph.vaddr < ph.memsz)
      (fun _ => 0) s (ph.clear a cr3 s) := by
  have hmem : ph.memsz < 2 ^ a.wordBits := hph.memsz
  unfold Phdr.clear
  by_cases hlt : ph.filesz < ph.memsz
  · obtain ⟨hwf, hstores, hlook⟩ := fill_spec (n := ph.memsz - ph.filesz) (i := 0)
      (a.wrap (ph.vaddr + ph.filesz)) (fun _ => 0) hf h (Nat.mod_lt _ (by positivity)) (by omega)
    rw [if_pos hlt]
    refine ⟨hwf, fun x => ?_, fun u hu => ?_⟩
    · rw [hstores]
      apply or_congr_right
      apply and_congr_right
      intro hx
      rw [← sub_wrap_lt_iff hx hph.vaddr hlt hmem]
      simp only [Nat.zero_le, Nat.zero_add, true_and]
    · rw [hlook u hu]
      simp only [← sub_wrap_lt_iff hu hph.vaddr hlt hmem, Nat.zero_le, Nat.zero_add, true_and]
  · rw [if_neg hlt]
    refine ⟨h, fun x => ⟨Or.inl, ?_⟩, fun u hu => ?_⟩
    · rintro (hx | ⟨-, ⟨hle, hd⟩, -⟩)
      · exact hx
      · omega
    · rw [if_neg (by omega)]

structure Loaded (a : Arch) (frame : ℕ → ℕ) (cr3 : ℕ) (b : Buffer a) (ph : Phdr) (s s' : State) : Prop where
  wellFormed : WellFormed a frame cr3 s'.tables
  stores : ∀ x, x ∈ s'.stores ↔ x ∈ s.stores ∨ x.virt < 2 ^ a.wordBits ∧ ph.stored b x.virt ≠ none ∧
    x.rights = (ph.mapped a x.virt (look a cr3 s.tables x.virt)).map Prod.fst
  look : ∀ u < 2 ^ a.wordBits, look a cr3 s'.tables u = ph.effect b u (look a cr3 s.tables u)

theorem loadSegment_spec (hroot : root a cr3 ≠ 0)
    (hf : Frames a frame (root a cr3) (loadSegment a frame cr3 (frameMask a) b ph s).tables.allocs)
    (h : WellFormed a frame cr3 s.tables) (hph : ph.Words a) :
    Loaded a frame cr3 b ph s (loadSegment a frame cr3 (frameMask a) b ph s) := by
  rw [loadSegment_eq, Phdr.store_allocs] at hf
  rw [loadSegment_eq]
  set s₁ : State :=
    { s with
      tables := mapLoop a frame cr3 (ph.startPage (frameMask a)) ph.pageFlags (ph.pagesNeeded a (frameMask a)) 0
        s.tables } with hs₁
  obtain ⟨hwf, hlook⟩ := mapLoop_spec hroot hf h ph.pageFlags_lt ph.pageFlags_user
  simp only [Nat.zero_add] at hlook
  change ∀ u, look a cr3 s₁.tables u = ph.mapped a u (look a cr3 s.tables u) at hlook
  have hcopy := ph.copy_spec (b := b) hf hwf hph
  have hclear := ph.clear_spec (s := ph.copy b cr3 s₁) (by rwa [Phdr.copy_allocs]) hcopy.wellFormed hph
  change Filled a frame cr3 _ _ _ (ph.store b cr3 s₁) at hclear
  have hstores (x : Store) : x ∈ s₁.stores ↔ x ∈ s.stores := Iff.rfl
  refine ⟨hclear.wellFormed, fun x => ?_, fun u hu => ?_⟩
  · rw [hclear.stores, hcopy.stores, hstores, or_assoc]
    apply or_congr_right
    unfold Phdr.stored
    dsimp only
    by_cases hx : x.virt < 2 ^ a.wordBits
    · rw [hcopy.rights hx, hlook]
      simp only [hx, true_and]
      split_ifs with h₁ h₂
      · simp [h₁]
      · simp [h₁, h₂]
      · simp [h₁, h₂]
    · simp only [hx, false_and, or_self]
  · rw [hclear.look u hu, hcopy.look u hu, hlook]
    unfold Phdr.effect Phdr.stored
    dsimp only
    split_ifs
    · rw [Option.map_map]
      rfl
    · rfl
    · rfl
    · simp

variable {c : ElfClass} {L : List Phdr} {u : ℕ}

def loadSegments (frame : ℕ → ℕ) (cr3 : ℕ) (b : Buffer a) (L : List Phdr) (s : State) : State :=
  L.foldl (fun s ph => loadSegment a frame cr3 (frameMask a) b ph s) s

def effects (b : Buffer a) (L : List Phdr) (u : ℕ) (l : Option (ℕ × UInt8)) : Option (ℕ × UInt8) :=
  L.foldl (fun l ph => ph.effect b u l) l

theorem loadSegments_allocs : s.tables.allocs ≤ (loadSegments frame cr3 b L s).tables.allocs := by
  induction L generalizing s with
  | nil => exact le_refl _
  | cons ph L ih => exact loadSegment_allocs.trans ih

def StoredBy (b : Buffer a) (L : List Phdr) (l : Option (ℕ × UInt8)) (x : Store) : Prop :=
  ∃ before ph after, L = before ++ ph :: after ∧ x.virt < 2 ^ a.wordBits ∧ ph.stored b x.virt ≠ none ∧
    x.rights = (ph.mapped a x.virt (effects b before x.virt l)).map Prod.fst

theorem storedBy_cons {l : Option (ℕ × UInt8)} {x : Store} : StoredBy b (ph :: L) l x ↔
    (x.virt < 2 ^ a.wordBits ∧ ph.stored b x.virt ≠ none ∧ x.rights = (ph.mapped a x.virt l).map Prod.fst) ∨
      StoredBy b L (ph.effect b x.virt l) x := by
  constructor
  · rintro ⟨before, q, after, hL, hx⟩
    cases before with
    | nil =>
      cases hL
      exact Or.inl hx
    | cons p before =>
      cases hL
      exact Or.inr ⟨before, q, after, rfl, hx⟩
  · rintro (hx | ⟨before, q, after, rfl, hx⟩)
    · exact ⟨[], ph, L, rfl, hx⟩
    · exact ⟨ph :: before, q, after, rfl, hx⟩

structure LoadedAll (frame : ℕ → ℕ) (cr3 : ℕ) (b : Buffer a) (L : List Phdr) (s s' : State) : Prop where
  wellFormed : WellFormed a frame cr3 s'.tables
  stores : ∀ x, x ∈ s'.stores ↔ x ∈ s.stores ∨ StoredBy b L (Loader.look a cr3 s.tables x.virt) x
  look : ∀ u < 2 ^ a.wordBits, look a cr3 s'.tables u = effects b L u (Loader.look a cr3 s.tables u)

theorem LoadedAll.store_mem {s' : State} {before after : List Phdr} {v : ℕ} (h : LoadedAll frame cr3 b L s s')
    (hsplit : L = before ++ ph :: after) (hv : v < 2 ^ a.wordBits) (hstored : ph.stored b v ≠ none) :
    ⟨v, (ph.mapped a v (effects b before v (Loader.look a cr3 s.tables v))).map Prod.fst⟩ ∈ s'.stores :=
  (h.stores _).mpr (Or.inr ⟨before, ph, after, hsplit, hv, hstored, rfl⟩)

theorem loadSegments_spec (hroot : root a cr3 ≠ 0) (hL : ∀ ph ∈ L, ph.Words a)
    (hf : Frames a frame (root a cr3) (loadSegments frame cr3 b L s).tables.allocs)
    (h : WellFormed a frame cr3 s.tables) : LoadedAll frame cr3 b L s (loadSegments frame cr3 b L s) := by
  induction L generalizing s with
  | nil =>
    refine ⟨h, fun x => ⟨Or.inl, ?_⟩, fun u _ => rfl⟩
    rintro (hx | ⟨before, ph, after, hnil, -⟩)
    · exact hx
    · cases before <;> cases hnil
  | cons ph L ih =>
    have hone := loadSegment_spec hroot (hf.mono loadSegments_allocs) h (hL ph List.mem_cons_self)
    have hrest := ih (fun q hq => hL q (List.mem_cons_of_mem _ hq)) hf hone.wellFormed
    refine ⟨hrest.wellFormed, fun x => ?_, fun u hu => ?_⟩
    · change x ∈ (loadSegments frame cr3 b L (loadSegment a frame cr3 (frameMask a) b ph s)).stores ↔ _
      rw [hrest.stores, hone.stores, storedBy_cons, or_assoc]
      apply or_congr_right
      by_cases hx : x.virt < 2 ^ a.wordBits
      · rw [hone.look _ hx]
      · have hnone (l : Option (ℕ × UInt8)) : ¬ StoredBy b L l x := fun ⟨_, _, _, _, hlt, _⟩ => hx hlt
        simp only [hnone, hx, false_and]
    · exact (hrest.look u hu).trans (congrArg (effects b L u) (hone.look u hu))

theorem elfLoad_segments (hacc : Accepted a c b) : elfLoad a frame cr3 c b s =
    (some (a.wrap (b.field 0 c.entry)), loadSegments frame cr3 b (b.segments c) s) :=
  elfLoad_eq hacc

theorem elfLoad_spec (hroot : root a cr3 ≠ 0) (hacc : Accepted a c b)
    (hf : Frames a frame (root a cr3) (elfLoad a frame cr3 c b s).2.tables.allocs)
    (h : WellFormed a frame cr3 s.tables) : LoadedAll frame cr3 b (b.segments c) s (elfLoad a frame cr3 c b s).2 := by
  rw [elfLoad_segments hacc] at hf ⊢
  exact loadSegments_spec hroot (fun ph hph => (Buffer.segments_words hph).1) hf h

theorem effects_append (L₁ L₂ : List Phdr) (l : Option (ℕ × UInt8)) :
    effects b (L₁ ++ L₂) u l = effects b L₂ u (effects b L₁ u l) :=
  List.foldl_append

theorem mapped_some (ph : Phdr) (x : ℕ × UInt8) : ph.mapped a u (some x) = some x := by
  unfold Phdr.mapped
  split <;> rfl

theorem effects_some (L : List Phdr) (x : ℕ × UInt8) :
    effects b L u (some x) = some (x.1, L.foldl (fun y ph => (ph.stored b u).getD y) x.2) := by
  induction L generalizing x with
  | nil => rfl
  | cons ph L ih =>
    have hhead : ph.effect b u (some x) = some (x.1, (ph.stored b u).getD x.2) := by
      rw [Phdr.effect, mapped_some]
      rfl
    exact (congrArg (effects b L u) hhead).trans (ih _)

theorem effects_rights (hc : canonical a u) (L : List Phdr) (l : Option (ℕ × UInt8)) :
    (effects b L u l).map Prod.fst =
      (l.map Prod.fst).or ((L.find? fun ph => ph.Covers a (pageNumber a u)).map Phdr.rights) := by
  induction L generalizing l with
  | nil =>
    rw [List.find?_nil, Option.map_none, Option.or_none]
    rfl
  | cons ph L ih =>
    have hhead : (ph.effect b u l).map Prod.fst = (ph.mapped a u l).map Prod.fst := map_fst_setSnd _ _
    change (effects b L u (ph.effect b u l)).map Prod.fst = _
    rw [ih, hhead, List.find?_cons]
    unfold Phdr.mapped
    by_cases hcov : ph.Covers a (pageNumber a u)
    · rw [if_pos ⟨hc, hcov⟩]
      simp only [hcov, decide_true]
      cases l with
      | none => rfl
      | some x => rfl
    · rw [if_neg (fun h => hcov h.2)]
      simp only [hcov, decide_false]

end JurkOS.Kernel.Loader
