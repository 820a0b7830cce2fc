import JurkOS.Kernel.Loader.Ownership
import JurkOS.Kernel.Loader.Rights

/-!
What a load leaves of the loads before it: an address is as the histories left
it and as the file says, and nothing else plays a part.
-/

namespace JurkOS.Kernel.Loader

open Lib Lib.Memory Lib.Run Paging Pmm

variable {a : Arch} {frame : ℕ → ℕ} {cr3 : ℕ}

def Buffer.effective (c : ElfClass) (b : Buffer a) : List Phdr := if Accepted a c b then b.segments c else []

theorem elfLoad_look {c : ElfClass} {b : Buffer a} {s : State} (hroot : root a cr3 ≠ 0)
    (hf : Frames a frame (root a cr3) (elfLoad a frame cr3 c b s).2.tables.allocs)
    (h : WellFormed a frame cr3 s.tables) {v : ℕ} (hv : v < 2 ^ a.wordBits) :
    look a cr3 (elfLoad a frame cr3 c b s).2.tables v = effects b (b.effective c) v (look a cr3 s.tables v) := by
  unfold Buffer.effective
  by_cases hacc : Accepted a c b
  · rw [if_pos hacc]
    exact (elfLoad_spec hroot hacc hf h).look v hv
  · rw [if_neg hacc, elfLoad, if_neg hacc]
    rfl

theorem effects_unstored {b : Buffer a} {v : ℕ} {L : List Phdr} (h : ∀ ph ∈ L, ph.stored b v = none) (x : UInt8) :
    L.foldl (fun y ph => (ph.stored b v).getD y) x = x := by
  induction L with
  | nil => rfl
  | cons ph L ih =>
    rw [List.foldl_cons, h ph List.mem_cons_self]
    exact ih fun q hq => h q (List.mem_cons_of_mem _ hq)

abbrev Supplied (p : Pmm.State) (cr3 : ℕ) (s : State) (l : List (Event a)) (s' : State) : Prop :=
  Steps (fun s e s' => Enough p cr3 s.tables e.call ∧ Step (framesOf a p) cr3 s e s') s l s'

/-! ### Pages of the loader are pages of the program -/

def UserPages (a : Arch) (cr3 : ℕ) (t : Paging.State) : Prop :=
  ∀ v < 2 ^ a.wordBits, ∀ x, look a cr3 t v = some x → x.1 &&& PAGE_USER = PAGE_USER

section UserPages

variable {t t' : Paging.State} {s : State}

theorem UserPages.of_rights (h : UserPages a cr3 t)
    (hsame : ∀ v < 2 ^ a.wordBits, (look a cr3 t' v).map Prod.fst = (look a cr3 t v).map Prod.fst) :
    UserPages a cr3 t' := by
  intro v hv x hx
  have hrights := hsame v hv
  rw [hx, Option.map_some] at hrights
  obtain ⟨y, hy, hyx⟩ := Option.map_eq_some_iff.mp hrights.symm
  rw [← hyx]
  exact h v hv y hy

theorem UserPages.of_page {P : ℕ → Prop} [DecidablePred P] {f : ℕ → UInt8} (h : UserPages a cr3 t)
    (hlook : ∀ u, look a cr3 t' u =
      if P u then some ((PAGE_WRITABLE ||| PAGE_USER) &&& (PAGE_USER ||| PAGE_WRITABLE), f u) else look a cr3 t u) :
    UserPages a cr3 t' := by
  intro v hv x hx
  rw [hlook] at hx
  split_ifs at hx
  · rw [← Option.some.inj hx]
    have huser : ((PAGE_WRITABLE ||| PAGE_USER) &&& (PAGE_USER ||| PAGE_WRITABLE)) &&& PAGE_USER = PAGE_USER := by
      decide
    exact huser
  · exact h v hv x hx

theorem UserPages.fill {dest n : ℕ} {src : ℕ → UInt8} (hf : Frames a frame (root a cr3) s.tables.allocs)
    (hwf : WellFormed a frame cr3 s.tables) (h : UserPages a cr3 s.tables) (hdest : dest < 2 ^ a.wordBits)
    (hn : n ≤ 2 ^ a.wordBits) : UserPages a cr3 (fill a cr3 dest src n 0 s).tables := by
  obtain ⟨-, -, hlook⟩ := fill_spec (n := n) (i := 0) dest src hf hwf hdest (by omega)
  apply h.of_rights
  intro v hv
  rw [hlook v hv]
  split_ifs
  · exact map_fst_setSnd _ _
  · rfl

theorem UserPages.xecMapLoop {n i : ℕ}
    (hf : Frames a frame (root a cr3) (xecMapLoop a frame cr3 n i t).allocs) (hwf : WellFormed a frame cr3 t)
    (h : UserPages a cr3 t) :
    WellFormed a frame cr3 (xecMapLoop a frame cr3 n i t) ∧ UserPages a cr3 (xecMapLoop a frame cr3 n i t) := by
  induction n generalizing i t with
  | zero => exact ⟨hwf, h⟩
  | succ n ih =>
    rw [Loader.xecMapLoop] at hf ⊢
    obtain ⟨hwf', hlook⟩ := mapFresh_spec (hf.mono ((Nat.le_add_right _ _).trans xecMapLoop_allocs)) hwf (by decide)
      (by decide)
    exact ih hf hwf' (h.of_page hlook)

theorem UserPages.stackLoop {n p : ℕ}
    (hf : Frames a frame (root a cr3) (stackLoop a frame cr3 n p t).allocs) (hwf : WellFormed a frame cr3 t)
    (h : UserPages a cr3 t) : UserPages a cr3 (stackLoop a frame cr3 n p t) := by
  induction n generalizing p t with
  | zero => exact h
  | succ n ih =>
    rw [Loader.stackLoop] at hf ⊢
    have hflags : PAGE_USER ||| PAGE_WRITABLE < 2 ^ 12 := by decide
    have huser : (PAGE_USER ||| PAGE_WRITABLE) &&& PAGE_USER = PAGE_USER := by decide
    obtain ⟨hwf', hlook⟩ := vmmMapPage_spec (v := stackBase a + p * PAGE_SIZE)
      ⟨PAGE_USER ||| PAGE_WRITABLE, fun o => t.mem (frame t.allocs + o)⟩
      (hf.mono ((Nat.le_add_right _ _).trans stackLoop_allocs)) hwf hflags huser (ChangedIn.refl _ _) (fun o _ => rfl)
    exact ih hf hwf' (h.of_page hlook)

theorem Phdr.rights_user (ph : Phdr) : ph.rights &&& PAGE_USER = PAGE_USER := by
  unfold rights pageFlags
  split <;> decide

theorem UserPages.elfLoad {c : ElfClass} {b : Buffer a} (hroot : root a cr3 ≠ 0)
    (hf : Frames a frame (root a cr3) (elfLoad a frame cr3 c b s).2.tables.allocs)
    (hwf : WellFormed a frame cr3 s.tables) (h : UserPages a cr3 s.tables) :
    UserPages a cr3 (elfLoad a frame cr3 c b s).2.tables := by
  intro v hv x hx
  rw [elfLoad_look hroot hf hwf hv] at hx
  have hrights := congrArg (Option.map Prod.fst) hx
  cases hold : look a cr3 s.tables v with
  | some y =>
    rw [hold, effects_some] at hrights
    rw [← Option.some.inj hrights]
    exact h v hv y hold
  | none =>
    by_cases hc : canonical a v
    · rw [effects_rights hc, hold, Option.map_none, Option.none_or] at hrights
      obtain ⟨ph, -, hph⟩ := Option.map_eq_some_iff.mp hrights
      rw [← hph]
      exact ph.rights_user
    · rw [hold, effects_of_not_canonical hc] at hx
      cases hx

theorem Call.run_userPages (hroot : root a cr3 ≠ 0) (c : Call a)
    (hf : Frames a frame (root a cr3) (c.run frame cr3 s).tables.allocs) (hwf : WellFormed a frame cr3 s.tables)
    (h : UserPages a cr3 s.tables) : UserPages a cr3 (c.run frame cr3 s).tables := by
  cases c with
  | xecLoad b =>
    change Frames a frame (root a cr3) (Loader.xecLoad frame cr3 b s).2.tables.allocs at hf
    change UserPages a cr3 (Loader.xecLoad frame cr3 b s).2.tables
    rw [xecLoad_tables] at hf ⊢
    split_ifs at hf ⊢
    · exact h
    · rw [fill_allocs] at hf
      obtain ⟨hwf', huser⟩ := h.xecMapLoop hf hwf
      have hbase : XEC_BASE_VADDR < 2 ^ a.wordBits := by cases a <;> decide
      have hsize := b.size_le
      exact UserPages.fill (s := { s with tables := Loader.xecMapLoop a frame cr3 (xecPages b) 0 s.tables }) hf hwf'
        huser
        hbase (by omega)
  | elf64Load b => exact h.elfLoad hroot hf hwf
  | elf32Load b => exact h.elfLoad hroot hf hwf
  | mapStack => exact h.stackLoop hf hwf
  | store v x =>
    have hvirt : a.wrap v < 2 ^ a.wordBits := Nat.mod_lt _ (by positivity)
    obtain ⟨-, -, hlook⟩ := storeByte_spec x (hf.mono (storeByte_allocs s _ x).symm.le) hwf hvirt
    apply h.of_rights
    intro u hu
    change (look a cr3 (storeByte a cr3 s (a.wrap v) x).tables u).map Prod.fst = _
    rw [hlook u hu]
    split_ifs
    · exact map_fst_setSnd _ _
    · rfl

theorem run_userPages {p : Pmm.State} {s s' : State} {l : List (Event a)} (hp : Supply a p cr3)
    (hwf : WellFormed a (framesOf a p) cr3 s.tables) (h : UserPages a cr3 s.tables)
    (hallocs : s.tables.allocs ≤ p.freeSet.card) (hrun : Supplied p cr3 s l s') : UserPages a cr3 s'.tables := by
  induction hrun with
  | nil s => exact h
  | @cons s t u e l hstep rest ih =>
    obtain ⟨henough, rfl, -⟩ := hstep
    have hcard := drawn_card hp.total s.tables.allocs
    unfold Enough at henough
    obtain ⟨hwf', hle⟩ := Call.run_wellFormed hp.root_nonnull hp.frames hwf e.call (by omega)
    exact ih hwf' (e.call.run_userPages hp.root_nonnull (hp.frames.mono hle) hwf h) hle

end UserPages

/-! ### What a load stores -/

/-- Every store so far has found its page, and the page writable: the processor has raised no fault. -/
def Completes (s : State) : Prop := ∀ x ∈ s.stores, ∃ rights, x.rights = some rights ∧ rights &&& PAGE_WRITABLE ≠ 0

theorem exists_last_stored {b : Buffer a} {v : ℕ} {L : List Phdr} (h : ∃ ph ∈ L, ph.stored b v ≠ none) :
    ∃ before ph after y, L = before ++ ph :: after ∧ ph.stored b v = some y ∧ ∀ q ∈ after, q.stored b v = none := by
  induction L with
  | nil =>
    obtain ⟨ph, hph, -⟩ := h
    cases hph
  | cons p L ih =>
    by_cases hrest : ∃ ph ∈ L, ph.stored b v ≠ none
    · obtain ⟨before, ph, after, y, rfl, hy, hafter⟩ := ih hrest
      exact ⟨p :: before, ph, after, y, rfl, hy, hafter⟩
    · obtain ⟨ph, hph, hstored⟩ := h
      rcases List.mem_cons.mp hph with rfl | hmem
      · obtain ⟨y, hy⟩ := Option.ne_none_iff_exists'.mp hstored
        refine ⟨[], ph, L, y, rfl, hy, fun q hq => ?_⟩
        by_contra hne
        exact hrest ⟨q, hq, hne⟩
      · exact absurd ⟨ph, hmem, hstored⟩ hrest

theorem look_page {t : Paging.State} (hf : Frames a frame (root a cr3) t.allocs) (h : WellFormed a frame cr3 t)
    {v w : ℕ} (hpage : w / PAGE_SIZE = v / PAGE_SIZE) :
    (look a cr3 t w).map Prod.fst = (look a cr3 t v).map Prod.fst := by
  obtain ⟨A, F, hA, -⟩ := h
  have hcanonical : canonical a w ↔ canonical a v := by
    cases a with
    | x86_64 =>
      simp only [canonical, PAGE_SIZE] at *
      omega
    | x86 => exact Iff.rfl
  rw [hA.look_eq hf, hA.look_eq hf, Space.look, Space.look, pageNumber, pageNumber, hpage]
  simp only [hcanonical]
  split_ifs
  · rw [Option.map_map, Option.map_map]
    rfl
  · rfl

theorem writable_user {t : Paging.State} (hf : Frames a frame (root a cr3) t.allocs) (h : WellFormed a frame cr3 t)
    (huser : UserPages a cr3 t) {v : ℕ} (hv : v < 2 ^ a.wordBits) {x : ℕ × UInt8} (hx : look a cr3 t v = some x)
    (hw : x.1 &&& PAGE_WRITABLE ≠ 0) : x.1 = PAGE_WRITABLE ||| PAGE_USER := by
  obtain ⟨A, F, hA, -⟩ := h
  have hu := huser v hv x hx
  have hle : x.1 ≤ PAGE_WRITABLE ||| PAGE_USER := by
    rw [hA.look_eq hf, Space.look] at hx
    split_ifs at hx
    obtain ⟨pg, -, rfl⟩ := Option.map_eq_some_iff.mp hx
    exact Nat.and_le_left
  have hbits : ∀ r ≤ PAGE_WRITABLE ||| PAGE_USER, r &&& PAGE_WRITABLE ≠ 0 → r &&& PAGE_USER = PAGE_USER →
      r = PAGE_WRITABLE ||| PAGE_USER := by decide
  exact hbits x.1 hle hw hu

theorem elfLoad_stored {c : ElfClass} {b : Buffer a} {s : State} {before after : List Phdr} {ph : Phdr} {v : ℕ}
    {y : UInt8} (hroot : root a cr3 ≠ 0) (hf : Frames a frame (root a cr3) (elfLoad a frame cr3 c b s).2.tables.allocs)
    (h : WellFormed a frame cr3 s.tables) (huser : UserPages a cr3 s.tables)
    (hdone : Completes (elfLoad a frame cr3 c b s).2) (hv : v < 2 ^ a.wordBits)
    (hsplit : b.effective c = before ++ ph :: after) (hy : ph.stored b v = some y)
    (hafter : ∀ q ∈ after, q.stored b v = none) :
    look a cr3 (elfLoad a frame cr3 c b s).2.tables v = some (PAGE_WRITABLE ||| PAGE_USER, y) := by
  have hacc : Accepted a c b := by
    by_contra hnot
    rw [Buffer.effective, if_neg hnot] at hsplit
    cases before <;> cases hsplit
  have hloaded := elfLoad_spec hroot hacc hf h
  have hsegments : b.segments c = before ++ ph :: after := by rwa [Buffer.effective, if_pos hacc] at hsplit
  obtain ⟨rights, hrights, hw⟩ := hdone _ (hloaded.store_mem hsegments hv (by rw [hy]; exact Option.some_ne_none y))
  obtain ⟨z, hz, rfl⟩ := Option.map_eq_some_iff.mp hrights
  have hlook : look a cr3 (elfLoad a frame cr3 c b s).2.tables v = some (z.1, y) := by
    have heffect : ph.effect b v (effects b before v (look a cr3 s.tables v)) = some (z.1, y) := by
      rw [Phdr.effect, hz, hy]
      rfl
    have hlast : effects b (before ++ ph :: after) v (look a cr3 s.tables v) = effects b after v (some (z.1, y)) := by
      rw [effects_append, ← heffect]
      rfl
    rw [hloaded.look v hv, hsegments, hlast, effects_some, effects_unstored hafter]
  rw [hlook, writable_user hf hloaded.wellFormed (huser.elfLoad hroot hf h) hv hlook hw]

theorem elfLoad_after_histories {p₁ p₂ : Pmm.State} {c : ElfClass} {b : Buffer a} {u₁ u₂ s₁ s₂ : State}
    {l₁ l₂ : List (Event a)} (hp₁ : Supply a p₁ cr3) (hp₂ : Supply a p₂ cr3) (hinit₁ : Init a cr3 u₁.tables)
    (hinit₂ : Init a cr3 u₂.tables) (hrun₁ : Supplied p₁ cr3 u₁ l₁ s₁) (hrun₂ : Supplied p₂ cr3 u₂ l₂ s₂)
    (hf₁ : Frames a (framesOf a p₁) (root a cr3) (elfLoad a (framesOf a p₁) cr3 c b s₁).2.tables.allocs)
    (hf₂ : Frames a (framesOf a p₂) (root a cr3) (elfLoad a (framesOf a p₂) cr3 c b s₂).2.tables.allocs) :
    ∀ v < 2 ^ a.wordBits,
      (look a cr3 s₁.tables v = look a cr3 s₂.tables v →
        look a cr3 (elfLoad a (framesOf a p₁) cr3 c b s₁).2.tables v =
          look a cr3 (elfLoad a (framesOf a p₂) cr3 c b s₂).2.tables v) ∧
      (Completes (elfLoad a (framesOf a p₁) cr3 c b s₁).2 → Completes (elfLoad a (framesOf a p₂) cr3 c b s₂).2 →
        (∃ ph ∈ b.effective c, ph.stored b v ≠ none) →
        look a cr3 (elfLoad a (framesOf a p₁) cr3 c b s₁).2.tables v =
            look a cr3 (elfLoad a (framesOf a p₂) cr3 c b s₂).2.tables v ∧
          ∀ w, w / PAGE_SIZE = v / PAGE_SIZE →
            (look a cr3 (elfLoad a (framesOf a p₁) cr3 c b s₁).2.tables w).map Prod.fst =
              (look a cr3 (elfLoad a (framesOf a p₂) cr3 c b s₂).2.tables w).map Prod.fst) ∧
      ∀ x, look a cr3 s₁.tables v = some x →
        ∃ y, look a cr3 (elfLoad a (framesOf a p₁) cr3 c b s₁).2.tables v = some (x.1, y) ∧
          ((∀ ph ∈ b.effective c, ph.stored b v = none) → y = x.2) := by
  intro v hv
  have hallocs {u : State} (hinit : Init a cr3 u.tables) (p : Pmm.State) : u.tables.allocs ≤ p.freeSet.card := by
    rw [hinit.allocs]
    exact Nat.zero_le _
  have hblank {u : State} (hinit : Init a cr3 u.tables) : UserPages a cr3 u.tables := by
    intro v _ x hx
    rw [init_look hinit] at hx
    cases hx
  have hwf₁ := (run_wellFormed hp₁ (init_wellFormed hinit₁) (hallocs hinit₁ p₁) hrun₁).1
  have hwf₂ := (run_wellFormed hp₂ (init_wellFormed hinit₂) (hallocs hinit₂ p₂) hrun₂).1
  have huser₁ := run_userPages hp₁ (init_wellFormed hinit₁) (hblank hinit₁) (hallocs hinit₁ p₁) hrun₁
  have huser₂ := run_userPages hp₂ (init_wellFormed hinit₂) (hblank hinit₂) (hallocs hinit₂ p₂) hrun₂
  refine ⟨fun hsame => ?_, fun hdone₁ hdone₂ hstored => ?_, fun x hx => ?_⟩
  · rw [elfLoad_look hp₁.root_nonnull hf₁ hwf₁ hv, elfLoad_look hp₂.root_nonnull hf₂ hwf₂ hv, hsame]
  · obtain ⟨before, ph, after, y, hsplit, hy, hafter⟩ := exists_last_stored hstored
    have hlook₁ := elfLoad_stored hp₁.root_nonnull hf₁ hwf₁ huser₁ hdone₁ hv hsplit hy hafter
    have hlook₂ := elfLoad_stored hp₂.root_nonnull hf₂ hwf₂ huser₂ hdone₂ hv hsplit hy hafter
    refine ⟨hlook₁.trans hlook₂.symm, fun w hpage => ?_⟩
    rw [look_page hf₁ (elfLoad_wellFormed hp₁.root_nonnull hf₁ hwf₁) hpage,
      look_page hf₂ (elfLoad_wellFormed hp₂.root_nonnull hf₂ hwf₂) hpage, hlook₁, hlook₂]
  · rw [elfLoad_look hp₁.root_nonnull hf₁ hwf₁ hv]
    exact ⟨(b.effective c).foldl (fun y ph => (ph.stored b v).getD y) x.2, by rw [hx, effects_some],
      fun hnone => effects_unstored hnone _⟩

/-! ### A program beside another one's page -/

def laterSegment : Buffer .x86_64 := { oneSegment 6 4 with byte := fun i => if i = 80 then 8 else oneSegmentByte 6 4 i }

def laterRun : State :=
  (elfLoad .x86_64 (framesOf .x86_64 sixteenPages) 0x1000 elf64 laterSegment ⟨emptyTables, []⟩).2

theorem run_elf64Load {b : Buffer a} {s : State} :
    (Call.elf64Load b).run frame cr3 s = (elfLoad a frame cr3 elf64 b s).2 := rfl

theorem later_supplied : Supplied sixteenPages 0x1000 ⟨emptyTables, []⟩ [⟨.elf64Load laterSegment,
    (Call.elf64Load laterSegment).frames (framesOf .x86_64 sixteenPages) 0x1000 ⟨emptyTables, []⟩⟩] laterRun :=
  .single ⟨by unfold Enough; decide, run_elf64Load.symm, rfl⟩

theorem sixteen_frames {s : State} {b : Buffer .x86_64}
    (h : WellFormed .x86_64 (framesOf .x86_64 sixteenPages) 0x1000 s.tables)
    (hN : s.tables.allocs + (tablePaths .x86_64 (b.elfPages elf64)).card + (b.elfPages elf64).length ≤ 16) :
    Frames .x86_64 (framesOf .x86_64 sixteenPages) (root .x86_64 0x1000)
      (elfLoad .x86_64 (framesOf .x86_64 sixteenPages) 0x1000 elf64 b s).2.tables.allocs := by
  have hcard : sixteenPages.freeSet.card = 16 := by decide
  have hall := sixteenPages_supply.frames
  rw [hcard] at hall
  exact hall.mono (elfLoad_outlook (by decide) hall h ((outlook_le _).trans hN))

theorem laterRun_allocs : laterRun.tables.allocs ≤ 5 := by
  have hcard : sixteenPages.freeSet.card = 16 := by decide
  have hall := sixteenPages_supply.frames
  rw [hcard] at hall
  have hpages : (tablePaths .x86_64 (laterSegment.elfPages elf64)).card + (laterSegment.elfPages elf64).length ≤ 5 := by
    decide
  have hempty : emptyTables.allocs = 0 := rfl
  rw [laterRun]
  apply elfLoad_outlook (by decide) (hall.mono (by decide)) emptyTables_wellFormed
  apply (outlook_le _).trans
  dsimp only
  omega

theorem laterRun_wellFormed : WellFormed .x86_64 (framesOf .x86_64 sixteenPages) 0x1000 laterRun.tables :=
  (run_wellFormed sixteenPages_supply emptyTables_wellFormed (Nat.zero_le _) later_supplied).1

theorem laterRun_look {v : ℕ} (hv : v < 2 ^ 64) : look .x86_64 0x1000 laterRun.tables v =
    effects laterSegment (laterSegment.effective elf64) v none := by
  have hlook : look .x86_64 0x1000 laterRun.tables v =
      effects laterSegment (laterSegment.effective elf64) v (look .x86_64 0x1000 emptyTables v) :=
    elfLoad_look (by decide) (sixteen_frames emptyTables_wellFormed (by decide)) emptyTables_wellFormed hv
  rw [hlook, init_look emptyTables_init]

theorem completes_elfLoad {c : ElfClass} {b : Buffer a} {s : State} {ph : Phdr} (hroot : root a cr3 ≠ 0)
    (hacc : Accepted a c b) (hf : Frames a frame (root a cr3) (elfLoad a frame cr3 c b s).2.tables.allocs)
    (h : WellFormed a frame cr3 s.tables) (hs : Completes s) (hsegments : b.segments c = [ph])
    (hw : ∀ v, ph.stored b v ≠ none → v < 2 ^ a.wordBits → canonical a v ∧
      ((∃ x, look a cr3 s.tables v = some x ∧ x.1 &&& PAGE_WRITABLE ≠ 0) ∨
        look a cr3 s.tables v = none ∧ ph.Covers a (pageNumber a v) ∧ ph.flags &&& PF_W ≠ 0)) :
    Completes (elfLoad a frame cr3 c b s).2 := by
  intro x hx
  rcases ((elfLoad_spec hroot hacc hf h).stores x).mp hx with hx | ⟨before, q, after, hsplit, hv, hstored, hrights⟩
  · exact hs x hx
  rw [hsegments] at hsplit
  cases before with
  | cons p before => simp at hsplit
  | nil =>
    cases hsplit
    rw [hrights]
    apply mapped_writable_iff.mpr
    obtain ⟨hc, hold | ⟨hnone, hcovers, hflags⟩⟩ := hw x.virt hstored hv
    · exact ⟨hc, .inl hold⟩
    · exact ⟨hc, .inr ⟨hnone, ph, List.find?_cons_of_pos (decide_eq_true hcovers), hflags⟩⟩

def laterPhdr : Phdr := ⟨PT_LOAD, 6, 120, 0x400008, 4, 8⟩

def readOnlyCut : Phdr := ⟨PT_LOAD, 4, 120, 0x400000, 8, 8⟩

theorem laterSegment_segments : laterSegment.segments elf64 = [laterPhdr] := by decide

theorem readOnlyCut_segments : (oneSegment 4 8).segments elf64 = [readOnlyCut] := by decide

theorem empty_completes : Completes ⟨emptyTables, []⟩ := fun x hx => by cases hx

theorem laterRun_completes : Completes laterRun := by
  apply completes_elfLoad (by decide) (by decide) (sixteen_frames emptyTables_wellFormed (by decide))
    emptyTables_wellFormed empty_completes laterSegment_segments
  intro v hstored hv
  have hrange := Phdr.stored_range hv (by decide) (by decide) (by decide) hstored
  exact ⟨.inl (hrange.2.trans (by decide)), .inr ⟨init_look emptyTables_init v, Phdr.covers_range (by decide) hrange,
    by decide⟩⟩

theorem laterRun_page {v : ℕ} (hv : v / PAGE_SIZE = 0x400000 / PAGE_SIZE) :
    ∃ x, look .x86_64 0x1000 laterRun.tables v = some x ∧ x.1 &&& PAGE_WRITABLE ≠ 0 := by
  have hcard : sixteenPages.freeSet.card = 16 := by decide
  have hframes := sixteenPages_supply.frames
  rw [hcard] at hframes
  have hallocs := laterRun_allocs
  have hpage := look_page (hframes.mono (by omega)) laterRun_wellFormed hv
  have hfirst : (look .x86_64 0x1000 laterRun.tables 0x400000).map Prod.fst = some (PAGE_WRITABLE ||| PAGE_USER) := by
    rw [laterRun_look (by decide)]
    decide
  obtain ⟨x, hx, hrights⟩ := Option.map_eq_some_iff.mp (hpage.trans hfirst)
  exact ⟨x, hx, by rw [hrights]; decide⟩

theorem oneSegment_completes {s : State}
    (h : WellFormed .x86_64 (framesOf .x86_64 sixteenPages) 0x1000 s.tables) (hs : Completes s)
    (hf : Frames .x86_64 (framesOf .x86_64 sixteenPages) (root .x86_64 0x1000)
      (elfLoad .x86_64 (framesOf .x86_64 sixteenPages) 0x1000 elf64 (oneSegment 6 4) s).2.tables.allocs)
    (hpage : ∀ v, v / PAGE_SIZE = 0x400000 / PAGE_SIZE → look .x86_64 0x1000 s.tables v = none ∨
      ∃ x, look .x86_64 0x1000 s.tables v = some x ∧ x.1 &&& PAGE_WRITABLE ≠ 0) :
    Completes (elfLoad .x86_64 (framesOf .x86_64 sixteenPages) 0x1000 elf64 (oneSegment 6 4) s).2 := by
  apply completes_elfLoad (by decide) (by decide) hf h hs wholeSegment_segments
  intro v hstored hv
  have hrange := Phdr.stored_range hv (by decide) (by decide) (by decide) hstored
  have hlo : 0x400000 ≤ v := hrange.1
  have hhi : v < 0x400008 := hrange.2
  refine ⟨.inl (hhi.trans (by decide)), ?_⟩
  rcases hpage v (by rw [PAGE_SIZE]; omega) with hnone | hfound
  · exact .inr ⟨hnone, Phdr.covers_range (by decide) hrange, by decide⟩
  · exact .inl hfound

theorem readOnlyCut_completes {s : State} (h : WellFormed .x86_64 (framesOf .x86_64 sixteenPages) 0x1000 s.tables)
    (hs : Completes s) (hf : Frames .x86_64 (framesOf .x86_64 sixteenPages) (root .x86_64 0x1000)
      (elfLoad .x86_64 (framesOf .x86_64 sixteenPages) 0x1000 elf64 (oneSegment 4 8) s).2.tables.allocs) :
    Completes (elfLoad .x86_64 (framesOf .x86_64 sixteenPages) 0x1000 elf64 (oneSegment 4 8) s).2 := by
  apply completes_elfLoad (by decide) (by decide) hf h hs readOnlyCut_segments
  intro v hstored
  have hcopied : ¬readOnlyCut.Copied .x86_64 (oneSegment 4 8).size := by decide
  rw [Phdr.stored, if_neg (by simp only [readOnlyCut]; omega), if_neg fun h => hcopied h.1] at hstored
  exact absurd rfl hstored

abbrev afterEmpty (b : Buffer .x86_64) : State :=
  (elfLoad .x86_64 (framesOf .x86_64 sixteenPages) 0x1000 elf64 b ⟨emptyTables, []⟩).2

abbrev afterLater (b : Buffer .x86_64) : State :=
  (elfLoad .x86_64 (framesOf .x86_64 sixteenPages) 0x1000 elf64 b laterRun).2

theorem oneSegment_pages : (tablePaths .x86_64 ((oneSegment 6 4).elfPages elf64)).card +
    ((oneSegment 6 4).elfPages elf64).length ≤ 5 := by decide

theorem readOnlyCut_pages : (tablePaths .x86_64 ((oneSegment 4 8).elfPages elf64)).card +
    ((oneSegment 4 8).elfPages elf64).length ≤ 5 := by decide

theorem afterEmpty_frames {b : Buffer .x86_64}
    (h : (tablePaths .x86_64 (b.elfPages elf64)).card + (b.elfPages elf64).length ≤ 5) :
    Frames .x86_64 (framesOf .x86_64 sixteenPages) (root .x86_64 0x1000)
      (elfLoad .x86_64 (framesOf .x86_64 sixteenPages) 0x1000 elf64 b ⟨emptyTables, []⟩).2.tables.allocs := by
  have hempty : emptyTables.allocs = 0 := rfl
  exact sixteen_frames emptyTables_wellFormed (by dsimp only; omega)

theorem afterLater_frames {b : Buffer .x86_64}
    (h : (tablePaths .x86_64 (b.elfPages elf64)).card + (b.elfPages elf64).length ≤ 5) :
    Frames .x86_64 (framesOf .x86_64 sixteenPages) (root .x86_64 0x1000)
      (elfLoad .x86_64 (framesOf .x86_64 sixteenPages) 0x1000 elf64 b laterRun).2.tables.allocs := by
  have hallocs := laterRun_allocs
  exact sixteen_frames laterRun_wellFormed (by omega)

theorem oneSegment_afterEmpty : Completes (afterEmpty (oneSegment 6 4)) := by
  unfold afterEmpty
  apply oneSegment_completes emptyTables_wellFormed empty_completes (afterEmpty_frames oneSegment_pages)
  intro v _
  exact .inl (init_look emptyTables_init v)

theorem oneSegment_afterLater : Completes (afterLater (oneSegment 6 4)) := by
  unfold afterLater
  apply oneSegment_completes laterRun_wellFormed laterRun_completes (afterLater_frames oneSegment_pages)
  intro v hv
  exact .inr (laterRun_page hv)

theorem afterEmpty_look {b : Buffer .x86_64} {v : ℕ} (hv : v < 2 ^ 64)
    (h : (tablePaths .x86_64 (b.elfPages elf64)).card + (b.elfPages elf64).length ≤ 5) :
    look .x86_64 0x1000 (afterEmpty b).tables v = effects b (b.effective elf64) v none := by
  have hlook : look .x86_64 0x1000 (afterEmpty b).tables v =
      effects b (b.effective elf64) v (look .x86_64 0x1000 emptyTables v) :=
    elfLoad_look (by decide) (afterEmpty_frames h) emptyTables_wellFormed hv
  rw [hlook, init_look emptyTables_init]

theorem afterLater_look {b : Buffer .x86_64} {v : ℕ} (hv : v < 2 ^ 64)
    (h : (tablePaths .x86_64 (b.elfPages elf64)).card + (b.elfPages elf64).length ≤ 5) :
    look .x86_64 0x1000 (afterLater b).tables v =
      effects b (b.effective elf64) v (effects laterSegment (laterSegment.effective elf64) v none) := by
  rw [← laterRun_look hv]
  exact elfLoad_look (by decide) (afterLater_frames h) laterRun_wellFormed hv

/-- No load raises a fault. The page of the first file has a byte of the earlier program behind its segment, and the
page of the second file, which ends before its segment does, has the rights of the earlier one. -/
theorem elfLoad_after_laterSegment :
    (∃ e : Event .x86_64, Supplied sixteenPages 0x1000 ⟨emptyTables, []⟩ [e] laterRun) ∧
    (Completes (afterEmpty (oneSegment 6 4)) ∧ Completes (afterLater (oneSegment 6 4)) ∧
      look .x86_64 0x1000 (afterEmpty (oneSegment 6 4)).tables 0x400008 = some (PAGE_WRITABLE ||| PAGE_USER, 0) ∧
      look .x86_64 0x1000 (afterLater (oneSegment 6 4)).tables 0x400008 = some (PAGE_WRITABLE ||| PAGE_USER, 0xAA)) ∧
    Completes (afterEmpty (oneSegment 4 8)) ∧ Completes (afterLater (oneSegment 4 8)) ∧
      (look .x86_64 0x1000 (afterEmpty (oneSegment 4 8)).tables 0x400000).map Prod.fst = some PAGE_USER ∧
      (look .x86_64 0x1000 (afterLater (oneSegment 4 8)).tables 0x400000).map Prod.fst =
        some (PAGE_WRITABLE ||| PAGE_USER) := by
  refine ⟨⟨_, later_supplied⟩, ⟨oneSegment_afterEmpty, oneSegment_afterLater, ?_, ?_⟩, ?_, ?_, ?_, ?_⟩
  · rw [afterEmpty_look (by decide) oneSegment_pages]
    decide
  · rw [afterLater_look (by decide) oneSegment_pages]
    decide
  · exact readOnlyCut_completes emptyTables_wellFormed empty_completes (afterEmpty_frames readOnlyCut_pages)
  · exact readOnlyCut_completes laterRun_wellFormed laterRun_completes (afterLater_frames readOnlyCut_pages)
  · rw [afterEmpty_look (by decide) readOnlyCut_pages]
    decide
  · rw [afterLater_look (by decide) readOnlyCut_pages]
    decide

theorem elfLoad_after_histories_later :
    look .x86_64 0x1000 (afterLater (oneSegment 6 4)).tables 0x400000 =
      look .x86_64 0x1000 (afterEmpty (oneSegment 6 4)).tables 0x400000 ∧
    look .x86_64 0x1000 (afterLater (oneSegment 6 4)).tables 0x400008 = some (PAGE_WRITABLE ||| PAGE_USER, 0xAA) := by
  have hall := elfLoad_after_histories sixteenPages_supply sixteenPages_supply emptyTables_init emptyTables_init
    later_supplied (.nil _) (afterLater_frames oneSegment_pages) (afterEmpty_frames oneSegment_pages)
  have hold : look .x86_64 0x1000 laterRun.tables 0x400008 = some (PAGE_WRITABLE ||| PAGE_USER, 0xAA) := by
    rw [laterRun_look (by decide)]
    decide
  obtain ⟨-, hstored, -⟩ := hall 0x400000 (by decide)
  obtain ⟨-, -, hkept⟩ := hall 0x400008 (by decide)
  obtain ⟨y, hy, hbyte⟩ := hkept _ hold
  refine ⟨(hstored oneSegment_afterLater oneSegment_afterEmpty (by decide)).1, ?_⟩
  have hsame : y = 0xAA := hbyte (by decide)
  rw [hsame] at hy
  exact hy

end JurkOS.Kernel.Loader
