import JurkOS.Kernel.Drivers.Framebuffer
import JurkOS.Lib.Run

/-!
Where the console of `drivers/framebuffer.c` draws. The cursor of a session is
followed character by character, through all its calls.
-/

namespace JurkOS.Kernel.Framebuffer

structure SameScreen (fb fb' : Fb) : Prop where
  addr : fb'.addr = fb.addr
  w : fb'.w = fb.w
  h : fb'.h = fb.h
  pitch : fb'.pitch = fb.pitch

theorem SameScreen.refl (fb : Fb) : SameScreen fb fb := ⟨rfl, rfl, rfl, rfl⟩

theorem SameScreen.trans {fb₁ fb₂ fb₃ : Fb} (h : SameScreen fb₁ fb₂) (h' : SameScreen fb₂ fb₃) : SameScreen fb₁ fb₃ :=
  ⟨h'.1.trans h.1, h'.2.trans h.2, h'.3.trans h.3, h'.4.trans h.4⟩

theorem newline_same (arch : Arch) (fb : Fb) : SameScreen fb (fbNewline fb arch).1 := by
  unfold fbNewline
  dsimp only
  split_ifs <;> exact ⟨rfl, rfl, rfl, rfl⟩

theorem newline_cursorX (arch : Arch) (fb : Fb) : (fbNewline fb arch).1.cursorX = 0 := by
  unfold fbNewline
  dsimp only
  split_ifs <;> rfl

theorem printChar_same (arch : Arch) (fb : Fb) (c : UInt8) (fg bg : ℕ) :
    SameScreen fb (fbPrintChar fb arch c fg bg).1 := by
  unfold fbPrintChar
  dsimp only
  split_ifs
  · exact newline_same arch fb
  · exact ⟨rfl, rfl, rfl, rfl⟩
  · exact ⟨rfl, rfl, rfl, rfl⟩
  · obtain ⟨h₁, h₂, h₃, h₄⟩ := newline_same arch { fb with cursorX := wrap32 (fb.cursorX + 8) }
    exact ⟨h₁, h₂, h₃, h₄⟩
  · exact ⟨rfl, rfl, rfl, rfl⟩

theorem printLoop_same (arch : Arch) (fb : Fb) (s : List UInt8) (fg bg : ℕ) :
    SameScreen fb (printLoop arch fg bg fb s).1 := by
  induction s generalizing fb with
  | nil => exact .refl fb
  | cons c s ih => exact (printChar_same arch fb c fg bg).trans (ih _)

theorem printColor_same (arch : Arch) (fb : Fb) (s : List UInt8) (fg bg : ℕ) :
    SameScreen fb (fbPrintColor fb arch s fg bg).1 := by
  unfold fbPrintColor
  split_ifs
  · exact .refl fb
  · exact printLoop_same arch fb s fg bg

def IsGlyph (c : UInt8) : Prop := c ≠ 10 ∧ c ≠ 13 ∧ c ≠ 9

instance (c : UInt8) : Decidable (IsGlyph c) := inferInstanceAs (Decidable (_ ∧ _))

inductive TextCall
  | printColor (str : List UInt8) (fg bg : ℕ)
  | clear (color : ℕ)

def TextCall.exec (arch : Arch) (fb : Fb) : TextCall → Fb
  | printColor str fg bg => (fbPrintColor fb arch str fg bg).1
  | clear color => (fbClear fb color).1

def loopDraws (arch : Arch) (fg bg : ℕ) : Fb → List UInt8 → List (ℕ × ℕ)
  | _, [] => []
  | fb, c :: str =>
    (if IsGlyph c then [(fb.cursorX, fb.cursorY)] else []) ++ loopDraws arch fg bg (fbPrintChar fb arch c fg bg).1 str

def TextCall.draws (arch : Arch) (fb : Fb) : TextCall → List (ℕ × ℕ)
  | printColor str fg bg => if fb.addr = 0 then [] else loopDraws arch fg bg fb str
  | clear _ => []

def sessionDraws (arch : Arch) : Fb → List TextCall → List (ℕ × ℕ)
  | _, [] => []
  | fb, call :: calls => call.draws arch fb ++ sessionDraws arch (call.exec arch fb) calls

inductive Event
  | char (c : UInt8)
  | clear

def Event.exec (arch : Arch) (fb : Fb) : Event → Fb
  | char c => (fbPrintChar fb arch c COLOR_WHITE COLOR_BLACK).1
  | clear => { fb with cursorX := 0, cursorY := 0 }

def TextCall.events : TextCall → List Event
  | printColor str _ _ => str.map .char
  | clear _ => [.clear]

def events (calls : List TextCall) : List Event := calls.flatMap TextCall.events

def after (arch : Arch) (fb : Fb) (l : List Event) : Fb := l.foldl (Event.exec arch) fb

def position (fb : Fb) : ℕ × ℕ := (fb.cursorX, fb.cursorY)

def tabStop (x : ℕ) : ℕ := wrap32 (x + 32) / 32 * 32

def Event.TAB : Event := .char 9

section Text

variable {arch : Arch} {fb : Fb}

theorem printChar_colors (arch : Arch) (fb : Fb) (c : UInt8) (fg bg fg' bg' : ℕ) :
    (fbPrintChar fb arch c fg bg).1 = (fbPrintChar fb arch c fg' bg').1 := by
  unfold fbPrintChar
  dsimp only
  split_ifs <;> rfl

theorem after_append (arch : Arch) (fb : Fb) (l l' : List Event) :
    after arch fb (l ++ l') = after arch (after arch fb l) l' := List.foldl_append

theorem printLoop_after (fg bg : ℕ) (str : List UInt8) :
    (printLoop arch fg bg fb str).1 = after arch fb (str.map .char) := by
  induction str generalizing fb with
  | nil => rfl
  | cons c str ih =>
    rw [printLoop, ih, printChar_colors arch fb c fg bg COLOR_WHITE COLOR_BLACK]
    rfl

theorem exec_after (arch : Arch) (haddr : fb.addr ≠ 0) (call : TextCall) :
    call.exec arch fb = after arch fb call.events := by
  cases call with
  | printColor str fg bg =>
    rw [TextCall.exec, fbPrintColor, if_neg haddr]
    exact printLoop_after fg bg str
  | clear color => rfl

theorem exec_same (arch : Arch) (fb : Fb) (e : Event) : SameScreen fb (e.exec arch fb) := by
  cases e with
  | char c => exact printChar_same arch fb c _ _
  | clear => exact ⟨rfl, rfl, rfl, rfl⟩

theorem after_same (arch : Arch) (fb : Fb) (l : List Event) : SameScreen fb (after arch fb l) := by
  induction l generalizing fb with
  | nil => exact .refl fb
  | cons e l ih => exact (exec_same arch fb e).trans (ih _)

def Event.draws (fb : Fb) : Event → List (ℕ × ℕ)
  | char c => if IsGlyph c then [position fb] else []
  | clear => []

def textDraws (arch : Arch) : Fb → List Event → List (ℕ × ℕ)
  | _, [] => []
  | fb, e :: l => e.draws fb ++ textDraws arch (e.exec arch fb) l

theorem textDraws_append (l l' : List Event) :
    textDraws arch fb (l ++ l') = textDraws arch fb l ++ textDraws arch (after arch fb l) l' := by
  induction l generalizing fb with
  | nil => rfl
  | cons e l ih =>
    rw [List.cons_append, textDraws, ih, textDraws, List.append_assoc]
    rfl

theorem loopDraws_eq (fg bg : ℕ) (str : List UInt8) :
    loopDraws arch fg bg fb str = textDraws arch fb (str.map .char) := by
  induction str generalizing fb with
  | nil => rfl
  | cons c str ih =>
    rw [loopDraws, ih, printChar_colors arch fb c fg bg COLOR_WHITE COLOR_BLACK]
    rfl

theorem sessionDraws_eq (haddr : fb.addr ≠ 0) (calls : List TextCall) :
    sessionDraws arch fb calls = textDraws arch fb (events calls) := by
  induction calls generalizing fb with
  | nil => rfl
  | cons call calls ih =>
    have hcall : call.draws arch fb = textDraws arch fb call.events := by
      cases call with
      | printColor str fg bg => rw [TextCall.draws, if_neg haddr, loopDraws_eq, TextCall.events]
      | clear color => rfl
    have hafter := exec_after arch haddr call
    have haddr' : (call.exec arch fb).addr ≠ 0 := by
      rw [hafter, (after_same arch fb call.events).addr]
      exact haddr
    rw [sessionDraws, ih haddr', hcall, hafter, ← textDraws_append]
    rfl

theorem mem_textDraws {es : List Event} {p : ℕ × ℕ} : p ∈ textDraws arch fb es ↔
    ∃ l c, l ++ [.char c] <+: es ∧ IsGlyph c ∧ p = position (after arch fb l) := by
  induction es generalizing fb with
  | nil => simp [textDraws]
  | cons e es ih =>
    rw [textDraws, List.mem_append, ih]
    constructor
    · rintro (hp | ⟨l, c, hl, hc, rfl⟩)
      · cases e with
        | char c =>
          simp only [Event.draws] at hp
          split_ifs at hp with hc
          · exact ⟨[], c, ⟨es, rfl⟩, hc, List.mem_singleton.mp hp⟩
          · cases hp
        | clear => cases hp
      · exact ⟨e :: l, c, List.cons_prefix_cons.mpr ⟨rfl, hl⟩, hc, rfl⟩
    · rintro ⟨l, c, hl, hc, rfl⟩
      cases l with
      | nil =>
        obtain ⟨rfl, -⟩ := List.cons_prefix_cons.mp hl
        exact .inl (by rw [Event.draws, if_pos hc]; exact List.mem_singleton.mpr rfl)
      | cons e' l =>
        obtain ⟨rfl, hrest⟩ := List.cons_prefix_cons.mp hl
        exact .inr ⟨l, c, hrest, hc, rfl⟩

end Text

def Inside (size edge z : ℕ) : Prop := z + size ≤ edge ∨ 2 ^ 32 ≤ z + size ∧ z ≤ edge

structure Placed (arch : Arch) (fb : Fb) (l : List Event) : Prop where
  column : Inside 8 fb.w (after arch fb l).cursorX ∨ ∃ l', l = l' ++ [Event.TAB]
  row : Inside 16 fb.h (after arch fb l).cursorY

section Cursor

variable {arch : Arch} {fb : Fb}

theorem newline_inside (fb : Fb) (hh : 16 ≤ fb.h) (hlt : fb.h < 2 ^ 32) (h : Inside 16 fb.h fb.cursorY) :
    Inside 16 fb.h (fbNewline fb arch).1.cursorY := by
  have hsub : sub32 fb.h 16 = fb.h - 16 := sub32_of_le hh hlt
  unfold Inside fbNewline wrap32 at *
  dsimp only
  split_ifs with hlast
  · dsimp only
    rw [hsub]
    omega
  · dsimp only
    omega

theorem exec_row (hh : 16 ≤ fb.h) (hlt : fb.h < 2 ^ 32) (h : Inside 16 fb.h fb.cursorY) (e : Event) :
    Inside 16 fb.h (e.exec arch fb).cursorY := by
  cases e with
  | clear => exact .inl (by rwa [Event.exec, Nat.zero_add])
  | char c =>
    unfold Event.exec fbPrintChar
    dsimp only
    split_ifs
    · exact newline_inside fb hh hlt h
    · exact h
    · exact h
    · exact newline_inside { fb with cursorX := wrap32 (fb.cursorX + 8) } hh hlt h
    · exact h

theorem exec_column (hw : 8 ≤ fb.w) (hlt : fb.w < 2 ^ 32) {e : Event} (hne : e ≠ Event.TAB)
    (hfits : ∀ c, e = .char c → IsGlyph c → fb.cursorX + 8 ≤ fb.w) : Inside 8 fb.w (e.exec arch fb).cursorX := by
  have hzero : Inside 8 fb.w 0 := .inl (by rwa [Nat.zero_add])
  cases e with
  | clear => exact hzero
  | char c =>
    unfold Event.exec fbPrintChar
    dsimp only
    split_ifs with hlf hcr htab hedge
    · rwa [newline_cursorX]
    · exact hzero
    · exact absurd (htab ▸ rfl) hne
    · rwa [newline_cursorX]
    · have hx := hfits c rfl ⟨hlf, hcr, htab⟩
      unfold Inside wrap32 at *
      dsimp only
      omega

structure InReach (arch : Arch) (fb : Fb) (l : List Event) : Prop where
  tab : ∀ l', l = l' ++ [Event.TAB] → tabStop (after arch fb l').cursorX + 8 ≤ fb.w
  column : 2 ^ 32 ≤ fb.w + 8 → (after arch fb l).cursorX + 8 < 2 ^ 32
  row : 2 ^ 32 ≤ fb.h + 16 → (after arch fb l).cursorY + 16 < 2 ^ 32

theorem Placed.onScreen {l : List Event} (h : Placed arch fb l) (hreach : InReach arch fb l) :
    (after arch fb l).cursorX + 8 ≤ fb.w ∧ (after arch fb l).cursorY + 16 ≤ fb.h := by
  have hcolumn := hreach.column
  have hrow := hreach.row
  constructor
  · rcases h.column with (hx | hx) | ⟨l', rfl⟩
    · exact hx
    · omega
    · have htab := hreach.tab l' rfl
      rw [after_append]
      exact htab
  · rcases h.row with hy | hy
    · exact hy
    · omega

theorem placed_of_inReach (hw : 8 ≤ fb.w) (hwlt : fb.w < 2 ^ 32) (hh : 16 ≤ fb.h) (hhlt : fb.h < 2 ^ 32)
    (hx : fb.cursorX = 0) (hy : fb.cursorY = 0) (l : List Event)
    (hreach : ∀ l' c, l' ++ [.char c] <+: l → IsGlyph c → InReach arch fb l') : Placed arch fb l := by
  induction l using List.reverseRecOn with
  | nil =>
    refine ⟨.inl (.inl ?_), .inl ?_⟩
    · change fb.cursorX + 8 ≤ fb.w
      omega
    · change fb.cursorY + 16 ≤ fb.h
      omega
  | append_singleton l e ih =>
    have hsame := after_same arch fb l
    have hbefore := ih fun l' c hl' => hreach l' c (hl'.trans (List.prefix_append l [e]))
    have hnext : after arch fb (l ++ [e]) = e.exec arch (after arch fb l) := by
      rw [after_append]
      rfl
    constructor
    · by_cases htab : e = Event.TAB
      · exact .inr ⟨l, by rw [htab]⟩
      · rw [hnext, ← hsame.w]
        refine .inl (exec_column (hsame.w.symm ▸ hw) (hsame.w.symm ▸ hwlt) htab ?_)
        rintro c rfl hc
        rw [hsame.w]
        exact (hbefore.onScreen (hreach l c (List.prefix_refl _) hc)).1
    · rw [hnext, ← hsame.h]
      exact exec_row (hsame.h.symm ▸ hh) (hsame.h.symm ▸ hhlt) (hsame.h.symm ▸ hbefore.row) e

theorem sessionDraws_unset (haddr : fb.addr = 0) (calls : List TextCall) : sessionDraws arch fb calls = [] := by
  induction calls generalizing fb with
  | nil => rfl
  | cons call calls ih =>
    have hexec : (call.exec arch fb).addr = 0 := by
      cases call with
      | printColor str fg bg => exact (printColor_same arch fb str fg bg).addr.trans haddr
      | clear color => exact haddr
    have hdraws : call.draws arch fb = [] := by
      cases call with
      | printColor str fg bg => exact if_pos haddr
      | clear color => rfl
    rw [sessionDraws, hdraws, ih hexec]
    rfl

end Cursor

/-- Everything a session prints is on the screen, if and only if no character stands behind a tab that stops
short of its cell: after a tab the end of the row is not looked at. -/
theorem draws_onScreen_iff (arch : Arch) {addr w h pitch : ℕ} (hw : 8 ≤ w) (hwlt : w < 2 ^ 32) (hh : 16 ≤ h)
    (hhlt : h < 2 ^ 32) (calls : List TextCall) :
    (∀ p ∈ sessionDraws arch (fbInit addr w h pitch).1 calls, p.1 + 8 ≤ w ∧ p.2 + 16 ≤ h) ↔
      addr = 0 ∨ ∀ l c, l ++ [.char c] <+: events calls → IsGlyph c → InReach arch (fbInit addr w h pitch).1 l := by
  by_cases haddr : addr = 0
  · rw [sessionDraws_unset haddr]
    exact iff_of_true (fun _ hp => absurd hp List.not_mem_nil) (.inl haddr)
  · rw [sessionDraws_eq haddr, or_iff_right haddr]
    constructor
    · intro hall l c hl hc
      obtain ⟨hx, hy⟩ := hall _ (mem_textDraws.mpr ⟨l, c, hl, hc, rfl⟩)
      refine ⟨?_, fun _ => hx.trans_lt hwlt, fun _ => hy.trans_lt hhlt⟩
      rintro l' rfl
      rw [after_append] at hx
      exact hx
    · rintro hreach p hp
      obtain ⟨l, c, hl, hc, rfl⟩ := mem_textDraws.mp hp
      have hplaced := placed_of_inReach hw hwlt hh hhlt rfl rfl l fun l' c' hl' hc' =>
        hreach l' c' (hl'.trans ((List.prefix_append l [.char c]).trans hl)) hc'
      exact hplaced.onScreen (hreach l c hl hc)

theorem draws_onScreen_tab : (sessionDraws .x86_64 (fbInit 0xFD000000 1024 768 4096).1
    [.clear 0, .printColor [9] 7 0, .printColor [0x41] 7 0]).all fun p => p.1 + 8 ≤ 1024 ∧ p.2 + 16 ≤ 768 := by
  rw [List.all_eq_true]
  intro p hp
  apply decide_eq_true
  revert p
  apply (draws_onScreen_iff .x86_64 (by decide) (by decide) (by decide) (by decide) _).mpr (.inr _)
  intro l c hl hc
  refine ⟨?_, fun h => absurd h (by decide), fun h => absurd h (by decide)⟩
  rintro l' rfl
  -- only the clearing is in front of the tab
  have hlen : l'.length ≤ 1 := by simpa [events, TextCall.events] using hl.length_le
  match l', hlen with
  | [], _ => decide
  | [e], _ =>
    obtain ⟨rfl, -⟩ := List.cons_prefix_cons.mp hl
    decide

theorem draws_behind_tabs : ¬∀ p ∈ sessionDraws .x86_64 (fbInit 0xFD000000 1024 768 4096).1
    [.printColor (List.replicate 32 9 ++ [0x41]) 7 0], p.1 + 8 ≤ 1024 ∧ p.2 + 16 ≤ 768 := by
  intro h
  exact absurd (h (1024, 0) (by decide)) (by decide)

end JurkOS.Kernel.Framebuffer
