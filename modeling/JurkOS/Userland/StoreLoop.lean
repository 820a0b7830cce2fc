import JurkOS.Lib.Run
import JurkOS.Userland.Catalog

/-!
The key loop of `main` in `jurkstore.c`, with the keys that its views read: which
entry of the package list each view and each command is handed.
-/

namespace JurkOS.Userland

open Lib.Libc Lib.Run

def key (c : Char) : ℤ := c.toNat

def ESCAPE : ℤ := 27

structure Use where
  index : ℤ
  count : ℕ

def Use.InRange (use : Use) : Prop := 0 ≤ use.index ∧ use.index < use.count

inductive Point
  | menu
  | escape
  | bracket
  | detail
  | detailEscape
  | detailBracket
  | anyKey
  | exited
  | lost

structure Store where
  apps : List AppEntry
  selected : ℤ
  point : Point
  uses : List Use

/-- A key, and what the system answers to what it starts. -/
structure Press where
  key : ℤ
  installs : Bool
  synced : List Call
  stat : Str → Option Stat

def refreshStates (stat : Str → Option Stat) (apps : List AppEntry) : List AppEntry :=
  apps.map fun app =>
    { app with
      installed := isAppInstalled stat app.name.text
      hasLocal := (checkLocalBinary stat app.id.text app.name.text).isSome }

namespace Store

variable (s : Store)

def appCount : ℕ := s.apps.length

def loop : Store :=
  let selected := if s.selected < 0 then 0 else s.selected
  { s with
    selected := if selected ≥ s.appCount then s.appCount - 1 else selected
    point := .menu }

def up : Store := if s.selected > 0 then { s with selected := s.selected - 1 } else s

def down : Store := if s.selected < s.appCount - 1 then { s with selected := s.selected + 1 } else s

def hand (next : Point) : Store :=
  { s with
    point := if 0 ≤ s.selected ∧ s.selected < s.appCount then next else .lost
    uses := s.uses ++ [⟨s.selected, s.appCount⟩] }

def setInstalled (installed : Bool) : Store :=
  { s with apps := s.apps.modify s.selected.toNat fun app => { app with installed := installed } }

def isInstalled : Bool := (s.apps[s.selected.toNat]?).any AppEntry.installed

def showDetailView : Store := s.hand .detail

def installApp (installs : Bool) : Store := (s.hand .anyKey).setInstalled installs

def uninstallApp : Store := (s.hand .anyKey).setInstalled false

def refreshRemoteCatalog (e : Press) : Store :=
  { s with apps := refreshStates e.stat (e.synced.foldl addApp s.apps), point := .anyKey }

def atMenu (e : Press) : Store :=
  let c := e.key
  if c = ESCAPE then { s with point := .escape }
  else if c = key 'k' ∨ c = key 'K' ∨ c = key 'w' ∨ c = key 'W' then s.up.loop
  else if c = key 'j' ∨ c = key 'J' ∨ c = key 's' ∨ c = key 'S' then s.down.loop
  else if c = key '\n' ∨ c = key '\r' ∨ c = key ' ' then
    if s.appCount > 0 then s.showDetailView else s.loop
  else if c = key 'i' ∨ c = key 'I' then
    if s.appCount > 0 then s.installApp e.installs else s.loop
  else if c = key 'u' ∨ c = key 'U' then
    if s.appCount > 0 ∧ s.isInstalled then s.uninstallApp else s.loop
  else if c = key 'r' ∨ c = key 'R' then s.refreshRemoteCatalog e
  else if c = key 'q' ∨ c = key 'Q' then { s with point := .exited }
  else s.loop

def atEscape (e : Press) : Store :=
  if e.key = key '[' then { s with point := .bracket }
  else if e.key = ESCAPE then { s with point := .exited }
  else s.loop

def atBracket (e : Press) : Store :=
  if e.key = key 'A' then s.up.loop
  else if e.key = key 'B' then s.down.loop
  else if e.key = key 'C' then s.showDetailView
  else s.loop

def atDetail (e : Press) : Store :=
  let c := e.key
  if c = key 'q' ∨ c = key 'Q' then { s with point := .exited }
  else if c = key 'b' ∨ c = key 'B' then s.loop
  else if c = ESCAPE then { s with point := .detailEscape }
  else if c = key 'i' ∨ c = key 'I' then s.installApp e.installs
  else if (c = key 'u' ∨ c = key 'U') ∧ s.isInstalled then s.uninstallApp
  else s

def atDetailEscape (e : Press) : Store := if e.key = key '[' then { s with point := .detailBracket } else s.loop

def press (e : Press) : Store :=
  match s.point with
  | .menu => s.atMenu e
  | .escape => s.atEscape e
  | .bracket => s.atBracket e
  | .detail => s.atDetail e
  | .detailEscape => s.atDetailEscape e
  | .detailBracket => s.loop
  | .anyKey => s.loop
  | .exited => s
  | .lost => s

end Store

def storeMain (calls : List Call) (stat : Str → Option Stat) : Store :=
  Store.loop ⟨refreshStates stat (catalog calls), 0, .menu, []⟩

def session (calls : List Call) (stat : Str → Option Stat) (presses : List Press) : Store :=
  presses.foldl Store.press (storeMain calls stat)

def RightOnEmpty (s : Store) (e : Press) : Prop := s.point = .bracket ∧ s.apps = [] ∧ e.key = key 'C'

section Selection

variable {s : Store}

def Store.Valid (s : Store) : Prop := 0 ≤ s.selected ∧ s.selected < s.appCount

def Store.Selects (s : Store) : Prop := s.Valid ∨ s.apps = [] ∧ s.selected = -1

def Store.Ready (s : Store) : Prop :=
  match s.point with
  | .menu | .escape | .bracket => s.Selects
  | .detail | .detailEscape | .detailBracket => s.Valid
  | .anyKey | .exited => True
  | .lost => False

def Store.Sound (s : Store) : Prop := s.Ready ∧ ∀ use ∈ s.uses, use.InRange

theorem loop_selects (s : Store) : s.loop.Selects := by
  unfold Store.Selects Store.Valid Store.loop Store.appCount
  cases hs : s.apps with
  | nil => exact .inr ⟨rfl, by simp only [List.length_nil]; split_ifs <;> omega⟩
  | cons app apps =>
    left
    simp only [List.length_cons]
    split_ifs <;> omega

theorem loop_sound (h : ∀ use ∈ s.uses, use.InRange) : s.loop.Sound := ⟨loop_selects s, h⟩

theorem Store.Selects.valid (h : s.Selects) (hs : s.appCount > 0) : s.Valid := by
  rcases h with h | ⟨hnil, -⟩
  · exact h
  · rw [Store.appCount, hnil] at hs
    exact absurd hs (lt_irrefl 0)

theorem hand_uses (h : s.Valid) (huses : ∀ use ∈ s.uses, use.InRange) (next : Point) :
    ∀ use ∈ (s.hand next).uses, use.InRange := by
  intro use hmem
  rcases List.mem_append.mp hmem with hold | hnew
  · exact huses use hold
  · obtain rfl := List.mem_singleton.mp hnew
    exact h

theorem hand_point (h : s.Valid) (next : Point) : (s.hand next).point = next := if_pos h

theorem showDetailView_sound (h : s.Valid) (huses : ∀ use ∈ s.uses, use.InRange) : s.showDetailView.Sound := by
  refine ⟨?_, hand_uses h huses .detail⟩
  unfold Store.Ready Store.showDetailView
  rw [hand_point h]
  exact h

theorem installed_sound (h : s.Valid) (huses : ∀ use ∈ s.uses, use.InRange) (b : Bool) :
    ((s.hand .anyKey).setInstalled b).Sound := by
  refine ⟨?_, hand_uses h huses .anyKey⟩
  have hpoint : ((s.hand .anyKey).setInstalled b).point = .anyKey := hand_point h .anyKey
  unfold Store.Ready
  rw [hpoint]
  trivial

theorem Store.up_uses (s : Store) : s.up.uses = s.uses := by
  unfold Store.up
  split_ifs <;> rfl

theorem Store.down_uses (s : Store) : s.down.uses = s.uses := by
  unfold Store.down
  split_ifs <;> rfl

theorem atMenu_sound (h : s.Selects) (huses : ∀ use ∈ s.uses, use.InRange) (e : Press) : (s.atMenu e).Sound := by
  unfold Store.atMenu
  dsimp only
  split_ifs with _ _ _ _ hview _ hinstall _ huninstall
  · exact ⟨h, huses⟩
  · exact loop_sound (s.up_uses ▸ huses)
  · exact loop_sound (s.down_uses ▸ huses)
  · exact showDetailView_sound (h.valid hview) huses
  · exact loop_sound huses
  · exact installed_sound (h.valid hinstall) huses e.installs
  · exact loop_sound huses
  · exact installed_sound (h.valid huninstall.1) huses false
  · exact loop_sound huses
  · exact ⟨trivial, huses⟩
  · exact ⟨trivial, huses⟩
  · exact loop_sound huses

theorem atEscape_sound (h : s.Selects) (huses : ∀ use ∈ s.uses, use.InRange) (e : Press) : (s.atEscape e).Sound := by
  unfold Store.atEscape
  split_ifs
  · exact ⟨h, huses⟩
  · exact ⟨trivial, huses⟩
  · exact loop_sound huses

theorem atDetail_sound (hpoint : s.point = .detail) (h : s.Valid) (huses : ∀ use ∈ s.uses, use.InRange) (e : Press) :
    (s.atDetail e).Sound := by
  unfold Store.atDetail
  dsimp only
  split_ifs
  · exact ⟨trivial, huses⟩
  · exact loop_sound huses
  · exact ⟨h, huses⟩
  · exact installed_sound h huses e.installs
  · exact installed_sound h huses false
  · refine ⟨?_, huses⟩
    unfold Store.Ready
    rw [hpoint]
    exact h

theorem atBracket_sound_iff (h : s.Selects) (huses : ∀ use ∈ s.uses, use.InRange) (e : Press) :
    (s.atBracket e).Sound ↔ ¬ (s.apps = [] ∧ e.key = key 'C') := by
  unfold Store.atBracket
  split_ifs with hup hdown hright
  · apply iff_of_true (loop_sound (s.up_uses ▸ huses))
    rw [hup]
    simp [key]
  · apply iff_of_true (loop_sound (s.down_uses ▸ huses))
    rw [hdown]
    simp [key]
  · rcases h with h | ⟨hnil, hnone⟩
    · apply iff_of_true (showDetailView_sound h huses)
      rintro ⟨hnil, -⟩
      rw [Store.Valid, Store.appCount, hnil] at h
      exact absurd (h.1.trans_lt h.2) (lt_irrefl _)
    · refine iff_of_false ?_ (not_not.mpr ⟨hnil, hright⟩)
      rintro ⟨-, hall⟩
      have hbad := hall ⟨s.selected, s.appCount⟩ (List.mem_append_right _ (List.mem_singleton_self _))
      have hneg : 0 ≤ s.selected := hbad.1
      rw [hnone] at hneg
      exact absurd hneg (by decide)
  · exact iff_of_true (loop_sound huses) fun hempty => hright hempty.2

theorem press_sound_iff (s : Store) (e : Press) (h : s.Sound) : (s.press e).Sound ↔ ¬ RightOnEmpty s e := by
  obtain ⟨hready, huses⟩ := h
  unfold Store.Ready at hready
  unfold Store.press RightOnEmpty
  cases hpoint : s.point with
  | menu =>
    rw [hpoint] at hready
    exact iff_of_true (atMenu_sound hready huses e) (by simp)
  | escape =>
    rw [hpoint] at hready
    exact iff_of_true (atEscape_sound hready huses e) (by simp)
  | bracket =>
    rw [hpoint] at hready
    simp only [true_and]
    exact atBracket_sound_iff hready huses e
  | detail =>
    rw [hpoint] at hready
    exact iff_of_true (atDetail_sound hpoint hready huses e) (by simp)
  | detailEscape =>
    rw [hpoint] at hready
    refine iff_of_true ?_ (by simp)
    simp only [Store.atDetailEscape]
    split_ifs
    · exact ⟨hready, huses⟩
    · exact loop_sound huses
  | detailBracket => exact iff_of_true (loop_sound huses) (by simp)
  | anyKey => exact iff_of_true (loop_sound huses) (by simp)
  | exited =>
    refine iff_of_true ⟨?_, huses⟩ (by simp)
    unfold Store.Ready
    rw [hpoint]
    trivial
  | lost =>
    rw [hpoint] at hready
    exact hready.elim

end Selection

theorem rightOnEmpty_uses {s : Store} {e : Press} (h : RightOnEmpty s e) :
    ∃ use ∈ (s.press e).uses, ¬ use.InRange := by
  obtain ⟨hpoint, hnil, hright⟩ := h
  have hpress : s.press e = s.showDetailView := by
    simp only [Store.press, hpoint, Store.atBracket, hright]
    rfl
  rw [hpress]
  refine ⟨⟨s.selected, s.appCount⟩, List.mem_append_right _ (List.mem_singleton_self _), ?_⟩
  rintro ⟨hlo, hhi⟩
  rw [Store.appCount, hnil] at hhi
  exact absurd (hlo.trans_lt hhi) (lt_irrefl _)

theorem press_uses (s : Store) (e : Press) : s.uses <+: (s.press e).uses := by
  have hview : s.uses <+: s.showDetailView.uses := List.prefix_append _ _
  have hloop : s.uses <+: s.loop.uses := List.prefix_refl _
  have hup : s.uses <+: s.up.loop.uses := by simp [Store.loop, s.up_uses]
  have hdown : s.uses <+: s.down.loop.uses := by simp [Store.loop, s.down_uses]
  unfold Store.press
  cases s.point with
  | menu =>
    simp only [Store.atMenu]
    split_ifs
    all_goals first | exact hloop | exact hup | exact hdown | exact hview
  | escape =>
    simp only [Store.atEscape]
    split_ifs <;> exact hloop
  | bracket =>
    simp only [Store.atBracket]
    split_ifs
    all_goals first | exact hloop | exact hup | exact hdown | exact hview
  | detail =>
    simp only [Store.atDetail]
    split_ifs
    all_goals first | exact hloop | exact hview
  | detailEscape =>
    simp only [Store.atDetailEscape]
    split_ifs <;> exact hloop
  | detailBracket => exact hloop
  | anyKey => exact hloop
  | exited => exact hloop
  | lost => exact hloop

theorem session_uses (calls : List Call) (stat : Str → Option Stat) {l presses : List Press} (h : l <+: presses) :
    (session calls stat l).uses <+: (session calls stat presses).uses := by
  obtain ⟨t, rfl⟩ := h
  unfold session
  rw [List.foldl_append]
  generalize l.foldl Store.press (storeMain calls stat) = s
  induction t generalizing s with
  | nil => exact List.prefix_refl _
  | cons e t ih => exact (press_uses s e).trans (ih (s.press e))

theorem session_uses_inRange_iff (calls : List Call) (stat : Str → Option Stat) (presses : List Press) :
    (∀ use ∈ (session calls stat presses).uses, use.InRange) ↔
      ∀ l e, l ++ [e] <+: presses → ¬ RightOnEmpty (session calls stat l) e := by
  have hstart : (storeMain calls stat).Sound := loop_sound fun use hmem => by cases hmem
  constructor
  · intro hall l e hl hempty
    obtain ⟨use, hmem, hbad⟩ := rightOnEmpty_uses hempty
    have hnext : session calls stat (l ++ [e]) = (session calls stat l).press e := List.foldl_append
    have hlater := session_uses calls stat hl
    rw [hnext] at hlater
    exact hbad (hall use (hlater.subset hmem))
  · intro hgood
    have hrun := (forall_foldl_iff press_sound_iff hstart presses).mpr hgood
    exact (hrun presses (List.prefix_refl _)).2

def press (k : ℤ) : Press := ⟨k, false, [], fun _ => none⟩

theorem session_empty_right :
    ¬ ∀ use ∈ (session [] (fun _ => none) [press ESCAPE, press (key '['), press (key 'C')]).uses, use.InRange := by
  have huses : (session [] (fun _ => none) [press ESCAPE, press (key '['), press (key 'C')]).uses = [⟨-1, 0⟩] := rfl
  intro hall
  rw [huses] at hall
  exact absurd (hall _ (List.mem_singleton_self _)).1 (by decide)

end JurkOS.Userland
