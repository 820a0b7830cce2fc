import JurkOS.Lib.Run
import JurkOS.Userland.JurkStore
import Mathlib.Data.List.Perm.Basic

/-!
The package list of `jurkstore.c` over a run of `add_or_update_app` calls: its
length, and when its names and its ids stay distinct.
-/

namespace JurkOS.Userland

open Lib.Libc Lib.Run

/-- The arguments of `add_or_update_app`, with the files as they are at the call. -/
structure Call where
  id : Str
  name : Str
  version : Str
  author : Str
  description : Str
  download : Str
  stat : Str → Option Stat

def Call.entry (c : Call) : AppEntry :=
  newEntry c.stat (cstr c.id) (cstr c.name) c.version c.author c.description c.download

def addApp (apps : List AppEntry) (c : Call) : List AppEntry := addOrUpdateApp c.entry (cstr c.id) (cstr c.name) apps

def catalog (calls : List Call) : List AppEntry := calls.foldl addApp []

structure Distinct (apps : List AppEntry) : Prop where
  names : (apps.map fun app => app.name.text).Nodup
  ids : (apps.map fun app => app.id.text).Nodup

def matched (apps : List AppEntry) (c : Call) : Option ℕ :=
  apps.findIdx? fun app => app.name.text = cstr c.name ∨ app.id.text = cstr c.id

def others (apps : List AppEntry) (c : Call) : List AppEntry :=
  match matched apps c with
  | some i => apps.eraseIdx i
  | none => apps

def Fits (apps : List AppEntry) (c : Call) : Prop :=
  (matched apps c = none ∧ MAX_APPS ≤ apps.length) ∨
    ∀ app ∈ others apps c, app.name.text ≠ (cstr c.name).take 63 ∧ app.id.text ≠ (cstr c.id).take 63

@[simp] theorem Call.entry_name (c : Call) : c.entry.name.text = (cstr c.name).take 63 := by
  simp only [Call.entry, newEntry, safeStrcpy]
  rw [cstr_of_notMem (zero_notMem_cstr c.name)]

@[simp] theorem Call.entry_id (c : Call) : c.entry.id.text = (cstr c.id).take 63 := by
  simp only [Call.entry, newEntry, safeStrcpy]
  rw [cstr_of_notMem (zero_notMem_cstr c.id)]

theorem addApp_cases (apps : List AppEntry) (c : Call) :
    (∃ i < apps.length, matched apps c = some i ∧ addApp apps c = apps.set i c.entry) ∨
    (matched apps c = none ∧ MAX_APPS ≤ apps.length ∧ addApp apps c = apps) ∨
    (matched apps c = none ∧ apps.length < MAX_APPS ∧ addApp apps c = apps ++ [c.entry]) := by
  unfold addApp addOrUpdateApp matched
  split
  · rename_i i hi
    exact .inl ⟨i, (List.findIdx?_eq_some_iff_getElem.mp hi).1, hi, rfl⟩
  · rename_i hnone
    split_ifs with hfull
    · exact .inr (.inl ⟨hnone, hfull, rfl⟩)
    · exact .inr (.inr ⟨hnone, Nat.lt_of_not_le hfull, rfl⟩)

theorem length_addApp_le {apps : List AppEntry} (h : apps.length ≤ MAX_APPS) (c : Call) :
    (addApp apps c).length ≤ MAX_APPS := by
  rcases addApp_cases apps c with ⟨i, -, -, he⟩ | ⟨-, -, he⟩ | ⟨-, hlt, he⟩
  · rw [he, List.length_set]
    exact h
  · rw [he]
    exact h
  · rw [he, List.length_append]
    exact hlt

theorem Distinct.perm {apps apps' : List AppEntry} (h : apps.Perm apps') : Distinct apps ↔ Distinct apps' :=
  ⟨fun hd => ⟨(h.map _).nodup_iff.mp hd.names, (h.map _).nodup_iff.mp hd.ids⟩,
    fun hd => ⟨(h.map _).nodup_iff.mpr hd.names, (h.map _).nodup_iff.mpr hd.ids⟩⟩

theorem distinct_cons {app : AppEntry} {apps : List AppEntry} (h : Distinct apps) :
    Distinct (app :: apps) ↔ ∀ other ∈ apps, other.name.text ≠ app.name.text ∧ other.id.text ≠ app.id.text := by
  constructor
  · rintro ⟨hnames, hids⟩ other hother
    rw [List.map_cons, List.nodup_cons] at hnames hids
    exact ⟨fun he => hnames.1 (he ▸ List.mem_map_of_mem hother), fun he => hids.1 (he ▸ List.mem_map_of_mem hother)⟩
  · intro hall
    constructor
    · rw [List.map_cons, List.nodup_cons]
      refine ⟨fun hmem => ?_, h.names⟩
      obtain ⟨other, hother, he⟩ := List.mem_map.mp hmem
      exact (hall other hother).1 he
    · rw [List.map_cons, List.nodup_cons]
      refine ⟨fun hmem => ?_, h.ids⟩
      obtain ⟨other, hother, he⟩ := List.mem_map.mp hmem
      exact (hall other hother).2 he

theorem Distinct.eraseIdx {apps : List AppEntry} (h : Distinct apps) (i : ℕ) : Distinct (apps.eraseIdx i) where
  names := h.names.sublist ((List.eraseIdx_sublist apps i).map _)
  ids := h.ids.sublist ((List.eraseIdx_sublist apps i).map _)

theorem distinct_addApp_iff {apps : List AppEntry} (h : Distinct apps) (c : Call) :
    Distinct (addApp apps c) ↔ Fits apps c := by
  unfold Fits others
  rcases addApp_cases apps c with ⟨i, hi, hm, he⟩ | ⟨hm, hfull, he⟩ | ⟨hm, hlt, he⟩
  · rw [he, hm, Distinct.perm (List.set_perm_cons_eraseIdx hi c.entry), distinct_cons (h.eraseIdx i)]
    simp
  · rw [he]
    exact iff_of_true h (.inl ⟨hm, hfull⟩)
  · rw [he, hm, Distinct.perm (List.perm_append_singleton c.entry apps), distinct_cons h]
    simp [Nat.not_le.mpr hlt]

theorem catalog_concat (calls : List Call) (c : Call) : catalog (calls ++ [c]) = addApp (catalog calls) c := by
  simp [catalog]

theorem length_catalog_le (calls : List Call) : (catalog calls).length ≤ MAX_APPS := by
  induction calls using List.reverseRecOn with
  | nil => exact Nat.zero_le _
  | append_singleton calls c ih =>
    rw [catalog_concat]
    exact length_addApp_le ih c

theorem catalog_distinct_iff (calls : List Call) :
    (∀ l, l <+: calls → (catalog l).length ≤ MAX_APPS ∧ Distinct (catalog l)) ↔
      ∀ l c, l ++ [c] <+: calls → Fits (catalog l) c := by
  have hempty : Distinct [] := ⟨List.nodup_nil, List.nodup_nil⟩
  have hrun : (∀ l, l <+: calls → Distinct (catalog l)) ↔ ∀ l c, l ++ [c] <+: calls → Fits (catalog l) c :=
    forall_foldl_iff (f := addApp) (P := Distinct) (fun _ c h => distinct_addApp_iff h c) hempty calls
  constructor
  · intro h
    exact hrun.mp fun l hl => (h l hl).2
  · intro h l hl
    exact ⟨length_catalog_le l, hrun.mpr h l hl⟩

def call (id name : Str) : Call := ⟨id, name, [], [], [], [], fun _ => none⟩

theorem catalog_renamed :
    ¬Distinct (catalog
      [call (bytes "a") (bytes "one"), call (bytes "b") (bytes "two"), call (bytes "a") (bytes "two")]) := by
  intro h
  have hnames := h.names
  revert hnames
  decide

end JurkOS.Userland
