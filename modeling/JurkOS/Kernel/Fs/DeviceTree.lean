import JurkOS.Kernel.Fs.Evolution
import Mathlib.Data.List.Forall2

/-!
Where `devfs_register` puts a device and what a lookup of its path comes to. The
tree of `devfs.c` is a list of folders; a directory has room for 16 entries and
a name stands for the first entry that has it.
-/

namespace JurkOS.Kernel.Fs

open Lib.Libc Lib.Run

variable {σ : Type} {K : Machine σ}

/-- `name` or `folder/name`; it is the first slash that cuts the path. -/
inductive DevPath
  | device (name : Name)
  | inFolder (folder name : Name)

namespace DevPath

def path : DevPath → Name
  | device name => name
  | inFolder folder name => folder ++ SLASH :: name

def components : DevPath → List Name
  | device name => [name]
  | inFolder folder name => [folder, name]

def Valid : DevPath → Prop
  | device name => SLASH ∉ name ∧ name.length < 64
  | inFolder folder name => SLASH ∉ folder ∧ folder.length < 32 ∧ name.length < 64

instance : DecidablePred Valid
  | device _ => inferInstanceAs (Decidable (_ ∧ _))
  | inFolder _ _ => inferInstanceAs (Decidable (_ ∧ _ ∧ _))

end DevPath

variable (K) in
def finddirAll (s : State σ) (p : ℕ) : List Name → Option (ℕ × State σ)
  | [] => some (p, s)
  | name :: rest => do
    let (next, s) ← vfsFinddir K s p name
    finddirAll s next rest

/-! ### The tree -/

def addEntry {α : Type} (l : List α) (x : α) : List α := if l.length < 16 then l ++ [x] else l

/-- An entry of the root with what it has itself as its entries. -/
structure Folder where
  name : Name
  type : ℕ
  children : List Name

abbrev DevTree := List Folder

namespace DevTree

def insert (folder name : Name) : DevTree → DevTree
  | [] => []
  | e :: t =>
    if e.name = folder then { e with children := addEntry e.children name } :: t else e :: insert folder name t

def register (t : DevTree) (path : DevPath) (flags : ℕ) : DevTree :=
  match path with
  | .device name => addEntry t ⟨name, flags, []⟩
  | .inFolder folder name =>
    if ∃ e ∈ t, e.name = folder then t.insert folder name else addEntry t ⟨folder, VFS_DIRECTORY, [name]⟩

def Fits (t : DevTree) : DevPath → Prop
  | .device name => t.length < 16 ∧ ∀ e ∈ t, e.name ≠ name
  | .inFolder folder name =>
    match t.find? (·.name = folder) with
    | none => t.length < 16
    | some e => e.type &&& VFS_DIRECTORY ≠ 0 ∧ e.children.length < 16 ∧ name ∉ e.children

instance (t : DevTree) : DecidablePred t.Fits
  | .device name => inferInstanceAs (Decidable (t.length < 16 ∧ ∀ e ∈ t, e.name ≠ name))
  | .inFolder folder name =>
    match h : t.find? (·.name = folder) with
    | none => decidable_of_iff (t.length < 16) (by rw [Fits, h])
    | some e =>
      decidable_of_iff (e.type &&& VFS_DIRECTORY ≠ 0 ∧ e.children.length < 16 ∧ ∀ c ∈ e.children, c ≠ name) (by
        rw [Fits, h, List.forall_mem_ne'])

def ofCalls (calls : List (DevPath × ℕ)) : DevTree := calls.foldl (fun t c => t.register c.1 c.2) []

end DevTree

/-! ### One directory -/

def Named (s : State σ) (l : List ℕ) (names : List Name) : Prop :=
  List.Forall₂ (fun p name => p ≠ 0 ∧ ∃ x, s.nodes p = some x ∧ x.name = name) l names

section

variable {s u v : State σ} {d p flags : ℕ} {x : Node} {name : Name} {l : List ℕ} {names : List Name}

theorem Named.extends {B : Kind → Prop} (h : Named s l names) (hext : Extends B s u) : Named u l names := by
  refine h.imp fun p name hp => ?_
  obtain ⟨hnull, x, hx, hname⟩ := hp
  obtain ⟨y, hy, hevolves⟩ := hext.old p x hx
  exact ⟨hnull, y, hy, hevolves.name.trans hname⟩

theorem Named.loop_absent (h : Named s l names) (hname : name ∉ names) : devfsFinddirLoop s name l = some 0 := by
  induction h with
  | nil => rfl
  | cons hp _ ih =>
    obtain ⟨-, x, hx, rfl⟩ := hp
    obtain ⟨hne, hrest⟩ := not_or.mp (mt List.mem_cons.mpr hname)
    rw [devfsFinddirLoop, hx]
    exact (if_neg (Ne.symm hne)).trans (ih hrest)

theorem Named.loop_present (h : Named s l names) (hname : name ∈ names) :
    ∃ q x, q ≠ 0 ∧ s.nodes q = some x ∧ devfsFinddirLoop s name l = some q := by
  induction h with
  | nil => cases hname
  | @cons q n l names hq _ ih =>
    obtain ⟨hnull, x, hx, rfl⟩ := hq
    rw [devfsFinddirLoop, hx]
    by_cases hn : x.name = name
    · exact ⟨q, x, hnull, hx, if_pos hn⟩
    · obtain ⟨q', x', hnull', hx', hloop⟩ := ih ((List.mem_cons.mp hname).resolve_left (Ne.symm hn))
      exact ⟨q', x', hnull', hx', (if_neg hn).trans hloop⟩

theorem Named.loop_append (h : Named s l names) (hname : name ∉ names) (r : List ℕ) :
    devfsFinddirLoop s name (l ++ r) = devfsFinddirLoop s name r := by
  induction h with
  | nil => rfl
  | cons hp _ ih =>
    obtain ⟨-, x, hx, rfl⟩ := hp
    obtain ⟨hne, hrest⟩ := not_or.mp (mt List.mem_cons.mpr hname)
    rw [List.cons_append, devfsFinddirLoop, hx]
    exact (if_neg (Ne.symm hne)).trans (ih hrest)

theorem Extends.loop {B : Kind → Prop} {l' : List ℕ} (h : Extends B s u) (hl : l <+: l')
    (hloop : devfsFinddirLoop s name l = some p) (hp : p ≠ 0) : devfsFinddirLoop u name l' = some p := by
  refine devfsFinddirLoop_names (fun q x hq => ?_) hl hloop hp
  obtain ⟨y, hy, hevolves⟩ := h.old q x hq
  exact ⟨y, hy, hevolves.name⟩

theorem vfsFinddir_devfs (hd : d ≠ 0) (hx : s.nodes d = some x) (hf : x.finddir = some .devfs) :
    vfsFinddir K s d name =
      if x.flags &&& VFS_DIRECTORY = 0 then some (0, s) else (devfsFinddirLoop s name x.children).map (·, s) := by
  rw [vfsFinddir, if_neg hd, hx]
  simp only [hf, devfsFinddirImpl]

variable (K) in
def registerIn (s : State σ) (d : ℕ) (name : Name) (flags : ℕ) : Option (ℕ × State σ) := do
  let (entry, s) ← devfsCreateEntry K s name flags
  let s ← addChild s d entry
  some (entry, s)

structure Entered (s : State σ) (d : ℕ) (x : Node) (name : Name) (flags p : ℕ) (u : State σ) : Prop where
  nonnull : p ≠ 0
  fresh : s.nodes p = none
  entry : u.nodes p = some { name := name, flags := flags, readdir := some .devfs, finddir := some .devfs }
  dir : u.nodes d = some { x with children := addEntry x.children p }
  other : ∀ q, q ≠ p → q ≠ d → u.nodes q = s.nodes q
  devRoot : u.devRoot = s.devRoot

theorem devfsCreateEntry_eq (h : devfsCreateEntry K s name flags = some (p, u)) :
    u.nodes = Function.update s.nodes p
        (some { name := name, flags := flags, readdir := some .devfs, finddir := some .devfs }) ∧
      u.devRoot = s.devRoot := by
  simp only [devfsCreateEntry, kzallocNode, Option.bind_eq_bind, Option.bind_eq_some_iff] at h
  obtain ⟨⟨q, s₁⟩, hq, h⟩ := h
  split_ifs at hq h
  obtain ⟨rfl, rfl⟩ := Prod.mk.inj (Option.some.inj hq)
  obtain ⟨rfl, rfl⟩ := Prod.mk.inj (Option.some.inj h)
  exact ⟨Function.update_idem .., rfl⟩

theorem addChild_eq (hx : s.nodes d = some x) (h : addChild s d p = some u) :
    u.nodes = Function.update s.nodes d (some { x with children := addEntry x.children p }) ∧
      u.devRoot = s.devRoot := by
  obtain ⟨node, hnode, hcases⟩ := addChild_cases h
  obtain rfl := Option.some.inj (hx.symm.trans hnode)
  unfold addEntry
  obtain ⟨hlen, rfl⟩ | ⟨hlen, rfl⟩ := hcases
  · rw [if_pos hlen]
    exact ⟨rfl, rfl⟩
  · rw [if_neg hlen]
    exact ⟨by rw [← hx, Function.update_eq_self], rfl⟩

theorem registerIn_entered (hs : WellFormed K s) (hx : s.nodes d = some x)
    (h : registerIn K s d name flags = some (p, u)) :
    Entered s d x name flags p u ∧ Extends (fun _ => True) s u ∧ WellFormed K u := by
  simp only [registerIn, Option.bind_eq_bind, Option.bind_eq_some_iff] at h
  obtain ⟨⟨q, s₁⟩, hentry, s₂, hadd, h⟩ := h
  obtain ⟨rfl, rfl⟩ := Prod.mk.inj (Option.some.inj h)
  have hcreated := devfsCreateEntry_created hs hentry
  have hext := (devfsCreateEntry_extends hs hentry).mono fun _ _ => trivial
  obtain ⟨hnodes, hroot⟩ := devfsCreateEntry_eq hentry
  have hdq : d ≠ q := by
    rintro rfl
    rw [hcreated.fresh] at hx
    cases hx
  have hx₁ : s₁.nodes d = some x := by rw [hnodes, Function.update_of_ne hdq, hx]
  obtain ⟨hnodes', hroot'⟩ := addChild_eq hx₁ hadd
  refine ⟨⟨hcreated.nonnull, hcreated.fresh, ?_, ?_, ?_, hroot'.trans hroot⟩,
    hext.trans (addChild_extends hadd), (addChild_keeps hcreated.wellFormed hadd).2⟩
  · rw [hnodes', Function.update_of_ne hdq.symm, hnodes, Function.update_self]
  · rw [hnodes', Function.update_self]
  · intro r hrq hrd
    rw [hnodes', Function.update_of_ne hrd, hnodes, Function.update_of_ne hrq]

theorem addEntry_of_lt {α : Type} {l : List α} (x : α) (h : l.length < 16) : addEntry l x = l ++ [x] := if_pos h

theorem addEntry_of_full {α : Type} {l : List α} (x : α) (h : ¬l.length < 16) : addEntry l x = l := if_neg h

theorem length_addEntry_le {α : Type} {l : List α} (x : α) (h : l.length ≤ 16) : (addEntry l x).length ≤ 16 := by
  unfold addEntry
  split_ifs
  · rw [List.length_append, List.length_singleton]
    omega
  · exact h

theorem addEntry_grows {α : Type} (l : List α) (x : α) : l <+: addEntry l x := by
  unfold addEntry
  split_ifs
  · exact List.prefix_append _ _
  · exact List.prefix_refl _

theorem mem_addEntry {α : Type} {l : List α} {x y : α} (h : y ∈ addEntry l x) : y ∈ l ∨ y = x := by
  unfold addEntry at h
  split_ifs at h
  · simpa using h
  · exact .inl h

theorem nodup_addEntry {α : Type} {l : List α} {x : α} (h : l.Nodup) (hx : x ∉ l) : (addEntry l x).Nodup := by
  unfold addEntry
  split_ifs
  · exact List.nodup_append.mpr ⟨h, by simp, by
      rintro y hy z hz rfl
      exact hx (List.mem_singleton.mp hz ▸ hy)⟩
  · exact h

namespace Entered

variable (h : Entered s d x name flags p u) (hd : d ≠ 0) (hf : x.finddir = some .devfs)
  (hnames : Named s x.children names) (hlen : x.children.length ≤ 16) (hu : Extends (fun _ => True) s u)
  (hv : Extends (fun _ => True) u v)

include h hd hf hv in
theorem later : ∃ y : Node, vfsFinddir K v d name =
      (if x.flags &&& VFS_DIRECTORY = 0 then some (0, v) else (devfsFinddirLoop v name y.children).map (·, v)) ∧
    addEntry x.children p <+: y.children ∧ (x.children.length ≤ 16 → y.children.length ≤ 16) := by
  obtain ⟨y, hy, hevolves⟩ := hv.old d _ h.dir
  have hflags : y.flags = x.flags := congrArg Kind.flags hevolves.kind
  have hfinddir : y.finddir = some .devfs := (congrArg Kind.finddir hevolves.kind).trans hf
  refine ⟨y, ?_, hevolves.children, fun hl => hevolves.fits (length_addEntry_le p hl)⟩
  rw [vfsFinddir_devfs hd hy hfinddir, hflags]

include h hd hf hnames hlen hu hv in
theorem lost (hfull : ¬x.children.length < 16) (hname : name ∉ names) : vfsFinddir K v d name = some (0, v) := by
  obtain ⟨y, hfind, hgrows, hfits⟩ := h.later (K := K) hd hf hv
  rw [hfind]
  split_ifs
  · rfl
  · rw [addEntry_of_full p hfull] at hgrows
    have hsame : x.children = y.children := hgrows.eq_of_length_le ((hfits hlen).trans (by omega))
    rw [← hsame, ((hnames.extends hu).extends hv).loop_absent hname]
    rfl

include h hd hf hnames hlen hu hv in
theorem found_iff : vfsFinddir K v d name = some (p, v) ↔
    x.flags &&& VFS_DIRECTORY ≠ 0 ∧ x.children.length < 16 ∧ name ∉ names := by
  obtain ⟨y, hfind, hgrows, -⟩ := h.later (K := K) hd hf hv
  have hnames' := (hnames.extends hu).extends hv
  by_cases hdir : x.flags &&& VFS_DIRECTORY = 0
  · refine iff_of_false (fun hp => ?_) (fun hp => hp.1 hdir)
    rw [hfind, if_pos hdir] at hp
    exact h.nonnull (Prod.mk.inj (Option.some.inj hp)).1.symm
  by_cases hname : name ∈ names
  · -- an older entry has the name
    refine iff_of_false (fun hp => ?_) (fun hp => hp.2.2 hname)
    obtain ⟨q, z, hqnull, hz, hloop⟩ := hnames.loop_present hname
    have hloop' := (hu.trans hv).loop ((addEntry_grows x.children p).trans hgrows) hloop hqnull
    rw [hfind, if_neg hdir, hloop'] at hp
    obtain rfl := (Prod.mk.inj (Option.some.inj hp)).1
    rw [h.fresh] at hz
    cases hz
  by_cases hroom : x.children.length < 16
  · refine iff_of_true ?_ ⟨hdir, hroom, hname⟩
    rw [addEntry_of_lt p hroom] at hgrows
    have hloop : devfsFinddirLoop v name (x.children ++ [p]) = some p := by
      obtain ⟨z, hz, hevolves⟩ := hv.old p _ h.entry
      rw [hnames'.loop_append hname, devfsFinddirLoop, hz]
      exact if_pos hevolves.name
    rw [hfind, if_neg hdir, (Extends.refl (B := fun _ => True) v).loop hgrows hloop h.nonnull]
    rfl
  · refine iff_of_false (fun hp => ?_) (fun hp => hroom hp.2.1)
    rw [h.lost hd hf hnames hlen hu hv hroom hname] at hp
    exact h.nonnull (Prod.mk.inj (Option.some.inj hp)).1.symm

end Entered

end

/-! ### The tree that the nodes show -/

structure Shown (s : State σ) (p : ℕ) (y : Node) (e : Folder) : Prop where
  nonnull : p ≠ 0
  node : s.nodes p = some y
  name : y.name = e.name
  type : y.flags = e.type
  finddir : y.finddir = some .devfs
  children : Named s y.children e.children
  length : y.children.length ≤ 16

structure Shows (s : State σ) (x : Node) (t : DevTree) : Prop where
  nonnull : s.devRoot ≠ 0
  node : s.nodes s.devRoot = some x
  type : x.flags = VFS_DIRECTORY
  finddir : x.finddir = some .devfs
  folders : List.Forall₂ (fun p e => ∃ y, Shown s p y e) x.children t
  length : x.children.length ≤ 16
  nodup : x.children.Nodup
  apart : s.devRoot ∉ x.children

inductive Registered (s : State σ) (x : Node) (flags p : ℕ) (u : State σ) : DevPath → Prop
  | device {name : Name} (h : Entered s s.devRoot x name flags p u) (hu : Extends (fun _ => True) s u) :
      Registered s x flags p u (.device name)
  | inFolder {folder name : Name} {q : ℕ} {y : Node} (hloop : devfsFinddirLoop s folder x.children = some q)
      (hq : q ≠ 0) (hy : s.nodes q = some y) (h : Entered s q y name flags p u)
      (hu : Extends (fun _ => True) s u) : Registered s x flags p u (.inFolder folder name)
  | newFolder {folder name : Name} {f : ℕ} {y : Node} {t : State σ}
      (hloop : devfsFinddirLoop s folder x.children = some 0)
      (hf : Entered s s.devRoot x folder VFS_DIRECTORY f t) (ht : Extends (fun _ => True) s t)
      (hy : y = { name := folder, flags := VFS_DIRECTORY, readdir := some .devfs, finddir := some .devfs })
      (h : Entered t f y name flags p u) (hu : Extends (fun _ => True) t u) :
      Registered s x flags p u (.inFolder folder name)

section

variable {s u v : State σ} {p q flags : ℕ} {x y : Node} {t : DevTree} {e : Folder} {folder name : Name} {l : List ℕ}

theorem path_device (hv : (DevPath.device name).Valid) (hroot : s.devRoot ≠ 0) :
    devfsRegister K s (DevPath.device name).path flags = registerIn K s s.devRoot name flags := by
  obtain ⟨hslash, hlen⟩ := hv
  have hall : name.takeWhile (· ≠ SLASH) = name := by
    rw [List.takeWhile_eq_self_iff]
    intro c hc
    exact decide_eq_true fun hcs => hslash (hcs ▸ hc)
  have hnot : ¬64 ≤ name.length := by omega
  simp only [devfsRegister, registerIn, DevPath.path, hroot, hall, hnot, lt_irrefl, if_false, false_and]
  rfl

theorem path_inFolder (hv : (DevPath.inFolder folder name).Valid) (hroot : s.devRoot ≠ 0) :
    devfsRegister K s (DevPath.inFolder folder name).path flags =
      (devfsFolder K s folder).bind fun r => registerIn K r.2 r.1 name flags := by
  obtain ⟨hslash, hfolder, hname⟩ := hv
  have hcut : (folder ++ SLASH :: name).takeWhile (· ≠ SLASH) = folder := by
    rw [List.takeWhile_append_of_pos]
    · simp
    · intro c hc
      exact decide_eq_true fun hcs => hslash (hcs ▸ hc)
  have hdrop : (folder ++ SLASH :: name).drop (folder.length + 1) = name := by simp
  have hlt : folder.length < (folder ++ SLASH :: name).length := by simp
  have h₁ : ¬32 ≤ folder.length := by omega
  have h₂ : ¬64 ≤ name.length := by omega
  simp only [devfsRegister, registerIn, DevPath.path, hroot, hcut, hdrop, hlt, h₁, h₂, if_false, if_true, and_false]
  rfl

theorem devfsFolder_registers (hx : s.nodes s.devRoot = some x)
    (h : devfsFolder K s folder = some (q, u)) :
    devfsFinddirLoop s folder x.children = some q ∧ q ≠ 0 ∧ u = s ∨
      devfsFinddirLoop s folder x.children = some 0 ∧
        registerIn K s s.devRoot folder VFS_DIRECTORY = some (q, u) := by
  obtain ⟨root, found, hroot, hfound, hcases⟩ := devfsFolder_cases h
  obtain rfl := Option.some.inj (hx.symm.trans hroot)
  obtain ⟨hzero, rfl, rfl⟩ | ⟨rfl, s₁, hsub, hadd⟩ := hcases
  · exact .inl ⟨hfound, hzero, rfl⟩
  · refine .inr ⟨hfound, ?_⟩
    rw [(devfsCreateEntry_eq hsub).2] at hadd
    rw [registerIn, hsub, Option.bind_eq_bind, Option.bind_some]
    dsimp only
    rw [hadd]
    rfl

theorem Shows.named (h : Shows s x t) : Named s x.children (t.map Folder.name) := by
  rw [Named, List.forall₂_map_right_iff]
  refine h.folders.imp fun p e hp => ?_
  obtain ⟨y, hy⟩ := hp
  exact ⟨hy.nonnull, y, hy.node, hy.name⟩

-- the first folder of the name, as a node and in the list
theorem folders_find (h : List.Forall₂ (fun p e => ∃ y, Shown s p y e) l t) (hq : q ≠ 0)
    (hloop : devfsFinddirLoop s folder l = some q) :
    ∃ y e, Shown s q y e ∧ t.find? (·.name = folder) = some e := by
  induction h with
  | nil => exact absurd (Option.some.inj hloop).symm hq
  | @cons p e l t hp _ ih =>
    obtain ⟨y, hy⟩ := hp
    rw [devfsFinddirLoop, hy.node] at hloop
    dsimp only at hloop
    rw [List.find?_cons]
    split_ifs at hloop with hname
    · obtain rfl := Option.some.inj hloop
      refine ⟨y, e, hy, ?_⟩
      rw [decide_eq_true (hy.name.symm.trans hname)]
    · obtain ⟨y', e', hy', hfind⟩ := ih hloop
      refine ⟨y', e', hy', ?_⟩
      rw [decide_eq_false fun he => hname (hy.name.trans he)]
      exact hfind

theorem Shows.find_none (h : Shows s x t) (hloop : devfsFinddirLoop s folder x.children = some 0) :
    ∀ e ∈ t, e.name ≠ folder := by
  rintro e he rfl
  obtain ⟨q, y, hq, -, hloop'⟩ := h.named.loop_present (List.mem_map_of_mem he)
  exact hq (Option.some.inj (hloop'.symm.trans hloop))

theorem registered (hs : WellFormed K s) (hx : Shows s x t) {path : DevPath} (hpath : path.Valid)
    (h : devfsRegister K s path.path flags = some (p, u)) : Registered s x flags p u path ∧ WellFormed K u := by
  cases path with
  | device name =>
    rw [path_device hpath hx.nonnull] at h
    obtain ⟨hentered, hext, hu⟩ := registerIn_entered hs hx.node h
    exact ⟨.device hentered hext, hu⟩
  | inFolder folder name =>
    rw [path_inFolder hpath hx.nonnull] at h
    obtain ⟨⟨q, v⟩, hfolder, hentry⟩ := Option.bind_eq_some_iff.mp h
    rcases devfsFolder_registers hx.node hfolder with ⟨hloop, hq, rfl⟩ | ⟨hloop, hnew⟩
    · obtain ⟨y, e, hy, -⟩ := folders_find hx.folders hq hloop
      obtain ⟨hentered, hext, hu⟩ := registerIn_entered hs hy.node hentry
      exact ⟨.inFolder hloop hq hy.node hentered hext, hu⟩
    · obtain ⟨hf, hext, hv⟩ := registerIn_entered hs hx.node hnew
      obtain ⟨hentered, hext', hu⟩ := registerIn_entered hv hf.entry hentry
      exact ⟨.newFolder hloop hf hext rfl hentered hext', hu⟩

theorem Shown.same (h : Shown s q y e) (hsame : u.nodes q = s.nodes q) (hext : Extends (fun _ => True) s u) :
    Shown u q y e where
  nonnull := h.nonnull
  node := hsame.trans h.node
  name := h.name
  type := h.type
  finddir := h.finddir
  children := h.children.extends hext
  length := h.length

theorem forall₂_addEntry {α β : Type} {R : α → β → Prop} {l : List α} {l' : List β} {a : α} {b : β}
    (h : List.Forall₂ R l l') (hab : R a b) : List.Forall₂ R (addEntry l a) (addEntry l' b) := by
  unfold addEntry
  rw [h.length_eq]
  split_ifs
  · exact List.rel_append h (.cons hab .nil)
  · exact h

theorem folders_same (h : List.Forall₂ (fun p e => ∃ y, Shown s p y e) l t)
    (hsame : ∀ q ∈ l, s.nodes q ≠ none → u.nodes q = s.nodes q) (hext : Extends (fun _ => True) s u) :
    List.Forall₂ (fun p e => ∃ y, Shown u p y e) l t := by
  induction h with
  | nil => exact .nil
  | @cons q e l t hq _ ih =>
    obtain ⟨y, hy⟩ := hq
    have hnode : s.nodes q ≠ none := by simp [hy.node]
    have hrest := ih fun r hr => hsame r (List.mem_cons_of_mem q hr)
    exact .cons ⟨y, hy.same (hsame q List.mem_cons_self hnode) hext⟩ hrest

theorem loop_mem (h : devfsFinddirLoop s folder l = some q) (hq : q ≠ 0) : q ∈ l := by
  induction l with
  | nil => exact absurd (Option.some.inj h).symm hq
  | cons r l ih =>
    unfold devfsFinddirLoop at h
    split at h
    · cases h
    · split_ifs at h
      · obtain rfl := Option.some.inj h
        exact List.mem_cons_self
      · exact List.mem_cons_of_mem r (ih h)

theorem Entered.ne {d : ℕ} {z : Node} (h : Entered s d z name flags p u) (hq : s.nodes q ≠ none) : q ≠ p := by
  rintro rfl
  exact hq h.fresh

theorem folders_node (h : List.Forall₂ (fun p e => ∃ y, Shown s p y e) l t) (hq : q ∈ l) : s.nodes q ≠ none := by
  induction h with
  | nil => cases hq
  | cons hr _ ih =>
    obtain ⟨y, hy⟩ := hr
    rcases List.mem_cons.mp hq with rfl | hq
    · simp [hy.node]
    · exact ih hq

theorem Shows.outside (h : Shows s x t) {d : ℕ} {z : Node} (hent : Entered s d z name flags p u)
    (hu : Extends (fun _ => True) s u) (hd : d ≠ s.devRoot) (hl : d ∉ x.children) : Shows u x t := by
  have hroot : s.devRoot ≠ p := hent.ne (by simp [h.node])
  refine ⟨?_, ?_, h.type, h.finddir, ?_, h.length, h.nodup, ?_⟩
  · rw [hent.devRoot]
    exact h.nonnull
  · rw [hent.devRoot, hent.other _ hroot hd.symm, h.node]
  · apply folders_same h.folders _ hu
    intro q hq hnode
    exact hent.other q (hent.ne hnode) (fun hqd => hl (hqd ▸ hq))
  · rw [hent.devRoot]
    exact h.apart

theorem Shows.atRoot (h : Shows s x t) (hent : Entered s s.devRoot x name flags p u)
    (hu : Extends (fun _ => True) s u) :
    Shows u { x with children := addEntry x.children p } (addEntry t ⟨name, flags, []⟩) := by
  have hroot : s.devRoot ≠ p := hent.ne (by simp [h.node])
  have hp : p ∉ x.children := fun hmem => folders_node h.folders hmem hent.fresh
  have hentry : Shown u p _ ⟨name, flags, []⟩ := ⟨hent.nonnull, hent.entry, rfl, rfl, rfl, .nil, Nat.zero_le _⟩
  refine ⟨?_, ?_, h.type, h.finddir, ?_, length_addEntry_le p h.length, ?_, ?_⟩
  · rw [hent.devRoot]
    exact h.nonnull
  · rw [hent.devRoot]
    exact hent.dir
  · refine forall₂_addEntry (folders_same h.folders (fun q hq hnode => ?_) hu) ⟨_, hentry⟩
    exact hent.other q (hent.ne hnode) (fun hqd => h.apart (hqd ▸ hq))
  · exact nodup_addEntry h.nodup hp
  · rw [hent.devRoot]
    exact fun hmem => (mem_addEntry hmem).elim h.apart hroot

theorem folders_insert (h : List.Forall₂ (fun p e => ∃ y, Shown s p y e) l t) (hnodup : l.Nodup)
    (hloop : devfsFinddirLoop s folder l = some q) (hq : q ≠ 0) (hy : s.nodes q = some y)
    (hent : Entered s q y name flags p u) (hu : Extends (fun _ => True) s u) :
    List.Forall₂ (fun p e => ∃ y, Shown u p y e) l (t.insert folder name) := by
  induction h with
  | nil => exact absurd (Option.some.inj hloop).symm hq
  | @cons r e l t hr hrest ih =>
    obtain ⟨z, hz⟩ := hr
    obtain ⟨hnotin, hnodup'⟩ := List.nodup_cons.mp hnodup
    have hloop' := hloop
    rw [devfsFinddirLoop, hz.node] at hloop
    dsimp only at hloop
    split_ifs at hloop with hname
    · -- the first entry of the name takes the node
      obtain rfl := Option.some.inj hloop
      obtain rfl := Option.some.inj (hz.node.symm.trans hy)
      rw [DevTree.insert, if_pos (hz.name.symm.trans hname)]
      refine .cons ⟨_, hz.nonnull, hent.dir, hz.name, hz.type, hz.finddir, ?_, length_addEntry_le p hz.length⟩ ?_
      · exact forall₂_addEntry (hz.children.extends hu) ⟨hent.nonnull, _, hent.entry, rfl⟩
      · exact folders_same hrest (fun k hk hnode => hent.other k (hent.ne hnode) fun hkr => hnotin (hkr ▸ hk)) hu
    · rw [DevTree.insert, if_neg fun he => hname (hz.name.trans he)]
      have hrq : r ≠ q := fun hrq => hnotin (hrq ▸ loop_mem hloop hq)
      exact .cons ⟨z, hz.same (hent.other r (hent.ne (by simp [hz.node])) hrq) hu⟩ (ih hnodup' hloop)

theorem Shows.inFolder (h : Shows s x t) (hloop : devfsFinddirLoop s folder x.children = some q) (hq : q ≠ 0)
    (hy : s.nodes q = some y) (hent : Entered s q y name flags p u) (hu : Extends (fun _ => True) s u) :
    Shows u x (t.insert folder name) := by
  have hroot : s.devRoot ≠ p := hent.ne (by simp [h.node])
  have hqroot : s.devRoot ≠ q := fun hrq => h.apart (hrq ▸ loop_mem hloop hq)
  refine ⟨?_, ?_, h.type, h.finddir, folders_insert h.folders h.nodup hloop hq hy hent hu, h.length, h.nodup, ?_⟩
  · rw [hent.devRoot]
    exact h.nonnull
  · rw [hent.devRoot, hent.other _ hroot hqroot, h.node]
  · rw [hent.devRoot]
    exact h.apart

theorem insert_append (hnone : ∀ e ∈ t, e.name ≠ folder) (type : ℕ) (names : List Name) :
    DevTree.insert folder name (t ++ [⟨folder, type, names⟩]) = t ++ [⟨folder, type, addEntry names name⟩] := by
  induction t with
  | nil => exact if_pos rfl
  | cons e t ih =>
    rw [List.cons_append, DevTree.insert, if_neg (hnone e List.mem_cons_self), List.cons_append]
    rw [ih fun e' he' => hnone e' (List.mem_cons_of_mem e he')]

theorem insert_addEntry (hnone : ∀ e ∈ t, e.name ≠ folder) (hroom : t.length < 16) :
    DevTree.insert folder name (addEntry t ⟨folder, VFS_DIRECTORY, []⟩) =
      addEntry t ⟨folder, VFS_DIRECTORY, [name]⟩ := by
  rw [addEntry_of_lt _ hroom, addEntry_of_lt _ hroom, insert_append hnone]
  rfl

theorem Shows.register (h : Shows s x t) {path : DevPath} (hreg : Registered s x flags p u path) :
    ∃ x', Shows u x' (t.register path flags) ∧ u.devRoot = s.devRoot := by
  cases hreg with
  | device hent hu => exact ⟨_, h.atRoot hent hu, hent.devRoot⟩
  | @inFolder folder name q y hloop hq hy hent hu =>
    obtain ⟨-, e, -, hfind⟩ := folders_find h.folders hq hloop
    have hmem : ∃ e ∈ t, e.name = folder :=
      ⟨e, List.mem_of_find?_eq_some hfind, by simpa using List.find?_some hfind⟩
    rw [DevTree.register, if_pos hmem]
    exact ⟨x, h.inFolder hloop hq hy hent hu, hent.devRoot⟩
  | @newFolder folder name f y s₁ hloop hf ht hy hent hu =>
    have hnone := h.find_none hloop
    have hmem : ¬∃ e ∈ t, e.name = folder := fun ⟨e, he, hname⟩ => hnone e he hname
    rw [DevTree.register, if_neg hmem]
    refine ⟨{ x with children := addEntry x.children f }, ?_, hent.devRoot.trans hf.devRoot⟩
    have hroot := h.atRoot hf ht
    have hlen : x.children.length = t.length := h.folders.length_eq
    by_cases hroom : t.length < 16
    · rw [← insert_addEntry hnone hroom]
      refine hroot.inFolder ?_ hf.nonnull hf.entry (hy ▸ hent) hu
      have hnames : folder ∉ t.map Folder.name := by simpa using hnone
      rw [addEntry_of_lt f (hlen ▸ hroom), (h.named.extends ht).loop_append hnames, devfsFinddirLoop, hf.entry]
      exact if_pos rfl
    · rw [addEntry_of_full _ hroom] at hroot ⊢
      refine hroot.outside hent hu ?_ ?_
      · rw [hf.devRoot]
        exact (hf.ne (by simp [h.node])).symm
      · dsimp only
        rw [addEntry_of_full _ (hlen ▸ hroom)]
        exact fun hmem => folders_node h.folders hmem hf.fresh

theorem finddirAll_one (s : State σ) (d : ℕ) (a : Name) : finddirAll K s d [a] = vfsFinddir K s d a := by
  simp only [finddirAll, Option.bind_eq_bind, Prod.mk.eta]
  exact Option.bind_fun_some _

theorem finddirAll_two {d : ℕ} {a : Name} (b : Name) (h : vfsFinddir K s d a = some (q, s)) :
    finddirAll K s d [a, b] = vfsFinddir K s q b := by
  rw [finddirAll, h]
  exact finddirAll_one s q b

theorem Shows.finddir_folder (h : Shows s x t) (hext : Extends (fun _ => True) s v)
    (hloop : devfsFinddirLoop s folder x.children = some q) (hq : q ≠ 0) :
    vfsFinddir K v s.devRoot folder = some (q, v) := by
  obtain ⟨y, hy, hevolves⟩ := hext.old _ _ h.node
  have hflags : y.flags = VFS_DIRECTORY := (congrArg Kind.flags hevolves.kind).trans h.type
  have hfinddir : y.finddir = some .devfs := (congrArg Kind.finddir hevolves.kind).trans h.finddir
  rw [vfsFinddir_devfs h.nonnull hy hfinddir, hflags, if_neg (by decide), hext.loop hevolves.children hloop hq]
  rfl

theorem Shows.found_iff (h : Shows s x t) {path : DevPath} (hreg : Registered s x flags p u path)
    (hv : Extends (fun _ => True) u v) :
    finddirAll K v s.devRoot path.components = some (p, v) ↔ t.Fits path := by
  have hdir : x.flags &&& VFS_DIRECTORY ≠ 0 := by
    rw [h.type]
    decide
  have hlen : x.children.length = t.length := h.folders.length_eq
  cases hreg with
  | @device name hent hu =>
    rw [DevPath.components, finddirAll_one, hent.found_iff h.nonnull h.finddir h.named h.length hu hv, hlen]
    simp [hdir, DevTree.Fits]
  | @inFolder folder name q y hloop hq hy hent hu =>
    obtain ⟨y', e, hshown, hfind⟩ := folders_find h.folders hq hloop
    obtain rfl := Option.some.inj (hy.symm.trans hshown.node)
    have hfolder := h.finddir_folder (K := K) (hu.trans hv) hloop hq
    rw [DevPath.components, finddirAll_two name hfolder,
      hent.found_iff hq hshown.finddir hshown.children hshown.length hu hv, DevTree.Fits, hfind, hshown.type,
      hshown.children.length_eq]
  | @newFolder folder name f y s₁ hloop hf ht hy hent hu =>
    have hnone := h.find_none hloop
    have hnames : folder ∉ t.map Folder.name := by simpa using hnone
    have hfind : t.find? (·.name = folder) = none := List.find?_eq_none.mpr (by simpa using hnone)
    rw [DevPath.components, DevTree.Fits, hfind]
    subst hy
    by_cases hroom : t.length < 16
    · refine iff_of_true ?_ hroom
      have hfolder := (hf.found_iff (K := K) h.nonnull h.finddir h.named h.length ht (hu.trans hv)).mpr
        ⟨hdir, hlen ▸ hroom, hnames⟩
      rw [finddirAll_two name hfolder]
      apply (hent.found_iff hf.nonnull rfl .nil (Nat.zero_le _) hu hv).mpr
      exact ⟨(by decide : VFS_DIRECTORY &&& VFS_DIRECTORY ≠ 0), (by decide : 0 < 16), List.not_mem_nil⟩
    · -- the folder is nowhere, and the device in it
      refine iff_of_false (fun hp => ?_) hroom
      have hfolder := hf.lost (K := K) h.nonnull h.finddir h.named h.length ht (hu.trans hv) (hlen ▸ hroom) hnames
      rw [finddirAll_two name hfolder] at hp
      exact hent.nonnull (Prod.mk.inj (Option.some.inj hp)).1.symm

end

/-! ### Histories -/

section

variable {s₀ s a u v : State σ} {x : Node} {t : DevTree}

theorem newRoot_shows (hs : WellFormed K s₀) (h : devfsNewRoot K s₀ = some s) :
    ∃ x, Shows s x [] ∧ WellFormed K s := by
  have hwf := (devfsNewRoot_keeps hs h).2
  obtain ⟨root, s₁, hroot, rfl⟩ := devfsNewRoot_cases h
  have hcreated := devfsCreateEntry_created hs hroot
  have hnode := (congrFun (devfsCreateEntry_eq hroot).1 root).trans (Function.update_self ..)
  exact ⟨_, ⟨hcreated.nonnull, hnode, rfl, rfl, .nil, Nat.zero_le _, List.nodup_nil, List.not_mem_nil⟩, hwf⟩

def asCalls (calls : List (DevPath × ℕ)) : List (Name × ℕ) := calls.map fun c => (c.1.path, c.2)

theorem registerAll_shows {calls : List (DevPath × ℕ)} (hcalls : ∀ c ∈ calls, c.1.Valid) (hs : WellFormed K s)
    (hx : Shows s x t) (h : registerAll K (asCalls calls) s = some a) :
    ∃ x', Shows a x' (calls.foldl (fun t c => t.register c.1 c.2) t) ∧ a.devRoot = s.devRoot ∧ WellFormed K a := by
  induction calls generalizing s x t with
  | nil =>
    obtain rfl := Option.some.inj h
    exact ⟨x, hx, rfl, hs⟩
  | cons c calls ih =>
    rw [asCalls, List.map_cons, registerAll] at h
    obtain ⟨⟨p, s₁⟩, hp, h⟩ := Option.bind_eq_some_iff.mp h
    obtain ⟨hreg, hs₁⟩ := registered hs hx (hcalls c List.mem_cons_self) hp
    obtain ⟨x₁, hx₁, hroot⟩ := hx.register hreg
    obtain ⟨x', hx', hroot', ha⟩ := ih (fun c' hc' => hcalls c' (List.mem_cons_of_mem c hc')) hs₁ hx₁ h
    exact ⟨x', hx', hroot'.trans hroot, ha⟩

theorem call_found_iff (hs : WellFormed K s₀) (hroot : devfsNewRoot K s₀ = some s) {calls : List (DevPath × ℕ)}
    (hcalls : ∀ c ∈ calls, c.1.Valid) (ha : registerAll K (asCalls calls) s = some a) {path : DevPath}
    (hpath : path.Valid) {flags p : ℕ} (hp : devfsRegister K a path.path flags = some (p, u)) {ops : List Op}
    (hv : Steps (fun s op u => perform K s op = some u) u ops v) :
    finddirAll K v s.devRoot path.components = some (p, v) ↔ (DevTree.ofCalls calls).Fits path := by
  obtain ⟨x, hx, hwf⟩ := newRoot_shows hs hroot
  obtain ⟨x', hx', hsame, hwfa⟩ := registerAll_shows hcalls hwf hx ha
  obtain ⟨hreg, hwfu⟩ := registered hwfa hx' hpath hp
  rw [← hsame]
  exact hx'.found_iff hreg (run_extends hwfu hv)

/-! ### The calls of `devfs_init` -/

def devfsPaths : List (DevPath × ℕ) :=
  [(.device (bytes "null"), VFS_CHARDEVICE), (.device (bytes "zero"), VFS_CHARDEVICE),
    (.device (bytes "urandom"), VFS_CHARDEVICE), (.device (bytes "console"), VFS_CHARDEVICE),
    (.device (bytes "tty"), VFS_CHARDEVICE), (.device (bytes "ttyS0"), VFS_CHARDEVICE),
    (.device (bytes "fb0"), VFS_CHARDEVICE), (.inFolder (bytes "input") (bytes "kbd0"), VFS_CHARDEVICE),
    (.inFolder (bytes "net") (bytes "eth0"), VFS_CHARDEVICE),
    (.inFolder (bytes "disk") (bytes "jurk_root"), VFS_BLOCKDEVICE),
    (.inFolder (bytes "disk") (bytes "sda"), VFS_BLOCKDEVICE)]

def pciPath (dev : PciDevice) : DevPath := .inFolder (bytes "pci") ((pciNode dev).drop 4)

def initCalls (pci : List PciDevice) : List (DevPath × ℕ) :=
  devfsPaths ++ pci.map fun dev => (pciPath dev, VFS_CHARDEVICE)

theorem asCalls_init (pci : List PciDevice) :
    asCalls (initCalls pci) = devfsDevices ++ pci.map fun dev => (pciNode dev, VFS_CHARDEVICE) := by
  rw [asCalls, initCalls, List.map_append, List.map_map]
  rfl

theorem devfsPaths_valid : ∀ c ∈ devfsPaths, c.1.Valid := by decide

theorem initCalls_valid (pci : List PciDevice) : ∀ c ∈ initCalls pci, c.1.Valid := by
  intro c hc
  rcases List.mem_append.mp hc with hc | hc
  · exact devfsPaths_valid c hc
  · obtain ⟨dev, -, rfl⟩ := List.mem_map.mp hc
    refine ⟨by decide, by decide, ?_⟩
    rw [List.length_drop]
    exact (by decide : 7 < 64)

theorem devfsPaths_fit : ∀ k : Fin 11, (DevTree.ofCalls (devfsPaths.take k)).Fits (devfsPaths.get k).1 := by decide

theorem take_addEntry (names : List Name) (name : Name) :
    addEntry (names.take 16) name = (names ++ [name]).take 16 := by
  by_cases h : names.length < 16
  · rw [List.take_of_length_le (by omega), addEntry_of_lt name h, List.take_of_length_le]
    rw [List.length_append, List.length_singleton]
    omega
  · rw [addEntry_of_full name (by rw [List.length_take]; omega), List.take_append_of_le_length (by omega)]

theorem foldl_newFolder (t : DevTree) {folder : Name} (hnone : ∀ e ∈ t, e.name ≠ folder) (hroom : t.length < 16)
    (names : List Name) (hne : names ≠ []) (flags : ℕ) :
    names.foldl (fun t name => t.register (.inFolder folder name) flags) t =
      t ++ [⟨folder, VFS_DIRECTORY, names.take 16⟩] := by
  induction names using List.reverseRecOn with
  | nil => exact absurd rfl hne
  | append_singleton names name ih =>
    rw [List.foldl_append, List.foldl_cons, List.foldl_nil]
    by_cases hnames : names = []
    · subst hnames
      have hmem : ¬∃ e ∈ t, e.name = folder := fun ⟨e, he, hname⟩ => hnone e he hname
      rw [List.foldl_nil, DevTree.register, if_neg hmem, addEntry_of_lt _ hroom]
      rfl
    · have hmem : ∃ e ∈ t ++ [⟨folder, VFS_DIRECTORY, names.take 16⟩], e.name = folder :=
        ⟨_, List.mem_append_right _ List.mem_cons_self, rfl⟩
      rw [ih hnames, DevTree.register, if_pos hmem, insert_append hnone, take_addEntry]

theorem ofCalls_init (pci : List PciDevice) (hne : pci ≠ []) : DevTree.ofCalls (initCalls pci) =
    DevTree.ofCalls devfsPaths ++
      [⟨bytes "pci", VFS_DIRECTORY, (pci.map fun dev => (pciNode dev).drop 4).take 16⟩] := by
  rw [DevTree.ofCalls, initCalls, List.foldl_append, ← DevTree.ofCalls, List.foldl_map]
  have hnone : ∀ e ∈ DevTree.ofCalls devfsPaths, e.name ≠ bytes "pci" := by decide
  have hfold := foldl_newFolder (DevTree.ofCalls devfsPaths) hnone (by decide) (pci.map fun dev => (pciNode dev).drop 4)
    (by simpa using hne) VFS_CHARDEVICE
  rwa [List.foldl_map] at hfold

theorem pciNode_eq (dev : PciDevice) : bytes "pci/" ++ (pciNode dev).drop 4 = pciNode dev := rfl

theorem pciNode_inj {dev dev' : PciDevice} :
    (pciNode dev).drop 4 = (pciNode dev').drop 4 ↔ pciNode dev = pciNode dev' := by
  rw [← pciNode_eq dev, ← pciNode_eq dev', List.append_cancel_left_eq, pciNode_eq, pciNode_eq]

theorem init_fits_iff (pci : List PciDevice) (dev : PciDevice) :
    (DevTree.ofCalls (initCalls pci)).Fits (pciPath dev) ↔
      pci.length < 16 ∧ ∀ dev' ∈ pci, pciNode dev' ≠ pciNode dev := by
  by_cases hne : pci = []
  · subst hne
    have hfind : (DevTree.ofCalls (initCalls [])).find? (·.name = bytes "pci") = none := by decide
    rw [pciPath, DevTree.Fits, hfind]
    exact iff_of_true (by decide : (DevTree.ofCalls (initCalls [])).length < 16) ⟨by decide, by simp⟩
  · have hfind : (DevTree.ofCalls (initCalls pci)).find? (·.name = bytes "pci") =
        some ⟨bytes "pci", VFS_DIRECTORY, (pci.map fun dev => (pciNode dev).drop 4).take 16⟩ := by
      have hnone : (DevTree.ofCalls devfsPaths).find? (·.name = bytes "pci") = none := by decide
      rw [ofCalls_init pci hne, List.find?_append, hnone]
      rfl
    rw [pciPath, DevTree.Fits, hfind]
    dsimp only
    have hdir : VFS_DIRECTORY &&& VFS_DIRECTORY ≠ 0 := by decide
    simp only [ne_eq, hdir, not_false_eq_true, true_and, List.length_take, List.length_map]
    constructor
    · rintro ⟨hlen, hmem⟩
      have hlt : pci.length < 16 := by omega
      rw [List.take_of_length_le (by rw [List.length_map]; omega)] at hmem
      refine ⟨hlt, fun dev' hdev' heq => hmem ?_⟩
      exact List.mem_map.mpr ⟨dev', hdev', pciNode_inj.mpr heq⟩
    · rintro ⟨hlt, hnew⟩
      refine ⟨by omega, fun hmem => ?_⟩
      obtain ⟨dev', hdev', heq⟩ := List.mem_map.mp (List.mem_of_mem_take hmem)
      exact hnew dev' hdev' (pciNode_inj.mp heq)

theorem devfsPaths_distinct : ∀ k j : Fin 11, j < k → (devfsPaths.get j).1.path ≠ (devfsPaths.get k).1.path := by decide

theorem devfsPaths_not_pci (dev : PciDevice) : ∀ c ∈ devfsPaths, c.1.path ≠ pciNode dev := by
  have hstart : ∀ c ∈ devfsPaths, c.1.path.take 4 ≠ bytes "pci/" := by decide
  intro c hc heq
  exact hstart c hc (by rw [heq]; rfl)

theorem initCalls_low (pci : List PciDevice) {k : ℕ} (hlow : k < 11) (hk : k < (initCalls pci).length) :
    (initCalls pci)[k] = devfsPaths.get ⟨k, hlow⟩ := List.getElem_append_left hlow

theorem initCalls_high (pci : List PciDevice) {i : ℕ} (hi : i < pci.length) (hk : 11 + i < (initCalls pci).length) :
    (initCalls pci)[11 + i] = (pciPath pci[i], VFS_CHARDEVICE) := by
  have h : (devfsPaths ++ pci.map fun dev => (pciPath dev, VFS_CHARDEVICE))[devfsPaths.length + i]? =
      some (pciPath pci[i], VFS_CHARDEVICE) := by
    rw [List.getElem?_append_right (Nat.le_add_right _ _), Nat.add_sub_cancel_left, List.getElem?_map,
      List.getElem?_eq_getElem hi, Option.map_some]
  exact (List.getElem?_eq_some_iff.mp h).2

theorem initCalls_fit_iff (pci : List PciDevice) {k : ℕ} (hk : k < (initCalls pci).length) :
    (DevTree.ofCalls ((initCalls pci).take k)).Fits (initCalls pci)[k].1 ↔
      k < 27 ∧ ∀ j (hj : j < k), (initCalls pci)[j].1.path ≠ (initCalls pci)[k].1.path := by
  by_cases hlow : k < 11
  · have htake : (initCalls pci).take k = devfsPaths.take k := List.take_append_of_le_length hlow.le
    rw [htake, initCalls_low pci hlow hk]
    refine iff_of_true (devfsPaths_fit ⟨k, hlow⟩) ⟨by omega, fun j hj => ?_⟩
    rw [initCalls_low pci (hj.trans hlow)]
    exact devfsPaths_distinct ⟨k, hlow⟩ ⟨j, hj.trans hlow⟩ hj
  · obtain ⟨i, rfl⟩ := Nat.exists_eq_add_of_le (not_lt.mp hlow)
    have hi : i < pci.length := by
      rw [initCalls, List.length_append, List.length_map] at hk
      have hfixed : devfsPaths.length = 11 := rfl
      omega
    have htake : (initCalls pci).take (11 + i) = initCalls (pci.take i) := by
      rw [initCalls, initCalls, List.map_take]
      have hfixed : devfsPaths.length = 11 := rfl
      rw [← hfixed, List.take_length_add_append]
    rw [htake, initCalls_high pci hi hk, init_fits_iff, List.length_take]
    constructor
    · rintro ⟨hlen, hnew⟩
      refine ⟨by omega, fun j hj => ?_⟩
      by_cases hjlow : j < 11
      · rw [initCalls_low pci hjlow]
        exact devfsPaths_not_pci pci[i] _ (List.get_mem _ _)
      · obtain ⟨j', rfl⟩ := Nat.exists_eq_add_of_le (not_lt.mp hjlow)
        rw [initCalls_high pci (by omega)]
        apply hnew
        rw [List.mem_take_iff_getElem]
        exact ⟨j', by omega, rfl⟩
    · rintro ⟨hlen, hnew⟩
      refine ⟨by omega, fun dev hdev => ?_⟩
      obtain ⟨j, hj, rfl⟩ := List.mem_take_iff_getElem.mp hdev
      have hne := hnew (11 + j) (by omega)
      rwa [initCalls_high pci (by omega)] at hne

theorem registerAll_append {l l' : List (Name × ℕ)} (h : registerAll K (l ++ l') s = some u) :
    ∃ a, registerAll K l s = some a ∧ registerAll K l' a = some u := by
  induction l generalizing s with
  | nil => exact ⟨s, rfl, h⟩
  | cons d l ih =>
    rw [List.cons_append, registerAll] at h
    obtain ⟨⟨p, s₁⟩, hp, h⟩ := Option.bind_eq_some_iff.mp h
    obtain ⟨a, ha, hu⟩ := ih h
    refine ⟨a, ?_, hu⟩
    rw [registerAll, hp]
    exact ha

theorem registerAll_steps {l : List (Name × ℕ)} (h : registerAll K l s = some u) :
    Steps (fun s op u => perform K s op = some u) s (l.map fun d => .devfsRegister d.1 d.2) u := by
  induction l generalizing s with
  | nil =>
    obtain rfl := Option.some.inj h
    exact .nil s
  | cons d l ih =>
    obtain ⟨⟨p, s₁⟩, hp, h⟩ := Option.bind_eq_some_iff.mp h
    refine .cons ?_ (ih h)
    rw [perform, hp, Option.map_some]

theorem devfsInit_calls {pci : List PciDevice} (h : devfsInit K s₀ pci = some u) {k : ℕ}
    (hk : k < (initCalls pci).length) :
    ∃ s a p b ops, devfsNewRoot K s₀ = some s ∧ registerAll K (asCalls ((initCalls pci).take k)) s = some a ∧
      devfsRegister K a (initCalls pci)[k].1.path (initCalls pci)[k].2 = some (p, b) ∧
      Steps (fun s op u => perform K s op = some u) b ops u := by
  simp only [devfsInit, Option.bind_eq_bind, Option.bind_eq_some_iff] at h
  obtain ⟨s, hs, w, hw, ⟨r, u'⟩, hmount, h⟩ := h
  obtain rfl := Option.some.inj h
  have hsplit : asCalls (initCalls pci) = asCalls ((initCalls pci).take k) ++
      ((initCalls pci)[k].1.path, (initCalls pci)[k].2) :: asCalls ((initCalls pci).drop (k + 1)) := by
    rw [asCalls, asCalls, asCalls, ← List.map_cons (f := fun c : DevPath × ℕ => (c.1.path, c.2)), ← List.map_append,
      List.getElem_cons_drop, List.take_append_drop]
  rw [← asCalls_init, hsplit] at hw
  obtain ⟨a, ha, hw⟩ := registerAll_append hw
  obtain ⟨⟨p, b⟩, hp, hw⟩ := Option.bind_eq_some_iff.mp hw
  refine ⟨s, a, p, b, _, hs, ha, hp,
    (registerAll_steps hw).append (.single (i := .vfsMount (bytes "/dev") w.devRoot) ?_)⟩
  rw [perform, hmount, Option.map_some]

theorem registered_found_iff (hs : WellFormed K s₀) :
    (∀ s calls a path flags p b ops v, devfsNewRoot K s₀ = some s → (∀ c ∈ calls, c.1.Valid) →
        registerAll K (asCalls calls) s = some a → path.Valid → devfsRegister K a path.path flags = some (p, b) →
        Steps (fun s op u => perform K s op = some u) b ops v →
        (finddirAll K v s.devRoot path.components = some (p, v) ↔ (DevTree.ofCalls calls).Fits path)) ∧
      ∀ pci u, devfsInit K s₀ pci = some u → ∀ k (hk : k < (initCalls pci).length),
        ∃ s a p b, devfsNewRoot K s₀ = some s ∧ registerAll K (asCalls ((initCalls pci).take k)) s = some a ∧
          devfsRegister K a (initCalls pci)[k].1.path (initCalls pci)[k].2 = some (p, b) ∧
          ∀ ops v, Steps (fun s op u => perform K s op = some u) u ops v →
            (finddirAll K v s.devRoot (initCalls pci)[k].1.components = some (p, v) ↔
              k < 27 ∧ ∀ j (hj : j < k), (initCalls pci)[j].1.path ≠ (initCalls pci)[k].1.path) := by
  constructor
  · intro s calls a path flags p b ops v hroot hcalls ha hpath hp hv
    exact call_found_iff hs hroot hcalls ha hpath hp hv
  · intro pci u hu k hk
    obtain ⟨s, a, p, b, ops, hroot, ha, hp, hlater⟩ := devfsInit_calls hu hk
    refine ⟨s, a, p, b, hroot, ha, hp, fun ops' v hv => ?_⟩
    have hcalls : ∀ c ∈ (initCalls pci).take k, c.1.Valid :=
      fun c hc => initCalls_valid pci c (List.mem_of_mem_take hc)
    have hpath := initCalls_valid pci _ (List.getElem_mem hk)
    rw [call_found_iff hs hroot hcalls ha hpath hp (hlater.append hv), initCalls_fit_iff pci hk]

end

def netTree : Option (State ℕ) := do
  let s ← devfsNewRoot fatMachine powerOn
  registerAll fatMachine [(bytes "net/eth0", VFS_CHARDEVICE)] s

def netTreeWith (path : Name) (flags : ℕ) : Option (ℕ × State ℕ) := do
  let s ← netTree
  devfsRegister fatMachine s path flags

theorem powerOn_wellFormed : WellFormed fatMachine powerOn := fun _ h => absurd rfl h

theorem registered_found_sda : ∃ v, netTreeWith (bytes "disk/sda") VFS_BLOCKDEVICE = some (0x200564, v) ∧
    finddirAll fatMachine v 0x200000 [bytes "disk", bytes "sda"] = some (0x200564, v) := by
  obtain ⟨v, hv⟩ : ∃ v, netTreeWith (bytes "disk/sda") VFS_BLOCKDEVICE = some (0x200564, v) := ⟨_, rfl⟩
  refine ⟨v, hv, ?_⟩
  rw [netTreeWith, netTree] at hv
  simp only [Option.bind_eq_bind, Option.bind_eq_some_iff] at hv
  obtain ⟨a, ⟨s, hs, ha⟩, hp⟩ := hv
  have hroot : s.devRoot = 0x200000 := by
    have hmap : (devfsNewRoot fatMachine powerOn).map State.devRoot = some 0x200000 := rfl
    rw [hs] at hmap
    exact Option.some.inj hmap
  rw [← hroot]
  exact ((registered_found_iff powerOn_wellFormed).1 s [(.inFolder (bytes "net") (bytes "eth0"), VFS_CHARDEVICE)] a
    (.inFolder (bytes "disk") (bytes "sda")) VFS_BLOCKDEVICE 0x200564 v [] v hs (by decide) ha (by decide) hp
    (.nil v)).mpr (by decide)

theorem net_shadowed : ∃ p v, netTreeWith (bytes "net") VFS_CHARDEVICE = some (p, v) ∧ p ≠ 0 ∧
    finddirAll fatMachine v v.devRoot [bytes "net"] ≠ some (p, v) := by
  refine ⟨_, _, rfl, by decide, fun h => ?_⟩
  have hp : 0x200159 = 0x20040B := (Prod.mk.inj (Option.some.inj h)).1
  cases hp

end JurkOS.Kernel.Fs
