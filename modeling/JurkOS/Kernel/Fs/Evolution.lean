import JurkOS.Kernel.Fs.Mounts

/-!
What becomes of a node: it keeps its name, type and handlers, and the directories
of the device tree grow at their end.
-/

namespace JurkOS.Kernel.Fs

open Lib.Libc Lib.Memory Lib.Run

variable {σ : Type} {K : Machine σ}

structure Kind where
  flags : ℕ
  finddir : Option Finddir
  readdir : Option Readdir

def Node.kind (x : Node) : Kind := ⟨x.flags, x.finddir, x.readdir⟩

def kindAt (s : State σ) (p : ℕ) : Option Kind := (s.nodes p).map Node.kind

structure Node.Evolves (x y : Node) : Prop where
  name : y.name = x.name
  kind : y.kind = x.kind
  children : x.children <+: y.children
  fits : x.children.length ≤ 16 → y.children.length ≤ 16

structure Extends (B : Kind → Prop) (s u : State σ) : Prop where
  old : ∀ p x, s.nodes p = some x → ∃ y, u.nodes p = some y ∧ x.Evolves y
  new : ∀ p k, kindAt s p = none → kindAt u p = some k → B k

structure OfType (types : Set ℕ) (k : Kind) : Prop where
  type : k.flags ∈ types
  handlers : k.flags &&& VFS_DIRECTORY ≠ 0 → k.finddir ≠ none ∧ k.readdir ≠ none

def Op.Makes : Op → Kind → Prop
  | .vfsInit, k => k = ⟨VFS_DIRECTORY, none, none⟩
  | .devfsRegister _ flags, k => OfType {VFS_FILE, VFS_DIRECTORY, flags} k
  | _, k => OfType {VFS_FILE, VFS_DIRECTORY} k

section

variable {B : Kind → Prop} {s t u : State σ}

theorem kindAt_eq_none_iff {p : ℕ} : kindAt s p = none ↔ s.nodes p = none := Option.map_eq_none_iff

theorem kindAt_of_node {p : ℕ} {x : Node} (h : s.nodes p = some x) : kindAt s p = some x.kind := by
  rw [kindAt, h, Option.map_some]

theorem kindAt_setNode {p q : ℕ} {x : Node} (h : p ≠ q) : kindAt (s.setNode q x) p = kindAt s p := by
  rw [kindAt, State.setNode_nodes, Function.update_of_ne h, kindAt]

theorem kindAt_setNode_self (p : ℕ) (x : Node) : kindAt (s.setNode p x) p = some x.kind :=
  kindAt_of_node (Function.update_self ..)

theorem Node.Evolves.refl (x : Node) : x.Evolves x := ⟨rfl, rfl, List.prefix_refl _, id⟩

theorem Node.Evolves.trans {x y z : Node} (h : x.Evolves y) (h' : y.Evolves z) : x.Evolves z where
  name := h'.name.trans h.name
  kind := h'.kind.trans h.kind
  children := h.children.trans h'.children
  fits := fun hx => h'.fits (h.fits hx)

theorem Extends.kindAt {p : ℕ} {k : Kind} (h : Extends B s u) (hk : kindAt s p = some k) : kindAt u p = some k := by
  obtain ⟨x, hx, rfl⟩ := Option.map_eq_some_iff.mp hk
  obtain ⟨y, hy, hevolves⟩ := h.old p x hx
  rw [kindAt_of_node hy, hevolves.kind]

theorem Extends.of_nodes (h : u.nodes = s.nodes) : Extends B s u := by
  constructor
  · intro p x hx
    exact ⟨x, by rw [h, hx], .refl x⟩
  · intro p k hp hk
    rw [Fs.kindAt, h, ← Fs.kindAt, hp] at hk
    cases hk

theorem Extends.refl (s : State σ) : Extends B s s := .of_nodes rfl

theorem Extends.trans (h : Extends B s t) (h' : Extends B t u) : Extends B s u where
  old := by
    intro p x hx
    obtain ⟨y, hy, hxy⟩ := h.old p x hx
    obtain ⟨z, hz, hyz⟩ := h'.old p y hy
    exact ⟨z, hz, hxy.trans hyz⟩
  new := by
    intro p k hp hk
    cases hpt : Fs.kindAt t p with
    | none => exact h'.new p k hpt hk
    | some k' =>
      obtain rfl : k' = k := Option.some.inj ((h'.kindAt hpt).symm.trans hk)
      exact h.new p k' hp hpt

theorem Extends.mono {B' : Kind → Prop} (h : Extends B s u) (hB : ∀ k, B k → B' k) : Extends B' s u :=
  ⟨h.old, fun p k hp hk => hB k (h.new p k hp hk)⟩

theorem OfType.mono {types types' : Set ℕ} {k : Kind} (h : OfType types k) (hsub : types ⊆ types') :
    OfType types' k := ⟨hsub h.type, h.handlers⟩

theorem Created.extends {p : ℕ} {k : Kind} (h : Created K s p u) (hp : kindAt u p = some k) (hB : B k) :
    Extends B s u := by
  obtain ⟨y, hy⟩ := h.nodes
  constructor
  · intro q x hx
    have hq : q ≠ p := by
      rintro rfl
      rw [h.fresh] at hx
      cases hx
    exact ⟨x, by rw [hy, Function.update_of_ne hq, hx], .refl x⟩
  · intro q k' hq hk'
    by_cases hqp : q = p
    · rw [hqp, hp] at hk'
      obtain rfl := Option.some.inj hk'
      exact hB
    · rw [kindAt, hy, Function.update_of_ne hqp, ← kindAt, hq] at hk'
      cases hk'

theorem setNode_extends {p : ℕ} {x y : Node} (hx : s.nodes p = some x) (hxy : x.Evolves y) :
    Extends B s (s.setNode p y) := by
  constructor
  · intro q z hz
    by_cases hq : q = p
    · subst hq
      rw [hx] at hz
      obtain rfl := Option.some.inj hz
      exact ⟨y, Function.update_self .., hxy⟩
    · exact ⟨z, by rw [State.setNode_nodes, Function.update_of_ne hq, hz], .refl z⟩
  · intro q k hq hk
    by_cases hqp : q = p
    · rw [hqp, kindAt_of_node hx] at hq
      cases hq
    · rw [kindAt_setNode hqp, hq] at hk
      cases hk

variable {types : Set ℕ} {p : ℕ}

theorem fat32CreateNode_kind {name : Name} {cluster size : ℕ} {isDir : Bool}
    (h : fat32CreateNode K s name cluster size isDir = some (p, u)) :
    ∃ k, kindAt u p = some k ∧ OfType {VFS_FILE, VFS_DIRECTORY} k ∧
      k.flags = if isDir then VFS_DIRECTORY else VFS_FILE := by
  simp only [fat32CreateNode, Option.bind_eq_bind, Option.bind_eq_some_iff] at h
  obtain ⟨⟨q, s₁⟩, -, s₂, -, h⟩ := h
  split_ifs at h ⊢
  · obtain ⟨rfl, rfl⟩ := Prod.mk.inj (Option.some.inj h)
    refine ⟨_, kindAt_setNode_self .., ⟨.inr rfl, fun _ => ?_⟩, rfl⟩
    exact ⟨Option.some_ne_none _, Option.some_ne_none _⟩
  · obtain ⟨rfl, rfl⟩ := Prod.mk.inj (Option.some.inj h)
    refine ⟨_, kindAt_setNode_self .., ⟨.inl rfl, fun hdir => ?_⟩, rfl⟩
    exact absurd (by decide : VFS_FILE &&& VFS_DIRECTORY = 0) hdir

theorem jurkvfsCreateVfsNode_kind {i : ℕ} (h : jurkvfsCreateVfsNode K s i = some (p, u)) :
    ∃ k, kindAt u p = some k ∧ OfType {VFS_FILE, VFS_DIRECTORY} k ∧
      k.flags =
        if load K.mem (jurkvfsInode s.currentFs i + 64) 4 = JURKVFS_TYPE_DIR then VFS_DIRECTORY else VFS_FILE := by
  simp only [jurkvfsCreateVfsNode, Option.bind_eq_bind, Option.bind_eq_some_iff] at h
  obtain ⟨⟨q, s₁⟩, -, name, -, s₂, -, h⟩ := h
  split_ifs at h ⊢
  · obtain ⟨rfl, rfl⟩ := Prod.mk.inj (Option.some.inj h)
    refine ⟨_, kindAt_setNode_self .., ⟨.inr rfl, fun _ => ?_⟩, rfl⟩
    exact ⟨Option.some_ne_none _, Option.some_ne_none _⟩
  · obtain ⟨rfl, rfl⟩ := Prod.mk.inj (Option.some.inj h)
    refine ⟨_, kindAt_setNode_self .., ⟨.inl rfl, fun hdir => ?_⟩, rfl⟩
    exact absurd (by decide : VFS_FILE &&& VFS_DIRECTORY = 0) hdir

theorem vfsFinddir_extends {d : ℕ} {name : Name} (hs : WellFormed K s)
    (h : vfsFinddir K s d name = some (p, u)) : Extends (OfType {VFS_FILE, VFS_DIRECTORY}) s u := by
  rcases vfsFinddir_creates h with rfl | ⟨_, _, _, _, hnode⟩ | ⟨_, hnode⟩
  · exact .refl u
  · obtain ⟨k, hk, htype, -⟩ := fat32CreateNode_kind hnode
    exact (fat32CreateNode_created hs hnode).extends hk htype
  · obtain ⟨k, hk, htype, -⟩ := jurkvfsCreateVfsNode_kind hnode
    exact (jurkvfsCreateVfsNode_created hs hnode).extends hk htype

theorem vfsLookup_extends {path : Name} (hs : WellFormed K s) (h : vfsLookup K s path = some (p, u)) :
    Extends (OfType {VFS_FILE, VFS_DIRECTORY}) s u := by
  have hpreserved := vfsLookup_preserves (I := WellFormed K) Extends.refl (fun _ _ _ => .trans)
    (fun _ _ _ _ _ hs hfind => ⟨vfsFinddir_extends hs hfind, (vfsFinddir_keeps hs hfind).2⟩) hs h
  exact hpreserved.1

theorem vfsMount_extends {path : Name} {target : ℕ} {r : ℤ} (hs : WellFormed K s)
    (h : vfsMount K s path target = some (r, u)) : Extends (OfType {VFS_FILE, VFS_DIRECTORY}) s u := by
  unfold vfsMount at h
  split_ifs at h
  · obtain rfl := (Prod.mk.inj (Option.some.inj h)).2
    exact .refl s
  · obtain rfl := (Prod.mk.inj (Option.some.inj h)).2
    exact .of_nodes rfl
  · simp only [Option.bind_eq_bind, Option.bind_eq_some_iff] at h
    obtain ⟨⟨mp, s₁⟩, hlookup, h⟩ := h
    have hfirst := vfsLookup_extends hs hlookup
    split_ifs at h
    · obtain rfl := (Prod.mk.inj (Option.some.inj h)).2
      exact hfirst
    · obtain ⟨x, hx, h⟩ := Option.bind_eq_some_iff.mp h
      obtain rfl := (Prod.mk.inj (Option.some.inj h)).2
      exact hfirst.trans (setNode_extends hx ⟨rfl, rfl, List.prefix_refl _, id⟩)

theorem devfsCreateEntry_kind {name : Name} {flags : ℕ} (h : devfsCreateEntry K s name flags = some (p, u)) :
    kindAt u p = some ⟨flags, some .devfs, some .devfs⟩ := by
  simp only [devfsCreateEntry, Option.bind_eq_bind, Option.bind_eq_some_iff] at h
  obtain ⟨⟨q, s₁⟩, -, h⟩ := h
  split_ifs at h
  obtain ⟨rfl, rfl⟩ := Prod.mk.inj (Option.some.inj h)
  exact kindAt_setNode_self ..

theorem devfsCreateEntry_extends {name : Name} {flags : ℕ} (hs : WellFormed K s)
    (h : devfsCreateEntry K s name flags = some (p, u)) : Extends (OfType {flags}) s u := by
  apply (devfsCreateEntry_created hs h).extends (devfsCreateEntry_kind h)
  exact ⟨rfl, fun _ => ⟨Option.some_ne_none _, Option.some_ne_none _⟩⟩

theorem addChild_extends {parent entry : ℕ} (h : addChild s parent entry = some u) : Extends B s u := by
  obtain ⟨x, hx, ⟨hlen, rfl⟩ | ⟨-, rfl⟩⟩ := addChild_cases h
  · refine setNode_extends hx ⟨rfl, rfl, List.prefix_append _ _, fun _ => ?_⟩
    rw [List.length_append, List.length_singleton]
    omega
  · exact .refl _

theorem createIn_extends {t : State σ} {name : Name} {flags parent : ℕ} (hs : WellFormed K s)
    (hnew : devfsCreateEntry K s name flags = some (p, t)) (hadd : addChild t parent p = some u) :
    Extends (OfType {flags}) s u := (devfsCreateEntry_extends hs hnew).trans (addChild_extends hadd)

theorem devfsFolder_extends {folder : Name} (hs : WellFormed K s) (h : devfsFolder K s folder = some (p, u)) :
    Extends (OfType {VFS_DIRECTORY}) s u := by
  obtain ⟨root, found, -, -, ⟨-, -, rfl⟩ | ⟨-, s₁, hsub, hadd⟩⟩ := devfsFolder_cases h
  · exact .refl _
  · exact createIn_extends hs hsub hadd

theorem devfsRegister_extends {path : Name} {flags : ℕ} (hs : WellFormed K s)
    (h : devfsRegister K s path flags = some (p, u)) : Extends (OfType {VFS_DIRECTORY, flags}) s u := by
  rcases devfsRegister_cases h with ⟨-, -, rfl⟩ | ⟨parent, name, s₁, s₂, hparent, hentry, hadd⟩
  · exact .refl _
  obtain ⟨-, hs₁⟩ := parentFolder_keeps hs hparent
  have hfirst : Extends (OfType {VFS_DIRECTORY, flags}) s s₁ := by
    rcases hparent with hfolder | ⟨-, rfl⟩
    · exact (devfsFolder_extends hs hfolder).mono fun k hk => hk.mono (by simp)
    · exact .refl _
  exact hfirst.trans ((createIn_extends hs₁ hentry hadd).mono fun k hk => hk.mono (by simp))

theorem devfsRegisterFolder_extends {path : Name} (hs : WellFormed K s)
    (h : devfsRegisterFolder K s path = some u) : Extends (OfType {VFS_DIRECTORY}) s u := by
  rcases devfsRegisterFolder_cases h with ⟨-, rfl⟩ | ⟨sub, s₁, hsub, hadd⟩
  · exact .refl _
  · exact createIn_extends hs hsub hadd

theorem devfsNewRoot_extends (hs : WellFormed K s) (h : devfsNewRoot K s = some u) :
    Extends (OfType {VFS_DIRECTORY}) s u := by
  obtain ⟨root, s₁, hroot, rfl⟩ := devfsNewRoot_cases h
  exact (devfsCreateEntry_extends hs hroot).trans (.of_nodes rfl)

theorem fat32Init_extends {diskData diskSize : ℕ} (hs : WellFormed K s)
    (h : fat32Init K s diskData diskSize = some (p, u)) : Extends (OfType {VFS_FILE, VFS_DIRECTORY}) s u := by
  unfold fat32Init at h
  split at h
  · obtain rfl := (Prod.mk.inj (Option.some.inj h)).2
    exact .refl s
  · rename_i fs hfs
    obtain ⟨k, hk, htype, -⟩ := fat32CreateNode_kind h
    have hnode := (fat32CreateNode_created (s := { s with currentFat := fs }) hs h).extends hk htype
    exact ⟨hnode.old, hnode.new⟩

theorem jurkvfsInit_extends {diskImage imageSize : ℕ} (hs : WellFormed K s)
    (h : jurkvfsInit K s diskImage imageSize = some (p, u)) : Extends (OfType {VFS_FILE, VFS_DIRECTORY}) s u := by
  unfold jurkvfsInit at h
  split at h
  · obtain rfl := (Prod.mk.inj (Option.some.inj h)).2
    exact .refl s
  · rename_i fs hfs
    obtain ⟨k, hk, htype, -⟩ := jurkvfsCreateVfsNode_kind h
    have hnode := (jurkvfsCreateVfsNode_created (s := { s with currentFs := fs }) hs h).extends hk htype
    exact ⟨hnode.old, hnode.new⟩

theorem vfsInit_extends (hs : WellFormed K s) (h : vfsInit K s = some u) :
    Extends (fun k => k = ⟨VFS_DIRECTORY, none, none⟩) s u := by
  simp only [vfsInit, Option.bind_eq_bind, Option.bind_eq_some_iff] at h
  obtain ⟨⟨root, s₁⟩, hroot, h⟩ := h
  obtain rfl := Option.some.inj h
  have hcreated := (kzallocNode_created hs hroot).setNode { name := bytes "/", flags := VFS_DIRECTORY }
  have hroot := hcreated.extends (B := fun k => k = ⟨VFS_DIRECTORY, none, none⟩) (kindAt_setNode_self ..) rfl
  exact hroot.trans (.of_nodes rfl)

theorem perform_extends {op : Op} (hs : WellFormed K s) (h : perform K s op = some u) : Extends op.Makes s u := by
  cases op with
  | vfsInit => exact vfsInit_extends hs h
  | vfsLookup path =>
    obtain ⟨⟨x, v⟩, hv, rfl⟩ := Option.map_eq_some_iff.mp h
    exact vfsLookup_extends hs hv
  | vfsFinddir d name =>
    obtain ⟨⟨x, v⟩, hv, rfl⟩ := Option.map_eq_some_iff.mp h
    exact vfsFinddir_extends hs hv
  | vfsMount path target =>
    obtain ⟨⟨r, v⟩, hv, rfl⟩ := Option.map_eq_some_iff.mp h
    exact vfsMount_extends hs hv
  | fat32Init diskData diskSize =>
    obtain ⟨⟨x, v⟩, hv, rfl⟩ := Option.map_eq_some_iff.mp h
    exact fat32Init_extends hs hv
  | jurkvfsInit diskImage imageSize =>
    obtain ⟨⟨x, v⟩, hv, rfl⟩ := Option.map_eq_some_iff.mp h
    exact jurkvfsInit_extends hs hv
  | devfsNewRoot => exact (devfsNewRoot_extends hs h).mono fun k hk => hk.mono (by simp)
  | devfsRegister path flags =>
    obtain ⟨⟨x, v⟩, hv, rfl⟩ := Option.map_eq_some_iff.mp h
    exact (devfsRegister_extends hs hv).mono fun k hk => hk.mono (by simp)
  | devfsRegisterFolder path => exact (devfsRegisterFolder_extends hs h).mono fun k hk => hk.mono (by simp)

end

variable (K) in
def Made (s₀ : State σ) (ops : List Op) (p : ℕ) (op : Op) (type : ℕ) : Prop :=
  ∃ l l' s u k, ops = l ++ op :: l' ∧ Steps (fun s op u => perform K s op = some u) s₀ l s ∧
    perform K s op = some u ∧ kindAt s p = none ∧ kindAt u p = some k ∧ k.flags = type

section

variable {s₀ s u : State σ} {ops : List Op} {op : Op} {p type : ℕ} {k : Kind}

theorem run_wellFormed (hs : WellFormed K s₀) (h : Steps (fun s op u => perform K s op = some u) s₀ ops u) :
    WellFormed K u :=
  h.invariant (fun _ _ _ hv hstep => perform_wellFormed hv hstep) hs

theorem run_extends (hs : WellFormed K s₀) (h : Steps (fun s op u => perform K s op = some u) s₀ ops u) :
    Extends (fun _ => True) s₀ u := by
  have hinv := h.invariant (P := fun v => WellFormed K v ∧ Extends (fun _ => True) s₀ v) ?_ ⟨hs, .refl s₀⟩
  · exact hinv.2
  · rintro v op w ⟨hv, hext⟩ hstep
    exact ⟨perform_wellFormed hv hstep, hext.trans ((perform_extends hv hstep).mono fun _ _ => trivial)⟩

theorem run_unique {v : State σ} (h : Steps (fun s op u => perform K s op = some u) s ops u)
    (h' : Steps (fun s op u => perform K s op = some u) s ops v) : u = v := by
  induction h with
  | nil s =>
    cases h'
    rfl
  | cons hstep rest ih =>
    cases h' with
    | cons hstep' rest' =>
      obtain rfl := Option.some.inj (hstep.symm.trans hstep')
      exact ih rest'

theorem Made.kind (hm : Made K s₀ ops p op type) (hs : WellFormed K s₀)
    (h : Steps (fun s op u => perform K s op = some u) s₀ ops u) :
    ∃ k, kindAt u p = some k ∧ op.Makes k ∧ k.flags = type := by
  obtain ⟨l, l', s, v, k, rfl, hl, hop, hnone, hk, htype⟩ := hm
  obtain ⟨s', hs', hrest⟩ := h.split
  obtain rfl := run_unique hl hs'
  cases hrest with
  | cons hstep hl' =>
    obtain rfl := Option.some.inj (hop.symm.trans hstep)
    have hwf := run_wellFormed hs hl
    exact ⟨k, (run_extends (perform_wellFormed hwf hop) hl').kindAt hk,
      (perform_extends hwf hop).new p k hnone hk, htype⟩

theorem exists_made (h₀ : s₀.nodes = fun _ => none)
    (h : Steps (fun s op u => perform K s op = some u) s₀ ops u) (hk : kindAt u p = some k) :
    ∃ op, Made K s₀ ops p op k.flags := by
  induction ops using List.reverseRecOn generalizing u with
  | nil =>
    cases h
    rw [kindAt, h₀] at hk
    cases hk
  | append_singleton l op ih =>
    obtain ⟨s, hl, hop⟩ := h.split
    cases hop with
    | cons hop hnil =>
      cases hnil
      cases hs : kindAt s p with
      | none => exact ⟨op, l, [], s, u, k, rfl, hl, hop, hs, hk, rfl⟩
      | some k' =>
        have hwf : WellFormed K s := run_wellFormed (fun q hq => absurd (congrFun h₀ q) hq) hl
        obtain rfl := Option.some.inj (((perform_extends hwf hop).kindAt hs).symm.trans hk)
        obtain ⟨op', l₁, l₂, s₁, s₂, k₁, rfl, hmade⟩ := ih hl hs
        exact ⟨op', l₁, l₂ ++ [op], s₁, s₂, k₁, by simp, hmade⟩

end

end JurkOS.Kernel.Fs
