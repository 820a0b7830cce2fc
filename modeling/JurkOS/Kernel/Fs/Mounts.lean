import JurkOS.Kernel.Fs.Devfs
import JurkOS.Lib.Run

/-!
Where mounts stay visible: a mount lives in a node, so it is found again as long
as lookups come back to that node.
-/

namespace JurkOS.Kernel.Fs

open Lib.Libc Lib.Memory Lib.Run

variable {σ : Type} (K : Machine σ)

def WellFormed (s : State σ) : Prop := ∀ p, s.nodes p ≠ none → p ∈ K.alloc.live s.heap

structure Node.Grows (x y : Node) : Prop where
  name : y.name = x.name
  flags : y.flags = x.flags
  finddir : y.finddir = x.finddir
  children : x.children <+: y.children

structure Keeps (P : Set ℕ) (s u : State σ) : Prop where
  root : u.vfsRoot = s.vfsRoot
  nodes : ∀ p x, s.nodes p = some x → ∃ y, u.nodes p = some y ∧ x.Grows y ∧ (p ∉ P → y.ptr = x.ptr)

structure Created (s : State σ) (p : ℕ) (u : State σ) : Prop where
  nonnull : p ≠ 0
  fresh : s.nodes p = none
  nodes : ∃ x, u.nodes = Function.update s.nodes p (some x)
  root : u.vfsRoot = s.vfsRoot
  wellFormed : WellFormed K u

variable {K}

theorem Node.Grows.refl (x : Node) : x.Grows x := ⟨rfl, rfl, rfl, List.prefix_refl _⟩

theorem Node.Grows.trans {x y z : Node} (h : x.Grows y) (h' : y.Grows z) : x.Grows z :=
  ⟨h'.name.trans h.name, h'.flags.trans h.flags, h'.finddir.trans h.finddir, h.children.trans h'.children⟩

theorem Keeps.refl (P : Set ℕ) (s : State σ) : Keeps P s s :=
  ⟨rfl, fun _ x hx => ⟨x, hx, .refl x, fun _ => rfl⟩⟩

theorem Keeps.trans {P : Set ℕ} {s u v : State σ} (h : Keeps P s u) (h' : Keeps P u v) : Keeps P s v where
  root := h'.root.trans h.root
  nodes := by
    intro p x hx
    obtain ⟨y, hy, hxy, hptr⟩ := h.nodes p x hx
    obtain ⟨z, hz, hyz, hptr'⟩ := h'.nodes p y hy
    exact ⟨z, hz, hxy.trans hyz, fun hp => (hptr' hp).trans (hptr hp)⟩

theorem Keeps.mono {P Q : Set ℕ} {s u : State σ} (h : Keeps P s u) (hPQ : P ⊆ Q) : Keeps Q s u where
  root := h.root
  nodes := by
    intro p x hx
    obtain ⟨y, hy, hxy, hptr⟩ := h.nodes p x hx
    exact ⟨y, hy, hxy, fun hp => hptr fun hP => hp (hPQ hP)⟩

theorem Created.keeps {s u : State σ} {p : ℕ} (h : Created K s p u) : Keeps ∅ s u where
  root := h.root
  nodes := by
    intro q x hx
    obtain ⟨y, hy⟩ := h.nodes
    have hne : q ≠ p := by
      rintro rfl
      rw [h.fresh] at hx
      cases hx
    exact ⟨x, by rw [hy, Function.update_of_ne hne, hx], .refl x, fun _ => rfl⟩

/-! ### Making nodes -/

theorem kzallocNode_created {s u : State σ} {n p : ℕ} (hs : WellFormed K s)
    (h : kzallocNode K n s = some (p, u)) : Created K s p u := by
  simp only [kzallocNode] at h
  split_ifs at h with hnull
  simp only [Option.some.injEq, Prod.mk.injEq] at h
  obtain ⟨rfl, rfl⟩ := h
  refine ⟨hnull, ?_, ⟨_, rfl⟩, rfl, ?_⟩
  · by_contra hp
    exact K.alloc.fresh _ _ hnull (hs _ hp)
  · intro q hq
    by_cases hqp : q = (K.alloc.kmalloc s.heap n).1
    · rw [hqp]
      exact K.alloc.granted _ _ hnull
    · dsimp only at hq
      rw [Function.update_of_ne hqp] at hq
      exact K.alloc.kept _ _ (hs q hq)

theorem Created.kmallocPriv {s u v : State σ} {n p : ℕ} (h : Created K s p u)
    (hv : kmallocPriv K n u = some v) : Created K s p v := by
  simp only [Fs.kmallocPriv] at hv
  split_ifs at hv
  obtain rfl := Option.some.inj hv
  exact ⟨h.nonnull, h.fresh, h.nodes, h.root, fun q hq => K.alloc.kept _ _ (h.wellFormed q hq)⟩

theorem Created.setNode {s u : State σ} {p : ℕ} (h : Created K s p u) (x : Node) :
    Created K s p (u.setNode p x) where
  nonnull := h.nonnull
  fresh := h.fresh
  nodes := by
    obtain ⟨y, hy⟩ := h.nodes
    exact ⟨x, by rw [State.setNode_nodes, hy, Function.update_idem]⟩
  root := h.root
  wellFormed := by
    intro q hq
    apply h.wellFormed q
    obtain ⟨y, hy⟩ := h.nodes
    by_cases hqp : q = p
    · rw [hy, hqp, Function.update_self]
      exact Option.some_ne_none y
    · rwa [State.setNode_nodes, Function.update_of_ne hqp] at hq

def NodeMade (K : Machine σ) (s : State σ) (p : ℕ) (u : State σ) : Prop :=
  ∃ n k s₁ s₂ node, kzallocNode K n s = some (p, s₁) ∧ kmallocPriv K k s₁ = some s₂ ∧ u = s₂.setNode p node

theorem fat32CreateNode_made {s u : State σ} {name : Name} {cluster size p : ℕ} {isDir : Bool}
    (h : fat32CreateNode K s name cluster size isDir = some (p, u)) : NodeMade K s p u := by
  simp only [fat32CreateNode, Option.bind_eq_bind, Option.bind_eq_some_iff] at h
  obtain ⟨⟨q, s₁⟩, h₁, s₂, h₂, h⟩ := h
  split_ifs at h
  all_goals
    obtain ⟨rfl, rfl⟩ := Prod.mk.inj (Option.some.inj h)
    exact ⟨_, _, s₁, s₂, _, h₁, h₂, rfl⟩

theorem jurkvfsCreateVfsNode_made {s u : State σ} {i p : ℕ} (h : jurkvfsCreateVfsNode K s i = some (p, u)) :
    NodeMade K s p u := by
  simp only [jurkvfsCreateVfsNode, Option.bind_eq_bind, Option.bind_eq_some_iff] at h
  obtain ⟨⟨q, s₁⟩, h₁, name, -, s₂, h₂, h⟩ := h
  split_ifs at h
  all_goals
    obtain ⟨rfl, rfl⟩ := Prod.mk.inj (Option.some.inj h)
    exact ⟨_, _, s₁, s₂, _, h₁, h₂, rfl⟩

theorem NodeMade.created {s u : State σ} {p : ℕ} (hs : WellFormed K s) (h : NodeMade K s p u) : Created K s p u := by
  obtain ⟨n, k, s₁, s₂, node, h₁, h₂, rfl⟩ := h
  exact ((kzallocNode_created hs h₁).kmallocPriv h₂).setNode node

theorem fat32CreateNode_created {s u : State σ} {name : Name} {cluster size p : ℕ} {isDir : Bool}
    (hs : WellFormed K s) (h : fat32CreateNode K s name cluster size isDir = some (p, u)) : Created K s p u :=
  (fat32CreateNode_made h).created hs

theorem jurkvfsCreateVfsNode_created {s u : State σ} {i p : ℕ} (hs : WellFormed K s)
    (h : jurkvfsCreateVfsNode K s i = some (p, u)) : Created K s p u := (jurkvfsCreateVfsNode_made h).created hs

theorem devfsCreateEntry_created {s u : State σ} {name : Name} {flags p : ℕ} (hs : WellFormed K s)
    (h : devfsCreateEntry K s name flags = some (p, u)) : Created K s p u := by
  simp only [devfsCreateEntry, Option.bind_eq_bind, Option.bind_eq_some_iff] at h
  obtain ⟨⟨q, s₁⟩, h₁, h⟩ := h
  split_ifs at h
  simp only [Option.some.injEq, Prod.mk.injEq] at h
  obtain ⟨rfl, rfl⟩ := h
  exact (kzallocNode_created hs h₁).setNode _

/-! ### Lookup -/

theorem vfsFinddir_creates {s u : State σ} {p x : ℕ} {name : Name} (h : vfsFinddir K s p name = some (x, u)) :
    u = s ∨ (∃ entry cluster size isDir, fat32CreateNode K s entry cluster size isDir = some (x, u)) ∨
      ∃ i, jurkvfsCreateVfsNode K s i = some (x, u) := by
  have hsame {y : ℕ} (hy : some (y, s) = some (x, u)) : u = s := (Prod.mk.inj (Option.some.inj hy)).2.symm
  simp only [vfsFinddir] at h
  split_ifs at h with hnull
  · exact .inl (hsame h)
  split at h
  · cases h
  split_ifs at h with hdir
  · exact .inl (hsame h)
  split at h
  · exact .inl (hsame h)
  · rw [devfsFinddirImpl, Option.map_eq_some_iff] at h
    obtain ⟨y, -, hy⟩ := h
    exact .inl (Prod.mk.inj hy).2.symm
  · simp only [fat32FinddirImpl] at h
    split at h
    · exact .inl (hsame h)
    · cases h
    · simp only [Option.bind_eq_bind, Option.bind_eq_some_iff] at h
      obtain ⟨e, -, h⟩ := h
      split at h
      · exact .inl (hsame h)
      · exact .inr (.inl ⟨_, _, _, _, h⟩)
  · simp only [jurkvfsFinddirImpl] at h
    split at h
    · exact .inl (hsame h)
    · cases h
    · split at h
      · exact .inl (hsame h)
      · exact .inr (.inr ⟨_, h⟩)

theorem vfsFinddir_cases {s u : State σ} {p x : ℕ} {name : Name} (hs : WellFormed K s)
    (h : vfsFinddir K s p name = some (x, u)) : u = s ∨ Created K s x u := by
  rcases vfsFinddir_creates h with hsame | ⟨_, _, _, _, hnode⟩ | ⟨_, hnode⟩
  · exact .inl hsame
  · exact .inr (fat32CreateNode_created hs hnode)
  · exact .inr (jurkvfsCreateVfsNode_created hs hnode)

theorem vfsFinddir_keeps {s u : State σ} {p x : ℕ} {name : Name} (hs : WellFormed K s)
    (h : vfsFinddir K s p name = some (x, u)) : Keeps ∅ s u ∧ WellFormed K u := by
  rcases vfsFinddir_cases hs h with rfl | hcreated
  · exact ⟨.refl _ _, hs⟩
  · exact ⟨hcreated.keeps, hcreated.wellFormed⟩

section Preserves

variable {I : State σ → Prop} {R : State σ → State σ → Prop} {s u : State σ} {x : ℕ} (hrefl : ∀ s, R s s)
  (htrans : ∀ s t u, R s t → R t u → R s u)
  (hfind : ∀ s u p x name, I s → vfsFinddir K s p name = some (x, u) → R s u ∧ I u) (hs : I s)

include hrefl htrans hfind hs

theorem lookupLoop_preserves {n : ℕ} {l : List Name} (h : lookupLoop K s n l = some (x, u)) : R s u ∧ I u := by
  induction l generalizing s n with
  | nil =>
    rw [lookupLoop, Option.map_eq_some_iff] at h
    obtain ⟨y, -, hy⟩ := h
    obtain rfl := (Prod.mk.inj hy).2
    exact ⟨hrefl s, hs⟩
  | cons token l ih =>
    simp only [lookupLoop, Option.bind_eq_bind, Option.bind_eq_some_iff] at h
    obtain ⟨c, -, ⟨next, s₁⟩, hnext, h⟩ := h
    obtain ⟨hfirst, hs₁⟩ := hfind _ _ _ _ _ hs hnext
    split_ifs at h
    · obtain rfl := (Prod.mk.inj (Option.some.inj h)).2
      exact ⟨hfirst, hs₁⟩
    · obtain ⟨hrest, hu⟩ := ih hs₁ h
      exact ⟨htrans _ _ _ hfirst hrest, hu⟩

theorem vfsLookup_preserves {path : Name} (h : vfsLookup K s path = some (x, u)) : R s u ∧ I u := by
  unfold vfsLookup at h
  split_ifs at h
  · obtain rfl := (Prod.mk.inj (Option.some.inj h)).2
    exact ⟨hrefl s, hs⟩
  · obtain rfl := (Prod.mk.inj (Option.some.inj h)).2
    exact ⟨hrefl s, hs⟩
  · exact lookupLoop_preserves hrefl htrans hfind hs h

end Preserves

theorem vfsLookup_keeps {s u : State σ} {x : ℕ} {path : Name} (hs : WellFormed K s)
    (h : vfsLookup K s path = some (x, u)) : Keeps ∅ s u ∧ WellFormed K u :=
  vfsLookup_preserves (.refl ∅) (fun _ _ _ => .trans) (fun _ _ _ _ _ => vfsFinddir_keeps) hs h

theorem setNode_wellFormed {s : State σ} {p : ℕ} {x y : Node} (hs : WellFormed K s) (hx : s.nodes p = some x) :
    WellFormed K (s.setNode p y) := by
  intro q hq
  by_cases hqp : q = p
  · rw [hqp]
    exact hs p (by rw [hx]; exact Option.some_ne_none x)
  · rw [State.setNode_nodes, Function.update_of_ne hqp] at hq
    exact hs q hq

theorem setNode_keeps {P : Set ℕ} {s : State σ} {p : ℕ} {x y : Node} (hx : s.nodes p = some x) (hxy : x.Grows y)
    (hptr : p ∉ P → y.ptr = x.ptr) : Keeps P s (s.setNode p y) where
  root := rfl
  nodes := by
    intro q z hz
    by_cases hqp : q = p
    · subst hqp
      rw [hx] at hz
      obtain rfl := Option.some.inj hz
      exact ⟨y, Function.update_self .., hxy, hptr⟩
    · exact ⟨z, by rw [State.setNode_nodes, Function.update_of_ne hqp, hz], .refl z, fun _ => rfl⟩

/-! ### Mounting -/

theorem vfsMount_cases {s u : State σ} {path : Name} {t : ℕ} {r : ℤ} (hs : WellFormed K s)
    (h : vfsMount K s path t = some (r, u)) :
    r = -1 ∧ Keeps ∅ s u ∧ WellFormed K u ∨
      r = 0 ∧ t ≠ 0 ∧ path = [SLASH] ∧ u = { s with vfsRoot := t } ∨
      r = 0 ∧ t ≠ 0 ∧ path ≠ [SLASH] ∧ ∃ mp s₁ x, vfsLookup K s path = some (mp, s₁) ∧ mp ≠ 0 ∧
        s₁.nodes mp = some x ∧ u = s₁.setNode mp { x with ptr := t } := by
  unfold vfsMount at h
  split_ifs at h with htarget hroot
  · obtain ⟨rfl, rfl⟩ := Prod.mk.inj (Option.some.inj h)
    exact .inl ⟨rfl, .refl _ _, hs⟩
  · obtain ⟨rfl, rfl⟩ := Prod.mk.inj (Option.some.inj h)
    exact .inr (.inl ⟨rfl, htarget, hroot, rfl⟩)
  · simp only [Option.bind_eq_bind, Option.bind_eq_some_iff] at h
    obtain ⟨⟨mp, s₁⟩, hlookup, h⟩ := h
    split_ifs at h with hmp
    · obtain ⟨rfl, rfl⟩ := Prod.mk.inj (Option.some.inj h)
      exact .inl ⟨rfl, vfsLookup_keeps hs hlookup⟩
    · simp only [Option.bind_eq_some_iff] at h
      obtain ⟨x, hx, h⟩ := h
      obtain ⟨rfl, rfl⟩ := Prod.mk.inj (Option.some.inj h)
      exact .inr (.inr ⟨rfl, htarget, hroot, mp, s₁, x, hlookup, hmp, hx, rfl⟩)

/-! ### Building the device tree -/

section Cases

variable {s u : State σ} {x : ℕ}

theorem addChild_cases {parent entry : ℕ} (h : addChild s parent entry = some u) :
    ∃ node, s.nodes parent = some node ∧
      (node.children.length < 16 ∧ u = s.setNode parent { node with children := node.children ++ [entry] } ∨
        ¬node.children.length < 16 ∧ u = s) := by
  simp only [addChild, Option.bind_eq_bind, Option.bind_eq_some_iff] at h
  obtain ⟨node, hnode, h⟩ := h
  refine ⟨node, hnode, ?_⟩
  split_ifs at h with hlen
  · exact .inl ⟨hlen, (Option.some.inj h).symm⟩
  · exact .inr ⟨hlen, (Option.some.inj h).symm⟩

theorem devfsNewRoot_cases (h : devfsNewRoot K s = some u) :
    ∃ root s₁, devfsCreateEntry K s (bytes "dev") VFS_DIRECTORY = some (root, s₁) ∧
      u = { s₁ with devRoot := root } := by
  simp only [devfsNewRoot, Option.bind_eq_bind, Option.bind_eq_some_iff] at h
  obtain ⟨⟨root, s₁⟩, hroot, h⟩ := h
  exact ⟨root, s₁, hroot, (Option.some.inj h).symm⟩

theorem devfsRegisterFolder_cases {path : Name} (h : devfsRegisterFolder K s path = some u) :
    s.devRoot = 0 ∧ u = s ∨
      ∃ sub s₁, devfsCreateEntry K s path VFS_DIRECTORY = some (sub, s₁) ∧ addChild s₁ s₁.devRoot sub = some u := by
  unfold devfsRegisterFolder at h
  split_ifs at h with hroot
  · exact .inl ⟨hroot, (Option.some.inj h).symm⟩
  · simp only [Option.bind_eq_bind, Option.bind_eq_some_iff] at h
    obtain ⟨⟨sub, s₁⟩, hsub, h⟩ := h
    exact .inr ⟨sub, s₁, hsub, h⟩

theorem devfsFolder_cases {folder : Name} (h : devfsFolder K s folder = some (x, u)) :
    ∃ root found, s.nodes s.devRoot = some root ∧ devfsFinddirLoop s folder root.children = some found ∧
      (found ≠ 0 ∧ x = found ∧ u = s ∨ found = 0 ∧ ∃ s₁, devfsCreateEntry K s folder VFS_DIRECTORY = some (x, s₁) ∧
        addChild s₁ s₁.devRoot x = some u) := by
  simp only [devfsFolder, Option.bind_eq_bind, Option.bind_eq_some_iff] at h
  obtain ⟨root, hroot, found, hfound, h⟩ := h
  refine ⟨root, found, hroot, hfound, ?_⟩
  split_ifs at h with hzero
  · obtain ⟨rfl, rfl⟩ := Prod.mk.inj (Option.some.inj h)
    exact .inl ⟨hzero, rfl, rfl⟩
  · simp only [Option.bind_eq_some_iff] at h
    obtain ⟨⟨sub, s₁⟩, hsub, s₂, hadd, h⟩ := h
    obtain ⟨rfl, rfl⟩ := Prod.mk.inj (Option.some.inj h)
    exact .inr ⟨not_not.mp hzero, s₁, hsub, hadd⟩

theorem devfsRegister_cases {path : Name} {flags : ℕ} (h : devfsRegister K s path flags = some (x, u)) :
    s.devRoot = 0 ∧ x = 0 ∧ u = s ∨ ∃ parent name s₁ s₂,
      (devfsFolder K s (path.takeWhile (· ≠ SLASH)) = some (parent, s₁) ∨ parent = s.devRoot ∧ s₁ = s) ∧
        devfsCreateEntry K s₁ name flags = some (x, s₂) ∧ addChild s₂ parent x = some u := by
  simp only [devfsRegister] at h
  split_ifs at h with hroot h₁ h₂ h₃
  · obtain ⟨rfl, rfl⟩ := Prod.mk.inj (Option.some.inj h)
    exact .inl ⟨hroot, rfl, rfl⟩
  all_goals
    simp only [Option.bind_eq_bind, Option.bind_eq_some_iff] at h
    obtain ⟨⟨parent, s₁⟩, hparent, ⟨entry, s₂⟩, hentry, s₃, hadd, h⟩ := h
    obtain ⟨rfl, rfl⟩ := Prod.mk.inj (Option.some.inj h)
    refine .inr ⟨parent, _, s₁, s₂, ?_, hentry, hadd⟩
  · exact .inl hparent
  · obtain ⟨rfl, rfl⟩ := Prod.mk.inj (Option.some.inj hparent)
    exact .inr ⟨rfl, rfl⟩

end Cases

theorem addChild_keeps {s u : State σ} {parent entry : ℕ} (hs : WellFormed K s)
    (h : addChild s parent entry = some u) : Keeps ∅ s u ∧ WellFormed K u := by
  obtain ⟨x, hx, ⟨-, rfl⟩ | ⟨-, rfl⟩⟩ := addChild_cases h
  · exact ⟨setNode_keeps hx ⟨rfl, rfl, rfl, List.prefix_append _ _⟩ (fun _ => rfl), setNode_wellFormed hs hx⟩
  · exact ⟨.refl _ _, hs⟩

theorem createIn_keeps {s t u : State σ} {name : Name} {flags parent x : ℕ} (hs : WellFormed K s)
    (hnew : devfsCreateEntry K s name flags = some (x, t)) (hadd : addChild t parent x = some u) :
    Keeps ∅ s u ∧ WellFormed K u := by
  have hcreated := devfsCreateEntry_created hs hnew
  obtain ⟨hkeeps, hu⟩ := addChild_keeps hcreated.wellFormed hadd
  exact ⟨hcreated.keeps.trans hkeeps, hu⟩

theorem devfsRegisterFolder_keeps {s u : State σ} {path : Name} (hs : WellFormed K s)
    (h : devfsRegisterFolder K s path = some u) : Keeps ∅ s u ∧ WellFormed K u := by
  rcases devfsRegisterFolder_cases h with ⟨-, rfl⟩ | ⟨sub, s₁, hsub, hadd⟩
  · exact ⟨.refl _ _, hs⟩
  · exact createIn_keeps hs hsub hadd

theorem devfsFolder_keeps {s u : State σ} {folder : Name} {x : ℕ} (hs : WellFormed K s)
    (h : devfsFolder K s folder = some (x, u)) : Keeps ∅ s u ∧ WellFormed K u := by
  obtain ⟨root, found, -, -, ⟨-, -, rfl⟩ | ⟨-, s₁, hsub, hadd⟩⟩ := devfsFolder_cases h
  · exact ⟨.refl _ _, hs⟩
  · exact createIn_keeps hs hsub hadd

theorem parentFolder_keeps {s u : State σ} {folder : Name} {x : ℕ} (hs : WellFormed K s)
    (h : devfsFolder K s folder = some (x, u) ∨ x = s.devRoot ∧ u = s) : Keeps ∅ s u ∧ WellFormed K u := by
  rcases h with h | ⟨-, rfl⟩
  · exact devfsFolder_keeps hs h
  · exact ⟨.refl _ _, hs⟩

theorem devfsRegister_keeps {s u : State σ} {path : Name} {flags x : ℕ} (hs : WellFormed K s)
    (h : devfsRegister K s path flags = some (x, u)) : Keeps ∅ s u ∧ WellFormed K u := by
  rcases devfsRegister_cases h with ⟨-, -, rfl⟩ | ⟨parent, name, s₁, s₂, hparent, hentry, hadd⟩
  · exact ⟨.refl _ _, hs⟩
  obtain ⟨hfirst, hs₁⟩ := parentFolder_keeps hs hparent
  obtain ⟨hkeeps, hu⟩ := createIn_keeps hs₁ hentry hadd
  exact ⟨hfirst.trans hkeeps, hu⟩

/-! ### Steps -/

theorem fat32Init_keeps {s u : State σ} {diskData diskSize x : ℕ} (hs : WellFormed K s)
    (h : fat32Init K s diskData diskSize = some (x, u)) : Keeps ∅ s u ∧ WellFormed K u := by
  unfold fat32Init at h
  cases hv : fat32Volume K.mem diskData diskSize with
  | none =>
    rw [hv] at h
    obtain rfl := (Prod.mk.inj (Option.some.inj h)).2
    exact ⟨.refl _ _, hs⟩
  | some fs =>
    rw [hv] at h
    have hcreated := fat32CreateNode_created (s := { s with currentFat := fs }) hs h
    exact ⟨⟨hcreated.root, hcreated.keeps.nodes⟩, hcreated.wellFormed⟩

theorem jurkvfsInit_keeps {s u : State σ} {diskImage imageSize x : ℕ} (hs : WellFormed K s)
    (h : jurkvfsInit K s diskImage imageSize = some (x, u)) : Keeps ∅ s u ∧ WellFormed K u := by
  unfold jurkvfsInit at h
  cases hv : jurkvfsVolume K.mem diskImage imageSize with
  | none =>
    rw [hv] at h
    obtain rfl := (Prod.mk.inj (Option.some.inj h)).2
    exact ⟨.refl _ _, hs⟩
  | some fs =>
    rw [hv] at h
    have hcreated := jurkvfsCreateVfsNode_created (s := { s with currentFs := fs }) hs h
    exact ⟨⟨hcreated.root, hcreated.keeps.nodes⟩, hcreated.wellFormed⟩

theorem vfsInit_wellFormed {s u : State σ} (hs : WellFormed K s) (h : vfsInit K s = some u) : WellFormed K u := by
  simp only [vfsInit, Option.bind_eq_bind, Option.bind_eq_some_iff] at h
  obtain ⟨⟨root, s₁⟩, hroot, h⟩ := h
  obtain rfl := Option.some.inj h
  exact ((kzallocNode_created hs hroot).setNode _).wellFormed

theorem devfsNewRoot_keeps {s u : State σ} (hs : WellFormed K s) (h : devfsNewRoot K s = some u) :
    Keeps ∅ s u ∧ WellFormed K u := by
  obtain ⟨root, s₁, hroot, rfl⟩ := devfsNewRoot_cases h
  have hcreated := devfsCreateEntry_created hs hroot
  exact ⟨⟨hcreated.root, hcreated.keeps.nodes⟩, hcreated.wellFormed⟩

inductive Op
  | vfsInit
  | vfsLookup (path : Name)
  | vfsFinddir (p : ℕ) (name : Name)
  | vfsMount (path : Name) (target : ℕ)
  | fat32Init (diskData diskSize : ℕ)
  | jurkvfsInit (diskImage imageSize : ℕ)
  | devfsNewRoot
  | devfsRegister (path : Name) (flags : ℕ)
  | devfsRegisterFolder (folderPath : Name)

variable (K) in
def perform (s : State σ) : Op → Option (State σ)
  | .vfsInit => vfsInit K s
  | .vfsLookup path => (vfsLookup K s path).map Prod.snd
  | .vfsFinddir p name => (vfsFinddir K s p name).map Prod.snd
  | .vfsMount path target => (vfsMount K s path target).map Prod.snd
  | .fat32Init diskData diskSize => (fat32Init K s diskData diskSize).map Prod.snd
  | .jurkvfsInit diskImage imageSize => (jurkvfsInit K s diskImage imageSize).map Prod.snd
  | .devfsNewRoot => devfsNewRoot K s
  | .devfsRegister path flags => (devfsRegister K s path flags).map Prod.snd
  | .devfsRegisterFolder folderPath => devfsRegisterFolder K s folderPath

variable (K) in
def Spares (l : List ℕ) (s : State σ) : Op → Prop
  | .vfsInit => False
  | .vfsMount path target =>
    target ≠ 0 → path ≠ [SLASH] ∧ ∀ mp u, vfsLookup K s path = some (mp, u) → mp ∉ l
  | _ => True

variable (K) in
def Step (l : List ℕ) (s : State σ) (op : Op) (u : State σ) : Prop := Spares K l s op ∧ perform K s op = some u

theorem step_keeps {l : List ℕ} {s u : State σ} {op : Op} (hs : WellFormed K s) (h : Step K l s op u) :
    Keeps {p | p ∉ l} s u ∧ WellFormed K u := by
  obtain ⟨hspares, h⟩ := h
  have hlift (h : Keeps ∅ s u ∧ WellFormed K u) : Keeps {p | p ∉ l} s u ∧ WellFormed K u :=
    ⟨h.1.mono (Set.empty_subset _), h.2⟩
  cases op with
  | vfsInit => exact hspares.elim
  | vfsLookup path =>
    obtain ⟨⟨x, v⟩, hv, rfl⟩ := Option.map_eq_some_iff.mp h
    exact hlift (vfsLookup_keeps hs hv)
  | vfsFinddir p name =>
    obtain ⟨⟨x, v⟩, hv, rfl⟩ := Option.map_eq_some_iff.mp h
    exact hlift (vfsFinddir_keeps hs hv)
  | vfsMount path target =>
    obtain ⟨⟨r, v⟩, hv, rfl⟩ := Option.map_eq_some_iff.mp h
    rcases vfsMount_cases hs hv with ⟨-, hkeeps⟩ | ⟨-, ht, hroot, -⟩ | ⟨-, ht, -, mp, s₁, x, hmp, -, hx, rfl⟩
    · exact hlift hkeeps
    · exact absurd hroot (hspares ht).1
    · obtain ⟨hkeeps, hs₁⟩ := vfsLookup_keeps hs hmp
      have hmem : mp ∉ l := (hspares ht).2 mp s₁ hmp
      refine ⟨(hkeeps.mono (Set.empty_subset _)).trans ?_, setNode_wellFormed hs₁ hx⟩
      exact setNode_keeps hx ⟨rfl, rfl, rfl, List.prefix_refl _⟩ (fun hp => absurd hmem hp)
  | fat32Init diskData diskSize =>
    obtain ⟨⟨x, v⟩, hv, rfl⟩ := Option.map_eq_some_iff.mp h
    exact hlift (fat32Init_keeps hs hv)
  | jurkvfsInit diskImage imageSize =>
    obtain ⟨⟨x, v⟩, hv, rfl⟩ := Option.map_eq_some_iff.mp h
    exact hlift (jurkvfsInit_keeps hs hv)
  | devfsNewRoot => exact hlift (devfsNewRoot_keeps hs h)
  | devfsRegister path flags =>
    obtain ⟨⟨x, v⟩, hv, rfl⟩ := Option.map_eq_some_iff.mp h
    exact hlift (devfsRegister_keeps hs hv)
  | devfsRegisterFolder folderPath => exact hlift (devfsRegisterFolder_keeps hs h)

theorem perform_wellFormed {s u : State σ} {op : Op} (hs : WellFormed K s) (h : perform K s op = some u) :
    WellFormed K u := by
  by_cases hspares : Spares K [] s op
  · exact (step_keeps hs ⟨hspares, h⟩).2
  cases op with
  | vfsInit => exact vfsInit_wellFormed hs h
  | vfsMount path target =>
    obtain ⟨⟨r, v⟩, hv, rfl⟩ := Option.map_eq_some_iff.mp h
    rcases vfsMount_cases hs hv with ⟨-, -, hu⟩ | ⟨-, -, -, rfl⟩ | ⟨-, -, -, mp, s₁, x, hmp, -, hx, rfl⟩
    · exact hu
    · exact hs
    · exact setNode_wellFormed (vfsLookup_keeps hs hmp).2 hx
  | _ => exact absurd trivial hspares

variable (K) in
def Booted : State σ → Prop :=
  Reachable (fun s => s.nodes = fun _ => none) fun s op u => perform K s op = some u

theorem Booted.wellFormed {s : State σ} (h : Booted K s) : WellFormed K s := by
  apply Reachable.invariant _ _ h
  · intro s hs p hp
    rw [hs] at hp
    exact absurd rfl hp
  · intro s op u hs hop
    exact perform_wellFormed hs hop

theorem Booted.registerAll {devices : List (Name × ℕ)} {s u : State σ} (hs : Booted K s)
    (h : registerAll K devices s = some u) : Booted K u := by
  induction devices generalizing s with
  | nil =>
    obtain rfl := Option.some.inj h
    exact hs
  | cons d rest ih =>
    simp only [Fs.registerAll, Option.bind_eq_bind, Option.bind_eq_some_iff] at h
    obtain ⟨⟨entry, s₁⟩, hentry, hrest⟩ := h
    apply ih _ hrest
    apply hs.next (i := Op.devfsRegister d.1 d.2)
    rw [perform, hentry]
    rfl

theorem Booted.devfsInit {pci : List PciDevice} {s u : State σ} (hs : Booted K s) (h : devfsInit K s pci = some u) :
    Booted K u := by
  simp only [Fs.devfsInit, Option.bind_eq_bind, Option.bind_eq_some_iff] at h
  obtain ⟨s₁, hroot, s₂, hall, ⟨r, s₃⟩, hmount, h⟩ := h
  obtain rfl := Option.some.inj h
  have h₁ : Booted K s₁ := hs.next (i := Op.devfsNewRoot) hroot
  have h₂ : Booted K s₂ := h₁.registerAll hall
  apply h₂.next (i := Op.vfsMount (bytes "/dev") s₂.devRoot)
  rw [perform, hmount]
  rfl

theorem run_keeps {l : List ℕ} {s u : State σ} {ops : List Op} (hs : WellFormed K s)
    (h : Steps (Step K l) s ops u) : Keeps {p | p ∉ l} s u ∧ WellFormed K u := by
  refine h.invariant (P := fun v => Keeps {p | p ∉ l} s v ∧ WellFormed K v) ?_ ⟨.refl _ _, hs⟩
  rintro v op w ⟨hkeeps, hv⟩ hstep
  obtain ⟨hkeeps', hw⟩ := step_keeps hv hstep
  exact ⟨hkeeps.trans hkeeps', hw⟩

/-! ### The walk through the device tree -/

def trail (s : State σ) : ℕ → List Name → Option (List ℕ × ℕ)
  | n, [] => some ([], n)
  | n, token :: rest => do
    let dir ← followPtr s n
    let node ← s.nodes dir
    if dir ≠ 0 ∧ node.flags &&& VFS_DIRECTORY ≠ 0 ∧ node.finddir = some .devfs then
      let next ← devfsFinddirLoop s token node.children
      if next = 0 then none else (trail s next rest).map fun r => (n :: r.1, r.2)
    else none

theorem devfsFinddirLoop_names {s u : State σ} {name : Name} {x : ℕ} {l l' : List ℕ}
    (hnames : ∀ p x, s.nodes p = some x → ∃ y, u.nodes p = some y ∧ y.name = x.name) (hl : l <+: l')
    (h : devfsFinddirLoop s name l = some x) (hx : x ≠ 0) : devfsFinddirLoop u name l' = some x := by
  induction l generalizing l' with
  | nil =>
    obtain rfl := Option.some.inj h
    exact absurd rfl hx
  | cons child l ih =>
    obtain ⟨r, rfl⟩ := hl
    rw [List.cons_append, devfsFinddirLoop]
    unfold devfsFinddirLoop at h
    cases hc : s.nodes child with
    | none =>
      rw [hc] at h
      cases h
    | some node =>
      rw [hc] at h
      obtain ⟨node', hc', hname'⟩ := hnames child node hc
      simp only [hc', hname']
      dsimp only at h
      split_ifs at h ⊢ with hname
      · exact h
      · exact ih (List.prefix_append l r) h

theorem devfsFinddirLoop_keeps {P : Set ℕ} {s u : State σ} {name : Name} {x : ℕ} {l l' : List ℕ}
    (hk : Keeps P s u) (hl : l <+: l') (h : devfsFinddirLoop s name l = some x) (hx : x ≠ 0) :
    devfsFinddirLoop u name l' = some x := by
  refine devfsFinddirLoop_names (fun p x hp => ?_) hl h hx
  obtain ⟨y, hy, hgrows, -⟩ := hk.nodes p x hp
  exact ⟨y, hy, hgrows.name⟩

theorem followPtr_keeps {P : Set ℕ} {s u : State σ} {n x : ℕ} (hk : Keeps P s u) (hn : n ∉ P)
    (h : followPtr s n = some x) : followPtr u n = some x := by
  rw [followPtr, Option.map_eq_some_iff] at h
  obtain ⟨node, hnode, hx⟩ := h
  obtain ⟨node', hnode', -, hptr⟩ := hk.nodes n node hnode
  rw [followPtr, hnode', Option.map_some, hptr hn, hx]

theorem trail_cons {s : State σ} {token : Name} {toks : List Name} {n m : ℕ} {l : List ℕ}
    (h : trail s n (token :: toks) = some (l, m)) :
    ∃ dir node next l', followPtr s n = some dir ∧ s.nodes dir = some node ∧
      (dir ≠ 0 ∧ node.flags &&& VFS_DIRECTORY ≠ 0 ∧ node.finddir = some .devfs) ∧
      devfsFinddirLoop s token node.children = some next ∧ next ≠ 0 ∧ trail s next toks = some (l', m) ∧
      l = n :: l' := by
  simp only [trail, Option.bind_eq_bind, Option.bind_eq_some_iff] at h
  obtain ⟨dir, hdir, node, hnode, h⟩ := h
  split_ifs at h with hdevfs
  simp only [Option.bind_eq_some_iff] at h
  obtain ⟨next, hnext, h⟩ := h
  split_ifs at h with hzero
  obtain ⟨⟨l', m'⟩, hrest, heq⟩ := Option.map_eq_some_iff.mp h
  obtain ⟨rfl, rfl⟩ := Prod.mk.inj heq
  exact ⟨dir, node, next, l', hdir, hnode, hdevfs, hnext, hzero, hrest, rfl⟩

theorem trail_keeps {P : Set ℕ} {s u : State σ} {toks : List Name} {n m : ℕ} {l : List ℕ} (hk : Keeps P s u)
    (h : trail s n toks = some (l, m)) (hl : ∀ p ∈ l, p ∉ P) : trail u n toks = some (l, m) := by
  induction toks generalizing n l with
  | nil => exact h
  | cons token toks ih =>
    obtain ⟨dir, node, next, l', hdir, hnode, hdevfs, hnext, hzero, hrest, rfl⟩ := trail_cons h
    obtain ⟨node', hnode', hgrows, -⟩ := hk.nodes dir node hnode
    have hdevfs' : dir ≠ 0 ∧ node'.flags &&& VFS_DIRECTORY ≠ 0 ∧ node'.finddir = some .devfs := by
      rw [hgrows.flags, hgrows.finddir]
      exact hdevfs
    have hdir' := followPtr_keeps hk (hl n List.mem_cons_self) hdir
    have hnext' := devfsFinddirLoop_keeps hk hgrows.children hnext hzero
    have hrest' := ih hrest (fun p hp => hl p (List.mem_cons_of_mem _ hp))
    simp only [trail, Option.bind_eq_bind, hdir', hnode', Option.bind_some, if_pos hdevfs', hnext', if_neg hzero,
      hrest', Option.map_some]

theorem lookupLoop_trail {s : State σ} {toks : List Name} {n m : ℕ} {l : List ℕ} (rest : List Name)
    (h : trail s n toks = some (l, m)) : lookupLoop K s n (toks ++ rest) = lookupLoop K s m rest := by
  induction toks generalizing n l with
  | nil =>
    obtain ⟨rfl, rfl⟩ := Prod.mk.inj (Option.some.inj h)
    rfl
  | cons token toks ih =>
    obtain ⟨dir, node, next, l', hdir, hnode, hdevfs, hnext, hzero, hrest, rfl⟩ := trail_cons h
    obtain ⟨hnull, hflags, hfinddir⟩ := hdevfs
    have hfind : vfsFinddir K s dir token = some (next, s) := by
      simp only [vfsFinddir, if_neg hnull, hnode, if_neg hflags, hfinddir, devfsFinddirImpl, hnext, Option.map_some]
    rw [List.cons_append, lookupLoop]
    simp only [Option.bind_eq_bind, hdir, Option.bind_some, hfind, if_neg hzero]
    exact ih hrest

theorem tokens_append (token p q : Name) : tokens token (p ++ SLASH :: q) = tokens token p ++ tokens [] q := by
  induction p generalizing token with
  | nil =>
    simp only [List.nil_append, tokens, ↓reduceIte]
    split_ifs
    · rfl
    · rfl
  | cons c p ih =>
    rw [List.cons_append, tokens, tokens]
    split_ifs
    · exact ih []
    · rw [ih, List.cons_append]
    · exact ih _
    · rw [ih, List.cons_append]

theorem tokens_component {token q : Name} (hq : SLASH ∉ q) (hlen : token.length + q.length ≤ FS_MAX_NAME - 1)
    (hne : token ++ q ≠ []) : tokens token q = [token ++ q] := by
  induction q generalizing token with
  | nil =>
    rw [List.append_nil] at hne ⊢
    rw [tokens, if_neg hne]
  | cons c q ih =>
    have hc : c ≠ SLASH := fun h => hq (h ▸ List.mem_cons_self)
    rw [List.length_cons] at hlen
    rw [tokens, if_neg hc, if_pos (by omega), ih (fun h => hq (List.mem_cons_of_mem _ h))]
    · rw [List.append_assoc, List.singleton_append]
    · rw [List.length_append, List.length_singleton]
      omega
    · rw [List.append_assoc, List.singleton_append]
      exact hne

/-! ### A mount that stays -/

structure MountPoint (s : State σ) (path : Name) (l : List ℕ) (n : ℕ) : Prop where
  walk : trail s s.vfsRoot (tokens [] path) = some (l, n)
  free : ∃ x, s.nodes n = some x ∧ x.ptr = 0
  apart : n ∉ l

theorem MountPoint.lookup {s : State σ} {path : Name} {l : List ℕ} {n : ℕ} (h : MountPoint s path l n)
    (hroot : s.vfsRoot ≠ 0) (hpath : path ≠ [SLASH]) : vfsLookup K s path = some (n, s) := by
  obtain ⟨x, hx, hptr⟩ := h.free
  have hfree : followPtr s n = some n := by simp [followPtr, hx, hptr]
  have hloop := lookupLoop_trail (K := K) [] h.walk
  rw [List.append_nil, lookupLoop, hfree] at hloop
  rw [vfsLookup, if_neg hroot, if_neg hpath, hloop]
  rfl

theorem vfsMount_visible {s s' u : State σ} {path : Name} {t n : ℕ} {l : List ℕ} {ops : List Op}
    (hs : WellFormed K s) (hpath : path ≠ [SLASH]) (hmount : vfsMount K s path t = some (0, s'))
    (hn : MountPoint s path l n) (hrun : Steps (Step K (n :: l)) s' ops u) :
    vfsLookup K u path = some (t, u) ∧
      ∀ q, q ≠ [] → SLASH ∉ q → q.length ≤ FS_MAX_NAME - 1 →
        vfsLookup K u (path ++ SLASH :: q) = (vfsFinddir K u t q).bind fun r =>
          if r.1 = 0 then some (0, r.2) else (followPtr r.2 r.1).map fun x => (x, r.2) := by
  rcases vfsMount_cases hs hmount with ⟨h, -⟩ | ⟨-, -, h, -⟩ | ⟨-, ht, -, mp, s₁, x, hmp, hmpnull, hx, rfl⟩
  · cases h
  · exact absurd h hpath
  have hroot : s.vfsRoot ≠ 0 := by
    intro hzero
    rw [vfsLookup, if_pos hzero] at hmp
    exact hmpnull (Prod.mk.inj (Option.some.inj hmp)).1.symm
  rw [hn.lookup hroot hpath] at hmp
  obtain ⟨rfl, rfl⟩ := Prod.mk.inj (Option.some.inj hmp)
  -- right after the mount
  have hkeeps : Keeps {n} s (s.setNode n { x with ptr := t }) :=
    setNode_keeps hx ⟨rfl, rfl, rfl, List.prefix_refl _⟩ (fun hp => absurd (Set.mem_singleton n) hp)
  have hwalk := trail_keeps hkeeps hn.walk fun p hp hpn => hn.apart (Set.mem_singleton_iff.mp hpn ▸ hp)
  have hfollow : followPtr (s.setNode n { x with ptr := t }) n = some t := by
    rw [followPtr, State.setNode_nodes, Function.update_self]
    simp [ht]
  obtain ⟨hlater, -⟩ := run_keeps (setNode_wellFormed hs hx) hrun
  have hwalk' := trail_keeps hlater hwalk fun p hp hout => hout (List.mem_cons_of_mem _ hp)
  have hfollow' := followPtr_keeps hlater (fun hout => hout List.mem_cons_self) hfollow
  have hrootu : u.vfsRoot = s.vfsRoot := hlater.root
  have hrootu' : u.vfsRoot ≠ 0 := by rwa [hrootu]
  rw [← hrootu] at hwalk'
  constructor
  · have hloop := lookupLoop_trail (K := K) [] hwalk'
    rw [List.append_nil, lookupLoop, hfollow'] at hloop
    rw [vfsLookup, if_neg hrootu', if_neg hpath, hloop]
    rfl
  · intro q hq hslash hlen
    have hne : path ++ SLASH :: q ≠ [SLASH] := by
      intro h
      have hl := congrArg List.length h
      have hqlen := List.length_pos_iff.mpr hq
      rw [List.length_append, List.length_cons, List.length_singleton] at hl
      omega
    have htok : tokens [] q = [q] := tokens_component hslash (by rw [List.length_nil]; omega) hq
    rw [vfsLookup, if_neg hrootu', if_neg hne, tokens_append, htok, lookupLoop_trail [q] hwalk', lookupLoop]
    simp only [Option.bind_eq_bind, hfollow', Option.bind_some, lookupLoop]

def deviceTree : State ℕ where
  nodes p :=
    if p = 1 then some { name := bytes "dev", flags := VFS_DIRECTORY, finddir := some .devfs, children := [2] }
    else if p = 2 then some { name := bytes "net", flags := VFS_DIRECTORY, finddir := some .devfs }
    else if p = 3 then some { name := bytes "wifi", flags := VFS_DIRECTORY, finddir := some .devfs }
    else none
  vfsRoot := 1
  devRoot := 1
  currentFat := {}
  currentFs := {}
  heap := 4

def deviceMachine : Machine ℕ := ⟨.x86, bump, fun _ => 0, 1⟩

theorem deviceTree_wellFormed : WellFormed deviceMachine deviceTree := by
  intro p hp
  change p < 4
  by_contra hlt
  have h₁ : p ≠ 1 := by omega
  have h₂ : p ≠ 2 := by omega
  have h₃ : p ≠ 3 := by omega
  simp [deviceTree, h₁, h₂, h₃] at hp

theorem deviceTree_mountPoint : MountPoint deviceTree (bytes "/net") [1] 2 := ⟨rfl, ⟨_, rfl, rfl⟩, by decide⟩

def netMounted : State ℕ :=
  deviceTree.setNode 2 { name := bytes "net", flags := VFS_DIRECTORY, finddir := some .devfs, ptr := 3 }

theorem netMounted_run : Steps (Step deviceMachine [2, 1]) netMounted [.vfsLookup (bytes "/net")] netMounted :=
  .single ⟨trivial, rfl⟩

theorem vfsMount_visible_net : vfsMount deviceMachine deviceTree (bytes "/net") 3 = some (0, netMounted) ∧
    vfsLookup deviceMachine netMounted (bytes "/net") = some (3, netMounted) :=
  ⟨rfl, (vfsMount_visible deviceTree_wellFormed (by decide) rfl deviceTree_mountPoint netMounted_run).1⟩

/-! ### A mount that is lost -/

def fatDisk (x : ℕ) : UInt8 :=
  let segment (base : ℕ) (l : List UInt8) (i : ℕ) : Option UInt8 := if base ≤ i then l[i - base]? else none
  let off := x - 0x100000
  ((segment 11 [0x00, 0x02, 1, 1, 0, 1] off).orElse fun _ =>
    (segment 36 [1, 0, 0, 0] off).orElse fun _ =>
    (segment 44 [2, 0, 0, 0] off).orElse fun _ =>
    (segment 82 (bytes "FAT32   ") off).orElse fun _ =>
    (segment 520 [0xFF, 0xFF, 0xFF, 0x0F, 0xFF, 0xFF, 0xFF, 0x0F] off).orElse fun _ =>
    (segment 1024 (bytes "DEV        " ++ [0x10] ++ List.replicate 14 0 ++ [3, 0, 0, 0, 0, 0]) off)).getD 0

def fatMachine : Machine ℕ := ⟨.x86_64, bump, fatDisk, 16⟩

def powerOn : State ℕ := ⟨fun _ => none, 0, 0, {}, {}, 0x200000⟩

def bootFat32 : Option (State ℕ) := do
  let s ← vfsInit fatMachine powerOn
  let (fatRoot, s) ← fat32Init fatMachine s 0x100000 2048
  let (_, s) ← vfsMount fatMachine s (bytes "/") fatRoot
  devfsNewRoot fatMachine s

theorem fat32_mount_lost : ∃ s u v x, bootFat32 = some s ∧
    vfsMount fatMachine s (bytes "/dev") s.devRoot = some (0, u) ∧
    vfsLookup fatMachine u (bytes "/dev") = some (x, v) ∧ x ≠ 0 ∧ x ≠ s.devRoot := by
  refine ⟨_, _, _, _, rfl, rfl, rfl, ?_, ?_⟩
  · decide
  · decide

end JurkOS.Kernel.Fs
