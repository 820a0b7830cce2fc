import JurkOS.Kernel.Fs.Mounts
import JurkOS.Kernel.Fs.Boot
import Mathlib.Data.List.Perm.Subperm

/-!
Lookups that are repeated. A volume makes a node for every component that it
finds and nothing takes it back, so a heap of a fixed size serves a path for
ever only if none of its components is looked up in a volume.
-/

namespace JurkOS.Kernel

structure Allocator.Bounded {σ : Type} (A : Allocator σ) (limit : ℕ) where
  used : σ → ℕ
  used_le : ∀ h, used h ≤ limit
  grows : ∀ h n, (A.kmalloc h n).1 ≠ 0 → used h < used (A.kmalloc h n).2

namespace Kheap

open Lib.FreeList

variable {a : Arch} {A : HeapArea a}

theorem length_placed (h p : ℕ) (l : List Block) : (placed h p l).length = l.length := by
  induction l generalizing p with
  | nil => rfl
  | cons b l ih => rw [placed_cons, List.length_cons, List.length_cons, ih]

-- Every pointer in use belongs to a block, and a block has a header at least.
theorem Holds.live_length {s : Heap} {l : List Block} (h : Holds A s l) : s.live.length ≤ A.size := by
  have hsub : s.live.map Prod.fst ⊆
      (placed (BLOCK_HEADER_SIZE a) A.start l).map fun x => x.1 + BLOCK_HEADER_SIZE a := by
    intro p hp
    obtain ⟨x, hx, rfl⟩ := List.mem_map.mp hp
    obtain ⟨q, k, hq, -, hmem⟩ := h.live_used x hx
    exact List.mem_map.mpr ⟨_, hmem, hq.symm⟩
  have hle := (List.subperm_of_subset h.nodup hsub).length_le
  rw [List.length_map, List.length_map, length_placed] at hle
  exact hle.trans (length_lt_of_extent h.extent_eq le_rfl).le

def allocator_bounded (A : HeapArea a) : (allocator A).Bounded A.size where
  used s := s.1.live.length
  used_le s := by
    obtain ⟨s, l, hl⟩ := s
    exact hl.live_length
  grows s n := by
    unfold allocator
    dsimp only
    split_ifs with hn
    · intro hne
      simp only [Heap.grant, if_neg hne, List.length_cons]
      exact Nat.lt_succ_self _
    · exact fun hne => absurd rfl hne

end Kheap

namespace Fs

open Lib.Libc Lib.Run
open Kheap (HeapArea)

variable {σ : Type} {K : Machine σ} {limit : ℕ} (B : K.alloc.Bounded limit)

section Use

variable {B} {s u : State σ} {p : ℕ}

theorem kzallocNode_uses {n : ℕ} (h : kzallocNode K n s = some (p, u)) : B.used s.heap < B.used u.heap := by
  simp only [kzallocNode] at h
  split_ifs at h with hnull
  cases h
  exact B.grows _ _ hnull

theorem kmallocPriv_uses {n : ℕ} (h : kmallocPriv K n s = some u) : B.used s.heap < B.used u.heap := by
  simp only [kmallocPriv] at h
  split_ifs at h with hnull
  cases h
  exact B.grows _ _ hnull

theorem NodeMade.uses (h : NodeMade K s p u) : B.used s.heap < B.used u.heap := by
  obtain ⟨n, k, s₁, s₂, node, h₁, h₂, rfl⟩ := h
  have huse : B.used s.heap < B.used s₂.heap := (kzallocNode_uses h₁).trans (kmallocPriv_uses h₂)
  exact huse

def Makes (K : Machine σ) (s : State σ) (p : ℕ) (u : State σ) : Prop :=
  (∃ entry cluster size isDir, fat32CreateNode K s entry cluster size isDir = some (p, u)) ∨
    ∃ i, jurkvfsCreateVfsNode K s i = some (p, u)

theorem Makes.uses (h : Makes K s p u) : B.used s.heap < B.used u.heap := by
  rcases h with ⟨_, _, _, _, h⟩ | ⟨_, h⟩
  · exact (fat32CreateNode_made h).uses
  · exact (jurkvfsCreateVfsNode_made h).uses

theorem vfsFinddir_uses {dir : ℕ} {name : Name} (h : vfsFinddir K s dir name = some (p, u)) :
    u = s ∨ B.used s.heap < B.used u.heap := (vfsFinddir_creates h).imp_right Makes.uses

theorem lookupLoop_uses {n : ℕ} {toks : List Name} (h : lookupLoop K s n toks = some (p, u)) :
    B.used s.heap ≤ B.used u.heap := by
  have hstep (s u : State σ) (q x : ℕ) (name : Name) (_ : True) (hfind : vfsFinddir K s q name = some (x, u)) :
      B.used s.heap ≤ B.used u.heap ∧ True := by
    rcases vfsFinddir_uses hfind with rfl | huse
    · exact ⟨le_rfl, trivial⟩
    · exact ⟨huse.le, trivial⟩
  let R : State σ → State σ → Prop := fun s u => B.used s.heap ≤ B.used u.heap
  exact (lookupLoop_preserves (R := R) (fun _ => le_rfl) (fun _ _ _ => le_trans) hstep trivial h).1

theorem vfsFinddir_found {dir : ℕ} {name : Name} (h : vfsFinddir K s dir name = some (p, u)) (hp : p ≠ 0) :
    ∃ node, dir ≠ 0 ∧ s.nodes dir = some node ∧ node.flags &&& VFS_DIRECTORY ≠ 0 ∧
      (node.finddir = some .devfs ∧ devfsFinddirLoop s name node.children = some p ∧ u = s ∨
        node.finddir ≠ some .devfs ∧ Makes K s p u) := by
  have hnull {x : State σ} (hx : some (0, x) = some (p, u)) : False := hp (Prod.mk.inj (Option.some.inj hx)).1.symm
  simp only [vfsFinddir] at h
  split_ifs at h with hdir
  · exact (hnull h).elim
  split at h
  · cases h
  rename_i node hnode
  split_ifs at h with hflags
  · exact (hnull h).elim
  refine ⟨node, hdir, hnode, hflags, ?_⟩
  cases hkind : node.finddir with
  | none =>
    rw [hkind] at h
    exact (hnull h).elim
  | some kind =>
    rw [hkind] at h
    cases kind with
    | devfs =>
      obtain ⟨y, hy, heq⟩ := Option.map_eq_some_iff.mp h
      cases heq
      exact .inl ⟨rfl, hy, rfl⟩
    | fat32 =>
      refine .inr ⟨by simp, ?_⟩
      simp only [fat32FinddirImpl] at h
      split at h
      · exact (hnull h).elim
      · cases h
      · obtain ⟨found, -, h⟩ := Option.bind_eq_some_iff.mp h
        cases found with
        | none => exact (hnull h).elim
        | some e => exact .inl ⟨_, _, _, _, h⟩
    | jurkvfs =>
      refine .inr ⟨by simp, ?_⟩
      simp only [jurkvfsFinddirImpl] at h
      split at h
      · exact (hnull h).elim
      · cases h
      · split at h
        · exact (hnull h).elim
        · exact .inr ⟨_, h⟩

def Leaves (s : State σ) (n : ℕ) (toks : List Name) : Prop :=
  ∃ before token rest l m dir node, toks = before ++ token :: rest ∧ trail s n before = some (l, m) ∧
    followPtr s m = some dir ∧ s.nodes dir = some node ∧ node.finddir ≠ some .devfs

theorem lookupLoop_trail_or_leaves {n : ℕ} {toks : List Name} (h : lookupLoop K s n toks = some (p, u))
    (hp : p ≠ 0) : (trail s n toks).isSome ∨ Leaves s n toks := by
  induction toks generalizing n with
  | nil => exact .inl rfl
  | cons token toks ih =>
    simp only [lookupLoop, Option.bind_eq_bind, Option.bind_eq_some_iff] at h
    obtain ⟨dir, hdir, ⟨next, s₁⟩, hfind, h⟩ := h
    dsimp only at h
    split_ifs at h with hnext
    · cases h
      exact absurd rfl hp
    obtain ⟨node, hnull, hnode, hflags, ⟨hkind, hchild, rfl⟩ | ⟨hkind, -⟩⟩ :=
      vfsFinddir_found hfind hnext
    · have hstep (l : List Name) : trail s₁ n (token :: l) = (trail s₁ next l).map fun r => (n :: r.1, r.2) := by
        have hdevfs : dir ≠ 0 ∧ node.flags &&& VFS_DIRECTORY ≠ 0 ∧ node.finddir = some .devfs := ⟨hnull, hflags, hkind⟩
        simp only [trail, Option.bind_eq_bind, hdir, hnode, Option.bind_some, if_pos hdevfs, hchild, if_neg hnext]
      rcases ih h with hrest | ⟨before, tok, rest, l, m, dir', node', rfl, hbefore, hleave⟩
      · left
        rw [hstep, Option.isSome_map]
        exact hrest
      · refine .inr ⟨token :: before, tok, rest, n :: l, m, dir', node', rfl, ?_, hleave⟩
        rw [hstep, hbefore]
        rfl
    · exact .inr ⟨[], token, toks, [], n, dir, node, rfl, rfl, hdir, hnode, hkind⟩

-- The walk takes the same way in a later state, and leaves the device tree at the same directory.
theorem lookupLoop_leaves_uses {v : State σ} {n : ℕ} {toks : List Name} (hleaves : Leaves s n toks) (hk : Keeps ∅ s u)
    (h : lookupLoop K u n toks = some (p, v)) (hp : p ≠ 0) : B.used u.heap < B.used v.heap := by
  obtain ⟨before, token, rest, l, m, dir, node, rfl, hbefore, hdir, hnode, hkind⟩ := hleaves
  have htrail := trail_keeps hk hbefore (fun q _ => Set.notMem_empty q)
  have hdir' := followPtr_keeps hk (Set.notMem_empty m) hdir
  obtain ⟨node', hnode', hgrows, -⟩ := hk.nodes dir node hnode
  rw [lookupLoop_trail _ htrail, lookupLoop] at h
  simp only [Option.bind_eq_bind, hdir', Option.bind_some, Option.bind_eq_some_iff] at h
  obtain ⟨⟨next, s₁⟩, hfind, h⟩ := h
  dsimp only at h
  split_ifs at h with hnext
  · cases h
    exact absurd rfl hp
  obtain ⟨x, -, hx, -, ⟨hdevfs, -⟩ | ⟨-, hmakes⟩⟩ := vfsFinddir_found hfind hnext
  · obtain rfl := Option.some.inj (hnode'.symm.trans hx)
    exact absurd (hgrows.finddir.symm.trans hdevfs) hkind
  · exact hmakes.uses.trans_le (lookupLoop_uses h)

end Use

variable (K) in
def Resolves (s : State σ) (path : Name) (x : Node) : Prop :=
  ∃ p t node, vfsLookup K s path = some (p, t) ∧ p ≠ 0 ∧ t.nodes p = some node ∧ node.inode = x.inode ∧
    node.flags = x.flags ∧ node.length = x.length

variable (K) in
def afterLookups (path : Name) : ℕ → State σ → Option (State σ)
  | 0, s => some s
  | n + 1, s => (vfsLookup K s path).bind fun r => afterLookups path n r.2

def StaysInDevfs (s : State σ) (path : Name) : Prop := path = [SLASH] ∨ (trail s s.vfsRoot (tokens [] path)).isSome

def VolumeRoot (s : State σ) : Prop :=
  ∃ node, s.nodes s.vfsRoot = some node ∧ node.ptr = 0 ∧ (node.finddir = some .fat32 ∨ node.finddir = some .jurkvfs)

section Repeats

variable {B} {s u t : State σ} {path : Name} {p : ℕ} {x : Node}

theorem vfsLookup_loop (h : vfsLookup K s path = some (p, t)) (hp : p ≠ 0) (hpath : path ≠ [SLASH]) :
    lookupLoop K s s.vfsRoot (tokens [] path) = some (p, t) := by
  unfold vfsLookup at h
  split_ifs at h
  · cases h
    exact absurd rfl hp
  · exact h

theorem vfsLookup_stays (hstays : StaysInDevfs s path) (h : vfsLookup K s path = some (p, t)) (hp : p ≠ 0) :
    t = s := by
  by_cases hpath : path = [SLASH]
  · unfold vfsLookup at h
    split_ifs at h <;>
    · cases h
      rfl
  · obtain ⟨⟨l, m⟩, htrail⟩ := Option.isSome_iff_exists.mp (hstays.resolve_left hpath)
    have hloop := lookupLoop_trail (K := K) [] htrail
    rw [List.append_nil, vfsLookup_loop h hp hpath] at hloop
    obtain ⟨_, -, heq⟩ := Option.map_eq_some_iff.mp hloop.symm
    cases heq
    rfl

theorem afterLookups_succ (n : ℕ) : afterLookups K path (n + 1) s =
    (afterLookups K path n s).bind fun u => (vfsLookup K u path).map Prod.snd := by
  induction n generalizing s with
  | zero =>
    simp only [afterLookups, Option.bind_some]
    cases vfsLookup K s path <;> rfl
  | succ n ih =>
    rw [afterLookups]
    cases hlookup : vfsLookup K s path with
    | none => simp [afterLookups, hlookup]
    | some r =>
      rw [Option.bind_some, ih]
      simp [afterLookups, hlookup]

theorem lookup_uses {v : State σ} (hleaves : Leaves s s.vfsRoot (tokens [] path)) (hk : Keeps ∅ s u)
    (hpath : path ≠ [SLASH]) (h : vfsLookup K u path = some (p, v)) (hp : p ≠ 0) :
    B.used u.heap < B.used v.heap := by
  apply lookupLoop_leaves_uses hleaves hk _ hp
  have hloop := vfsLookup_loop h hp hpath
  rwa [hk.root] at hloop

-- Each lookup takes some of the heap; after as many as the heap has bytes, none is left.
theorem repeats_iff (B : K.alloc.Bounded limit) (hs : WellFormed K s) (hres : Resolves K s path x) :
    (∀ n, ∃ u, afterLookups K path n s = some u ∧ Resolves K u path x) ↔ StaysInDevfs s path := by
  obtain ⟨p, t, node, hlookup, hp, hnode⟩ := id hres
  constructor
  · intro hall
    by_contra hstays
    obtain ⟨hpath, htrail⟩ := not_or.mp hstays
    have hleaves := (lookupLoop_trail_or_leaves (vfsLookup_loop hlookup hp hpath) hp).resolve_left htrail
    have hcount : ∀ n, ∃ u, afterLookups K path n s = some u ∧ Keeps ∅ s u ∧ WellFormed K u ∧ n ≤ B.used u.heap := by
      intro n
      induction n with
      | zero => exact ⟨s, rfl, .refl _ _, hs, Nat.zero_le _⟩
      | succ n ih =>
        obtain ⟨u, hu, hkeeps, hwf, hused⟩ := ih
        obtain ⟨u', hu', q, v, -, hagain, hq, -⟩ := hall n
        obtain rfl := Option.some.inj (hu.symm.trans hu')
        obtain ⟨hkeeps', hwf'⟩ := vfsLookup_keeps hwf hagain
        refine ⟨v, ?_, hkeeps.trans hkeeps', hwf', hused.trans_lt (lookup_uses hleaves hkeeps hpath hagain hq)⟩
        rw [afterLookups_succ, hu, Option.bind_some, hagain, Option.map_some]
    obtain ⟨u, -, -, -, hused⟩ := hcount (limit + 1)
    exact absurd (hused.trans (B.used_le u.heap)) (Nat.not_succ_le_self limit)
  · intro hstays n
    have hsame := vfsLookup_stays hstays hlookup hp
    refine ⟨s, ?_, hres⟩
    induction n with
    | zero => rfl
    | succ n ih => rw [afterLookups_succ, ih, Option.bind_some, hlookup, Option.map_some, hsame]

theorem staysInDevfs_volume (hroot : VolumeRoot s) : StaysInDevfs s path ↔ tokens [] path = [] := by
  obtain ⟨node, hnode, hptr, hkind⟩ := hroot
  constructor
  · rintro (rfl | h)
    · rfl
    · cases htoks : tokens [] path with
      | nil => rfl
      | cons token rest =>
        have hfree : followPtr s s.vfsRoot = some s.vfsRoot := by simp [followPtr, hnode, hptr]
        have hdevfs : ¬ (s.vfsRoot ≠ 0 ∧ node.flags &&& VFS_DIRECTORY ≠ 0 ∧ node.finddir = some .devfs) := by
          rintro ⟨-, -, h⟩
          rcases hkind with hk | hk <;> rw [hk] at h <;> cases h
        rw [htoks, trail] at h
        simp [hfree, hnode, hdevfs] at h
  · intro h
    right
    rw [h]
    rfl

end Repeats

section Kheap

variable {a : Arch} {A : HeapArea a}

theorem lookups_repeat_iff (mem : Lib.Memory.Mem) (fuel : ℕ) {s : State (Kheap.Held A)} {path : Name} {x : Node}
    (hs : Booted ⟨a, Kheap.allocator A, mem, fuel⟩ s) (hres : Resolves ⟨a, Kheap.allocator A, mem, fuel⟩ s path x) :
    ((∀ n, ∃ u, afterLookups ⟨a, Kheap.allocator A, mem, fuel⟩ path n s = some u ∧
        Resolves ⟨a, Kheap.allocator A, mem, fuel⟩ u path x) ↔ StaysInDevfs s path) ∧
      (VolumeRoot s → (StaysInDevfs s path ↔ tokens [] path = [])) :=
  ⟨repeats_iff (Kheap.allocator_bounded A) hs.wellFormed hres, staysInDevfs_volume⟩

end Kheap

def lookupArea : HeapArea .x86_64 where
  start := 0x2000
  size := 2048
  heapHead := 128
  start_pos := by decide
  header_lt := by decide
  no_wrap := by decide
  head_no_wrap := by decide
  head_apart := by decide

def lookupMachine : Machine (Kheap.Held lookupArea) := ⟨.x86_64, Kheap.allocator lookupArea, fatDisk, 16⟩

def lookupStart : State (Kheap.Held lookupArea) where
  nodes _ := none
  vfsRoot := 0
  devRoot := 0
  currentFat := {}
  currentFs := {}
  heap := ⟨⟨Kheap.kheapInit .x86_64 128 0x2000 2048 fun _ => 0, []⟩, _, Kheap.init_holds lookupArea fun _ => 0⟩

def lookupRoot : Option (State (Kheap.Held lookupArea)) := do
  let (root, s) ← fat32Init lookupMachine lookupStart 0x100000 2048
  let (_, s) ← vfsMount lookupMachine s (bytes "/") root
  some s

theorem lookupRoot_booted {s : State (Kheap.Held lookupArea)} (h : lookupRoot = some s) : Booted lookupMachine s := by
  simp only [lookupRoot, Option.bind_eq_bind, Option.bind_eq_some_iff] at h
  obtain ⟨⟨root, s₁⟩, hinit, ⟨r, s₂⟩, hmount, h⟩ := h
  cases h
  have h₁ : Booted lookupMachine s₁ := by
    have hstart : Booted lookupMachine lookupStart := .start rfl
    apply hstart.next (i := Op.fat32Init 0x100000 2048)
    rw [perform, hinit]
    rfl
  apply h₁.next (i := Op.vfsMount (bytes "/") root)
  rw [perform, hmount]
  rfl

theorem lookupRoot_volume : ∃ s, lookupRoot = some s ∧ Booted lookupMachine s ∧ VolumeRoot s := by
  have hroot : (lookupRoot.bind fun s => (s.nodes s.vfsRoot).map fun x => (x.ptr, x.finddir)) =
      some (0, some .fat32) := by
    decide
  obtain ⟨s, hs, hnode⟩ := Option.bind_eq_some_iff.mp hroot
  obtain ⟨node, hnode, heq⟩ := Option.map_eq_some_iff.mp hnode
  obtain ⟨hptr, hkind⟩ := Prod.mk.inj heq
  exact ⟨s, hs, lookupRoot_booted hs, node, hnode, hptr, .inl hkind⟩

def lookupOnce (start : Option (State (Kheap.Held lookupArea))) (path : Name) : Option Bool := do
  let s ← start
  let (p, t) ← vfsLookup lookupMachine s path
  let _ ← t.nodes p
  some (p ≠ 0)

theorem lookupOnce_resolves {start : Option (State (Kheap.Held lookupArea))} {s : State (Kheap.Held lookupArea)}
    {path : Name} (hs : start = some s) (h : lookupOnce start path = some true) :
    ∃ x, Resolves lookupMachine s path x := by
  simp only [lookupOnce, hs, Option.bind_eq_bind, Option.bind_some, Option.bind_eq_some_iff] at h
  obtain ⟨⟨p, t⟩, hlookup, x, hx, h⟩ := h
  exact ⟨x, p, t, x, hlookup, of_decide_eq_true (Option.some.inj h), hx, rfl, rfl, rfl⟩

def deviceRoot : Option (State (Kheap.Held lookupArea)) := do
  let s ← devfsNewRoot lookupMachine lookupStart
  let (_, s) ← devfsRegister lookupMachine s (bytes "input/kbd0") VFS_CHARDEVICE
  let (_, s) ← vfsMount lookupMachine s (bytes "/") s.devRoot
  some s

theorem deviceRoot_booted {s : State (Kheap.Held lookupArea)} (h : deviceRoot = some s) : Booted lookupMachine s := by
  simp only [deviceRoot, Option.bind_eq_bind, Option.bind_eq_some_iff] at h
  obtain ⟨s₁, hroot, ⟨p, s₂⟩, hregister, ⟨r, s₃⟩, hmount, h⟩ := h
  cases h
  have hstart : Booted lookupMachine lookupStart := .start rfl
  have h₁ : Booted lookupMachine s₁ := hstart.next (i := Op.devfsNewRoot) hroot
  have h₂ : Booted lookupMachine s₂ := by
    apply h₁.next (i := Op.devfsRegister (bytes "input/kbd0") VFS_CHARDEVICE)
    rw [perform, hregister]
    rfl
  apply h₂.next (i := Op.vfsMount (bytes "/") s₂.devRoot)
  rw [perform, hmount]
  rfl

theorem deviceRoot_stays :
    ∃ s, deviceRoot = some s ∧ Booted lookupMachine s ∧ StaysInDevfs s (bytes "/input/kbd0") := by
  have hstays : (deviceRoot.map fun s => (trail s s.vfsRoot (tokens [] (bytes "/input/kbd0"))).isSome) = some true := by
    decide
  obtain ⟨s, hs, hstays⟩ := Option.map_eq_some_iff.mp hstays
  exact ⟨s, hs, deviceRoot_booted hs, .inr hstays⟩

theorem lookups_repeat_keyboard : ∃ s x, Resolves lookupMachine s (bytes "/input/kbd0") x ∧
    ∀ n, ∃ u, afterLookups lookupMachine (bytes "/input/kbd0") n s = some u ∧
      Resolves lookupMachine u (bytes "/input/kbd0") x := by
  obtain ⟨s, hs, hbooted, hstays⟩ := deviceRoot_stays
  obtain ⟨x, hx⟩ := lookupOnce_resolves hs (by decide : lookupOnce deviceRoot (bytes "/input/kbd0") = some true)
  obtain ⟨hiff, -⟩ := lookups_repeat_iff fatDisk 16 hbooted hx
  exact ⟨s, x, hx, hiff.mpr hstays⟩

theorem lookups_run_out : ∃ s x, Booted lookupMachine s ∧ VolumeRoot s ∧ Resolves lookupMachine s (bytes "/dev") x ∧
    ¬ ∀ n, ∃ u, afterLookups lookupMachine (bytes "/dev") n s = some u ∧
      Resolves lookupMachine u (bytes "/dev") x := by
  obtain ⟨s, hs, hbooted, hvolume⟩ := lookupRoot_volume
  obtain ⟨x, hx⟩ := lookupOnce_resolves hs (by decide +kernel : lookupOnce lookupRoot (bytes "/dev") = some true)
  refine ⟨s, x, hbooted, hvolume, hx, ?_⟩
  rw [repeats_iff (Kheap.allocator_bounded lookupArea) hbooted.wellFormed hx, staysInDevfs_volume hvolume]
  decide

end Fs

end JurkOS.Kernel
