import JurkOS.Kernel.Fs.DiskBounds
import JurkOS.Kernel.Fs.Mounts

/-!
All that is read of a disk: at the mount, and in a run of lookups, mounts,
readdirs and reads.
-/

namespace JurkOS.Kernel.Fs

open Lib Lib.Libc Lib.Memory Lib.Traced

variable {σ : Type}

inductive Driver
  | fat32
  | jurkvfs
  deriving DecidableEq

inductive Request
  | finddir (name : Name)
  | readdir (index : ℕ)
  | read (offset size : ℕ) (out : Mem)

namespace Driver

def finddir : Driver → Finddir
  | fat32 => .fat32
  | jurkvfs => .jurkvfs

def readdir : Driver → Readdir
  | fat32 => .fat32
  | jurkvfs => .jurkvfs

def read : Driver → Read
  | fat32 => .fat32
  | jurkvfs => .jurkvfs

def Handles (d : Driver) (node : Node) : Request → Prop
  | .finddir _ => node.flags &&& VFS_DIRECTORY ≠ 0 ∧ node.finddir = some d.finddir
  | .readdir _ => node.flags &&& VFS_DIRECTORY ≠ 0 ∧ node.readdir = some d.readdir
  | .read _ _ _ => node.read = some d.read

instance (d : Driver) (node : Node) : (r : Request) → Decidable (d.Handles node r)
  | .finddir _ => inferInstanceAs (Decidable (_ ∧ _))
  | .readdir _ => inferInstanceAs (Decidable (_ ∧ _))
  | .read _ _ _ => inferInstanceAs (Decidable (_ = _))

variable (K : Machine σ)

def init (s : State σ) (disk size : ℕ) : Driver → Option (ℕ × State σ)
  | fat32 => fat32Init K s disk size
  | jurkvfs => jurkvfsInit K s disk size

def bootReads (s : State σ) (disk : ℕ) : Driver → List ℕ
  | fat32 => (fat32VolumeReads K.mem disk).reads
  | jurkvfs => (jurkvfsVolumeReads K.mem disk).reads ++ (nodeReads K.mem s.currentFs 0).reads

def BootInside (s : State σ) (disk size : ℕ) : Driver → Prop
  | fat32 => BootSectorInside K.mem disk size
  | jurkvfs => NodeInside K.mem s.currentFs 0

end Driver

structure Call (σ : Type) where
  state : State σ
  node : ℕ
  request : Request

variable (K : Machine σ)

def fat32Reads (fs : Fat32Fs) (firstCluster fileSize : ℕ) : Request → List ℕ
  | .finddir name => (loop (clusterReads K.mem fs (finddirVisit K.mem name)) K.fuel (firstCluster, ())).reads
  | .readdir index => (loop (clusterReads K.mem fs (readdirVisit K.mem index)) K.fuel (firstCluster, 0)).reads
  | .read offset size out => (fileReads K.mem fs firstCluster fileSize offset size out).reads

def Fat32Inside (fs : Fat32Fs) (firstCluster fileSize : ℕ) : Request → Prop
  | .finddir name => DirInside K.mem fs (finddirVisit K.mem name) 32 K.fuel firstCluster ()
  | .readdir index => DirInside K.mem fs (readdirVisit K.mem index) 28 K.fuel firstCluster 0
  | .read offset size out => FileInside K.mem fs firstCluster fileSize offset size out

def jurkvfsReads (fs : JurkvfsFs) (i : ℕ) : Request → List ℕ
  | .finddir name => (tableReads K.mem fs (finddirNode K.mem fs name) i ()).reads
  | .readdir index => (tableReads K.mem fs (readdirNode K.mem fs index) i 0).reads
  | .read offset size out => (dataReads K.mem fs i offset size out).reads

def JurkvfsInside (fs : JurkvfsFs) (i : ℕ) : Request → Prop
  | .finddir name => TableInside K.mem fs (finddirNode K.mem fs name) (FinddirInside K.mem fs name) i ()
  | .readdir index => TableInside K.mem fs (readdirNode K.mem fs index) (ReaddirInside K.mem fs index) i 0
  | .read offset size _ => DataInside K.mem fs i offset size

namespace Call

def priv (d : Driver) (c : Call σ) : Option Priv :=
  if c.node = 0 then none
  else (c.state.nodes c.node).bind fun node => if d.Handles node c.request then node.devicePriv else none

def reads (d : Driver) (c : Call σ) : List ℕ :=
  match d, c.priv d with
  | .fat32, some (.fat32 firstCluster fileSize) => fat32Reads K c.state.currentFat firstCluster fileSize c.request
  | .jurkvfs, some (.jurkvfs i) => jurkvfsReads K c.state.currentFs i c.request
  | _, _ => []

def Inside (d : Driver) (c : Call σ) : Prop :=
  match d, c.priv d with
  | .fat32, some (.fat32 firstCluster fileSize) => Fat32Inside K c.state.currentFat firstCluster fileSize c.request
  | .jurkvfs, some (.jurkvfs i) => JurkvfsInside K c.state.currentFs i c.request
  | _, _ => True

end Call

inductive Access
  | vfsLookup (path : Name)
  | vfsMount (path : Name) (target : ℕ)
  | vfsReaddir (p index : ℕ)
  | vfsRead (p offset size buffer : ℕ) (out : Mem)

def lookupCalls (s : State σ) (current : ℕ) : List Name → List (Call σ)
  | [] => []
  | token :: rest =>
    match followPtr s current with
    | none => []
    | some p => ⟨s, p, .finddir token⟩ ::
        match vfsFinddir K s p token with
        | none => []
        | some (next, s) => if next = 0 then [] else lookupCalls s next rest

def pathCalls (s : State σ) (path : Name) : List (Call σ) :=
  if s.vfsRoot = 0 ∨ path = [SLASH] then [] else lookupCalls K s s.vfsRoot (tokens [] path)

namespace Access

def calls (s : State σ) : Access → List (Call σ)
  | vfsLookup path => pathCalls K s path
  | vfsMount path target => if target = 0 then [] else pathCalls K s path
  | vfsReaddir p index => [⟨s, p, .readdir index⟩]
  | vfsRead p offset size buffer out => if buffer = 0 then [] else [⟨s, p, .read offset size out⟩]

def perform (s : State σ) : Access → Option (State σ)
  | vfsLookup path => (Fs.vfsLookup K s path).map Prod.snd
  | vfsMount path target => (Fs.vfsMount K s path target).map Prod.snd
  | vfsReaddir p index => (Fs.vfsReaddir K s p index).map fun _ => s
  | vfsRead p offset size buffer out => (Fs.vfsRead K s p offset size buffer out).map fun _ => s

end Access

/-- The calls of a run, up to and including a step that faults. -/
def runCalls : State σ → List Access → List (Call σ)
  | _, [] => []
  | s, a :: l => a.calls K s ++
      match a.perform K s with
      | none => []
      | some s => runCalls s l

structure SameVolumes (s u : State σ) : Prop where
  fat : u.currentFat = s.currentFat
  jurkvfs : u.currentFs = s.currentFs

variable {K}

theorem SameVolumes.refl (s : State σ) : SameVolumes s s := ⟨rfl, rfl⟩

theorem SameVolumes.trans {s t u : State σ} (h : SameVolumes s t) (h' : SameVolumes t u) : SameVolumes s u :=
  ⟨h'.fat.trans h.fat, h'.jurkvfs.trans h.jurkvfs⟩

theorem kzallocNode_volumes {s u : State σ} {n p : ℕ} (h : kzallocNode K n s = some (p, u)) : SameVolumes s u := by
  simp only [kzallocNode] at h
  split_ifs at h
  obtain rfl := (Prod.mk.inj (Option.some.inj h)).2
  exact ⟨rfl, rfl⟩

theorem kmallocPriv_volumes {s u : State σ} {n : ℕ} (h : kmallocPriv K n s = some u) : SameVolumes s u := by
  simp only [kmallocPriv] at h
  split_ifs at h
  obtain rfl := Option.some.inj h
  exact ⟨rfl, rfl⟩

theorem NodeMade.volumes {s u : State σ} {p : ℕ} (h : NodeMade K s p u) : SameVolumes s u := by
  obtain ⟨n, k, s₁, s₂, node, h₁, h₂, rfl⟩ := h
  exact ((kzallocNode_volumes h₁).trans (kmallocPriv_volumes h₂)).trans ⟨rfl, rfl⟩

theorem vfsFinddir_volumes {s u : State σ} {p x : ℕ} {name : Name} (h : vfsFinddir K s p name = some (x, u)) :
    SameVolumes s u := by
  rcases vfsFinddir_creates h with rfl | ⟨_, _, _, _, hnode⟩ | ⟨_, hnode⟩
  · exact .refl _
  · exact (fat32CreateNode_made hnode).volumes
  · exact (jurkvfsCreateVfsNode_made hnode).volumes

theorem vfsLookup_volumes {s u : State σ} {x : ℕ} {path : Name} (h : vfsLookup K s path = some (x, u)) :
    SameVolumes s u := by
  have hpreserved := vfsLookup_preserves (I := fun _ => True) SameVolumes.refl (fun _ _ _ => .trans)
    (fun _ _ _ _ _ _ hfind => ⟨vfsFinddir_volumes hfind, trivial⟩) trivial h
  exact hpreserved.1

theorem vfsMount_volumes {s u : State σ} {path : Name} {t : ℕ} {r : ℤ} (h : vfsMount K s path t = some (r, u)) :
    SameVolumes s u := by
  unfold vfsMount at h
  split_ifs at h
  · obtain rfl := (Prod.mk.inj (Option.some.inj h)).2
    exact .refl _
  · obtain rfl := (Prod.mk.inj (Option.some.inj h)).2
    exact ⟨rfl, rfl⟩
  · simp only [Option.bind_eq_bind, Option.bind_eq_some_iff] at h
    obtain ⟨⟨mp, s₁⟩, hlookup, h⟩ := h
    apply (vfsLookup_volumes hlookup).trans
    split_ifs at h
    · obtain rfl := (Prod.mk.inj (Option.some.inj h)).2
      exact .refl _
    · simp only [Option.bind_eq_some_iff] at h
      obtain ⟨x, -, h⟩ := h
      obtain rfl := (Prod.mk.inj (Option.some.inj h)).2
      exact ⟨rfl, rfl⟩

theorem perform_volumes {s u : State σ} {a : Access} (h : a.perform K s = some u) : SameVolumes s u := by
  cases a with
  | vfsLookup path =>
    obtain ⟨⟨x, v⟩, hv, rfl⟩ := Option.map_eq_some_iff.mp h
    exact vfsLookup_volumes hv
  | vfsMount path target =>
    obtain ⟨⟨r, v⟩, hv, rfl⟩ := Option.map_eq_some_iff.mp h
    exact vfsMount_volumes hv
  | vfsReaddir p index =>
    obtain ⟨-, -, rfl⟩ := Option.map_eq_some_iff.mp h
    exact .refl _
  | vfsRead p offset size buffer out =>
    obtain ⟨-, -, rfl⟩ := Option.map_eq_some_iff.mp h
    exact .refl _

theorem lookupCalls_volumes {s : State σ} {n : ℕ} {l : List Name} {c : Call σ} (h : c ∈ lookupCalls K s n l) :
    SameVolumes s c.state := by
  induction l generalizing s n with
  | nil => cases h
  | cons token l ih =>
    unfold lookupCalls at h
    split at h
    · cases h
    rcases List.mem_cons.mp h with rfl | h
    · exact .refl _
    split at h
    · cases h
    rename_i hfind
    split_ifs at h
    · cases h
    · exact (vfsFinddir_volumes hfind).trans (ih h)

theorem pathCalls_volumes {s : State σ} {path : Name} {c : Call σ} (h : c ∈ pathCalls K s path) :
    SameVolumes s c.state := by
  unfold pathCalls at h
  split_ifs at h
  · cases h
  · exact lookupCalls_volumes h

theorem calls_volumes {s : State σ} {a : Access} {c : Call σ} (h : c ∈ a.calls K s) : SameVolumes s c.state := by
  cases a with
  | vfsLookup path => exact pathCalls_volumes h
  | vfsMount path target =>
    simp only [Access.calls] at h
    split_ifs at h
    · cases h
    · exact pathCalls_volumes h
  | vfsReaddir p index =>
    rw [List.mem_singleton.mp h]
    exact .refl _
  | vfsRead p offset size buffer out =>
    simp only [Access.calls] at h
    split_ifs at h
    · cases h
    · rw [List.mem_singleton.mp h]
      exact .refl _

theorem runCalls_volumes {s : State σ} {l : List Access} {c : Call σ} (h : c ∈ runCalls K s l) :
    SameVolumes s c.state := by
  induction l generalizing s with
  | nil => cases h
  | cons a l ih =>
    rcases List.mem_append.mp h with h | h
    · exact calls_volumes h
    · split at h
      · cases h
      · rename_i hperform
        exact (perform_volumes hperform).trans (ih h)

theorem fat32Volume_disk {m : Mem} {disk size : ℕ} {fs : Fat32Fs} (h : fat32Volume m disk size = some fs) :
    fs.diskBase = disk ∧ fs.diskSize = size ∧ 512 ≤ size := by
  unfold fat32Volume at h
  split_ifs at h with hsmall
  dsimp only at h
  split_ifs at h
  obtain rfl := Option.some.inj h
  exact ⟨rfl, rfl, by omega⟩

theorem jurkvfsVolume_disk {m : Mem} {disk size : ℕ} {fs : JurkvfsFs} (h : jurkvfsVolume m disk size = some fs) :
    fs.diskData = disk ∧ fs.diskSize = size ∧ JurkvfsMounted m fs := by
  unfold jurkvfsVolume at h
  split_ifs at h with hsmall
  obtain rfl := Option.some.inj h
  exact ⟨rfl, rfl, rfl, rfl, by dsimp only; omega⟩

variable (K) in
def Driver.Mounted (disk size : ℕ) (s : State σ) : Driver → Prop
  | fat32 => s.currentFat.diskBase = disk ∧ s.currentFat.diskSize = size ∧ 512 ≤ size
  | jurkvfs => s.currentFs.diskData = disk ∧ s.currentFs.diskSize = size ∧ JurkvfsMounted K.mem s.currentFs

variable {d : Driver} {disk size : ℕ}

theorem Driver.init_mounted {s u : State σ} {root : ℕ} (h : d.init K s disk size = some (root, u))
    (hroot : root ≠ 0) : d.Mounted K disk size u := by
  cases d with
  | fat32 =>
    simp only [init, fat32Init] at h
    cases hv : fat32Volume K.mem disk size with
    | none =>
      rw [hv] at h
      exact absurd (Prod.mk.inj (Option.some.inj h)).1.symm hroot
    | some fs =>
      rw [hv] at h
      have hfat : u.currentFat = fs := (fat32CreateNode_made h).volumes.fat
      unfold Mounted
      rw [hfat]
      exact fat32Volume_disk hv
  | jurkvfs =>
    simp only [init, jurkvfsInit] at h
    cases hv : jurkvfsVolume K.mem disk size with
    | none =>
      rw [hv] at h
      exact absurd (Prod.mk.inj (Option.some.inj h)).1.symm hroot
    | some fs =>
      rw [hv] at h
      have hfs : u.currentFs = fs := (jurkvfsCreateVfsNode_made h).volumes.jurkvfs
      unfold Mounted
      rw [hfs]
      exact jurkvfsVolume_disk hv

theorem SameVolumes.mounted {s u : State σ} (h : SameVolumes s u) (hs : d.Mounted K disk size s) :
    d.Mounted K disk size u := by
  cases d with
  | fat32 =>
    unfold Driver.Mounted
    rw [h.fat]
    exact hs
  | jurkvfs =>
    unfold Driver.Mounted
    rw [h.jurkvfs]
    exact hs

theorem bootReads_inside {s : State σ} (h : d.Mounted K disk size s) :
    (∀ p ∈ d.bootReads K s disk, p ∈ Span disk size) ↔ d.BootInside K s disk size := by
  cases d with
  | fat32 => exact fat32VolumeReads_inside h.2.2
  | jurkvfs =>
    obtain ⟨rfl, rfl, hmounted⟩ := h
    have hvolume : Within (Span s.currentFs.diskData s.currentFs.diskSize)
        (jurkvfsVolumeReads K.mem s.currentFs.diskData) := jurkvfsVolumeReads_inside hmounted.header_le
    unfold Driver.bootReads Driver.BootInside
    rw [List.forall_mem_append, ← hmounted.nodeReads_inside]
    exact and_iff_right hvolume

theorem fat32Reads_inside (fs : Fat32Fs) (firstCluster fileSize : ℕ) (r : Request) :
    (∀ p ∈ fat32Reads K fs firstCluster fileSize r, p ∈ Span fs.diskBase fs.diskSize) ↔
      Fat32Inside K fs firstCluster fileSize r := by
  cases r with
  | finddir name => exact dirReads_inside (finddirVisit_visitor name) _ _ _
  | readdir index => exact dirReads_inside (readdirVisit_visitor index) _ _ _
  | read offset size out => exact fileReads_inside _ _ _ _ _

theorem jurkvfsReads_inside {fs : JurkvfsFs} (h : JurkvfsMounted K.mem fs) (i : ℕ) (r : Request) :
    (∀ p ∈ jurkvfsReads K fs i r, p ∈ Span fs.diskData fs.diskSize) ↔ JurkvfsInside K fs i r := by
  cases r with
  | finddir name => exact h.tableReads_inside (h.finddirNode_inside name) _ _
  | readdir index => exact h.tableReads_inside (h.readdirNode_inside index) _ _
  | read offset size out => exact h.dataReads_inside _ _ _ _

theorem Call.reads_inside {c : Call σ} (h : d.Mounted K disk size c.state) :
    (∀ p ∈ c.reads K d, p ∈ Span disk size) ↔ c.Inside K d := by
  have hempty : (∀ p ∈ ([] : List ℕ), p ∈ Span disk size) ↔ True := iff_of_true (List.forall_mem_nil _) trivial
  unfold Call.reads Call.Inside
  cases d with
  | fat32 =>
    obtain ⟨rfl, rfl, -⟩ := h
    cases c.priv .fat32 with
    | none => exact hempty
    | some x =>
      cases x with
      | fat32 firstCluster fileSize => exact fat32Reads_inside _ _ _ _
      | jurkvfs i => exact hempty
  | jurkvfs =>
    obtain ⟨rfl, rfl, hmounted⟩ := h
    cases c.priv .jurkvfs with
    | none => exact hempty
    | some x =>
      cases x with
      | fat32 firstCluster fileSize => exact hempty
      | jurkvfs i => exact jurkvfsReads_inside hmounted _ _

variable (K) in
def diskReads (d : Driver) (s : State σ) (disk : ℕ) (l : List Access) : List ℕ :=
  d.bootReads K s disk ++ (runCalls K s l).flatMap (Call.reads K d)

theorem diskReads_inside_iff {s₀ s : State σ} {root : ℕ} (hinit : d.init K s₀ disk size = some (root, s))
    (hroot : root ≠ 0) (l : List Access) :
    (∀ p ∈ diskReads K d s disk l, p ∈ Span disk size) ↔
      d.BootInside K s disk size ∧ ∀ c ∈ runCalls K s l, c.Inside K d := by
  have hmounted := Driver.init_mounted hinit hroot
  unfold diskReads
  rw [List.forall_mem_append, bootReads_inside hmounted]
  apply and_congr_right
  intro _
  simp only [List.forall_mem_flatMap]
  constructor
  · exact fun h c hc => (Call.reads_inside ((runCalls_volumes hc).mounted hmounted)).mp (h c hc)
  · exact fun h c hc => (Call.reads_inside ((runCalls_volumes hc).mounted hmounted)).mpr (h c hc)

def fatMounted : State ℕ := ((fat32Init fatMachine powerOn 0x100000 2048).map Prod.snd).getD powerOn

def fatAccesses : List Access :=
  [.vfsMount (bytes "/") 0x200000, .vfsReaddir 0x200000 0, .vfsLookup (bytes "/dev"), .vfsReaddir 0x200000 1]

theorem fatMounted_inside : Driver.BootInside fatMachine fatMounted 0x100000 2048 .fat32 ∧
    ∀ c ∈ runCalls fatMachine fatMounted fatAccesses, c.Inside fatMachine .fat32 := by
  have hinit : Driver.fat32.init fatMachine powerOn 0x100000 2048 = some (0x200000, fatMounted) := rfl
  apply (diskReads_inside_iff hinit (by decide) fatAccesses).mp
  change ∀ p ∈ _, 0x100000 ≤ p ∧ p < 0x100000 + 2048
  decide

theorem diskReads_beyond : ∃ root s, Driver.fat32.init fatMachine powerOn 0x100000 512 = some (root, s) ∧ root ≠ 0 ∧
    ∃ p ∈ diskReads fatMachine .fat32 s 0x100000 [.vfsReaddir root 0], p ∉ Span 0x100000 512 := by
  refine ⟨_, _, rfl, by decide, 0x100400, by decide, ?_⟩
  rw [mem_span]
  decide

end JurkOS.Kernel.Fs
