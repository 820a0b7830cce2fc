import JurkOS.Kernel.Fs.Readdir
import JurkOS.Kernel.Fs.Mounts
import Mathlib.Data.List.Find
import Mathlib.Data.List.Range

/-!
Listing against lookup. A directory is the list of its visible entries: index
`i` lists the `i`-th of them, a name is looked up to the first that has it.
-/

namespace JurkOS.Kernel.Fs

open Lib.Libc Lib.Memory

variable {σ : Type}

/-! ### FAT32 -/

section Fat32

variable {m : Mem} {fs : Fat32Fs} {name : Name} {index : ℕ}

def Visible (m : Mem) (e : ℕ) : Prop :=
  m e ≠ 0xE5 ∧ m (e + 11) ≠ FAT_ATTR_LFN ∧ m (e + 11) &&& FAT_ATTR_VOLUME_ID = 0 ∧ m e ≠ 0x2E

instance (m : Mem) (e : ℕ) : Decidable (Visible m e) := inferInstanceAs (Decidable (_ ∧ _ ∧ _ ∧ _))

def listed (m : Mem) : List ℕ → List ℕ
  | [] => []
  | e :: slots => if m e = 0x00 then [] else if Visible m e then e :: listed m slots else listed m slots

def slots (fs : Fat32Fs) (chain : List ℕ) : List ℕ :=
  chain.flatMap fun c => List.range' ((fat32GetClusterPtr fs c).getD 0) (fs.clusterSize / 32) 32

def DirChain (m : Mem) (fs : Fat32Fs) : List ℕ → ℕ → Prop
  | [], c => 0x0FFFFFF8 ≤ c ∨ c < 2
  | c' :: chain, c => c' = c ∧ 2 ≤ c ∧ c < 0x0FFFFFF8 ∧ DirChain m fs chain (fat32GetNextCluster m fs c)

def fat32Dirent (m : Mem) (e : ℕ) : Dirent :=
  { name := fat32FormatName (bytesAt m e 11)
    inode := load m (e + 20) 2 <<< 16 ||| load m (e + 26) 2
    flags := if m (e + 11) &&& FAT_ATTR_DIRECTORY ≠ 0 then VFS_DIRECTORY else VFS_FILE }

theorem formatName_dot {raw : List UInt8} (h : raw.head? = some 0x2E) : (fat32FormatName raw).head? = some 0x2E := by
  cases raw with
  | nil => cases h
  | cons c raw =>
    cases h
    unfold fat32FormatName
    split <;> rfl

theorem bytesAt_head (m : Mem) (e n : ℕ) : (bytesAt m e (n + 1)).head? = some (m e) := by
  simp [bytesAt, List.range_succ_eq_map]

theorem listed_end {e : ℕ} (l : List ℕ) (h : m e = 0) : listed m (e :: l) = [] := if_pos h

theorem listed_visible {e : ℕ} (l : List ℕ) (h : m e ≠ 0) (hv : Visible m e) :
    listed m (e :: l) = e :: listed m l := by
  rw [listed, if_neg h, if_pos hv]

theorem listed_hidden {e : ℕ} (l : List ℕ) (h : m e ≠ 0) (hv : ¬ Visible m e) :
    listed m (e :: l) = listed m l := by
  rw [listed, if_neg h, if_neg hv]

theorem scanCluster_visible {e : ℕ} (n : ℕ) (h : m e ≠ 0) (hv : Visible m e) :
    scanCluster m name (n + 1) e =
      if fat32FormatName (bytesAt m e 11) = name then .found e else scanCluster m name n (e + 32) := by
  obtain ⟨h₁, h₂, h₃, -⟩ := hv
  simp only [scanCluster, if_neg h, if_neg h₁, if_neg h₂, if_neg (not_not.mpr h₃)]

theorem scanCluster_hidden {e : ℕ} (n : ℕ) (hdot : name.head? ≠ some 0x2E) (h : m e ≠ 0) (hv : ¬ Visible m e) :
    scanCluster m name (n + 1) e = scanCluster m name n (e + 32) := by
  simp only [scanCluster, if_neg h]
  split_ifs with h₁ h₂ h₃ h₄
  · rfl
  · rfl
  · rfl
  · have hself : m e = 0x2E := by
      unfold Visible at hv
      tauto
    have hhead := formatName_dot ((bytesAt_head m e 10).trans (congrArg some hself))
    exact absurd (h₄ ▸ hhead) hdot
  · rfl

theorem readdirCluster_visible {e currentMatch : ℕ} (n : ℕ) (h : m e ≠ 0) (hv : Visible m e) :
    readdirCluster m index (n + 1) e currentMatch =
      if currentMatch = index then .found e
      else readdirCluster m index n (e + 32) (wrap32 (currentMatch + 1)) := by
  obtain ⟨h₁, h₂, h₃, h₄⟩ := hv
  simp only [readdirCluster, if_neg h, if_neg h₁, if_neg h₂, if_neg (not_not.mpr h₃), if_neg h₄]

theorem readdirCluster_hidden {e currentMatch : ℕ} (n : ℕ) (h : m e ≠ 0) (hv : ¬ Visible m e) :
    readdirCluster m index (n + 1) e currentMatch = readdirCluster m index n (e + 32) currentMatch := by
  simp only [readdirCluster, if_neg h]
  split_ifs with h₁ h₂ h₃ h₄ h₅
  · rfl
  · rfl
  · rfl
  · rfl
  · exact absurd ⟨h₁, h₂, not_not.mp h₃, h₄⟩ hv
  · exact absurd ⟨h₁, h₂, not_not.mp h₃, h₄⟩ hv

def IsNamed (m : Mem) (name : Name) (e : ℕ) : Bool := fat32FormatName (bytesAt m e 11) = name

theorem scanCluster_listed (hdot : name.head? ≠ some 0x2E) (n e : ℕ) (rest : List ℕ) :
    (listed m (List.range' e n 32 ++ rest)).find? (IsNamed m name) =
      match scanCluster m name n e with
      | .ended => none
      | .found x => some x
      | .more => (listed m rest).find? (IsNamed m name) := by
  induction n generalizing e with
  | zero => rfl
  | succ n ih =>
    rw [List.range'_succ, List.cons_append]
    by_cases hend : m e = 0
    · rw [listed_end _ hend, scanCluster, if_pos hend]
      rfl
    by_cases hvis : Visible m e
    · rw [listed_visible _ hend hvis, scanCluster_visible n hend hvis, List.find?_cons]
      by_cases hname : fat32FormatName (bytesAt m e 11) = name
      · have htrue : IsNamed m name e = true := decide_eq_true hname
        rw [if_pos hname, htrue]
      · have hfalse : IsNamed m name e = false := decide_eq_false hname
        rw [if_neg hname, hfalse]
        exact ih _
    · rw [listed_hidden _ hend hvis, scanCluster_hidden n hdot hend hvis]
      exact ih _

theorem slots_cons (fs : Fat32Fs) {c : ℕ} (hmin : 2 ≤ c) (chain : List ℕ) :
    ∃ cptr, fat32GetClusterPtr fs c = some cptr ∧
      slots fs (c :: chain) = List.range' cptr (fs.clusterSize / 32) 32 ++ slots fs chain := by
  have hptr : fat32GetClusterPtr fs c = some _ := if_neg (by omega)
  refine ⟨_, hptr, ?_⟩
  rw [slots, List.flatMap_cons, hptr]
  rfl

theorem finddirLoop_listed (hdot : name.head? ≠ some 0x2E) {chain : List ℕ} {fuel c : ℕ} (h : DirChain m fs chain c)
    (hfuel : chain.length < fuel) :
    finddirLoop m fs name fuel c = some ((listed m (slots fs chain)).find? (IsNamed m name)) := by
  induction chain generalizing fuel c with
  | nil =>
    obtain ⟨fuel, rfl⟩ := Nat.exists_eq_add_of_lt hfuel
    unfold finddirLoop
    cases h with
    | inl h => rw [if_neg (by omega)]; rfl
    | inr h =>
      have hptr : fat32GetClusterPtr fs c = none := if_pos h
      rw [if_pos (by omega), hptr]
      rfl
  | cons c' chain ih =>
    obtain ⟨rfl, hmin, hmax, hrest⟩ := h
    cases fuel with
    | zero => cases hfuel
    | succ fuel =>
      obtain ⟨cptr, hptr, hslots⟩ := slots_cons fs hmin chain
      rw [hslots, scanCluster_listed hdot, finddirLoop, if_pos hmax, hptr]
      simp only
      cases scanCluster m name (fs.clusterSize / 32) cptr with
      | ended => rfl
      | found x => rfl
      | more => exact ih hrest (by simpa using hfuel)

theorem readdirCluster_listed (hindex : index < 2 ^ 32) (n e currentMatch : ℕ) (rest : List ℕ)
    (hle : currentMatch ≤ index) :
    match readdirCluster m index n e currentMatch with
    | .ended => (listed m (List.range' e n 32 ++ rest))[index - currentMatch]? = none
    | .found x => (listed m (List.range' e n 32 ++ rest))[index - currentMatch]? = some x
    | .more next => next ≤ index ∧
        (listed m (List.range' e n 32 ++ rest))[index - currentMatch]? = (listed m rest)[index - next]? := by
  induction n generalizing e currentMatch with
  | zero => exact ⟨hle, rfl⟩
  | succ n ih =>
    rw [List.range'_succ, List.cons_append]
    by_cases hend : m e = 0
    · rw [listed_end _ hend, readdirCluster, if_pos hend]
      rfl
    by_cases hvis : Visible m e
    · rw [listed_visible _ hend hvis, readdirCluster_visible n hend hvis]
      by_cases hat : currentMatch = index
      · rw [if_pos hat, hat, Nat.sub_self]
        rfl
      · have hwrap : wrap32 (currentMatch + 1) = currentMatch + 1 := Nat.mod_eq_of_lt (by omega)
        have hsub : index - currentMatch = index - (currentMatch + 1) + 1 := by omega
        rw [if_neg hat, hwrap, hsub]
        simp only [List.getElem?_cons_succ]
        exact ih (e + 32) (currentMatch + 1) (by omega)
    · rw [listed_hidden _ hend hvis, readdirCluster_hidden n hend hvis]
      exact ih (e + 32) currentMatch hle

theorem readdirLoop_listed (hindex : index < 2 ^ 32) {chain : List ℕ} {fuel c currentMatch : ℕ}
    (h : DirChain m fs chain c) (hfuel : chain.length < fuel) (hle : currentMatch ≤ index) :
    readdirLoop m fs index fuel c currentMatch = some (listed m (slots fs chain))[index - currentMatch]? := by
  induction chain generalizing fuel c currentMatch with
  | nil =>
    obtain ⟨fuel, rfl⟩ := Nat.exists_eq_add_of_lt hfuel
    unfold readdirLoop
    cases h with
    | inl h => rw [if_neg (by omega)]; rfl
    | inr h =>
      have hptr : fat32GetClusterPtr fs c = none := if_pos h
      rw [if_pos (by omega), hptr]
      rfl
  | cons c' chain ih =>
    obtain ⟨rfl, hmin, hmax, hrest⟩ := h
    cases fuel with
    | zero => cases hfuel
    | succ fuel =>
      obtain ⟨cptr, hptr, hslots⟩ := slots_cons fs hmin chain
      have hscan := readdirCluster_listed (m := m) hindex (fs.clusterSize / 32) cptr currentMatch (slots fs chain) hle
      rw [hslots, readdirLoop, if_pos hmax, hptr]
      simp only
      cases hc : readdirCluster m index (fs.clusterSize / 32) cptr currentMatch with
      | ended => rw [hc] at hscan; rw [hscan]
      | found x => rw [hc] at hscan; rw [hscan]
      | more next =>
        rw [hc] at hscan
        rw [hscan.2]
        exact ih hrest (by simpa using hfuel) hscan.1

end Fat32

/-! ### JurkVFS -/

section Jurkvfs

variable {m : Mem} {fs : JurkvfsFs} {name : Name} {parent index : ℕ}

def IsChild (m : Mem) (fs : JurkvfsFs) (parent i : ℕ) : Bool := load m (jurkvfsInode fs i + 76) 4 = parent ∧ i ≠ parent

def jurkvfsDirent (m : Mem) (fs : JurkvfsFs) (i : ℕ) : Dirent :=
  { name := (strcpyFrom m (jurkvfsInode fs i) FS_MAX_NAME).getD []
    inode := i
    flags := if load m (jurkvfsInode fs i + 64) 4 = JURKVFS_TYPE_DIR then VFS_DIRECTORY else VFS_FILE }

theorem finddirInode_listed (n i : ℕ) : finddirInode m fs parent name n i =
    ((List.range' i n).filter (IsChild m fs parent)).find? (fun j => strcmpEq m (jurkvfsInode fs j) name) := by
  induction n generalizing i with
  | zero => rfl
  | succ n ih =>
    rw [List.range'_succ, finddirInode, ih]
    by_cases hchild : load m (jurkvfsInode fs i + 76) 4 = parent ∧ i ≠ parent
    · have htrue : IsChild m fs parent i = true := decide_eq_true hchild
      rw [List.filter_cons_of_pos htrue, List.find?_cons]
      by_cases hname : strcmpEq m (jurkvfsInode fs i) name = true
      · rw [if_pos ⟨hchild.1, hchild.2, hname⟩, hname]
      · rw [if_neg (fun h => hname h.2.2), eq_false_of_ne_true hname]
    · have hfalse : ¬ IsChild m fs parent i = true := fun h => hchild (of_decide_eq_true h)
      rw [List.filter_cons_of_neg hfalse, if_neg (fun h => hchild ⟨h.1, h.2.1⟩)]

theorem readdirInode_listed (hindex : index < 2 ^ 32) {n i currentMatch : ℕ} (hle : currentMatch ≤ index) :
    readdirInode m fs parent index n i currentMatch =
      ((List.range' i n).filter (IsChild m fs parent))[index - currentMatch]? := by
  induction n generalizing i currentMatch with
  | zero => rfl
  | succ n ih =>
    rw [List.range'_succ, readdirInode]
    by_cases hchild : load m (jurkvfsInode fs i + 76) 4 = parent ∧ i ≠ parent
    · have htrue : IsChild m fs parent i = true := decide_eq_true hchild
      rw [List.filter_cons_of_pos htrue, if_pos hchild]
      by_cases hat : currentMatch = index
      · rw [if_pos hat, hat, Nat.sub_self]
        rfl
      · have hwrap : wrap32 (currentMatch + 1) = currentMatch + 1 := Nat.mod_eq_of_lt (by omega)
        have hsub : index - currentMatch = index - (currentMatch + 1) + 1 := by omega
        rw [if_neg hat, hwrap, hsub, List.getElem?_cons_succ]
        exact ih (by omega)
    · have hfalse : ¬ IsChild m fs parent i = true := fun h => hchild (of_decide_eq_true h)
      rw [List.filter_cons_of_neg hfalse, if_neg hchild]
      exact ih hle

theorem strcmpEq_iff {p n : ℕ} {s : Name} (h0 : 0 ∉ name) (h : strcpyFrom m p n = some s) :
    strcmpEq m p name = true ↔ s = name := by
  induction name generalizing p n s with
  | nil =>
    cases n with
    | zero => cases h
    | succ n =>
      unfold strcpyFrom at h
      by_cases hend : m p = 0
      · rw [if_pos hend] at h
        cases h
        simp [strcmpEq, hend]
      · rw [if_neg hend] at h
        obtain ⟨t, -, rfl⟩ := Option.map_eq_some_iff.mp h
        simp [strcmpEq, hend]
  | cons c name ih =>
    have hc : c ≠ 0 := fun he => h0 (he ▸ List.mem_cons_self)
    cases n with
    | zero => cases h
    | succ n =>
      unfold strcpyFrom at h
      by_cases hend : m p = 0
      · rw [if_pos hend] at h
        cases h
        simp [strcmpEq, hend, hc.symm]
      · rw [if_neg hend] at h
        obtain ⟨t, ht, rfl⟩ := Option.map_eq_some_iff.mp h
        have hrest := ih (fun hm => h0 (List.mem_cons_of_mem _ hm)) ht
        simp [strcmpEq, hrest]

end Jurkvfs

/-! ### Directories -/

section Directory

variable {K : Machine σ} {s : State σ} {node : Node} {d : ℕ} {name : Name} {L : List Dirent}

def TwoBlocks (K : Machine σ) (s : State σ) (size : ℕ) : Prop :=
  let r := K.alloc.kmalloc s.heap (sizeofVfsNode K.arch)
  r.1 ≠ 0 ∧ (K.alloc.kmalloc r.2 size).1 ≠ 0

instance (size : ℕ) : Decidable (TwoBlocks K s size) := inferInstanceAs (Decidable (_ ∧ _))

def RoomForNode (K : Machine σ) (s : State σ) (node : Node) : Prop :=
  match node.finddir with
  | some .fat32 => TwoBlocks K s (sizeofFat32NodePriv K.arch)
  | some .jurkvfs => TwoBlocks K s (sizeofJurkvfsNodePriv K.arch)
  | _ => True

def devfsDirent (child : Node) : Dirent := ⟨child.name, child.inode, child.flags⟩

inductive Directory (K : Machine σ) (s : State σ) (node : Node) : List Dirent → Prop
  | devfs (children : List Node) (hf : node.finddir = some .devfs) (hr : node.readdir = some .devfs)
      (hlen : node.children.length ≤ 16)
      (hc : List.Forall₂ (fun p child => p ≠ 0 ∧ s.nodes p = some child) node.children children) :
      Directory K s node (children.map devfsDirent)
  | jurkvfs (i : ℕ) (hf : node.finddir = some .jurkvfs) (hr : node.readdir = some .jurkvfs)
      (hp : node.devicePriv = some (.jurkvfs i))
      (hnames : ∀ j < totalInodes K.mem s.currentFs, ∃ k < 64, K.mem (jurkvfsInode s.currentFs j + k) = 0) :
      Directory K s node (((List.range (totalInodes K.mem s.currentFs)).filter
        (IsChild K.mem s.currentFs i)).map (jurkvfsDirent K.mem s.currentFs))
  | fat32 (firstCluster fileSize : ℕ) (chain : List ℕ) (hf : node.finddir = some .fat32)
      (hr : node.readdir = some .fat32) (hp : node.devicePriv = some (.fat32 firstCluster fileSize))
      (hc : DirChain K.mem s.currentFat chain firstCluster) (hfuel : chain.length < K.fuel) :
      Directory K s node ((listed K.mem (slots s.currentFat chain)).map (fat32Dirent K.mem))

theorem devfsReaddir_directory {index : ℕ} {children : List Node}
    (hc : List.Forall₂ (fun p child => p ≠ 0 ∧ s.nodes p = some child) node.children children) :
    devfsReaddirImpl s node index = some (children.map devfsDirent)[index]? := by
  unfold devfsReaddirImpl
  rw [List.getElem?_map]
  by_cases hi : index < node.children.length
  · have hi' : index < children.length := hc.length_eq ▸ hi
    have hchild := (List.Forall₂.get hc hi hi').2
    rw [List.getElem?_eq_getElem hi, List.getElem?_eq_getElem hi']
    simp only [List.get_eq_getElem] at hchild
    simp only [hchild]
    rfl
  · have hi' : ¬ index < children.length := hc.length_eq ▸ hi
    rw [List.getElem?_eq_none (by omega), List.getElem?_eq_none (by omega)]
    rfl

theorem vfsReaddir_directory (hd : d ≠ 0) (hn : s.nodes d = some node) (hdir : node.flags &&& VFS_DIRECTORY ≠ 0)
    (D : Directory K s node L) {index : ℕ} (h : index < 2 ^ 32) : vfsReaddir K s d index = some L[index]? := by
  unfold vfsReaddir
  rw [if_neg hd, hn]
  simp only [if_neg hdir]
  cases D with
  | devfs children hf hr hlen hc =>
    simp only [hr]
    exact devfsReaddir_directory hc
  | jurkvfs i hf hr hp hnames =>
    simp only [hr, jurkvfsReaddirImpl, hp, readdirInode_listed h (Nat.zero_le _), Nat.sub_zero]
    rw [← List.range_eq_range', List.getElem?_map]
    cases hget : ((List.range (totalInodes K.mem s.currentFs)).filter (IsChild K.mem s.currentFs i))[index]? with
    | none => rfl
    | some j =>
      have hj := List.mem_range.mp (List.mem_filter.mp (List.mem_of_getElem? hget)).1
      obtain ⟨k, hk, hzero⟩ := hnames j hj
      obtain ⟨t, ht⟩ := strcpyFrom_of_terminated (by unfold FS_MAX_NAME; omega : k < FS_MAX_NAME) hzero
      simp only [Option.map_some, jurkvfsDirent, ht]
      rfl
  | fat32 firstCluster fileSize chain hf hr hp hc hfuel =>
    simp only [hr, fat32ReaddirImpl, hp, readdirLoop_listed h hc hfuel (Nat.zero_le _), Nat.sub_zero]
    rw [List.getElem?_map]
    cases (listed K.mem (slots s.currentFat chain))[index]? <;> rfl

theorem kzallocNode_cases (size : ℕ) : TwoBlocks K s size ∧ (∃ p u v, kzallocNode K (sizeofVfsNode K.arch) s =
      some (p, u) ∧ p ≠ 0 ∧ kmallocPriv K size u = some v) ∨
    ¬ TwoBlocks K s size ∧ ∀ p u, kzallocNode K (sizeofVfsNode K.arch) s = some (p, u) →
      kmallocPriv K size u = none := by
  unfold TwoBlocks kzallocNode
  by_cases hnode : (K.alloc.kmalloc s.heap (sizeofVfsNode K.arch)).1 = 0
  · apply Or.inr
    simp [hnode]
  by_cases hpriv : (K.alloc.kmalloc (K.alloc.kmalloc s.heap (sizeofVfsNode K.arch)).2 size).1 = 0
  · apply Or.inr
    refine ⟨fun h => h.2 hpriv, ?_⟩
    intro p u h
    simp only [if_neg hnode, Option.some.injEq, Prod.mk.injEq] at h
    obtain ⟨-, rfl⟩ := h
    exact if_pos hpriv
  · exact Or.inl ⟨⟨hnode, hpriv⟩, _, _, _, if_neg hnode, hnode, if_neg hpriv⟩

def Denotes (t : State σ) (p : ℕ) (e : Dirent) : Prop :=
  p ≠ 0 ∧ ∃ x, t.nodes p = some x ∧ x.inode = e.inode ∧ x.flags = e.flags

theorem fat32CreateNode_cases (name : Name) (cluster size : ℕ) (isDir : Bool) :
    TwoBlocks K s (sizeofFat32NodePriv K.arch) ∧ (∃ p t, fat32CreateNode K s name cluster size isDir = some (p, t) ∧
      Denotes t p ⟨name, cluster, if isDir then VFS_DIRECTORY else VFS_FILE⟩) ∨
    ¬ TwoBlocks K s (sizeofFat32NodePriv K.arch) ∧ fat32CreateNode K s name cluster size isDir = none := by
  cases kzallocNode_cases (K := K) (s := s) (sizeofFat32NodePriv K.arch) with
  | inl h =>
    obtain ⟨hroom, p, u, v, hu, hp, hv⟩ := h
    refine Or.inl ⟨hroom, p, ?_⟩
    unfold fat32CreateNode
    simp only [hu, hv, Option.bind_eq_bind, Option.bind_some]
    cases isDir with
    | true => exact ⟨_, rfl, hp, _, Function.update_self _ _ _, rfl, rfl⟩
    | false => exact ⟨_, rfl, hp, _, Function.update_self _ _ _, rfl, rfl⟩
  | inr h =>
    refine Or.inr ⟨h.1, ?_⟩
    unfold fat32CreateNode
    cases hu : kzallocNode K (sizeofVfsNode K.arch) s with
    | none => rfl
    | some r =>
      simp only [Option.bind_eq_bind, Option.bind_some, h.2 r.1 r.2 hu]
      rfl

theorem jurkvfsCreateVfsNode_cases {i : ℕ} {t : Name}
    (hname : strcpyFrom K.mem (jurkvfsInode s.currentFs i) FS_MAX_NAME = some t) :
    TwoBlocks K s (sizeofJurkvfsNodePriv K.arch) ∧ (∃ p t, jurkvfsCreateVfsNode K s i = some (p, t) ∧
      Denotes t p (jurkvfsDirent K.mem s.currentFs i)) ∨
    ¬ TwoBlocks K s (sizeofJurkvfsNodePriv K.arch) ∧ jurkvfsCreateVfsNode K s i = none := by
  cases kzallocNode_cases (K := K) (s := s) (sizeofJurkvfsNodePriv K.arch) with
  | inl h =>
    obtain ⟨hroom, p, u, v, hu, hp, hv⟩ := h
    refine Or.inl ⟨hroom, p, ?_⟩
    unfold jurkvfsCreateVfsNode Denotes jurkvfsDirent
    simp only [hu, hv, hname, Option.bind_eq_bind, Option.bind_some]
    split_ifs
    · exact ⟨_, rfl, hp, _, Function.update_self _ _ _, rfl, rfl⟩
    · exact ⟨_, rfl, hp, _, Function.update_self _ _ _, rfl, rfl⟩
  | inr h =>
    refine Or.inr ⟨h.1, ?_⟩
    unfold jurkvfsCreateVfsNode
    cases hu : kzallocNode K (sizeofVfsNode K.arch) s with
    | none => rfl
    | some r =>
      simp only [hname, Option.bind_eq_bind, Option.bind_some, h.2 r.1 r.2 hu]
      rfl

theorem devfsFinddirLoop_find (name : Name) {children : List Node} {l : List ℕ}
    (hc : List.Forall₂ (fun p child => p ≠ 0 ∧ s.nodes p = some child) l children) :
    match (children.map devfsDirent).find? (·.name = name) with
    | none => devfsFinddirLoop s name l = some 0
    | some e => ∃ p, devfsFinddirLoop s name l = some p ∧ Denotes s p e := by
  induction hc with
  | nil => rfl
  | @cons p child l children hp hrest ih =>
    unfold devfsFinddirLoop
    rw [hp.2, List.map_cons, List.find?_cons]
    by_cases hname : child.name = name
    · have htrue : decide ((devfsDirent child).name = name) = true := decide_eq_true hname
      simp only [htrue, if_pos hname]
      exact ⟨p, rfl, hp.1, child, hp.2, rfl, rfl⟩
    · have hfalse : decide ((devfsDirent child).name = name) = false := decide_eq_false hname
      simp only [hfalse, if_neg hname]
      exact ih

theorem vfsFinddir_directory (hd : d ≠ 0) (hn : s.nodes d = some node) (hdir : node.flags &&& VFS_DIRECTORY ≠ 0)
    (D : Directory K s node L) (h0 : 0 ∉ name) (hdot : name.head? ≠ some 0x2E) :
    match L.find? (·.name = name) with
    | none => vfsFinddir K s d name = some (0, s)
    | some e => RoomForNode K s node ∧ (∃ p t, vfsFinddir K s d name = some (p, t) ∧ Denotes t p e) ∨
        ¬ RoomForNode K s node ∧ vfsFinddir K s d name = none := by
  unfold vfsFinddir
  rw [if_neg hd, hn]
  simp only [if_neg hdir]
  cases D with
  | devfs children hf hr hlen hc =>
    have hfind := devfsFinddirLoop_find name hc
    simp only [hf, devfsFinddirImpl, RoomForNode]
    cases hL : (children.map devfsDirent).find? (·.name = name) with
    | none =>
      rw [hL] at hfind
      simp only [hfind]
      rfl
    | some e =>
      rw [hL] at hfind
      obtain ⟨p, hp, hden⟩ := hfind
      exact Or.inl ⟨trivial, p, s, by rw [hp]; rfl, hden⟩
  | jurkvfs i hf hr hp hnames =>
    have hterm : ∀ j ∈ (List.range (totalInodes K.mem s.currentFs)).filter (IsChild K.mem s.currentFs i),
        ∃ t, strcpyFrom K.mem (jurkvfsInode s.currentFs j) FS_MAX_NAME = some t := by
      intro j hj
      obtain ⟨k, hk, hzero⟩ := hnames j (List.mem_range.mp (List.mem_filter.mp hj).1)
      exact strcpyFrom_of_terminated (by unfold FS_MAX_NAME; omega : k < FS_MAX_NAME) hzero
    have hsame : ∀ j ∈ (List.range (totalInodes K.mem s.currentFs)).filter (IsChild K.mem s.currentFs i),
        strcmpEq K.mem (jurkvfsInode s.currentFs j) name =
          decide ((jurkvfsDirent K.mem s.currentFs j).name = name) := by
      intro j hj
      obtain ⟨t, ht⟩ := hterm j hj
      rw [Bool.eq_iff_iff, strcmpEq_iff h0 ht, decide_eq_true_eq, jurkvfsDirent, ht]
      rfl
    simp only [hf, jurkvfsFinddirImpl, hp, RoomForNode, finddirInode_listed, ← List.range_eq_range', List.find?_map]
    rw [List.find?_congr hsame]
    simp only [Function.comp_def]
    cases hfind : ((List.range (totalInodes K.mem s.currentFs)).filter (IsChild K.mem s.currentFs i)).find?
        (fun j => decide ((jurkvfsDirent K.mem s.currentFs j).name = name)) with
    | none => rfl
    | some j =>
      obtain ⟨t, ht⟩ := hterm j (List.mem_of_find?_eq_some hfind)
      exact jurkvfsCreateVfsNode_cases ht
  | fat32 firstCluster fileSize chain hf hr hp hc hfuel =>
    simp only [hf, fat32FinddirImpl, hp, RoomForNode, finddirLoop_listed hdot hc hfuel, List.find?_map]
    have hsame : (fun x => decide (x.name = name)) ∘ fat32Dirent K.mem = IsNamed K.mem name := rfl
    rw [hsame]
    cases (listed K.mem (slots s.currentFat chain)).find? (IsNamed K.mem name) with
    | none => rfl
    | some e =>
      have hcreate := fat32CreateNode_cases (K := K) (s := s) (fat32FormatName (bytesAt K.mem e 11))
        (load K.mem (e + 20) 2 <<< 16 ||| load K.mem (e + 26) 2) (load K.mem (e + 28) 4)
        (K.mem (e + 11) &&& FAT_ATTR_DIRECTORY != 0)
      simpa only [Option.map_some, fat32Dirent, bne_iff_ne, Option.bind_eq_bind, Option.bind_some] using hcreate

structure Agrees (K : Machine σ) (s : State σ) (d : ℕ) (L : List Dirent) (name : Name) : Prop where
  found : ∃ p t, vfsFinddir K s d name = some (p, t) ∧
    (p ≠ 0 ↔ ∃ i < 2 ^ 32, ∃ e, vfsReaddir K s d i = some (some e) ∧ e.name = name) ∧
    ∀ i < 2 ^ 32, ∀ e, vfsReaddir K s d i = some (some e) → e.name = name →
      (∀ j < i, ∀ e', vfsReaddir K s d j = some (some e') → e'.name ≠ name) → Denotes t p e
  enumerated : L.length ≤ 2 ^ 32 ∧ ∀ i < 2 ^ 32, vfsReaddir K s d i = some L[i]?

theorem listing_lookup_iff (hd : d ≠ 0) (hn : s.nodes d = some node) (hdir : node.flags &&& VFS_DIRECTORY ≠ 0)
    (D : Directory K s node L) (h0 : 0 ∉ name) (hdot : name.head? ≠ some 0x2E) :
    Agrees K s d L name ↔ L.length ≤ 2 ^ 32 ∧ ((∃ e ∈ L, e.name = name) → RoomForNode K s node) := by
  have hread : ∀ i < 2 ^ 32, vfsReaddir K s d i = some L[i]? := fun i hi => vfsReaddir_directory hd hn hdir D hi
  have hfinddir := vfsFinddir_directory hd hn hdir D h0 hdot
  constructor
  · rintro ⟨⟨p, t, hp, -, -⟩, hlen, -⟩
    refine ⟨hlen, ?_⟩
    rintro ⟨e, he, hname⟩
    cases hfind : L.find? (·.name = name) with
    | none => exact absurd (decide_eq_true hname) (List.find?_eq_none.mp hfind e he)
    | some e' =>
      rw [hfind] at hfinddir
      cases hfinddir with
      | inl h => exact h.1
      | inr h => rw [h.2] at hp; cases hp
  · rintro ⟨hlen, hroom⟩
    refine ⟨?_, hlen, hread⟩
    cases hfind : L.find? (·.name = name) with
    | none =>
      have hno : ∀ i < 2 ^ 32, ∀ e, vfsReaddir K s d i = some (some e) → e.name ≠ name := by
        intro i hi e he hname
        rw [hread i hi, Option.some.injEq] at he
        exact List.find?_eq_none.mp hfind e (List.mem_of_getElem? he) (decide_eq_true hname)
      rw [hfind] at hfinddir
      refine ⟨0, s, hfinddir, ⟨fun h => absurd rfl h, ?_⟩, fun i hi e he hname _ => absurd hname (hno i hi e he)⟩
      rintro ⟨i, hi, e, he, hname⟩
      exact absurd hname (hno i hi e he)
    | some e =>
      obtain ⟨hname, i, hi, hget, hleast⟩ := List.find?_eq_some_iff_getElem.mp hfind
      have hname := of_decide_eq_true hname
      have hlist : L[i]? = some e := by rw [List.getElem?_eq_getElem hi, hget]
      rw [hfind] at hfinddir
      obtain ⟨p, t, hp, hden⟩ := (hfinddir.resolve_right fun h =>
        h.1 (hroom ⟨e, List.mem_of_getElem? hlist, hname⟩)).2
      refine ⟨p, t, hp, ⟨fun _ => ⟨i, by omega, e, by rw [hread i (by omega), hlist], hname⟩, fun _ => hden.1⟩, ?_⟩
      intro j hj e' he' hname' hfirst
      have hij : i = j := by
        rw [hread j hj, Option.some.injEq] at he'
        obtain ⟨hj', he'⟩ := List.getElem?_eq_some_iff.mp he'
        apply le_antisymm
        · by_contra hlt
          have hne := hleast j (by omega)
          rw [he'] at hne
          simp [hname'] at hne
        · by_contra hlt
          exact hfirst i (by omega) e (by rw [hread i (by omega), hlist]) hname
      subst hij
      rw [hread i hj, hlist, Option.some.injEq, Option.some.injEq] at he'
      exact he' ▸ hden

def arena (limit : ℕ) : Allocator ℕ where
  kmalloc h n := if h + n < limit then (h, h + n + 1) else (0, h)
  live h := {x | x < h}
  fresh h n := by
    split_ifs with hn
    · exact fun _ => Nat.lt_irrefl h
    · exact fun hne => absurd rfl hne
  granted h n := by
    split_ifs with hn
    · intro _
      change h < h + n + 1
      omega
    · exact fun hne => absurd rfl hne
  kept h n x hx := by
    have hlt : x < h := hx
    split_ifs with hn
    · change x < h + n + 1
      omega
    · exact hx

def fullMachine : Machine ℕ := ⟨.x86_64, arena 0x2000E2, fatDisk, 16⟩

def fatRoot : State ℕ := ((fat32Init fullMachine powerOn 0x100000 2048).map Prod.snd).getD powerOn

def fatRootNode : Node :=
  { name := bytes "/", inode := 2, devicePriv := some (.fat32 2 0), flags := VFS_DIRECTORY, readdir := some .fat32,
    finddir := some .fat32 }

def fatRootEntries : List Dirent :=
  (listed fullMachine.mem (slots fatRoot.currentFat [2])).map (fat32Dirent fullMachine.mem)

theorem fatRoot_init : fat32Init fullMachine powerOn 0x100000 2048 = some (0x200000, fatRoot) ∧
    fatRoot.nodes 0x200000 = some fatRootNode := ⟨rfl, rfl⟩

theorem fatRoot_chain : DirChain fullMachine.mem fatRoot.currentFat [2] 2 :=
  ⟨rfl, le_refl 2, by decide, Or.inl (by decide)⟩

theorem fatRoot_directory : Directory fullMachine fatRoot fatRootNode fatRootEntries :=
  Directory.fat32 2 0 [2] rfl rfl rfl fatRoot_chain (by decide : 1 < 16)

def roomyMachine : Machine ℕ := ⟨.x86_64, arena 0x300000, fatDisk, 16⟩

def roomyRoot : State ℕ := ((fat32Init roomyMachine powerOn 0x100000 2048).map Prod.snd).getD powerOn

theorem roomyRoot_init : fat32Init roomyMachine powerOn 0x100000 2048 = some (0x200000, roomyRoot) ∧
    roomyRoot.nodes 0x200000 = some fatRootNode := ⟨rfl, rfl⟩

theorem roomyRoot_directory : Directory roomyMachine roomyRoot fatRootNode
    ((listed roomyMachine.mem (slots roomyRoot.currentFat [2])).map (fat32Dirent roomyMachine.mem)) :=
  Directory.fat32 2 0 [2] rfl rfl rfl ⟨rfl, le_refl 2, by decide, Or.inl (by decide)⟩ (by decide : 1 < 16)

theorem listing_lookup_dev : ∃ L, (∃ e ∈ L, e.name = bytes "dev") ∧
    Agrees roomyMachine roomyRoot 0x200000 L (bytes "dev") :=
  ⟨_, by decide, (listing_lookup_iff (by decide) roomyRoot_init.2 (by decide) roomyRoot_directory (by decide)
    (by decide)).mpr ⟨by decide, fun _ => ⟨by decide, by decide⟩⟩⟩

theorem listing_lookup_exhausted : ∃ s root node L, fat32Init fullMachine powerOn 0x100000 2048 = some (root, s) ∧
    s.nodes root = some node ∧ Directory fullMachine s node L ∧ ¬ Agrees fullMachine s root L (bytes "dev") := by
  refine ⟨fatRoot, _, fatRootNode, fatRootEntries, fatRoot_init.1, fatRoot_init.2, fatRoot_directory, fun h => ?_⟩
  obtain ⟨p, t, hp, -⟩ := h.found
  have hfault : vfsFinddir fullMachine fatRoot 0x200000 (bytes "dev") = none := by rfl
  rw [hfault] at hp
  cases hp

end Directory

end JurkOS.Kernel.Fs
