import JurkOS.Kernel.Fs.Listing

/-!
The parent links of a FAT32 volume. The `..` entry of a directory holds the first
cluster of its parent, and 0 where the parent is the root.
-/

namespace JurkOS.Kernel.Fs

open Lib.Libc Lib.Memory

variable {σ : Type}

/-! ### The tree of directories -/

section Volume

variable (m : Mem) (fs : Fat32Fs)

def firstCluster (e : ℕ) : ℕ := load m (e + 20) 2 <<< 16 ||| load m (e + 26) 2

def SubDir (c : ℕ) (name : Name) (c' : ℕ) : Prop :=
  name.head? ≠ some 0x2E ∧ ∃ chain e, DirChain m fs chain c ∧
    (listed m (slots fs chain)).find? (IsNamed m name) = some e ∧ m (e + 11) &&& FAT_ATTR_DIRECTORY ≠ 0 ∧
    firstCluster m e = c'

inductive Walk : ℕ → List Name → ℕ → Prop
  | nil (c : ℕ) : Walk c [] c
  | cons {c c' c'' : ℕ} {name : Name} {names : List Name} (hsub : SubDir m fs c name c') (hrest : Walk c' names c'') :
    Walk c (name :: names) c''

def DotEntry (e : ℕ) (name : Name) (cluster : ℕ) : Prop :=
  bytesAt m e 11 = name ++ List.replicate (11 - name.length) 0x20 ∧ m (e + 11) &&& FAT_ATTR_DIRECTORY ≠ 0 ∧
    m (e + 11) &&& FAT_ATTR_VOLUME_ID = 0 ∧ firstCluster m e = cluster

instance (e : ℕ) (name : Name) (cluster : ℕ) : Decidable (DotEntry m e name cluster) :=
  inferInstanceAs (Decidable (_ ∧ _ ∧ _ ∧ _))

/-- What the format prescribes of the directories; `fuel` is the bound of the model on their chains. -/
structure ValidDirs (fuel : ℕ) : Prop where
  wide : 64 ≤ fs.clusterSize
  chain : ∀ names c, Walk m fs fs.rootCluster names c →
    ∃ chain, DirChain m fs chain c ∧ chain ≠ [] ∧ chain.length < fuel
  dots : ∀ names c name c', Walk m fs fs.rootCluster names c → SubDir m fs c name c' →
    ∃ p, fat32GetClusterPtr fs c' = some p ∧ DotEntry m p (bytes ".") c' ∧
      DotEntry m (p + 32) (bytes "..") (if names = [] then 0 else c)

variable {m fs} {c c' : ℕ} {names : List Name} {name : Name} {chain chain' : List ℕ}

theorem DirChain.unique (h : DirChain m fs chain c) (h' : DirChain m fs chain' c) : chain = chain' := by
  induction chain generalizing chain' c with
  | nil =>
    cases chain' with
    | nil => rfl
    | cons c' chain' =>
      obtain ⟨rfl, hmin, hmax, -⟩ := h'
      rcases h with h | h <;> omega
  | cons d chain ih =>
    obtain ⟨rfl, hmin, hmax, hrest⟩ := h
    cases chain' with
    | nil => rcases h' with h' | h' <;> omega
    | cons c' chain' =>
      obtain ⟨rfl, -, -, hrest'⟩ := h'
      rw [ih hrest hrest']

theorem DirChain.data (h : DirChain m fs chain c) (hne : chain ≠ []) : 2 ≤ c ∧ c < 0x0FFFFFF8 := by
  cases chain with
  | nil => exact absurd rfl hne
  | cons _ _ => exact ⟨h.2.1, h.2.2.1⟩

theorem Walk.snoc (h : Walk m fs c names c') {c'' : ℕ} (hsub : SubDir m fs c' name c'') :
    Walk m fs c (names ++ [name]) c'' := by
  induction h with
  | nil c => exact .cons hsub (.nil _)
  | cons hfirst _ ih => exact .cons hfirst (ih hsub)

theorem finddirLoop_subDir {fuel : ℕ} (hsub : SubDir m fs c name c') (hchain : DirChain m fs chain c)
    (hfuel : chain.length < fuel) :
    ∃ e, finddirLoop m fs name fuel c = some (some e) ∧ m (e + 11) &&& FAT_ATTR_DIRECTORY ≠ 0 ∧
      firstCluster m e = c' := by
  obtain ⟨hdot, chain', e, hchain', hfind, hattr, hfirst⟩ := hsub
  obtain rfl := hchain.unique hchain'
  refine ⟨e, ?_, hattr, hfirst⟩
  rw [finddirLoop_listed hdot hchain hfuel, hfind]

theorem DotEntry.byte {e cluster : ℕ} (h : DotEntry m e name cluster) (hname : name.head? = some 0x2E) :
    m e = 0x2E := by
  have hhead := bytesAt_head m e 10
  rw [h.1, List.head?_append, hname] at hhead
  exact (Option.some.inj hhead).symm

theorem DotEntry.notLfn {e cluster : ℕ} (h : DotEntry m e name cluster) : m (e + 11) ≠ FAT_ATTR_LFN := by
  intro hlfn
  have hvolume := h.2.2.1
  rw [hlfn] at hvolume
  exact absurd hvolume (by decide)

theorem scanCluster_dot {e cluster n : ℕ} {dots : Name} (h : DotEntry m e dots cluster)
    (hdots : dots.head? = some 0x2E) :
    scanCluster m name (n + 1) e =
      if fat32FormatName (dots ++ List.replicate (11 - dots.length) 0x20) = name then .found e
      else scanCluster m name n (e + 32) := by
  have hbyte := h.byte hdots
  have hend : ¬ m e = 0 := by simp [hbyte]
  have hused : ¬ m e = 0xE5 := by simp [hbyte]
  rw [scanCluster]
  simp only [if_neg hend, if_neg hused, if_neg h.notLfn, h.2.2.1, ne_eq, not_true_eq_false, if_false, h.1]

theorem finddirLoop_parent {p fuel cluster : ℕ} (hwide : 64 ≤ fs.clusterSize) (hmax : c < 0x0FFFFFF8)
    (hp : fat32GetClusterPtr fs c = some p) (hself : DotEntry m p (bytes ".") c)
    (hparent : DotEntry m (p + 32) (bytes "..") cluster) :
    finddirLoop m fs (bytes "..") (fuel + 1) c = some (some (p + 32)) := by
  obtain ⟨n, hn⟩ : ∃ n, fs.clusterSize / 32 = n + 1 + 1 := ⟨fs.clusterSize / 32 - 2, by omega⟩
  rw [finddirLoop, if_pos hmax, hp]
  simp only [hn]
  rw [scanCluster_dot hself rfl, if_neg (by decide), scanCluster_dot hparent rfl, if_pos (by decide)]

end Volume

/-! ### Lookups that go down, and up by one -/

section Lookup

variable (K : Machine σ)

def nodeHeap (h : σ) : Option σ :=
  let node := K.alloc.kmalloc h (sizeofVfsNode K.arch)
  let priv := K.alloc.kmalloc node.2 (sizeofFat32NodePriv K.arch)
  if node.1 = 0 ∨ priv.1 = 0 then none else some priv.2

def nodesHeap : ℕ → σ → Option σ
  | 0, h => some h
  | n + 1, h => (nodeHeap K h).bind (nodesHeap n)

structure FatDir (s : State σ) (p c : ℕ) : Prop where
  ne_zero : p ≠ 0
  node : ∃ node fileSize, s.nodes p = some node ∧ node.flags = VFS_DIRECTORY ∧ node.ptr = 0 ∧
    node.finddir = some .fat32 ∧ node.readdir = some .fat32 ∧ node.devicePriv = some (.fat32 c fileSize)

variable {K} {s : State σ} {p c c' : ℕ} {name : Name} {names : List Name}

theorem nodesHeap_add (i j : ℕ) (h : σ) : nodesHeap K (i + j) h = (nodesHeap K i h).bind (nodesHeap K j) := by
  induction i generalizing h with
  | zero => rw [Nat.zero_add, nodesHeap, Option.bind_some]
  | succ i ih =>
    rw [Nat.succ_add, nodesHeap, nodesHeap, Option.bind_assoc]
    exact congrArg _ (funext ih)

theorem nodesHeap_one (h : σ) : nodesHeap K 1 h = nodeHeap K h := by
  rw [nodesHeap]
  cases nodeHeap K h <;> rfl

theorem FatDir.followPtr_eq (h : FatDir s p c) : followPtr s p = some p := by
  obtain ⟨node, fileSize, hnode, -, hptr, -⟩ := h.node
  simp [followPtr, hnode, hptr]

theorem fat32CreateNode_dir (s : State σ) (name : Name) (cluster size : ℕ) :
    match nodeHeap K s.heap with
    | none => fat32CreateNode K s name cluster size true = none
    | some h => ∃ q t, fat32CreateNode K s name cluster size true = some (q, t) ∧ FatDir t q cluster ∧
        t.currentFat = s.currentFat ∧ t.heap = h := by
  unfold nodeHeap fat32CreateNode kzallocNode kmallocPriv
  dsimp only
  by_cases hnode : (K.alloc.kmalloc s.heap (sizeofVfsNode K.arch)).1 = 0
  · simp [hnode]
  by_cases hpriv : (K.alloc.kmalloc (K.alloc.kmalloc s.heap (sizeofVfsNode K.arch)).2
      (sizeofFat32NodePriv K.arch)).1 = 0
  · simp [hnode, hpriv]
  · simp only [hnode, hpriv, or_self, if_false, Option.bind_eq_bind, Option.bind_some, if_true]
    refine ⟨_, _, rfl, ⟨hnode, ?_⟩, rfl, rfl⟩
    exact ⟨_, size, Function.update_self _ _ _, rfl, rfl, rfl, rfl, rfl⟩

-- One step of a lookup, with the entry that the scan finds.
theorem vfsFinddir_entry {e : ℕ} (hdir : FatDir s p c)
    (hfind : finddirLoop K.mem s.currentFat name K.fuel c = some (some e))
    (hattr : K.mem (e + 11) &&& FAT_ATTR_DIRECTORY ≠ 0) :
    match nodeHeap K s.heap with
    | none => vfsFinddir K s p name = none
    | some h => ∃ q t, vfsFinddir K s p name = some (q, t) ∧ FatDir t q (firstCluster K.mem e) ∧
        t.currentFat = s.currentFat ∧ t.heap = h := by
  obtain ⟨node, fileSize, hnode, hflags, -, hfinddir, -, hpriv⟩ := hdir.node
  have hisDir : (K.mem (e + 11) &&& FAT_ATTR_DIRECTORY != 0) = true := by simpa using hattr
  have hrun : vfsFinddir K s p name = fat32CreateNode K s (fat32FormatName (bytesAt K.mem e 11))
      (firstCluster K.mem e) (load K.mem (e + 28) 4) true := by
    unfold vfsFinddir
    rw [if_neg hdir.ne_zero, hnode]
    have hdirectory : ¬ node.flags &&& VFS_DIRECTORY = 0 := by simp [hflags, VFS_DIRECTORY]
    simp only [if_neg hdirectory, hfinddir, fat32FinddirImpl, hpriv, hfind, Option.bind_eq_bind, Option.bind_some,
      hisDir]
    rfl
  rw [hrun]
  exact fat32CreateNode_dir s _ _ _

-- Induction on the way down; every component takes one node from the heap.
theorem lookupLoop_walk {fs : Fat32Fs} (hvalid : ValidDirs K.mem fs K.fuel) {before : List Name}
    (hbefore : Walk K.mem fs fs.rootCluster before c) (hwalk : Walk K.mem fs c names c') (hfs : s.currentFat = fs)
    (hdir : FatDir s p c) (rest : List Name) :
    match nodesHeap K names.length s.heap with
    | none => lookupLoop K s p (names ++ rest) = none
    | some h => ∃ q t, lookupLoop K s p (names ++ rest) = lookupLoop K t q rest ∧ FatDir t q c' ∧
        t.currentFat = fs ∧ t.heap = h := by
  induction hwalk generalizing s p before with
  | nil c => exact ⟨p, s, rfl, hdir, hfs, rfl⟩
  | @cons c d c' name names hsub hrest ih =>
    obtain ⟨chain, hchain, -, hfuel⟩ := hvalid.chain _ _ hbefore
    obtain ⟨e, hfind, hattr, rfl⟩ := finddirLoop_subDir hsub hchain hfuel
    have hstep := vfsFinddir_entry hdir (hfs ▸ hfind) hattr
    rw [List.length_cons, nodesHeap, List.cons_append, lookupLoop, hdir.followPtr_eq]
    simp only [Option.bind_eq_bind, Option.bind_some]
    cases hheap : nodeHeap K s.heap with
    | none =>
      rw [hheap] at hstep
      simp only [hstep]
      rfl
    | some h =>
      rw [hheap] at hstep
      obtain ⟨q, t, hrun, hq, hsame, rfl⟩ := hstep
      simp only [hrun, Option.bind_some, if_neg hq.ne_zero]
      exact ih (hbefore.snoc hsub) (hsame.trans hfs) hq

variable {d d' : Name}

theorem vfsLookup_tokens (hdir : FatDir s s.vfsRoot c) (path : Name) :
    vfsLookup K s path = lookupLoop K s s.vfsRoot (tokens [] path) := by
  unfold vfsLookup
  rw [if_neg hdir.ne_zero]
  split_ifs with hpath
  · rw [hpath]
    change _ = lookupLoop K s s.vfsRoot []
    rw [lookupLoop, hdir.followPtr_eq]
    rfl
  · rfl

theorem vfsLookup_walk (hvalid : ValidDirs K.mem s.currentFat K.fuel)
    (hroot : FatDir s s.vfsRoot s.currentFat.rootCluster)
    (hwalk : Walk K.mem s.currentFat s.currentFat.rootCluster (tokens [] d) c) :
    match nodesHeap K (tokens [] d).length s.heap with
    | none => vfsLookup K s d = none
    | some _ => ∃ q t, vfsLookup K s d = some (q, t) ∧ FatDir t q c ∧ t.currentFat = s.currentFat := by
  have hdown := lookupLoop_walk hvalid (.nil _) hwalk rfl hroot []
  rw [List.append_nil, ← vfsLookup_tokens hroot] at hdown
  cases hheap : nodesHeap K (tokens [] d).length s.heap with
  | none =>
    rw [hheap] at hdown
    exact hdown
  | some h =>
    rw [hheap] at hdown
    obtain ⟨q, t, hrun, hq, hsame, -⟩ := hdown
    refine ⟨q, t, ?_, hq, hsame⟩
    rw [hrun, lookupLoop, hq.followPtr_eq]
    rfl

theorem vfsLookup_parent (hvalid : ValidDirs K.mem s.currentFat K.fuel)
    (hroot : FatDir s s.vfsRoot s.currentFat.rootCluster) (hd : tokens [] d = names ++ [name])
    (hwalk : Walk K.mem s.currentFat s.currentFat.rootCluster names c) (hsub : SubDir K.mem s.currentFat c name c') :
    match nodesHeap K (names.length + 2) s.heap with
    | none => vfsLookup K s (d ++ SLASH :: bytes "..") = none
    | some _ => ∃ q t, vfsLookup K s (d ++ SLASH :: bytes "..") = some (q, t) ∧
        FatDir t q (if names = [] then 0 else c) ∧ t.currentFat = s.currentFat := by
  have hdots : tokens [] (bytes "..") = [bytes ".."] := by decide
  have hdown := lookupLoop_walk hvalid (.nil _) (hwalk.snoc hsub) rfl hroot [bytes ".."]
  rw [← hd, ← hdots, ← tokens_append, ← vfsLookup_tokens hroot, hd, List.length_append, List.length_singleton] at hdown
  rw [nodesHeap_add (names.length + 1) 1]
  cases hheap : nodesHeap K (names.length + 1) s.heap with
  | none =>
    rw [hheap] at hdown
    exact hdown
  | some h =>
    rw [hheap] at hdown
    obtain ⟨q, t, hrun, hq, hsame, rfl⟩ := hdown
    obtain ⟨chain, hchain, hne, hfuel⟩ := hvalid.chain _ _ (hwalk.snoc hsub)
    obtain ⟨e, he, hself, hparent⟩ := hvalid.dots _ _ _ _ hwalk hsub
    have hfind : finddirLoop K.mem t.currentFat (bytes "..") K.fuel c' = some (some (e + 32)) := by
      obtain ⟨fuel, hfuel'⟩ : ∃ fuel, K.fuel = fuel + 1 := ⟨K.fuel - 1, by omega⟩
      rw [hsame, hfuel']
      exact finddirLoop_parent hvalid.wide (hchain.data hne).2 he hself hparent
    have hstep := vfsFinddir_entry hq hfind hparent.2.1
    rw [hrun, hdots, Option.bind_some, nodesHeap_one, lookupLoop, hq.followPtr_eq]
    simp only [Option.bind_eq_bind, Option.bind_some]
    cases hlast : nodeHeap K t.heap with
    | none =>
      rw [hlast] at hstep
      simp only [hstep]
      rfl
    | some h =>
      rw [hlast, hparent.2.2.2] at hstep
      obtain ⟨r, u, hup, hr, hsame', -⟩ := hstep
      refine ⟨r, u, ?_, hr, hsame'.trans hsame⟩
      simp only [hup, Option.bind_some, if_neg hr.ne_zero]
      rw [lookupLoop, hr.followPtr_eq]
      rfl

/-! ### Listings -/

theorem vfsReaddir_fatDir (hdir : FatDir s p c) (index : ℕ) : vfsReaddir K s p index =
    (readdirLoop K.mem s.currentFat index K.fuel c 0).map (Option.map (fat32Dirent K.mem)) := by
  obtain ⟨node, fileSize, hnode, hflags, -, -, hreaddir, hpriv⟩ := hdir.node
  have hdirectory : ¬ node.flags &&& VFS_DIRECTORY = 0 := by simp [hflags, VFS_DIRECTORY]
  unfold vfsReaddir
  rw [if_neg hdir.ne_zero, hnode]
  simp only [if_neg hdirectory, hreaddir, fat32ReaddirImpl, hpriv]
  cases readdirLoop K.mem s.currentFat index K.fuel c 0 with
  | none => rfl
  | some r => cases r <;> rfl

variable (K s) in
def ParentListed (d d' : Name) : Prop :=
  ∃ p t q u, vfsLookup K s (d ++ SLASH :: bytes "..") = some (p, t) ∧ vfsLookup K s d' = some (q, u) ∧
    (∃ node, t.nodes p = some node ∧ node.flags = VFS_DIRECTORY) ∧
    ∀ i < 2 ^ 32, ∃ e, vfsReaddir K t p i = some e ∧ vfsReaddir K u q i = some e

-- The link to the root has cluster 0, which is no data cluster; the root lists the directory itself.
theorem not_parentListed_root (hvalid : ValidDirs K.mem s.currentFat K.fuel)
    (hroot : FatDir s s.vfsRoot s.currentFat.rootCluster) (hd' : tokens [] d' = []) (hd : tokens [] d = [name])
    (hsub : SubDir K.mem s.currentFat s.currentFat.rootCluster name c') : ¬ ParentListed K s d d' := by
  rintro ⟨p, t, q, u, hup, hdown, -, hlist⟩
  have hlink := vfsLookup_parent hvalid hroot (show tokens [] d = [] ++ [name] from hd) (.nil _) hsub
  have htop := vfsLookup_walk hvalid hroot (hd' ▸ Walk.nil s.currentFat.rootCluster)
  rw [hd', List.length_nil, nodesHeap] at htop
  obtain ⟨q', u', hdown', hq, hsameu⟩ := htop
  rw [hdown, Option.some.injEq, Prod.mk.injEq] at hdown'
  obtain ⟨rfl, rfl⟩ := hdown'
  cases hheap : nodesHeap K (List.length ([] : List Name) + 2) s.heap with
  | none =>
    rw [hheap] at hlink
    rw [hlink] at hup
    cases hup
  | some h =>
    rw [hheap] at hlink
    obtain ⟨p', t', hup', hp, -⟩ := hlink
    rw [hup, Option.some.injEq, Prod.mk.injEq] at hup'
    obtain ⟨rfl, rfl⟩ := hup'
    obtain ⟨-, chain, e, hchain, hfind, -⟩ := hsub
    obtain ⟨chain', hchain', -, hfuel⟩ := hvalid.chain _ _ (Walk.nil _)
    obtain rfl := hchain.unique hchain'
    obtain ⟨r, hempty, hfull⟩ := hlist 0 (by decide)
    have hzero : DirChain K.mem t.currentFat [] 0 := .inr (by decide)
    rw [vfsReaddir_fatDir hp, if_pos rfl, readdirLoop_listed (by decide) hzero (Nat.zero_lt_of_lt hfuel) (le_refl 0)]
      at hempty
    rw [vfsReaddir_fatDir hq, hsameu, readdirLoop_listed (by decide) hchain hfuel (le_refl 0)] at hfull
    cases hempty
    cases hall : listed K.mem (slots s.currentFat chain) with
    | nil =>
      rw [hall] at hfind
      cases hfind
    | cons x rest =>
      rw [hall] at hfull
      cases hfull

theorem parentListed_iff (hvalid : ValidDirs K.mem s.currentFat K.fuel)
    (hroot : FatDir s s.vfsRoot s.currentFat.rootCluster) (hd' : tokens [] d' = names)
    (hd : tokens [] d = names ++ [name])
    (hwalk : Walk K.mem s.currentFat s.currentFat.rootCluster names c) (hsub : SubDir K.mem s.currentFat c name c') :
    ParentListed K s d d' ↔ names ≠ [] ∧ (nodesHeap K (names.length + 2) s.heap).isSome := by
  constructor
  · intro hlisted
    constructor
    · rintro rfl
      cases hwalk
      exact not_parentListed_root hvalid hroot hd' hd hsub hlisted
    · obtain ⟨p, t, -, -, hup, -⟩ := hlisted
      have hlink := vfsLookup_parent hvalid hroot hd hwalk hsub
      cases hheap : nodesHeap K (names.length + 2) s.heap with
      | none =>
        rw [hheap] at hlink
        rw [hlink] at hup
        cases hup
      | some h => rfl
  · rintro ⟨hdeep, hroom⟩
    have hlink := vfsLookup_parent hvalid hroot hd hwalk hsub
    have hdown := vfsLookup_walk hvalid hroot (hd'.symm ▸ hwalk)
    obtain ⟨h, hheap⟩ := Option.isSome_iff_exists.mp hroom
    rw [hheap, if_neg hdeep] at hlink
    obtain ⟨p, t, hup, hp, hsame⟩ := hlink
    rw [nodesHeap_add] at hheap
    obtain ⟨h', hheap', -⟩ := Option.bind_eq_some_iff.mp hheap
    rw [hd', hheap'] at hdown
    obtain ⟨q, u, hat, hq, hsameu⟩ := hdown
    obtain ⟨chain, hchain, -, hfuel⟩ := hvalid.chain _ _ hwalk
    obtain ⟨node, -, hnode, hflags, -⟩ := hp.node
    refine ⟨p, t, q, u, hup, hat, ⟨node, hnode, hflags⟩, fun i hi => ?_⟩
    rw [vfsReaddir_fatDir hp, vfsReaddir_fatDir hq, hsame, hsameu,
      readdirLoop_listed hi hchain hfuel (Nat.zero_le i)]
    exact ⟨_, rfl, rfl⟩

theorem fatDir_mounted {s₀ s₁ : State σ} {d z root : ℕ} {r : ℤ} (hinit : fat32Init K s₀ d z = some (root, s₁))
    (hne : root ≠ 0) (hmount : vfsMount K s₁ [SLASH] root = some (r, s)) :
    fat32Volume K.mem d z = some s.currentFat ∧ FatDir s s.vfsRoot s.currentFat.rootCluster := by
  rw [vfsMount, if_neg hne, if_pos rfl] at hmount
  cases hmount
  unfold fat32Init at hinit
  cases hvolume : fat32Volume K.mem d z with
  | none =>
    rw [hvolume] at hinit
    cases hinit
    exact absurd rfl hne
  | some fs =>
    rw [hvolume] at hinit
    dsimp only at hinit
    have hnode := fat32CreateNode_dir (K := K) { s₀ with currentFat := fs } (bytes "/") fs.rootCluster 0
    cases hheap : nodeHeap K s₀.heap with
    | none =>
      rw [hheap] at hnode
      dsimp only at hnode
      rw [hnode] at hinit
      cases hinit
    | some h =>
      rw [hheap] at hnode
      obtain ⟨q, t, hrun, hq, hsame, -⟩ := hnode
      rw [hrun, Option.some.injEq, Prod.mk.injEq] at hinit
      obtain ⟨rfl, rfl⟩ := hinit
      rw [hsame]
      exact ⟨rfl, hq.ne_zero, hq.node⟩

/-! ### A volume with directories `a` and `a/b` -/

def dirEntry (name : Name) (attr cluster : UInt8) : List UInt8 :=
  name ++ List.replicate (11 - name.length) 0x20 ++ [attr] ++ List.replicate 14 0 ++ [cluster, 0, 0, 0, 0, 0]

def diskOf : List (ℕ × List UInt8) → Mem
  | [], _ => 0
  | (pos, l) :: rest, x => if pos ≤ x ∧ x < pos + l.length then l.getD (x - pos) 0 else diskOf rest x

def nestedDisk : Mem := diskOf
  [(0x10000B, [0x00, 0x02, 1, 1, 0, 1]), (0x100024, [1, 0, 0, 0]), (0x10002C, [2, 0, 0, 0]),
    (0x100208, [0xFF, 0xFF, 0xFF, 0x0F, 0xFF, 0xFF, 0xFF, 0x0F, 0xFF, 0xFF, 0xFF, 0x0F]),
    (0x100400, dirEntry (bytes "A") 0x10 3),
    (0x100600, dirEntry (bytes ".") 0x10 3 ++ dirEntry (bytes "..") 0x10 0 ++ dirEntry (bytes "B") 0x10 4),
    (0x100800, dirEntry (bytes ".") 0x10 4 ++ dirEntry (bytes "..") 0x10 3)]

def nestedMachine : Machine ℕ := ⟨.x86_64, bump, nestedDisk, 16⟩

def nestedFiles : State ℕ :=
  (((fat32Init nestedMachine powerOn 0x100000 2560).bind fun r =>
    vfsMount nestedMachine r.2 [SLASH] r.1).map Prod.snd).getD powerOn

theorem nested_mounted : FatDir nestedFiles nestedFiles.vfsRoot 2 := by
  have hinit : ∃ root s₁ r, fat32Init nestedMachine powerOn 0x100000 2560 = some (root, s₁) ∧ root ≠ 0 ∧
      vfsMount nestedMachine s₁ [SLASH] root = some (r, nestedFiles) := ⟨_, _, _, rfl, by decide, rfl⟩
  obtain ⟨root, s₁, r, hrun, hne, hmount⟩ := hinit
  exact (fatDir_mounted hrun hne hmount).2

theorem nested_chain {c : ℕ} (hc : c = 2 ∨ c = 3 ∨ c = 4) :
    DirChain nestedMachine.mem nestedFiles.currentFat [c] c := by
  rcases hc with rfl | rfl | rfl
  · exact ⟨rfl, by decide, by decide, .inl (by decide)⟩
  · exact ⟨rfl, by decide, by decide, .inl (by decide)⟩
  · exact ⟨rfl, by decide, by decide, .inl (by decide)⟩

theorem nested_listed : listed nestedMachine.mem (slots nestedFiles.currentFat [2]) = [0x100400] ∧
    listed nestedMachine.mem (slots nestedFiles.currentFat [3]) = [0x100640] ∧
    listed nestedMachine.mem (slots nestedFiles.currentFat [4]) = [] := by
  decide

theorem nested_find {c e : ℕ} {name : Name} (hc : c = 2 ∨ c = 3 ∨ c = 4)
    (h : (listed nestedMachine.mem (slots nestedFiles.currentFat [c])).find? (IsNamed nestedMachine.mem name) =
      some e) :
    c = 2 ∧ e = 0x100400 ∨ c = 3 ∧ e = 0x100640 := by
  obtain ⟨htop, hmiddle, hleaf⟩ := nested_listed
  have hmem := List.mem_of_find?_eq_some h
  rcases hc with rfl | rfl | rfl
  · rw [htop] at hmem
    exact .inl ⟨rfl, List.mem_singleton.mp hmem⟩
  · rw [hmiddle] at hmem
    exact .inr ⟨rfl, List.mem_singleton.mp hmem⟩
  · rw [hleaf] at hmem
    cases hmem

theorem nested_subDir {c c' : ℕ} {name : Name} (hc : c = 2 ∨ c = 3 ∨ c = 4)
    (h : SubDir nestedMachine.mem nestedFiles.currentFat c name c') : c = 2 ∧ c' = 3 ∨ c = 3 ∧ c' = 4 := by
  obtain ⟨-, chain, e, hchain, hfind, -, rfl⟩ := h
  obtain rfl := (nested_chain hc).unique hchain
  rcases nested_find hc hfind with ⟨rfl, rfl⟩ | ⟨rfl, rfl⟩
  · exact .inl ⟨rfl, by decide⟩
  · exact .inr ⟨rfl, by decide⟩

theorem nested_walk {c c' : ℕ} {names : List Name} (h : Walk nestedMachine.mem nestedFiles.currentFat c names c')
    (hc : c = 2 ∨ c = 3 ∨ c = 4) : (c' = 2 ∨ c' = 3 ∨ c' = 4) ∧ (names = [] ∧ c' = c ∨ names ≠ [] ∧ c < c') := by
  induction h with
  | nil c => exact ⟨hc, .inl ⟨rfl, rfl⟩⟩
  | cons hsub _ ih =>
    have hnext := nested_subDir hc hsub
    obtain ⟨hends, hgrows⟩ := ih (by omega)
    exact ⟨hends, .inr ⟨List.cons_ne_nil _ _, by omega⟩⟩

theorem nested_valid : ValidDirs nestedMachine.mem nestedFiles.currentFat nestedMachine.fuel where
  wide := by decide
  chain := by
    intro names c hwalk
    have hc := (nested_walk hwalk (.inl rfl)).1
    exact ⟨[c], nested_chain hc, List.cons_ne_nil _ _, (by decide : 1 < 16)⟩
  dots := by
    intro names c name c' hwalk hsub
    obtain ⟨hc, hdepth⟩ := nested_walk hwalk (.inl rfl)
    rcases nested_subDir hc hsub with ⟨rfl, rfl⟩ | ⟨rfl, rfl⟩
    · rcases hdepth with ⟨rfl, -⟩ | ⟨-, hlt⟩
      · exact ⟨0x100600, by decide, by decide, by decide⟩
      · exact absurd hlt (lt_irrefl 2)
    · rcases hdepth with ⟨-, heq⟩ | ⟨hne, -⟩
      · exact absurd heq (by decide)
      · rw [if_neg hne]
        exact ⟨0x100800, by decide, by decide, by decide⟩

theorem nested_a : SubDir nestedMachine.mem nestedFiles.currentFat 2 (bytes "a") 3 :=
  ⟨by decide, [2], 0x100400, nested_chain (.inl rfl), by decide, by decide, by decide⟩

theorem nested_b : SubDir nestedMachine.mem nestedFiles.currentFat 3 (bytes "b") 4 :=
  ⟨by decide, [3], 0x100640, nested_chain (.inr (.inl rfl)), by decide, by decide, by decide⟩

theorem parentListed_nested : ParentListed nestedMachine nestedFiles (bytes "/a/b") (bytes "/a") :=
  (parentListed_iff nested_valid nested_mounted (show tokens [] (bytes "/a") = [bytes "a"] by decide)
    (show tokens [] (bytes "/a/b") = [bytes "a"] ++ [bytes "b"] by decide) (.cons nested_a (.nil 3)) nested_b).mpr
    ⟨List.cons_ne_nil _ _, rfl⟩

theorem parentListed_lost : ValidDirs nestedMachine.mem nestedFiles.currentFat nestedMachine.fuel ∧
    FatDir nestedFiles nestedFiles.vfsRoot nestedFiles.currentFat.rootCluster ∧
    SubDir nestedMachine.mem nestedFiles.currentFat nestedFiles.currentFat.rootCluster (bytes "a") 3 ∧
    ¬ ParentListed nestedMachine nestedFiles (bytes "/a") (bytes "/") :=
  ⟨nested_valid, nested_mounted, nested_a, not_parentListed_root nested_valid nested_mounted (by decide)
    (show tokens [] (bytes "/a") = [bytes "a"] by decide) nested_a⟩

end Lookup

end JurkOS.Kernel.Fs
