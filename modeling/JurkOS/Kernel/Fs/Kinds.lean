import JurkOS.Kernel.Drivers.Framebuffer
import JurkOS.Kernel.Fs.Devices
import JurkOS.Kernel.Fs.Evolution
import JurkOS.Kernel.Fs.Listing

/-!
What the node types mean to those that read them: lookup and listing of `vfs.c`
and the commands `ls` and `cat` of the kernel shell (`kernel_main.c`). All of
them test one bit of the type, which the types do not have to themselves.
-/

namespace JurkOS.Kernel.Fs

open Lib.Libc Lib.Memory Lib.Run Framebuffer

variable {σ : Type} (K : Machine σ)

/-! ### The shell -/

def COLOR_LIGHT_CYAN : ℕ := 0x0055FFFF

structure Print where
  text : Name
  fg : ℕ
  deriving DecidableEq

def fbPrint (text : Name) : Print := ⟨text, COLOR_WHITE⟩

def fbPrintln (text : Name) : List Print := [fbPrint text, fbPrint [NEWLINE]]

inductive LsTarget
  | notFound
  | notDirectory
  | contents (dir : ℕ)
  deriving DecidableEq

def lsPath (path : Name) : Name := if path = [] then [SLASH] else path

def lsTarget (s : State σ) (path : Name) : Option (LsTarget × State σ) := do
  let (dir, s) ← vfsLookup K s (lsPath path)
  if dir = 0 then some (.notFound, s)
  else do
    let node ← s.nodes dir
    if node.flags &&& VFS_DIRECTORY = 0 then some (.notDirectory, s) else some (.contents dir, s)

def lsEntry (ent : Dirent) : List Print :=
  if ent.flags &&& VFS_DIRECTORY ≠ 0 then
    fbPrint (bytes "  [DIR]  ") :: ⟨ent.name, COLOR_LIGHT_CYAN⟩ :: fbPrintln (bytes "/")
  else if ent.flags &&& VFS_CHARDEVICE ≠ 0 then
    fbPrint (bytes "  [DEV]  ") :: ⟨ent.name, COLOR_YELLOW⟩ :: fbPrintln []
  else fbPrint (bytes "  [FILE] ") :: fbPrint ent.name :: fbPrintln []

/-- `idx` is 0 again after `2^32` entries, so a listing that is longer has no end. -/
def lsLoop (s : State σ) (dir : ℕ) : ℕ → ℕ → Option (List Print)
  | 0, _ => none
  | n + 1, idx =>
    match vfsReaddir K s dir idx with
    | none => none
    | some none => some []
    | some (some ent) => (lsLoop s dir n (idx + 1)).map (lsEntry ent ++ ·)

def shellLs (s : State σ) (path : Name) : Option (List Print × State σ) := do
  let (target, s) ← lsTarget K s path
  match target with
  | .notFound => some (fbPrint (bytes "ls: Directory not found: ") :: fbPrintln (lsPath path), s)
  | .notDirectory => some (fbPrint (bytes "ls: Not a directory: ") :: fbPrintln (lsPath path), s)
  | .contents dir =>
    let heading := fbPrint (bytes "Contents of ") :: fbPrint (lsPath path) :: fbPrintln (bytes ":")
    (lsLoop K s dir (2 ^ 32) 0).map fun entries => (heading ++ entries, s)

inductive CatTarget
  | usage
  | notFound
  | isDirectory
  | file (p : ℕ)
  deriving DecidableEq

def catTarget (s : State σ) (path : Name) : Option (CatTarget × State σ) :=
  if path = [] then some (.usage, s)
  else do
    let (file, s) ← vfsLookup K s path
    if file = 0 then some (.notFound, s)
    else do
      let node ← s.nodes file
      if node.flags &&& VFS_DIRECTORY ≠ 0 then some (.isDirectory, s) else some (.file file, s)

def catLoop (D : Devices σ) (file : ℕ) : ℕ → ℕ → Hardware → Mem → Option (List Print × Hardware)
  | 0, _, _, _ => none
  | n + 1, offset, hw, buf =>
    match vfsReadNode K D hw file offset 255 1 buf with
    | none => none
    | some (count, buf, hw) =>
      if count = 0 then some ([], hw)
      else if 256 ≤ count then none
      else
        (catLoop D file n (wrap32 (offset + count)) hw (Function.update buf count 0)).map fun r =>
          (fbPrint (cstr (bytesAt buf 0 count)) :: r.1, r.2)

def shellCat (n : ℕ) (D : Devices σ) (hw : Hardware) (path : Name) (buf : Mem) :
    Option (List Print × Devices σ × Hardware) := do
  let (target, s) ← catTarget K D.fs path
  let D := { D with fs := s }
  match target with
  | .usage => some (fbPrintln (bytes "cat: Usage: cat <path>"), D, hw)
  | .notFound => some (fbPrint (bytes "cat: File not found: ") :: fbPrintln path, D, hw)
  | .isDirectory => some (fbPrintln (bytes "cat: Is a directory"), D, hw)
  | .file p => (catLoop K D p n 0 hw buf).map fun r => (r.1 ++ fbPrintln [], D, r.2)

/-! ### Who takes a node for a directory -/

def Kind.finddirHandler (k : Kind) : Option Finddir := if k.flags &&& VFS_DIRECTORY = 0 then none else k.finddir

def Kind.readdirHandler (k : Kind) : Option Readdir := if k.flags &&& VFS_DIRECTORY = 0 then none else k.readdir

def labelsDir (ent : Dirent) : Prop := (lsEntry ent).head? = some (fbPrint (bytes "  [DIR]  "))

structure ActsAs (s : State σ) (path : Name) (p : ℕ) (u : State σ) (type : ℕ) : Prop where
  finddir : (kindAt u p).bind Kind.finddirHandler ≠ none ↔ type = VFS_DIRECTORY
  readdir : (kindAt u p).bind Kind.readdirHandler ≠ none ↔ type = VFS_DIRECTORY
  ls : ∀ arg, lsPath arg = path → (lsTarget K s arg = some (.contents p, u) ↔ type = VFS_DIRECTORY)
  cat : path ≠ [] → (catTarget K s path = some (.isDirectory, u) ↔ type = VFS_DIRECTORY)

inductive ListedAs (s : State σ) (d index : ℕ) (name : Name) (p : ℕ) (u : State σ) : Prop
  | devfs (x : Node) (hx : s.nodes d = some x) (hr : x.readdir = some .devfs) (hf : x.finddir = some .devfs)
      (hi : x.children[index]? = some p) (h : vfsFinddir K s d name = some (p, u))
  | fat32 (x : Node) (c n e : ℕ) (hx : s.nodes d = some x) (hr : x.readdir = some .fat32)
      (hf : x.finddir = some .fat32) (hp : x.devicePriv = some (.fat32 c n))
      (hi : readdirLoop K.mem s.currentFat index K.fuel c 0 = some (some e))
      (hn : finddirLoop K.mem s.currentFat name K.fuel c = some (some e)) (h : vfsFinddir K s d name = some (p, u))
  | jurkvfs (x : Node) (parent i : ℕ) (hx : s.nodes d = some x) (hr : x.readdir = some .jurkvfs)
      (hf : x.finddir = some .jurkvfs) (hp : x.devicePriv = some (.jurkvfs parent))
      (hi : readdirInode K.mem s.currentFs parent index (totalInodes K.mem s.currentFs) 0 0 = some i)
      (hn : finddirInode K.mem s.currentFs parent name (totalInodes K.mem s.currentFs) 0 = some i)
      (h : vfsFinddir K s d name = some (p, u))

variable {K}

theorem Kind.finddirHandler_ne_none_iff (k : Kind) :
    k.finddirHandler ≠ none ↔ k.flags &&& VFS_DIRECTORY ≠ 0 ∧ k.finddir ≠ none := by
  unfold finddirHandler
  split_ifs with h
  · simp [h]
  · simp [h]

theorem Kind.readdirHandler_ne_none_iff (k : Kind) :
    k.readdirHandler ≠ none ↔ k.flags &&& VFS_DIRECTORY ≠ 0 ∧ k.readdir ≠ none := by
  unfold readdirHandler
  split_ifs with h
  · simp [h]
  · simp [h]

theorem vfsFinddir_handler {s : State σ} {p : ℕ} {x : Node} (name : Name) (hp : p ≠ 0) (hx : s.nodes p = some x) :
    vfsFinddir K s p name =
      match x.kind.finddirHandler with
      | none => some (0, s)
      | some .devfs => devfsFinddirImpl s x name
      | some .fat32 => fat32FinddirImpl K s x name
      | some .jurkvfs => jurkvfsFinddirImpl K s x name := by
  unfold vfsFinddir Kind.finddirHandler
  rw [if_neg hp, hx]
  by_cases hdir : x.kind.flags &&& VFS_DIRECTORY = 0
  · rw [if_pos hdir]
    exact if_pos hdir
  · rw [if_neg hdir]
    exact if_neg hdir

theorem vfsReaddir_handler {s : State σ} {p : ℕ} {x : Node} (index : ℕ) (hp : p ≠ 0) (hx : s.nodes p = some x) :
    vfsReaddir K s p index =
      match x.kind.readdirHandler with
      | none => some none
      | some .devfs => devfsReaddirImpl s x index
      | some .fat32 => fat32ReaddirImpl K s x index
      | some .jurkvfs => jurkvfsReaddirImpl K s x index := by
  unfold vfsReaddir Kind.readdirHandler
  rw [if_neg hp, hx]
  by_cases hdir : x.kind.flags &&& VFS_DIRECTORY = 0
  · rw [if_pos hdir]
    exact if_pos hdir
  · rw [if_neg hdir]
    exact if_neg hdir

theorem labelsDir_iff (ent : Dirent) : labelsDir ent ↔ ent.flags &&& VFS_DIRECTORY ≠ 0 := by
  unfold labelsDir lsEntry
  split_ifs with hdir hdev
  · exact iff_of_true rfl hdir
  · exact iff_of_false (fun h => absurd (congrArg Print.text (Option.some.inj h)) (by decide)) hdir
  · exact iff_of_false (fun h => absurd (congrArg Print.text (Option.some.inj h)) (by decide)) hdir

theorem shellLs_heading {s u : State σ} {arg : Name} {out : List Print} (h : shellLs K s arg = some (out, u)) :
    out.head? = some (fbPrint (bytes "Contents of ")) ↔ ∃ dir, lsTarget K s arg = some (.contents dir, u) := by
  simp only [shellLs, Option.bind_eq_bind, Option.bind_eq_some_iff] at h
  obtain ⟨⟨target, v⟩, htarget, h⟩ := h
  cases target with
  | notFound =>
    obtain ⟨rfl, rfl⟩ := Prod.mk.inj (Option.some.inj h)
    exact iff_of_false (fun h => absurd (congrArg Print.text (Option.some.inj h)) (by decide)) (by simp [htarget])
  | notDirectory =>
    obtain ⟨rfl, rfl⟩ := Prod.mk.inj (Option.some.inj h)
    exact iff_of_false (fun h => absurd (congrArg Print.text (Option.some.inj h)) (by decide)) (by simp [htarget])
  | contents dir =>
    obtain ⟨entries, -, h⟩ := Option.map_eq_some_iff.mp h
    obtain ⟨rfl, rfl⟩ := Prod.mk.inj h
    exact iff_of_true rfl ⟨dir, htarget⟩

theorem shellCat_directory {D : Devices σ} {u : State σ} {path : Name} (n : ℕ) (hw : Hardware) (buf : Mem)
    (h : catTarget K D.fs path = some (.isDirectory, u)) :
    shellCat K n D hw path buf = some (fbPrintln (bytes "cat: Is a directory"), { D with fs := u }, hw) := by
  simp only [shellCat, Option.bind_eq_bind, h, Option.bind_some]

section

variable {s₀ s u : State σ} {ops : List Op} {op : Op} {p type : ℕ} {k : Kind}

/-! ### Types that are told apart -/

def ToldApart (type : ℕ) : Prop := type &&& VFS_DIRECTORY = 0 ∨ type = VFS_DIRECTORY

theorem bit_iff_directory (type : ℕ) :
    (type &&& VFS_DIRECTORY ≠ 0 ↔ type = VFS_DIRECTORY) ↔ ToldApart type := by
  have hdir : VFS_DIRECTORY &&& VFS_DIRECTORY ≠ 0 := by decide
  unfold ToldApart
  constructor
  · intro h
    by_cases hbit : type &&& VFS_DIRECTORY = 0
    · exact .inl hbit
    · exact .inr (h.mp hbit)
  · rintro (hbit | rfl)
    · apply iff_of_false (not_not.mpr hbit)
      rintro rfl
      exact hdir hbit
    · exact iff_of_true hdir rfl

theorem Op.Makes.handlers (h : op.Makes k) (hop : op ≠ .vfsInit) (hdir : k.flags &&& VFS_DIRECTORY ≠ 0) :
    k.finddir ≠ none ∧ k.readdir ≠ none := by
  cases op with
  | vfsInit => exact absurd rfl hop
  | _ => exact OfType.handlers h hdir

theorem Op.Makes.toldApart (h : op.Makes k)
    (hop : ∀ path type, op = .devfsRegister path type → ToldApart type) : ToldApart k.flags := by
  have hbasic {x : ℕ} (hx : x ∈ ({VFS_FILE, VFS_DIRECTORY} : Set ℕ)) : ToldApart x := by
    rcases hx with rfl | rfl
    · exact .inl (by decide)
    · exact .inr rfl
  cases op with
  | vfsInit =>
    rw [Op.Makes] at h
    exact .inr (congrArg Kind.flags h)
  | devfsRegister path flags =>
    rcases OfType.type h with hfile | hdir | hflags
    · exact hbasic (.inl hfile)
    · exact hbasic (.inr hdir)
    · exact hflags ▸ hop path flags rfl
  | _ => exact hbasic (OfType.type h)

variable {path : Name}

theorem lsTarget_contents_iff {arg : Name} (hlookup : vfsLookup K s (lsPath arg) = some (p, u)) (hp : p ≠ 0)
    (hk : kindAt u p = some k) :
    lsTarget K s arg = some (.contents p, u) ↔ k.flags &&& VFS_DIRECTORY ≠ 0 := by
  obtain ⟨x, hx, rfl⟩ := Option.map_eq_some_iff.mp hk
  have hflags : x.kind.flags = x.flags := rfl
  simp only [lsTarget, Option.bind_eq_bind, hlookup, Option.bind_some, if_neg hp, hx, hflags]
  split_ifs with h
  · simp [h]
  · simp [h]

theorem catTarget_isDirectory_iff (hpath : path ≠ []) (hlookup : vfsLookup K s path = some (p, u)) (hp : p ≠ 0)
    (hk : kindAt u p = some k) :
    catTarget K s path = some (.isDirectory, u) ↔ k.flags &&& VFS_DIRECTORY ≠ 0 := by
  obtain ⟨x, hx, rfl⟩ := Option.map_eq_some_iff.mp hk
  have hflags : x.kind.flags = x.flags := rfl
  simp only [catTarget, if_neg hpath, Option.bind_eq_bind, hlookup, Option.bind_some, if_neg hp, hx, hflags]
  split_ifs with h
  · simp [h]
  · simp [h]

theorem actsAs_iff (hlookup : vfsLookup K s path = some (p, u)) (hp : p ≠ 0) (hk : kindAt u p = some k)
    (hmakes : op.Makes k) :
    ActsAs K s path p u k.flags ↔ ToldApart k.flags ∧ op ≠ .vfsInit := by
  have hfinddir : (kindAt u p).bind Kind.finddirHandler ≠ none ↔ k.flags &&& VFS_DIRECTORY ≠ 0 ∧ k.finddir ≠ none := by
    rw [hk, Option.bind_some, Kind.finddirHandler_ne_none_iff]
  have hreaddir : (kindAt u p).bind Kind.readdirHandler ≠ none ↔ k.flags &&& VFS_DIRECTORY ≠ 0 ∧ k.readdir ≠ none := by
    rw [hk, Option.bind_some, Kind.readdirHandler_ne_none_iff]
  by_cases hop : op = .vfsInit
  · -- the root of `vfs_init` has the type of a directory and no handlers
    subst hop
    rw [Op.Makes] at hmakes
    refine iff_of_false (fun h => ?_) (fun h => ?_)
    · have hnone := h.finddir.mpr (congrArg Kind.flags hmakes)
      rw [hfinddir, hmakes] at hnone
      exact hnone.2 rfl
    · exact h.2 rfl
  · have hhandlers := hmakes.handlers hop
    have hbit := bit_iff_directory k.flags
    have hfinddir' : (kindAt u p).bind Kind.finddirHandler ≠ none ↔ k.flags &&& VFS_DIRECTORY ≠ 0 :=
      hfinddir.trans ⟨And.left, fun h => ⟨h, (hhandlers h).1⟩⟩
    have hreaddir' : (kindAt u p).bind Kind.readdirHandler ≠ none ↔ k.flags &&& VFS_DIRECTORY ≠ 0 :=
      hreaddir.trans ⟨And.left, fun h => ⟨h, (hhandlers h).2⟩⟩
    constructor
    · intro h
      exact ⟨hbit.mp (hfinddir'.symm.trans h.finddir), hop⟩
    · rintro ⟨htold, -⟩
      have htype := hbit.mpr htold
      refine ⟨hfinddir'.trans htype, hreaddir'.trans htype, ?_, ?_⟩
      · rintro arg rfl
        exact (lsTarget_contents_iff hlookup hp hk).trans htype
      · intro hpath
        exact (catTarget_isDirectory_iff hpath hlookup hp hk).trans htype

theorem ListedAs.lookup {d index : ℕ} {name : Name} (h : ListedAs K s d index name p u) :
    vfsFinddir K s d name = some (p, u) := by
  cases h with
  | devfs x hx hr hf hi h => exact h
  | fat32 x c n e hx hr hf hp hi hn h => exact h
  | jurkvfs x parent i hx hr hf hp hi hn h => exact h

theorem Made.toldApart (hm : Made K s₀ ops p op type) (hs : WellFormed K s₀)
    (h : Steps (fun s op u => perform K s op = some u) s₀ ops u)
    (htypes : ∀ path type, .devfsRegister path type ∈ ops → ToldApart type) : ToldApart type := by
  obtain ⟨k, -, hmakes, rfl⟩ := hm.kind hs h
  obtain ⟨l, l', s, v, k, rfl, -⟩ := hm
  apply hmakes.toldApart
  rintro path type rfl
  exact htypes path type (by simp)

theorem ListedAs.flags {d index : ℕ} {name : Name} {ent : Dirent} (h : ListedAs K s d index name p u)
    (hent : vfsReaddir K s d index = some (some ent)) : ∃ k, kindAt u p = some k ∧ ent.flags = k.flags := by
  have hd : d ≠ 0 := by
    rintro rfl
    cases hent
  have hdir {x : Node} (hx : s.nodes d = some x) : x.kind.flags &&& VFS_DIRECTORY ≠ 0 := by
    intro hbit
    rw [vfsReaddir_handler index hd hx, Kind.readdirHandler, if_pos hbit] at hent
    cases hent
  cases h with
  | devfs x hx hr hf hi h =>
    rw [vfsFinddir_handler name hd hx, Kind.finddirHandler, if_neg (hdir hx)] at h
    rw [vfsReaddir_handler index hd hx, Kind.readdirHandler, if_neg (hdir hx)] at hent
    simp only [Node.kind, hf, hr, devfsFinddirImpl, devfsReaddirImpl, hi, Option.map_eq_some_iff] at h hent
    obtain ⟨y, -, hy⟩ := h
    obtain rfl := (Prod.mk.inj hy).2
    obtain ⟨x', hx', hent⟩ := hent
    obtain rfl := Option.some.inj hent
    exact ⟨x'.kind, kindAt_of_node hx', rfl⟩
  | fat32 x c n e hx hr hf hp hi hn h =>
    rw [vfsFinddir_handler name hd hx, Kind.finddirHandler, if_neg (hdir hx)] at h
    rw [vfsReaddir_handler index hd hx, Kind.readdirHandler, if_neg (hdir hx)] at hent
    simp only [Node.kind, hf, hr, fat32FinddirImpl, fat32ReaddirImpl, hp, hi, hn, Option.bind_eq_bind,
      Option.bind_some, Option.some.injEq] at h hent
    subst hent
    obtain ⟨k, hk, -, hflags⟩ := fat32CreateNode_kind h
    exact ⟨k, hk, by simp [hflags]⟩
  | jurkvfs x parent i hx hr hf hp hi hn h =>
    rw [vfsFinddir_handler name hd hx, Kind.finddirHandler, if_neg (hdir hx)] at h
    rw [vfsReaddir_handler index hd hx, Kind.readdirHandler, if_neg (hdir hx)] at hent
    simp only [Node.kind, hf, hr, jurkvfsFinddirImpl, jurkvfsReaddirImpl, hp, hi, hn, Option.bind_eq_bind,
      Option.bind_eq_some_iff, Option.some.injEq] at h hent
    obtain ⟨name, -, rfl⟩ := hent
    obtain ⟨k, hk, -, hflags⟩ := jurkvfsCreateVfsNode_kind h
    exact ⟨k, hk, hflags.symm⟩

theorem perform_lookup (h : vfsLookup K s path = some (p, u)) : perform K s (.vfsLookup path) = some u := by
  rw [perform, h, Option.map_some]

theorem perform_finddir {d : ℕ} {name : Name} (h : vfsFinddir K s d name = some (p, u)) :
    perform K s (.vfsFinddir d name) = some u := by
  rw [perform, h, Option.map_some]

theorem directories_iff (h₀ : s₀.nodes = fun _ => none)
    (hrun : Steps (fun s op u => perform K s op = some u) s₀ ops s) :
    (∀ path p u op type, vfsLookup K s path = some (p, u) → p ≠ 0 →
        Made K s₀ (ops ++ [.vfsLookup path]) p op type →
        (ActsAs K s path p u type ↔ ToldApart type ∧ op ≠ .vfsInit)) ∧
      (∀ d index name p u ent op type, ListedAs K s d index name p u →
        vfsReaddir K s d index = some (some ent) → Made K s₀ (ops ++ [.vfsFinddir d name]) p op type →
        ((labelsDir ent ↔ type = VFS_DIRECTORY) ↔ ToldApart type)) ∧
      ((∀ path type, .devfsRegister path type ∈ ops → ToldApart type) →
        (∀ path p u, vfsLookup K s path = some (p, u) → p ≠ 0 → u.nodes p ≠ none →
          ∃ op type, Made K s₀ (ops ++ [.vfsLookup path]) p op type ∧
            (op ≠ .vfsInit → ActsAs K s path p u type)) ∧
        ∀ d index name p u ent, ListedAs K s d index name p u → vfsReaddir K s d index = some (some ent) →
          ∃ op type, Made K s₀ (ops ++ [.vfsFinddir d name]) p op type ∧
            (labelsDir ent ↔ type = VFS_DIRECTORY)) := by
  have hs₀ : WellFormed K s₀ := fun q hq => absurd (congrFun h₀ q) hq
  have hacts {path : Name} {p : ℕ} {u : State σ} {op : Op} {type : ℕ} (h : vfsLookup K s path = some (p, u))
      (hp : p ≠ 0) (hm : Made K s₀ (ops ++ [.vfsLookup path]) p op type) :
      ActsAs K s path p u type ↔ ToldApart type ∧ op ≠ .vfsInit := by
    obtain ⟨k, hk, hmakes, rfl⟩ := hm.kind hs₀ (hrun.append (.single (perform_lookup h)))
    exact actsAs_iff h hp hk hmakes
  have hlabel {d index : ℕ} {name : Name} {p : ℕ} {u : State σ} {ent : Dirent} {op : Op} {type : ℕ}
      (h : ListedAs K s d index name p u) (hent : vfsReaddir K s d index = some (some ent))
      (hm : Made K s₀ (ops ++ [.vfsFinddir d name]) p op type) :
      (labelsDir ent ↔ type = VFS_DIRECTORY) ↔ ToldApart type := by
    obtain ⟨k, hk, -, rfl⟩ := hm.kind hs₀ (hrun.append (.single (perform_finddir h.lookup)))
    obtain ⟨k', hk', hflags⟩ := h.flags hent
    obtain rfl := Option.some.inj (hk.symm.trans hk')
    rw [labelsDir_iff, hflags]
    exact bit_iff_directory k.flags
  refine ⟨fun path p u op type h hp hm => hacts h hp hm,
    fun d index name p u ent op type h hent hm => hlabel h hent hm, fun htypes => ⟨?_, ?_⟩⟩
  · intro path p u h hp hnode
    obtain ⟨k, hk⟩ := Option.ne_none_iff_exists'.mp (mt kindAt_eq_none_iff.mp hnode)
    have hrun' := hrun.append (.single (perform_lookup h))
    obtain ⟨op, hm⟩ := exists_made h₀ hrun' hk
    refine ⟨op, k.flags, hm, fun hop => (hacts h hp hm).mpr ⟨hm.toldApart hs₀ hrun' ?_, hop⟩⟩
    intro path' type hmem
    simp only [List.mem_append, List.mem_singleton, reduceCtorEq, or_false] at hmem
    exact htypes path' type hmem
  · intro d index name p u ent h hent
    obtain ⟨k, hk, -⟩ := h.flags hent
    have hrun' := hrun.append (.single (perform_finddir h.lookup))
    obtain ⟨op, hm⟩ := exists_made h₀ hrun' hk
    refine ⟨op, k.flags, hm, (hlabel h hent hm).mpr (hm.toldApart hs₀ hrun' ?_)⟩
    intro path' type hmem
    simp only [List.mem_append, List.mem_singleton, reduceCtorEq, or_false] at hmem
    exact htypes path' type hmem

end

def deviceRun (name : Name) (type : ℕ) : List Op :=
  [.devfsNewRoot, .devfsRegister name type, .vfsMount (bytes "/") 0x200000]

def deviceRooted (name : Name) (type : ℕ) : State ℕ :=
  ((deviceRun name type).foldlM (perform fatMachine) powerOn).getD powerOn

theorem sda_run : Steps (fun s op u => perform fatMachine s op = some u) powerOn
    (deviceRun (bytes "sda") VFS_BLOCKDEVICE) (deviceRooted (bytes "sda") VFS_BLOCKDEVICE) :=
  .cons rfl (.cons rfl (.single rfl))

theorem null_run : Steps (fun s op u => perform fatMachine s op = some u) powerOn
    (deviceRun (bytes "null") VFS_CHARDEVICE) (deviceRooted (bytes "null") VFS_CHARDEVICE) :=
  .cons rfl (.cons rfl (.single rfl))

theorem sda_made : Made fatMachine powerOn
    (deviceRun (bytes "sda") VFS_BLOCKDEVICE ++ [.vfsLookup (bytes "/sda")]) 0x200159
    (.devfsRegister (bytes "sda") VFS_BLOCKDEVICE) VFS_BLOCKDEVICE :=
  ⟨[.devfsNewRoot], _, _, _, _, rfl, .single rfl, rfl, rfl, rfl, rfl⟩

theorem null_made : Made fatMachine powerOn
    (deviceRun (bytes "null") VFS_CHARDEVICE ++ [.vfsLookup (bytes "/null")]) 0x200159
    (.devfsRegister (bytes "null") VFS_CHARDEVICE) VFS_CHARDEVICE :=
  ⟨[.devfsNewRoot], _, _, _, _, rfl, .single rfl, rfl, rfl, rfl, rfl⟩

theorem directories_iff_sda :
    ActsAs fatMachine (deviceRooted (bytes "sda") VFS_BLOCKDEVICE) (bytes "/sda") 0x200159
      (deviceRooted (bytes "sda") VFS_BLOCKDEVICE) VFS_BLOCKDEVICE :=
  ((directories_iff rfl sda_run).1 _ _ _ _ _ rfl (by decide) sda_made).mpr ⟨.inl (by decide), by simp⟩

theorem null_acts_as_directory : ∃ s p u, Steps (fun s op u => perform fatMachine s op = some u) powerOn
      (deviceRun (bytes "null") VFS_CHARDEVICE) s ∧ vfsLookup fatMachine s (bytes "/null") = some (p, u) ∧
    Made fatMachine powerOn (deviceRun (bytes "null") VFS_CHARDEVICE ++ [.vfsLookup (bytes "/null")]) p
      (.devfsRegister (bytes "null") VFS_CHARDEVICE) VFS_CHARDEVICE ∧
    catTarget fatMachine s (bytes "/null") = some (.isDirectory, u) ∧
    ¬ActsAs fatMachine s (bytes "/null") p u VFS_CHARDEVICE := by
  refine ⟨_, 0x200159, _, null_run, rfl, null_made, rfl, fun h => ?_⟩
  exact absurd ((h.cat (by decide)).mp rfl) (by decide)

end JurkOS.Kernel.Fs
