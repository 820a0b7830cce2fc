import JurkOS.Lib.Libc
import JurkOS.Lib.Follow
import Mathlib.Logic.Function.Basic

/-!
`cmd_cp` and `cmd_mv` of `NoneCompiled/main.c` on a file system of regular files,
directories, symbolic links and devices. Two paths may name one directory entry,
and two entries one inode. What the system calls answer is given from outside.
-/

namespace JurkOS.Userland

open Lib.Libc Lib.Follow

/-- A device gives `gives` to a reader. A block device has what is written in the place of its first
bytes, any other (`/dev/null`, a named pipe) keeps nothing of it. -/
inductive Node
  | file (data : Str)
  | dir
  | symlink (text : Str)
  | device (gives : Str) (block : Bool)
  deriving DecidableEq

def contents : Node → Str
  | .file data => data
  | .device gives _ => gives
  | _ => []

-- The node once `data` is written to it from its start.
def stored : Node → Str → Node
  | .device gives block, data => .device (if block then data ++ gives.drop data.length else gives) block
  | _, data => .file data

-- A device counts as the file that a reader takes it for.
def asFile : Node → Node
  | .device gives _ => .file gives
  | n => n

/-- `entry` gives the directory entry that a path names, and `beside e` the one that the text of a
symbolic link at `e` names. -/
structure FileSystem where
  entry : Str → ℕ
  beside : ℕ → Str → ℕ
  inode : ℕ → Option ℕ
  node : ℕ → Node

def MAXSYMLINKS : ℕ := 40

namespace FileSystem

variable (fs : FileSystem) (path : Str)

def text (e : ℕ) : Option Str :=
  match (fs.inode e).map fs.node with
  | some (.symlink text) => some text
  | _ => none

def next (e : ℕ) : Option ℕ := (fs.text e).map (fs.beside e)

def final : Option ℕ := walk fs.next (MAXSYMLINKS + 1) (fs.entry path)

def opens : Option ℕ := (fs.final path).bind fs.inode

def lookup : Option Node := (fs.opens path).map fs.node

-- Without following a link at the end.
def own : Option Node := (fs.inode (fs.entry path)).map fs.node

end FileSystem

/-- The answers of the calls: which of them are let through, how much of the source can be read, how
much of each chunk the destination takes, and the number that a file made by `fopen` gets. -/
structure Answers (fs : FileSystem) where
  rename : Bool
  openSource : Bool
  openDest : Bool
  readable : ℕ
  accepted : ℕ → ℕ
  unlink : Bool
  newInode : ℕ
  unused : ∀ e, fs.inode e ≠ some newInode

def CHUNK : ℕ := 4096

variable {fs : FileSystem} (ans : Answers fs) (src dst : Str)

-- `rename`, both calls of `fopen` in `cmd_cp`, and `unlink` succeed.
def Renames : Bool :=
  ans.rename && (fs.own src).isSome &&
    ((fs.own dst).isNone || decide (fs.own src = some .dir) == decide (fs.own dst = some .dir))

def Copies : Bool :=
  ans.openSource && (fs.opens src).isSome && ans.openDest && (fs.final dst).isSome && decide (fs.lookup dst ≠ some .dir)

def Unlinks : Bool := ans.unlink && (fs.own src).isSome && decide (fs.own src ≠ some .dir)

def renamed (fs : FileSystem) (src dst : Str) : FileSystem :=
  if fs.inode (fs.entry src) = fs.inode (fs.entry dst) then fs
  else
    { fs with
      inode := Function.update (Function.update fs.inode (fs.entry dst) (fs.inode (fs.entry src))) (fs.entry src) none }

/-- The loop of `cmd_cp` from chunk `i` on, with `n` rounds at most: the bytes that arrive of `data`. -/
def copyLoop (accepted : ℕ → ℕ) : ℕ → ℕ → Str → Str
  | 0, _, _ => []
  | n + 1, i, data =>
    if data = [] then []
    else (data.take CHUNK).take (accepted i) ++ copyLoop accepted n (i + 1) (data.drop CHUNK)

def written (fs : FileSystem) (e d : ℕ) (n : Node) : FileSystem :=
  { fs with inode := Function.update fs.inode e (some d), node := Function.update fs.node d n }

-- `fopen(dst, "wb")` where `dst` leads to entry `e`: the file is made, or it is emptied; a device stays.
def opened (e : ℕ) : FileSystem × ℕ :=
  match fs.inode e with
  | none => (written fs e ans.newInode (.file []), ans.newInode)
  | some d => (written fs e d (stored (fs.node d) []), d)

def cmdCp (argc : ℕ) : FileSystem :=
  if argc < 3 then fs
  else
    match fs.opens src, fs.final dst with
    | some i, some e =>
      if Copies ans src dst then
        let (fs, d) := opened ans e
        let data := (contents (fs.node i)).take ans.readable
        { fs with node := Function.update fs.node d (stored (fs.node d) (copyLoop ans.accepted data.length 0 data)) }
      else fs
    | _, _ => fs

def unlinked (fs : FileSystem) (src : Str) : FileSystem :=
  { fs with inode := Function.update fs.inode (fs.entry src) none }

def cmdMv (argc : ℕ) : FileSystem :=
  if argc < 3 then fs
  else if Renames ans src dst then renamed fs src dst
  else if Unlinks ans src then unlinked (cmdCp ans src dst argc) src
  else cmdCp ans src dst argc

/-! ### What arrives of a file -/

def Accepts (accepted : ℕ → ℕ) (i length : ℕ) : Prop :=
  ∀ j, min CHUNK (length - CHUNK * j) ≤ accepted (i + j)

theorem accepts_zero (accepted : ℕ → ℕ) (i : ℕ) : Accepts accepted i 0 := fun j => by simp

theorem accepts_succ {accepted : ℕ → ℕ} {i length : ℕ} :
    Accepts accepted i length ↔ min CHUNK length ≤ accepted i ∧ Accepts accepted (i + 1) (length - CHUNK) := by
  constructor
  · intro h
    refine ⟨by simpa using h 0, fun j => ?_⟩
    have hj := h (j + 1)
    rw [Nat.mul_add, Nat.mul_one, Nat.add_comm (CHUNK * j), ← Nat.sub_sub] at hj
    rwa [Nat.add_assoc, Nat.add_comm 1 j]
  · rintro ⟨hhead, htail⟩ j
    cases j with
    | zero => simpa using hhead
    | succ j =>
      have hj := htail j
      rw [Nat.mul_add, Nat.mul_one, Nat.add_comm (CHUNK * j), ← Nat.sub_sub]
      rwa [Nat.add_assoc, Nat.add_comm 1 j] at hj

theorem length_copyLoop_le (accepted : ℕ → ℕ) (n i : ℕ) (data : Str) :
    (copyLoop accepted n i data).length ≤ data.length := by
  induction n generalizing i data with
  | zero => exact Nat.zero_le _
  | succ n ih =>
    unfold copyLoop
    split_ifs
    · exact Nat.zero_le _
    · have hrest := ih (i + 1) (data.drop CHUNK)
      rw [List.length_append, List.length_take, List.length_take]
      rw [List.length_drop] at hrest
      omega

-- Induction on the rounds; a chunk that is not taken in full leaves the copy short for good.
theorem copyLoop_eq_iff (accepted : ℕ → ℕ) {n i : ℕ} (data : Str) (hn : data.length ≤ n) :
    copyLoop accepted n i data = data ↔ Accepts accepted i data.length := by
  induction n generalizing i data with
  | zero =>
    obtain rfl := List.length_eq_zero_iff.mp (Nat.le_zero.mp hn)
    exact ⟨fun _ => accepts_zero accepted i, fun _ => rfl⟩
  | succ n ih =>
    by_cases hnil : data = []
    · subst hnil
      exact ⟨fun _ => accepts_zero accepted i, fun _ => by rw [copyLoop, if_pos rfl]⟩
    have hpos := List.length_pos_iff.mpr hnil
    have hchunk : 0 < CHUNK := by decide
    have hdrop : (data.drop CHUNK).length = data.length - CHUNK := List.length_drop
    have hrest := ih (i := i + 1) (data.drop CHUNK) (by omega)
    rw [hdrop] at hrest
    rw [accepts_succ, ← hrest, copyLoop, if_neg hnil]
    have hle := length_copyLoop_le accepted n (i + 1) (data.drop CHUNK)
    constructor
    · intro h
      have hlen := congrArg List.length h
      rw [List.length_append, List.length_take, List.length_take] at hlen
      have hfull : min CHUNK data.length ≤ accepted i := by omega
      have htake : (data.take CHUNK).take (accepted i) = data.take CHUNK :=
        List.take_of_length_le (by rw [List.length_take]; exact hfull)
      rw [htake] at h
      refine ⟨hfull, ?_⟩
      exact List.append_cancel_left (h.trans (List.take_append_drop CHUNK data).symm)
    · rintro ⟨hfull, hcopy⟩
      have htake : (data.take CHUNK).take (accepted i) = data.take CHUNK :=
        List.take_of_length_le (by rw [List.length_take]; exact hfull)
      rw [htake, hcopy, List.take_append_drop]

-- How many bytes are taken of `n` chunks, the first of them chunk `i`, that have `length` bytes together.
def taken (accepted : ℕ → ℕ) : ℕ → ℕ → ℕ → ℕ
  | 0, _, _ => 0
  | n + 1, i, length => min (accepted i) (min CHUNK length) + taken accepted n (i + 1) (length - CHUNK)

theorem taken_zero (accepted : ℕ → ℕ) (n i : ℕ) : taken accepted n i 0 = 0 := by
  induction n generalizing i with
  | zero => rfl
  | succ n ih => rw [taken, Nat.zero_sub, ih, Nat.min_zero, Nat.min_zero]

theorem length_copyLoop (accepted : ℕ → ℕ) (n i : ℕ) (data : Str) :
    (copyLoop accepted n i data).length = taken accepted n i data.length := by
  induction n generalizing i data with
  | zero => rfl
  | succ n ih =>
    by_cases hnil : data = []
    · rw [copyLoop, if_pos hnil, hnil, List.length_nil, taken_zero]
    · rw [copyLoop, if_neg hnil, List.length_append, ih, List.length_take, List.length_take, List.length_drop, taken]

theorem take_eq_iff_getElem? {l s : Str} {w : ℕ} :
    l.take w = s.take w ↔ ∀ k < w, s[k]? = l[k]? := by
  constructor
  · intro heq k hk
    have hat := congrArg (·[k]?) heq
    simp only [List.getElem?_take_of_lt hk] at hat
    exact hat.symm
  · intro hat
    apply List.ext_getElem?
    intro k
    by_cases hk : k < w
    · rw [List.getElem?_take_of_lt hk, List.getElem?_take_of_lt hk, hat k hk]
    · rw [List.getElem?_take_eq_none (by omega), List.getElem?_take_eq_none (by omega)]

theorem copyLoop_append_step {accepted : ℕ → ℕ} {n i w : ℕ} {data rest s : Str} (hnil : data ≠ [])
    (hw : w = min (accepted i) (min CHUNK data.length)) :
    copyLoop accepted (n + 1) i data ++ rest = s ↔
      (∀ k < w, s[k]? = data[k]?) ∧ copyLoop accepted n (i + 1) (data.drop CHUNK) ++ rest = s.drop w := by
  have hhead : (data.take CHUNK).take (accepted i) = data.take w := by
    rw [List.take_take, hw]
    apply List.take_eq_take_iff.mpr
    omega
  have hlen : (data.take w).length = w := by
    rw [List.length_take]
    omega
  rw [copyLoop, if_neg hnil, hhead, List.append_assoc, ← take_eq_iff_getElem?]
  constructor
  · rintro rfl
    exact ⟨(List.take_left' hlen).symm, (List.drop_left' hlen).symm⟩
  · rintro ⟨htake, hdrop⟩
    rw [hdrop, htake, List.take_append_drop]

theorem copyLoop_append_iff (accepted : ℕ → ℕ) {n i : ℕ} {data rest s : Str} (hn : data.length ≤ n) :
    copyLoop accepted n i data ++ rest = s ↔
      (∀ j k, k < min (accepted (i + j)) (min CHUNK (data.length - CHUNK * j)) →
        s[taken accepted j i data.length + k]? = data[CHUNK * j + k]?) ∧
      rest = s.drop (taken accepted n i data.length) := by
  induction n generalizing i data s with
  | zero =>
    obtain rfl := List.length_eq_zero_iff.mp (Nat.le_zero.mp hn)
    simp [copyLoop, taken]
  | succ n ih =>
    by_cases hnil : data = []
    · subst hnil
      simp [copyLoop, taken_zero]
    have hpos := List.length_pos_iff.mpr hnil
    have hchunk : 0 < CHUNK := by decide
    have hdrop : (data.drop CHUNK).length = data.length - CHUNK := List.length_drop
    have hrest (s : Str) := @ih (i + 1) (data.drop CHUNK) s (by omega)
    obtain ⟨w, hw⟩ : ∃ w, w = min (accepted i) (min CHUNK data.length) := ⟨_, rfl⟩
    have hnext (j : ℕ) : CHUNK * (j + 1) = CHUNK + CHUNK * j := Nat.add_comm _ _
    rw [copyLoop_append_step hnil hw, hrest, hdrop, taken, ← hw, List.drop_drop]
    -- the places of chunk 0 are the first `w`, those of chunk `j + 1` lie behind them
    constructor
    · rintro ⟨hfirst, hplaced, hend⟩
      refine ⟨fun j k hk => ?_, hend⟩
      cases j with
      | zero =>
        rw [taken, Nat.mul_zero, Nat.zero_add]
        exact hfirst k (by simpa [hw] using hk)
      | succ j =>
        have hj := hplaced j k (by rwa [Nat.add_assoc, Nat.add_comm 1 j, Nat.sub_sub, ← hnext])
        rw [List.getElem?_drop, List.getElem?_drop] at hj
        rw [taken, ← hw, Nat.add_assoc, hj, hnext, Nat.add_assoc]
    · rintro ⟨hplaced, hend⟩
      refine ⟨fun k hk => ?_, fun j k hk => ?_, hend⟩
      · have h0 := hplaced 0 k (by simpa [hw] using hk)
        rwa [taken, Nat.mul_zero, Nat.zero_add] at h0
      · have hj := hplaced (j + 1) k
          (by rwa [Nat.add_assoc, Nat.add_comm 1 j, Nat.sub_sub, ← hnext] at hk)
        rw [taken, ← hw, Nat.add_assoc] at hj
        rw [List.getElem?_drop, List.getElem?_drop, hj, hnext, Nat.add_assoc]

/-! ### Moving -/

def Kept (fs fs' : FileSystem) (src dst : Str) : Prop :=
  ∀ n, fs.lookup src = some n →
    (fs'.lookup src).map asFile = some (asFile n) ∨ (fs'.lookup dst).map asFile = some (asFile n)

def Complete (ans : Answers fs) (data : Str) : Prop :=
  data.length ≤ ans.readable ∧ Accepts ans.accepted 0 data.length

/-- Written over the first bytes of `gives`: each byte that is taken comes to where `data` has an equal one, and
behind them the device already holds what `data` has there. -/
structure Overlays (ans : Answers fs) (gives data : Str) : Prop where
  placed : ∀ j k, k < min (ans.accepted j) (min CHUNK (min ans.readable data.length - CHUNK * j)) →
    data[taken ans.accepted j 0 (min ans.readable data.length) + k]? = data[CHUNK * j + k]?
  behind : gives.drop (taken ans.accepted (min ans.readable data.length) 0 (min ans.readable data.length)) =
    data.drop (taken ans.accepted (min ans.readable data.length) 0 (min ans.readable data.length))

def Arrives (ans : Answers fs) (data : Str) : Option Node → Prop
  | some (.device gives block) => if block then Overlays ans gives data else gives = data
  | _ => Complete ans data

def Survives (ans : Answers fs) : Node → Prop
  | .device gives block => block = true → Overlays ans gives gives
  | n => n = .file []

def Through (fs : FileSystem) (path : Str) (e : ℕ) : Prop := passes fs.next e (MAXSYMLINKS + 1) (fs.entry path) = true

def SafeRename (fs : FileSystem) (src dst : Str) : Prop :=
  fs.inode (fs.entry src) = fs.inode (fs.entry dst) ∨
    ∀ e, (fs.text (fs.entry src)).map (fs.beside (fs.entry dst)) = some e →
      passes fs.next (fs.entry src) MAXSYMLINKS e = false ∧ passes fs.next (fs.entry dst) MAXSYMLINKS e = false ∧
        (((walk fs.next MAXSYMLINKS e).bind fs.inode).map fs.node).map asFile = (fs.lookup src).map asFile

structure SafeMove (ans : Answers fs) (src dst : Str) : Prop where
  alias_ : Copies ans src dst = true → fs.opens src = fs.opens dst →
    (∃ n, fs.lookup src = some n ∧ Survives ans n) ∧ (Unlinks ans src = true → ¬Through fs dst (fs.entry src))
  copied : Copies ans src dst = true → fs.opens src ≠ fs.opens dst → Unlinks ans src = true →
    ∃ data, (fs.lookup src).map asFile = some (.file data) ∧ Arrives ans data (fs.lookup dst)
  failed : Copies ans src dst = false → Unlinks ans src = true →
    ¬Through fs dst (fs.entry src) ∧ (fs.lookup dst).map asFile = (fs.lookup src).map asFile

variable {ans : Answers fs} {src dst : Str}

theorem kept_refl : Kept fs fs src dst := fun _ hn => .inl (congrArg (Option.map asFile) hn)

theorem next_eq_none_iff {e : ℕ} : fs.next e = none ↔ fs.text e = none := Option.map_eq_none_iff

theorem next_unlinked (e : ℕ) : (unlinked fs src).next e = if e = fs.entry src then none else fs.next e := by
  split_ifs with he
  · rw [next_eq_none_iff, he]
    simp [unlinked, FileSystem.text]
  · simp [unlinked, FileSystem.text, FileSystem.next, Function.update_of_ne he]

theorem lookup_unlinked_of_through {path : Str} (h : Through fs path (fs.entry src)) :
    (unlinked fs src).lookup path = none := by
  have hfinal : (unlinked fs src).final path = some (fs.entry src) := by
    apply walk_cut _ _ h
    · intro d hd
      rw [next_unlinked, if_neg hd]
    · rw [next_unlinked, if_pos rfl]
  have hinode : (unlinked fs src).inode (fs.entry src) = none := Function.update_self _ _ _
  rw [FileSystem.lookup, FileSystem.opens, hfinal, Option.bind_some, hinode]
  rfl

theorem lookup_unlinked_of_not_through {path : Str} (h : ¬Through fs path (fs.entry src)) :
    (unlinked fs src).lookup path = fs.lookup path := by
  have hpass : passes fs.next (fs.entry src) (MAXSYMLINKS + 1) (fs.entry path) = false := Bool.eq_false_iff.mpr h
  have hfinal : (unlinked fs src).final path = fs.final path := by
    apply walk_avoid _ hpass hpass
    intro d hd _
    rw [next_unlinked, if_neg hd]
  rw [FileSystem.lookup, FileSystem.lookup, FileSystem.opens, FileSystem.opens, hfinal]
  cases hz : fs.final path with
  | none => rfl
  | some z =>
    have hne : z ≠ fs.entry src := by
      rintro rfl
      exact h (passes_end hz)
    have hinode : (unlinked fs src).inode z = fs.inode z := Function.update_of_ne hne _ _
    rw [Option.bind_some, Option.bind_some, hinode]
    rfl

theorem through_self : Through fs src (fs.entry src) := by
  rw [Through, passes, decide_eq_true_eq]
  exact .inl rfl

theorem kept_unlinked_iff {fs' : FileSystem} {n : Node} (hn : fs.lookup src = some n) :
    Kept fs (unlinked fs' src) src dst ↔
      ¬Through fs' dst (fs'.entry src) ∧ (fs'.lookup dst).map asFile = some (asFile n) := by
  have hgone : (unlinked fs' src).lookup src = none := lookup_unlinked_of_through through_self
  constructor
  · intro h
    rcases h n hn with h | h
    · rw [hgone] at h
      cases h
    · by_cases hthrough : Through fs' dst (fs'.entry src)
      · rw [lookup_unlinked_of_through hthrough] at h
        cases h
      · rw [lookup_unlinked_of_not_through hthrough] at h
        exact ⟨hthrough, h⟩
  · rintro ⟨hthrough, hd⟩ k hk
    rw [hn] at hk
    obtain rfl := Option.some.inj hk
    right
    rwa [lookup_unlinked_of_not_through hthrough]

/-! ### Renaming -/

theorem next_renamed (hdiff : fs.inode (fs.entry src) ≠ fs.inode (fs.entry dst)) (e : ℕ) :
    (renamed fs src dst).next e =
      if e = fs.entry src then none
      else if e = fs.entry dst then (fs.text (fs.entry src)).map (fs.beside e)
      else fs.next e := by
  rw [renamed, if_neg hdiff]
  split_ifs with hs hd
  · rw [next_eq_none_iff, hs]
    simp [FileSystem.text]
  · have hne : fs.entry dst ≠ fs.entry src := fun h => hs (hd.trans h)
    rw [hd]
    simp [FileSystem.text, FileSystem.next, Function.update_of_ne hne]
  · simp [FileSystem.text, FileSystem.next, Function.update_of_ne hs, Function.update_of_ne hd]

theorem final_of_text {path : Str} (h : fs.next (fs.entry path) = none) : fs.final path = some (fs.entry path) := by
  rw [FileSystem.final, walk, h]

theorem inode_renamed (hdiff : fs.inode (fs.entry src) ≠ fs.inode (fs.entry dst)) (e : ℕ) :
    (renamed fs src dst).inode e =
      if e = fs.entry src then none else if e = fs.entry dst then fs.inode (fs.entry src) else fs.inode e := by
  rw [renamed, if_neg hdiff]
  simp only [Function.update_apply]

theorem renamed_node : (renamed fs src dst).node = fs.node := by
  rw [renamed]
  split_ifs <;> rfl

theorem renamed_entry : (renamed fs src dst).entry = fs.entry := by
  rw [renamed]
  split_ifs <;> rfl

theorem lookup_renamed_src (hdiff : fs.inode (fs.entry src) ≠ fs.inode (fs.entry dst)) :
    (renamed fs src dst).lookup src = none := by
  have hnext : (renamed fs src dst).next ((renamed fs src dst).entry src) = none := by
    rw [renamed_entry, next_renamed hdiff, if_pos rfl]
  rw [FileSystem.lookup, FileSystem.opens, final_of_text hnext, Option.bind_some, renamed_entry, inode_renamed hdiff,
    if_pos rfl]
  rfl

theorem lookup_renamed_file (hdiff : fs.inode (fs.entry src) ≠ fs.inode (fs.entry dst))
    (htext : fs.text (fs.entry src) = none) : (renamed fs src dst).lookup dst = fs.lookup src := by
  have hne : fs.entry dst ≠ fs.entry src := fun h => hdiff (by rw [h])
  have hnext : (renamed fs src dst).next ((renamed fs src dst).entry dst) = none := by
    rw [renamed_entry, next_renamed hdiff, if_neg hne, if_pos rfl, htext]
    rfl
  rw [FileSystem.lookup, FileSystem.opens, final_of_text hnext, Option.bind_some, renamed_entry, inode_renamed hdiff,
    if_neg hne, if_pos rfl, renamed_node, FileSystem.lookup, FileSystem.opens,
    final_of_text (next_eq_none_iff.mpr htext)]
  rfl

theorem walk_renamed_link {e : ℕ} (hdiff : fs.inode (fs.entry src) ≠ fs.inode (fs.entry dst))
    (htext : (fs.text (fs.entry src)).map (fs.beside (fs.entry dst)) = some e) :
    (renamed fs src dst).final dst = walk (renamed fs src dst).next MAXSYMLINKS e := by
  have hne : fs.entry dst ≠ fs.entry src := fun h => hdiff (by rw [h])
  rw [FileSystem.final, walk, renamed_entry, next_renamed hdiff, if_neg hne, if_pos rfl, htext]

theorem lookup_renamed_link {e : ℕ} {n : Node} (hdiff : fs.inode (fs.entry src) ≠ fs.inode (fs.entry dst))
    (htext : (fs.text (fs.entry src)).map (fs.beside (fs.entry dst)) = some e) :
    ((renamed fs src dst).lookup dst).map asFile = some n ↔
      passes fs.next (fs.entry src) MAXSYMLINKS e = false ∧ passes fs.next (fs.entry dst) MAXSYMLINKS e = false ∧
        (((walk fs.next MAXSYMLINKS e).bind fs.inode).map fs.node).map asFile = some n := by
  have hfinal := walk_renamed_link hdiff htext
  have hne : fs.entry dst ≠ fs.entry src := fun h => hdiff (by rw [h])
  have hother (d : ℕ) (hs : d ≠ fs.entry src) (hd : d ≠ fs.entry dst) : (renamed fs src dst).next d = fs.next d := by
    rw [next_renamed hdiff, if_neg hs, if_neg hd]
  have hsrc : (renamed fs src dst).next (fs.entry src) = none := by rw [next_renamed hdiff, if_pos rfl]
  have hdst : (renamed fs src dst).next (fs.entry dst) = some e := by
    rw [next_renamed hdiff, if_neg hne, if_pos rfl, htext]
  by_cases hpass : passes fs.next (fs.entry src) MAXSYMLINKS e = true ∨
      passes fs.next (fs.entry dst) MAXSYMLINKS e = true
  · have hlost : (renamed fs src dst).lookup dst = none := by
      rw [FileSystem.lookup, FileSystem.opens, hfinal]
      obtain hwalk | hwalk := walk_back (m := MAXSYMLINKS) hother hsrc hdst hpass hpass
      · rw [hwalk]
        rfl
      · rw [hwalk, Option.bind_some, inode_renamed hdiff, if_pos rfl]
        rfl
    rw [hlost]
    constructor
    · intro h
      cases h
    · rintro ⟨hs, hd, -⟩
      rw [hs, hd] at hpass
      cases hpass <;> contradiction
  · rw [not_or, Bool.not_eq_true, Bool.not_eq_true] at hpass
    obtain ⟨hs, hd⟩ := hpass
    have hwalk := walk_avoid hother hs hd
    have hkept : (renamed fs src dst).lookup dst = ((walk fs.next MAXSYMLINKS e).bind fs.inode).map fs.node := by
      rw [FileSystem.lookup, FileSystem.opens, hfinal, hwalk, renamed_node]
      cases hz : walk fs.next MAXSYMLINKS e with
      | none => rfl
      | some z =>
        have hzs : z ≠ fs.entry src := by
          rintro rfl
          rw [passes_end hz] at hs
          cases hs
        have hzd : z ≠ fs.entry dst := by
          rintro rfl
          rw [passes_end hz] at hd
          cases hd
        rw [Option.bind_some, Option.bind_some, inode_renamed hdiff, if_neg hzs, if_neg hzd]
    rw [hkept]
    exact ⟨fun h => ⟨hs, hd, h⟩, fun h => h.2.2⟩

theorem kept_renamed_iff {n : Node} (hn : fs.lookup src = some n) :
    Kept fs (renamed fs src dst) src dst ↔ SafeRename fs src dst := by
  by_cases hsame : fs.inode (fs.entry src) = fs.inode (fs.entry dst)
  · rw [renamed, if_pos hsame]
    exact ⟨fun _ => .inl hsame, fun _ => kept_refl⟩
  have hkept : Kept fs (renamed fs src dst) src dst ↔
      ((renamed fs src dst).lookup dst).map asFile = some (asFile n) := by
    constructor
    · intro h
      rcases h n hn with h | h
      · rw [lookup_renamed_src hsame] at h
        cases h
      · exact h
    · intro h k hk
      rw [hn] at hk
      obtain rfl := Option.some.inj hk
      exact .inr h
  rw [hkept]
  cases htext : fs.text (fs.entry src) with
  | none =>
    rw [lookup_renamed_file hsame htext]
    refine ⟨fun _ => .inr fun e he => ?_, fun _ => congrArg (Option.map asFile) hn⟩
    rw [htext] at he
    cases he
  | some t =>
    have hlink : (fs.text (fs.entry src)).map (fs.beside (fs.entry dst)) = some (fs.beside (fs.entry dst) t) := by
      rw [htext]
      rfl
    have hsrc : (fs.lookup src).map asFile = some (asFile n) := congrArg (Option.map asFile) hn
    rw [lookup_renamed_link hsame hlink, ← hsrc]
    constructor
    · intro h
      right
      intro e he
      obtain rfl := Option.some.inj (hlink.symm.trans he)
      exact h
    · intro h
      exact h.resolve_left hsame _ hlink

/-! ### Copying -/

def Target (fs : FileSystem) (e d : ℕ) : Prop :=
  fs.next e = none ∧ (fs.inode e = some d ∨ fs.inode e = none ∧ ∀ e', fs.inode e' ≠ some d)

theorem Target.eq {e e' d i : ℕ} (h : Target fs e d) (hi : fs.inode e' = some i) (he : e' = e) : i = d := by
  rcases h.2 with hd | ⟨hnone, -⟩
  · rw [← he, hi] at hd
    exact Option.some.inj hd
  · rw [← he, hi] at hnone
    cases hnone

section Writing

variable {e d : ℕ} {m : Node} (h : Target fs e d) (hm : ∀ text, m ≠ .symlink text)

include h hm

theorem text_written (e' : ℕ) : (written fs e d m).text e' = fs.text e' := by
  have hnone : (match some m with | some (.symlink text) => some text | _ => none) = none := by
    cases m with
    | symlink text => exact absurd rfl (hm text)
    | _ => rfl
  by_cases he : e' = e
  · rw [he, next_eq_none_iff.mp h.1, FileSystem.text]
    simpa [written] using hnone
  have hinode : (written fs e d m).inode e' = fs.inode e' := Function.update_of_ne he _ _
  by_cases hd : fs.inode e' = some d
  · have hother : fs.text e' = none := by
      rcases h.2 with hed | ⟨-, hunused⟩
      · have hend := next_eq_none_iff.mp h.1
        rw [FileSystem.text, hed] at hend
        rw [FileSystem.text, hd]
        exact hend
      · exact absurd hd (hunused e')
    rw [hother, FileSystem.text, hinode, hd]
    simpa [written] using hnone
  · rw [FileSystem.text, FileSystem.text, hinode]
    cases hi : fs.inode e' with
    | none => rfl
    | some i =>
      have hid : i ≠ d := fun h => hd (by rw [hi, h])
      have hnode : (written fs e d m).node i = fs.node i := Function.update_of_ne hid _ _
      rw [Option.map_some, Option.map_some, hnode]

theorem next_written (e' : ℕ) : (written fs e d m).next e' = fs.next e' := by
  rw [FileSystem.next, FileSystem.next, text_written h hm]
  rfl

theorem final_written (path : Str) : (written fs e d m).final path = fs.final path := walk_congr (next_written h hm)

theorem lookup_written_of_ne {i : ℕ} {path : Str} (hi : fs.opens path = some i) (hid : i ≠ d) :
    (written fs e d m).lookup path = fs.lookup path := by
  obtain ⟨z, hz, hinode⟩ := Option.bind_eq_some_iff.mp hi
  have hze : z ≠ e := fun he => hid (h.eq hinode he)
  have hinode' : (written fs e d m).inode z = some i := (Function.update_of_ne hze _ _).trans hinode
  have hnode : (written fs e d m).node i = fs.node i := Function.update_of_ne hid _ _
  rw [FileSystem.lookup, FileSystem.lookup, hi, FileSystem.opens, final_written h hm, hz, Option.bind_some, hinode',
    Option.map_some, hnode]
  rfl

theorem lookup_written_final {path : Str} (hz : fs.final path = some e) :
    (written fs e d m).lookup path = some m := by
  have hinode : (written fs e d m).inode e = some d := Function.update_self _ _ _
  have hnode : (written fs e d m).node d = m := Function.update_self _ _ _
  rw [FileSystem.lookup, FileSystem.opens, final_written h hm, hz, Option.bind_some, hinode, Option.map_some, hnode]

theorem lookup_written_same {path : Str} (hi : fs.opens path = some d) :
    (written fs e d m).lookup path = some m := by
  obtain ⟨z, hz, hinode⟩ := Option.bind_eq_some_iff.mp hi
  by_cases hze : z = e
  · exact lookup_written_final h hm (hz.trans (congrArg some hze))
  have hinode' : (written fs e d m).inode z = some d := (Function.update_of_ne hze _ _).trans hinode
  have hnode : (written fs e d m).node d = m := Function.update_self _ _ _
  rw [FileSystem.lookup, FileSystem.opens, final_written h hm, hz, Option.bind_some, hinode', Option.map_some, hnode]

theorem through_written {path : Str} (x : ℕ) : Through (written fs e d m) path x ↔ Through fs path x := by
  have hnext : (written fs e d m).next = fs.next := funext (next_written h hm)
  rw [Through, hnext]
  rfl

end Writing

def arrived (ans : Answers fs) (n : Node) : Str :=
  copyLoop ans.accepted ((contents n).take ans.readable).length 0 ((contents n).take ans.readable)

theorem arrived_eq_iff {n : Node} : arrived ans n = contents n ↔ Complete ans (contents n) := by
  obtain ⟨data, hdata⟩ : ∃ data, data = contents n := ⟨_, rfl⟩
  rw [arrived, ← hdata]
  have hloop := copyLoop_eq_iff ans.accepted (i := 0) (data.take ans.readable) (le_refl _)
  constructor
  · intro h
    have hlen := length_copyLoop_le ans.accepted (data.take ans.readable).length 0 (data.take ans.readable)
    rw [h, List.length_take] at hlen
    have htake : data.take ans.readable = data := List.take_of_length_le (by omega)
    rw [htake] at hloop h
    exact ⟨by omega, hloop.mp h⟩
  · rintro ⟨hread, haccepts⟩
    rw [List.take_of_length_le hread] at hloop ⊢
    exact hloop.mpr haccepts

theorem arrived_overlay_iff {n : Node} {gives : Str} :
    arrived ans n ++ gives.drop (arrived ans n).length = contents n ↔ Overlays ans gives (contents n) := by
  obtain ⟨data, hdata⟩ : ∃ data, data = contents n := ⟨_, rfl⟩
  have hlength : (data.take ans.readable).length = min ans.readable data.length := List.length_take
  rw [arrived, ← hdata, length_copyLoop, copyLoop_append_iff _ (le_refl _), hlength]
  have hat (j k : ℕ) (hk : k < min (ans.accepted j) (min CHUNK (min ans.readable data.length - CHUNK * j))) :
      (data.take ans.readable)[CHUNK * j + k]? = data[CHUNK * j + k]? :=
    List.getElem?_take_of_lt (by omega)
  constructor
  · rintro ⟨hplaced, hbehind⟩
    refine ⟨fun j k hk => ?_, hbehind⟩
    rw [hplaced j k (by rwa [Nat.zero_add]), hat j k hk]
  · rintro ⟨hplaced, hbehind⟩
    refine ⟨fun j k hk => ?_, hbehind⟩
    rw [Nat.zero_add] at hk
    rw [hplaced j k hk, hat j k hk]

theorem stored_ne_symlink (n : Node) (data : Str) : ∀ text, stored n data ≠ .symlink text := by
  intro text h
  cases n <;> cases h

theorem stored_stored_nil (n : Node) (data : Str) : stored (stored n []) data = stored n data := by
  cases n with
  | device gives block => cases block <;> rfl
  | _ => rfl

theorem asFile_stored (n : Node) (data : Str) : asFile (stored n data) = .file (contents (stored n data)) := by
  cases n <;> rfl

theorem asFile_eq_file_iff {n : Node} {data : Str} (h : asFile n = .file data) : contents n = data := by
  cases n <;> cases h <;> rfl

theorem arrives_iff {n : Node} (m : Option Node) :
    asFile (stored (m.getD (.file [])) (arrived ans n)) = asFile n ↔
      ∃ data, asFile n = .file data ∧ Arrives ans data m := by
  rw [asFile_stored]
  have hsame : ∀ data, asFile n = .file data →
      (contents (stored (m.getD (.file [])) (arrived ans n)) = data ↔ Arrives ans data m) := by
    intro data hdata
    obtain rfl := asFile_eq_file_iff hdata
    cases m with
    | none => exact arrived_eq_iff
    | some m =>
      cases m with
      | device gives block =>
        cases block with
        | false => exact Iff.rfl
        | true => exact arrived_overlay_iff
      | _ => exact arrived_eq_iff
  constructor
  · intro h
    exact ⟨_, h.symm, (hsame _ h.symm).mp rfl⟩
  · rintro ⟨data, hdata, harrives⟩
    rw [hdata, (hsame data hdata).mpr harrives]

theorem survives_iff {n : Node} : asFile (stored n (arrived ans (stored n []))) = asFile n ↔ Survives ans n := by
  rw [asFile_stored]
  cases n with
  | device gives block =>
    cases block with
    | false => simp [stored, contents, asFile, Survives]
    | true =>
      have hoverlay := @arrived_overlay_iff _ ans (.device gives true) gives
      simpa [stored, contents, asFile, Survives] using hoverlay
  | _ => simp [stored, contents, asFile, Survives, arrived, copyLoop, eq_comm]

theorem target_opened (ans : Answers fs) {path : Str} {e : ℕ} (h : fs.final path = some e) :
    Target fs e (opened ans e).2 := by
  refine ⟨walk_end h, ?_⟩
  rw [opened]
  cases hi : fs.inode e with
  | none => exact .inr ⟨rfl, ans.unused⟩
  | some d => exact .inl rfl

theorem cmdCp_eq_self {argc : ℕ} (hcopies : Copies ans src dst = false) : cmdCp ans src dst argc = fs := by
  by_cases hargc : argc < 3
  · rw [cmdCp, if_pos hargc]
  rw [cmdCp, if_neg hargc]
  cases fs.opens src with
  | none => rfl
  | some i =>
    cases fs.final dst with
    | none => rfl
    | some e => rw [hcopies]; rfl

theorem cmdCp_eq {argc i e : ℕ} (hargc : ¬argc < 3) (hi : fs.opens src = some i) (he : fs.final dst = some e)
    (hcopies : Copies ans src dst = true) :
    cmdCp ans src dst argc =
      written fs e (opened ans e).2
        (stored ((fs.lookup dst).getD (.file [])) (arrived ans ((opened ans e).1.node i))) := by
  have hlookup : fs.lookup dst = (fs.inode e).map fs.node := by
    rw [FileSystem.lookup, FileSystem.opens, he]
    rfl
  rw [cmdCp, if_neg hargc, hi, he, hlookup]
  simp only [hcopies, ↓reduceIte]
  cases hinode : fs.inode e with
  | none =>
    simp only [opened, hinode, written, arrived, Function.update_idem, Function.update_self]
    rfl
  | some d =>
    simp only [opened, hinode, written, arrived, Function.update_idem, Function.update_self, stored_stored_nil]
    rfl

theorem final_of_copies (h : Copies ans src dst = true) : ∃ e, fs.final dst = some e := by
  simp only [Copies, Bool.and_eq_true] at h
  exact Option.isSome_iff_exists.mp h.1.2

theorem lookup_cmdCp_alias {argc i e : ℕ} (hargc : ¬argc < 3) (hi : fs.opens src = some i)
    (he : fs.final dst = some e) (hcopies : Copies ans src dst = true) (hd : fs.opens dst = some i) :
    (cmdCp ans src dst argc).lookup src = some (stored (fs.node i) (arrived ans (stored (fs.node i) []))) ∧
      (cmdCp ans src dst argc).lookup dst = some (stored (fs.node i) (arrived ans (stored (fs.node i) []))) := by
  have hinode : fs.inode e = some i := by
    rw [FileSystem.opens, he] at hd
    exact hd
  have hopened : (opened ans e).2 = i := by rw [opened, hinode]
  have hnode : (opened ans e).1.node i = stored (fs.node i) [] := by
    rw [opened, hinode]
    exact Function.update_self _ _ _
  have hlookup : fs.lookup dst = some (fs.node i) := by rw [FileSystem.lookup, hd]; rfl
  have htarget := target_opened ans he
  rw [hopened] at htarget
  rw [cmdCp_eq hargc hi he hcopies, hopened, hnode, hlookup, Option.getD_some]
  exact ⟨lookup_written_same htarget (stored_ne_symlink _ _) hi,
    lookup_written_same htarget (stored_ne_symlink _ _) hd⟩

theorem lookup_cmdCp_distinct {argc i e : ℕ} (hargc : ¬argc < 3) (hi : fs.opens src = some i)
    (he : fs.final dst = some e) (hcopies : Copies ans src dst = true) (hd : fs.opens dst ≠ some i) :
    (cmdCp ans src dst argc).lookup src = fs.lookup src ∧
      (cmdCp ans src dst argc).lookup dst =
        some (stored ((fs.lookup dst).getD (.file [])) (arrived ans (fs.node i))) := by
  have htarget := target_opened ans he
  have hne : i ≠ (opened ans e).2 := by
    intro h
    obtain ⟨z, -, hz⟩ := Option.bind_eq_some_iff.mp hi
    rw [opened] at h
    cases hinode : fs.inode e with
    | none =>
      rw [hinode] at h
      exact ans.unused z (by rw [hz, h])
    | some d =>
      rw [hinode] at h
      exact hd (by rw [FileSystem.opens, he, Option.bind_some, hinode, h])
  have hnode : (opened ans e).1.node i = fs.node i := by
    rw [opened] at hne ⊢
    cases hinode : fs.inode e with
    | none =>
      rw [hinode] at hne
      exact Function.update_of_ne hne _ _
    | some d =>
      rw [hinode] at hne
      exact Function.update_of_ne hne _ _
  rw [cmdCp_eq hargc hi he hcopies, hnode]
  exact ⟨lookup_written_of_ne htarget (stored_ne_symlink _ _) hi hne,
    lookup_written_final htarget (stored_ne_symlink _ _) he⟩

theorem through_cmdCp {argc i e : ℕ} (hargc : ¬argc < 3) (hi : fs.opens src = some i) (he : fs.final dst = some e)
    (hcopies : Copies ans src dst = true) :
    Through (cmdCp ans src dst argc) dst ((cmdCp ans src dst argc).entry src) ↔ Through fs dst (fs.entry src) := by
  rw [cmdCp_eq hargc hi he hcopies]
  exact through_written (target_opened ans he) (stored_ne_symlink _ _) _

/-! ### `cmd_mv` -/

theorem not_through_of_opens_ne {e : ℕ} (he : fs.final dst = some e) (hd : fs.opens src ≠ fs.opens dst) :
    ¬Through fs dst (fs.entry src) := by
  intro h
  have hfinal : fs.final src = some e := walk_through h he
  exact hd (by rw [FileSystem.opens, FileSystem.opens, hfinal, he])

section Fallback

variable {argc i e : ℕ} {n : Node} (hargc : ¬argc < 3) (hn : fs.lookup src = some n) (hi : fs.opens src = some i)
  (he : fs.final dst = some e) (hcopies : Copies ans src dst = true)

include hn

theorem kept_uncopied_iff (hcopies : Copies ans src dst = false) :
    Kept fs (if Unlinks ans src then unlinked (cmdCp ans src dst argc) src else cmdCp ans src dst argc) src dst ↔
      SafeMove ans src dst := by
  rw [cmdCp_eq_self hcopies]
  cases hunlinks : Unlinks ans src with
  | false =>
    refine ⟨fun _ => ⟨?_, ?_, ?_⟩, fun _ => kept_refl⟩
    · simp [hcopies]
    · simp [hcopies]
    · simp [hunlinks]
  | true =>
    rw [if_pos rfl, kept_unlinked_iff hn]
    constructor
    · intro h
      refine ⟨?_, ?_, fun _ _ => by rw [hn]; exact h⟩
      · simp [hcopies]
      · simp [hcopies]
    · intro h
      have hfailed := h.failed hcopies hunlinks
      rwa [hn] at hfailed

include hargc hi he hcopies

theorem kept_alias_iff (hd : fs.opens dst = some i) :
    Kept fs (if Unlinks ans src then unlinked (cmdCp ans src dst argc) src else cmdCp ans src dst argc) src dst ↔
      SafeMove ans src dst := by
  obtain ⟨hsrc, hdst⟩ := lookup_cmdCp_alias hargc hi he hcopies hd
  have hsame : fs.opens src = fs.opens dst := hi.trans hd.symm
  have hnode : fs.node i = n := by
    rw [FileSystem.lookup, hi] at hn
    exact Option.some.inj hn
  rw [hnode] at hsrc hdst
  cases hunlinks : Unlinks ans src with
  | false =>
    rw [if_neg (by decide)]
    constructor
    · intro h
      have hfound := h n hn
      rw [hsrc, hdst, or_self, Option.map_some, Option.some_inj, survives_iff] at hfound
      exact ⟨fun _ _ => ⟨⟨n, hn, hfound⟩, by simp [hunlinks]⟩, fun _ hne => absurd hsame hne, by simp [hcopies]⟩
    · intro h k hk
      obtain ⟨⟨m, hm, hsurvives⟩, -⟩ := h.alias_ hcopies hsame
      obtain rfl := Option.some.inj (hn.symm.trans hm)
      obtain rfl := Option.some.inj (hn.symm.trans hk)
      rw [hsrc, Option.map_some, survives_iff.mpr hsurvives]
      exact .inl rfl
  | true =>
    rw [if_pos rfl, kept_unlinked_iff hn, through_cmdCp hargc hi he hcopies, hdst, Option.map_some, Option.some_inj,
      survives_iff]
    constructor
    · rintro ⟨hthrough, hsurvives⟩
      exact ⟨fun _ _ => ⟨⟨n, hn, hsurvives⟩, fun _ => hthrough⟩, fun _ hne => absurd hsame hne, by simp [hcopies]⟩
    · intro h
      obtain ⟨⟨m, hm, hsurvives⟩, hthrough⟩ := h.alias_ hcopies hsame
      obtain rfl := Option.some.inj (hn.symm.trans hm)
      exact ⟨hthrough hunlinks, hsurvives⟩

theorem kept_distinct_iff (hd : fs.opens dst ≠ some i) :
    Kept fs (if Unlinks ans src then unlinked (cmdCp ans src dst argc) src else cmdCp ans src dst argc) src dst ↔
      SafeMove ans src dst := by
  obtain ⟨hsrc, hdst⟩ := lookup_cmdCp_distinct hargc hi he hcopies hd
  have hdiff : fs.opens src ≠ fs.opens dst := fun h => hd (h ▸ hi)
  have hnode : fs.node i = n := by
    rw [FileSystem.lookup, hi] at hn
    exact Option.some.inj hn
  cases hunlinks : Unlinks ans src with
  | false =>
    rw [if_neg (by decide)]
    refine ⟨fun _ => ⟨fun _ h => absurd h hdiff, by simp [hunlinks], by simp [hcopies]⟩, fun _ n hk => ?_⟩
    exact .inl (congrArg (Option.map asFile) (hsrc.trans hk))
  | true =>
    rw [if_pos rfl, kept_unlinked_iff hn, through_cmdCp hargc hi he hcopies, hdst, hnode, Option.map_some,
      Option.some_inj, arrives_iff]
    constructor
    · rintro ⟨-, data, hdata, harrives⟩
      refine ⟨fun _ h => absurd h hdiff, fun _ _ _ => ⟨data, ?_, harrives⟩, by simp [hcopies]⟩
      rw [hn, Option.map_some, hdata]
    · intro h
      obtain ⟨data, hdata, harrives⟩ := h.copied hcopies hdiff hunlinks
      rw [hn, Option.map_some, Option.some_inj] at hdata
      exact ⟨not_through_of_opens_ne he hdiff, data, hdata, harrives⟩

end Fallback

theorem kept_fallback_iff (ans : Answers fs) (dst : Str) {argc : ℕ} {n : Node} (hargc : ¬argc < 3)
    (hn : fs.lookup src = some n) :
    Kept fs (if Unlinks ans src then unlinked (cmdCp ans src dst argc) src else cmdCp ans src dst argc) src dst ↔
      SafeMove ans src dst := by
  cases hcopies : Copies ans src dst with
  | false => exact kept_uncopied_iff hn hcopies
  | true =>
    obtain ⟨i, hi, -⟩ := Option.map_eq_some_iff.mp hn
    obtain ⟨e, he⟩ := final_of_copies hcopies
    by_cases hd : fs.opens dst = some i
    · exact kept_alias_iff hargc hn hi he hcopies hd
    · exact kept_distinct_iff hargc hn hi he hcopies hd

theorem cmdMv_kept_iff (ans : Answers fs) (src dst : Str) (argc : ℕ) :
    Kept fs (cmdMv ans src dst argc) src dst ↔
      argc < 3 ∨ fs.lookup src = none ∨ (Renames ans src dst = true ∧ SafeRename fs src dst) ∨
        (Renames ans src dst = false ∧ SafeMove ans src dst) := by
  rw [cmdMv]
  by_cases hargc : argc < 3
  · rw [if_pos hargc]
    exact ⟨fun _ => .inl hargc, fun _ => kept_refl⟩
  rw [if_neg hargc]
  cases hn : fs.lookup src with
  | none =>
    refine ⟨fun _ => .inr (.inl rfl), fun _ n hk => ?_⟩
    rw [hn] at hk
    cases hk
  | some n =>
    cases hrenames : Renames ans src dst with
    | true =>
      rw [if_pos rfl, kept_renamed_iff hn]
      simp [hargc]
    | false =>
      rw [if_neg (by decide), kept_fallback_iff ans dst hargc hn]
      simp [hargc]

def oneFile : FileSystem where
  entry path := if path = bytes "f" then 1 else if path = bytes "d" then 2 else 3
  beside _ _ := 3
  inode e := if e = 1 then some 10 else if e = 2 then some 20 else none
  node i := if i = 10 then .file (bytes "text") else .dir

def allowed : Answers oneFile where
  rename := true
  openSource := true
  openDest := true
  readable := 100
  accepted _ := CHUNK
  unlink := true
  newInode := 30
  unused e := by
    simp only [oneFile]
    split_ifs <;> simp

theorem cmdMv_into_directory_loses :
    ¬Kept oneFile (cmdMv allowed (bytes "f") (bytes "d") 3) (bytes "f") (bytes "d") := by
  intro h
  rcases h (.file (bytes "text")) rfl with h | h
  · revert h
    decide
  · revert h
    decide

end JurkOS.Userland
