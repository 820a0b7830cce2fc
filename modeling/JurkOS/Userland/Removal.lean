import JurkOS.Lib.FileTree
import JurkOS.Userland.Files
import JurkOS.Userland.Login

/-!
`rm_recursive` and `cmd_rm` of `NoneCompiled/main.c`, and the words of a line of the shell.
Which of the calls are let through is given from outside.
-/

namespace JurkOS.Userland

open Lib.Libc Lib.Paths Lib.FileTree

namespace Removal

def SPACE : UInt8 := 0x20
def TAB : UInt8 := 0x09

def arguments (input : Str) : List Str :=
  (((stripNewline (cstr input)).splitOnP fun c => c = SPACE ∨ c = TAB).filter (· ≠ [])).take 31

/-- What the calls answer, each by the number of calls before it. -/
structure Answers where
  lstat : ℕ → Bool
  opendir : ℕ → Bool
  remove : ℕ → Bool

structure Call where
  path : Str
  target : Option Place

structure State where
  tree : Tree
  clock : ℕ
  calls : List Call

def initial (t : Tree) : State := ⟨t, 0, []⟩

variable (ans : Answers) (cwd : Place)

def lstat (path : Str) (s : State) : Option (Place × Kind) :=
  if ans.lstat s.clock then
    (locate s.tree MAXSYMLINKS cwd path).bind fun p => (s.tree.node p).map fun n => (p, n)
  else none

def tick (s : State) : State := { s with clock := s.clock + 1 }

def removing (takes : Tree → Place → Bool) (path : Str) (s : State) : ℤ × State :=
  let target := locate s.tree MAXSYMLINKS cwd path
  let s' := { tick s with calls := s.calls ++ [⟨path, target⟩] }
  match target with
  | none => (-1, s')
  | some p => if ans.remove s.clock ∧ takes s.tree p then (0, { s' with tree := s.tree.erase p }) else (-1, s')

def unlink : Str → State → ℤ × State := removing ans cwd fun t p => (t.node p).any (· ≠ .dir)

def rmdir : Str → State → ℤ × State :=
  removing ans cwd fun t p => t.node p = some .dir ∧ p ≠ [] ∧ t.names p = []

def sub (path name : Str) : Str := snprintf 512 (path ++ SLASH :: name)

def removeEntries (rm : Str → State → Option (ℤ × State)) (path : Str) : List Str → State → Option State
  | [], s => some s
  | name :: names, s =>
    if name = DOT ∨ name = DOTDOT then removeEntries rm path names s
    else (rm (sub path name) s).bind fun r => removeEntries rm path names r.2

def rmRecursive : ℕ → Str → State → Option (ℤ × State)
  | 0, _, _ => none
  | fuel + 1, path, s =>
    match lstat ans cwd path s with
    | none => some (-1, tick s)
    | some (p, .dir) =>
      if ans.opendir (s.clock + 1) then
        (removeEntries (rmRecursive fuel) path (DOT :: DOTDOT :: s.tree.names p) (tick (tick s))).map
          (rmdir ans cwd path)
      else some (-1, tick (tick s))
    | some _ => some (unlink ans cwd path (tick s))

def cmdRm (fuel : ℕ) (argv : List Str) (s : State) : Option State :=
  match argv with
  | _ :: flag :: args =>
    if flag = bytes "-r" ∨ flag = bytes "-rf" then
      args.foldlM (fun s arg => (rmRecursive ans cwd fuel arg s).map Prod.snd) s
    else some ((flag :: args).foldl (fun s arg => (unlink ans cwd arg s).2) s)
  | _ => some s

def Inside (t : Tree) (cwd : Place) (arg : Str) (c : Call) : Prop :=
  ∃ a below, locate t MAXSYMLINKS cwd arg = some a ∧ locate t MAXSYMLINKS cwd c.path = some (below ++ a) ∧
    (c.target = none ∨ c.target = some (below ++ a))

def StaysInside (t : Tree) (cwd : Place) (arg : Str) : Prop :=
  ∀ ans, ∃ enough, ∀ fuel, enough ≤ fuel → ∃ r, rmRecursive ans cwd fuel arg (initial t) = some r ∧
    ∀ c ∈ r.2.calls, Inside t cwd arg c

def spell (arg : Str) : Place → Str
  | [] => arg
  | name :: below => spell arg below ++ SLASH :: name

/-- Where the path of an entry below the argument takes more than 511 bytes, these denote nothing or
something inside the argument that has no entries. -/
def Spelled (t : Tree) (cwd : Place) (arg : Str) : Prop :=
  ∀ a below, locate t MAXSYMLINKS cwd arg = some a → below ≠ [] → t.node (below ++ a) ≠ none →
    512 ≤ (spell arg below).length →
      ∀ q, locate t MAXSYMLINKS cwd ((spell arg below).take 511) = some q →
        (∃ inner, q = inner ++ a) ∧ t.names q = []

/-! ### What stays inside -/

section Returns

variable {ans : Answers} {cwd : Place} {t : Tree} {P : Call → Prop}

structure Within (t : Tree) (P : Call → Prop) (s : State) : Prop where
  remains : s.tree.Remains t
  calls : ∀ c ∈ s.calls, P c

theorem Within.tick {s : State} (h : Within t P s) : Within t P (tick s) := ⟨h.remains, h.calls⟩

def Returns (t : Tree) (P : Call → Prop) (rm : Str → State → Option (ℤ × State)) (path : Str) : Prop :=
  ∀ s, Within t P s → ∃ r, rm path s = some r ∧ Within t P r.2

theorem removing_within {takes : Tree → Place → Bool} {path : Str} {s : State} (hs : Within t P s)
    (hP : ∀ target, (target = none ∨ target = locate t MAXSYMLINKS cwd path) → P ⟨path, target⟩) :
    Within t P (removing ans cwd takes path s).2 := by
  have hcalls : ∀ c ∈ s.calls ++ [⟨path, locate s.tree MAXSYMLINKS cwd path⟩], P c := by
    intro c hc
    rcases List.mem_append.mp hc with hc | hc
    · exact hs.calls c hc
    · obtain rfl := List.mem_singleton.mp hc
      exact hP _ (locate_remains hs.remains MAXSYMLINKS cwd path)
  unfold removing
  dsimp only
  split
  · exact ⟨hs.remains, hcalls⟩
  · split_ifs
    · exact ⟨hs.remains.erase _, hcalls⟩
    · exact ⟨hs.remains, hcalls⟩

-- Along the names.
theorem removeEntries_within {rm : Str → State → Option (ℤ × State)} {path : Str} {names : List Str}
    (hrm : ∀ name ∈ names, name ≠ DOT → name ≠ DOTDOT → Returns t P rm (sub path name)) {s : State}
    (hs : Within t P s) : ∃ s', removeEntries rm path names s = some s' ∧ Within t P s' := by
  induction names generalizing s with
  | nil => exact ⟨s, rfl, hs⟩
  | cons name names ih =>
    have hrest (s : State) (hs : Within t P s) := ih (fun n hn => hrm n (List.mem_cons_of_mem _ hn)) hs
    rw [removeEntries]
    split_ifs with hdots
    · exact hrest s hs
    · obtain ⟨hdot, hdotdot⟩ := not_or.mp hdots
      obtain ⟨r, hr, hwithin⟩ := hrm name List.mem_cons_self hdot hdotdot s hs
      rw [hr]
      exact hrest r.2 hwithin

theorem lstat_eq_some {path : Str} {s : State} {p : Place} {n : Kind} (h : lstat ans cwd path s = some (p, n)) :
    locate s.tree MAXSYMLINKS cwd path = some p ∧ s.tree.node p = some n := by
  unfold lstat at h
  split_ifs at h
  obtain ⟨q, hq, hn⟩ := Option.bind_eq_some_iff.mp h
  obtain ⟨m, hm, heq⟩ := Option.map_eq_some_iff.mp hn
  obtain ⟨rfl, rfl⟩ := Prod.mk.inj heq
  exact ⟨hq, hm⟩

theorem rmRecursive_returns {fuel : ℕ} {path : Str}
    (hP : ∀ p target, locate t MAXSYMLINKS cwd path = some p → (target = none ∨ target = some p) → P ⟨path, target⟩)
    (hentries : ∀ p name, locate t MAXSYMLINKS cwd path = some p → name ∈ t.names p →
      Returns t P (rmRecursive ans cwd fuel) (sub path name)) :
    Returns t P (rmRecursive ans cwd (fuel + 1)) path := by
  intro s hs
  rw [rmRecursive]
  cases hstat : lstat ans cwd path s with
  | none => exact ⟨_, rfl, hs.tick⟩
  | some found =>
    obtain ⟨p, n⟩ := found
    obtain ⟨hlocate, -⟩ := lstat_eq_some hstat
    have hp : locate t MAXSYMLINKS cwd path = some p := by
      rcases locate_remains hs.remains MAXSYMLINKS cwd path with hnone | heq
      · rw [hnone] at hlocate
        cases hlocate
      · rw [← heq, hlocate]
    have hcall (target : Option Place) (h : target = none ∨ target = locate t MAXSYMLINKS cwd path) :
        P ⟨path, target⟩ := hP p target hp (hp ▸ h)
    cases n with
    | file => exact ⟨_, rfl, removing_within hs.tick hcall⟩
    | symlink text => exact ⟨_, rfl, removing_within hs.tick hcall⟩
    | dir =>
      dsimp only
      split_ifs
      · have hnames : ∀ name ∈ DOT :: DOTDOT :: s.tree.names p, name ≠ DOT → name ≠ DOTDOT →
            Returns t P (rmRecursive ans cwd fuel) (sub path name) := by
          intro name hname hdot hdotdot
          have hmem : name ∈ s.tree.names p := by simpa [hdot, hdotdot] using hname
          exact hentries p name hp (hs.remains.names hmem)
        obtain ⟨s', hloop, hs'⟩ := removeEntries_within hnames hs.tick.tick
        rw [hloop]
        exact ⟨_, rfl, removing_within hs' hcall⟩
      · exact ⟨_, rfl, hs.tick.tick⟩

end Returns

section Spell

variable {t : Tree} {cwd a : Place} {arg : Str}

theorem locate_spell (ha : locate t MAXSYMLINKS cwd arg = some a) {below : Place} (h : t.node (below ++ a) ≠ none) :
    locate t MAXSYMLINKS cwd (spell arg below) = some (below ++ a) := by
  induction below with
  | nil => exact ha
  | cons name below ih =>
    have hdir : t.node (below ++ a) = some .dir := t.parent h
    rw [spell, locate_child hdir (t.isName h) (ih (t.parent_ne_none h))]
    obtain ⟨n, hn⟩ := Option.ne_none_iff_exists'.mp h
    have hn : t.node (name :: (below ++ a)) = some n := hn
    rw [hn]
    rfl

theorem returns_cut {ans : Answers} {P : Call → Prop} (hP : ∀ c, Inside t cwd arg c → P c)
    (ha : locate t MAXSYMLINKS cwd arg = some a) {path : Str}
    (h : ∀ q, locate t MAXSYMLINKS cwd path = some q → (∃ inner, q = inner ++ a) ∧ t.names q = []) (fuel : ℕ) :
    Returns t P (rmRecursive ans cwd (fuel + 1)) path := by
  apply rmRecursive_returns
  · intro p target hp htarget
    obtain ⟨⟨inner, rfl⟩, -⟩ := h p hp
    exact hP _ ⟨a, inner, ha, hp, htarget⟩
  · intro p name hp hname
    rw [(h p hp).2] at hname
    cases hname

theorem returns_entry {ans : Answers} {P : Call → Prop} (hP : ∀ c, Inside t cwd arg c → P c)
    (ha : locate t MAXSYMLINKS cwd arg = some a) {below : Place} (hnode : t.node (below ++ a) ≠ none) {fuel : ℕ}
    (hentries : ∀ name ∈ t.names (below ++ a), Returns t P (rmRecursive ans cwd fuel) (sub (spell arg below) name)) :
    Returns t P (rmRecursive ans cwd (fuel + 1)) (spell arg below) := by
  have hspell := locate_spell ha hnode
  apply rmRecursive_returns
  · intro p target hp htarget
    obtain rfl := Option.some.inj (hspell.symm.trans hp)
    exact hP _ ⟨a, below, ha, hp, htarget⟩
  · intro p name hp hname
    obtain rfl := Option.some.inj (hspell.symm.trans hp)
    exact hentries name hname

-- Induction on the levels that are left below the entry.
theorem returns_spell {ans : Answers} {P : Call → Prop} (hspelled : Spelled t cwd arg)
    (hP : ∀ c, Inside t cwd arg c → P c) (ha : locate t MAXSYMLINKS cwd arg = some a) {levels : ℕ} {below : Place}
    (hnode : t.node (below ++ a) ≠ none) (hlevels : t.depth ≤ (below ++ a).length + levels) (fuel : ℕ) :
    Returns t P (rmRecursive ans cwd (levels + fuel + 1)) (spell arg below) := by
  induction levels generalizing below with
  | zero =>
    apply returns_entry hP ha hnode
    intro name hname
    have hlen := t.length_le_depth (t.mem_names.mp hname)
    rw [List.length_cons] at hlen
    omega
  | succ levels ih =>
    apply returns_entry hP ha hnode
    intro name hname
    have hchild : t.node (name :: below ++ a) ≠ none := t.mem_names.mp hname
    rw [Nat.add_right_comm]
    by_cases hlong : 512 ≤ (spell arg (name :: below)).length
    · have hcut := hspelled a (name :: below) ha (List.cons_ne_nil _ _) hchild hlong
      exact returns_cut hP ha hcut _
    · have hsub : sub (spell arg below) name = spell arg (name :: below) := snprintf_of_lt (Nat.not_le.mp hlong)
      rw [hsub]
      apply ih hchild
      rw [List.cons_append, List.length_cons]
      omega

theorem returns_argument {ans : Answers} {P : Call → Prop} (hspelled : Spelled t cwd arg)
    (hP : ∀ c, Inside t cwd arg c → P c) {fuel : ℕ} (hfuel : t.depth < fuel) :
    Returns t P (rmRecursive ans cwd fuel) arg := by
  obtain ⟨spare, rfl⟩ : ∃ spare, fuel = t.depth + spare + 1 := Nat.exists_eq_add_of_lt hfuel
  cases ha : locate t MAXSYMLINKS cwd arg with
  | none =>
    apply rmRecursive_returns
    · intro p target hp
      rw [ha] at hp
      cases hp
    · intro p name hp
      rw [ha] at hp
      cases hp
  | some a =>
    have hnode : t.node ([] ++ a) ≠ none := node_locate ha
    exact returns_spell hspelled hP ha hnode (Nat.le_add_left _ _) spare

theorem within_initial (t : Tree) (P : Call → Prop) : Within t P (initial t) :=
  ⟨Tree.Remains.refl, fun _ hc => absurd hc List.not_mem_nil⟩

theorem staysInside_of_spelled (hspelled : Spelled t cwd arg) : StaysInside t cwd arg := by
  intro ans
  refine ⟨t.depth + 1, fun fuel hfuel => ?_⟩
  obtain ⟨r, hr, hwithin⟩ := returns_argument hspelled (fun _ hc => hc) hfuel (initial t) (within_initial t _)
  exact ⟨r, hr, hwithin.calls⟩

end Spell

theorem cmdRm_inside {t : Tree} {cwd : Place} {ans : Answers} {cmd flag : Str} {args : List Str} {fuel : ℕ}
    (hflag : flag = bytes "-r" ∨ flag = bytes "-rf") (hspelled : ∀ arg ∈ args, Spelled t cwd arg)
    (hfuel : t.depth < fuel) : ∃ s, cmdRm ans cwd fuel (cmd :: flag :: args) (initial t) = some s ∧
      ∀ c ∈ s.calls, ∃ arg ∈ args, Inside t cwd arg c := by
  have hloop (todo : List Str) (htodo : todo ⊆ args) (s : State)
      (hs : Within t (fun c => ∃ arg ∈ args, Inside t cwd arg c) s) :
      ∃ s', todo.foldlM (fun s arg => (rmRecursive ans cwd fuel arg s).map Prod.snd) s = some s' ∧
        Within t (fun c => ∃ arg ∈ args, Inside t cwd arg c) s' := by
    induction todo generalizing s with
    | nil => exact ⟨s, rfl, hs⟩
    | cons arg todo ih =>
      obtain ⟨harg, htodo⟩ := List.cons_subset.mp htodo
      obtain ⟨r, hr, hwithin⟩ := returns_argument (hspelled arg harg) (fun c hc => ⟨arg, harg, hc⟩) hfuel s hs
      rw [List.foldlM_cons, hr]
      exact ih htodo r.2 hwithin
  obtain ⟨s, hs, hwithin⟩ := hloop args (List.Subset.refl _) (initial t) (within_initial t _)
  refine ⟨s, ?_, hwithin.calls⟩
  rw [cmdRm, if_pos hflag]
  exact hs

/-! ### When nothing goes away -/

def still : Answers := ⟨fun _ => true, fun _ => true, fun _ => false⟩

structure Later (s s' : State) : Prop where
  tree : s'.tree = s.tree
  calls : s.calls ⊆ s'.calls

theorem Later.trans {s s' s'' : State} (h : Later s s') (h' : Later s' s'') : Later s s'' :=
  ⟨h'.tree.trans h.tree, List.Subset.trans h.calls h'.calls⟩

section Still

variable {cwd q : Place} {path name : Str} {s s' : State} {r : ℤ × State} {fuel : ℕ}

theorem later_tick : Later s (tick s) := ⟨rfl, List.Subset.refl _⟩

theorem removing_still (takes : Tree → Place → Bool) :
    Later s (removing still cwd takes path s).2 ∧ ∃ c ∈ (removing still cwd takes path s).2.calls, c.path = path := by
  have hsub : s.calls ⊆ s.calls ++ [⟨path, locate s.tree MAXSYMLINKS cwd path⟩] := List.subset_append_left _ _
  have hcall : ∃ c ∈ s.calls ++ [⟨path, locate s.tree MAXSYMLINKS cwd path⟩], c.path = path :=
    ⟨_, List.mem_append_right _ (List.mem_singleton_self _), rfl⟩
  unfold removing
  dsimp only
  split
  · exact ⟨⟨rfl, hsub⟩, hcall⟩
  · split_ifs with htaken
    · exact absurd htaken.1 Bool.false_ne_true
    · exact ⟨⟨rfl, hsub⟩, hcall⟩

theorem removeEntries_still {rm : Str → State → Option (ℤ × State)} {names : List Str}
    (hrm : ∀ path s r, rm path s = some r → Later s r.2) (h : removeEntries rm path names s = some s') :
    Later s s' ∧ ∀ name ∈ names, name ≠ DOT → name ≠ DOTDOT →
      ∃ s₁ r, Later s s₁ ∧ rm (sub path name) s₁ = some r ∧ Later r.2 s' := by
  induction names generalizing s with
  | nil =>
    obtain rfl := Option.some.inj h
    exact ⟨⟨rfl, List.Subset.refl _⟩, fun _ hname => absurd hname List.not_mem_nil⟩
  | cons head names ih =>
    rw [removeEntries] at h
    split_ifs at h with hdots
    · obtain ⟨hlater, hvisits⟩ := ih h
      refine ⟨hlater, fun name hname hdot hdotdot => ?_⟩
      rcases List.mem_cons.mp hname with rfl | hname
      · exact absurd hdots (not_or.mpr ⟨hdot, hdotdot⟩)
      · exact hvisits name hname hdot hdotdot
    · obtain ⟨r, hr, hrest⟩ := Option.bind_eq_some_iff.mp h
      obtain ⟨hlater, hvisits⟩ := ih hrest
      have hfirst := hrm _ _ _ hr
      refine ⟨hfirst.trans hlater, fun name hname hdot hdotdot => ?_⟩
      rcases List.mem_cons.mp hname with rfl | hname
      · exact ⟨s, r, ⟨rfl, List.Subset.refl _⟩, hr, hlater⟩
      · obtain ⟨s₁, r₁, h₁, hr₁, hend⟩ := hvisits name hname hdot hdotdot
        exact ⟨s₁, r₁, hfirst.trans h₁, hr₁, hend⟩

theorem rmRecursive_later (h : rmRecursive still cwd fuel path s = some r) : Later s r.2 := by
  induction fuel generalizing path s r with
  | zero => cases h
  | succ fuel ih =>
    rw [rmRecursive] at h
    split at h
    · obtain rfl := Option.some.inj h
      exact later_tick
    · split_ifs at h
      · obtain ⟨s', hloop, rfl⟩ := Option.map_eq_some_iff.mp h
        have hlater := (removeEntries_still (fun _ _ _ hr => ih hr) hloop).1
        exact (later_tick.trans later_tick).trans (hlater.trans (removing_still _).1)
      · obtain rfl := Option.some.inj h
        exact later_tick.trans later_tick
    · obtain rfl := Option.some.inj h
      exact later_tick.trans (removing_still _).1

theorem lstat_still (h : locate s.tree MAXSYMLINKS cwd path = some q) :
    lstat still cwd path s = (s.tree.node q).map fun n => (q, n) := by
  have hfound : still.lstat s.clock = true := rfl
  rw [lstat, if_pos hfound, h, Option.bind_some]

theorem rmRecursive_dir (hq : locate s.tree MAXSYMLINKS cwd path = some q) (hdir : s.tree.node q = some .dir) :
    rmRecursive still cwd (fuel + 1) path s =
      (removeEntries (rmRecursive still cwd fuel) path (DOT :: DOTDOT :: s.tree.names q) (tick (tick s))).map
        (rmdir still cwd path) := by
  have hopened : still.opendir (s.clock + 1) = true := rfl
  rw [rmRecursive, lstat_still hq, hdir]
  exact if_pos hopened

theorem rmRecursive_removes (hq : locate s.tree MAXSYMLINKS cwd path = some q)
    (h : rmRecursive still cwd fuel path s = some r) : ∃ c ∈ r.2.calls, c.path = path := by
  cases fuel with
  | zero => cases h
  | succ fuel =>
    obtain ⟨n, hn⟩ := Option.ne_none_iff_exists'.mp (node_locate hq)
    cases n with
    | dir =>
      rw [rmRecursive_dir hq hn] at h
      obtain ⟨s', -, rfl⟩ := Option.map_eq_some_iff.mp h
      exact (removing_still _).2
    | file =>
      rw [rmRecursive, lstat_still hq, hn] at h
      obtain rfl := Option.some.inj h
      exact (removing_still _).2
    | symlink text =>
      rw [rmRecursive, lstat_still hq, hn] at h
      obtain rfl := Option.some.inj h
      exact (removing_still _).2

theorem rmRecursive_visits (hq : locate s.tree MAXSYMLINKS cwd path = some q) (hname : name ∈ s.tree.names q)
    (h : rmRecursive still cwd (fuel + 1) path s = some r) :
    ∃ s₁ r₁, Later s s₁ ∧ rmRecursive still cwd fuel (sub path name) s₁ = some r₁ ∧ Later r₁.2 r.2 := by
  have hdir : s.tree.node q = some .dir := s.tree.names_ne_nil (List.ne_nil_of_mem hname)
  have hisName := s.tree.isName (s.tree.mem_names.mp hname)
  rw [rmRecursive_dir hq hdir] at h
  obtain ⟨s', hloop, rfl⟩ := Option.map_eq_some_iff.mp h
  obtain ⟨-, hvisits⟩ := removeEntries_still (fun _ _ _ hr => rmRecursive_later hr) hloop
  have hmem : name ∈ DOT :: DOTDOT :: s.tree.names q := List.mem_cons_of_mem _ (List.mem_cons_of_mem _ hname)
  obtain ⟨s₁, r₁, h₁, hr₁, hend⟩ := hvisits name hmem hisName.dot hisName.dotdot
  exact ⟨s₁, r₁, (later_tick.trans later_tick).trans h₁, hr₁, hend.trans (removing_still _).1⟩

theorem rmRecursive_endless (hlen : path.length = 511) (hq : locate s.tree MAXSYMLINKS cwd path = some q)
    (hname : name ∈ s.tree.names q) : rmRecursive still cwd fuel path s = none := by
  have hsub : sub path name = path := by
    rw [sub, snprintf, List.take_append_of_le_length (by omega), List.take_of_length_le (by omega)]
  induction fuel generalizing s with
  | zero => rfl
  | succ fuel ih =>
    by_contra hsome
    obtain ⟨r, hr⟩ := Option.ne_none_iff_exists'.mp hsome
    obtain ⟨s₁, r₁, h₁, hr₁, -⟩ := rmRecursive_visits hq hname hr
    rw [hsub, ih (by rw [h₁.tree, hq]) (by rwa [h₁.tree])] at hr₁
    cases hr₁

end Still

section Reached

variable {t : Tree} {cwd a : Place} {arg : Str} {r : ℤ × State} {fuel : ℕ}

def Reached (t : Tree) (cwd : Place) (r : ℤ × State) (path : Str) : Prop :=
  ∃ fuel s r', s.tree = t ∧ rmRecursive still cwd fuel path s = some r' ∧ Later r'.2 r.2

theorem Reached.entry {path name : Str} {q : Place} (h : Reached t cwd r path)
    (hq : locate t MAXSYMLINKS cwd path = some q) (hname : name ∈ t.names q) :
    Reached t cwd r (sub path name) := by
  obtain ⟨fuel, s, r', rfl, hr', hlater⟩ := h
  cases fuel with
  | zero => cases hr'
  | succ fuel =>
    obtain ⟨s₁, r₁, h₁, hr₁, hend⟩ := rmRecursive_visits hq hname hr'
    exact ⟨fuel, s₁, r₁, h₁.tree, hr₁, hend.trans hlater⟩

-- From the argument down to the entry, as long as the paths fit.
theorem reached_spell (h : Reached t cwd r arg) (ha : locate t MAXSYMLINKS cwd arg = some a) {below : Place}
    (hnode : t.node (below ++ a) ≠ none) (hshort : below = [] ∨ (spell arg below).length < 512) :
    Reached t cwd r (spell arg below) := by
  induction below with
  | nil => exact h
  | cons name below ih =>
    have hchild : name ∈ t.names (below ++ a) := t.mem_names.mpr hnode
    have hup : t.node (below ++ a) ≠ none := t.parent_ne_none hnode
    have hlen : (spell arg (name :: below)).length < 512 := hshort.resolve_left (List.cons_ne_nil _ _)
    have hlen' : (spell arg below).length < 512 := by
      rw [spell, List.length_append] at hlen
      omega
    have hsub : sub (spell arg below) name = spell arg (name :: below) := snprintf_of_lt hlen
    rw [← hsub]
    exact (ih hup (.inr hlen')).entry (locate_spell ha hup) hchild

theorem first_long {below : Place} (hne : below ≠ []) (hnode : t.node (below ++ a) ≠ none)
    (hlong : 512 ≤ (spell arg below).length) :
    ∃ name low, t.node (name :: low ++ a) ≠ none ∧ 512 ≤ (spell arg (name :: low)).length ∧
      (low = [] ∨ (spell arg low).length < 512) ∧
      (spell arg below).take 511 = (spell arg (name :: low)).take 511 := by
  induction below with
  | nil => exact absurd rfl hne
  | cons name below ih =>
    by_cases hshort : below = [] ∨ (spell arg below).length < 512
    · exact ⟨name, below, hnode, hlong, hshort, rfl⟩
    · obtain ⟨hnil, hlen⟩ := not_or.mp hshort
      have hup : t.node (below ++ a) ≠ none := t.parent_ne_none hnode
      obtain ⟨name', low, h⟩ := ih hnil hup (Nat.not_lt.mp hlen)
      refine ⟨name', low, h.1, h.2.1, h.2.2.1, ?_⟩
      rw [spell, List.take_append_of_le_length (by omega)]
      exact h.2.2.2

theorem spelled_of_staysInside (h : StaysInside t cwd arg) : Spelled t cwd arg := by
  intro a below ha hne hnode hlong q hq
  obtain ⟨enough, henough⟩ := h still
  obtain ⟨r, hr, hinside⟩ := henough enough (le_refl _)
  have harg : Reached t cwd r arg := ⟨enough, initial t, r, rfl, hr, rfl, List.Subset.refl _⟩
  obtain ⟨name, low, hchild, hlong', hshort, hcut⟩ := first_long hne hnode hlong
  have hup : t.node (low ++ a) ≠ none := t.parent_ne_none hchild
  have hreached : Reached t cwd r (sub (spell arg low) name) :=
    (reached_spell harg ha hup hshort).entry (locate_spell ha hup) (t.mem_names.mpr hchild)
  have hsub : sub (spell arg low) name = (spell arg below).take 511 := hcut.symm
  rw [hsub] at hreached
  obtain ⟨fuel, s, r', rfl, hr', hlater⟩ := hreached
  constructor
  · obtain ⟨c, hc, hpath⟩ := rmRecursive_removes hq hr'
    obtain ⟨a', inner, ha', hinner, -⟩ := hinside c (hlater.calls hc)
    obtain rfl := Option.some.inj (ha'.symm.trans ha)
    rw [hpath, hq] at hinner
    exact ⟨inner, Option.some.inj hinner⟩
  · by_contra hnames
    obtain ⟨entry, hentry⟩ := List.exists_mem_of_ne_nil _ hnames
    have hlen : ((spell arg below).take 511).length = 511 := by
      rw [List.length_take]
      omega
    rw [rmRecursive_endless hlen hq hentry] at hr'
    cases hr'

end Reached

theorem staysInside_iff (t : Tree) (cwd : Place) (arg : Str) : StaysInside t cwd arg ↔ Spelled t cwd arg :=
  ⟨spelled_of_staysInside, staysInside_of_spelled⟩

-- A file `a` beside a directory `ab` with an entry, and the directory spelled in 512 bytes.
def crowdedNode (p : Place) : Option Kind :=
  if p = [] then some .dir
  else if p = [bytes "a"] then some .file
  else if p = [bytes "ab"] then some .dir
  else if p = [bytes "c", bytes "ab"] then some .file
  else none

def crowdedPlaces : List Place := [[], [bytes "a"], [bytes "ab"], [bytes "c", bytes "ab"]]

theorem crowdedNode_mem {p : Place} (h : crowdedNode p ≠ none) : p ∈ crowdedPlaces := by
  unfold crowdedNode at h
  unfold crowdedPlaces
  split_ifs at h <;> simp_all

def crowded : Tree where
  node := crowdedNode
  places := crowdedPlaces
  mem_places := crowdedNode_mem
  root := rfl
  parent := by
    intro name p h
    have hparents : ∀ q ∈ crowdedPlaces, q ≠ [] → crowdedNode q.tail = some .dir := by decide
    exact hparents _ (crowdedNode_mem h) (List.cons_ne_nil _ _)
  isName := by
    intro name p h
    have hnames : ∀ q ∈ crowdedPlaces, ∀ name ∈ q.head?, name ≠ [] ∧ SLASH ∉ name ∧ name ≠ DOT ∧ name ≠ DOTDOT := by
      decide
    obtain ⟨hnil, hslash, hdot, hdotdot⟩ := hnames _ (crowdedNode_mem h) name rfl
    exact ⟨hnil, hslash, hdot, hdotdot⟩

def longArgument : Str := (List.replicate 255 (bytes "./")).flatten ++ bytes "ab"

theorem longArgument_leaves :
    arguments (bytes "rm -r " ++ longArgument ++ [NEWLINE]) = [bytes "rm", bytes "-r", longArgument] ∧
      (bytes "rm -r " ++ longArgument ++ [NEWLINE]).length ≤ 1023 ∧ ¬StaysInside crowded [] longArgument := by
  refine ⟨by decide +kernel, by decide +kernel, fun h => ?_⟩
  have harg : locate crowded MAXSYMLINKS [] longArgument = some [bytes "ab"] := by decide +kernel
  have hlong : 512 ≤ (spell longArgument [bytes "c"]).length := by decide +kernel
  have hcut : locate crowded MAXSYMLINKS [] ((spell longArgument [bytes "c"]).take 511) = some [bytes "a"] := by
    decide +kernel
  have hnode : crowded.node ([bytes "c"] ++ [bytes "ab"]) ≠ none := by decide
  obtain ⟨⟨inner, hinner⟩, -⟩ :=
    spelled_of_staysInside h _ [bytes "c"] harg (List.cons_ne_nil _ _) hnode hlong _ hcut
  have hlast := congrArg List.getLast? hinner
  rw [List.getLast?_append_of_ne_nil _ (List.cons_ne_nil _ _)] at hlast
  exact absurd hlast (by decide)

end Removal

end JurkOS.Userland
