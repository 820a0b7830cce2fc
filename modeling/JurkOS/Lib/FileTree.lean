import JurkOS.Lib.Paths
import Mathlib.Logic.Function.Basic

/-!
Trees of files, directories and symbolic links, and the paths that lead through
them. A place is the list of the names on the way to it, the last one first.
-/

namespace Lib.FileTree

open Lib.Libc Lib.Paths

inductive Kind
  | file
  | dir
  | symlink (text : Str)
  deriving DecidableEq

abbrev Place := List Str

structure Tree where
  node : Place → Option Kind
  places : List Place
  mem_places : ∀ {p}, node p ≠ none → p ∈ places
  root : node [] = some .dir
  parent : ∀ {name p}, node (name :: p) ≠ none → node p = some .dir
  isName : ∀ {name p}, node (name :: p) ≠ none → IsName name

namespace Tree

variable (t : Tree)

def child (p : Place) : Place → Option Str
  | [] => none
  | name :: q => if q = p ∧ t.node (name :: q) ≠ none then some name else none

def names (p : Place) : List Str := t.places.filterMap (t.child p)

theorem mem_names {name : Str} {p : Place} : name ∈ t.names p ↔ t.node (name :: p) ≠ none := by
  rw [names, List.mem_filterMap]
  constructor
  · rintro ⟨q, -, hq⟩
    cases q with
    | nil => cases hq
    | cons head q =>
      rw [child] at hq
      split_ifs at hq with h
      obtain rfl := Option.some.inj hq
      exact h.1 ▸ h.2
  · intro h
    exact ⟨name :: p, t.mem_places h, if_pos ⟨rfl, h⟩⟩

theorem parent_ne_none {name : Str} {p : Place} (h : t.node (name :: p) ≠ none) : t.node p ≠ none := by
  rw [t.parent h]
  exact Option.some_ne_none _

theorem names_ne_nil {p : Place} (h : t.names p ≠ []) : t.node p = some .dir := by
  obtain ⟨name, hname⟩ := List.exists_mem_of_ne_nil _ h
  exact t.parent (t.mem_names.mp hname)

def depth : ℕ := t.places.foldr (fun p n => max p.length n) 0

theorem length_le_foldr {l : List Place} {p : Place} (h : p ∈ l) :
    p.length ≤ l.foldr (fun p n => max p.length n) 0 := by
  induction l with
  | nil => cases h
  | cons q l ih =>
    rw [List.foldr_cons]
    rcases List.mem_cons.mp h with rfl | h
    · exact le_max_left _ _
    · exact (ih h).trans (le_max_right _ _)

theorem length_le_depth {p : Place} (h : t.node p ≠ none) : p.length ≤ t.depth := length_le_foldr (t.mem_places h)

def erase (p : Place) : Tree :=
  if h : p ≠ [] ∧ t.names p = [] then
    { node := Function.update t.node p none
      places := t.places
      mem_places := by
        intro q hq
        apply t.mem_places
        rw [Function.update_apply] at hq
        split_ifs at hq
        · exact absurd rfl hq
        · exact hq
      root := by rw [Function.update_of_ne h.1.symm, t.root]
      parent := by
        intro name q hq
        rw [Function.update_apply] at hq
        split_ifs at hq with hchild
        · exact absurd rfl hq
        have hne : q ≠ p := by
          rintro rfl
          have hmem := t.mem_names.mpr hq
          rw [h.2] at hmem
          cases hmem
        rw [Function.update_of_ne hne]
        exact t.parent hq
      isName := by
        intro name q hq
        rw [Function.update_apply] at hq
        split_ifs at hq
        · exact absurd rfl hq
        · exact t.isName hq }
  else t

def Remains (t' t : Tree) : Prop := ∀ p, t'.node p = none ∨ t'.node p = t.node p

variable {t} {t' t'' : Tree}

theorem Remains.refl : Remains t t := fun _ => .inr rfl

theorem Remains.erase (h : Remains t' t) (p : Place) : Remains (t'.erase p) t := by
  intro q
  unfold Tree.erase
  split_ifs
  · change Function.update t'.node p none q = none ∨ Function.update t'.node p none q = t.node q
    rw [Function.update_apply]
    split_ifs
    · exact .inl rfl
    · exact h q
  · exact h q

theorem Remains.node (h : Remains t' t) {p : Place} {n : Kind} (hn : t'.node p = some n) : t.node p = some n := by
  rcases h p with hp | hp
  · rw [hp] at hn
    cases hn
  · rw [← hp, hn]

theorem Remains.names (h : Remains t' t) {p : Place} {name : Str} (hname : name ∈ t'.names p) : name ∈ t.names p := by
  rw [mem_names] at hname ⊢
  obtain ⟨n, hn⟩ := Option.ne_none_iff_exists'.mp hname
  rw [h.node hn]
  exact Option.some_ne_none n

end Tree

def start (place : Place) (path : Str) : Place := if path.head? = some SLASH then [] else place

variable (t : Tree) (jump : Place → List Str → Option Place)

def arrive (go : Place → Option Place) (place : Place) (name : Str) (rest : List Str) : Option Place :=
  match t.node (name :: place) with
  | none => none
  | some .file => if rest = [] then some (name :: place) else none
  | some .dir => go (name :: place)
  | some (.symlink text) =>
    if rest = [] then some (name :: place) else jump (start place text) (text.splitOn SLASH ++ rest)

def descend : Place → List Str → Option Place
  | place, [] => some place
  | place, part :: rest =>
    if part = [] ∨ part = DOT then descend place rest
    else if part = DOTDOT then descend place.tail rest
    else arrive t jump (fun place => descend place rest) place part rest

def walk : ℕ → Place → List Str → Option Place
  | 0 => descend t fun _ _ => none
  | links + 1 => descend t (walk links)

def locate (links : ℕ) (cwd : Place) (path : Str) : Option Place :=
  if path = [] then none
  else (walk t links (start cwd path) (path.splitOn SLASH)).filter fun p => (t.node p).isSome

section Remains

variable {t t' : Tree} (h : t'.Remains t)

include h

theorem arrive_remains {jump jump' : Place → List Str → Option Place} {go go' : Place → Option Place}
    (hjump : ∀ place parts, jump' place parts = none ∨ jump' place parts = jump place parts)
    (hgo : ∀ place, go' place = none ∨ go' place = go place) (place : Place) (name : Str) (rest : List Str) :
    arrive t' jump' go' place name rest = none ∨
      arrive t' jump' go' place name rest = arrive t jump go place name rest := by
  unfold arrive
  rcases h (name :: place) with hnone | heq
  · rw [hnone]
    exact .inl rfl
  · rw [heq]
    rcases t.node (name :: place) with _ | _ | _ | text
    · exact .inl rfl
    · exact .inr rfl
    · exact hgo _
    · by_cases hrest : rest = []
      · simp [hrest]
      · simpa [hrest] using hjump _ _

-- Along the parts: as long as the nodes are there, they are the same ones.
theorem descend_remains {jump jump' : Place → List Str → Option Place}
    (hjump : ∀ place parts, jump' place parts = none ∨ jump' place parts = jump place parts) (place : Place)
    (parts : List Str) :
    descend t' jump' place parts = none ∨ descend t' jump' place parts = descend t jump place parts := by
  induction parts generalizing place with
  | nil => exact .inr rfl
  | cons part rest ih =>
    simp only [descend]
    split_ifs
    · exact ih place
    · exact ih place.tail
    · exact arrive_remains h hjump ih place part rest

theorem walk_remains (links : ℕ) (place : Place) (parts : List Str) :
    walk t' links place parts = none ∨ walk t' links place parts = walk t links place parts := by
  induction links generalizing place parts with
  | zero => exact descend_remains h (fun _ _ => .inl rfl) place parts
  | succ links ih => exact descend_remains h ih place parts

theorem locate_remains (links : ℕ) (cwd : Place) (path : Str) :
    locate t' links cwd path = none ∨ locate t' links cwd path = locate t links cwd path := by
  unfold locate
  split_ifs
  · exact .inl rfl
  · rcases walk_remains h links (start cwd path) (path.splitOn SLASH) with hnone | heq
    · rw [hnone]
      exact .inl rfl
    · rw [heq]
      cases walk t links (start cwd path) (path.splitOn SLASH) with
      | none => exact .inl rfl
      | some p =>
        rcases h p with hp | hp
        · exact .inl (by simp [hp])
        · exact .inr (by simp [Option.filter, hp])

end Remains

theorem node_locate {t : Tree} {links : ℕ} {cwd q : Place} {path : Str} (h : locate t links cwd path = some q) :
    t.node q ≠ none := by
  unfold locate at h
  split_ifs at h
  rw [Option.filter_eq_some_iff] at h
  exact Option.isSome_iff_ne_none.mp h.2

section Child

variable {t : Tree} {q : Place} {name : Str} (hdir : t.node q = some .dir) (hname : IsName name)

include hdir hname

omit hname in
theorem arrive_child {jump : Place → List Str → Option Place} {go go' : Place → Option Place}
    (hjump : ∀ place parts, jump place parts = some q →
      jump place (parts ++ [name]) = (t.node (name :: q)).map fun _ => name :: q)
    (hgo : ∀ place, go place = some q → go' place = (t.node (name :: q)).map fun _ => name :: q)
    {place : Place} {part : Str} {rest : List Str} (h : arrive t jump go place part rest = some q) :
    arrive t jump go' place part (rest ++ [name]) = (t.node (name :: q)).map fun _ => name :: q := by
  have hrest : rest ++ [name] ≠ [] := List.append_ne_nil_of_right_ne_nil _ (List.cons_ne_nil _ _)
  unfold arrive at h ⊢
  cases hnode : t.node (part :: place) with
  | none =>
    rw [hnode] at h
    cases h
  | some node =>
    rw [hnode] at h
    cases node with
    | file =>
      by_cases hnil : rest = []
      · obtain rfl : part :: place = q := by simpa [hnil] using h
        rw [hdir] at hnode
        cases hnode
      · simp [hnil] at h
    | dir => exact hgo _ h
    | symlink text =>
      by_cases hnil : rest = []
      · obtain rfl : part :: place = q := by simpa [hnil] using h
        rw [hdir] at hnode
        cases hnode
      · have h : jump (start place text) (text.splitOn SLASH ++ rest) = some q := by simpa [hnil] using h
        have hjump := hjump _ _ h
        rw [List.append_assoc] at hjump
        simpa [hrest] using hjump

theorem descend_child {jump : Place → List Str → Option Place}
    (hjump : ∀ place parts, jump place parts = some q →
      jump place (parts ++ [name]) = (t.node (name :: q)).map fun _ => name :: q)
    {place : Place} {parts : List Str} (h : descend t jump place parts = some q) :
    descend t jump place (parts ++ [name]) = (t.node (name :: q)).map fun _ => name :: q := by
  induction parts generalizing place with
  | nil =>
    obtain rfl := Option.some.inj h
    have hplain : ¬(name = [] ∨ name = DOT) := not_or.mpr ⟨hname.nonempty, hname.dot⟩
    rw [List.nil_append, descend, if_neg hplain, if_neg hname.dotdot, arrive]
    rcases t.node (name :: place) with _ | _ | _ | text <;> rfl
  | cons part rest ih =>
    rw [descend] at h
    rw [List.cons_append, descend]
    split_ifs at h ⊢
    · exact ih h
    · exact ih h
    · exact arrive_child hdir hjump (fun place hplace => ih hplace) h

theorem walk_child {links : ℕ} {place : Place} {parts : List Str} (h : walk t links place parts = some q) :
    walk t links place (parts ++ [name]) = (t.node (name :: q)).map fun _ => name :: q := by
  induction links generalizing place parts with
  | zero =>
    apply descend_child hdir hname _ h
    intro place parts hnone
    cases hnone
  | succ links ih => exact descend_child hdir hname (fun _ _ hjump => ih hjump) h

theorem locate_child {links : ℕ} {cwd : Place} {path : Str} (h : locate t links cwd path = some q) :
    locate t links cwd (path ++ SLASH :: name) = (t.node (name :: q)).map fun _ => name :: q := by
  unfold locate at h ⊢
  split_ifs at h with hnil
  rw [Option.filter_eq_some_iff] at h
  have hsplit : (path ++ SLASH :: name).splitOn SLASH = path.splitOn SLASH ++ [name] := by
    rw [List.splitOn_append_cons_self, List.splitOn_eq_singleton hname.slash]
  have hstart : start cwd (path ++ SLASH :: name) = start cwd path := by
    rw [start, start, List.head?_append_of_ne_nil _ hnil]
  have hne : path ++ SLASH :: name ≠ [] := List.append_ne_nil_of_left_ne_nil hnil _
  rw [if_neg hne, hsplit, hstart, walk_child hdir hname h.1]
  cases hnode : t.node (name :: q) with
  | none => rfl
  | some n => simp [hnode]

end Child

end Lib.FileTree
