import JurkOS.Lib.Libc

/-!
Path names. The parts of a path lead from a directory to another one; whatever
directory that is, they go some levels up and then down along names.
-/

namespace Lib.Paths

open Lib.Libc

def SLASH : UInt8 := 0x2F
def DOT : Str := bytes "."
def DOTDOT : Str := bytes ".."

def parts (path : Str) : List Str := (path.splitOn SLASH).filter fun part => part ≠ [] ∧ part ≠ DOT

/-- A directory is the list of the names on the way to it, the last one first. -/
def enter (dir : List Str) (part : Str) : List Str := if part = DOTDOT then dir.tail else part :: dir

def resolve (dir parts : List Str) : List Str := parts.foldl enter dir

def turn (route : ℕ × List Str) (part : Str) : ℕ × List Str :=
  if part = DOTDOT then
    if route.2 = [] then (route.1 + 1, []) else (route.1, route.2.tail)
  else (route.1, part :: route.2)

def route (parts : List Str) : ℕ × List Str := parts.foldl turn (0, [])

def follow (dir : List Str) (route : ℕ × List Str) : List Str := route.2 ++ dir.drop route.1

def canonical (path : Str) : List Str := resolve [] (parts path)

theorem enter_follow (dir : List Str) (route : ℕ × List Str) (part : Str) :
    enter (follow dir route) part = follow dir (turn route part) := by
  obtain ⟨up, down⟩ := route
  rw [enter, turn]
  split_ifs with hparent hdown
  · have hnil : down = [] := hdown
    rw [hnil]
    exact List.tail_drop
  · obtain ⟨name, rest, hcons⟩ := List.exists_cons_of_ne_nil hdown
    have hcons : down = name :: rest := hcons
    rw [hcons]
    rfl
  · rfl

theorem foldl_enter (dir : List Str) (start : ℕ × List Str) (parts : List Str) :
    parts.foldl enter (follow dir start) = follow dir (parts.foldl turn start) := by
  induction parts generalizing start with
  | nil => rfl
  | cons part parts ih =>
    rw [List.foldl_cons, List.foldl_cons, enter_follow]
    exact ih (turn start part)

theorem resolve_eq_follow (dir parts : List Str) : resolve dir parts = follow dir (route parts) :=
  foldl_enter dir (0, []) parts

theorem resolve_append (dir : List Str) (ps qs : List Str) :
    resolve dir (ps ++ qs) = resolve (resolve dir ps) qs := List.foldl_append

theorem parts_append (path rest : Str) : parts (path ++ SLASH :: rest) = parts path ++ parts rest := by
  rw [parts, List.splitOn_append_cons_self, List.filter_append]
  rfl

theorem canonical_append (path rest : Str) :
    canonical (path ++ SLASH :: rest) = follow (canonical path) (route (parts rest)) := by
  rw [canonical, parts_append, resolve_append, resolve_eq_follow]
  rfl

structure IsName (name : Str) : Prop where
  nonempty : name ≠ []
  slash : SLASH ∉ name
  dot : name ≠ DOT
  dotdot : name ≠ DOTDOT

theorem parts_of_isName {name : Str} (h : IsName name) : parts name = [name] := by
  have hsplit : name.splitOn SLASH = [name] := List.splitOn_eq_singleton h.slash
  rw [parts, hsplit]
  exact List.filter_cons_of_pos (by simp [h.nonempty, h.dot])

theorem route_of_isName {name : Str} (h : IsName name) : route (parts name) = (0, [name]) := by
  rw [parts_of_isName h]
  exact if_neg h.dotdot

end Lib.Paths
