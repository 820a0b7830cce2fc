import JurkOS.Lib.Libc

/-!
Searching text that is built of tags: an occurrence of a tag lies between two marks
that begin tags, so a search goes through the text piece by piece.
-/

namespace Lib.Markup

open Lib.Libc

def LESS : UInt8 := 0x3C
def GREATER : UInt8 := 0x3E

def tag (name : Str) : Str := LESS :: (name ++ [GREATER])

structure IsTagName (name : Str) : Prop where
  lt : LESS ∉ name
  gt : GREATER ∉ name

variable {m : UInt8} {p q A B : Str} {s t : Str}

theorem tag_ne_nil (name : Str) : tag name ≠ [] := List.cons_ne_nil _ _

theorem IsTagName.rest (h : IsTagName t) : LESS ∉ t ++ [GREATER] := by
  rw [List.mem_append, not_or]
  exact ⟨h.lt, by decide⟩

theorem prefix_of_append (hq : m ∉ q) (hB : B.head? = some m) (h : q <+: A ++ B) : q <+: A := by
  induction A generalizing q with
  | nil =>
    cases q with
    | nil => exact List.nil_prefix
    | cons c q =>
      cases B with
      | nil => cases hB
      | cons b B =>
        obtain rfl := Option.some.inj hB
        exact absurd (List.cons_prefix_cons.mp h).1 (Ne.symm (List.ne_of_not_mem_cons hq))
  | cons a A ih =>
    cases q with
    | nil => exact List.nil_prefix
    | cons c q =>
      obtain ⟨rfl, hrest⟩ := List.cons_prefix_cons.mp h
      exact List.cons_prefix_cons.mpr ⟨rfl, ih (List.not_mem_of_not_mem_cons hq) hrest⟩

theorem strstr_append (hq : m ∉ q) (hB : B.head? = some m) :
    strstr (m :: q) (A ++ B) = (strstr (m :: q) A).or ((strstr (m :: q) B).map (· + A.length)) := by
  induction A with
  | nil => simp [strstr]
  | cons a A ih =>
    have hpre : m :: q <+: a :: (A ++ B) ↔ m :: q <+: a :: A := by
      rw [List.cons_prefix_cons, List.cons_prefix_cons]
      exact and_congr_right fun _ =>
        ⟨prefix_of_append hq hB, fun h => h.trans (List.prefix_append A B)⟩
    simp only [List.cons_append, strstr, List.isPrefixOf_iff_prefix, hpre, ih]
    split_ifs
    · rfl
    · cases strstr (m :: q) A with
      | some i => rfl
      | none =>
        simp only [Option.map_none, Option.none_or, Option.map_map]
        congr 1

theorem strstr_skip (hA : m ∉ A) (s : Str) :
    strstr (m :: q) (A ++ s) = (strstr (m :: q) s).map (· + A.length) := by
  induction A with
  | nil => simp
  | cons a A ih =>
    have hpre : ¬m :: q <+: a :: (A ++ s) := fun h =>
      absurd (List.cons_prefix_cons.mp h).1 (List.ne_of_not_mem_cons hA)
    simp only [List.cons_append, strstr, List.isPrefixOf_iff_prefix, if_neg hpre,
      ih (List.not_mem_of_not_mem_cons hA), Option.map_map]
    congr 1

theorem tag_initial (hs : GREATER ∉ s) (ht : GREATER ∉ t) {w : Str} (h : tag s <+: tag t ++ w) : s = t := by
  obtain ⟨x, hx⟩ := h
  have hinner : s ++ ([GREATER] ++ x) = t ++ ([GREATER] ++ w) := by
    have := (List.cons.inj hx).2
    simpa using this
  have hcut (u y : Str) (hu : GREATER ∉ u) : (u ++ ([GREATER] ++ y)).takeWhile (· ≠ GREATER) = u := by
    rw [List.takeWhile_append_of_pos]
    · simp
    · intro c hc
      rw [decide_eq_true_eq]
      rintro rfl
      exact hu hc
  rw [← hcut s x hs, hinner, hcut t w ht]

theorem strstr_tag_append (hs : IsTagName s) (hB : B.head? = some LESS) :
    strstr (tag s) (A ++ B) = (strstr (tag s) A).or ((strstr (tag s) B).map (· + A.length)) :=
  strstr_append hs.rest hB

theorem strstr_tag_skip (hA : LESS ∉ A) (w : Str) :
    strstr (tag s) (A ++ w) = (strstr (tag s) w).map (· + A.length) := strstr_skip hA w

theorem strstr_skip_tag (hs : IsTagName s) (ht : IsTagName t) (hne : s ≠ t) (w : Str) :
    strstr (tag s) (tag t ++ w) = (strstr (tag s) w).map (· + (tag t).length) := by
  have hpre : ¬tag s <+: tag t ++ w := fun h => hne (tag_initial hs.gt ht.gt h)
  have hskip := strstr_skip (q := s ++ [GREATER]) ht.rest w
  simp only [tag, List.cons_append] at hpre ⊢
  simp only [strstr, List.isPrefixOf_iff_prefix, if_neg hpre, hskip, Option.map_map]
  congr 1

theorem strstr_tag (w : Str) : strstr (tag t) (tag t ++ w) = some 0 := by
  have hpre : (tag t).isPrefixOf (LESS :: (t ++ [GREATER] ++ w)) = true :=
    List.isPrefixOf_iff_prefix.mpr (List.prefix_append (tag t) w)
  exact if_pos hpre

end Lib.Markup
