import Mathlib.Data.List.Basic

/-!
Fields of a fixed width that are filled up behind their text, and two texts joined
by a separator.
-/

namespace Lib.Fields

variable {α β : Type}

def padded (fill : α) (width : ℕ) (s : List α) : List α := s ++ List.replicate (width - s.length) fill

def joined (sep : α) (base ext : List α) : List α := if ext = [] then base else base ++ sep :: ext

variable {fill sep : α} {width : ℕ} {s t base ext base' ext' : List α}

theorem length_padded (h : s.length ≤ width) : (padded fill width s).length = width := by
  rw [padded, List.length_append, List.length_replicate]
  omega

theorem map_padded (f : α → β) : (padded fill width s).map f = padded (f fill) width (s.map f) := by
  rw [padded, padded, List.map_append, List.map_replicate, List.length_map]

theorem length_joined_le (sep : α) (base ext : List α) :
    (joined sep base ext).length ≤ base.length + 1 + ext.length := by
  rw [joined]
  split_ifs with hext
  · omega
  · rw [List.length_append, List.length_cons]
    omega

variable [DecidableEq α]

def text (fill : α) (field : List α) : List α := field.takeWhile (· ≠ fill)

def cut (sep : α) (s : List α) : List α × List α := (s.takeWhile (· ≠ sep), (s.dropWhile (· ≠ sep)).drop 1)

theorem takeWhile_of_notMem {a : α} (h : a ∉ s) (t : List α) :
    (s ++ t).takeWhile (· ≠ a) = s ++ t.takeWhile (· ≠ a) := by
  apply List.takeWhile_append_of_pos
  intro c hc
  rw [decide_eq_true_iff]
  rintro rfl
  exact h hc

theorem dropWhile_of_notMem {a : α} (h : a ∉ s) (t : List α) :
    (s ++ t).dropWhile (· ≠ a) = t.dropWhile (· ≠ a) := by
  apply List.dropWhile_append_of_pos
  intro c hc
  rw [decide_eq_true_iff]
  rintro rfl
  exact h hc

theorem text_padded (width : ℕ) (h : fill ∉ s) : text fill (padded fill width s) = s := by
  have hrest (n : ℕ) : (List.replicate n fill).takeWhile (· ≠ fill) = [] := by cases n <;> simp
  rw [text, padded, takeWhile_of_notMem h, hrest, List.append_nil]

theorem padded_inj (h : fill ∉ s) (h' : fill ∉ t) : padded fill width s = padded fill width t ↔ s = t := by
  constructor
  · intro he
    rw [← text_padded width h, he, text_padded width h']
  · rintro rfl
    rfl

theorem cut_joined (h : sep ∉ base) : cut sep (joined sep base ext) = (base, ext) := by
  unfold cut joined
  split_ifs with hext
  · have hbase := takeWhile_of_notMem h []
    have hnone := dropWhile_of_notMem h []
    rw [List.append_nil] at hbase hnone
    rw [hbase, hnone, hext]
    exact Prod.ext (List.append_nil base) rfl
  · have hstop : (sep :: ext).takeWhile (· ≠ sep) = [] := by simp
    have hkeep : (sep :: ext).dropWhile (· ≠ sep) = sep :: ext := by simp
    rw [takeWhile_of_notMem h, dropWhile_of_notMem h, hstop, hkeep, List.append_nil]
    rfl

theorem joined_inj (h : sep ∉ base) (h' : sep ∉ base') :
    joined sep base ext = joined sep base' ext' ↔ base = base' ∧ ext = ext' := by
  constructor
  · intro he
    have hcut := congrArg (cut sep) he
    rw [cut_joined h, cut_joined h'] at hcut
    exact Prod.mk.inj hcut
  · rintro ⟨rfl, rfl⟩
    rfl

end Lib.Fields
