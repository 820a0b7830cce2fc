import Mathlib.Data.List.Dedup
import Mathlib.Data.List.Perm.Subperm
import Mathlib.Data.List.Induction

/-!
A list that takes items as they come, each once and no blank one, for as long as
it has room.
-/

namespace Lib.Roster

variable {α : Type} [DecidableEq α]

def enlist (blank : α) (room : ℕ) (l : List α) (x : α) : List α :=
  if x ≠ blank ∧ l.length < room ∧ ∀ y ∈ l, y ≠ x then l ++ [x] else l

def roster (blank : α) (room : ℕ) (items : List α) : List α := items.foldl (enlist blank room) []

def distinct (blank : α) (items : List α) : ℕ := (items.filter (· ≠ blank)).dedup.length

variable {blank x : α} {room : ℕ} {l items : List α}

theorem enlist_skip (h : x = blank ∨ x ∈ l ∨ room ≤ l.length) : enlist blank room l x = l := by
  apply if_neg
  rintro ⟨hne, hroom, hnew⟩
  rcases h with hblank | hold | hfull
  · exact hne hblank
  · exact hnew x hold rfl
  · omega

theorem enlist_new (hne : x ≠ blank) (hnew : x ∉ l) (hroom : l.length < room) : enlist blank room l x = l ++ [x] :=
  if_pos ⟨hne, hroom, fun _ hy heq => hnew (heq ▸ hy)⟩

theorem enlist_cases (blank : α) (room : ℕ) (l : List α) (x : α) :
    (x = blank ∨ x ∈ l ∨ room ≤ l.length) ∧ enlist blank room l x = l ∨
      (x ≠ blank ∧ x ∉ l ∧ l.length < room) ∧ enlist blank room l x = l ++ [x] := by
  by_cases hskip : x = blank ∨ x ∈ l ∨ room ≤ l.length
  · exact .inl ⟨hskip, enlist_skip hskip⟩
  · rw [not_or, not_or, Nat.not_le] at hskip
    exact .inr ⟨hskip, enlist_new hskip.1 hskip.2.1 hskip.2.2⟩

theorem roster_concat (blank : α) (room : ℕ) (items : List α) (x : α) :
    roster blank room (items ++ [x]) = enlist blank room (roster blank room items) x := List.foldl_concat ..

theorem foldl_enlist_full (hfull : room ≤ l.length) : items.foldl (enlist blank room) l = l := by
  induction items with
  | nil => rfl
  | cons x items ih => rw [List.foldl_cons, enlist_skip (.inr (.inr hfull)), ih]

theorem mem_of_mem_roster (h : x ∈ roster blank room items) : x ∈ items ∧ x ≠ blank := by
  induction items using List.reverseRecOn with
  | nil => cases h
  | append_singleton items last ih =>
    have hbefore (hold : x ∈ roster blank room items) : x ∈ items ++ [last] ∧ x ≠ blank :=
      ⟨List.mem_append_left _ (ih hold).1, (ih hold).2⟩
    rw [roster_concat] at h
    obtain ⟨-, heq⟩ | ⟨⟨hne, -, -⟩, heq⟩ := enlist_cases blank room (roster blank room items) last
    · exact hbefore (heq ▸ h)
    · rw [heq, List.mem_append, List.mem_singleton] at h
      rcases h with h | rfl
      · exact hbefore h
      · exact ⟨by simp, hne⟩

theorem roster_nodup (blank : α) (room : ℕ) (items : List α) : (roster blank room items).Nodup := by
  induction items using List.reverseRecOn with
  | nil => exact List.nodup_nil
  | append_singleton items last ih =>
    rw [roster_concat]
    obtain ⟨-, heq⟩ | ⟨⟨-, hnew, -⟩, heq⟩ := enlist_cases blank room (roster blank room items) last
    · rwa [heq]
    · rw [heq, ← List.concat_eq_append, List.nodup_concat]
      exact ⟨hnew, ih⟩

theorem length_roster_le (blank : α) (room : ℕ) (items : List α) : (roster blank room items).length ≤ room := by
  induction items using List.reverseRecOn with
  | nil => exact Nat.zero_le _
  | append_singleton items last ih =>
    rw [roster_concat]
    obtain ⟨-, heq⟩ | ⟨⟨-, -, hroom⟩, heq⟩ := enlist_cases blank room (roster blank room items) last
    · rwa [heq]
    · rw [heq, List.length_append, List.length_singleton]
      exact hroom

theorem mem_roster (hroom : (roster blank room items).length < room) (h : x ∈ items) (hne : x ≠ blank) :
    x ∈ roster blank room items := by
  induction items using List.reverseRecOn with
  | nil => cases h
  | append_singleton items last ih =>
    rw [roster_concat] at hroom ⊢
    rw [List.mem_append, List.mem_singleton] at h
    obtain ⟨hskip, heq⟩ | ⟨-, heq⟩ := enlist_cases blank room (roster blank room items) last
    · rw [heq] at hroom ⊢
      rcases h with h | rfl
      · exact ih hroom h
      · exact (hskip.resolve_left hne).resolve_right (by omega)
    · rw [heq] at hroom ⊢
      rw [List.length_append, List.length_singleton] at hroom
      rcases h with h | rfl
      · exact List.mem_append_left _ (ih (by omega) h)
      · simp

theorem length_roster (blank : α) (room : ℕ) (items : List α) :
    (roster blank room items).length = min room (distinct blank items) := by
  have hmem (x : α) : x ∈ (items.filter (· ≠ blank)).dedup ↔ x ∈ items ∧ x ≠ blank := by simp
  have hle : (roster blank room items).length ≤ distinct blank items :=
    ((roster_nodup blank room items).subperm fun _ h => (hmem _).mpr (mem_of_mem_roster h)).length_le
  have hmax := length_roster_le blank room items
  by_cases hroom : (roster blank room items).length < room
  · have hge : distinct blank items ≤ (roster blank room items).length :=
      ((List.nodup_dedup _).subperm fun x h =>
        mem_roster hroom ((hmem x).mp h).1 ((hmem x).mp h).2).length_le
    omega
  · omega

theorem le_distinct_iff {k : ℕ} :
    k ≤ distinct blank items ↔ ∃ l : List α, l.Nodup ∧ l.length = k ∧ ∀ x ∈ l, x ≠ blank ∧ x ∈ items := by
  constructor
  · intro h
    refine ⟨(items.filter (· ≠ blank)).dedup.take k, (List.nodup_dedup _).sublist (List.take_sublist _ _),
      List.length_take_of_le h, fun x hx => ?_⟩
    have hmem := List.mem_of_mem_take hx
    simpa [and_comm] using hmem
  · rintro ⟨l, hl, rfl, hmem⟩
    apply List.Subperm.length_le
    apply hl.subperm
    intro x hx
    simpa [and_comm] using hmem x hx

theorem distinct_old (h : x = blank ∨ x ∈ items) : distinct blank (x :: items) = distinct blank items := by
  unfold distinct
  by_cases hblank : x = blank
  · rw [List.filter_cons_of_neg (by simp [hblank])]
  · rw [List.filter_cons_of_pos (by simp [hblank]), List.dedup_cons_of_mem]
    simpa [hblank] using h.resolve_left hblank

theorem distinct_new (hne : x ≠ blank) (hnew : x ∉ items) : distinct blank (x :: items) = distinct blank items + 1 := by
  unfold distinct
  rw [List.filter_cons_of_pos (by simp [hne]), List.dedup_cons_of_notMem, List.length_cons]
  simp [hnew]

theorem distinct_append_le (blank : α) (items items' : List α) :
    distinct blank items ≤ distinct blank (items ++ items') := by
  unfold distinct
  apply List.Subperm.length_le
  apply (List.nodup_dedup _).subperm
  intro x hx
  simp only [List.mem_dedup, List.mem_filter, List.mem_append] at hx ⊢
  exact ⟨.inl hx.1, hx.2⟩

theorem distinct_middle (blank x : α) (items items' : List α) :
    distinct blank (items ++ x :: items') = distinct blank (x :: (items ++ items')) :=
  ((List.perm_middle.filter _).dedup).length_eq

end Lib.Roster
