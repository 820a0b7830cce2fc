import Mathlib.Data.List.DropRight
import Mathlib.Algebra.Order.Ring.Nat

/-!
C strings as lists of bytes, and the library calls that read and build them.
-/

namespace Lib.Libc

abbrev Str := List UInt8

def bytes (s : String) : Str := s.toList.map fun c => UInt8.ofNat c.toNat

def NEWLINE : UInt8 := 0x0A
def RETURN : UInt8 := 0x0D

def cstr (l : List UInt8) : Str := l.takeWhile (· ≠ 0)

def snprintf (size : ℕ) (s : Str) : Str := s.take (size - 1)

def readLine : ℕ → Str → Str
  | 0, _ => []
  | _, [] => []
  | n + 1, c :: s => if c = NEWLINE then [c] else c :: readLine n s

/-- What `fgets` puts into an array of `size` bytes, and what is left of the stream. -/
def fgets (size : ℕ) (stream : Str) : Option (Str × Str) :=
  if stream = [] then none
  else some (readLine (size - 1) stream, stream.drop (readLine (size - 1) stream).length)

/-- The position of the first occurrence of `needle`. -/
def strstr (needle : Str) : Str → Option ℕ
  | [] => if needle = [] then some 0 else none
  | c :: s => if needle.isPrefixOf (c :: s) then some 0 else (strstr needle s).map (· + 1)

def strchr (s : Str) (c : UInt8) : Option ℕ := s.findIdx? (· = c)

def strcmp : Str → Str → ℤ
  | [], [] => 0
  | [], d :: _ => -d.toNat
  | c :: _, [] => c.toNat
  | c :: s, d :: t => if c = d then strcmp s t else (c.toNat : ℤ) - d.toNat

structure CharArray (size : ℕ) where
  text : Str
  length_lt : text.length < size
  zero_notMem : 0 ∉ text
  deriving DecidableEq

variable {s t : Str} {n : ℕ}

theorem zero_notMem_cstr (s : Str) : 0 ∉ cstr s := by
  intro h
  have := List.mem_takeWhile_imp h
  simp at this

theorem cstr_initial (s : Str) : cstr s <+: s := List.takeWhile_prefix _

theorem cstr_of_notMem (h : 0 ∉ s) : cstr s = s := by
  rw [cstr, List.takeWhile_eq_self_iff]
  intro c hc
  rw [decide_eq_true_eq]
  rintro rfl
  exact h hc

theorem strcmp_le_zero_iff (hs : 0 ∉ s) : strcmp s t ≤ 0 ↔ s ≤ t := by
  induction s generalizing t with
  | nil =>
    cases t with
    | nil => simp [strcmp]
    | cons d t => simp [strcmp]
  | cons c s ih =>
    rw [List.mem_cons, not_or] at hs
    cases t with
    | nil =>
      have hc : c.toNat ≠ 0 := fun h => hs.1 (UInt8.toNat_inj.mp h).symm
      simp [strcmp, hc]
    | cons d t =>
      rw [strcmp, List.cons_le_cons_iff]
      split_ifs with hcd
      · rw [ih hs.2, hcd]
        simp
      · have hne : c.toNat ≠ d.toNat := fun h => hcd (UInt8.toNat_inj.mp h)
        rw [UInt8.lt_iff_toNat_lt]
        simp only [hcd, false_and, or_false]
        omega

theorem strcmp_eq_zero (hs : 0 ∉ s) (ht : 0 ∉ t) : strcmp s t = 0 ↔ s = t := by
  induction s generalizing t with
  | nil =>
    cases t with
    | nil => simp [strcmp]
    | cons d t =>
      rw [List.mem_cons, not_or] at ht
      have hd : d.toNat ≠ 0 := fun h => ht.1 (UInt8.toNat_inj.mp h).symm
      simp [strcmp, hd]
  | cons c s ih =>
    rw [List.mem_cons, not_or] at hs
    cases t with
    | nil =>
      have hc : c.toNat ≠ 0 := fun h => hs.1 (UInt8.toNat_inj.mp h).symm
      simp [strcmp, hc]
    | cons d t =>
      rw [List.mem_cons, not_or] at ht
      rw [strcmp, List.cons.injEq]
      split_ifs with hcd
      · rw [ih hs.2 ht.2, and_iff_right hcd]
      · have hne : c.toNat ≠ d.toNat := fun h => hcd (UInt8.toNat_inj.mp h)
        exact iff_of_false (by omega) fun h => hcd h.1

theorem snprintf_of_lt (h : s.length < n) : snprintf n s = s := List.take_of_length_le (by omega)

theorem strchr_eq_none {c : UInt8} (h : c ∉ s) : strchr s c = none := by
  simp only [strchr, List.findIdx?_eq_none_iff, decide_eq_false_iff_not]
  rintro x hx rfl
  exact h hx

theorem strchr_append {c : UInt8} (h : c ∉ s) (t : Str) : strchr (s ++ c :: t) c = some s.length := by
  have hbefore := strchr_eq_none h
  unfold strchr at *
  simp [List.findIdx?_append, hbefore, List.findIdx?_cons]

theorem strchr_behind {c d : UInt8} (h : c ∉ s) (hne : c ≠ d) (t : Str) :
    ∀ i, strchr (s ++ d :: t) c = some i → s.length < i := by
  intro i hi
  have hbefore := strchr_eq_none h
  unfold strchr at *
  simp only [List.findIdx?_append, hbefore, List.findIdx?_cons, decide_eq_true_eq, hne.symm, if_false, Option.none_or,
    Option.map_map, Option.map_eq_some_iff] at hi
  obtain ⟨j, -, rfl⟩ := hi
  simp only [Function.comp_apply]
  omega

theorem strstr_eq_none_iff {needle : Str} : strstr needle s = none ↔ ∀ i, ¬needle <+: s.drop i := by
  induction s with
  | nil => simp [strstr]
  | cons c s ih =>
    simp only [strstr, List.isPrefixOf_iff_prefix]
    constructor
    · intro h i
      split_ifs at h with hpre
      rw [Option.map_eq_none_iff, ih] at h
      cases i with
      | zero => exact hpre
      | succ i => exact h i
    · intro h
      have hpre : ¬needle <+: c :: s := h 0
      rw [if_neg hpre, Option.map_eq_none_iff, ih]
      exact fun i => h (i + 1)

theorem strstr_eq_none_iff_infix {needle : Str} : strstr needle s = none ↔ ¬needle <:+: s := by
  rw [strstr_eq_none_iff]
  constructor
  · rintro h ⟨x, y, rfl⟩
    exact h x.length (by rw [List.append_assoc, List.drop_left]; exact List.prefix_append needle y)
  · intro h i hi
    exact h (hi.isInfix.trans (List.drop_suffix i s).isInfix)

theorem strstr_eq_some_iff {needle : Str} (hne : needle ≠ []) {i : ℕ} :
    strstr needle s = some i ↔ needle <+: s.drop i ∧ ∀ j < i, ¬needle <+: s.drop j := by
  induction s generalizing i with
  | nil => simp [strstr, hne]
  | cons c s ih =>
    simp only [strstr, List.isPrefixOf_iff_prefix]
    split_ifs with hpre
    · constructor
      · rintro h
        cases h
        exact ⟨hpre, fun j hj => absurd hj (Nat.not_lt_zero j)⟩
      · rintro ⟨-, hleast⟩
        have hi : i = 0 := by
          by_contra hi
          exact hleast 0 (by omega) hpre
        rw [hi]
    · cases i with
      | zero => simpa using hpre
      | succ i =>
        rw [Option.map_eq_some_iff]
        simp only [Nat.add_right_cancel_iff, exists_eq_right, ih, List.drop_succ_cons]
        constructor
        · rintro ⟨hi, hleast⟩
          refine ⟨hi, fun j hj => ?_⟩
          cases j with
          | zero => exact hpre
          | succ j => exact hleast j (by omega)
        · rintro ⟨hi, hleast⟩
          exact ⟨hi, fun j hj => hleast (j + 1) (by omega)⟩

theorem strstr_fits {needle : Str} (hne : needle ≠ []) {i : ℕ} (h : strstr needle s = some i) :
    i + needle.length ≤ s.length := by
  have hlen := ((strstr_eq_some_iff hne).mp h).1.length_le
  have hpos : 0 < needle.length := List.length_pos_iff.mpr hne
  rw [List.length_drop] at hlen
  omega

theorem length_readLine_le (n : ℕ) (s : Str) : (readLine n s).length ≤ n := by
  induction n generalizing s with
  | zero => exact le_refl 0
  | succ n ih =>
    cases s with
    | nil => exact Nat.zero_le _
    | cons c s =>
      unfold readLine
      split_ifs
      · exact Nat.succ_le_succ (Nat.zero_le n)
      · exact Nat.succ_le_succ (ih s)

theorem readLine_of_notMem (h : NEWLINE ∉ s) (hlen : s.length ≤ n) : readLine n s = s := by
  induction s generalizing n with
  | nil =>
    cases n with
    | zero => rfl
    | succ n => rfl
  | cons c s ih =>
    cases n with
    | zero => exact absurd hlen (by simp)
    | succ n =>
      rw [List.mem_cons, not_or] at h
      rw [readLine, if_neg (Ne.symm h.1), ih h.2 (Nat.le_of_succ_le_succ hlen)]

theorem newline_notMem_dropLast (n : ℕ) (s : Str) : NEWLINE ∉ (readLine n s).dropLast := by
  induction n generalizing s with
  | zero => simp [readLine]
  | succ n ih =>
    cases s with
    | nil => simp [readLine]
    | cons c s =>
      unfold readLine
      split_ifs with hc
      · simp
      · cases hr : readLine n s with
        | nil => simp
        | cons d r =>
          have := ih s
          rw [hr] at this
          rw [List.dropLast_cons_cons, List.mem_cons, not_or]
          exact ⟨Ne.symm hc, this⟩

theorem fgets_length {chunk rest : Str} (h : fgets n s = some (chunk, rest)) : chunk.length ≤ n - 1 := by
  unfold fgets at h
  split_ifs at h
  obtain ⟨rfl, -⟩ := Prod.mk.inj (Option.some.inj h)
  exact length_readLine_le _ _

theorem fgets_newline {chunk rest : Str} (h : fgets n s = some (chunk, rest)) : NEWLINE ∉ chunk.dropLast := by
  unfold fgets at h
  split_ifs at h
  obtain ⟨rfl, -⟩ := Prod.mk.inj (Option.some.inj h)
  exact newline_notMem_dropLast _ _

theorem fgets_of_notMem (h : NEWLINE ∉ s) (hne : s ≠ []) (hlen : s.length < n) : fgets n s = some (s, []) := by
  rw [fgets, if_neg hne, readLine_of_notMem h (by omega), List.drop_length]

end Lib.Libc
