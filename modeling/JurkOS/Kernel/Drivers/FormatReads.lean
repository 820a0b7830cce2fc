import JurkOS.Kernel.Drivers.Serial
import JurkOS.Kernel.Strings
import JurkOS.Lib.Traced

/-!
What `serial_printf` of `drivers/serial.c` reads of its format: the byte behind a `%` is
passed over without a look whether the format ends there.
-/

namespace JurkOS.Kernel.Serial

open Lib Lib.Libc Lib.Memory Lib.Traced
open Fs (strcpyFrom strcpyFrom_isSome_iff)

variable {arch : Arch}

/-- `i`, the next slot of the arguments, and what has been printed. -/
structure Call where
  i : ℕ
  slot : ℕ
  out : Str

/-- One turn over the format at `fmt`; `inr none` where a string that is printed has no end. -/
def printfTurn (m : Mem) (area : ArgArea arch) (fmt : ℕ) (s : Call) : Traced (Call ⊕ Option Str) := do
  let c ← peek m (fmt + s.i)
  if c = 0 then pure (.inr (some s.out))
  else if c = PERCENT then do
    let k ← peek m (fmt + (s.i + 1))
    match conversion m area k s.slot with
    | (none, _) => pure (.inr none)
    | (some out, slot) => pure (.inl ⟨s.i + 2, slot, s.out ++ out⟩)
  else pure (.inl ⟨s.i + 1, s.slot, s.out ++ serialPrint [c]⟩)

def Contained (m : Mem) (area : ArgArea arch) (fmt len : ℕ) : Prop :=
  Settles (Span fmt (len + 1)) (printfTurn m area fmt) (· ≠ none) ⟨0, 0, []⟩

def conversions (m : Mem) (area : ArgArea arch) : Str → ℕ → List (UInt8 × ℕ)
  | c :: k :: fmt, i =>
    if c = PERCENT then (k, i) :: conversions m area fmt (conversion m area k i).2
    else conversions m area (k :: fmt) i
  | _, _ => []

def Served (m : Mem) (area : ArgArea arch) (text : Str) (i : ℕ) : Prop :=
  ∀ x ∈ conversions m area text i, x.1 = 0x73 →
    area x.2 = 0 ∨ ∃ z, (area x.2).toNat ≤ z ∧ z < 2 ^ arch.wordBits ∧ m z = 0

def trailing (text : Str) : Str := text.rtakeWhile (· = PERCENT)

variable {m : Mem} {area : ArgArea arch} {fmt len i slot : ℕ} {c k : UInt8} {t text out : Str}
  {P : Option Str → Prop}

theorem turn_end (area : ArgArea arch) (slot : ℕ) (out : Str) (h : m (fmt + i) = 0) :
    printfTurn m area fmt ⟨i, slot, out⟩ = ⟨[fmt + i], .inr (some out)⟩ := by
  unfold printfTurn peek
  simp only [Bind.bind, h, if_true]
  rfl

theorem turn_literal (area : ArgArea arch) (slot : ℕ) (out : Str) (h : m (fmt + i) = c) (hzero : c ≠ 0)
    (hc : c ≠ PERCENT) :
    printfTurn m area fmt ⟨i, slot, out⟩ = ⟨[fmt + i], .inl ⟨i + 1, slot, out ++ serialPrint [c]⟩⟩ := by
  unfold printfTurn peek
  simp only [Bind.bind, h, if_neg hzero, if_neg hc]
  rfl

theorem turn_percent (area : ArgArea arch) (slot : ℕ) (out : Str) (h : m (fmt + i) = PERCENT)
    (hk : m (fmt + (i + 1)) = k) :
    printfTurn m area fmt ⟨i, slot, out⟩ = ⟨[fmt + i, fmt + (i + 1)],
      match conversion m area k slot with
      | (none, _) => .inr none
      | (some o, slot) => .inl ⟨i + 2, slot, out ++ o⟩⟩ := by
  unfold printfTurn peek
  simp only [Bind.bind, h, hk, if_neg (show PERCENT ≠ 0 by decide), if_true]
  rcases conversion m area k slot with ⟨_ | o, slot'⟩
  · rfl
  · rfl

theorem serialPrintf_percent (t : Str) (slot : ℕ) :
    serialPrintf m area (PERCENT :: k :: t) slot = (conversion m area k slot).1.bind fun o =>
      (serialPrintf m area t (conversion m area k slot).2).map (o ++ ·) := by
  rw [serialPrintf, if_pos rfl]
  simp only [Option.bind_eq_bind, Option.map_eq_bind]
  rfl

theorem serialPrintf_literal (hc : c ≠ PERCENT) (t : Str) (slot : ℕ) :
    serialPrintf m area (c :: t) slot = (serialPrintf m area t slot).map (serialPrint [c] ++ ·) := by
  rw [serialPrintf.eq_def]
  exact if_neg hc

theorem settles_iff (hP : ¬P none) (h : TextAt m (fmt + i) t) (hzero : 0 ∉ t) (hlen : i + t.length = len) :
    Settles (Span fmt (len + 1)) (printfTurn m area fmt) P ⟨i, slot, out⟩ ↔
      ∃ o, serialPrintf m area t slot = some o ∧ P (some (out ++ o)) := by
  have hspan {j : ℕ} : fmt + j ∈ Span fmt (len + 1) ↔ j ≤ len := by
    rw [mem_span]
    omega
  induction t, slot using serialPrintf.induct m area generalizing i out with
  | case1 slot =>
    have hend : m (fmt + i) = 0 := h.terminated
    have hturn := turn_end area slot out hend
    have hin : Within (Span fmt (len + 1)) (printfTurn m area fmt ⟨i, slot, out⟩) := by
      rw [hturn]
      exact List.forall_mem_singleton.mpr (hspan.mpr hlen.le)
    rw [settles_inr (congrArg Traced.value hturn), and_iff_right hin]
    constructor
    · intro hout
      exact ⟨[], rfl, (List.append_nil out).symm ▸ hout⟩
    · rintro ⟨o, ho, hout⟩
      cases ho
      rwa [List.append_nil] at hout
  | case2 slot =>
    -- the terminator is taken for a conversion, and the next turn begins behind it
    have hpercent : m (fmt + i) = PERCENT := h.head
    have hend : m (fmt + (i + 1)) = 0 := h.terminated
    have hlen' : i + 1 = len := hlen
    have hturn := turn_percent area slot out hpercent hend
    have hnone : conversion m area 0 slot = (some [], slot) := rfl
    rw [hnone] at hturn
    have hin : Within (Span fmt (len + 1)) (printfTurn m area fmt ⟨i, slot, out⟩) := by
      rw [hturn]
      exact List.forall_mem_cons.mpr ⟨hspan.mpr (by omega), List.forall_mem_singleton.mpr (hspan.mpr (by omega))⟩
    rw [settles_inl (congrArg Traced.value hturn) hin]
    apply iff_of_false
    · apply not_settles
      intro hnext
      have hfirst : i + 2 ≤ len := hspan.mp ((within_bind.mp hnext).1 _ (List.mem_singleton_self _))
      omega
    · rintro ⟨o, ho, -⟩
      cases ho
  | case3 slot k t ih =>
    have hlen' : i + (t.length + 1 + 1) = len := hlen
    have hpercent : m (fmt + i) = PERCENT := h.head
    have hk : m (fmt + (i + 1)) = k := h.tail.head
    have hturn := turn_percent area slot out hpercent hk
    have hin : Within (Span fmt (len + 1)) (printfTurn m area fmt ⟨i, slot, out⟩) := by
      rw [hturn]
      exact List.forall_mem_cons.mpr ⟨hspan.mpr (by omega), List.forall_mem_singleton.mpr (hspan.mpr (by omega))⟩
    rw [List.mem_cons, List.mem_cons, not_or, not_or] at hzero
    have hrest (out : Str) := @ih (i + 2) out h.tail.tail hzero.2.2 (by omega)
    rw [serialPrintf_percent]
    rcases hconv : conversion m area k slot with ⟨_ | o, slot'⟩
    all_goals rw [hconv] at hturn hrest
    · rw [settles_inr (congrArg Traced.value hturn)]
      apply iff_of_false
      · exact fun h => hP h.2
      · rintro ⟨o, ho, -⟩
        cases ho
    · apply ((settles_inl (congrArg Traced.value hturn) hin).trans (hrest (out ++ o))).trans
      simp [List.append_assoc]
  | case4 c t slot hc ih =>
    have hlen' : i + (t.length + 1) = len := hlen
    rw [List.mem_cons, not_or] at hzero
    have hturn := turn_literal area slot out h.head (Ne.symm hzero.1) hc
    have hin : Within (Span fmt (len + 1)) (printfTurn m area fmt ⟨i, slot, out⟩) := by
      rw [hturn]
      exact List.forall_mem_singleton.mpr (hspan.mpr (by omega))
    have hrest := @ih (i + 1) (out ++ serialPrint [c]) h.tail hzero.2 (by omega)
    apply ((settles_inl (congrArg Traced.value hturn) hin).trans hrest).trans
    rw [serialPrintf_literal hc]
    simp [List.append_assoc]

theorem serialPrintf_settles (h : TextAt m fmt text) (hzero : 0 ∉ text) :
    Settles (Span fmt (text.length + 1)) (printfTurn m area fmt) (· = some out) ⟨0, 0, []⟩ ↔
      serialPrintf m area text 0 = some out := by
  rw [settles_iff (Option.some_ne_none out).symm h hzero (Nat.zero_add _)]
  simp

theorem trailing_concat (t : Str) (x : UInt8) :
    trailing (t ++ [x]) = if x = PERCENT then trailing t ++ [x] else [] := by
  rw [trailing, List.rtakeWhile_concat]
  simp only [decide_eq_true_eq]
  rfl

theorem trailing_cons (c : UInt8) (t : Str) :
    trailing (c :: t) = if trailing t = t ∧ c = PERCENT then c :: t else trailing t := by
  induction t using List.reverseRecOn with
  | nil =>
    have hone := trailing_concat [] c
    rw [List.nil_append] at hone
    rw [hone]
    simp [trailing]
  | append_singleton t x ih =>
    rw [← List.cons_append, trailing_concat, trailing_concat, ih]
    by_cases hx : x = PERCENT
    · simp only [if_pos hx, List.append_left_inj]
      split_ifs
      · rfl
      · rfl
    · rw [if_neg hx, if_neg hx, if_neg fun h => List.cons_ne_nil x [] (List.append_eq_nil_iff.mp h.1.symm).2]

theorem length_trailing_le (t : Str) : (trailing t).length ≤ t.length :=
  (List.rtakeWhile_suffix (· = PERCENT) t).length_le

theorem even_trailing_pair (k : UInt8) (t : Str) :
    Even (trailing (PERCENT :: k :: t)).length ↔ Even (trailing t).length := by
  have hlen := length_trailing_le t
  have hlong : trailing t ≠ k :: t := by
    intro h
    rw [h, List.length_cons] at hlen
    omega
  rw [trailing_cons PERCENT, trailing_cons k]
  by_cases hall : trailing t = t ∧ k = PERCENT
  · rw [if_pos hall, if_pos ⟨rfl, rfl⟩, hall.1, List.length_cons, List.length_cons, Nat.even_add_one, Nat.even_add_one,
      not_not]
  · rw [if_neg hall, if_neg fun h => hlong h.1]

theorem conversions_literal (hc : c ≠ PERCENT) (t : Str) (slot : ℕ) :
    conversions m area (c :: t) slot = conversions m area t slot := by
  cases t with
  | nil => rfl
  | cons k t => rw [conversions, if_neg hc]

theorem conversions_percent (k : UInt8) (t : Str) (slot : ℕ) :
    conversions m area (PERCENT :: k :: t) slot = (k, slot) :: conversions m area t (conversion m area k slot).2 := by
  rw [conversions, if_pos rfl]

theorem stringArg_isSome_iff {p : BitVec arch.wordBits} : (∃ s, stringArg m p = some s) ↔
    p = 0 ∨ ∃ z, p.toNat ≤ z ∧ z < 2 ^ arch.wordBits ∧ m z = 0 := by
  rw [stringArg, ← BitVec.toNat_inj (y := 0)]
  have hlt := p.isLt
  by_cases hp : p.toNat = 0
  · rw [if_pos hp]
    exact iff_of_true ⟨_, rfl⟩ (.inl hp)
  · rw [if_neg hp, strcpyFrom_isSome_iff]
    constructor
    · rintro ⟨k, hk, hzero⟩
      exact .inr ⟨p.toNat + k, by omega, by omega, hzero⟩
    · rintro (h | ⟨z, hle, hz, hzero⟩)
      · exact absurd h hp
      · refine ⟨z - p.toNat, by omega, ?_⟩
        rw [Nat.add_sub_cancel' hle]
        exact hzero

theorem conversion_isSome_iff {k : UInt8} : (∃ s, (conversion m area k slot).1 = some s) ↔
    (k = 0x73 → area slot = 0 ∨ ∃ z, (area slot).toNat ≤ z ∧ z < 2 ^ arch.wordBits ∧ m z = 0) := by
  by_cases hk : k = 0x73
  · subst hk
    rw [conversion_s, ← stringArg_isSome_iff, imp_iff_right rfl]
    simp
  · refine iff_of_true ?_ fun h => absurd h hk
    rw [conversion, if_neg hk]
    split_ifs
    all_goals exact ⟨_, rfl⟩

theorem serialPrintf_isSome_iff : (∃ o, serialPrintf m area t slot = some o) ↔
    Even (trailing t).length ∧ Served m area t slot := by
  unfold Served
  induction t, slot using serialPrintf.induct m area with
  | case1 slot => exact iff_of_true ⟨[], rfl⟩ ⟨Even.zero, fun x hx => absurd hx List.not_mem_nil⟩
  | case2 slot =>
    apply iff_of_false
    · rintro ⟨o, ho⟩
      cases ho
    · exact fun h => absurd h.1 (by decide)
  | case3 slot k t ih =>
    rw [serialPrintf_percent, even_trailing_pair, conversions_percent, List.forall_mem_cons, ← conversion_isSome_iff,
      and_left_comm, ← ih]
    constructor
    · rintro ⟨o, ho⟩
      obtain ⟨s, hs, hrest⟩ := Option.bind_eq_some_iff.mp ho
      obtain ⟨o', ho', -⟩ := Option.map_eq_some_iff.mp hrest
      exact ⟨⟨s, hs⟩, o', ho'⟩
    · rintro ⟨⟨s, hs⟩, o, ho⟩
      exact ⟨s ++ o, by rw [hs, ho]; rfl⟩
  | case4 c t slot hc ih =>
    have htrailing : trailing (c :: t) = trailing t := by rw [trailing_cons, if_neg fun h => hc h.2]
    rw [serialPrintf_literal hc, htrailing, conversions_literal hc, ← ih]
    constructor
    · rintro ⟨o, ho⟩
      obtain ⟨o', ho', -⟩ := Option.map_eq_some_iff.mp ho
      exact ⟨o', ho'⟩
    · rintro ⟨o, ho⟩
      exact ⟨serialPrint [c] ++ o, by rw [ho]; rfl⟩

/-- A call stays inside its format and returns, if and only if the signs `%` at the end of it make pairs and
each `%s` has its string: a `%` alone at the end takes the terminator for its letter. -/
theorem serialPrintf_contained_iff (area : ArgArea arch) (h : TextAt m fmt text) (hzero : 0 ∉ text) :
    Contained m area fmt text.length ↔ Even (trailing text).length ∧ Served m area text 0 := by
  rw [Contained, settles_iff (fun hP => hP rfl) h hzero (Nat.zero_add _), ← serialPrintf_isSome_iff]
  simp

def percents : Mem := fun p => if p = 16 ∨ p = 17 then PERCENT else 0

theorem serialPrintf_contained_pair : Contained percents (fun _ => 0 : ArgArea .x86_64) 16 2 :=
  (serialPrintf_contained_iff (fun _ => 0) (show TextAt percents 16 [PERCENT, PERCENT] from ⟨by decide, rfl⟩)
    (by decide)).mpr
    ⟨by decide, fun _ _ _ => .inl rfl⟩

theorem serialPrintf_behind_end :
    TextAt percents 17 [PERCENT] ∧ ¬Contained percents (fun _ => 0 : ArgArea .x86_64) 17 1 := by
  refine ⟨⟨by decide, rfl⟩, fun h => ?_⟩
  have hread := h.inside 2 19 (by decide)
  exact absurd hread.2 (by decide)

end JurkOS.Kernel.Serial
