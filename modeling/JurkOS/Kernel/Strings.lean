import JurkOS.Kernel.CString
import JurkOS.Lib.Libc

/-!
The string functions of `lib/string.c`: comparing texts, and copying them into memory.
-/

namespace JurkOS.Kernel

open Lib.Libc Lib.Memory

def strcmp : Str → Str → ℤ
  | [], [] => 0
  | [], d :: _ => -d.toNat
  | c :: _, [] => c.toNat
  | c :: s, d :: t => if c = d then strcmp s t else (c.toNat : ℤ) - d.toNat

def strncmp : Str → Str → ℕ → ℤ
  | _, _, 0 => 0
  | [], [], _ + 1 => 0
  | [], d :: _, _ + 1 => -d.toNat
  | c :: _, [], _ + 1 => c.toNat
  | c :: s, d :: t, n + 1 => if c = d then strncmp s t n else (c.toNat : ℤ) - d.toNat

theorem toNat_ne_zero {c : UInt8} (h : c ≠ 0) : c.toNat ≠ 0 := fun he => h (UInt8.toNat_inj.mp he)

theorem strcmp_eq (s t : Str) : strcmp s t = Lib.Libc.strcmp s t := by
  induction s generalizing t with
  | nil => cases t <;> rfl
  | cons c s ih =>
    cases t with
    | nil => rfl
    | cons d t => rw [strcmp, ih, Lib.Libc.strcmp]

theorem strcmp_eq_zero {s t : Str} (hs : 0 ∉ s) (ht : 0 ∉ t) : strcmp s t = 0 ↔ s = t := by
  rw [strcmp_eq, Lib.Libc.strcmp_eq_zero hs ht]

theorem strncmp_eq_zero {s t : Str} (hs : 0 ∉ s) (ht : 0 ∉ t) : strncmp s t t.length = 0 ↔ t <+: s := by
  induction t generalizing s with
  | nil => simp [strncmp]
  | cons d t ih =>
    rw [List.mem_cons, not_or] at ht
    rw [List.length_cons]
    cases s with
    | nil =>
      have hd : d.toNat ≠ 0 := toNat_ne_zero (Ne.symm ht.1)
      simp [strncmp, hd]
    | cons c s =>
      rw [List.mem_cons, not_or] at hs
      rw [strncmp, List.cons_prefix_cons]
      split_ifs with hcd
      · rw [ih hs.2 ht.2, and_iff_right hcd.symm]
      · have hne : c.toNat ≠ d.toNat := fun h => hcd (UInt8.toNat_inj.mp h)
        refine iff_of_false (by omega) fun h => hcd h.1.symm

def strcpyWrites (dest : ℕ) : Str → List (ℕ × UInt8)
  | [] => [(dest, 0)]
  | c :: src => (dest, c) :: strcpyWrites (dest + 1) src

def applyWrites (m : Mem) (l : List (ℕ × UInt8)) : Mem := l.foldl (fun m w => Function.update m w.1 w.2) m

def strend (m : Mem) (p : ℕ) : ℕ → Option ℕ
  | 0 => none
  | n + 1 => if m p = 0 then some p else strend m (p + 1) n

theorem strcpyWrites_within {dest n : ℕ} (src : Str) :
    (∀ w ∈ strcpyWrites dest src, w.1 < dest + n) ↔ src.length < n := by
  induction src generalizing dest n with
  | nil => simp [strcpyWrites]
  | cons c src ih =>
    cases n with
    | zero => simp [strcpyWrites]
    | succ n =>
      have hrest : (∀ w ∈ strcpyWrites (dest + 1) src, w.1 < dest + (n + 1)) ↔ src.length < n := by
        rw [← ih, show dest + (n + 1) = dest + 1 + n by omega]
      rw [strcpyWrites, List.forall_mem_cons, hrest, List.length_cons, Nat.succ_lt_succ_iff]
      exact and_iff_right (by dsimp only; omega)

theorem strcpyWrites_le {dest : ℕ} {src : Str} : ∀ w ∈ strcpyWrites dest src, dest ≤ w.1 := by
  induction src generalizing dest with
  | nil => simp [strcpyWrites]
  | cons c src ih =>
    intro w hw
    rcases List.mem_cons.mp hw with rfl | hw
    · exact le_refl dest
    · exact (Nat.le_succ dest).trans (ih w hw)

theorem applyWrites_of_lt {dest p : ℕ} (m : Mem) (src : Str) (h : p < dest) :
    applyWrites m (strcpyWrites dest src) p = m p := by
  induction src generalizing m dest with
  | nil => exact Function.update_of_ne h.ne _ _
  | cons c src ih =>
    apply (ih (Function.update m dest c) (h.trans (Nat.lt_succ_self dest))).trans
    exact Function.update_of_ne h.ne _ _

structure TextAt (m : Mem) (p : ℕ) (text : Str) : Prop where
  get : ∀ i (h : i < text.length), m (p + i) = text[i]
  terminated : m (p + text.length) = 0

theorem textAt_strcpy (m : Mem) (p : ℕ) (src : Str) : TextAt (applyWrites m (strcpyWrites p src)) p src := by
  induction src generalizing m p with
  | nil => exact ⟨fun i hi => absurd hi (Nat.not_lt_zero i), Function.update_self _ _ _⟩
  | cons c src ih =>
    have hrest := ih (Function.update m p c) (p + 1)
    have hc : applyWrites (Function.update m p c) (strcpyWrites (p + 1) src) p = c := by
      rw [applyWrites_of_lt _ _ (Nat.lt_succ_self p), Function.update_self]
    constructor
    · intro i hi
      cases i with
      | zero => exact hc
      | succ i =>
        rw [List.getElem_cons_succ, ← hrest.get i (Nat.lt_of_succ_lt_succ hi), Nat.add_assoc, Nat.add_comm 1]
        rfl
    · rw [← hrest.terminated, List.length_cons, Nat.add_assoc, Nat.add_comm 1]
      rfl

theorem TextAt.head {m : Mem} {p : ℕ} {c : UInt8} {text : Str} (h : TextAt m p (c :: text)) : m p = c :=
  h.get 0 (Nat.succ_pos _)

theorem TextAt.tail {m : Mem} {p : ℕ} {c : UInt8} {text : Str} (h : TextAt m p (c :: text)) :
    TextAt m (p + 1) text := by
  constructor
  · intro i hi
    have hget := h.get (i + 1) (Nat.succ_lt_succ hi)
    rw [List.getElem_cons_succ, Nat.add_comm i, ← Nat.add_assoc] at hget
    exact hget
  · have hend := h.terminated
    rw [List.length_cons, Nat.add_comm text.length, ← Nat.add_assoc] at hend
    exact hend

/-- The first loop, with where it ends; the terminator is copied but not counted. -/
def strncpyCopy (m : Mem) (d src : ℕ) : ℕ → Mem × ℕ × ℕ
  | 0 => (m, d, 0)
  | n + 1 =>
    let c := m src
    if c = 0 then (Function.update m d c, d + 1, n + 1) else strncpyCopy (Function.update m d c) (d + 1) (src + 1) n

def strncpyPad (m : Mem) (d : ℕ) : ℕ → Mem
  | 0 => m
  | n + 1 => strncpyPad (Function.update m d 0) (d + 1) n

def strncpy (m : Mem) (dest src n : ℕ) : Mem :=
  let (m, d, n) := strncpyCopy m dest src n
  strncpyPad m d n

structure StringAt (m : Mem) (p len : ℕ) : Prop where
  nonzero : ∀ i < len, m (p + i) ≠ 0
  terminated : m (p + len) = 0

structure Fills (m m' : Mem) (dest src n len : ℕ) : Prop where
  text : ∀ i < min n len, m' (dest + i) = m (src + i)
  zeros : ∀ i, min n len ≤ i → i < n → m' (dest + i) = 0
  behind : ∀ a, dest + n ≤ a → m' a = m a

def Overruns (dest src n len : ℕ) : Prop := src < dest ∧ dest ≤ src + len ∧ dest < src + n

instance (dest src n len : ℕ) : Decidable (Overruns dest src n len) := inferInstanceAs (Decidable (_ ∧ _ ∧ _))

variable {m : Mem} {d dest src n len : ℕ}

theorem strncpyPad_eq (m : Mem) (d n : ℕ) :
    strncpyPad m d n = fun a => if d ≤ a ∧ a < d + n then 0 else m a := by
  induction n generalizing m d with
  | zero =>
    funext a
    rw [strncpyPad, if_neg (by omega)]
  | succ n ih =>
    funext a
    rw [strncpyPad, ih]
    dsimp only
    by_cases ha : a = d
    · rw [if_neg (by omega), if_pos (by omega), ha, Function.update_self]
    · rw [Function.update_of_ne ha]
      congr 1
      exact propext (by omega)

theorem strncpyCopy_full (h : ∀ i < n, copyUp m d src n (d + i) ≠ 0) :
    strncpyCopy m d src n = (copyUp m d src n, d + n, 0) := by
  induction n generalizing m d src with
  | zero => rfl
  | succ n ih =>
    have hc : m src ≠ 0 := copyUp_first m d src n ▸ h 0 (Nat.succ_pos n)
    have hd : d + 1 + n = d + (n + 1) := by omega
    have hrest : ∀ i < n, copyUp (Function.update m d (m src)) (d + 1) (src + 1) n (d + 1 + i) ≠ 0 := by
      intro i hi
      rw [Nat.add_assoc, Nat.add_comm 1]
      exact h (i + 1) (Nat.succ_lt_succ hi)
    simp only [strncpyCopy, if_neg hc]
    rw [ih hrest, hd]
    rfl

theorem strncpyCopy_ended (h : ∀ i < len, copyUp m d src (len + 1) (d + i) ≠ 0)
    (hend : copyUp m d src (len + 1) (d + len) = 0) (hlt : len < n) :
    strncpyCopy m d src n = (copyUp m d src (len + 1), d + (len + 1), n - len) := by
  induction len generalizing m d src n with
  | zero =>
    obtain ⟨n, rfl⟩ := Nat.exists_eq_add_of_lt hlt
    have hc : m src = 0 := (copyUp_first m d src 0).symm.trans hend
    rw [Nat.zero_add, strncpyCopy, if_pos hc]
    rfl
  | succ len ih =>
    obtain ⟨n, rfl⟩ : ∃ k, n = k + 1 := ⟨n - 1, by omega⟩
    have hc : m src ≠ 0 := copyUp_first m d src (len + 1) ▸ h 0 (Nat.succ_pos len)
    have hd : d + 1 + (len + 1) = d + (len + 1 + 1) := by omega
    have hrest : ∀ i < len, copyUp (Function.update m d (m src)) (d + 1) (src + 1) (len + 1) (d + 1 + i) ≠ 0 := by
      intro i hi
      rw [Nat.add_assoc, Nat.add_comm 1]
      exact h (i + 1) (Nat.succ_lt_succ hi)
    have hlast : copyUp (Function.update m d (m src)) (d + 1) (src + 1) (len + 1) (d + 1 + len) = 0 := by
      rw [Nat.add_assoc, Nat.add_comm 1]
      exact hend
    simp only [strncpyCopy, if_neg hc]
    rw [ih hrest hlast (Nat.lt_of_succ_lt_succ hlt), hd, Nat.add_sub_add_right]
    rfl

theorem strncpy_of_clear (h : StringAt m src len) (hclear : ¬Overruns dest src n len) (a : ℕ) :
    strncpy m dest src n a =
      if dest ≤ a ∧ a < dest + min n len then m (src + (a - dest))
      else if dest ≤ a ∧ (a < dest + n ∨ len < n ∧ a = dest + n) then 0 else m a := by
  unfold Overruns at hclear
  by_cases hlong : n ≤ len
  · have hmoves : Moves m (copyUp m dest src n) dest src n := copyUp_moves m (by omega)
    have hcopy : strncpyCopy m dest src n = _ := strncpyCopy_full fun i hi => by
      rw [hmoves.moved i hi]
      exact h.nonzero i (by omega)
    rw [strncpy, hcopy]
    dsimp only
    rw [strncpyPad, hmoves.eq_ite, min_eq_left hlong]
    split_ifs
    · rfl
    · omega
    · rfl
  · have hmoves : Moves m (copyUp m dest src (len + 1)) dest src (len + 1) := copyUp_moves m (by omega)
    have hlast := hmoves.moved len (Nat.lt_succ_self len)
    rw [h.terminated] at hlast
    have hcopy : strncpyCopy m dest src n = _ := strncpyCopy_ended (fun i hi => by
      rw [hmoves.moved i (by omega)]
      exact h.nonzero i hi) hlast (Nat.not_le.mp hlong)
    rw [strncpy, hcopy]
    dsimp only
    rw [strncpyPad_eq, min_eq_right (Nat.not_le.mp hlong).le]
    dsimp only
    by_cases hterm : a = dest + len
    · rw [hterm, if_neg (by omega), if_neg (by omega), if_pos (by omega)]
      exact hlast
    · rw [hmoves.eq_ite]
      split_ifs
      all_goals first | rfl | omega

theorem strncpy_of_overruns (h : StringAt m src len) (hover : Overruns dest src n len) :
    strncpy m dest src n = memcpy m dest src n ∧ ∀ i < n, memcpy m dest src n (dest + i) ≠ 0 := by
  obtain ⟨hlt, hle, hn⟩ := hover
  have hnonzero : ∀ i < n, memcpy m dest src n (dest + i) ≠ 0 := by
    intro i
    induction i using Nat.strong_induction_on with
    | _ i ih =>
      intro hi
      have hsame : memcpy m dest src n (dest + i) = memcpy m dest src n (src + i) := copyUp_repeats m hlt.le hi
      rw [hsame]
      by_cases hfirst : src + i < dest
      · have hout : src + i ∉ Span dest n := fun hin => absurd hin.1 (Nat.not_le.mpr hfirst)
        have hold : memcpy m dest src n (src + i) = m (src + i) := copyUp_changedIn m dest src n _ hout
        rw [hold]
        exact h.nonzero i (by omega)
      · obtain ⟨k, hk⟩ := Nat.exists_eq_add_of_le (Nat.not_lt.mp hfirst)
        rw [hk]
        exact ih k (by omega) (by omega)
  refine ⟨?_, hnonzero⟩
  rw [strncpy, strncpyCopy_full hnonzero]
  rfl

/-- Exactly `n` bytes are filled, if and only if the string has as many or the byte behind them was zero already:
the terminator is written without being counted. A destination inside the string has to hold what it gets. -/
theorem strncpy_fills_iff (h : StringAt m src len) (dest n : ℕ) :
    Fills m (strncpy m dest src n) dest src n len ↔
      if Overruns dest src n len then n ≤ len ∧ ∀ i, dest + i < src + n → m (dest + i) = m (src + i)
      else n ≤ len ∨ m (dest + n) = 0 := by
  split_ifs with hover
  · obtain ⟨hrun, hnonzero⟩ := strncpy_of_overruns h hover
    have hmoves := memcpy_moves_iff m dest src n
    rw [or_iff_right (Nat.not_le.mpr hover.1)] at hmoves
    rw [hrun, ← hmoves]
    constructor
    · rintro ⟨htext, hzeros, -⟩
      have hfits : n ≤ len := by
        by_contra hlong
        exact hnonzero len (by omega) (hzeros len (by omega) (by omega))
      exact ⟨hfits, fun i hi => htext i (by omega), copyUp_changedIn m dest src n⟩
    · rintro ⟨hfits, hmoved⟩
      refine ⟨fun i hi => hmoved.moved i (by omega), fun i hi hi' => by omega, fun a ha => ?_⟩
      exact hmoved.frame a fun hin => absurd hin.2 (Nat.not_lt.mpr ha)
  · have hrun := strncpy_of_clear h hover
    constructor
    · rintro ⟨-, -, hbehind⟩
      by_contra hnot
      push Not at hnot
      have hzero := hbehind (dest + n) (le_refl _)
      rw [hrun, if_neg (by omega), if_pos (by omega)] at hzero
      exact hnot.2 hzero.symm
    · intro hcond
      refine ⟨fun i hi => ?_, fun i hi hi' => ?_, fun a ha => ?_⟩
      · rw [hrun, if_pos (by omega), Nat.add_sub_cancel_left]
      · rw [hrun, if_neg (by omega), if_pos (by omega)]
      · rw [hrun, if_neg (by omega)]
        split_ifs with hterm
        · obtain rfl : a = dest + n := by omega
          exact (hcond.resolve_left (by omega)).symm
        · rfl

def letterAt (a : ℕ) : UInt8 := if a = 0 then 0x61 else if a = 1 ∨ a = 19 then 0 else 0xFF

theorem stringAt_letter : StringAt letterAt 0 1 := ⟨by decide, by decide⟩

theorem strncpy_fills_padded : Fills letterAt (strncpy letterAt 16 0 3) 16 0 3 1 := by
  apply (strncpy_fills_iff stringAt_letter 16 3).mpr
  rw [if_neg (by decide)]
  exact .inr (by decide)

theorem strncpy_beyond : ¬Fills letterAt (strncpy letterAt 16 0 2) 16 0 2 1 := by
  intro h
  exact absurd (h.behind 18 (by decide)) (by decide)

end JurkOS.Kernel
