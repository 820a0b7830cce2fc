import JurkOS.Lib.Memory

/-!
A stack of words of `w` bytes that grows downwards in memory, seen as the list of
the words on it, the top first.
-/

namespace Lib.WordStack

open Lib.Memory

abbrev Word (w : ℕ) := Fin (256 ^ w)

def word (w x : ℕ) : Word w := ⟨x % 256 ^ w, Nat.mod_lt _ (Nat.pow_pos (by decide))⟩

def peek (w : ℕ) (m : Mem) (p : ℕ) : Word w := ⟨load m p w, load_lt m p w⟩

structure Stack (w : ℕ) where
  mem : Mem
  sp : Word w

variable {w : ℕ}

/-- The pointer wraps, as the processor's does. -/
def Stack.push (s : Stack w) (v : Word w) : Stack w :=
  let sp := word w (s.sp + (256 ^ w - w))
  ⟨store s.mem sp w v, sp⟩

def Stack.drop (s : Stack w) (k : ℕ) : Stack w := { s with sp := word w (s.sp + w * k) }

def Holds (m : Mem) (p : ℕ) : List (Word w) → Prop
  | [] => True
  | v :: vs => peek w m p = v ∧ Holds m (p + w) vs

structure Extends (base : ℕ) (s : Stack w) (vs : List (Word w)) : Prop where
  sp : s.sp.val + w * vs.length = base
  holds : Holds s.mem s.sp.val vs

variable {s : Stack w} {m m' : Mem} {v : Word w} {vs us : List (Word w)} {p base k : ℕ}

theorem val_word {x : ℕ} (h : x < 256 ^ w) : (word w x).val = x := Nat.mod_eq_of_lt h

theorem lt_pow_word (w : ℕ) : w < 256 ^ w := Nat.lt_pow_self (by decide)

theorem Stack.val_push (h : w ≤ s.sp.val) : (s.push v).sp.val = s.sp.val - w := by
  have hw := lt_pow_word w
  have hsp := s.sp.isLt
  have hwrap : s.sp.val + (256 ^ w - w) = s.sp.val - w + 256 ^ w := by omega
  change (s.sp.val + (256 ^ w - w)) % 256 ^ w = s.sp.val - w
  rw [hwrap, Nat.add_mod_right, Nat.mod_eq_of_lt (by omega)]

theorem Stack.push_changedIn (h : w ≤ s.sp.val) : ChangedIn (Span (s.sp.val - w) w) s.mem (s.push v).mem := by
  rw [← Stack.val_push (v := v) h]
  exact store_changedIn s.mem _ w v

theorem Stack.drop_drop (s : Stack w) (j k : ℕ) : (s.drop j).drop k = s.drop (j + k) := by
  have hsp : word w ((word w (s.sp + w * j)).val + w * k) = word w (s.sp + w * (j + k)) := by
    apply Fin.ext
    change ((s.sp + w * j) % _ + w * k) % _ = (s.sp + w * (j + k)) % _
    rw [Nat.mod_add_mod, Nat.mul_add, Nat.add_assoc]
  exact congrArg (Stack.mk s.mem) hsp

@[simp] theorem holds_nil : Holds m p ([] : List (Word w)) := trivial

theorem Holds.congr (h : Holds m p vs) (hmem : ∀ b ∈ Span p (w * vs.length), m' b = m b) : Holds m' p vs := by
  induction vs generalizing p with
  | nil => trivial
  | cons v vs ih =>
    obtain ⟨hv, hvs⟩ := h
    rw [List.length_cons, Nat.mul_succ] at hmem
    constructor
    · rw [← hv]
      apply Fin.ext
      apply load_congr
      intro b hb
      apply hmem
      rw [mem_span] at hb ⊢
      omega
    · apply ih hvs
      intro b hb
      apply hmem
      rw [mem_span] at hb ⊢
      omega

theorem Holds.get (h : Holds m p vs) (hk : k < vs.length) : peek w m (p + w * k) = vs[k] := by
  induction vs generalizing p k with
  | nil => cases hk
  | cons v vs ih =>
    obtain ⟨hv, hvs⟩ := h
    cases k with
    | zero => exact hv
    | succ k =>
      have hrest := ih hvs (Nat.lt_of_succ_lt_succ hk)
      rw [Nat.mul_succ, Nat.add_comm (w * k), ← Nat.add_assoc]
      exact hrest

theorem Extends.nil (s : Stack w) : Extends s.sp.val s [] := ⟨rfl, trivial⟩

theorem Extends.push (h : Extends base s vs) (hroom : w * (vs.length + 1) ≤ base) (v : Word w) :
    Extends base (s.push v) (v :: vs) := by
  obtain ⟨hsp, hvs⟩ := h
  rw [Nat.mul_succ] at hroom
  have hle : w ≤ s.sp.val := by omega
  have hval := Stack.val_push (v := v) hle
  have hback : s.sp.val - w + w = s.sp.val := Nat.sub_add_cancel hle
  refine ⟨?_, ?_, ?_⟩
  · rw [hval, List.length_cons, Nat.mul_succ]
    omega
  · apply Fin.ext
    have hword : v.val < 256 ^ w := v.isLt
    exact load_store_of_lt hword
  · rw [hval, hback]
    apply hvs.congr
    intro b hb
    apply Stack.push_changedIn hle
    rw [mem_span] at hb ⊢
    omega

theorem Extends.peek (h : Extends base s (v :: vs)) : peek w s.mem s.sp.val = v := h.holds.1

theorem Stack.val_drop (h : Extends base s (us ++ vs)) (hbase : base < 256 ^ w) :
    (s.drop us.length).sp.val = s.sp.val + w * us.length := by
  have hsp := h.sp
  rw [List.length_append, Nat.mul_add] at hsp
  exact val_word (by omega)

theorem Holds.drop (h : Holds m p (us ++ vs)) : Holds m (p + w * us.length) vs := by
  induction us generalizing p with
  | nil => exact h
  | cons u us ih =>
    rw [List.length_cons, Nat.mul_succ, Nat.add_comm (w * us.length), ← Nat.add_assoc]
    exact ih h.2

theorem Extends.drop (h : Extends base s (us ++ vs)) (hbase : base < 256 ^ w) :
    Extends base (s.drop us.length) vs := by
  have hval := Stack.val_drop h hbase
  obtain ⟨hsp, hholds⟩ := h
  rw [List.length_append, Nat.mul_add] at hsp
  refine ⟨?_, ?_⟩
  · omega
  · rw [hval]
    exact hholds.drop

end Lib.WordStack
