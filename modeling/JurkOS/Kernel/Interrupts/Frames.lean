import JurkOS.Kernel.Interrupts.Stubs
import Mathlib.Data.List.Forall2

/-!
What lies on the stack while a stub runs, and what its pops give back.
-/

namespace JurkOS.Kernel.Interrupts

open Lib.Memory Lib.WordStack

variable {a : Arch} {D : Type} {σ : Setting a D} {m m₀ : Machine a D} {base depth : ℕ} {v : Register a}
  {vs us : List (Register a)}

structure Over (base depth : ℕ) (m₀ m : Machine a D) (vs : List (Register a)) : Prop where
  stack : Extends base m.stack vs
  cpu : m.cpu = { m₀.cpu with sp := m.cpu.sp }
  dev : m.dev = m₀.dev
  frame : ChangedIn (Span (base - depth) depth) m₀.mem m.mem

theorem sp_stack (m : Machine a D) : m.stack.sp = m.cpu.sp := rfl

theorem Over.nil (m : Machine a D) (depth : ℕ) : Over m.cpu.sp.val depth m m [] :=
  ⟨Extends.nil m.stack, rfl, rfl, ChangedIn.refl _ _⟩

theorem Over.gpr (h : Over base depth m₀ m vs) : m.cpu.gpr = m₀.cpu.gpr := by rw [h.cpu]

theorem Over.sreg (h : Over base depth m₀ m vs) : m.cpu.sreg = m₀.cpu.sreg := by rw [h.cpu]

theorem Over.push (h : Over base depth m₀ m vs) (hroom : a.wordBytes * (vs.length + 1) ≤ depth)
    (hdepth : depth ≤ base) (v : Register a) : Over base depth m₀ (m.push v) (v :: vs) := by
  have hsp := h.stack.sp
  rw [Nat.mul_add_one] at hroom
  have hle : a.wordBytes ≤ m.stack.sp.val := by omega
  refine ⟨h.stack.push (by rw [Nat.mul_add_one]; omega) v, ?_, h.dev, ?_⟩
  · change { m.cpu with sp := (m.push v).cpu.sp } = _
    rw [h.cpu]
  · apply h.frame.trans
    apply (Stack.push_changedIn (v := v) hle).mono
    intro b hb
    rw [mem_span] at hb ⊢
    omega

theorem Over.pushAll (h : Over base depth m₀ m vs) (us : List (Register a))
    (hroom : a.wordBytes * (us.length + vs.length) ≤ depth) (hdepth : depth ≤ base) :
    Over base depth m₀ (m.pushAll us) (us ++ vs) := by
  induction us with
  | nil => exact h
  | cons u us ih =>
    rw [List.length_cons, Nat.succ_add, Nat.mul_succ] at hroom
    apply (ih (by omega)).push _ hdepth
    rw [List.length_append, Nat.mul_succ]
    exact hroom

theorem Over.run_push (h : Over base depth m₀ m vs) (rs : List Gpr)
    (hroom : a.wordBytes * (rs.length + vs.length) ≤ depth) (hdepth : depth ≤ base) :
    Over base depth m₀ (run σ (rs.map Instr.push) m) ((rs.map m₀.cpu.gpr).reverse ++ vs) := by
  induction rs generalizing m vs with
  | nil => exact h
  | cons r rs ih =>
    rw [List.length_cons, Nat.succ_add_eq_add_succ] at hroom
    have hr : exec σ m (.push r) = m.push (m₀.cpu.gpr r) := by rw [exec, h.gpr]
    have hpush := h.push (le_trans (Nat.mul_le_mul_left _ (by omega)) hroom) hdepth (m₀.cpu.gpr r)
    rw [run, List.map_cons, List.foldl_cons, hr, List.map_cons, List.reverse_cons, List.append_assoc]
    exact ih hpush hroom

theorem Over.prepare {m' : Machine a D} (h : Over base depth m₀ m vs) (hstack : m'.stack = m.stack)
    (hcpu : m'.cpu = { m.cpu with gpr := m'.cpu.gpr, sreg := m'.cpu.sreg }) (hdev : m'.dev = m.dev) :
    Over base depth { m₀ with cpu := { m₀.cpu with gpr := m'.cpu.gpr, sreg := m'.cpu.sreg } } m' vs := by
  have hmem : m'.mem = m.mem := congrArg Stack.mem hstack
  refine ⟨hstack ▸ h.stack, ?_, hdev.trans h.dev, ?_⟩
  · rw [hcpu, h.cpu]
  · rw [hmem]
    exact h.frame

theorem two_pow_le_word (a : Arch) : 2 ^ 16 ≤ 256 ^ a.wordBytes := by cases a <;> decide

theorem selector_word (s : Selector) : selector (word a.wordBytes s : Register a) = s := by
  have hword : (word a.wordBytes s.val).val = s.val := val_word (lt_of_lt_of_le s.isLt (two_pow_le_word a))
  apply Fin.ext
  change (word a.wordBytes s.val).val % 2 ^ 16 = s.val
  rw [hword, Nat.mod_eq_of_lt s.isLt]

theorem selector_selectorWord (m : Machine a D) (zeroExtends : Bool) (s : Selector) :
    selector (m.selectorWord zeroExtends s) = s := by
  have hdvd : 2 ^ 16 ∣ 256 ^ a.wordBytes := by cases a <;> decide
  apply Fin.ext
  change (s.val + if zeroExtends then 0 else 2 ^ 16 * _) % 256 ^ a.wordBytes % 2 ^ 16 = s.val
  rw [Nat.mod_mod_of_dvd _ hdvd]
  split_ifs
  · exact Nat.mod_eq_of_lt s.isLt
  · rw [Nat.add_mul_mod_self_left, Nat.mod_eq_of_lt s.isLt]

theorem Over.run_pushSeg (h : Over base depth m₀ m vs) (ss : List Sreg)
    (hroom : a.wordBytes * (ss.length + vs.length) ≤ depth) (hdepth : depth ≤ base) :
    ∃ ws, Over base depth m₀ (run σ (ss.map Instr.pushSeg) m) (ws ++ vs) ∧
      List.Forall₂ (fun w s => selector w = m₀.cpu.sreg s) ws ss.reverse := by
  induction ss generalizing m vs with
  | nil => exact ⟨[], h, .nil⟩
  | cons s ss ih =>
    rw [List.length_cons, Nat.succ_add_eq_add_succ] at hroom
    have hpush := h.push (le_trans (Nat.mul_le_mul_left _ (by omega)) hroom) hdepth
      (m.selectorWord σ.zeroExtends (m.cpu.sreg s))
    have hs := selector_selectorWord m σ.zeroExtends (m.cpu.sreg s)
    rw [h.sreg] at hs
    obtain ⟨ws, hover, hws⟩ := ih hpush hroom
    refine ⟨ws ++ [m.selectorWord σ.zeroExtends (m.cpu.sreg s)], ?_, ?_⟩
    · rw [List.append_assoc]
      exact hover
    · rw [List.reverse_cons]
      rw [h.sreg]
      exact List.rel_append hws (.cons hs .nil)

def Saves (c : Cpu a) (v : Register a) : Place → Prop
  | .gpr r => v = c.gpr r
  | .sreg s => selector v = c.sreg s
  | .nowhere => True

structure AgreesOutside (ps : List Place) (c c' : Cpu a) : Prop where
  gpr : ∀ r, Place.gpr r ∉ ps → c'.gpr r = c.gpr r
  sreg : ∀ s, Place.sreg s ∉ ps → c'.sreg s = c.sreg s

theorem AgreesOutside.put {p : Place} {ps : List Place} {c c' : Cpu a} (h : AgreesOutside (p :: ps) c c')
    (hv : Saves c v p) : AgreesOutside ps c (c'.put v p) := by
  obtain ⟨hgpr, hsreg⟩ := h
  cases p with
  | gpr r =>
    refine ⟨fun r' hr' => ?_, fun s hs => hsreg s (by simpa using hs)⟩
    change Function.update c'.gpr r v r' = _
    by_cases he : r' = r
    · rw [he, Function.update_self]
      exact hv
    · rw [Function.update_of_ne he]
      exact hgpr r' (by simpa [he] using hr')
  | sreg s =>
    refine ⟨fun r hr => hgpr r (by simpa using hr), fun s' hs' => ?_⟩
    change Function.update c'.sreg s (selector v) s' = _
    by_cases he : s' = s
    · rw [he, Function.update_self]
      exact hv
    · rw [Function.update_of_ne he]
      exact hsreg s' (by simpa [he] using hs')
  | nowhere => exact ⟨fun r hr => hgpr r (by simpa using hr), fun s hs => hsreg s (by simpa using hs)⟩

structure Restored (c : Cpu a) (m m' : Machine a D) : Prop where
  cpu : m'.cpu = { m.cpu with gpr := c.gpr, sreg := c.sreg, sp := m'.cpu.sp }
  mem : m'.mem = m.mem
  dev : m'.dev = m.dev

theorem stack_popTo (m : Machine a D) (p : Place) : (m.popTo p).stack = (m.drop 1).stack := by cases p <;> rfl

theorem Restored.popTo {c : Cpu a} {p : Place} {m' : Machine a D} (h : Restored c (m.popTo p) m') :
    Restored c m m' := by
  obtain ⟨hcpu, hmem, hdev⟩ := h
  refine ⟨?_, hmem, hdev⟩
  rw [hcpu]
  cases p <;> rfl

theorem restores {c : Cpu a} {ps : List Place} (hbase : base < 256 ^ a.wordBytes)
    (hsaved : List.Forall₂ (Saves c) vs ps) (hstack : Extends base m.stack (vs ++ us))
    (hagree : AgreesOutside ps c m.cpu) :
    Extends base (ps.foldl Machine.popTo m).stack us ∧ Restored c m (ps.foldl Machine.popTo m) := by
  induction hsaved generalizing m with
  | nil =>
    have hgpr : m.cpu.gpr = c.gpr := funext fun r => hagree.gpr r List.not_mem_nil
    have hsreg : m.cpu.sreg = c.sreg := funext fun s => hagree.sreg s List.not_mem_nil
    refine ⟨hstack, ?_, rfl, rfl⟩
    rw [← hgpr, ← hsreg]
    rfl
  | @cons v p vs ps hv hsaved ih =>
    have hslot : m.slot 0 = v := hstack.peek
    have hfirst : Extends base m.stack ([v] ++ (vs ++ us)) := hstack
    have hdrop : Extends base (m.drop 1).stack (vs ++ us) := hfirst.drop hbase
    have hnext : Extends base (m.popTo p).stack (vs ++ us) := by
      rw [stack_popTo]
      exact hdrop
    have hagree' : AgreesOutside ps c (m.popTo p).cpu := by
      have hrest : AgreesOutside (p :: ps) c (m.drop 1).cpu := ⟨hagree.gpr, hagree.sreg⟩
      rw [Machine.popTo, hslot]
      exact hrest.put hv
    obtain ⟨hus, hrestored⟩ := ih hnext hagree'
    exact ⟨hus, hrestored.popTo⟩

end JurkOS.Kernel.Interrupts
