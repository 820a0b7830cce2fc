import JurkOS.Kernel.Interrupts.Frames

/-!
An interrupt leaves the interrupted program as it was: what a handler is called with,
and what the rest of the stub makes of any handler that keeps to the calling convention.
-/

namespace JurkOS.Kernel.Interrupts

open Lib.Memory Lib.WordStack

variable {a : Arch} {D : Type}

def gprs : Arch → List Gpr
  | .x86_64 => [.ax, .cx, .dx, .bx, .bp, .si, .di, .r8, .r9, .r10, .r11, .r12, .r13, .r14, .r15]
  | .x86 => [.ax, .cx, .dx, .bx, .bp, .si, .di]

def depth (a : Arch) : ℕ := 24 * a.wordBytes

/-- `state->f` is what the interrupted program had there. The `esp` of `pusha` is the stub's own, and without
a change of privilege an x86 processor pushes none. -/
def Shows (m : Machine a D) (num err v : Register a) : Field → Prop
  | .gpr r => v = m.cpu.gpr r
  | .sreg s => selector v = m.cpu.sreg s
  | .pushedSp => True
  | .int_no => v = num
  | .err_code => v = err
  | .ip => v = m.cpu.ip
  | .cs => v = word _ m.cpu.cs
  | .flags => v = m.cpu.flags
  | .sp => a = .x86_64 → v = m.cpu.sp
  | .ss => a = .x86_64 → v = word _ m.cpu.ss

structure Called (m : Machine a D) (num err : Register a) (e : Machine a D) : Prop where
  shows : ∀ f ∈ cpuState a, Shows m num err (field a e.mem e.stateArg f) f
  aligned : a = .x86_64 → (e.cpu.sp.val + 8) % 16 = 0
  masked : e.cpu.flags.val.testBit 9 = false
  dev : e.dev = m.dev
  frame : ChangedIn (Span (m.cpu.frameBase - depth a) (depth a)) m.mem e.mem

/-- The calling convention, as far as an interrupt needs it: any register of the processor may change that is
saved, and any memory but the state, as high as `top`. -/
structure Obeys (top : ℕ) (e r : Machine a D) : Prop where
  sp : r.cpu.sp = e.cpu.sp
  gpr : ∀ x, x ∉ gprs a → r.cpu.gpr x = e.cpu.gpr x
  sreg : r.cpu.sreg = e.cpu.sreg
  ss : r.cpu.ss = e.cpu.ss
  idtr : r.cpu.idtr = e.cpu.idtr
  gdtr : r.cpu.gdtr = e.cpu.gdtr
  state : ∀ b : ℕ, e.stateArg ≤ b → b < top → r.mem b = e.mem b

def Instr.isPlain : Instr → Bool
  | call _ => false
  | _ => true

def atCall (σ : Setting a D) (code : List Instr) (m : Machine a D) : Machine a D :=
  (run σ (code.takeWhile Instr.isPlain) m).push σ.returnTo

/-! ### Back from the handler -/

def places : Arch → List Place
  | .x86_64 =>
    [.r15, .r14, .r13, .r12, .bp, .bx, .r11, .r10, .r9, .r8, .ax, .cx, .dx, .si, .di].map Place.gpr
  | .x86 => [.gs, .fs, .es, .ds].map Place.sreg ++ popaPlaces

def callWords : Arch → ℕ
  | .x86_64 => 1
  | .x86 => 2

def leave (r : Machine a D) : Machine a D := (((places a).foldl Machine.popTo (r.drop (callWords a))).drop 2).iret

variable {σ : Setting a D} {m e r : Machine a D} {base : ℕ} {num err : Register a} {vs us : List (Register a)}

theorem drop_drop (m : Machine a D) (j k : ℕ) : (m.drop j).drop k = m.drop (j + k) :=
  congrArg m.withStack (Stack.drop_drop m.stack j k)

theorem exec_addSp (σ : Setting a D) (m : Machine a D) (k : ℕ) : exec σ m (.addSp (a.wordBytes * k)) = m.drop k := rfl

theorem iret_frame {c : Cpu a} (h : Extends c.frameBase m.stack c.frame) (hss : m.cpu.ss = c.ss) :
    m.iret = { m with cpu := { m.cpu with ip := c.ip, cs := c.cs, flags := c.flags, sp := c.sp, ss := c.ss } } := by
  have hslot (k : ℕ) (hk : k < c.frame.length) : m.slot k = c.frame[k] := h.holds.get hk
  cases a with
  | x86 =>
    have hip : m.slot 0 = c.ip := hslot 0 (by simp [Cpu.frame])
    have hcs : m.slot 1 = word _ c.cs := hslot 1 (by simp [Cpu.frame])
    have hflags : m.slot 2 = c.flags := hslot 2 (by simp [Cpu.frame])
    have hdrop : (m.drop 3).cpu.sp = c.sp := by
      apply Fin.ext
      have hsp : m.cpu.sp.val + Arch.x86.wordBytes * 3 = c.sp := h.sp
      exact (congrArg (fun x => (word _ x).val) hsp).trans (val_word c.sp.isLt)
    simp [Machine.iret, hip, hcs, hflags, hdrop, selector_word, hss]
  | x86_64 =>
    have hip : m.slot 0 = c.ip := hslot 0 (by simp [Cpu.frame])
    have hcs : m.slot 1 = word _ c.cs := hslot 1 (by simp [Cpu.frame])
    have hflags : m.slot 2 = c.flags := hslot 2 (by simp [Cpu.frame])
    have hsp : m.slot 3 = c.sp := hslot 3 (by simp [Cpu.frame])
    have hss' : m.slot 4 = word _ c.ss := hslot 4 (by simp [Cpu.frame])
    simp [Machine.iret, hip, hcs, hflags, hsp, hss', selector_word]

theorem gpr_mem_places (x : Gpr) : Place.gpr x ∈ places a ↔ x ∈ gprs a := by
  cases a <;> cases x <;> decide

structure Interrupted (c : Cpu a) (e : Machine a D) : Prop where
  agrees : AgreesOutside (places a) c e.cpu
  ss : e.cpu.ss = c.ss
  idtr : e.cpu.idtr = c.idtr
  gdtr : e.cpu.gdtr = c.gdtr

theorem Interrupted.obeys {c : Cpu a} (h : Interrupted c e) (hr : Obeys base e r) : Interrupted c r := by
  refine ⟨⟨fun x hx => ?_, fun s hs => ?_⟩, hr.ss.trans h.ss, hr.idtr.trans h.idtr, hr.gdtr.trans h.gdtr⟩
  · rw [← h.agrees.gpr x hx]
    exact hr.gpr x fun hmem => hx ((gpr_mem_places x).mpr hmem)
  · rw [← h.agrees.sreg s hs, hr.sreg]

theorem leave_restores {c : Cpu a} {back words : List (Register a)} (hbase : c.frameBase < 256 ^ a.wordBytes)
    (hstack : Extends c.frameBase e.stack (back ++ (words ++ [num, err] ++ c.frame)))
    (hback : back.length = callWords a) (harg : e.stateArg.val = e.cpu.sp + a.wordBytes * callWords a)
    (hwords : List.Forall₂ (Saves c) words (places a)) (he : Interrupted c e) (hr : Obeys c.frameBase e r) :
    leave r = { r with cpu := { c with sse := r.cpu.sse } } := by
  have hval : (r.drop (callWords a)).cpu.sp.val = e.stateArg := by
    have hdrop := Stack.val_drop hstack hbase
    rw [hback] at hdrop
    change (word _ (r.cpu.sp + a.wordBytes * callWords a)).val = _
    rw [hr.sp, harg]
    exact hdrop
  have hdrop := hstack.drop hbase
  rw [hback] at hdrop
  -- the handler has left the words alone
  have hcalled : Extends c.frameBase (r.drop (callWords a)).stack (words ++ ([num, err] ++ c.frame)) := by
    have hsp := hdrop.sp
    have hholds := hdrop.holds
    have hsame : (e.stack.drop (callWords a)).sp.val = e.stateArg := by
      rw [← hval]
      change (word _ (e.cpu.sp + _)).val = (word _ (r.cpu.sp + _)).val
      rw [hr.sp]
    rw [hsame] at hsp hholds
    rw [← List.append_assoc]
    refine ⟨?_, ?_⟩
    · change (r.drop (callWords a)).cpu.sp.val + _ = _
      rw [hval]
      exact hsp
    · change Holds r.mem (r.drop (callWords a)).cpu.sp.val _
      rw [hval]
      apply hholds.congr
      intro b hb
      rw [mem_span] at hb
      exact hr.state b hb.1 (by omega)
  have hagrees := (he.obeys hr).agrees
  obtain ⟨hrest, hcpu, hmem, hdev⟩ := restores (m := r.drop (callWords a)) hbase hwords hcalled
    ⟨hagrees.gpr, hagrees.sreg⟩
  have hframe := hrest.drop hbase
  unfold leave
  generalize (places a).foldl Machine.popTo (r.drop (callWords a)) = p at *
  have hss : (p.drop 2).cpu.ss = c.ss := (congrArg Cpu.ss hcpu).trans (he.obeys hr).ss
  rw [iret_frame (m := p.drop 2) hframe hss]
  change Machine.mk { p.cpu with ip := c.ip, cs := c.cs, flags := c.flags, sp := c.sp, ss := c.ss } p.mem p.dev = _
  rw [hcpu, hmem, hdev, ← (he.obeys hr).idtr, ← (he.obeys hr).gdtr]
  rfl

/-! ### On the way to the handler -/

variable {m₀ : Machine a D}

structure CallOf (m₀ e : Machine a D) (base : ℕ) (words vs : List (Register a)) : Prop where
  stack : ∃ back, back.length = callWords a ∧ Extends base e.stack (back ++ (words ++ vs))
  arg : e.stateArg.val = e.cpu.sp + a.wordBytes * callWords a
  saves : List.Forall₂ (Saves m₀.cpu) words (places a)
  interrupted : Interrupted m₀.cpu e
  flags : e.cpu.flags = m₀.cpu.flags
  dev : e.dev = m₀.dev
  frame : ChangedIn (Span (base - depth a) (depth a)) m₀.mem e.mem

def saved64 : List Gpr := [.di, .si, .dx, .cx, .ax, .r8, .r9, .r10, .r11, .bx, .bp, .r12, .r13, .r14, .r15]

theorem run_append (σ : Setting a D) (xs ys : List Instr) (m : Machine a D) :
    run σ (xs ++ ys) m = run σ ys (run σ xs m) := List.foldl_append

theorem run_pop (σ : Setting a D) (rs : List Gpr) (m : Machine a D) :
    run σ (rs.map Instr.pop) m = (rs.map Place.gpr).foldl Machine.popTo m := by
  rw [run, List.foldl_map, List.foldl_map]
  rfl

theorem run_popSeg (σ : Setting a D) (ss : List Sreg) (m : Machine a D) :
    run σ (ss.map Instr.popSeg) m = (ss.map Place.sreg).foldl Machine.popTo m := by
  rw [run, List.foldl_map, List.foldl_map]
  rfl

theorem leave_x86_64 (σ : Setting .x86_64 D) (r : Machine .x86_64 D) :
    run σ [.addSp 16, .iret] (run σ (saved64.reverse.map Instr.pop) (r.drop 1)) = leave r := by
  have hadd (m : Machine .x86_64 D) : exec σ m (.addSp 16) = m.drop 2 := exec_addSp σ m 2
  rw [run_pop, run, List.foldl_cons, hadd]
  rfl

theorem leave_x86 (σ : Setting .x86 D) (r : Machine .x86 D) :
    run σ [.popa, .addSp 8, .iret] (run σ ([.gs, .fs, .es, .ds].map Instr.popSeg) ((r.drop 1).drop 1)) = leave r := by
  have hadd (m : Machine .x86 D) : exec σ m (.addSp 8) = m.drop 2 := exec_addSp σ m 2
  rw [run_popSeg, drop_drop, run, List.foldl_cons, List.foldl_cons, hadd]
  rfl

theorem run_call_x86_64 (σ : Setting .x86_64 D) (f : Callee) (m : Machine .x86_64 D) :
    run σ [.movSp .di, .call f] m = (σ.callee f ((exec σ m (.movSp .di)).push σ.returnTo)).drop 1 := by
  rw [run, List.foldl_cons, List.foldl_cons, List.foldl_nil]
  rfl

theorem run_call_x86 (σ : Setting .x86 D) (f : Callee) (m : Machine .x86 D) :
    run σ [.pushSp, .call f, .addSp 4] m = ((σ.callee f ((exec σ m .pushSp).push σ.returnTo)).drop 1).drop 1 := by
  have hadd (m : Machine .x86 D) : exec σ m (.addSp 4) = m.drop 1 := exec_addSp σ m 1
  rw [run, List.foldl_cons, List.foldl_cons, List.foldl_cons, hadd]
  rfl

theorem Over.interrupted {c : Cpu a} (h : Over base (depth a) m₀ m vs) (hagrees : AgreesOutside (places a) c m₀.cpu)
    (hrest : m₀.cpu.ss = c.ss ∧ m₀.cpu.idtr = c.idtr ∧ m₀.cpu.gdtr = c.gdtr) : Interrupted c m := by
  obtain ⟨hss, hidtr, hgdtr⟩ := hrest
  refine ⟨⟨?_, ?_⟩, ?_, ?_, ?_⟩ <;> rw [h.cpu]
  · exact hagrees.gpr
  · exact hagrees.sreg
  · exact hss
  · exact hidtr
  · exact hgdtr

theorem call_x86_64 {σ : Setting .x86_64 D} {m m₀ : Machine .x86_64 D} {vs : List (Register .x86_64)}
    (h : Over base (depth .x86_64) m₀ m ((saved64.map m₀.cpu.gpr).reverse ++ vs)) (hlen : vs.length ≤ 8)
    (hdepth : depth .x86_64 ≤ base) :
    ∃ words, CallOf m₀ ((exec σ m (.movSp .di)).push σ.returnTo) base words vs := by
  obtain ⟨m', hm'⟩ : ∃ m', m' = exec σ m (.movSp .di) := ⟨_, rfl⟩
  have hdi : m'.cpu.gpr .di = m'.cpu.sp := by rw [hm']; rfl
  have hset : Over base (depth .x86_64) _ m' _ := h.prepare (by rw [hm']; rfl) (by rw [hm']; rfl) (by rw [hm']; rfl)
  have hover := hset.push (by simp [saved64, depth, Arch.wordBytes]; omega) hdepth σ.returnTo
  rw [← hm']
  refine ⟨(saved64.map m₀.cpu.gpr).reverse, ⟨[σ.returnTo], rfl, hover.stack⟩, ?_, ?_, ?_, ?_, hover.dev, hover.frame⟩
  · have hsp := hover.stack.sp
    have hsp' := hset.stack.sp
    have harg : (m'.push σ.returnTo).stateArg = m'.cpu.sp := (if_pos rfl).trans hdi
    rw [List.length_cons, Nat.mul_add_one] at hsp
    rw [harg, callWords, Nat.mul_one]
    simp only [sp_stack] at hsp hsp'
    omega
  · simp [saved64, places, Saves]
  · apply hover.interrupted
    · refine ⟨fun x hx => absurd ((gpr_mem_places x).mpr (by cases x <;> decide)) hx, fun s _ => ?_⟩
      change m'.cpu.sreg s = m₀.cpu.sreg s
      rw [hm']
      exact congrFun h.sreg s
    · exact ⟨rfl, rfl, rfl⟩
  · rw [hover.cpu]

def loadSegments : List Instr :=
  [.movImm16 0x10 .ax, .movSeg .ax .ds, .movSeg .ax .es, .movSeg .ax .fs, .movSeg .ax .gs]

theorem call_x86 {σ : Setting .x86 D} {m m₀ : Machine .x86 D} {words vs : List (Register .x86)}
    (h : Over base (depth .x86) m₀ m (words ++ vs)) (hwords : List.Forall₂ (Saves m₀.cpu) words (places .x86))
    (hlen : vs.length ≤ 8) (hdepth : depth .x86 ≤ base) :
    CallOf m₀ ((exec σ (run σ loadSegments m) .pushSp).push σ.returnTo) base words vs := by
  obtain ⟨m', hm'⟩ : ∃ m', m' = run σ loadSegments m := ⟨_, rfl⟩
  have hset : Over base (depth .x86) _ m' _ := h.prepare (by rw [hm']; rfl) (by rw [hm']; rfl) (by rw [hm']; rfl)
  have hlength : words.length = 12 := hwords.length_eq
  have hargs := hset.push (by simp [hlength, depth, Arch.wordBytes]; omega) hdepth m'.cpu.sp
  have hover := hargs.push (by simp [hlength, depth, Arch.wordBytes]; omega) hdepth σ.returnTo
  rw [← hm']
  refine ⟨⟨[σ.returnTo, m'.cpu.sp], rfl, hover.stack⟩, ?_, hwords, ?_, ?_, hover.dev, hover.frame⟩
  · have hsp := hover.stack.sp
    have hsp' := hset.stack.sp
    have hslot : ((m'.push m'.cpu.sp).push σ.returnTo).stateArg = m'.cpu.sp :=
      (if_neg (by decide)).trans (hover.stack.holds.get (k := 1) (by simp))
    rw [List.length_cons, List.length_cons, Nat.mul_add_one, Nat.mul_add_one] at hsp
    change ((m'.push m'.cpu.sp).push σ.returnTo).stateArg.val = ((m'.push m'.cpu.sp).push σ.returnTo).cpu.sp + _
    rw [hslot, callWords]
    simp only [sp_stack] at hsp hsp'
    omega
  · apply hover.interrupted
    · refine ⟨fun x hx => ?_, fun s hs => absurd (by cases s <;> decide) hs⟩
      have hne : x ≠ .ax := by
        rintro rfl
        exact hx (by decide)
      change m'.cpu.gpr x = m₀.cpu.gpr x
      rw [hm', ← congrFun h.gpr x]
      exact Function.update_of_ne hne _ _
    · exact ⟨rfl, rfl, rfl⟩
  · have hflags := congrArg Cpu.flags hover.cpu
    exact hflags

theorem common_call (h : Over base (depth a) m₀ m vs) (hlen : vs.length ≤ 8) (hdepth : depth a ≤ base) (f : Callee) :
    ∃ e words, CallOf m₀ e base words vs ∧ atCall σ (commonStub f a) m = e ∧
      run σ (commonStub f a) m = leave (σ.callee f e) := by
  cases a with
  | x86 =>
    have hpusha := h.pushAll m.cpu.pushaWords (by simp [Cpu.pushaWords, depth, Arch.wordBytes]; omega) hdepth
    obtain ⟨ws, hsegs, hws⟩ := hpusha.run_pushSeg (σ := σ) [.ds, .es, .fs, .gs]
      (by simp [Cpu.pushaWords, depth, Arch.wordBytes]; omega) hdepth
    rw [← List.append_assoc] at hsegs
    have hwords : List.Forall₂ (Saves m₀.cpu) (ws ++ m.cpu.pushaWords) (places .x86) := by
      apply List.rel_append
      · exact List.forall₂_map_right_iff.mpr hws
      · simp [Cpu.pushaWords, popaPlaces, Saves, h.gpr]
    have hfirst : run σ [.pusha] m = m.pushAll m.cpu.pushaWords := rfl
    refine ⟨_, _, call_x86 (σ := σ) hsegs hwords hlen hdepth, ?_, ?_⟩
    · have hcode : (commonStub f .x86).takeWhile Instr.isPlain = [.pusha] ++ [.ds, .es, .fs, .gs].map Instr.pushSeg ++
          loadSegments ++ [.pushSp] := rfl
      rw [atCall, hcode, run_append, run_append, run_append, hfirst]
      rfl
    · have hcode : commonStub f .x86 = [.pusha] ++ [.ds, .es, .fs, .gs].map Instr.pushSeg ++ loadSegments ++
          [.pushSp, .call f, .addSp 4] ++ [.gs, .fs, .es, .ds].map Instr.popSeg ++ [.popa, .addSp 8, .iret] := rfl
      rw [hcode, run_append, run_append, run_append, run_append, run_append, hfirst, run_call_x86]
      exact leave_x86 σ _
  | x86_64 =>
    have hpushed := h.run_push (σ := σ) saved64 (by simp [saved64, depth, Arch.wordBytes]; omega) hdepth
    obtain ⟨words, he⟩ := call_x86_64 (σ := σ) hpushed hlen hdepth
    refine ⟨_, words, he, ?_, ?_⟩
    · have hcode : (commonStub f .x86_64).takeWhile Instr.isPlain = saved64.map Instr.push ++ [.movSp .di] := rfl
      rw [atCall, hcode, run_append]
      rfl
    · have hcode : commonStub f .x86_64 = saved64.map Instr.push ++ [.movSp .di, .call f] ++
          saved64.reverse.map Instr.pop ++ [.addSp 16, .iret] := rfl
      rw [hcode, run_append, run_append, run_append, run_call_x86_64]
      exact leave_x86_64 σ _

/-! ### The whole interrupt -/

def Machine.gated (m : Machine a D) (offset : Register a) (cs : Selector) : Machine a D :=
  { m with cpu := { m.cpu with
    ip := offset
    cs := cs
    flags := word _ (Nat.ldiff m.cpu.flags GATE_CLEARS)
    sp := word _ m.cpu.frameBase } }

theorem frameBase_le (c : Cpu a) : c.frameBase ≤ c.sp := by
  unfold Cpu.frameBase
  split_ifs <;> omega

theorem frameBase_lt (c : Cpu a) : c.frameBase < 256 ^ a.wordBytes := lt_of_le_of_lt (frameBase_le c) c.sp.isLt

theorem depth_le_frameBase {c : Cpu a} (h : depth a + 16 ≤ c.sp) : depth a ≤ c.frameBase := by
  unfold Cpu.frameBase
  split_ifs <;> omega

theorem length_frame (c : Cpu a) : c.frame.length ≤ 5 := by
  unfold Cpu.frame
  split_ifs <;> simp

theorem enter_over (m : Machine a D) (offset : Register a) (cs : Selector) (err : Option (Register a))
    (hroom : depth a + 16 ≤ m.cpu.sp) :
    Over m.cpu.frameBase (depth a) (m.gated offset cs) (enter offset cs err m) (err.toList ++ m.cpu.frame) := by
  have hnil := Over.nil (m.gated offset cs) (depth a)
  have hbase : (m.gated offset cs).cpu.sp.val = m.cpu.frameBase := val_word (frameBase_lt m.cpu)
  have herr : err.toList.length ≤ 1 := by cases err <;> simp
  have hlen := length_frame m.cpu
  rw [hbase] at hnil
  have hpushed := hnil.pushAll (err.toList ++ m.cpu.frame) ?_ (depth_le_frameBase hroom)
  · rw [List.append_nil] at hpushed
    exact hpushed
  · rw [List.length_append, depth, Nat.mul_comm 24]
    apply Nat.mul_le_mul_left
    simp only [List.length_nil]
    omega

theorem gated_masked (m : Machine a D) (offset : Register a) (cs : Selector) :
    (m.gated offset cs).cpu.flags.val.testBit 9 = false := by
  have hbit : GATE_CLEARS.testBit 9 = true := by decide
  have hclear : (Nat.ldiff m.cpu.flags GATE_CLEARS).testBit 9 = false := by
    rw [Nat.testBit_ldiff, hbit, Bool.not_true, Bool.and_false]
  change (Nat.ldiff m.cpu.flags GATE_CLEARS % 256 ^ a.wordBytes).testBit 9 = false
  simp only [Arch.pow_wordBytes, Nat.testBit_mod_two_pow, hclear, Bool.and_false]

def Place.field : Place → Field
  | .gpr r => .gpr r
  | .sreg s => .sreg s
  | .nowhere => .pushedSp

def onStack (a : Arch) : List Field :=
  (places a).map Place.field ++ ([.int_no, .err_code] ++ ([.ip, .cs, .flags] ++ if a = .x86_64 then [.sp, .ss] else []))

theorem shows_frame (m : Machine a D) (num err : Register a) :
    List.Forall₂ (Shows m num err) m.cpu.frame ([.ip, .cs, .flags] ++ if a = .x86_64 then [.sp, .ss] else []) := by
  cases a with
  | x86 => simp [Cpu.frame, Shows]
  | x86_64 => simp [Cpu.frame, Shows]

theorem shows_words {words : List (Register a)} {c : Cpu a} (h : List.Forall₂ (Saves c) words (places a))
    (hgpr : c.gpr = m.cpu.gpr) (hsreg : c.sreg = m.cpu.sreg) (num err : Register a) :
    List.Forall₂ (Shows m num err) (words ++ ([num, err] ++ m.cpu.frame)) (onStack a) := by
  apply List.rel_append
  · rw [List.forall₂_map_right_iff]
    apply h.imp
    intro v p hv
    cases p with
    | gpr r => exact Eq.trans hv (congrFun hgpr r)
    | sreg s => exact Eq.trans hv (congrFun hsreg s)
    | nowhere => trivial
  · apply List.rel_append
    · exact .cons rfl (.cons rfl .nil)
    · exact shows_frame m num err

theorem field_of_mem {words : List (Register a)} {mem : Mem} {p : ℕ} {f : Field} {R : Register a → Field → Prop}
    (h : Holds mem p words) (hR : List.Forall₂ R words (onStack a)) (hf : f ∈ onStack a) : R (field a mem p f) f := by
  have hstate : ∃ rest, cpuState a = onStack a ++ rest := by
    cases a with
    | x86 => exact ⟨[.sp, .ss], rfl⟩
    | x86_64 => exact ⟨[], rfl⟩
  obtain ⟨rest, hrest⟩ := hstate
  have hlt := List.idxOf_lt_length_iff.mpr hf
  have hidx : (cpuState a).idxOf f = (onStack a).idxOf f := by rw [hrest, List.idxOf_append_of_mem hf]
  have hk : (onStack a).idxOf f < words.length := by
    rw [hR.length_eq]
    exact hlt
  have hget := hR.get hk hlt
  rw [field, hidx, h.get hk]
  simpa using hget

theorem CallOf.called {words : List (Register a)} {offset : Register a} {cs : Selector}
    (h : CallOf (m.gated offset cs) e m.cpu.frameBase words ([num, err] ++ m.cpu.frame)) : Called m num err e := by
  obtain ⟨⟨back, hback, hstack⟩, harg, hsaves, -, hflags, hdev, hframe⟩ := h
  have hholds : Holds e.mem e.stateArg (words ++ ([num, err] ++ m.cpu.frame)) := by
    rw [harg, ← hback]
    exact hstack.holds.drop
  refine ⟨fun f hf => ?_, ?_, ?_, hdev, hframe⟩
  · by_cases hmem : f ∈ onStack a
    · exact field_of_mem hholds (shows_words (m := m) hsaves rfl rfl num err) hmem
    · cases a with
      | x86 =>
        have hrest : ∀ f ∈ cpuState .x86, f ∉ onStack .x86 → f = .sp ∨ f = .ss := by decide
        rcases hrest f hf hmem with rfl | rfl
        · exact fun ha => nomatch ha
        · exact fun ha => nomatch ha
      | x86_64 => exact absurd hf hmem
  · rintro rfl
    have hlength : words.length = 15 := hsaves.length_eq
    have hframe : m.cpu.frameBase = m.cpu.sp - m.cpu.sp % 16 := rfl
    have htotal : (back ++ (words ++ ([num, err] ++ m.cpu.frame))).length = 23 := by
      simp [hback, hlength, callWords, Cpu.frame]
    have hsp : e.cpu.sp.val + 8 * (back ++ (words ++ ([num, err] ++ m.cpu.frame))).length = m.cpu.frameBase := hstack.sp
    omega
  · rw [hflags]
    exact gated_masked m offset cs

theorem CallOf.leave {words : List (Register a)} {offset : Register a} {cs : Selector}
    (h : CallOf (m.gated offset cs) e m.cpu.frameBase words ([num, err] ++ m.cpu.frame))
    (hr : Obeys m.cpu.frameBase e r) : leave r = { r with cpu := { m.cpu with sse := r.cpu.sse } } := by
  obtain ⟨⟨back, hback, hstack⟩, harg, hsaves, hinterrupted, -, -, -⟩ := h
  rw [← List.append_assoc words] at hstack
  apply leave_restores (frameBase_lt m.cpu) hstack hback harg _ _ hr
  · apply hsaves.imp
    intro v p hv
    cases p with
    | gpr r => exact hv
    | sreg s => exact hv
    | nowhere => trivial
  · obtain ⟨⟨hgpr, hsreg⟩, hss, hidtr, hgdtr⟩ := hinterrupted
    exact ⟨⟨hgpr, hsreg⟩, hss, hidtr, hgdtr⟩

theorem depth_words (a : Arch) : a.wordBytes * 8 ≤ depth a := by
  rw [depth, Nat.mul_comm 24]
  exact Nat.mul_le_mul_left _ (by omega)

theorem stub_over (offset : Register a) (cs : Selector) (err : Option (Register a)) (hroom : depth a + 16 ≤ m.cpu.sp)
    (nums : List (Register a)) (hnums : nums.length ≤ 2) :
    Over m.cpu.frameBase (depth a) (m.gated offset cs) ((enter offset cs err m).pushAll nums)
      (nums ++ (err.toList ++ m.cpu.frame)) := by
  have hlen := length_frame m.cpu
  have herr : err.toList.length ≤ 1 := by cases err <;> simp
  apply (enter_over m offset cs err hroom).pushAll nums _ (depth_le_frameBase hroom)
  apply le_trans (Nat.mul_le_mul_left _ _) (depth_words a)
  rw [List.length_append]
  omega

theorem atCall_pushImm (σ : Setting a D) (nums : List ℕ) (code : List Instr) (m : Machine a D) :
    atCall σ (nums.reverse.map .pushImm ++ code) m = atCall σ code (m.pushAll (nums.map (word _))) := by
  induction nums generalizing code with
  | nil => rfl
  | cons n nums ih =>
    rw [List.reverse_cons, List.map_append, List.append_assoc, ih]
    rfl

theorem run_pushImm (σ : Setting a D) (nums : List ℕ) (m : Machine a D) :
    run σ (nums.reverse.map .pushImm) m = m.pushAll (nums.map (word _)) := by
  induction nums with
  | nil => rfl
  | cons n nums ih =>
    rw [List.reverse_cons, List.map_append, run_append, ih]
    rfl

/-- An interrupt request calls `irq_handler` once, with the state of the interrupted program, and leaves nothing behind
but what the handler has done to memory and the devices: the stubs do not save the SSE registers. -/
theorem irq_transparent (σ : Setting a D) (m : Machine a D) (hroom : depth a + 16 ≤ m.cpu.sp) (irqNum : ℕ)
    (offset : Register a) (cs : Selector) :
    let entered := enter offset cs none m
    let e := atCall σ (irqStub a irqNum) entered
    let r := σ.callee .irq_handler e
    Called m (word _ irqNum) (word _ 0) e ∧ (Obeys m.cpu.frameBase e r →
      run σ (irqStub a irqNum) entered = { r with cpu := { m.cpu with sse := r.cpu.sse } }) := by
  have hdepth := depth_le_frameBase hroom
  have hlen := length_frame m.cpu
  have hover := stub_over offset cs none hroom ([irqNum, 0].map (word _)) (by simp)
  obtain ⟨e, words, he, hat, hrun⟩ := common_call (σ := σ) hover (by simp; omega) hdepth .irq_handler
  have hstub : irqStub a irqNum = [irqNum, 0].reverse.map .pushImm ++ commonStub .irq_handler a := rfl
  dsimp only
  rw [hstub, atCall_pushImm, hat, run_append, run_pushImm, hrun]
  exact ⟨he.called, fun hobeys => he.leave hobeys⟩

/-! ### Exceptions -/

def errorCode (num : ℕ) (code : Register a) : Option (Register a) := if num ∈ ERROR_CODE then some code else none

theorem error_codes {num : ℕ} : num ∈ ERROR_CODE ↔ num ∈ ISR_ERRCODE ∨ num = 21 ∨ num = 29 := by
  simp [ERROR_CODE, ISR_ERRCODE]
  omega

theorem field_get {words : List (Register a)} {mem : Mem} {p k : ℕ} {f : Field} (h : Holds mem p words)
    (hf : (cpuState a).idxOf f = k) {v : Register a} (hv : words[k]? = some v) : field a mem p f = v := by
  obtain ⟨hk, hget⟩ := List.getElem?_eq_some_iff.mp hv
  rw [field, hf, h.get hk, hget]

theorem isr_extra (σ : Setting a D) (m : Machine a D) (hroom : depth a + 16 ≤ m.cpu.sp) {num : ℕ}
    (hextra : num = 21 ∨ num = 29) (code : Register a) (offset : Register a) (cs : Selector) :
    let e := atCall σ (isrStub a num) (enter offset cs (errorCode num code) m)
    (∃ words, List.Forall₂ (Saves m.cpu) words (places a) ∧
      Holds e.mem e.stateArg (words ++ ([num, 0].map (word _) ++ code :: m.cpu.frame))) ∧
      (a = .x86_64 → (e.cpu.sp.val + 8) % 16 = 8) := by
  have hdepth := depth_le_frameBase hroom
  have hlen := length_frame m.cpu
  have herr : errorCode num code = some code := if_pos (error_codes.mpr (.inr hextra))
  have hstub : isrStub a num = [num, 0].reverse.map .pushImm ++ commonStub .isr_handler a := by
    rcases hextra with rfl | rfl <;> rfl
  have hover := stub_over offset cs (some code) hroom ([num, 0].map (word _)) (by simp)
  obtain ⟨e, words, he, hat, -⟩ := common_call (σ := σ) hover (by simp; omega) hdepth .isr_handler
  rw [herr, hstub, atCall_pushImm, hat]
  obtain ⟨⟨back, hback, hstack⟩, harg, hsaves, -, -, -, -⟩ := he
  have hlength : words.length = (places a).length := hsaves.length_eq
  have hholds := hstack.holds.drop
  rw [hback, sp_stack, ← harg] at hholds
  refine ⟨⟨words, ?_, hholds⟩, ?_⟩
  · apply hsaves.imp
    intro v p hv
    cases p with
    | gpr r => exact hv
    | sreg s => exact hv
    | nowhere => trivial
  · rintro rfl
    have htotal : back.length + (words.length + 8) = 24 := by
      rw [hback, hlength]
      decide
    have hsp := hstack.sp
    have hwords : (back ++ (words ++ ([num, 0].map (word _) ++ ((some code).toList ++ m.cpu.frame)))).length = 24 := by
      simp [← htotal, Cpu.frame]
    rw [hwords] at hsp
    have hsp' : e.cpu.sp.val + 8 * 24 = m.cpu.sp - m.cpu.sp % 16 := hsp
    omega

/-- The state is right for every exception but two: the stubs of `#CP` and `#VC` push a second error code, so that the
one of the processor is read as the instruction pointer and the stack is not aligned. -/
theorem isr_state (σ : Setting a D) (m : Machine a D) (hroom : depth a + 16 ≤ m.cpu.sp) (num : ℕ) (code : Register a)
    (offset : Register a) (cs : Selector) :
    let e := atCall σ (isrStub a num) (enter offset cs (errorCode num code) m)
    if num = 21 ∨ num = 29 then
      field a e.mem e.stateArg .ip = code ∧ field a e.mem e.stateArg .cs = m.cpu.ip ∧
        (a = .x86_64 → (e.cpu.sp.val + 8) % 16 = 8)
    else Called m (word _ num) ((errorCode num code).getD (word _ 0)) e := by
  have hdepth := depth_le_frameBase hroom
  have hlen := length_frame m.cpu
  split_ifs with hextra
  · obtain ⟨⟨words, hsaves, hholds⟩, hodd⟩ := isr_extra σ m hroom hextra code offset cs
    have hlength : words.length = (places a).length := hsaves.length_eq
    have hip : (cpuState a).idxOf .ip = words.length + 2 := by rw [hlength]; cases a <;> decide
    have hcs : (cpuState a).idxOf .cs = words.length + 3 := by rw [hlength]; cases a <;> decide
    exact ⟨field_get hholds hip (by simp), field_get hholds hcs (by simp [Cpu.frame]), hodd⟩
  · by_cases hcode : num ∈ ISR_ERRCODE
    · have herr : errorCode num code = some code := if_pos (error_codes.mpr (.inl hcode))
      have hstub : isrStub a num = [num].reverse.map .pushImm ++ commonStub .isr_handler a := by
        rw [isrStub, if_pos hcode]
        rfl
      have hover := stub_over offset cs (some code) hroom ([num].map (word _)) (by simp)
      obtain ⟨e, words, he, hat, -⟩ := common_call (σ := σ) hover (by simp; omega) hdepth .isr_handler
      rw [herr, hstub, atCall_pushImm, hat]
      exact he.called
    · have herr : errorCode num code = none := if_neg fun hmem => (error_codes.mp hmem).elim hcode hextra
      have hstub : isrStub a num = [num, 0].reverse.map .pushImm ++ commonStub .isr_handler a := by
        rw [isrStub, if_neg hcode]
        rfl
      have hover := stub_over offset cs none hroom ([num, 0].map (word _)) (by simp)
      obtain ⟨e, words, he, hat, -⟩ := common_call (σ := σ) hover (by simp; omega) hdepth .isr_handler
      rw [herr, hstub, atCall_pushImm, hat]
      exact he.called

end JurkOS.Kernel.Interrupts
