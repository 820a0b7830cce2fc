import JurkOS.Kernel.Drivers.Scancodes
import JurkOS.Kernel.Interrupts.Pic

/-!
The keyboard on its way to `keyboard_getchar`: the keyboard controller, the interrupt
controllers, the processor and `irq_handler`, with every device in between at any time.
-/

namespace JurkOS.Kernel.Interrupts

open Lib.Run
open Keyboard (Console)

inductive Handler
  | keyboard

/-- Where the processor is. Interrupts are masked from `idt_init` to its `sti`, and from an
acknowledgement to the `iret`. -/
inductive Mode
  | remap (rest : List (ℕ × UInt8))
  | program
  | noticed
  | called (vector : ℕ)
  | reading (vector : ℕ)
  | ending (rest : List (ℕ × UInt8))

structure Board where
  pic : Pic
  mode : Mode
  interruptible : Bool
  handlers : ℕ → Option Handler
  -- the scancodes behind the controller's output buffer
  waiting : List UInt8
  output : Option UInt8
  console : Console
  pressed : List UInt8
  handled : List UInt8
  -- a byte was left in the output buffer
  missed : Bool

def registerInterruptHandler (b : Board) (n : ℕ) (handler : Handler) : Board :=
  { b with handlers := Function.update b.handlers n (some handler) }

def keyboardInit (b : Board) : Board := registerInterruptHandler b 33 .keyboard

theorem keyboardInit_handler (b : Board) : (keyboardInit b).handlers 33 = some .keyboard := by
  simp [keyboardInit, registerInterruptHandler]

/-- A write to a port; the first word to the master forgets a request that still stands. -/
def Board.outb (b : Board) (w : ℕ × UInt8) : Board :=
  { b with
    pic := b.pic.outb w.1 w.2
    missed := b.missed || (w.1 == 0x20 && w.2.toNat.testBit 4 && b.output.isSome) }

/-- What `inb(0x60)` gives. -/
def Board.scancode (b : Board) (stale : UInt8) : UInt8 := b.output.getD stale

/-- `keyboard_interrupt_handler`, which nothing of the processor's can interrupt. -/
def Board.read (b : Board) (stale : UInt8) : Board :=
  { b with
    output := none
    pic := b.pic.setLine 1 false
    console := b.console.irq (b.scancode stale)
    handled := b.handled ++ [b.scancode stale] }

inductive Device
  | press (scancode : UInt8)
  | transfer
  | line (irq : Fin 16) (level : Bool)

inductive Code
  | write
  | sti
  | keyboardInit
  | flag (interruptible : Bool)
  | getchar
  | notice
  | acknowledge
  | dispatch
  | inb (stale : UInt8)
  | iret

inductive BoardStep : Board → Device ⊕ Code → Board → Prop
  | press (b : Board) (scancode : UInt8) : BoardStep b (.inl (.press scancode))
      { b with waiting := b.waiting ++ [scancode], pressed := b.pressed ++ [scancode] }
  | transfer {b : Board} {scancode : UInt8} {rest : List UInt8} (hempty : b.output = none)
      (hwaiting : b.waiting = scancode :: rest) : BoardStep b (.inl .transfer)
      { b with waiting := rest, output := some scancode, pic := b.pic.setLine 1 true }
  | line (b : Board) {irq : Fin 16} (level : Bool) (hkeyboard : irq ≠ 1) (hcascade : irq ≠ 2) :
      BoardStep b (.inl (.line irq level)) { b with pic := b.pic.setLine irq level }
  | write {b : Board} {w : ℕ × UInt8} {rest : List (ℕ × UInt8)} (h : b.mode = .remap (w :: rest)) :
      BoardStep b (.inr .write) { b.outb w with mode := .remap rest }
  | sti {b : Board} (h : b.mode = .remap []) :
      BoardStep b (.inr .sti) { b with mode := .program, interruptible := true }
  | keyboardInit {b : Board} (h : b.mode = .program) : BoardStep b (.inr .keyboardInit) (keyboardInit b)
  | flag {b : Board} (h : b.mode = .program) (interruptible : Bool) :
      BoardStep b (.inr (.flag interruptible)) { b with interruptible := interruptible }
  | getchar {b : Board} {w : Console} (h : b.mode = .program) (hstep : Keyboard.Step b.console .getchar w) :
      BoardStep b (.inr .getchar) { b with console := w }
  | notice {b : Board} (h : b.mode = .program) (hif : b.interruptible = true)
      (hint : b.pic.master.asserted.isSome = true) : BoardStep b (.inr .notice) { b with mode := .noticed }
  -- a line may have dropped since
  | acknowledge {b : Board} (h : b.mode = .noticed) : BoardStep b (.inr .acknowledge)
      { b with pic := b.pic.acknowledge.1, mode := .called b.pic.acknowledge.2 }
  | handle {b : Board} {vector : ℕ} (h : b.mode = .called vector) (hhandler : b.handlers vector = some .keyboard) :
      BoardStep b (.inr .dispatch) { b with mode := .reading vector }
  | unhandled {b : Board} {vector : ℕ} (h : b.mode = .called vector) (hhandler : b.handlers vector = none) :
      BoardStep b (.inr .dispatch)
        { b with mode := .ending (endOfInterrupt vector), missed := b.missed || vector == 33 }
  | inb {b : Board} {vector : ℕ} (h : b.mode = .reading vector) (stale : UInt8) :
      BoardStep b (.inr (.inb stale)) { b.read stale with mode := .ending (endOfInterrupt vector) }
  | endWrite {b : Board} {w : ℕ × UInt8} {rest : List (ℕ × UInt8)} (h : b.mode = .ending (w :: rest)) :
      BoardStep b (.inr .write) { b.outb w with mode := .ending rest }
  | iret {b : Board} (h : b.mode = .ending []) : BoardStep b (.inr .iret) { b with mode := .program }

/-- The machine as the firmware hands it over. -/
structure Firmware (b : Board) : Prop where
  mode : b.mode = .remap picRemap
  handlers : ∀ n, b.handlers n = none
  wired : b.pic.master.line 1 = b.output.isSome
  console : b.console = Keyboard.start
  pressed : b.pressed = b.output.toList ++ b.waiting
  handled : b.handled = []
  missed : b.missed = false

/-! ### The invariant -/

def idle : Setup × Setup := (kernelMaster fun _ => false, kernelSlave)

def Mode.Serves : Mode → Prop
  | called vector => vector = 33
  | reading _ => True
  | _ => False

def Mode.Fits (s : Setup × Setup) : Mode → Prop
  | remap rest => rest <:+ picRemap.tail ∧ rest.foldl writeSetups s = idle ∧ s.1.levelTriggered = false
  | program => s = idle
  | noticed => s = idle
  | called vector => IsVector vector ∧ s = (kernelMaster (servicing vector), kernelSlave)
  | reading vector => IsVector vector ∧ s = (kernelMaster (servicing vector), kernelSlave)
  | ending rest =>
    (rest = [(0x20, 0x20)] ∧ ∃ vector, IsVector vector ∧ s = (kernelMaster (servicing vector), kernelSlave)) ∨
      (rest = [] ∧ s = idle)

def Deaf (b : Board) : Prop :=
  b.output.isSome = true ∧ b.pic.master.request keyboardLine = false ∧ ¬b.mode.Serves

structure Sound (b : Board) : Prop where
  latched : b.pic.master.Latched
  wired : b.pic.master.line 1 = b.output.isSome
  fits : b.mode.Fits b.pic.setups
  handlers : ∀ n, n ≠ 33 → b.handlers n = none
  unregistered : b.handlers 33 = none → b.handled = [] ∧ ∀ vector, b.mode ≠ .reading vector
  serves : b.mode.Serves → b.output.isSome = true ∧ b.pic.master.request 1 = false
  pressed : b.pressed = b.handled ++ b.output.toList ++ b.waiting
  console : Keyboard.Sound b.console
  decodes : Keyboard.Decodes b.handled b.console
  missed : b.missed = true → Deaf b ∧ b.handled = []
  heard : b.missed = false → ¬Deaf b

variable {b b' : Board}

/-! ### What the devices do -/

theorem Sound.transfer {scancode : UInt8} {rest : List UInt8} (h : Sound b) (hempty : b.output = none)
    (hwaiting : b.waiting = scancode :: rest) :
    Sound { b with waiting := rest, output := some scancode, pic := b.pic.setLine 1 true } := by
  obtain ⟨hline, hrequest⟩ := setLine_keyboard b.pic true
  have hlow : b.pic.master.line 1 = false := by rw [h.wired, hempty]; rfl
  have hunserved : ¬b.mode.Serves := by
    intro hserves
    have hfull := (h.serves hserves).1
    rw [hempty] at hfull
    exact Bool.false_ne_true hfull
  have hraised : (b.pic.setLine 1 true).master.request 1 = true := by rw [hrequest, hlow]; simp
  refine { h with
    latched := latched_setLine h.latched 1 true
    wired := hline
    fits := (setups_setLine b.pic 1 true).symm ▸ h.fits
    serves := fun hserves => absurd hserves hunserved
    pressed := ?_
    missed := fun hmissed => ?_
    heard := fun _ hdeaf => ?_ }
  · rw [h.pressed, hempty, hwaiting]
    simp
  · have hfull := (h.missed hmissed).1.1
    rw [hempty] at hfull
    exact absurd hfull Bool.false_ne_true
  · exact Bool.false_ne_true (hdeaf.2.1.symm.trans hraised)

theorem Sound.line (h : Sound b) {irq : Fin 16} (level : Bool) (hkeyboard : irq ≠ 1) :
    Sound { b with pic := b.pic.setLine irq level } := by
  obtain ⟨hline, hrequest⟩ := setLine_other (p := b.pic) hkeyboard level
  refine { h with
    latched := latched_setLine h.latched irq level
    wired := hline.trans h.wired
    fits := (setups_setLine b.pic irq level).symm ▸ h.fits
    serves := fun hserves => ⟨(h.serves hserves).1, hrequest.trans (h.serves hserves).2⟩
    missed := fun hmissed => ?_
    heard := fun hmissed hdeaf => ?_ }
  · obtain ⟨⟨hfull, hforgotten, hunserved⟩, hnone⟩ := h.missed hmissed
    exact ⟨⟨hfull, hrequest.trans hforgotten, hunserved⟩, hnone⟩
  · exact h.heard hmissed ⟨hdeaf.1, hrequest.symm.trans hdeaf.2.1, hdeaf.2.2⟩

/-! ### What the processor does -/

theorem Sound.toMode (h : Sound b) (mode : Mode) (interruptible : Bool) (hfits : mode.Fits b.pic.setups)
    (hserves : mode.Serves ↔ b.mode.Serves) (hreading : ∀ vector, mode = .reading vector → b.handlers 33 ≠ none) :
    Sound { b with mode := mode, interruptible := interruptible } := by
  refine { h with
    fits := hfits
    unregistered := fun hnone => ⟨(h.unregistered hnone).1, fun vector hmode => hreading vector hmode hnone⟩
    serves := fun hs => h.serves (hserves.mp hs)
    missed := fun hmissed => ?_
    heard := fun hmissed hdeaf => ?_ }
  · obtain ⟨⟨hfull, hforgotten, hunserved⟩, hnone⟩ := h.missed hmissed
    exact ⟨⟨hfull, hforgotten, fun hs => hunserved (hserves.mp hs)⟩, hnone⟩
  · exact h.heard hmissed ⟨hdeaf.1, hdeaf.2.1, fun hs => hdeaf.2.2 (hserves.mpr hs)⟩

theorem Sound.outb (h : Sound b) {w : ℕ × UInt8} {mode : Mode} (hw : (w.1 == 0x20 && w.2.toNat.testBit 4) = false)
    (hfits : mode.Fits (writeSetups b.pic.setups w)) (hmode : ¬b.mode.Serves) (hserves : ¬mode.Serves) :
    Sound { b.outb w with mode := mode } := by
  obtain ⟨hline, hrequest⟩ := outb_master b.pic w.1 w.2 (i := 1) (by decide)
  rw [hw, Bool.not_false, Bool.and_true] at hrequest
  have hmissed : (b.outb w).missed = b.missed := by simp [Board.outb, hw]
  refine { h with
    latched := latched_outb h.latched w.1 w.2
    wired := hline.trans h.wired
    fits := (setups_outb b.pic w.1 w.2).symm ▸ hfits
    unregistered := fun hnone => ⟨(h.unregistered hnone).1, fun vector hreading => ?_⟩
    serves := fun hs => absurd hs hserves
    missed := fun hm => ?_
    heard := fun hm hdeaf => ?_ }
  · change mode = _ at hreading
    rw [hreading] at hserves
    exact hserves trivial
  · obtain ⟨⟨hfull, hforgotten, -⟩, hnone⟩ := h.missed (hmissed.symm.trans hm)
    exact ⟨⟨hfull, hrequest.trans hforgotten, hserves⟩, hnone⟩
  · exact h.heard (hmissed.symm.trans hm) ⟨hdeaf.1, hrequest.symm.trans hdeaf.2.1, hmode⟩

theorem Sound.acknowledge (h : Sound b) (hmode : b.mode = .noticed) :
    Sound { b with pic := b.pic.acknowledge.1, mode := .called b.pic.acknowledge.2 } := by
  have hidle : b.pic.setups = idle := by
    have hfits := h.fits
    rw [hmode] at hfits
    exact hfits
  have hunserved : ¬b.mode.Serves := by rw [hmode]; exact id
  obtain ⟨hvector, hsetups, hlatched, hline, hrequest, hrequested⟩ := acknowledge_kernel hidle h.latched
  refine { h with
    latched := hlatched
    wired := hline.trans h.wired
    fits := ⟨hvector, hsetups⟩
    unregistered := fun hnone => ⟨(h.unregistered hnone).1, fun vector hreading => nomatch hreading⟩
    serves := fun hserves => ?_
    missed := fun hmissed => ?_
    heard := fun hmissed hdeaf => ?_ }
  · have hkeyboard : b.pic.acknowledge.2 = 33 := hserves
    refine ⟨?_, ?_⟩
    · rw [← h.wired]
      exact h.latched 1 (hrequested hkeyboard)
    · rw [hrequest, hkeyboard]
      simp
  · obtain ⟨⟨hfull, hforgotten, -⟩, hnone⟩ := h.missed hmissed
    refine ⟨⟨hfull, ?_, fun hkeyboard => ?_⟩, hnone⟩
    · rw [hrequest, hforgotten, Bool.false_and]
    · exact Bool.false_ne_true (hforgotten.symm.trans (hrequested hkeyboard))
  · have hother : b.pic.acknowledge.2 ≠ 33 := hdeaf.2.2
    have hforgotten := hdeaf.2.1
    rw [hrequest, bne_iff_ne.mpr hother, Bool.and_true] at hforgotten
    exact h.heard hmissed ⟨hdeaf.1, hforgotten, hunserved⟩

theorem Sound.unhandled (h : Sound b) {vector : ℕ} (hmode : b.mode = .called vector)
    (hhandler : b.handlers vector = none) :
    Sound { b with mode := .ending (endOfInterrupt vector), missed := b.missed || vector == 33 } := by
  have hfits := h.fits
  have hserves := h.serves
  have hmissed := h.missed
  have hheard := h.heard
  rw [hmode] at hfits hserves
  unfold Deaf at hmissed hheard
  rw [hmode] at hmissed hheard
  refine { h with
    fits := .inl ⟨(endOfInterrupt_setups hfits.1).1, vector, hfits⟩
    unregistered := fun hnone => ⟨(h.unregistered hnone).1, fun vector hreading => nomatch hreading⟩
    serves := fun hserves => hserves.elim
    missed := fun hm => ?_
    heard := fun hm hdeaf => ?_ }
  · rcases Bool.or_eq_true_iff.mp hm with hm | hkeyboard
    · obtain ⟨⟨hfull, hforgotten, -⟩, hnone⟩ := hmissed hm
      exact ⟨⟨hfull, hforgotten, id⟩, hnone⟩
    · have hkeyboard := beq_iff_eq.mp hkeyboard
      obtain ⟨hfull, hforgotten⟩ := hserves hkeyboard
      rw [hkeyboard] at hhandler
      exact ⟨⟨hfull, hforgotten, id⟩, (h.unregistered hhandler).1⟩
  · obtain ⟨hold, hother⟩ := Bool.or_eq_false_iff.mp hm
    exact hheard hold ⟨hdeaf.1, hdeaf.2.1, beq_eq_false_iff_ne.mp hother⟩

theorem Sound.inb (h : Sound b) {vector : ℕ} (hmode : b.mode = .reading vector) (stale : UInt8) :
    Sound { b.read stale with mode := .ending (endOfInterrupt vector) } := by
  have hfits := h.fits
  have hserves := h.serves
  rw [hmode] at hfits hserves
  obtain ⟨scancode, hscancode⟩ := Option.isSome_iff_exists.mp (hserves trivial).1
  obtain ⟨hline, hrequest⟩ := setLine_keyboard b.pic false
  have hgiven : b.scancode stale = scancode := by rw [Board.scancode, hscancode]; rfl
  refine
    { latched := latched_setLine h.latched 1 false
      wired := hline
      fits := .inl ⟨(endOfInterrupt_setups hfits.1).1, vector, hfits.1, (setups_setLine b.pic 1 false).trans hfits.2⟩
      handlers := h.handlers
      unregistered := fun hnone => absurd hmode ((h.unregistered hnone).2 vector)
      serves := fun hserves => hserves.elim
      pressed := ?_
      console := h.console.irq _
      decodes := h.decodes.irq h.console _
      missed := fun hm => ?_
      heard := fun _ hdeaf => absurd hdeaf.1 Bool.false_ne_true }
  · change b.pressed = b.handled ++ [b.scancode stale] ++ [] ++ b.waiting
    rw [h.pressed, hscancode, hgiven, List.append_nil]
    rfl
  · have hunserved := (h.missed hm).1.2.2
    rw [hmode] at hunserved
    exact absurd trivial hunserved

/-! ### Every run -/

theorem Sound.vector_of_handler (h : Sound b) {vector : ℕ} {handler : Handler}
    (hhandler : b.handlers vector = some handler) :
    vector = 33 := by
  by_contra hne
  rw [h.handlers vector hne] at hhandler
  exact nomatch hhandler

theorem Mode.Fits.write {s : Setup × Setup} {w : ℕ × UInt8} {rest : List (ℕ × UInt8)}
    (h : (Mode.remap (w :: rest)).Fits s) :
    (w.1 == 0x20 && w.2.toNat.testBit 4) = false ∧ (Mode.remap rest).Fits (writeSetups s w) := by
  obtain ⟨hsuffix, hfold, hedge⟩ := h
  have hother : ∀ w ∈ picRemap.tail, w.1 ≠ 0x20 := by decide
  have hw : w.1 ≠ 0x20 := hother w (hsuffix.subset List.mem_cons_self)
  refine ⟨?_, (List.suffix_cons w rest).trans hsuffix, hfold, ?_⟩
  · rw [beq_eq_false_iff_ne.mpr hw, Bool.false_and]
  · unfold writeSetups
    rw [if_neg hw]
    split_ifs
    · rw [levelTriggered_data]
      exact hedge
    · exact hedge
    · exact hedge
    · exact hedge

theorem Sound.step {e : Device ⊕ Code} (h : Sound b) (hstep : BoardStep b e b') : Sound b' := by
  have hfits := h.fits
  cases hstep with
  | press scancode =>
    refine { h with pressed := ?_ }
    rw [h.pressed, List.append_assoc]
  | transfer hempty hwaiting => exact h.transfer hempty hwaiting
  | line level hkeyboard => exact h.line level hkeyboard
  | write hmode =>
    rw [hmode] at hfits
    obtain ⟨hw, hrest⟩ := hfits.write
    exact h.outb hw hrest (by rw [hmode]; exact id) id
  | sti hmode =>
    rw [hmode] at hfits
    exact h.toMode .program true hfits.2.1 (by rw [hmode]; exact Iff.rfl) (fun vector hreading => nomatch hreading)
  | keyboardInit hmode =>
    refine { h with handlers := fun n hn => ?_, unregistered := fun hnone => ?_ }
    · exact (Function.update_of_ne hn _ _).trans (h.handlers n hn)
    · change Function.update b.handlers 33 _ 33 = none at hnone
      rw [Function.update_self] at hnone
      exact nomatch hnone
  | flag hmode interruptible => exact { h with }
  | getchar hmode hgetchar =>
    exact { h with console := Keyboard.step_sound h.console hgetchar, decodes := h.decodes.getchar hgetchar }
  | notice hmode hif hint =>
    rw [hmode] at hfits
    exact h.toMode .noticed _ hfits (by rw [hmode]; exact Iff.rfl) (fun vector hreading => nomatch hreading)
  | acknowledge hmode => exact h.acknowledge hmode
  | handle hmode hhandler =>
    rw [hmode] at hfits
    have hvector := h.vector_of_handler hhandler
    apply h.toMode (.reading _) _ hfits
    · rw [hmode]
      exact iff_of_true trivial hvector
    · intro _ _ hnone
      rw [hvector, hnone] at hhandler
      exact nomatch hhandler
  | unhandled hmode hhandler => exact h.unhandled hmode hhandler
  | inb hmode stale => exact h.inb hmode stale
  | endWrite hmode =>
    rw [hmode] at hfits
    rcases hfits with ⟨hlast, vector, hvector, hsetups⟩ | ⟨hnone, -⟩
    · obtain ⟨rfl, rfl⟩ := List.cons_eq_cons.mp hlast
      have hidle : writeSetups b.pic.setups (0x20, 0x20) = idle := by
        rw [hsetups]
        exact (endOfInterrupt_setups hvector).2
      exact h.outb (by decide) (Or.inr ⟨rfl, hidle⟩) (by rw [hmode]; exact id) id
    · exact nomatch hnone
  | iret hmode =>
    rw [hmode] at hfits
    rcases hfits with ⟨hrest, -⟩ | ⟨-, hidle⟩
    · exact nomatch hrest
    · exact h.toMode .program _ hidle (by rw [hmode]; exact Iff.rfl) (fun vector hreading => nomatch hreading)

theorem Firmware.initialise (h : Firmware b) : Sound { b.outb (0x20, 0x11) with mode := .remap picRemap.tail } := by
  obtain ⟨hline, hrequest⟩ := outb_master b.pic 0x20 0x11 (i := 1) (by decide)
  have hforgotten : (b.outb (0x20, 0x11)).pic.master.request 1 = false := by
    apply hrequest.trans
    rw [show (!((0x20 : ℕ) == 0x20 && (0x11 : UInt8).toNat.testBit 4)) = false by decide, Bool.and_false]
  have hmissed : (b.outb (0x20, 0x11)).missed = b.output.isSome := by
    have hfirst : (0x11 : UInt8).toNat.testBit 4 = true := by decide
    simp only [Board.outb, h.missed, hfirst, beq_self_eq_true, Bool.true_and, Bool.false_or]
  refine
    { latched := latched_initialised b.pic
      wired := hline.trans h.wired
      fits := ⟨List.suffix_refl _, ?_, ?_⟩
      handlers := fun n _ => h.handlers n
      unregistered := fun _ => ⟨h.handled, fun vector hreading => nomatch hreading⟩
      serves := fun hserves => hserves.elim
      pressed := ?_
      console := ?_
      decodes := ?_
      missed := fun hm => ⟨⟨hmissed.symm.trans hm, hforgotten, id⟩, h.handled⟩
      heard := fun hm hdeaf => ?_ }
  · have hfirst : picRemap = (0x20, 0x11) :: picRemap.tail := rfl
    have hall := picRemap_setups b.pic.setups
    rw [hfirst, List.foldl_cons] at hall
    change picRemap.tail.foldl writeSetups (b.pic.outb 0x20 0x11).setups = idle
    rw [setups_outb]
    exact hall
  · have hsetups := setups_outb b.pic 0x20 0x11
    exact congrArg (fun s => s.1.levelTriggered) hsetups
  · change b.pressed = b.handled ++ _ ++ _
    rw [h.pressed, h.handled]
    rfl
  · change Keyboard.Sound b.console
    rw [h.console]
    exact Keyboard.start_sound
  · change Keyboard.Decodes b.handled b.console
    rw [h.console, h.handled]
    exact Keyboard.start_decodes
  · exact Bool.false_ne_true ((hmissed.symm.trans hm).symm.trans hdeaf.1)

theorem Firmware.step {e : Device ⊕ Code} (h : Firmware b) (hstep : BoardStep b e b') : Firmware b' ∨ Sound b' := by
  have hmode := h.mode
  cases hstep with
  | press scancode =>
    refine .inl { h with pressed := ?_ }
    rw [h.pressed, List.append_assoc]
  | transfer hempty hwaiting =>
    refine .inl { h with wired := (setLine_keyboard b.pic true).1, pressed := ?_ }
    rw [h.pressed, hempty, hwaiting]
    rfl
  | line level hkeyboard => exact .inl { h with wired := (setLine_other hkeyboard level).1.trans h.wired }
  | write hwrite =>
    obtain ⟨rfl, rfl⟩ := List.cons_eq_cons.mp (Mode.remap.inj (hmode.symm.trans hwrite))
    exact .inr h.initialise
  | sti hsti => exact nomatch Mode.remap.inj (hmode.symm.trans hsti)
  | keyboardInit hprogram => exact nomatch hmode.symm.trans hprogram
  | flag hprogram => exact nomatch hmode.symm.trans hprogram
  | getchar hprogram => exact nomatch hmode.symm.trans hprogram
  | notice hprogram => exact nomatch hmode.symm.trans hprogram
  | acknowledge hnoticed => exact nomatch hmode.symm.trans hnoticed
  | handle hcalled => exact nomatch hmode.symm.trans hcalled
  | unhandled hcalled => exact nomatch hmode.symm.trans hcalled
  | inb hreading => exact nomatch hmode.symm.trans hreading
  | endWrite hending => exact nomatch hmode.symm.trans hending
  | iret hending => exact nomatch hmode.symm.trans hending

theorem reachable_sound (h : Reachable Firmware BoardStep b) : Firmware b ∨ Sound b := by
  apply h.invariant (P := fun b => Firmware b ∨ Sound b)
  · exact fun b hb => .inl hb
  · rintro b e b' (hb | hb) hstep
    · exact hb.step hstep
    · exact .inr (hb.step hstep)

/-! ### A byte in the output buffer is served -/

def CodeSteps : Board → List Code → Board → Prop := Steps fun b c b' => BoardStep b (.inr c) b'

structure Open (b : Board) : Prop where
  mode : b.mode = .program
  interruptible : b.interruptible = true
  handler : b.handlers 33 = some .keyboard

theorem Sound.program (h : Sound b) (hmode : b.mode = .program) : b.pic.setups = idle := by
  have hfits := h.fits
  rw [hmode] at hfits
  exact hfits

theorem Sound.codeSteps {l : List Code} (h : Sound b) (hsteps : CodeSteps b l b') : Sound b' :=
  Steps.invariant (P := Sound) (fun _ _ _ hs hstep => hs.step hstep) hsteps h

theorem notices (h : Sound b) (hopen : Open b) {i : Fin 8} (hi : b.pic.master.asserted = some i) :
    CodeSteps b [.notice, .acknowledge]
      { b with pic := Pic.wire ⟨b.pic.master.accept i, b.pic.slave⟩, mode := .called (32 + i.val) } := by
  have hack := acknowledge_some (h.program hopen.mode) hi
  have hnotice := BoardStep.notice hopen.mode hopen.interruptible (by rw [hi]; rfl)
  have hacknowledge := BoardStep.acknowledge (b := { b with mode := .noticed }) rfl
  rw [hack] at hacknowledge
  exact .cons hnotice (.single hacknowledge)

theorem finishes (hmode : b.mode = .ending [(0x20, 0x20)]) :
    CodeSteps b [.write, .iret] { b.outb (0x20, 0x20) with mode := .program } :=
  .cons (.endWrite hmode) (.single (.iret rfl))

theorem accept_request {c : Chip} {inService : Fin 8 → Bool} (h : c.setup = kernelMaster inService) (i : Fin 8) :
    (c.accept i).request = Function.update c.request i false := by
  rw [Chip.accept, h]
  rfl

theorem outb_end (b : Board) : b.outb (0x20, 0x20) = { b with pic := b.pic.outb 0x20 0x20 } := by
  have hend : (0x20 : UInt8).toNat.testBit 4 = false := by decide
  simp only [Board.outb, hend, Bool.and_false, Bool.false_and, Bool.or_false]

theorem serve_timer (h : Sound b) (hopen : Open b) (hrequest : b.pic.master.request 0 = true) :
    ∃ l b', CodeSteps b l b' ∧ Open b' ∧ b'.pic.master.request 0 = false ∧ b'.output = b.output ∧
      b'.handled = b.handled ∧ b'.missed = b.missed := by
  have hmaster : b.pic.master.setup = kernelMaster fun _ => false := congrArg Prod.fst (h.program hopen.mode)
  have hnotices := notices h hopen (asserted_zero hmaster hrequest)
  have hunhandled := BoardStep.unhandled
    (b := { b with pic := Pic.wire ⟨b.pic.master.accept 0, b.pic.slave⟩, mode := .called 32 }) rfl
    (h.handlers 32 (by decide))
  have hfinishes := finishes (b := { b with
    pic := Pic.wire ⟨b.pic.master.accept 0, b.pic.slave⟩
    mode := .ending [(0x20, 0x20)]
    missed := b.missed || 32 == 33 }) rfl
  rw [outb_end] at hfinishes
  refine ⟨_, _, hnotices.append (.cons hunhandled hfinishes), ⟨rfl, hopen.interruptible, hopen.handler⟩, ?_, rfl, rfl,
    ?_⟩
  · have hkept := outb_master (Pic.wire ⟨b.pic.master.accept 0, b.pic.slave⟩) 0x20 0x20 (i := 0) (by decide)
    have hwired := wire_master (p := ⟨b.pic.master.accept 0, b.pic.slave⟩) 0 (by decide)
    have haccepted : (b.pic.master.accept 0).request 0 = false := by
      rw [accept_request hmaster, Function.update_self]
    change (Pic.outb _ 0x20 0x20).master.request 0 = false
    rw [hkept.2, hwired.2, haccepted, Bool.false_and]
  · exact Bool.or_false _

theorem serve_keyboard (h : Sound b) (hopen : Open b) (htimer : b.pic.master.request 0 = false)
    (hrequest : b.pic.master.request 1 = true) {scancode : UInt8} (houtput : b.output = some scancode) :
    ∃ l b', CodeSteps b l b' ∧ Open b' ∧ b'.output = none ∧ b'.handled = b.handled ++ [scancode] := by
  have hmaster : b.pic.master.setup = kernelMaster fun _ => false := congrArg Prod.fst (h.program hopen.mode)
  have hnotices := notices h hopen (asserted_one hmaster htimer hrequest)
  have hhandle := BoardStep.handle
    (b := { b with pic := Pic.wire ⟨b.pic.master.accept 1, b.pic.slave⟩, mode := .called 33 }) rfl hopen.handler
  have hinb := BoardStep.inb
    (b := { b with pic := Pic.wire ⟨b.pic.master.accept 1, b.pic.slave⟩, mode := .reading 33 }) rfl 0
  have hend := finishes (b := { Board.read { b with
    pic := Pic.wire ⟨b.pic.master.accept 1, b.pic.slave⟩
    mode := .reading 33 } 0 with mode := .ending [(0x20, 0x20)] }) rfl
  refine ⟨_, _, hnotices.append (.cons hhandle (.cons hinb hend)), ⟨rfl, hopen.interruptible, hopen.handler⟩, rfl, ?_⟩
  change b.handled ++ [b.output.getD 0] = _
  rw [houtput]
  rfl

theorem keyboard_served (h : Reachable Firmware BoardStep b) (hopen : Open b) (hmissed : b.missed = false)
    {scancode : UInt8} (houtput : b.output = some scancode) :
    ∃ l b', CodeSteps b l b' ∧ Open b' ∧ b'.output = none ∧ b'.handled = b.handled ++ [scancode] := by
  have hsound : Sound b := by
    rcases reachable_sound h with hfirmware | hsound
    · exact nomatch hfirmware.mode.symm.trans hopen.mode
    · exact hsound
  have hrequest {b : Board} (hs : Sound b) (ho : Open b) (hm : b.missed = false) (hout : b.output = some scancode) :
      b.pic.master.request 1 = true := by
    by_contra hforgotten
    apply hs.heard hm
    refine ⟨by rw [hout]; rfl, Bool.not_eq_true _ |>.mp hforgotten, ?_⟩
    rw [ho.mode]
    exact id
  cases htimer : b.pic.master.request 0 with
  | false => exact serve_keyboard hsound hopen htimer (hrequest hsound hopen hmissed houtput) houtput
  | true =>
    obtain ⟨l, b₁, hl, hopen₁, htimer₁, houtput₁, hhandled₁, hmissed₁⟩ := serve_timer hsound hopen htimer
    have hsound₁ := hsound.codeSteps hl
    obtain ⟨l', b₂, hl', hopen₂, hempty, hhandled₂⟩ := serve_keyboard hsound₁ hopen₁ htimer₁
      (hrequest hsound₁ hopen₁ (hmissed₁.trans hmissed) (houtput₁.trans houtput)) (houtput₁.trans houtput)
    exact ⟨l ++ l', b₂, hl.append hl', hopen₂, hempty, hhandled₂.trans (by rw [hhandled₁])⟩

theorem remaps {rest : List (ℕ × UInt8)} (hmode : b.mode = .remap rest) (hempty : b.output = none) :
    ∃ l p, CodeSteps b l { b with pic := p, mode := .remap [] } := by
  induction rest generalizing b with
  | nil =>
    refine ⟨[], b.pic, ?_⟩
    rw [← hmode]
    exact .nil b
  | cons w rest ih =>
    have hwrite := BoardStep.write hmode
    have houtb : b.outb w = { b with pic := b.pic.outb w.1 w.2 } := by
      simp only [Board.outb, hempty, Option.isSome_none, Bool.and_false, Bool.or_false]
    rw [houtb] at hwrite
    obtain ⟨l, p, hl⟩ := ih (b := { b with pic := b.pic.outb w.1 w.2, mode := .remap rest }) rfl hempty
    exact ⟨_, p, .cons hwrite hl⟩

theorem CodeSteps.reachable {l : List Code} (h : CodeSteps b l b') (hb : Reachable Firmware BoardStep b) :
    Reachable Firmware BoardStep b' := by
  induction h with
  | nil => exact hb
  | cons hstep _ ih => exact ih (hb.next hstep)

theorem boots (h : Firmware b) (hempty : b.output = none) :
    ∃ b', Reachable Firmware BoardStep b' ∧ Open b' ∧ b'.output = none ∧ b'.waiting = b.waiting ∧ b'.handled = [] ∧
      b'.missed = false := by
  obtain ⟨l, p, hl⟩ := remaps h.mode hempty
  have hboot := hl.reachable (.start h)
  exact ⟨_, (hboot.next (.sti rfl)).next (.keyboardInit rfl), ⟨rfl, rfl, keyboardInit_handler _⟩, hempty, rfl,
    h.handled, h.missed⟩

def bootBoard : Board where
  pic := ⟨⟨configured 0x08 0x04 0xB8 fun _ => false, fun _ => false, fun _ => false⟩,
    ⟨configured 0x70 0x02 0x8F fun _ => false, fun _ => false, fun _ => false⟩⟩
  mode := .remap picRemap
  interruptible := false
  handlers := fun _ => none
  waiting := []
  output := none
  console := Keyboard.start
  pressed := []
  handled := []
  missed := false

theorem bootBoard_firmware : Firmware bootBoard := ⟨rfl, fun _ => rfl, rfl, rfl, rfl, rfl, rfl⟩

theorem letter_waits :
    ∃ b, Reachable Firmware BoardStep b ∧ Open b ∧ b.missed = false ∧ b.output = some 0x1E ∧ b.handled = [] := by
  obtain ⟨b, hboot, hopen, hempty, hwaiting, hhandled, hmissed⟩ := boots bootBoard_firmware rfl
  have hpress := hboot.next (.press b 0x1E)
  have hfirst : b.waiting ++ [0x1E] = [0x1E] := by rw [hwaiting]; rfl
  exact ⟨_, hpress.next (.transfer hempty hfirst), ⟨hopen.mode, hopen.interruptible, hopen.handler⟩, hmissed, rfl,
    hhandled⟩

theorem letter_served : ∃ l b b', CodeSteps b l b' ∧ b'.handled = [0x1E] := by
  obtain ⟨b, hb, hopen, hmissed, houtput, hnone⟩ := letter_waits
  obtain ⟨l, b', hl, -, -, hhandled⟩ := keyboard_served hb hopen hmissed houtput
  rw [hnone] at hhandled
  exact ⟨l, b, b', hl, hhandled⟩

theorem nothing_in_service (h : Reachable Firmware BoardStep b) :
    (b.mode = .program ∨ b.mode = .noticed → b.pic.setups = (kernelMaster fun _ => false, kernelSlave)) ∧
      ∀ vector, b.mode = .called vector ∨ b.mode = .reading vector →
        (vector = 32 ∨ vector = 33 ∨ vector = 39) ∧ b.pic.setups = (kernelMaster (servicing vector), kernelSlave) := by
  rcases reachable_sound h with hfirmware | hsound
  · have hmode := hfirmware.mode
    constructor
    · rintro (hprogram | hnoticed)
      · exact nomatch hmode.symm.trans hprogram
      · exact nomatch hmode.symm.trans hnoticed
    · rintro vector (hcalled | hreading)
      · exact nomatch hmode.symm.trans hcalled
      · exact nomatch hmode.symm.trans hreading
  · have hfits := hsound.fits
    constructor
    · rintro (hprogram | hnoticed)
      · rw [hprogram] at hfits
        exact hfits
      · rw [hnoticed] at hfits
        exact hfits
    · rintro vector (hcalled | hreading)
      · rw [hcalled] at hfits
        exact hfits
      · rw [hreading] at hfits
        exact hfits

theorem idle_after_boot :
    ∃ b, Reachable Firmware BoardStep b ∧ b.pic.setups = (kernelMaster fun _ => false, kernelSlave) := by
  obtain ⟨b, hb, hopen, -⟩ := letter_waits
  exact ⟨b, hb, (nothing_in_service hb).1 (.inl hopen.mode)⟩

theorem keyboard_pipeline (h : Reachable Firmware BoardStep b) :
    b.pressed = b.handled ++ b.output.toList ++ b.waiting ∧
      b.console.returned.Sublist (Keyboard.text false b.handled) ∧
      ((Keyboard.text false b.handled).length ≤ 255 →
        Keyboard.text false b.handled =
          b.console.returned ++ b.console.getchar.inHand ++ b.console.keyboard.queue) := by
  rcases reachable_sound h with hfirmware | hsound
  · rw [hfirmware.pressed, hfirmware.handled, hfirmware.console]
    exact ⟨rfl, List.nil_sublist _, fun _ => rfl⟩
  · have haccounted := hsound.console.accounted
    refine ⟨hsound.pressed, ?_, fun hshort => ?_⟩
    · have hprefix : b.console.returned <+: b.console.accepted := by
        rw [haccounted, List.append_assoc]
        exact List.prefix_append _ _
      exact hprefix.sublist.trans hsound.decodes.sublist
    · rcases hsound.decodes.lossless with heq | hlong
      · rw [← heq, haccounted]
      · omega

theorem letter_pressed : ∃ b, Reachable Firmware BoardStep b ∧ b.pressed = [0x1E] ++ b.waiting := by
  obtain ⟨b, hb, -, -, houtput, hnone⟩ := letter_waits
  have hpressed := (keyboard_pipeline hb).1
  rw [hnone, houtput] at hpressed
  exact ⟨b, hb, hpressed⟩

theorem Sound.step_missed {e : Device ⊕ Code} (h : Sound b) (hmissed : b.missed = true) (hstep : BoardStep b e b') :
    b'.missed = true ∧ b'.output = b.output := by
  obtain ⟨⟨hfull, hforgotten, hunserved⟩, -⟩ := h.missed hmissed
  cases hstep with
  | transfer hempty _ =>
    rw [hempty] at hfull
    exact absurd hfull Bool.false_ne_true
  | write hmode => exact ⟨by simp [Board.outb, hmissed], rfl⟩
  | unhandled hmode _ => exact ⟨by simp [hmissed], rfl⟩
  | inb hmode _ =>
    rw [hmode] at hunserved
    exact absurd trivial hunserved
  | endWrite hmode => exact ⟨by simp [Board.outb, hmissed], rfl⟩
  | _ => exact ⟨hmissed, rfl⟩

/-- A byte that stands in the output buffer at `pic_remap`, or is served before `keyboard_init`, makes the keyboard deaf
for good: nothing reads the buffer, and no further byte can raise the line. -/
theorem missed_forever (h : Reachable Firmware BoardStep b) (hmissed : b.missed = true) {l : List (Device ⊕ Code)}
    (hl : Steps BoardStep b l b') :
    b'.output.isSome = true ∧ b'.output = b.output ∧ b'.handled = [] ∧ b'.console.returned = [] := by
  have hsound : Sound b := by
    rcases reachable_sound h with hfirmware | hsound
    · exact absurd (hfirmware.missed.symm.trans hmissed) Bool.false_ne_true
    · exact hsound
  obtain ⟨hsound', hmissed', houtput⟩ :=
    hl.invariant (P := fun c => Sound c ∧ c.missed = true ∧ c.output = b.output)
      (fun c e c' hc hstep => ⟨hc.1.step hstep, (hc.1.step_missed hc.2.1 hstep).1,
        (hc.1.step_missed hc.2.1 hstep).2.trans hc.2.2⟩) ⟨hsound, hmissed, rfl⟩
  obtain ⟨hdeaf, hnone⟩ := hsound'.missed hmissed'
  have hsub := hsound'.decodes.sublist
  have haccounted := hsound'.console.accounted
  rw [hnone] at hsub
  rw [List.eq_nil_of_sublist_nil hsub, List.append_assoc] at haccounted
  exact ⟨hdeaf.1, houtput, hnone, (List.append_eq_nil_iff.mp haccounted.symm).1⟩

def earlyKey : Board :=
  { bootBoard with
    pic := bootBoard.pic.setLine 1 true
    output := some 0x1E
    pressed := [0x1E] }

theorem earlyKey_firmware : Firmware earlyKey :=
  ⟨rfl, fun _ => rfl, (setLine_keyboard _ true).1, rfl, rfl, rfl, rfl⟩

theorem early_key_missed : ∃ b, Reachable Firmware BoardStep b ∧
    ∀ l b', Steps BoardStep b l b' → b'.output = some 0x1E ∧ b'.console.returned = [] := by
  have hfirst := (Reachable.start earlyKey_firmware).next (BoardStep.write (w := (0x20, 0x11)) rfl)
  refine ⟨_, hfirst, fun l b' hl => ?_⟩
  obtain ⟨-, houtput, -, hreturned⟩ := missed_forever hfirst rfl hl
  exact ⟨houtput, hreturned⟩

end JurkOS.Kernel.Interrupts
