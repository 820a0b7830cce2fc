import JurkOS.Kernel.Drivers.Keyboard

/-!
The text of a sequence of scancodes, and what of it the handler accepts.
-/

namespace JurkOS.Kernel.Keyboard

def shiftAfter (shift : Bool) (scancode : UInt8) : Bool :=
  if scancode = 0x2A ∨ scancode = 0x36 then true else if scancode = 0xAA ∨ scancode = 0xB6 then false else shift

def character (shift : Bool) (scancode : UInt8) : UInt8 :=
  (if shift then kbdScancodesShift else kbdScancodes).getD scancode.toNat 0

def text (shift : Bool) : List UInt8 → List UInt8
  | [] => []
  | scancode :: rest =>
    let c := character shift scancode
    (if c = 0 then [] else [c]) ++ text (shiftAfter shift scancode) rest

variable {shift : Bool} {w w' : Console} {codes : List UInt8}

theorem text_append (codes codes' : List UInt8) :
    text shift (codes ++ codes') = text shift codes ++ text (codes.foldl shiftAfter shift) codes' := by
  induction codes generalizing shift with
  | nil => rfl
  | cons code codes ih => rw [List.cons_append, text, text, ih, List.append_assoc, List.foldl_cons]

theorem shiftPressed_handler (k : Kbd) (scancode : UInt8) :
    (keyboardInterruptHandler k scancode).shiftPressed = shiftAfter k.shiftPressed scancode := by
  unfold keyboardInterruptHandler shiftAfter
  dsimp only
  split_ifs <;> rfl

structure Decodes (codes : List UInt8) (w : Console) : Prop where
  shift : w.keyboard.shiftPressed = codes.foldl shiftAfter false
  sublist : w.accepted.Sublist (text false codes)
  lossless : w.accepted = text false codes ∨ 256 ≤ (text false codes).length

theorem start_decodes : Decodes [] start := ⟨rfl, List.nil_sublist _, .inl rfl⟩

theorem Decodes.irq (h : Decodes codes w) (hs : Sound w) (scancode : UInt8) :
    Decodes (codes ++ [scancode]) (w.irq scancode) := by
  obtain ⟨hshift, hsub, hlossless⟩ := h
  have hchar : typed w.keyboard scancode = character (codes.foldl shiftAfter false) scancode := by rw [← hshift]; rfl
  have htext : text false (codes ++ [scancode]) =
      text false codes ++ if typed w.keyboard scancode = 0 then [] else [typed w.keyboard scancode] := by
    rw [text_append, hchar, text, text, List.append_nil]
  have hnext : (w.irq scancode).keyboard.shiftPressed = (codes ++ [scancode]).foldl shiftAfter false := by
    rw [List.foldl_append, ← hshift]
    exact shiftPressed_handler w.keyboard scancode
  rcases handler_cases w.keyboard scancode with ⟨hnone, b, hk⟩ | ⟨hsome, hfull, hk⟩ | ⟨hsome, hroom, hk⟩
  · have haccepted : (w.irq scancode).accepted = w.accepted := if_pos (by rw [hk])
    rw [if_pos hnone, List.append_nil] at htext
    refine ⟨hnext, ?_, ?_⟩
    · rwa [haccepted, htext]
    · rwa [haccepted, htext]
  · have haccepted : (w.irq scancode).accepted = w.accepted := if_pos (by rw [hk])
    rw [if_neg hsome] at htext
    refine ⟨hnext, ?_, .inr ?_⟩
    · rw [haccepted, htext]
      exact hsub.trans (List.sublist_append_left _ _)
    · have hqueue : w.keyboard.queue.length = 255 := rejects_full hs.head_lt hs.tail_lt ⟨hsome, by rw [hk]⟩
      have haccounted := congrArg List.length hs.accounted
      have hle := hsub.length_le
      rw [List.length_append, hqueue] at haccounted
      rw [htext, List.length_append, List.length_singleton]
      omega
  · have hmoved : (keyboardInterruptHandler w.keyboard scancode).head ≠ w.keyboard.head := by
      rw [hk]
      exact Lib.Ring.next_ne (by decide) hs.head_lt
    have haccepted : (w.irq scancode).accepted = w.accepted ++ [typed w.keyboard scancode] := if_neg hmoved
    rw [if_neg hsome] at htext
    refine ⟨hnext, ?_, ?_⟩
    · rw [haccepted, htext]
      exact hsub.append (List.Sublist.refl _)
    · rw [haccepted, htext, List.length_append]
      rcases hlossless with heq | hlong
      · exact .inl (by rw [heq])
      · exact .inr (by omega)

theorem Step.getchar_keeps (h : Step w .getchar w') :
    w'.accepted = w.accepted ∧ w'.keyboard.shiftPressed = w.keyboard.shiftPressed := by
  cases h <;> exact ⟨rfl, rfl⟩

theorem Decodes.getchar (h : Decodes codes w) (hstep : Step w .getchar w') : Decodes codes w' := by
  obtain ⟨haccepted, hshift⟩ := hstep.getchar_keeps
  refine ⟨hshift.trans h.shift, ?_, ?_⟩
  · rw [haccepted]
    exact h.sublist
  · rw [haccepted]
    exact h.lossless

end JurkOS.Kernel.Keyboard
