import JurkOS.Kernel.Drivers.Keyboard

/-!
The shift keys. A keyboard with scan code set 1 sends the bytes, the handler of
`drivers/keyboard.c` sees them one by one and keeps one flag for both keys.
-/

namespace JurkOS.Kernel.Keyboard

open Lib.Run

inductive ShiftKey
  | left
  | right
  deriving DecidableEq

def ShiftKey.makeCode : ShiftKey → UInt8
  | left => 0x2A
  | right => 0x36

def ShiftKey.breakCode : ShiftKey → UInt8
  | left => 0xAA
  | right => 0xB6

def ShiftKey.other : ShiftKey → ShiftKey
  | left => right
  | right => left

def IsPlain (code : UInt8) : Prop :=
  code ≠ 0x2A ∧ code ≠ 0x36 ∧ code ≠ 0xAA ∧ code ≠ 0xB6 ∧ code ≠ 0xE0 ∧ code ≠ 0xE1

/-- What happens at the keyboard: a shift key goes down (or repeats) or up, another key sends its make or break
code, a key of the grey block sends a code behind `0xE0`, or the pause key sends its sequence. -/
inductive KeyEvent
  | press (key : ShiftKey)
  | release (key : ShiftKey)
  | plain (code : UInt8) (h : IsPlain code)
  | extended (code : UInt8)
  | pause

def KeyEvent.codes : KeyEvent → List UInt8
  | press key => [key.makeCode]
  | release key => [key.breakCode]
  | plain code _ => [code]
  | extended code => [0xE0, code]
  | pause => [0xE1, 0x1D, 0x45, 0xE1, 0x9D, 0xC5]

abbrev Held := ShiftKey → Bool

def KeyEvent.move (held : Held) : KeyEvent → Held
  | press key => Function.update held key true
  | release key => Function.update held key false
  | _ => held

def Held.any (held : Held) : Bool := held .left || held .right

structure Desk where
  held : Held
  keyboard : Kbd

def Desk.next (d : Desk) (e : KeyEvent) : Desk where
  held := e.move d.held
  keyboard := e.codes.foldl keyboardInterruptHandler d.keyboard

def desk : Desk := ⟨fun _ => false, start.keyboard⟩

def Desk.Tracks (d : Desk) : Prop :=
  ∀ scancode, typed d.keyboard scancode =
    (if d.held.any then kbdScancodesShift else kbdScancodes).getD scancode.toNat 0

def Misleads (held : Held) : KeyEvent → Prop
  | .release key => held key.other
  | .extended code => ((code = 0x2A ∨ code = 0x36) ∧ ¬held.any) ∨ ((code = 0xAA ∨ code = 0xB6) ∧ held.any)
  | _ => False

def flagAfter (flag : Bool) (scancode : UInt8) : Bool :=
  if scancode = 0x2A ∨ scancode = 0x36 then true
  else if scancode = 0xAA ∨ scancode = 0xB6 then false
  else flag

theorem handler_flag (k : Kbd) (scancode : UInt8) :
    (keyboardInterruptHandler k scancode).shiftPressed = flagAfter k.shiftPressed scancode := by
  unfold keyboardInterruptHandler flagAfter
  dsimp only
  split_ifs <;> rfl

theorem handlers_flag (codes : List UInt8) (k : Kbd) :
    (codes.foldl keyboardInterruptHandler k).shiftPressed = codes.foldl flagAfter k.shiftPressed := by
  induction codes generalizing k with
  | nil => rfl
  | cons code codes ih => rw [List.foldl_cons, ih, handler_flag, List.foldl_cons]

theorem tracks_iff (d : Desk) : d.Tracks ↔ d.keyboard.shiftPressed = d.held.any := by
  constructor
  · intro h
    have ha := h 0x1E
    unfold typed at ha
    revert ha
    cases d.keyboard.shiftPressed <;> cases d.held.any <;> decide
  · intro h scancode
    rw [typed, h]

theorem flagAfter_plain {code : UInt8} (h : IsPlain code) (flag : Bool) : flagAfter flag code = flag := by
  obtain ⟨h₁, h₂, h₃, h₄, -, -⟩ := h
  simp [flagAfter, h₁, h₂, h₃, h₄]

theorem flagAfter_escape (flag : Bool) : flagAfter flag 0xE0 = flag := rfl

theorem next_tracks (d : Desk) (e : KeyEvent) (h : d.Tracks) : (d.next e).Tracks ↔ ¬Misleads d.held e := by
  rw [tracks_iff] at h ⊢
  rw [Desk.next, handlers_flag, h]
  cases e with
  | press key =>
    cases key <;> simp [KeyEvent.codes, ShiftKey.makeCode, flagAfter, KeyEvent.move, Held.any, Misleads]
  | release key =>
    cases key <;>
      simp [KeyEvent.codes, ShiftKey.breakCode, ShiftKey.other, flagAfter, KeyEvent.move, Held.any, Misleads]
  | plain code hcode =>
    simp only [KeyEvent.codes, List.foldl_cons, List.foldl_nil, flagAfter_plain hcode]
    exact iff_of_true rfl id
  | extended code =>
    simp only [KeyEvent.codes, List.foldl_cons, List.foldl_nil, flagAfter_escape, KeyEvent.move, Misleads]
    unfold flagAfter
    by_cases hpress : code = 0x2A ∨ code = 0x36
    · have hrelease : ¬(code = 0xAA ∨ code = 0xB6) := by rcases hpress with rfl | rfl <;> decide
      simp [hpress, hrelease]
    · by_cases hrelease : code = 0xAA ∨ code = 0xB6
      · simp [hpress, hrelease]
      · simp [hpress, hrelease]
  | pause => exact iff_of_true rfl id

theorem desk_tracks : desk.Tracks := (tracks_iff desk).mpr rfl

theorem shift_tracks_iff (es : List KeyEvent) :
    (∀ l, l <+: es → (l.foldl Desk.next desk).Tracks) ↔
      ∀ l e, l ++ [e] <+: es → ¬Misleads (l.foldl KeyEvent.move desk.held) e := by
  have hheld : ∀ l : List KeyEvent, (l.foldl Desk.next desk).held = l.foldl KeyEvent.move desk.held := by
    intro l
    generalize desk = d
    induction l generalizing d with
    | nil => rfl
    | cons e l ih => exact ih (d.next e)
  simp only [← hheld]
  exact forall_foldl_iff (fun d e => next_tracks d e) desk_tracks es

theorem shift_released_early :
    ¬([.press .left, .press .right, .release .left].foldl Desk.next desk).Tracks := by
  rw [tracks_iff]
  decide

end JurkOS.Kernel.Keyboard
