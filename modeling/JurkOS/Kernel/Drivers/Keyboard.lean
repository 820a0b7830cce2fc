import JurkOS.Lib.Libc
import JurkOS.Lib.Ring
import JurkOS.Lib.Run
import Mathlib.Data.List.GetD
import Mathlib.Data.Nat.Bitwise

/-!
The keyboard queue of `drivers/keyboard.c`: the interrupt handler writes at
`kbd_head`, `keyboard_getchar` reads at `kbd_tail`, and an interrupt may come
between any two accesses of the reader.
-/

namespace JurkOS.Kernel.Keyboard

open Lib.Libc Lib.Run
open Lib.Ring (next count slot pending)

def KBD_BUFFER_SIZE : ℕ := 256

def kbdScancodes : List UInt8 :=
  [0, 27] ++ bytes "1234567890-=" ++ [8, 9] ++ bytes "qwertyuiop[]" ++ [NEWLINE, 0] ++
    bytes "asdfghjkl;'`" ++ [0] ++ bytes "\\zxcvbnm,./" ++ [0] ++ bytes "*" ++ [0] ++ bytes " " ++ [0]

def kbdScancodesShift : List UInt8 :=
  [0, 27] ++ bytes "!@#$%^&*()_+" ++ [8, 9] ++ bytes "QWERTYUIOP\x7b\x7d" ++ [NEWLINE, 0] ++
    bytes "ASDFGHJKL:\"~" ++ [0] ++ bytes "|ZXCVBNM<>?" ++ [0] ++ bytes "*" ++ [0] ++ bytes " " ++ [0]

structure Kbd where
  buffer : ℕ → UInt8
  head : ℕ
  tail : ℕ
  shiftPressed : Bool

def typed (k : Kbd) (scancode : UInt8) : UInt8 :=
  (if k.shiftPressed then kbdScancodesShift else kbdScancodes).getD scancode.toNat 0

def keyboardInterruptHandler (k : Kbd) (scancode : UInt8) : Kbd :=
  if scancode = 0x2A ∨ scancode = 0x36 then { k with shiftPressed := true }
  else if scancode = 0xAA ∨ scancode = 0xB6 then { k with shiftPressed := false }
  else if scancode &&& 0x80 ≠ 0 then k
  else if scancode < 128 then
    let c := typed k scancode
    if c ≠ 0 then
      let next := (k.head + 1) % KBD_BUFFER_SIZE
      if next ≠ k.tail then { k with buffer := Function.update k.buffer k.head c, head := next } else k
    else k
  else k

/-- Where `keyboard_getchar` stands, with what it has read so far. -/
inductive Getchar
  | idle
  | check
  | headRead (head : ℕ)
  | tailRead (tail : ℕ)
  | fetch
  | fetchAt (tail : ℕ)
  | advance (c : UInt8)
  | advanceFrom (c : UInt8) (tail : ℕ)
  | leave (c : UInt8)

def Getchar.inHand : Getchar → List UInt8
  | leave c => [c]
  | _ => []

structure Console where
  keyboard : Kbd
  getchar : Getchar
  accepted : List UInt8
  returned : List UInt8

def start : Console where
  keyboard := { buffer := fun _ => 0, head := 0, tail := 0, shiftPressed := false }
  getchar := .idle
  accepted := []
  returned := []

inductive Event
  | irq (scancode : UInt8)
  | getchar
  deriving DecidableEq

/-- A run of the handler; a character is accepted when it moves `kbd_head`. -/
def Console.irq (w : Console) (scancode : UInt8) : Console :=
  let k := keyboardInterruptHandler w.keyboard scancode
  { w with
    keyboard := k
    accepted := if k.head = w.keyboard.head then w.accepted else w.accepted ++ [typed w.keyboard scancode] }

inductive Step : Console → Event → Console → Prop
  | irq (w : Console) (scancode : UInt8) : Step w (.irq scancode) (w.irq scancode)
  | call {w : Console} (h : w.getchar = .idle) : Step w .getchar { w with getchar := .check }
  -- `kbd_head != kbd_tail` reads its operands in either order; after `hlt` the check starts again
  | readHead {w : Console} (h : w.getchar = .check) :
      Step w .getchar { w with getchar := .headRead w.keyboard.head }
  | readTail {w : Console} (h : w.getchar = .check) :
      Step w .getchar { w with getchar := .tailRead w.keyboard.tail }
  | compareTail {w : Console} {head : ℕ} (h : w.getchar = .headRead head) :
      Step w .getchar { w with getchar := if head ≠ w.keyboard.tail then .fetch else .check }
  | compareHead {w : Console} {tail : ℕ} (h : w.getchar = .tailRead tail) :
      Step w .getchar { w with getchar := if w.keyboard.head ≠ tail then .fetch else .check }
  | readIndex {w : Console} (h : w.getchar = .fetch) :
      Step w .getchar { w with getchar := .fetchAt w.keyboard.tail }
  | readChar {w : Console} {tail : ℕ} (h : w.getchar = .fetchAt tail) :
      Step w .getchar { w with getchar := .advance (w.keyboard.buffer tail) }
  | readAgain {w : Console} {c : UInt8} (h : w.getchar = .advance c) :
      Step w .getchar { w with getchar := .advanceFrom c w.keyboard.tail }
  | writeTail {w : Console} {c : UInt8} {tail : ℕ} (h : w.getchar = .advanceFrom c tail) :
      Step w .getchar { w with
        keyboard := { w.keyboard with tail := (tail + 1) % KBD_BUFFER_SIZE }
        getchar := .leave c }
  | ret {w : Console} {c : UInt8} (h : w.getchar = .leave c) :
      Step w .getchar { w with getchar := .idle, returned := w.returned ++ [c] }

def Kbd.queue (k : Kbd) : List UInt8 := pending KBD_BUFFER_SIZE k.buffer k.head k.tail

def Rejects (k : Kbd) (scancode : UInt8) : Prop :=
  typed k scancode ≠ 0 ∧ (keyboardInterruptHandler k scancode).head = k.head

theorem typed_shift (k : Kbd) {scancode : UInt8} (h : scancode = 0x2A ∨ scancode = 0x36) :
    typed k scancode = 0 := by
  unfold typed
  rcases h with rfl | rfl <;> cases k.shiftPressed <;> decide

theorem typed_release (k : Kbd) {scancode : UInt8} (h : 128 ≤ scancode.toNat) :
    typed k scancode = 0 := by
  have hlen : (if k.shiftPressed then kbdScancodesShift else kbdScancodes).length ≤ 128 := by
    cases k.shiftPressed <;> decide
  exact List.getD_eq_default _ _ (hlen.trans h)

theorem release_bit {scancode : UInt8} (h : scancode &&& 0x80 ≠ 0) : 128 ≤ scancode.toNat := by
  by_contra hlt
  apply h
  have hbit : scancode.toNat.testBit 7 = false := Nat.testBit_lt_two_pow (by omega)
  apply UInt8.toNat_inj.mp
  rw [UInt8.toNat_and]
  have := Nat.and_two_pow scancode.toNat 7
  rw [hbit] at this
  simpa using this

theorem handler_cases (k : Kbd) (scancode : UInt8) :
    (typed k scancode = 0 ∧ ∃ b, keyboardInterruptHandler k scancode = { k with shiftPressed := b }) ∨
    (typed k scancode ≠ 0 ∧ next KBD_BUFFER_SIZE k.head = k.tail ∧
      keyboardInterruptHandler k scancode = k) ∨
    (typed k scancode ≠ 0 ∧ next KBD_BUFFER_SIZE k.head ≠ k.tail ∧
      keyboardInterruptHandler k scancode =
        { k with buffer := Function.update k.buffer k.head (typed k scancode)
                 head := next KBD_BUFFER_SIZE k.head }) := by
  unfold keyboardInterruptHandler
  dsimp only
  split_ifs with hpress hrelease hbit hlow hc hroom
  · exact .inl ⟨typed_shift k hpress, true, rfl⟩
  · refine .inl ⟨typed_release k ?_, false, rfl⟩
    rcases hrelease with rfl | rfl <;> decide
  · exact .inl ⟨typed_release k (release_bit hbit), k.shiftPressed, rfl⟩
  · exact .inr (.inr ⟨hc, hroom, rfl⟩)
  · exact .inr (.inl ⟨hc, not_not.mp hroom, rfl⟩)
  · exact .inl ⟨not_not.mp hc, k.shiftPressed, rfl⟩
  · refine .inl ⟨typed_release k ?_, k.shiftPressed, rfl⟩
    rw [UInt8.lt_iff_toNat_lt] at hlow
    exact Nat.not_lt.mp hlow

def Getchar.Agrees (k : Kbd) : Getchar → Prop
  | idle | check | leave _ => True
  | headRead head => head ≠ k.tail → k.head ≠ k.tail
  | tailRead tail => tail = k.tail
  | fetch => k.head ≠ k.tail
  | fetchAt tail => tail = k.tail ∧ k.head ≠ k.tail
  | advance c => c = k.buffer k.tail ∧ k.head ≠ k.tail
  | advanceFrom c tail => tail = k.tail ∧ c = k.buffer k.tail ∧ k.head ≠ k.tail

theorem Getchar.Agrees.push {k : Kbd} {g : Getchar} (h : g.Agrees k) {c : UInt8}
    (hroom : next KBD_BUFFER_SIZE k.head ≠ k.tail) :
    g.Agrees { k with buffer := Function.update k.buffer k.head c, head := next KBD_BUFFER_SIZE k.head } := by
  cases g with
  | idle => trivial
  | check => trivial
  | leave => trivial
  | headRead => exact fun _ => hroom
  | tailRead => exact h
  | fetch => exact hroom
  | fetchAt => exact ⟨h.1, hroom⟩
  | advance =>
    obtain ⟨hc, hne⟩ := h
    exact ⟨by simpa [Function.update_of_ne hne.symm] using hc, hroom⟩
  | advanceFrom =>
    obtain ⟨ht, hc, hne⟩ := h
    exact ⟨ht, by simpa [Function.update_of_ne hne.symm] using hc, hroom⟩

structure Sound (w : Console) : Prop where
  head_lt : w.keyboard.head < KBD_BUFFER_SIZE
  tail_lt : w.keyboard.tail < KBD_BUFFER_SIZE
  agrees : w.getchar.Agrees w.keyboard
  accounted : w.accepted = w.returned ++ w.getchar.inHand ++ w.keyboard.queue

theorem start_sound : Sound start where
  head_lt := by decide
  tail_lt := by decide
  agrees := trivial
  accounted := rfl

theorem Sound.irq {w : Console} (h : Sound w) (scancode : UInt8) : Sound (w.irq scancode) := by
  obtain ⟨hhead, htail, hagrees, haccounted⟩ := h
  have hne := Lib.Ring.next_ne (show 1 < KBD_BUFFER_SIZE by decide) hhead
  rcases handler_cases w.keyboard scancode with ⟨-, b, hk⟩ | ⟨-, -, hk⟩ | ⟨-, hroom, hk⟩
  · refine ⟨?_, ?_, ?_, ?_⟩ <;> simp only [Console.irq, hk]
    · exact hhead
    · exact htail
    · exact hagrees
    · simpa [Kbd.queue] using haccounted
  · refine ⟨?_, ?_, ?_, ?_⟩ <;> simp only [Console.irq, hk]
    · exact hhead
    · exact htail
    · exact hagrees
    · simpa using haccounted
  · refine ⟨?_, ?_, ?_, ?_⟩ <;> simp only [Console.irq, hk]
    · exact Lib.Ring.next_lt hhead
    · exact htail
    · exact hagrees.push hroom
    · rw [if_neg hne, haccounted, List.append_assoc]
      congr 1
      simp only [Kbd.queue]
      rw [Lib.Ring.pending_push hhead htail hroom,
        Lib.Ring.pending_update (Lib.Ring.head_notMem_cells hhead htail), Function.update_self]

theorem Sound.reader {w : Console} (h : Sound w) {g : Getchar} (hold : w.getchar.inHand = [])
    (hnew : g.inHand = []) (hg : g.Agrees w.keyboard) : Sound { w with getchar := g } := by
  refine ⟨h.head_lt, h.tail_lt, hg, ?_⟩
  have haccounted := h.accounted
  rw [hold] at haccounted
  rw [haccounted, hnew]

theorem Sound.at {w : Console} (h : Sound w) {g : Getchar} (hpc : w.getchar = g) : g.Agrees w.keyboard :=
  hpc ▸ h.agrees

theorem step_sound {w w' : Console} {e : Event} (h : Sound w) (hs : Step w e w') : Sound w' := by
  cases hs with
  | irq scancode => exact h.irq scancode
  | call hpc => exact h.reader (by rw [hpc]; rfl) rfl trivial
  | readHead hpc => exact h.reader (by rw [hpc]; rfl) rfl id
  | readTail hpc => exact h.reader (by rw [hpc]; rfl) rfl rfl
  | compareTail hpc =>
    have hsince := h.at hpc
    apply h.reader (by rw [hpc]; rfl)
    · split_ifs <;> rfl
    · split_ifs with hne
      · exact hsince hne
      · trivial
  | compareHead hpc =>
    have htail := h.at hpc
    apply h.reader (by rw [hpc]; rfl)
    · split_ifs <;> rfl
    · split_ifs with hne
      · exact fun he => hne (he.trans htail.symm)
      · trivial
  | readIndex hpc => exact h.reader (by rw [hpc]; rfl) rfl ⟨rfl, h.at hpc⟩
  | readChar hpc =>
    obtain ⟨htail, hne⟩ := h.at hpc
    exact h.reader (by rw [hpc]; rfl) rfl ⟨by rw [htail], hne⟩
  | readAgain hpc => exact h.reader (by rw [hpc]; rfl) rfl ⟨rfl, h.at hpc⟩
  | writeTail hpc =>
    obtain ⟨rfl, rfl, hne⟩ := h.at hpc
    refine ⟨h.head_lt, Lib.Ring.next_lt h.tail_lt, trivial, ?_⟩
    have haccounted := h.accounted
    rw [hpc, Kbd.queue, Lib.Ring.pending_pop h.head_lt h.tail_lt hne] at haccounted
    simpa [Getchar.inHand, Kbd.queue, next] using haccounted
  | ret hpc =>
    refine ⟨h.head_lt, h.tail_lt, trivial, ?_⟩
    have haccounted := h.accounted
    rw [hpc] at haccounted
    simpa [Getchar.inHand, Kbd.queue] using haccounted

theorem rejects_full {k : Kbd} {scancode : UInt8} (hhead : k.head < KBD_BUFFER_SIZE)
    (htail : k.tail < KBD_BUFFER_SIZE) (h : Rejects k scancode) : k.queue.length = 255 := by
  obtain ⟨hc, hk⟩ := h
  rcases handler_cases k scancode with ⟨h0, -⟩ | ⟨-, hfull, -⟩ | ⟨-, -, he⟩
  · exact absurd h0 hc
  · have hcount := Lib.Ring.count_full hhead htail hfull
    rw [Kbd.queue, Lib.Ring.length_pending]
    unfold KBD_BUFFER_SIZE at *
    omega
  · rw [he] at hk
    exact absurd hk (Lib.Ring.next_ne (by decide) hhead)

theorem keyboard_queue {w : Console} (h : Reachable (· = start) Step w) :
    w.keyboard.head < 256 ∧ w.keyboard.tail < 256 ∧ w.returned <+: w.accepted ∧
      ∃ pending, w.accepted = w.returned ++ w.getchar.inHand ++ pending ∧
        ∀ scancode, Rejects w.keyboard scancode → pending.length = 255 := by
  have hsound : Sound w :=
    h.invariant (P := Sound) (by rintro s rfl; exact start_sound) (fun s e t hs => step_sound hs)
  refine ⟨hsound.head_lt, hsound.tail_lt, ?_, w.keyboard.queue, hsound.accounted, ?_⟩
  · rw [hsound.accounted, List.append_assoc]
    exact List.prefix_append _ _
  · intro scancode hrejects
    exact rejects_full hsound.head_lt hsound.tail_lt hrejects

theorem keyboard_queue_letter : ∃ w : Console, w.returned = bytes "a" ∧ w.returned <+: w.accepted := by
  have htyped : Reachable (· = start) Step (start.irq 0x1E) := .next (.start rfl) (.irq start 0x1E)
  have hcalled := htyped.next (.call rfl)
  have hread := hcalled.next (.readHead rfl)
  have hfetch := hread.next (.compareTail rfl)
  have hchar := (hfetch.next (.readIndex rfl)).next (.readChar rfl)
  have hleft := (hchar.next (.readAgain rfl)).next (.writeTail rfl)
  obtain ⟨-, -, hinitial, -⟩ := keyboard_queue (hleft.next (.ret rfl))
  exact ⟨_, rfl, hinitial⟩

end JurkOS.Kernel.Keyboard
