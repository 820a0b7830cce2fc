import JurkOS.Lib.Memory
import JurkOS.Lib.Ring
import JurkOS.Lib.Run
import Mathlib.Data.List.Forall2

/-!
The receive ring of `drivers/e1000.c`: the card fills descriptors at its head
register, `e1000_receive_packet` empties them at `rx_cur` and gives them back
through the tail register.
-/

namespace JurkOS.Kernel.E1000

open Lib.Run Lib.Memory
open Lib.Ring (next cells)

def E1000_NUM_RX_DESC : ℕ := 32

/-- A descriptor together with the page that its `addr` names. -/
structure RxDesc where
  page : ℕ → UInt8
  length : UInt16
  status : UInt8

def RxDesc.Done (d : RxDesc) : Prop := d.status &&& 0x01 ≠ 0

instance (d : RxDesc) : Decidable d.Done := inferInstanceAs (Decidable (_ ≠ _))

def RxDesc.packet (d : RxDesc) : List UInt8 := (List.range d.length.toNat).map d.page

structure Rx where
  rxDescs : ℕ → RxDesc
  headReg : ℕ
  tailReg : ℕ
  rxCur : ℕ

/-- What `e1000_init` leaves for the receiver when no `pmm_alloc_page` of it fails: each descriptor has a page
of its own. The pages are not cleared. -/
def e1000Init (page : ℕ → ℕ → UInt8) : Rx where
  rxDescs i := { page := page i, length := 0, status := 0 }
  headReg := 0
  tailReg := E1000_NUM_RX_DESC - 1
  rxCur := 0

/-- Where `e1000_receive_packet` stands, with its `max_length` and what it has copied so far. -/
inductive Receive
  | idle
  | entered (maxLength : UInt16)
  | ready (maxLength : UInt16)
  | copy (maxLength len : UInt16) (buffer : List UInt8)
  | clear (maxLength : UInt16) (buffer : List UInt8)
  | advance (maxLength : UInt16) (buffer : List UInt8)
  | writeTail (maxLength : UInt16) (buffer : List UInt8) (oldCur : ℕ)
  | leave (maxLength : UInt16) (buffer : List UInt8)

structure Nic where
  rx : Rx
  receive : Receive
  delivered : List (List UInt8)
  returned : List (UInt16 × List UInt8)

inductive Event
  | deliver (d : RxDesc)
  | call (maxLength : UInt16)
  | receive

inductive Step : Nic → Event → Nic → Prop
  | deliver {w : Nic} {d : RxDesc} (hroom : w.rx.headReg ≠ w.rx.tailReg) (hdone : d.Done) :
      Step w (.deliver d) { w with
        rx := { w.rx with
          rxDescs := Function.update w.rx.rxDescs w.rx.headReg d
          headReg := (w.rx.headReg + 1) % E1000_NUM_RX_DESC }
        delivered := w.delivered ++ [d.packet] }
  | call {w : Nic} {maxLength : UInt16} (h : w.receive = .idle) :
      Step w (.call maxLength) { w with receive := .entered maxLength }
  | readStatus {w : Nic} {maxLength : UInt16} (h : w.receive = .entered maxLength) :
      Step w .receive { w with
        receive := if (w.rx.rxDescs w.rx.rxCur).Done then .ready maxLength else .idle }
  | readLength {w : Nic} {maxLength : UInt16} (h : w.receive = .ready maxLength) :
      Step w .receive { w with
        receive :=
          let len := (w.rx.rxDescs w.rx.rxCur).length
          .copy maxLength (if len > maxLength then maxLength else len) [] }
  | copyByte {w : Nic} {maxLength len : UInt16} {buffer : List UInt8}
      (h : w.receive = .copy maxLength len buffer) (hmore : buffer.length < len.toNat) :
      Step w .receive { w with
        receive := .copy maxLength len (buffer ++ [(w.rx.rxDescs w.rx.rxCur).page buffer.length]) }
  | copied {w : Nic} {maxLength len : UInt16} {buffer : List UInt8}
      (h : w.receive = .copy maxLength len buffer) (hend : buffer.length = len.toNat) :
      Step w .receive { w with receive := .clear maxLength buffer }
  | clearStatus {w : Nic} {maxLength : UInt16} {buffer : List UInt8}
      (h : w.receive = .clear maxLength buffer) :
      Step w .receive { w with
        rx := { w.rx with
          rxDescs := Function.update w.rx.rxDescs w.rx.rxCur { w.rx.rxDescs w.rx.rxCur with status := 0 } }
        receive := .advance maxLength buffer }
  | advanceCur {w : Nic} {maxLength : UInt16} {buffer : List UInt8}
      (h : w.receive = .advance maxLength buffer) :
      Step w .receive { w with
        rx := { w.rx with rxCur := (w.rx.rxCur + 1) % E1000_NUM_RX_DESC }
        receive := .writeTail maxLength buffer w.rx.rxCur }
  | writeTail {w : Nic} {maxLength : UInt16} {buffer : List UInt8} {oldCur : ℕ}
      (h : w.receive = .writeTail maxLength buffer oldCur) :
      Step w .receive { w with rx := { w.rx with tailReg := oldCur }, receive := .leave maxLength buffer }
  | ret {w : Nic} {maxLength : UInt16} {buffer : List UInt8} (h : w.receive = .leave maxLength buffer) :
      Step w .receive { w with receive := .idle, returned := w.returned ++ [(maxLength, buffer)] }

def Start (w : Nic) : Prop :=
  (∃ page, w.rx = e1000Init page) ∧ w.receive = .idle ∧ w.delivered = [] ∧ w.returned = []

def Receive.base (cur : ℕ) : Receive → ℕ
  | advance _ _ => next E1000_NUM_RX_DESC cur
  | _ => cur

def Nic.base (w : Nic) : ℕ := w.receive.base w.rx.rxCur

def Nic.used (w : Nic) : List ℕ := cells E1000_NUM_RX_DESC w.rx.headReg w.base

def Nic.pending (w : Nic) : List (List UInt8) :=
  Lib.Ring.pending E1000_NUM_RX_DESC (fun i => (w.rx.rxDescs i).packet) w.rx.headReg w.base

def Receive.Behind : Receive → Prop
  | advance _ _ | writeTail _ _ _ => True
  | _ => False

def Receive.inHand : Receive → List (UInt16 × List UInt8)
  | advance m b | writeTail m b _ | leave m b => [(m, b)]
  | _ => []

def Receive.Agrees (d : RxDesc) : Receive → Prop
  | ready _ => d.Done
  | copy m len b => d.Done ∧ len.toNat = min d.length.toNat m.toNat ∧ b = d.packet.take b.length
  | clear m b => d.Done ∧ b = d.packet.take m.toNat
  | _ => True

def Cut (r : UInt16 × List UInt8) (packet : List UInt8) : Prop := r.2 = packet.take r.1.toNat

structure Sound (w : Nic) : Prop where
  head_lt : w.rx.headReg < E1000_NUM_RX_DESC
  tail_lt : w.rx.tailReg < E1000_NUM_RX_DESC
  cur_lt : w.rx.rxCur < E1000_NUM_RX_DESC
  done_iff : ∀ i < E1000_NUM_RX_DESC, (w.rx.rxDescs i).Done ↔ i ∈ w.used
  given : ¬w.receive.Behind → next E1000_NUM_RX_DESC w.rx.tailReg = w.base
  behind : w.receive.Behind → w.rx.headReg ≠ next E1000_NUM_RX_DESC w.rx.tailReg ∧
    next E1000_NUM_RX_DESC (next E1000_NUM_RX_DESC w.rx.tailReg) = w.base
  old : ∀ m b o, w.receive = .writeTail m b o → o = next E1000_NUM_RX_DESC w.rx.tailReg
  agrees : w.receive.Agrees (w.rx.rxDescs w.rx.rxCur)
  accounted : ∃ l, w.delivered = l ++ w.pending ∧ List.Forall₂ Cut (w.returned ++ w.receive.inHand) l

@[simp] theorem RxDesc.length_packet (d : RxDesc) : d.packet.length = d.length.toNat := by
  simp [RxDesc.packet]

theorem RxDesc.take_packet_succ {d : RxDesc} {k : ℕ} (hk : k < d.length.toNat) :
    d.packet.take (k + 1) = d.packet.take k ++ [d.page k] := by
  have hk' : k < d.packet.length := by simpa using hk
  rw [← List.take_append_getElem hk']
  simp [RxDesc.packet]

theorem RxDesc.take_packet_min (d : RxDesc) (m : ℕ) :
    d.packet.take (min d.length.toNat m) = d.packet.take m := by
  rw [← d.length_packet, Nat.min_comm, ← List.take_take, List.take_length]

theorem Receive.Agrees.of_not_done {r : Receive} {d : RxDesc} (h : r.Agrees d) (hd : ¬d.Done) (d' : RxDesc) :
    r.Agrees d' := by
  cases r with
  | ready => exact absurd h hd
  | copy => exact absurd h.1 hd
  | clear => exact absurd h.1 hd
  | idle => trivial
  | entered => trivial
  | advance => trivial
  | writeTail => trivial
  | leave => trivial

theorem Receive.base_of_not_behind {r : Receive} (h : ¬r.Behind) (cur : ℕ) : r.base cur = cur := by
  cases r with
  | advance => exact absurd trivial h
  | _ => rfl

theorem start_sound {w : Nic} (h : Start w) : Sound w := by
  obtain ⟨⟨page, hrx⟩, hidle, hdelivered, hreturned⟩ := h
  have hbase : w.base = 0 := by rw [Nic.base, hidle, hrx]; rfl
  have hbehind : ¬w.receive.Behind := by rw [hidle]; exact id
  refine ⟨?_, ?_, ?_, ?_, fun _ => ?_, fun h => absurd h hbehind, ?_, ?_, [], ?_, ?_⟩
  · rw [hrx]
    exact (by decide : 0 < E1000_NUM_RX_DESC)
  · rw [hrx]
    exact (by decide : E1000_NUM_RX_DESC - 1 < E1000_NUM_RX_DESC)
  · rw [hrx]
    exact (by decide : 0 < E1000_NUM_RX_DESC)
  · intro i hi
    rw [Nic.used, hbase, hrx]
    simp [e1000Init, RxDesc.Done]
  · rw [hbase, hrx]
    exact (by decide : next E1000_NUM_RX_DESC (E1000_NUM_RX_DESC - 1) = 0)
  · intro m b o h
    rw [hidle] at h
    nomatch h
  · rw [hidle]; trivial
  · rw [hdelivered, Nic.pending, hbase, hrx]
    rw [e1000Init, Lib.Ring.pending, Lib.Ring.cells_self]
    rfl
  · rw [hreturned, hidle]
    exact .nil

namespace Sound

variable {w : Nic} (h : Sound w)

include h

theorem base_lt : w.base < E1000_NUM_RX_DESC := by
  have hnext := Lib.Ring.next_lt h.cur_lt
  have hcur := h.cur_lt
  unfold Nic.base Receive.base
  split <;> assumption

theorem room (hne : w.rx.headReg ≠ w.rx.tailReg) : next E1000_NUM_RX_DESC w.rx.headReg ≠ w.base := by
  intro he
  by_cases hbehind : w.receive.Behind
  · obtain ⟨hroom, hbase⟩ := h.behind hbehind
    exact hroom (Lib.Ring.next_inj h.head_lt (Lib.Ring.next_lt h.tail_lt) (he.trans hbase.symm))
  · exact hne (Lib.Ring.next_inj h.head_lt h.tail_lt (he.trans (h.given hbehind).symm))

theorem head_free : ¬(w.rx.rxDescs w.rx.headReg).Done := by
  rw [h.done_iff _ h.head_lt]
  exact Lib.Ring.head_notMem_cells h.head_lt h.base_lt

theorem reader {r : Receive} {returned : List (UInt16 × List UInt8)} (hold : ¬w.receive.Behind)
    (hnew : ¬r.Behind) (hhand : returned ++ r.inHand = w.returned ++ w.receive.inHand)
    (hagrees : r.Agrees (w.rx.rxDescs w.rx.rxCur)) :
    Sound { w with receive := r, returned := returned } := by
  have hbase : Nic.base { w with receive := r, returned := returned } = w.base := by
    simp only [Nic.base, Receive.base_of_not_behind hold, Receive.base_of_not_behind hnew]
  obtain ⟨l, hdelivered, hcut⟩ := h.accounted
  refine ⟨h.head_lt, h.tail_lt, h.cur_lt, ?_, fun _ => ?_, fun hb => absurd hb hnew, ?_, hagrees, l, ?_, ?_⟩
  · intro i hi
    rw [Nic.used, hbase]
    exact h.done_iff i hi
  · rw [hbase]
    exact h.given hold
  · rintro m b o rfl
    exact absurd trivial hnew
  · rw [Nic.pending, hbase]
    exact hdelivered
  · dsimp only
    rw [hhand]
    exact hcut

theorem deliver {d : RxDesc} (hne : w.rx.headReg ≠ w.rx.tailReg) (hdone : d.Done) :
    Sound { w with
      rx := { w.rx with
        rxDescs := Function.update w.rx.rxDescs w.rx.headReg d
        headReg := next E1000_NUM_RX_DESC w.rx.headReg }
      delivered := w.delivered ++ [d.packet] } := by
  have hroom := h.room hne
  have hused : cells E1000_NUM_RX_DESC (next E1000_NUM_RX_DESC w.rx.headReg) w.base =
      w.used ++ [w.rx.headReg] := Lib.Ring.cells_push h.head_lt h.base_lt hroom
  have hfree : w.rx.headReg ∉ w.used := Lib.Ring.head_notMem_cells h.head_lt h.base_lt
  have hpending : Lib.Ring.pending E1000_NUM_RX_DESC
      (fun i => (Function.update w.rx.rxDescs w.rx.headReg d i).packet)
      (next E1000_NUM_RX_DESC w.rx.headReg) w.base = w.pending ++ [d.packet] := by
    rw [Lib.Ring.pending_push h.head_lt h.base_lt hroom, Function.update_self]
    congr 1
    apply Lib.Ring.pending_congr
    intro i hi
    have he : i ≠ w.rx.headReg := by rintro rfl; exact hfree hi
    rw [Function.update_of_ne he]
  obtain ⟨l, hdelivered, hcut⟩ := h.accounted
  refine ⟨Lib.Ring.next_lt h.head_lt, h.tail_lt, h.cur_lt, ?_, h.given, fun hb => ⟨?_, (h.behind hb).2⟩,
    h.old, ?_, l, ?_, hcut⟩
  · intro i hi
    change _ ↔ i ∈ cells _ _ w.base
    rw [hused, List.mem_append, List.mem_singleton]
    by_cases he : i = w.rx.headReg
    · simp [he, hdone]
    · simp [he, h.done_iff i hi]
  · exact fun he => hne (Lib.Ring.next_inj h.head_lt h.tail_lt he)
  · dsimp only
    by_cases he : w.rx.rxCur = w.rx.headReg
    · have hagrees := h.agrees
      rw [he] at hagrees
      exact hagrees.of_not_done h.head_free _
    · rw [Function.update_of_ne he]
      exact h.agrees
  · change w.delivered ++ [d.packet] = l ++ Lib.Ring.pending _ _ _ w.base
    rw [hpending, hdelivered, List.append_assoc]

theorem clearStatus {m : UInt16} {b : List UInt8} (hpc : w.receive = .clear m b) :
    Sound { w with
      rx := { w.rx with
        rxDescs := Function.update w.rx.rxDescs w.rx.rxCur { w.rx.rxDescs w.rx.rxCur with status := 0 } }
      receive := .advance m b } := by
  have hbehind : ¬w.receive.Behind := by rw [hpc]; exact id
  have hbase : w.base = w.rx.rxCur := Receive.base_of_not_behind hbehind _
  have hagrees := h.agrees
  rw [hpc] at hagrees
  obtain ⟨hdone, hb⟩ := hagrees
  have hmem : w.rx.rxCur ∈ w.used := (h.done_iff _ h.cur_lt).mp hdone
  rw [Nic.used, hbase, Lib.Ring.tail_mem_cells h.head_lt h.cur_lt] at hmem
  have hgiven := h.given hbehind
  have hleft := Lib.Ring.tail_notMem_cells h.head_lt h.cur_lt hmem
  have hused : w.used = w.rx.rxCur ::
      cells E1000_NUM_RX_DESC w.rx.headReg (next E1000_NUM_RX_DESC w.rx.rxCur) := by
    rw [Nic.used, hbase, Lib.Ring.cells_pop h.head_lt h.cur_lt hmem]
  have hpending : w.pending = (w.rx.rxDescs w.rx.rxCur).packet ::
      Lib.Ring.pending E1000_NUM_RX_DESC (fun i => (w.rx.rxDescs i).packet) w.rx.headReg
        (next E1000_NUM_RX_DESC w.rx.rxCur) := by
    rw [Nic.pending, hbase, Lib.Ring.pending_pop h.head_lt h.cur_lt hmem]
  obtain ⟨l, hdelivered, hcut⟩ := h.accounted
  refine ⟨h.head_lt, h.tail_lt, h.cur_lt, ?_, fun hb => absurd trivial hb, fun _ => ⟨?_, ?_⟩, ?_, trivial,
    l ++ [(w.rx.rxDescs w.rx.rxCur).packet], ?_, ?_⟩
  · intro i hi
    change _ ↔ i ∈ cells E1000_NUM_RX_DESC w.rx.headReg (next E1000_NUM_RX_DESC w.rx.rxCur)
    by_cases he : i = w.rx.rxCur
    · subst he
      simp [hleft, RxDesc.Done]
    · have hi' := h.done_iff i hi
      rw [hused, List.mem_cons, or_iff_right he] at hi'
      rw [← hi']
      dsimp only
      rw [Function.update_of_ne he]
  · rw [hgiven, hbase]
    exact hmem
  · rw [hgiven, hbase]
    rfl
  · rintro m' b' o ⟨⟩
  · change w.delivered = _ ++ Lib.Ring.pending _ _ _ (next E1000_NUM_RX_DESC w.rx.rxCur)
    rw [hdelivered, hpending, List.append_assoc, List.singleton_append]
    congr 2
    symm
    apply Lib.Ring.pending_congr
    intro i hi
    have he : i ≠ w.rx.rxCur := by rintro rfl; exact hleft hi
    dsimp only
    rw [Function.update_of_ne he]
  · rw [hpc] at hcut
    change List.Forall₂ Cut (w.returned ++ []) l at hcut
    rw [List.append_nil] at hcut
    exact List.rel_append hcut (.cons hb .nil)

theorem advanceCur {m : UInt16} {b : List UInt8} (hpc : w.receive = .advance m b) :
    Sound { w with
      rx := { w.rx with rxCur := next E1000_NUM_RX_DESC w.rx.rxCur }
      receive := .writeTail m b w.rx.rxCur } := by
  have hbehind : w.receive.Behind := by rw [hpc]; trivial
  have hbase : w.base = next E1000_NUM_RX_DESC w.rx.rxCur := by rw [Nic.base, hpc]; rfl
  obtain ⟨hroom, hnext⟩ := h.behind hbehind
  have hold : w.rx.rxCur = next E1000_NUM_RX_DESC w.rx.tailReg :=
    Lib.Ring.next_inj h.cur_lt (Lib.Ring.next_lt h.tail_lt) (hbase.symm.trans hnext.symm)
  obtain ⟨l, hdelivered, hcut⟩ := h.accounted
  refine ⟨h.head_lt, h.tail_lt, Lib.Ring.next_lt h.cur_lt, ?_, fun hb => absurd trivial hb,
    fun _ => ⟨hroom, ?_⟩, ?_, trivial, l, ?_, ?_⟩
  · intro i hi
    rw [h.done_iff i hi, Nic.used, hbase]
    rfl
  · rw [hnext, hbase]
    rfl
  · rintro m' b' o ⟨⟩
    exact hold
  · rw [hdelivered, Nic.pending, hbase]
    rfl
  · rw [hpc] at hcut
    exact hcut

theorem writeTail {m : UInt16} {b : List UInt8} {o : ℕ} (hpc : w.receive = .writeTail m b o) :
    Sound { w with rx := { w.rx with tailReg := o }, receive := .leave m b } := by
  have hbehind : w.receive.Behind := by rw [hpc]; trivial
  have hbase : w.base = w.rx.rxCur := by rw [Nic.base, hpc]; rfl
  have ho := h.old m b o hpc
  obtain ⟨-, hnext⟩ := h.behind hbehind
  obtain ⟨l, hdelivered, hcut⟩ := h.accounted
  refine ⟨h.head_lt, ?_, h.cur_lt, ?_, fun _ => ?_, fun hb => hb.elim, ?_, trivial, l, ?_, ?_⟩
  · exact ho ▸ Lib.Ring.next_lt h.tail_lt
  · intro i hi
    rw [h.done_iff i hi, Nic.used, hbase]
    rfl
  · rw [ho, hnext, hbase]
    rfl
  · rintro m' b' o' ⟨⟩
  · rw [hdelivered, Nic.pending, hbase]
    rfl
  · rw [hpc] at hcut
    exact hcut

end Sound

theorem step_sound {w w' : Nic} {e : Event} (h : Sound w) (hs : Step w e w') : Sound w' := by
  have hagrees := h.agrees
  cases hs with
  | deliver hroom hdone => exact h.deliver hroom hdone
  | call hpc => exact h.reader (by rw [hpc]; exact id) id (by rw [hpc]; rfl) trivial
  | readStatus hpc =>
    by_cases hdone : (w.rx.rxDescs w.rx.rxCur).Done
    · rw [if_pos hdone]
      exact h.reader (by rw [hpc]; exact id) id (by rw [hpc]; rfl) hdone
    · rw [if_neg hdone]
      exact h.reader (by rw [hpc]; exact id) id (by rw [hpc]; rfl) trivial
  | @readLength m hpc =>
    rw [hpc] at hagrees
    apply h.reader (by rw [hpc]; exact id) id (by rw [hpc]; rfl)
    refine ⟨hagrees, ?_, by simp⟩
    split_ifs with hlong
    · rw [GT.gt, UInt16.lt_iff_toNat_lt] at hlong
      omega
    · rw [GT.gt, UInt16.lt_iff_toNat_lt] at hlong
      omega
  | @copyByte m len b hpc hmore =>
    rw [hpc] at hagrees
    obtain ⟨hdone, hlen, hb⟩ := hagrees
    apply h.reader (by rw [hpc]; exact id) id (by rw [hpc]; rfl)
    refine ⟨hdone, hlen, ?_⟩
    rw [List.length_append, List.length_singleton, RxDesc.take_packet_succ (by omega), ← hb]
  | @copied m len b hpc hend =>
    rw [hpc] at hagrees
    obtain ⟨hdone, hlen, hb⟩ := hagrees
    apply h.reader (by rw [hpc]; exact id) id (by rw [hpc]; rfl)
    refine ⟨hdone, ?_⟩
    rw [hb, hend, hlen, RxDesc.take_packet_min]
  | clearStatus hpc => exact h.clearStatus hpc
  | advanceCur hpc => exact h.advanceCur hpc
  | writeTail hpc => exact h.writeTail hpc
  | ret hpc => exact h.reader (by rw [hpc]; exact id) id (by rw [hpc]; simp [Receive.inHand]) trivial

def initial : Nic where
  rx := e1000Init fun _ _ => 0
  receive := .idle
  delivered := []
  returned := []

def copyLen (d : RxDesc) (maxLength : UInt16) : UInt16 := if d.length > maxLength then maxLength else d.length

/-- `e1000_receive_packet` where the card does nothing meanwhile; `buffer` is an object of its own. -/
def e1000ReceivePacket (rxDescs : Option Rx) (maxLength : UInt16) (buffer : Mem) : ℤ × Mem × Option Rx :=
  match rxDescs with
  | none => (-1, buffer, none)
  | some rx =>
    let d := rx.rxDescs rx.rxCur
    if ¬d.Done then (0, buffer, some rx)
    else
      let len := copyLen d maxLength
      (len.toNat, fun i => if i < len.toNat then d.page i else buffer i,
        some
          { rx with
            rxDescs := Function.update rx.rxDescs rx.rxCur { d with status := 0 }
            rxCur := (rx.rxCur + 1) % E1000_NUM_RX_DESC
            tailReg := rx.rxCur })

theorem copy_run {w : Nic} {m len : UInt16} {k : ℕ} (hk : k ≤ len.toNat)
    (hpc : w.receive = .copy m len ((List.range k).map (w.rx.rxDescs w.rx.rxCur).page)) :
    Steps Step w (List.replicate (len.toNat - k) .receive)
      { w with receive := .copy m len ((List.range len.toNat).map (w.rx.rxDescs w.rx.rxCur).page) } := by
  obtain ⟨n, hn⟩ : ∃ n, n = len.toNat - k := ⟨_, rfl⟩
  induction n generalizing w k with
  | zero =>
    have he : k = len.toNat := by omega
    subst he
    rw [← hpc, Nat.sub_self]
    exact .nil w
  | succ n ih =>
    have hmore : k < len.toNat := by omega
    have hstep := Step.copyByte hpc (by simpa using hmore)
    rw [show len.toNat - k = len.toNat - (k + 1) + 1 by omega, List.replicate_succ]
    refine .cons hstep (ih (w := { w with receive := _ }) hmore ?_ (by omega))
    simp [List.range_succ]

theorem receive_alone {w : Nic} (hidle : w.receive = .idle) (m : UInt16) (buffer : Mem) :
    ∃ l w', (∀ e ∈ l, e = .receive) ∧ Steps Step w (.call m :: l) w' ∧ w'.receive = .idle ∧
      some w'.rx = (e1000ReceivePacket (some w.rx) m buffer).2.2 ∧
      w'.returned = if (w.rx.rxDescs w.rx.rxCur).Done then
          w.returned ++ [(m, (List.range (copyLen (w.rx.rxDescs w.rx.rxCur) m).toNat).map
            (e1000ReceivePacket (some w.rx) m buffer).2.1)]
        else w.returned := by
  have hcall : Step w (.call m) _ := .call hidle
  have hstatus := Step.readStatus (w := { w with receive := .entered m }) rfl
  by_cases hdone : (w.rx.rxDescs w.rx.rxCur).Done
  · rw [if_pos hdone] at hstatus
    have hlength := Step.readLength (w := { w with receive := .ready m }) rfl
    have hcopy := copy_run (w := { w with receive := .copy m (copyLen (w.rx.rxDescs w.rx.rxCur) m) [] })
      (Nat.zero_le _) rfl
    have hrest := hcopy.append (.cons (.copied rfl (by simp)) (.cons (.clearStatus rfl)
      (.cons (.advanceCur rfl) (.cons (.writeTail rfl) (.single (.ret rfl))))))
    refine ⟨_, _, ?_, .cons hcall (.cons hstatus (.cons hlength hrest)), rfl, ?_, ?_⟩
    · intro e he
      simp only [List.mem_cons, List.mem_append, List.mem_replicate, List.not_mem_nil, or_false] at he
      tauto
    · simp [e1000ReceivePacket, hdone]
    · simp only [e1000ReceivePacket, hdone, not_true_eq_false, if_true, if_false]
      congr 3
      apply List.map_congr_left
      intro i hi
      rw [if_pos (List.mem_range.mp hi)]
  · rw [if_neg hdone] at hstatus
    refine ⟨[.receive], _, by simp, .cons hcall (.single hstatus), rfl, ?_, ?_⟩
    · simp [e1000ReceivePacket, hdone]
    · rw [if_neg hdone]

/-- A transmit descriptor with the page of its `addr`, if that is not 0. -/
structure TxDesc where
  page : Option Mem
  length : UInt16
  cmd : UInt8
  status : UInt8

structure Tx where
  txDescs : ℕ → TxDesc
  tailReg : ℕ
  txCur : ℕ

def E1000_NUM_TX_DESC : ℕ := 32

/-- `freePage` is what `pmm_alloc_page` would give, `status` what the card writes back in the end. -/
def e1000SendPacket (txDescs : Option Tx) (freePage : Option Mem) (status : UInt8) (packet : Mem)
    (length : UInt16) : Option (ℤ × Option Tx) :=
  match txDescs with
  | none => some (-1, none)
  | some tx =>
    match (tx.txDescs tx.txCur).page.or freePage with
    | none => none
    | some buf =>
      -- the last loop waits for the card
      if status = 0 then none
      else
        let d : TxDesc :=
          { page := some fun i => if i < length.toNat then packet i else buf i
            length := length
            cmd := 0x01 ||| 0x02 ||| 0x08
            status := status }
        let cur := (tx.txCur + 1) % E1000_NUM_TX_DESC
        some (length.toNat, some { txDescs := Function.update tx.txDescs tx.txCur d, tailReg := cur, txCur := cur })

end JurkOS.Kernel.E1000
