import JurkOS.Kernel.Drivers.E1000
import Mathlib.Data.Finset.Card
import Mathlib.Data.Finset.Range

/-!
The transmit ring of `drivers/e1000.c`: `e1000_send_packet` step by step against the
card, which takes descriptors at its head register whenever it likes, and the rest of
the kernel, which writes to the memory that is not the driver's.
-/

namespace JurkOS.Kernel.E1000

open Lib.Run Lib.Memory
open Lib.Ring (next)

def PAGE_SIZE : ℕ := 4096

/-- A transmit descriptor as it lies in the ring: its page is the one at `addr`, none if that is 0. -/
structure SendDesc where
  addr : ℕ
  length : UInt16
  cmd : UInt8
  status : UInt8

def EOP : UInt8 := 0x01
def IFCS : UInt8 := 0x02
def RS : UInt8 := 0x08
def DD : UInt8 := 0x01

/-- Where `e1000_send_packet` stands, with the packet it was called with. -/
inductive Send
  | idle
  | entered (packet : List UInt8)
  | copy (packet : List UInt8) (txBuf k : ℕ)
  | setLength (packet : List UInt8)
  | setCmd (packet : List UInt8)
  | setStatus (packet : List UInt8)
  | advance (packet : List UInt8)
  | writeTail (packet : List UInt8) (oldCur : ℕ)
  | wait (packet : List UInt8) (oldCur : ℕ)

/-- `frames` is what `pmm_alloc_page` will give the driver; `wire` is what the card has sent. -/
structure Sender where
  mem : Mem
  descs : ℕ → SendDesc
  headReg : ℕ
  tailReg : ℕ
  txCur : ℕ
  frames : List ℕ
  send : Send
  called : List (List UInt8)
  wire : List (List UInt8)
  returned : List (List UInt8)

inductive SendEvent
  | call (packet : List UInt8)
  | send
  | transmit
  | other

def content (m : Mem) (addr n : ℕ) : List UInt8 := (List.range n).map fun i => m (addr + i)

namespace Sender

variable (w : Sender)

def setDesc (i : ℕ) (d : SendDesc) : Sender := { w with descs := Function.update w.descs i d }

/-- `tx_buf` is the page of the descriptor, or a new one. -/
def takePage (packet : List UInt8) : Sender :=
  let d := w.descs w.txCur
  if d.addr ≠ 0 then { w with send := .copy packet d.addr 0 }
  else
    { w with
      frames := w.frames.tail
      descs := Function.update w.descs w.txCur { d with addr := w.frames.headD 0 }
      send := .copy packet (w.frames.headD 0) 0 }

def owned : Set ℕ := {b | ∃ i < E1000_NUM_TX_DESC, (w.descs i).addr ≠ 0 ∧ b ∈ Span (w.descs i).addr PAGE_SIZE}

end Sender

inductive SendStep : Sender → SendEvent → Sender → Prop
  | call {w : Sender} {packet : List UInt8} (h : w.send = .idle) (hlen : packet.length < 2 ^ 16) :
      SendStep w (.call packet) { w with send := .entered packet, called := w.called ++ [packet] }
  | takePage {w : Sender} {packet : List UInt8} (h : w.send = .entered packet) :
      SendStep w .send (w.takePage packet)
  | copyByte {w : Sender} {packet : List UInt8} {txBuf k : ℕ} (h : w.send = .copy packet txBuf k)
      (hmore : k < packet.length) :
      SendStep w .send { w with
        mem := Function.update w.mem (txBuf + k) packet[k]
        send := .copy packet txBuf (k + 1) }
  | copied {w : Sender} {packet : List UInt8} {txBuf k : ℕ} (h : w.send = .copy packet txBuf k)
      (hend : k = packet.length) :
      SendStep w .send { w with send := .setLength packet }
  | setLength {w : Sender} {packet : List UInt8} (h : w.send = .setLength packet) :
      SendStep w .send { w.setDesc w.txCur { w.descs w.txCur with length := .ofNat packet.length } with
        send := .setCmd packet }
  | setCmd {w : Sender} {packet : List UInt8} (h : w.send = .setCmd packet) :
      SendStep w .send { w.setDesc w.txCur { w.descs w.txCur with cmd := EOP ||| IFCS ||| RS } with
        send := .setStatus packet }
  | setStatus {w : Sender} {packet : List UInt8} (h : w.send = .setStatus packet) :
      SendStep w .send { w.setDesc w.txCur { w.descs w.txCur with status := 0 } with send := .advance packet }
  | advance {w : Sender} {packet : List UInt8} (h : w.send = .advance packet) :
      SendStep w .send { w with
        txCur := (w.txCur + 1) % E1000_NUM_TX_DESC
        send := .writeTail packet w.txCur }
  | writeTail {w : Sender} {packet : List UInt8} {oldCur : ℕ} (h : w.send = .writeTail packet oldCur) :
      SendStep w .send { w with tailReg := w.txCur, send := .wait packet oldCur }
  | ret {w : Sender} {packet : List UInt8} {oldCur : ℕ} (h : w.send = .wait packet oldCur)
      (hdone : (w.descs oldCur).status ≠ 0) :
      SendStep w .send { w with send := .idle, returned := w.returned ++ [packet] }
  | transmit {w : Sender} (hne : w.headReg ≠ w.tailReg) (heop : (w.descs w.headReg).cmd &&& EOP ≠ 0) :
      SendStep w .transmit { w with
        wire := w.wire ++ [content w.mem (w.descs w.headReg).addr (w.descs w.headReg).length.toNat]
        descs := Function.update w.descs w.headReg { w.descs w.headReg with
          status := if (w.descs w.headReg).cmd &&& RS ≠ 0 then (w.descs w.headReg).status ||| DD
            else (w.descs w.headReg).status }
        headReg := (w.headReg + 1) % E1000_NUM_TX_DESC }
  | other {w : Sender} {m : Mem} (h : ChangedIn w.ownedᶜ w.mem m) : SendStep w .other { w with mem := m }

/-- What `e1000_init` leaves for the sender: descriptors of zeros, and frames that are apart from each other. -/
structure Sender.Start (w : Sender) : Prop where
  descs : ∀ i, w.descs i = ⟨0, 0, 0, 0⟩
  head : w.headReg = 0
  tail : w.tailReg = 0
  cur : w.txCur = 0
  send : w.send = .idle
  called : w.called = []
  wire : w.wire = []
  returned : w.returned = []
  frames : E1000_NUM_TX_DESC ≤ w.frames.length
  nonzero : 0 ∉ w.frames
  apart : w.frames.Pairwise fun a b => Disjoint (Span a PAGE_SIZE) (Span b PAGE_SIZE)

/-! ### The pages -/

def Sender.bare (w : Sender) : Finset ℕ := (Finset.range E1000_NUM_TX_DESC).filter fun i => (w.descs i).addr = 0

structure Pages (w : Sender) : Prop where
  enough : w.bare.card ≤ w.frames.length
  nonzero : 0 ∉ w.frames
  apart : w.frames.Pairwise fun a b => Disjoint (Span a PAGE_SIZE) (Span b PAGE_SIZE)
  fresh : ∀ f ∈ w.frames, Disjoint (Span f PAGE_SIZE) w.owned
  distinct : ∀ i < E1000_NUM_TX_DESC, ∀ j < E1000_NUM_TX_DESC, i ≠ j → (w.descs i).addr ≠ 0 → (w.descs j).addr ≠ 0 →
    Disjoint (Span (w.descs i).addr PAGE_SIZE) (Span (w.descs j).addr PAGE_SIZE)

structure Loaded (w : Sender) (i : ℕ) (packet : List UInt8) : Prop where
  content : content w.mem (w.descs i).addr packet.length = packet
  length : (w.descs i).length.toNat = packet.length
  cmd : (w.descs i).cmd = EOP ||| IFCS ||| RS
  status : (w.descs i).status = 0

structure Quiet (w : Sender) (packet : List UInt8) : Prop where
  head : w.headReg = w.txCur
  tail : w.tailReg = w.txCur
  wire : w.wire = w.returned
  called : w.called = w.returned ++ [packet]
  fits : packet.length ≤ PAGE_SIZE
  short : packet.length < 2 ^ 16

structure Handed (w : Sender) (packet : List UInt8) (oldCur : ℕ) : Prop where
  old : oldCur < E1000_NUM_TX_DESC
  cur : w.txCur = next E1000_NUM_TX_DESC oldCur
  called : w.called = w.returned ++ [packet]
  fits : packet.length ≤ PAGE_SIZE
  page : (w.descs oldCur).addr ≠ 0

def Sender.HasPage (w : Sender) : Prop := (w.descs w.txCur).addr ≠ 0

def Copied (w : Sender) (packet : List UInt8) : Prop :=
  content w.mem (w.descs w.txCur).addr packet.length = packet

def Stage (w : Sender) : Send → Prop
  | .idle => w.headReg = w.txCur ∧ w.tailReg = w.txCur ∧ w.wire = w.returned ∧ w.called = w.returned
  | .entered packet => Quiet w packet
  | .copy packet txBuf k => Quiet w packet ∧ w.HasPage ∧ (w.descs w.txCur).addr = txBuf ∧ k ≤ packet.length ∧
      content w.mem txBuf k = packet.take k
  | .setLength packet => Quiet w packet ∧ w.HasPage ∧ Copied w packet
  | .setCmd packet => Quiet w packet ∧ w.HasPage ∧ Copied w packet ∧ (w.descs w.txCur).length.toNat = packet.length
  | .setStatus packet => Quiet w packet ∧ w.HasPage ∧ Copied w packet ∧
      (w.descs w.txCur).length.toNat = packet.length ∧ (w.descs w.txCur).cmd = EOP ||| IFCS ||| RS
  | .advance packet => Quiet w packet ∧ w.HasPage ∧ Loaded w w.txCur packet
  | .writeTail packet oldCur => Handed w packet oldCur ∧ w.headReg = oldCur ∧ w.tailReg = oldCur ∧
      w.wire = w.returned ∧ Loaded w oldCur packet
  | .wait packet oldCur => Handed w packet oldCur ∧ w.tailReg = w.txCur ∧
      ((w.headReg = oldCur ∧ w.wire = w.returned ∧ Loaded w oldCur packet) ∨
        (w.headReg = w.txCur ∧ w.wire = w.returned ++ [packet] ∧ (w.descs oldCur).status ≠ 0))

structure SoundSender (w : Sender) : Prop where
  cur_lt : w.txCur < E1000_NUM_TX_DESC
  pages : Pages w
  stage : Stage w w.send

variable {w w' : Sender} {packet : List UInt8} {m m' : Mem} {a n k : ℕ}

theorem content_congr (h : ∀ i < n, m' (a + i) = m (a + i)) : content m' a n = content m a n :=
  List.map_congr_left fun i hi => h i (List.mem_range.mp hi)

theorem content_succ (m : Mem) (a n : ℕ) : content m a (n + 1) = content m a n ++ [m (a + n)] := by
  rw [content, List.range_succ, List.map_append]
  rfl

theorem content_drop (m : Mem) (a n k : ℕ) : content m (a + k) (n - k) = (content m a n).drop k := by
  apply List.ext_getElem
  · simp [content]
  · intro i hi hi'
    simp [content, Nat.add_assoc]

theorem content_copyByte (hcontent : content m a k = packet.take k) (hmore : k < packet.length) :
    content (Function.update m (a + k) packet[k]) a (k + 1) = packet.take (k + 1) := by
  have hbefore : content (Function.update m (a + k) packet[k]) a k = content m a k := by
    apply content_congr
    intro i hi
    exact Function.update_of_ne (by omega) _ _
  rw [content_succ, hbefore, hcontent, Function.update_self, List.take_append_getElem]

theorem owned_congr (h : ∀ i, (w'.descs i).addr = (w.descs i).addr) : w'.owned = w.owned := by
  ext b
  simp only [Sender.owned, h]

theorem bare_congr (h : ∀ i, (w'.descs i).addr = (w.descs i).addr) : w'.bare = w.bare := by
  simp only [Sender.bare, h]

theorem Pages.congr (hw : Pages w) (h : ∀ i, (w'.descs i).addr = (w.descs i).addr) (hframes : w'.frames = w.frames) :
    Pages w' where
  enough := by
    rw [bare_congr h, hframes]
    exact hw.enough
  nonzero := hframes ▸ hw.nonzero
  apart := hframes ▸ hw.apart
  fresh := by
    rw [hframes, owned_congr h]
    exact hw.fresh
  distinct i hi j hj hne := by
    rw [h i, h j]
    exact hw.distinct i hi j hj hne

theorem addr_update {d : SendDesc} {i : ℕ} (h : d.addr = (w.descs i).addr) (j : ℕ) :
    (Function.update w.descs i d j).addr = (w.descs j).addr := by
  by_cases hj : j = i
  · rw [hj, Function.update_self, h]
  · rw [Function.update_of_ne hj]

theorem mem_bare {i : ℕ} : i ∈ w.bare ↔ i < E1000_NUM_TX_DESC ∧ (w.descs i).addr = 0 := by
  rw [Sender.bare, Finset.mem_filter, Finset.mem_range]

theorem card_bare_take (hcur : w.txCur < E1000_NUM_TX_DESC) (hbare : (w.descs w.txCur).addr = 0) {d : SendDesc}
    (hd : d.addr ≠ 0) (hdescs : w'.descs = Function.update w.descs w.txCur d) : w'.bare.card < w.bare.card := by
  apply Finset.card_lt_card
  rw [Finset.ssubset_iff_of_subset]
  · refine ⟨w.txCur, mem_bare.mpr ⟨hcur, hbare⟩, fun hmem => ?_⟩
    have hzero := (mem_bare.mp hmem).2
    rw [hdescs, Function.update_self] at hzero
    exact hd hzero
  · intro i hi
    obtain ⟨hlt, hzero⟩ := mem_bare.mp hi
    have hne : i ≠ w.txCur := by
      rintro rfl
      rw [hdescs, Function.update_self] at hzero
      exact hd hzero
    rw [hdescs, Function.update_of_ne hne] at hzero
    exact mem_bare.mpr ⟨hlt, hzero⟩

theorem Pages.take (hw : Pages w) (hcur : w.txCur < E1000_NUM_TX_DESC) (hbare : (w.descs w.txCur).addr = 0) :
    ∃ f fs, w.frames = f :: fs ∧ f ≠ 0 ∧
      Pages { w with frames := fs, descs := Function.update w.descs w.txCur { w.descs w.txCur with addr := f } } := by
  have hmem : w.txCur ∈ w.bare := mem_bare.mpr ⟨hcur, hbare⟩
  have henough := hw.enough
  cases hframes : w.frames with
  | nil =>
    rw [hframes, List.length_nil, Nat.le_zero, Finset.card_eq_zero] at henough
    rw [henough] at hmem
    cases hmem
  | cons f fs =>
    have hapart := hw.apart
    have hnonzero := hw.nonzero
    have hfresh := hw.fresh
    rw [hframes] at henough hapart hnonzero hfresh
    rw [List.mem_cons, not_or] at hnonzero
    rw [List.pairwise_cons] at hapart
    rw [List.forall_mem_cons] at hfresh
    obtain ⟨d, hd⟩ : ∃ d : SendDesc, d = { w.descs w.txCur with addr := f } := ⟨_, rfl⟩
    have haddr : d.addr = f := by rw [hd]
    have hnew (i : ℕ) (hi : i ≠ w.txCur) : Function.update w.descs w.txCur d i = w.descs i :=
      Function.update_of_ne hi _ _
    have hspan (i : ℕ) (hi : i < E1000_NUM_TX_DESC) (hpage : (w.descs i).addr ≠ 0) :
        Disjoint (Span f PAGE_SIZE) (Span (w.descs i).addr PAGE_SIZE) :=
      have howned : Span (w.descs i).addr PAGE_SIZE ⊆ w.owned := fun b hb => ⟨i, hi, hpage, hb⟩
      Set.disjoint_of_subset_right howned hfresh.1
    refine ⟨f, fs, rfl, Ne.symm hnonzero.1, ?_⟩
    rw [← hd]
    refine ⟨?_, hnonzero.2, hapart.2, ?_, ?_⟩
    · have hcard :
          (Sender.bare { w with frames := fs, descs := Function.update w.descs w.txCur d }).card < w.bare.card :=
        card_bare_take hcur hbare (d := d) (by rw [haddr]; exact Ne.symm hnonzero.1) rfl
      rw [List.length_cons] at henough
      dsimp only
      omega
    · intro g hg
      rw [Set.disjoint_right]
      rintro b ⟨i, hi, hpage, hb⟩
      dsimp only at hpage hb
      by_cases hcase : i = w.txCur
      · rw [hcase, Function.update_self, haddr] at hb
        exact Set.disjoint_left.mp (hapart.1 g hg) hb
      · rw [hnew i hcase] at hpage hb
        exact Set.disjoint_right.mp (hfresh.2 g hg) ⟨i, hi, hpage, hb⟩
    · intro i hi j hj hne hpi hpj
      dsimp only at hpi hpj ⊢
      by_cases hci : i = w.txCur
      · have hcj : j ≠ w.txCur := fun h => hne (hci.trans h.symm)
        rw [hnew j hcj] at hpj ⊢
        rw [hci, Function.update_self, haddr]
        exact hspan j hj hpj
      · rw [hnew i hci] at hpi ⊢
        by_cases hcj : j = w.txCur
        · rw [hcj, Function.update_self, haddr]
          exact (hspan i hi hpi).symm
        · rw [hnew j hcj] at hpj ⊢
          exact hw.distinct i hi j hj hne hpi hpj

/-! ### Steps -/

theorem start_soundSender (h : w.Start) : SoundSender w where
  cur_lt := by
    rw [h.cur]
    decide
  pages := by
    have hzero (i : ℕ) : (w.descs i).addr = 0 := by rw [h.descs]
    refine ⟨?_, h.nonzero, h.apart, ?_, fun i hi j hj hne hpage => absurd (hzero i) hpage⟩
    · have hcard : w.bare.card ≤ (Finset.range E1000_NUM_TX_DESC).card := Finset.card_filter_le _ _
      rw [Finset.card_range] at hcard
      exact hcard.trans h.frames
    · intro f hf
      rw [Set.disjoint_right]
      rintro b ⟨i, hi, hpage, hb⟩
      exact absurd (hzero i) hpage
  stage := by
    rw [h.send]
    exact ⟨h.head.trans h.cur.symm, h.tail.trans h.cur.symm, h.wire.trans h.returned.symm,
      h.called.trans h.returned.symm⟩

theorem stage_of_send {s : Send} (h : SoundSender w) (hs : w.send = s) : Stage w s := hs ▸ h.stage

theorem content_other (h : ChangedIn w.ownedᶜ w.mem m) {i : ℕ} (hi : i < E1000_NUM_TX_DESC)
    (hpage : (w.descs i).addr ≠ 0) (hn : n ≤ PAGE_SIZE) :
    content m (w.descs i).addr n = content w.mem (w.descs i).addr n := by
  apply content_congr
  intro k hk
  apply h
  rw [Set.notMem_compl_iff]
  exact ⟨i, hi, hpage, by rw [mem_span]; omega⟩

theorem Loaded.other {i : ℕ} (hload : Loaded w i packet) (h : ChangedIn w.ownedᶜ w.mem m)
    (hi : i < E1000_NUM_TX_DESC) (hpage : (w.descs i).addr ≠ 0) (hn : packet.length ≤ PAGE_SIZE) :
    Loaded { w with mem := m } i packet where
  content := (content_other h hi hpage hn).trans hload.content
  length := hload.length
  cmd := hload.cmd
  status := hload.status

theorem Stage.other {s : Send} (hstage : Stage w s) (hcur : w.txCur < E1000_NUM_TX_DESC)
    (h : ChangedIn w.ownedᶜ w.mem m) : Stage { w with mem := m } s := by
  have hcopied {packet : List UInt8} (hpage : w.HasPage) (hfits : packet.length ≤ PAGE_SIZE) (hc : Copied w packet) :
      Copied { w with mem := m } packet := (content_other h hcur hpage hfits).trans hc
  have hquiet {packet : List UInt8} (hq : Quiet w packet) : Quiet { w with mem := m } packet :=
    ⟨hq.head, hq.tail, hq.wire, hq.called, hq.fits, hq.short⟩
  have hhanded {packet : List UInt8} {old : ℕ} (hh : Handed w packet old) : Handed { w with mem := m } packet old :=
    ⟨hh.old, hh.cur, hh.called, hh.fits, hh.page⟩
  cases s with
  | idle => exact hstage
  | entered packet => exact hquiet hstage
  | copy packet txBuf k =>
    obtain ⟨hq, hpage, rfl, hk, hcontent⟩ := hstage
    exact ⟨hquiet hq, hpage, rfl, hk, (content_other h hcur hpage (hk.trans hq.fits)).trans hcontent⟩
  | setLength packet =>
    obtain ⟨hq, hpage, hc⟩ := hstage
    exact ⟨hquiet hq, hpage, hcopied hpage hq.fits hc⟩
  | setCmd packet =>
    obtain ⟨hq, hpage, hc, hlength⟩ := hstage
    exact ⟨hquiet hq, hpage, hcopied hpage hq.fits hc, hlength⟩
  | setStatus packet =>
    obtain ⟨hq, hpage, hc, hlength, hcmd⟩ := hstage
    exact ⟨hquiet hq, hpage, hcopied hpage hq.fits hc, hlength, hcmd⟩
  | advance packet =>
    obtain ⟨hq, hpage, hload⟩ := hstage
    exact ⟨hquiet hq, hpage, hload.other h hcur hpage hq.fits⟩
  | writeTail packet old =>
    obtain ⟨hh, hhead, htail, hwire, hload⟩ := hstage
    exact ⟨hhanded hh, hhead, htail, hwire, hload.other h hh.old hh.page hh.fits⟩
  | wait packet old =>
    obtain ⟨hh, htail, ⟨hhead, hwire, hload⟩ | hdone⟩ := hstage
    · exact ⟨hhanded hh, htail, .inl ⟨hhead, hwire, hload.other h hh.old hh.page hh.fits⟩⟩
    · exact ⟨hhanded hh, htail, .inr hdone⟩

def SendEvent.Fits : SendEvent → Prop
  | .call packet => packet.length ≤ PAGE_SIZE
  | _ => True

theorem takePage_soundSender (hw : SoundSender w) (hsend : w.send = .entered packet) :
    SoundSender (w.takePage packet) := by
  have hq : Quiet w packet := stage_of_send hw hsend
  have hnone (a : ℕ) : content w.mem a 0 = packet.take 0 := rfl
  rw [Sender.takePage]
  split_ifs with hpage
  · exact ⟨hw.cur_lt, hw.pages.congr (fun i => rfl) rfl,
      ⟨hq.head, hq.tail, hq.wire, hq.called, hq.fits, hq.short⟩, hpage, rfl, Nat.zero_le _, hnone _⟩
  · rw [ne_eq, not_not] at hpage
    obtain ⟨f, fs, hframes, hf, hpages⟩ := hw.pages.take hw.cur_lt hpage
    have hself : (Function.update w.descs w.txCur { w.descs w.txCur with addr := f } w.txCur).addr = f := by
      rw [Function.update_self]
    rw [hframes]
    refine ⟨hw.cur_lt, hpages.congr (fun i => rfl) rfl,
      ⟨hq.head, hq.tail, hq.wire, hq.called, hq.fits, hq.short⟩, ?_, hself, Nat.zero_le _, hnone _⟩
    exact fun h => hf (hself.symm.trans h)

theorem copyByte_soundSender {txBuf : ℕ} (hw : SoundSender w) (hsend : w.send = .copy packet txBuf k)
    (hmore : k < packet.length) : SoundSender { w with
      mem := Function.update w.mem (txBuf + k) packet[k]
      send := .copy packet txBuf (k + 1) } := by
  obtain ⟨hq, hpage, haddr, hk, hcontent⟩ := stage_of_send hw hsend
  exact ⟨hw.cur_lt, hw.pages.congr (fun i => rfl) rfl,
    ⟨hq.head, hq.tail, hq.wire, hq.called, hq.fits, hq.short⟩, hpage, haddr, hmore, content_copyByte hcontent hmore⟩

theorem setDesc_quiet {d : SendDesc} {s : Send} (haddr : d.addr = (w.descs w.txCur).addr) (hq : Quiet w packet)
    (hpage : w.HasPage) (hc : Copied w packet) :
    Quiet { w.setDesc w.txCur d with send := s } packet ∧ Sender.HasPage { w.setDesc w.txCur d with send := s } ∧
      Copied { w.setDesc w.txCur d with send := s } packet := by
  refine ⟨⟨hq.head, hq.tail, hq.wire, hq.called, hq.fits, hq.short⟩, ?_, ?_⟩
  · rw [Sender.HasPage, Sender.setDesc]
    dsimp only
    rw [Function.update_self, haddr]
    exact hpage
  · rw [Copied, Sender.setDesc]
    dsimp only
    rw [Function.update_self, haddr]
    exact hc

theorem setLength_soundSender (hw : SoundSender w) (hsend : w.send = .setLength packet) :
    SoundSender { w.setDesc w.txCur { w.descs w.txCur with length := .ofNat packet.length } with
      send := .setCmd packet } := by
  obtain ⟨hq, hpage, hc⟩ := stage_of_send hw hsend
  obtain ⟨hquiet, hpage', hcopied⟩ := setDesc_quiet (d := { w.descs w.txCur with length := .ofNat packet.length })
    (s := .setCmd packet) rfl hq hpage hc
  refine ⟨hw.cur_lt, hw.pages.congr (addr_update (by rfl)) rfl, hquiet, hpage', hcopied, ?_⟩
  have hlength : (UInt16.ofNat packet.length).toNat = packet.length := UInt16.toNat_ofNat_of_lt' hq.short
  simpa [Sender.setDesc] using hlength

theorem setCmd_soundSender (hw : SoundSender w) (hsend : w.send = .setCmd packet) :
    SoundSender { w.setDesc w.txCur { w.descs w.txCur with cmd := EOP ||| IFCS ||| RS } with
      send := .setStatus packet } := by
  obtain ⟨hq, hpage, hc, hlength⟩ := stage_of_send hw hsend
  obtain ⟨hquiet, hpage', hcopied⟩ := setDesc_quiet (d := { w.descs w.txCur with cmd := EOP ||| IFCS ||| RS })
    (s := .setStatus packet) rfl hq hpage hc
  refine ⟨hw.cur_lt, hw.pages.congr (addr_update (by rfl)) rfl, hquiet, hpage', hcopied, ?_, ?_⟩
  · simpa [Sender.setDesc] using hlength
  · simp [Sender.setDesc]

theorem setStatus_soundSender (hw : SoundSender w) (hsend : w.send = .setStatus packet) :
    SoundSender { w.setDesc w.txCur { w.descs w.txCur with status := 0 } with send := .advance packet } := by
  obtain ⟨hq, hpage, hc, hlength, hcmd⟩ := stage_of_send hw hsend
  obtain ⟨hquiet, hpage', hcopied⟩ := setDesc_quiet (d := { w.descs w.txCur with status := 0 })
    (s := .advance packet) rfl hq hpage hc
  refine ⟨hw.cur_lt, hw.pages.congr (addr_update (by rfl)) rfl, hquiet, hpage', hcopied, ?_, ?_, ?_⟩
  · simpa [Sender.setDesc] using hlength
  · simpa [Sender.setDesc] using hcmd
  · simp [Sender.setDesc]

theorem advance_soundSender (hw : SoundSender w) (hsend : w.send = .advance packet) :
    SoundSender { w with
      txCur := (w.txCur + 1) % E1000_NUM_TX_DESC
      send := .writeTail packet w.txCur } := by
  obtain ⟨hq, hpage, hload⟩ := stage_of_send hw hsend
  exact ⟨Lib.Ring.next_lt hw.cur_lt, hw.pages.congr (fun i => rfl) rfl,
    ⟨hw.cur_lt, rfl, hq.called, hq.fits, hpage⟩, hq.head, hq.tail, hq.wire,
    ⟨hload.content, hload.length, hload.cmd, hload.status⟩⟩

theorem writeTail_soundSender {oldCur : ℕ} (hw : SoundSender w) (hsend : w.send = .writeTail packet oldCur) :
    SoundSender { w with tailReg := w.txCur, send := .wait packet oldCur } := by
  obtain ⟨hh, hhead, -, hwire, hload⟩ := stage_of_send hw hsend
  exact ⟨hw.cur_lt, hw.pages.congr (fun i => rfl) rfl, ⟨hh.old, hh.cur, hh.called, hh.fits, hh.page⟩, rfl,
    .inl ⟨hhead, hwire, hload.content, hload.length, hload.cmd, hload.status⟩⟩

theorem ret_soundSender {oldCur : ℕ} (hw : SoundSender w) (hsend : w.send = .wait packet oldCur)
    (hdone : (w.descs oldCur).status ≠ 0) :
    SoundSender { w with send := .idle, returned := w.returned ++ [packet] } := by
  obtain ⟨hh, htail, ⟨-, -, hload⟩ | ⟨hhead, hwire, -⟩⟩ := stage_of_send hw hsend
  · exact absurd hload.status hdone
  · exact ⟨hw.cur_lt, hw.pages.congr (fun i => rfl) rfl, hhead, htail, hwire, hh.called⟩

theorem waits_of_pending (hw : SoundSender w) (hne : w.headReg ≠ w.tailReg) :
    ∃ packet, w.send = .wait packet w.headReg ∧ Handed w packet w.headReg ∧ w.tailReg = w.txCur ∧
      w.wire = w.returned ∧ Loaded w w.headReg packet := by
  have hstage := hw.stage
  cases hsend : w.send with
  | wait packet old =>
    rw [hsend] at hstage
    obtain ⟨hh, htail, ⟨hhead, hwire, hload⟩ | ⟨hhead, -, -⟩⟩ := hstage
    · rw [hhead]
      exact ⟨packet, rfl, hh, htail, hwire, hload⟩
    · exact absurd (hhead.trans htail.symm) hne
  | writeTail packet old =>
    rw [hsend] at hstage
    obtain ⟨-, hhead, htail, -⟩ := hstage
    exact absurd (hhead.trans htail.symm) hne
  | idle =>
    rw [hsend] at hstage
    exact absurd (hstage.1.trans hstage.2.1.symm) hne
  | entered packet =>
    rw [hsend] at hstage
    exact absurd (hstage.head.trans hstage.tail.symm) hne
  | copy packet txBuf k =>
    rw [hsend] at hstage
    exact absurd (hstage.1.head.trans hstage.1.tail.symm) hne
  | setLength packet =>
    rw [hsend] at hstage
    exact absurd (hstage.1.head.trans hstage.1.tail.symm) hne
  | setCmd packet =>
    rw [hsend] at hstage
    exact absurd (hstage.1.head.trans hstage.1.tail.symm) hne
  | setStatus packet =>
    rw [hsend] at hstage
    exact absurd (hstage.1.head.trans hstage.1.tail.symm) hne
  | advance packet =>
    rw [hsend] at hstage
    exact absurd (hstage.1.head.trans hstage.1.tail.symm) hne

theorem transmit_soundSender (hw : SoundSender w) (hne : w.headReg ≠ w.tailReg) :
    SoundSender { w with
      wire := w.wire ++ [content w.mem (w.descs w.headReg).addr (w.descs w.headReg).length.toNat]
      descs := Function.update w.descs w.headReg { w.descs w.headReg with
        status := if (w.descs w.headReg).cmd &&& RS ≠ 0 then (w.descs w.headReg).status ||| DD
          else (w.descs w.headReg).status }
      headReg := (w.headReg + 1) % E1000_NUM_TX_DESC } := by
  obtain ⟨packet, hsend, hh, htail, hwire, hload⟩ := waits_of_pending hw hne
  have hrs : (EOP ||| IFCS ||| RS) &&& RS ≠ 0 := by decide
  have hdd : (0 : UInt8) ||| DD ≠ 0 := by decide
  refine ⟨hw.cur_lt, hw.pages.congr (addr_update (by rfl)) rfl, ?_⟩
  dsimp only
  rw [hsend, hload.length, hload.content, hload.cmd, hload.status, if_pos hrs, hwire]
  refine ⟨⟨hh.old, hh.cur, hh.called, hh.fits, ?_⟩, htail, .inr ⟨hh.cur.symm, rfl, ?_⟩⟩
  · dsimp only
    rw [Function.update_self]
    exact hh.page
  · dsimp only
    rw [Function.update_self]
    exact hdd

theorem step_soundSender {e : SendEvent} (hw : SoundSender w) (hfits : e.Fits) (h : SendStep w e w') :
    SoundSender w' := by
  cases h with
  | call hsend hshort =>
    obtain ⟨hhead, htail, hwire, hcalled⟩ := stage_of_send hw hsend
    exact ⟨hw.cur_lt, hw.pages.congr (fun i => rfl) rfl, hhead, htail, hwire,
      congrArg (· ++ [_]) hcalled, hfits, hshort⟩
  | takePage hsend => exact takePage_soundSender hw hsend
  | copyByte hsend hmore => exact copyByte_soundSender hw hsend hmore
  | copied hsend hend =>
    obtain ⟨hq, hpage, haddr, -, hcontent⟩ := stage_of_send hw hsend
    rw [hend, List.take_length, ← haddr] at hcontent
    exact ⟨hw.cur_lt, hw.pages.congr (fun i => rfl) rfl, ⟨hq.head, hq.tail, hq.wire, hq.called, hq.fits, hq.short⟩,
      hpage, hcontent⟩
  | setLength hsend => exact setLength_soundSender hw hsend
  | setCmd hsend => exact setCmd_soundSender hw hsend
  | setStatus hsend => exact setStatus_soundSender hw hsend
  | advance hsend => exact advance_soundSender hw hsend
  | writeTail hsend => exact writeTail_soundSender hw hsend
  | ret hsend hdone => exact ret_soundSender hw hsend hdone
  | transmit hne heop => exact transmit_soundSender hw hne
  | other hmem => exact ⟨hw.cur_lt, hw.pages.congr (fun i => rfl) rfl, hw.stage.other hw.cur_lt hmem⟩

/-! ### Runs -/

def FittingStep (w : Sender) (e : SendEvent) (w' : Sender) : Prop := e.Fits ∧ SendStep w e w'

theorem fittingStep_send (h : SendStep w .send w') : FittingStep w .send w' := ⟨trivial, h⟩

theorem soundSender_of_steps {l : List SendEvent} (hw : SoundSender w) (h : Steps FittingStep w l w') :
    SoundSender w' :=
  h.invariant (P := SoundSender) (fun _ _ _ hs hstep => step_soundSender hs hstep.1 hstep.2) hw

theorem soundSender_of_reachable (h : Reachable Sender.Start FittingStep w) : SoundSender w := by
  obtain ⟨s, l, hs, hl⟩ := h
  exact soundSender_of_steps (start_soundSender hs) hl

theorem Quiet.order (hq : Quiet w packet) :
    w.returned <+: w.wire ∧ w.wire <+: w.called ∧ w.called.length ≤ w.returned.length + 1 := by
  rw [hq.wire, hq.called, List.length_append]
  exact ⟨List.prefix_rfl, List.prefix_append _ _, le_refl _⟩

theorem SoundSender.order (hw : SoundSender w) :
    w.returned <+: w.wire ∧ w.wire <+: w.called ∧ w.called.length ≤ w.returned.length + 1 := by
  have hstage := hw.stage
  cases hsend : w.send with
  | idle =>
    rw [hsend] at hstage
    rw [hstage.2.2.1, hstage.2.2.2]
    exact ⟨List.prefix_rfl, List.prefix_rfl, Nat.le_succ _⟩
  | entered packet =>
    rw [hsend] at hstage
    exact hstage.order
  | copy packet txBuf k =>
    rw [hsend] at hstage
    exact hstage.1.order
  | setLength packet =>
    rw [hsend] at hstage
    exact hstage.1.order
  | setCmd packet =>
    rw [hsend] at hstage
    exact hstage.1.order
  | setStatus packet =>
    rw [hsend] at hstage
    exact hstage.1.order
  | advance packet =>
    rw [hsend] at hstage
    exact hstage.1.order
  | writeTail packet old =>
    rw [hsend] at hstage
    obtain ⟨hh, -, -, hwire, -⟩ := hstage
    rw [hwire, hh.called, List.length_append]
    exact ⟨List.prefix_rfl, List.prefix_append _ _, le_refl _⟩
  | wait packet old =>
    rw [hsend] at hstage
    obtain ⟨hh, -, ⟨-, hwire, -⟩ | ⟨-, hwire, -⟩⟩ := hstage
    · rw [hwire, hh.called, List.length_append]
      exact ⟨List.prefix_rfl, List.prefix_append _ _, le_refl _⟩
    · rw [hwire, hh.called, List.length_append]
      exact ⟨List.prefix_append _ _, List.prefix_rfl, le_refl _⟩

theorem send_ring (h : Reachable Sender.Start FittingStep w) :
    w.returned <+: w.wire ∧ w.wire <+: w.called ∧ w.called.length ≤ w.returned.length + 1 ∧
      (w.headReg ≠ w.tailReg → ∃ packet, w.called = w.wire ++ [packet] ∧ Loaded w w.headReg packet) := by
  have hw := soundSender_of_reachable h
  obtain ⟨hreturned, hcalled, hlen⟩ := hw.order
  refine ⟨hreturned, hcalled, hlen, fun hne => ?_⟩
  obtain ⟨packet, -, hh, -, hwire, hload⟩ := waits_of_pending hw hne
  exact ⟨packet, hwire ▸ hh.called, hload⟩

def ready : Sender where
  mem _ := 0
  descs _ := ⟨0, 0, 0, 0⟩
  headReg := 0
  tailReg := 0
  txCur := 0
  frames := (List.range E1000_NUM_TX_DESC).map fun i => (i + 1) * PAGE_SIZE
  send := .idle
  called := []
  wire := []
  returned := []

theorem ready_start : ready.Start where
  descs _ := rfl
  head := rfl
  tail := rfl
  cur := rfl
  send := rfl
  called := rfl
  wire := rfl
  returned := rfl
  frames := by decide
  nonzero := by decide
  apart := by
    rw [ready, List.pairwise_map]
    apply List.pairwise_lt_range.imp
    intro i j hij
    rw [Set.disjoint_left]
    intro b hb hb'
    rw [mem_span, PAGE_SIZE] at hb hb'
    omega

theorem ready_called : Steps FittingStep ready [.call [7], .send]
    (Sender.takePage { ready with send := .entered [7], called := [[7]] } [7]) := by
  have hfits : SendEvent.Fits (.call [7]) := (by decide : 1 ≤ PAGE_SIZE)
  exact .cons ⟨hfits, .call rfl (by decide)⟩ (.single (fittingStep_send (.takePage rfl)))

theorem send_ring_waiting : ∃ w : Sender, w.called = [[7]] ∧ w.headReg ≠ w.tailReg ∧
    ∃ packet, w.called = w.wire ++ [packet] ∧ Loaded w w.headReg packet := by
  have hcopied := ready_called.append (.cons (fittingStep_send (.copyByte rfl (by decide)))
    (.single (fittingStep_send (.copied rfl rfl))))
  have hfilled := hcopied.append (.cons (fittingStep_send (.setLength rfl))
    (.cons (fittingStep_send (.setCmd rfl)) (.single (fittingStep_send (.setStatus rfl)))))
  have hwaits := hfilled.append (.cons (fittingStep_send (.advance rfl)) (.single (fittingStep_send (.writeTail rfl))))
  obtain ⟨-, -, -, hpending⟩ := send_ring ⟨ready, _, ready_start, hwaits⟩
  have hne : (0 : ℕ) ≠ 1 := by decide
  exact ⟨_, rfl, hne, hpending hne⟩

/-! ### What is written to -/

def Drawn (s w : Sender) : Prop :=
  ∃ k, k + w.bare.card ≤ E1000_NUM_TX_DESC ∧ w.frames = s.frames.drop k ∧
    ∀ i < E1000_NUM_TX_DESC, (w.descs i).addr ≠ 0 → (w.descs i).addr ∈ s.frames.take k

theorem Drawn.congr {s : Sender} (h : Drawn s w) (haddr : ∀ i, (w'.descs i).addr = (w.descs i).addr)
    (hframes : w'.frames = w.frames) : Drawn s w' := by
  obtain ⟨k, hk, hdrop, hpages⟩ := h
  refine ⟨k, ?_, hframes.trans hdrop, fun i hi hpage => ?_⟩
  · rwa [bare_congr haddr]
  · rw [haddr i] at hpage ⊢
    exact hpages i hi hpage

theorem start_drawn (h : w.Start) : Drawn w w := by
  refine ⟨0, ?_, rfl, fun i hi hpage => absurd (congrArg SendDesc.addr (h.descs i)) hpage⟩
  have hcard : w.bare.card ≤ (Finset.range E1000_NUM_TX_DESC).card := Finset.card_filter_le _ _
  rwa [Finset.card_range, ← Nat.zero_add w.bare.card] at hcard

theorem takePage_drawn {s : Sender} (hw : SoundSender w) (h : Drawn s w) : Drawn s (w.takePage packet) := by
  rw [Sender.takePage]
  split_ifs with hpage
  · exact h.congr (fun i => rfl) rfl
  · rw [ne_eq, not_not] at hpage
    obtain ⟨f, fs, hframes, hf, -⟩ := hw.pages.take hw.cur_lt hpage
    obtain ⟨k, hk, hdrop, hpages⟩ := h
    rw [hframes] at hdrop ⊢
    have hlt : k < s.frames.length := by
      by_contra hge
      rw [List.drop_eq_nil_of_le (not_lt.mp hge)] at hdrop
      cases hdrop
    have hcons := List.drop_eq_getElem_cons hlt
    rw [← hdrop, List.cons.injEq] at hcons
    refine ⟨k + 1, ?_, hcons.2, fun i hi hnew => ?_⟩
    · have hcard : (Sender.bare { w with
          frames := fs
          descs := Function.update w.descs w.txCur { w.descs w.txCur with addr := f }
          send := .copy packet f 0 }).card < w.bare.card :=
        card_bare_take hw.cur_lt hpage (d := { w.descs w.txCur with addr := f }) hf rfl
      refine le_trans ?_ hk
      rw [Nat.add_assoc, Nat.add_comm 1]
      exact Nat.add_le_add_left hcard k
    · rw [← List.take_append_getElem hlt, List.mem_append, List.mem_singleton]
      dsimp only [List.headD_cons] at hnew ⊢
      by_cases hi' : i = w.txCur
      · rw [hi', Function.update_self]
        exact .inr hcons.1
      · rw [Function.update_of_ne hi'] at hnew ⊢
        exact .inl (hpages i hi hnew)

theorem step_drawn {s : Sender} {e : SendEvent} (hw : SoundSender w) (h : Drawn s w) (hstep : SendStep w e w') :
    Drawn s w' := by
  cases hstep with
  | takePage => exact takePage_drawn hw h
  | setLength => exact h.congr (addr_update (by rfl)) rfl
  | setCmd => exact h.congr (addr_update (by rfl)) rfl
  | setStatus => exact h.congr (addr_update (by rfl)) rfl
  | transmit => exact h.congr (addr_update (by rfl)) rfl
  | call => exact h.congr (fun i => rfl) rfl
  | copyByte => exact h.congr (fun i => rfl) rfl
  | copied => exact h.congr (fun i => rfl) rfl
  | advance => exact h.congr (fun i => rfl) rfl
  | writeTail => exact h.congr (fun i => rfl) rfl
  | ret => exact h.congr (fun i => rfl) rfl
  | other => exact h.congr (fun i => rfl) rfl

theorem step_changedIn {s : Sender} {e : SendEvent} (hw : SoundSender w) (hdrawn : Drawn s w) (hstep : SendStep w e w')
    (he : e ≠ .other) :
    ChangedIn {b | ∃ f ∈ s.frames.take E1000_NUM_TX_DESC, b ∈ Span f PAGE_SIZE} w.mem w'.mem := by
  cases hstep with
  | copyByte hsend hmore =>
    obtain ⟨hq, hpage, haddr, -, -⟩ := stage_of_send hw hsend
    obtain ⟨k, hk, -, hpages⟩ := hdrawn
    have hmem := hpages _ hw.cur_lt hpage
    intro b hb
    apply Function.update_of_ne
    rintro rfl
    apply hb
    refine ⟨(w.descs w.txCur).addr, List.take_subset_take_left _ (by omega) hmem, ?_⟩
    rw [haddr, mem_span]
    have hfits := hq.fits
    omega
  | takePage =>
    have hmem (packet : List UInt8) : (w.takePage packet).mem = w.mem := by
      rw [Sender.takePage]
      split_ifs <;> rfl
    rw [hmem]
    exact ChangedIn.refl _ _
  | other => exact absurd rfl he
  | call => exact ChangedIn.refl _ _
  | copied => exact ChangedIn.refl _ _
  | setLength => exact ChangedIn.refl _ _
  | setCmd => exact ChangedIn.refl _ _
  | setStatus => exact ChangedIn.refl _ _
  | advance => exact ChangedIn.refl _ _
  | writeTail => exact ChangedIn.refl _ _
  | ret => exact ChangedIn.refl _ _
  | transmit => exact ChangedIn.refl _ _

theorem send_confined {s : Sender} {l : List SendEvent} {e : SendEvent} (hs : s.Start) (h : Steps FittingStep s l w)
    (hstep : FittingStep w e w') (he : e ≠ .other) :
    (∃ k ≤ E1000_NUM_TX_DESC, w'.frames = s.frames.drop k) ∧
      ChangedIn {b | ∃ f ∈ s.frames.take E1000_NUM_TX_DESC, b ∈ Span f PAGE_SIZE} w.mem w'.mem := by
  have hboth : SoundSender w ∧ Drawn s w := by
    apply h.invariant (P := fun w => SoundSender w ∧ Drawn s w)
    · rintro w e w' ⟨hw, hdrawn⟩ hstep
      exact ⟨step_soundSender hw hstep.1 hstep.2, step_drawn hw hdrawn hstep.2⟩
    · exact ⟨start_soundSender hs, start_drawn hs⟩
  obtain ⟨hw, hdrawn⟩ := hboth
  obtain ⟨k, hk, hdrop, -⟩ := step_drawn hw hdrawn hstep.2
  exact ⟨⟨k, by omega, hdrop⟩, step_changedIn hw hdrawn hstep.2 he⟩

theorem copy_all {txBuf : ℕ} (hk : k ≤ packet.length) (hsend : w.send = .copy packet txBuf k)
    (hcontent : content w.mem txBuf k = packet.take k) :
    ∃ w', Steps SendStep w (List.replicate (packet.length - k) .send) w' ∧ w'.send = .copy packet txBuf packet.length ∧
      content w'.mem txBuf packet.length = packet := by
  obtain ⟨j, hj⟩ : ∃ j, j = packet.length - k := ⟨_, rfl⟩
  induction j generalizing w k with
  | zero =>
    obtain rfl : k = packet.length := by omega
    rw [Nat.sub_self]
    rw [List.take_length] at hcontent
    exact ⟨w, .nil w, hsend, hcontent⟩
  | succ j ih =>
    have hmore : k < packet.length := by omega
    have hstep := SendStep.copyByte hsend hmore
    obtain ⟨w', hsteps, hend⟩ := ih (w := { w with
      mem := Function.update w.mem (txBuf + k) packet[k]
      send := .copy packet txBuf (k + 1) }) hmore rfl (content_copyByte hcontent hmore) (by omega)
    have hcount : packet.length - k = packet.length - (k + 1) + 1 := by omega
    rw [hcount, List.replicate_succ]
    exact ⟨w', .cons hstep hsteps, hend⟩

theorem long_packet_overruns (hs : w.Start) (hshort : packet.length < 2 ^ 16) :
    ∃ f fs l w', w.frames = f :: fs ∧ Steps SendStep w (.call packet :: l) w' ∧ (∀ e ∈ l, e = .send) ∧
      content w'.mem (f + PAGE_SIZE) (packet.length - PAGE_SIZE) = packet.drop PAGE_SIZE := by
  have hbare : (w.descs w.txCur).addr = 0 := congrArg SendDesc.addr (hs.descs _)
  have hw := start_soundSender hs
  obtain ⟨f, fs, hframes, -, -⟩ := hw.pages.take hw.cur_lt hbare
  have hcall := SendStep.call hs.send hshort
  have htake := SendStep.takePage (w := { w with send := .entered packet, called := w.called ++ [packet] }) rfl
  have hentered : (Sender.takePage { w with send := .entered packet, called := w.called ++ [packet] } packet).send =
      .copy packet f 0 := by simp [Sender.takePage, hbare, hframes]
  obtain ⟨w', hcopy, -, hcontent⟩ := copy_all (Nat.zero_le _) hentered rfl
  refine ⟨f, fs, .send :: List.replicate (packet.length - 0) .send, w', hframes, .cons hcall (.cons htake hcopy), ?_,
    ?_⟩
  · intro e he
    rcases List.mem_cons.mp he with rfl | he
    · rfl
    · exact List.eq_of_mem_replicate he
  · rw [content_drop, hcontent]

theorem long_packet_overruns_ready : ∃ f fs l w', ready.frames = f :: fs ∧
    Steps SendStep ready (.call (List.replicate 4097 7) :: l) w' ∧ (∀ e ∈ l, e = .send) ∧
      content w'.mem (f + PAGE_SIZE) ((List.replicate 4097 (7 : UInt8)).length - PAGE_SIZE) =
        (List.replicate 4097 7).drop PAGE_SIZE :=
  long_packet_overruns ready_start (by rw [List.length_replicate]; decide)

/-! ### Returning -/

def Sender.left (w : Sender) : ℕ :=
  match w.send with
  | .idle => 0
  | .entered packet => packet.length + 9
  | .copy packet _ k => packet.length - k + 8
  | .setLength _ => 7
  | .setCmd _ => 6
  | .setStatus _ => 5
  | .advance _ => 4
  | .writeTail _ _ => 3
  | .wait _ _ => if w.headReg = w.tailReg then 1 else 2

def SendEvent.isOwn : SendEvent → Bool
  | .send | .transmit => true
  | .call _ | .other => false

theorem left_step {e : SendEvent} (hw : SoundSender w) (hstep : SendStep w e w') (hcall : ∀ packet, e ≠ .call packet) :
    (if e.isOwn then 1 else 0) + w'.left = w.left := by
  cases hstep with
  | call => exact absurd rfl (hcall _)
  | takePage hsend =>
    have hnew (packet : List UInt8) : (w.takePage packet).left = packet.length + 8 := by
      rw [Sender.takePage]
      split_ifs <;> rfl
    rw [hnew, Sender.left, hsend]
    exact Nat.add_comm 1 _
  | copyByte hsend hmore =>
    simp only [Sender.left, hsend, SendEvent.isOwn, if_true]
    omega
  | copied hsend hend =>
    simp only [Sender.left, hsend, SendEvent.isOwn, if_true, hend]
    omega
  | setLength hsend => simp [Sender.left, hsend, SendEvent.isOwn]
  | setCmd hsend => simp [Sender.left, hsend, SendEvent.isOwn]
  | setStatus hsend => simp [Sender.left, hsend, SendEvent.isOwn]
  | advance hsend => simp [Sender.left, hsend, SendEvent.isOwn]
  | writeTail hsend =>
    obtain ⟨hh, hhead, -, -, -⟩ := stage_of_send hw hsend
    have hne : w.headReg ≠ w.txCur := by
      rw [hhead, hh.cur]
      exact (Lib.Ring.next_ne (by decide) hh.old).symm
    simp [Sender.left, hsend, SendEvent.isOwn, hne]
  | ret hsend hdone =>
    obtain ⟨hh, htail, ⟨-, -, hload⟩ | ⟨hhead, -, -⟩⟩ := stage_of_send hw hsend
    · exact absurd hload.status hdone
    · simp [Sender.left, hsend, SendEvent.isOwn, hhead, htail]
  | transmit hne heop =>
    obtain ⟨packet, hsend, hh, htail, -, -⟩ := waits_of_pending hw hne
    have hnext : (w.headReg + 1) % E1000_NUM_TX_DESC = w.tailReg := htail.symm ▸ hh.cur.symm
    simp [Sender.left, hsend, SendEvent.isOwn, hne, hnext]
  | other => simp [Sender.left, SendEvent.isOwn]

theorem left_run {l : List SendEvent} (hw : SoundSender w) (h : Steps SendStep w l w')
    (hcall : ∀ packet, .call packet ∉ l) : l.countP SendEvent.isOwn + w'.left = w.left := by
  induction h with
  | nil w => exact Nat.zero_add _
  | cons hstep rest ih =>
    rename_i w u w' e l
    have he (packet : List UInt8) : e ≠ .call packet := fun h => hcall packet (h ▸ List.mem_cons_self)
    have hfits : e.Fits := by
      cases e with
      | call packet => exact absurd rfl (he packet)
      | send => trivial
      | transmit => trivial
      | other => trivial
    have hone := left_step hw hstep he
    have hrest := ih (step_soundSender hw hfits hstep) fun packet h => hcall packet (List.mem_cons_of_mem e h)
    rw [List.countP_cons]
    omega

theorem left_eq_zero : w.left = 0 ↔ w.send = .idle := by
  rw [Sender.left]
  cases w.send with
  | idle => simp
  | wait =>
    dsimp only
    split_ifs <;> simp
  | entered => simp
  | copy => simp
  | setLength => simp
  | setCmd => simp
  | setStatus => simp
  | advance => simp
  | writeTail => simp

theorem own_step (hw : SoundSender w) (h : w.send ≠ .idle) : ∃ e w', e.isOwn ∧ SendStep w e w' := by
  cases hsend : w.send with
  | idle => exact absurd hsend h
  | entered packet => exact ⟨.send, _, rfl, .takePage hsend⟩
  | copy packet txBuf k =>
    obtain ⟨-, -, -, hk, -⟩ := stage_of_send hw hsend
    by_cases hend : k = packet.length
    · exact ⟨.send, _, rfl, .copied hsend hend⟩
    · exact ⟨.send, _, rfl, .copyByte hsend (Nat.lt_of_le_of_ne hk hend)⟩
  | setLength packet => exact ⟨.send, _, rfl, .setLength hsend⟩
  | setCmd packet => exact ⟨.send, _, rfl, .setCmd hsend⟩
  | setStatus packet => exact ⟨.send, _, rfl, .setStatus hsend⟩
  | advance packet => exact ⟨.send, _, rfl, .advance hsend⟩
  | writeTail packet old => exact ⟨.send, _, rfl, .writeTail hsend⟩
  | wait packet old =>
    obtain ⟨hh, htail, ⟨hhead, -, hload⟩ | ⟨-, -, hdone⟩⟩ := stage_of_send hw hsend
    · have hne : w.headReg ≠ w.tailReg := by
        rw [hhead, htail, hh.cur]
        exact (Lib.Ring.next_ne (by decide) hh.old).symm
      have heop : (w.descs w.headReg).cmd &&& EOP ≠ 0 := by
        rw [hhead, hload.cmd]
        decide
      exact ⟨.transmit, _, rfl, .transmit hne heop⟩
    · exact ⟨.send, _, rfl, .ret hsend hdone⟩

theorem send_returns (h : Reachable Sender.Start FittingStep w) :
    (∀ l w', Steps SendStep w l w' → (∀ packet, .call packet ∉ l) →
      (w'.send = .idle ↔ l.countP SendEvent.isOwn = w.left)) ∧
      (w.send ≠ .idle → ∃ e w', e.isOwn ∧ SendStep w e w') := by
  have hw := soundSender_of_reachable h
  refine ⟨fun l w' hl hcall => ?_, own_step hw⟩
  have hrun := left_run hw hl hcall
  rw [← left_eq_zero]
  omega

theorem send_confined_copy : ∃ w w' : Sender, w'.mem PAGE_SIZE = 7 ∧
    (∃ k ≤ E1000_NUM_TX_DESC, w'.frames = ready.frames.drop k) ∧
    ChangedIn {b | ∃ f ∈ ready.frames.take E1000_NUM_TX_DESC, b ∈ Span f PAGE_SIZE} w.mem w'.mem := by
  have hstep := SendStep.copyByte (k := 0)
    (w := Sender.takePage { ready with send := .entered [7], called := [[7]] } [7]) rfl (by decide)
  obtain ⟨hframes, hmem⟩ := send_confined ready_start ready_called (fittingStep_send hstep) (by simp)
  exact ⟨_, _, rfl, hframes, hmem⟩

theorem send_returns_called : ∃ w : Sender, w.left = 9 ∧
    (∀ l w', Steps SendStep w l w' → (∀ packet, .call packet ∉ l) →
      (w'.send = .idle ↔ l.countP SendEvent.isOwn = w.left)) ∧
      (w.send ≠ .idle → ∃ e w', e.isOwn ∧ SendStep w e w') :=
  ⟨_, rfl, send_returns ⟨ready, _, ready_start, ready_called⟩⟩

end JurkOS.Kernel.E1000
