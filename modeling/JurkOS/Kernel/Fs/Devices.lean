import JurkOS.Kernel.Drivers.E1000
import JurkOS.Kernel.Fs.Mounts
import JurkOS.Kernel.Fs.Read

/-!
The devices of `fs/devfs.c` behind `vfs_read` and `vfs_write`, and the number of
bytes that they report.
-/

namespace JurkOS.Kernel.Fs

open Lib.Libc Lib.Memory E1000

variable {σ : Type} (K : Machine σ)

inductive DevRead
  | zero
  | urandom
  | kbd
  | eth
  deriving DecidableEq

inductive DevWrite
  | null
  | console
  | fb
  | eth
  deriving DecidableEq

/-- What is behind the devices: `keys` are the characters that `keyboard_getchar` will return,
`freePage` and `sent` what the pages and the card have for the next packet. -/
structure Hardware where
  seed : UInt32
  keys : List UInt8
  screen : List UInt8
  serial : List UInt8
  fbBuffer : Option Mem
  rxDescs : Option Rx
  txDescs : Option Tx
  freePage : Option Mem
  sent : UInt8

abbrev ReadResult := Option (ℕ × Mem × Hardware)

abbrev WriteResult := Option (ℕ × Hardware)

def castU32 (x : ℤ) : ℕ := (x % 2 ^ 32).toNat

def devNullWrite (hw : Hardware) (size : ℕ) : WriteResult := some (size, hw)

def devZeroRead (hw : Hardware) (size : ℕ) (buffer : Mem) : ReadResult :=
  some (size, fun i => if i < size then 0 else buffer i, hw)

def urandomLoop : ℕ → ℕ → UInt32 → Mem → UInt32 × Mem
  | 0, _, seed, buffer => (seed, buffer)
  | n + 1, i, seed, buffer =>
    let seed := seed * 1103515245 + 12345
    urandomLoop n (i + 1) seed (Function.update buffer i (seed >>> 16).toUInt8)

def devUrandomRead (hw : Hardware) (size : ℕ) (buffer : Mem) : ReadResult :=
  let r := urandomLoop size 0 hw.seed buffer
  some (size, r.2, { hw with seed := r.1 })

def Hardware.put (hw : Hardware) (c : UInt8) : Hardware :=
  { hw with screen := hw.screen ++ cstr [c, 0], serial := hw.serial ++ [c] }

def consoleLoop (buffer : Mem) : ℕ → ℕ → Hardware → Hardware
  | 0, _, hw => hw
  | n + 1, i, hw => consoleLoop buffer n (i + 1) (hw.put (buffer i))

def devConsoleWrite (hw : Hardware) (size : ℕ) (buffer : Mem) : WriteResult :=
  some (size, consoleLoop buffer size 0 hw)

/-- `keyboard_getchar` waits as long as there is no character. -/
def kbdLoop : ℕ → ℕ → List UInt8 → Mem → Option (List UInt8 × Mem)
  | 0, _, keys, buffer => some (keys, buffer)
  | _ + 1, _, [], _ => none
  | n + 1, i, c :: keys, buffer => kbdLoop n (i + 1) keys (Function.update buffer i c)

def devKbdRead (hw : Hardware) (size : ℕ) (buffer : Mem) : ReadResult :=
  (kbdLoop size 0 hw.keys buffer).map fun r => (size, r.2, { hw with keys := r.1 })

def devFbWrite (hw : Hardware) (offset size : ℕ) (buffer : Mem) : WriteResult :=
  match hw.fbBuffer with
  | none => some (0, hw)
  | some fb => some (size, { hw with fbBuffer := some (copyOut buffer 0 size offset fb) })

def devEthWrite (hw : Hardware) (size : ℕ) (buffer : Mem) : WriteResult :=
  (e1000SendPacket hw.txDescs hw.freePage hw.sent buffer (UInt16.ofNat size)).map fun r =>
    (castU32 r.1, { hw with txDescs := r.2 })

def devEthRead (hw : Hardware) (size : ℕ) (buffer : Mem) : ReadResult :=
  let r := e1000ReceivePacket hw.rxDescs (UInt16.ofNat size) buffer
  some (castU32 r.1, r.2.1, { hw with rxDescs := r.2.2 })

def DevRead.run (hw : Hardware) (size : ℕ) (buffer : Mem) : DevRead → ReadResult
  | zero => devZeroRead hw size buffer
  | urandom => devUrandomRead hw size buffer
  | kbd => devKbdRead hw size buffer
  | eth => devEthRead hw size buffer

def DevWrite.run (hw : Hardware) (offset size : ℕ) (buffer : Mem) : DevWrite → WriteResult
  | null => devNullWrite hw size
  | console => devConsoleWrite hw size buffer
  | fb => devFbWrite hw offset size buffer
  | eth => devEthWrite hw size buffer

structure Handlers where
  read : Option DevRead := none
  write : Option DevWrite := none

/-- The nodes with the handlers of those that are devices. -/
structure Devices (σ : Type) where
  fs : State σ
  handlers : ℕ → Handlers

structure Device where
  path : Name
  flags : ℕ
  handlers : Handlers

def register (D : Devices σ) (dev : Device) : Option (Devices σ) := do
  let (entry, s) ← devfsRegister K D.fs dev.path dev.flags
  some { fs := s, handlers := if entry = 0 then D.handlers else Function.update D.handlers entry dev.handlers }

def devices : List Device :=
  [⟨bytes "null", VFS_CHARDEVICE, none, some .null⟩,
    ⟨bytes "zero", VFS_CHARDEVICE, some .zero, none⟩,
    ⟨bytes "urandom", VFS_CHARDEVICE, some .urandom, none⟩,
    ⟨bytes "console", VFS_CHARDEVICE, none, some .console⟩,
    ⟨bytes "tty", VFS_CHARDEVICE, some .kbd, some .console⟩,
    ⟨bytes "ttyS0", VFS_CHARDEVICE, none, some .console⟩,
    ⟨bytes "fb0", VFS_CHARDEVICE, none, some .fb⟩,
    ⟨bytes "input/kbd0", VFS_CHARDEVICE, some .kbd, none⟩,
    ⟨bytes "net/eth0", VFS_CHARDEVICE, some .eth, some .eth⟩,
    ⟨bytes "disk/jurk_root", VFS_BLOCKDEVICE, none, none⟩,
    ⟨bytes "disk/sda", VFS_BLOCKDEVICE, none, none⟩]

def registerDevices : List Device → Devices σ → Option (Devices σ)
  | [], D => some D
  | dev :: rest, D => do
    let D ← register K D dev
    registerDevices rest D

def devfsInitDevices (D : Devices σ) (pci : List PciDevice) : Option (Devices σ) := do
  let s ← devfsNewRoot K D.fs
  let D ← registerDevices K (devices ++ pci.map fun dev => ⟨pciNode dev, VFS_CHARDEVICE, {}⟩) { D with fs := s }
  let (_, s) ← vfsMount K D.fs (bytes "/dev") D.fs.devRoot
  some { D with fs := s }

def vfsReadNode (D : Devices σ) (hw : Hardware) (p offset size buffer : ℕ) (out : Mem) : ReadResult :=
  if p = 0 ∨ buffer = 0 then some (0, out, hw)
  else
    match D.fs.nodes p with
    | none => none
    | some node =>
      match node.read, (D.handlers p).read with
      | some _, _ => (vfsRead K D.fs p offset size buffer out).map fun r => (r.1, r.2, hw)
      | none, some dev => dev.run hw size out
      | none, none => some (0, out, hw)

/-- No volume gives its nodes a `write` handler. -/
def vfsWriteNode (D : Devices σ) (hw : Hardware) (p offset size buffer : ℕ) (out : Mem) : WriteResult :=
  if p = 0 ∨ buffer = 0 then some (0, hw)
  else
    match D.fs.nodes p with
    | none => none
    | some _ =>
      match (D.handlers p).write with
      | some dev => dev.run hw offset size out
      | none => some (0, hw)

variable {K}

theorem register_fs (D : Devices σ) (dev : Device) :
    (register K D dev).map Devices.fs = (devfsRegister K D.fs dev.path dev.flags).map Prod.snd := by
  unfold register
  cases devfsRegister K D.fs dev.path dev.flags <;> rfl

theorem registerDevices_fs (l : List Device) (D : Devices σ) :
    (registerDevices K l D).map Devices.fs = registerAll K (l.map fun dev => (dev.path, dev.flags)) D.fs := by
  induction l generalizing D with
  | nil => rfl
  | cons dev rest ih =>
    have hdev := register_fs (K := K) D dev
    simp only [registerDevices, registerAll, List.map_cons]
    cases hD : register K D dev with
    | none =>
      rw [hD] at hdev
      cases hs : devfsRegister K D.fs dev.path dev.flags with
      | none => rfl
      | some r => rw [hs] at hdev; cases hdev
    | some D' =>
      rw [hD] at hdev
      cases hs : devfsRegister K D.fs dev.path dev.flags with
      | none => rw [hs] at hdev; cases hdev
      | some r =>
        rw [hs] at hdev
        have he : D'.fs = r.2 := Option.some.inj hdev
        simpa [he] using ih D'

theorem devfsInitDevices_fs (D : Devices σ) (pci : List PciDevice) :
    (devfsInitDevices K D pci).map Devices.fs = devfsInit K D.fs pci := by
  unfold devfsInitDevices devfsInit
  cases devfsNewRoot K D.fs with
  | none => rfl
  | some s =>
    have hall := registerDevices_fs (K := K)
      (devices ++ pci.map fun dev => ⟨pciNode dev, VFS_CHARDEVICE, {}⟩) { D with fs := s }
    have hpaths : (devices ++ pci.map fun dev => (⟨pciNode dev, VFS_CHARDEVICE, {}⟩ : Device)).map
        (fun dev => (dev.path, dev.flags)) = devfsDevices ++ pci.map fun dev => (pciNode dev, VFS_CHARDEVICE) := by
      rw [List.map_append, List.map_map]
      rfl
    rw [hpaths] at hall
    simp only [Option.bind_eq_bind, Option.bind_some, ← hall]
    cases registerDevices K _ _ with
    | none => rfl
    | some D' =>
      simp only [Option.bind_some, Option.map_some]
      cases vfsMount K D'.fs (bytes "/dev") D'.fs.devRoot <;> rfl

theorem castU32_of_lt {n : ℕ} (h : n < 2 ^ 32) : castU32 n = n := by
  unfold castU32
  omega

theorem ofNat_toNat_le (size : ℕ) : (UInt16.ofNat size).toNat ≤ size := by
  rw [UInt16.toNat_ofNat']
  exact Nat.mod_le _ _

theorem castU32_toNat_le {x : UInt16} {size : ℕ} (h : x.toNat ≤ size) : castU32 x.toNat ≤ size := by
  have hx : x.toNat < 2 ^ 16 := x.toNat_lt
  rwa [castU32_of_lt (by omega)]

theorem copyLen_le (d : RxDesc) (m : UInt16) : (copyLen d m).toNat ≤ m.toNat := by
  unfold copyLen
  split_ifs with h
  · exact le_refl _
  · exact Nat.le_of_not_lt fun hlt => h (UInt16.lt_iff_toNat_lt.mpr hlt)

theorem devEthRead_count {hw : Hardware} {size : ℕ} {buffer : Mem} (h : hw.rxDescs ≠ none) :
    castU32 (e1000ReceivePacket hw.rxDescs (UInt16.ofNat size) buffer).1 ≤ size := by
  obtain ⟨rx, hrx⟩ := Option.ne_none_iff_exists'.mp h
  rw [hrx, e1000ReceivePacket]
  split_ifs
  · exact castU32_toNat_le ((copyLen_le _ _).trans (ofNat_toNat_le size))
  · exact Nat.zero_le _

theorem devEthWrite_count {hw : Hardware} {size : ℕ} {buffer : Mem} {r : ℕ × Hardware} (h : hw.txDescs ≠ none)
    (hr : devEthWrite hw size buffer = some r) : r.1 ≤ size := by
  obtain ⟨tx, htx⟩ := Option.ne_none_iff_exists'.mp h
  simp only [devEthWrite, htx, e1000SendPacket] at hr
  split at hr
  · cases hr
  split_ifs at hr
  · cases hr
  cases hr
  exact castU32_toNat_le (ofNat_toNat_le size)

theorem devRead_count {dev : DevRead} {hw : Hardware} {size : ℕ} {buffer : Mem} {r : ℕ × Mem × Hardware}
    (h : dev = .eth → hw.rxDescs ≠ none) (hr : dev.run hw size buffer = some r) : r.1 ≤ size := by
  cases dev with
  | zero => cases hr; exact le_refl _
  | urandom => cases hr; exact le_refl _
  | kbd =>
    obtain ⟨x, -, rfl⟩ := Option.map_eq_some_iff.mp hr
    exact le_refl _
  | eth => cases hr; exact devEthRead_count (h rfl)

theorem devWrite_count {dev : DevWrite} {hw : Hardware} {offset size : ℕ} {buffer : Mem} {r : ℕ × Hardware}
    (h : dev = .eth → hw.txDescs ≠ none) (hr : dev.run hw offset size buffer = some r) : r.1 ≤ size := by
  cases dev with
  | null => cases hr; exact le_refl _
  | console => cases hr; exact le_refl _
  | fb =>
    simp only [DevWrite.run, devFbWrite] at hr
    split at hr
    · cases hr; exact Nat.zero_le _
    · cases hr; exact le_refl _
  | eth => exact devEthWrite_count (h rfl) hr

def ReadsCard (D : Devices σ) (p : ℕ) : Prop :=
  ∃ node, D.fs.nodes p = some node ∧ node.read = none ∧ (D.handlers p).read = some .eth

def WritesCard (D : Devices σ) (p : ℕ) : Prop := D.fs.nodes p ≠ none ∧ (D.handlers p).write = some .eth

theorem vfsReadNode_count {D : Devices σ} {hw : Hardware} {p offset size buffer : ℕ} {out : Mem}
    {r : ℕ × Mem × Hardware} (h : ¬(p ≠ 0 ∧ buffer ≠ 0 ∧ ReadsCard D p ∧ hw.rxDescs = none))
    (hr : vfsReadNode K D hw p offset size buffer out = some r) : r.1 ≤ size := by
  unfold vfsReadNode at hr
  split at hr
  · cases hr; exact Nat.zero_le _
  rename_i hzero
  obtain ⟨hp, hb⟩ := not_or.mp hzero
  split at hr
  · cases hr
  rename_i node hnode
  split at hr
  · obtain ⟨x, hx, rfl⟩ := Option.map_eq_some_iff.mp hr
    exact (vfsRead_within hx).1
  · rename_i dev hread hdev
    exact devRead_count (fun he hrx => h ⟨hp, hb, ⟨node, hnode, hread, he ▸ hdev⟩, hrx⟩) hr
  · cases hr; exact Nat.zero_le _

theorem vfsWriteNode_count {D : Devices σ} {hw : Hardware} {p offset size buffer : ℕ} {out : Mem}
    {r : ℕ × Hardware} (h : ¬(p ≠ 0 ∧ buffer ≠ 0 ∧ WritesCard D p ∧ hw.txDescs = none))
    (hr : vfsWriteNode D hw p offset size buffer out = some r) : r.1 ≤ size := by
  unfold vfsWriteNode at hr
  split at hr
  · cases hr; exact Nat.zero_le _
  rename_i hzero
  obtain ⟨hp, hb⟩ := not_or.mp hzero
  split at hr
  · cases hr
  rename_i node hnode
  split at hr
  · rename_i dev hdev
    exact devWrite_count (fun he htx => h ⟨hp, hb, ⟨by simp [hnode], he ▸ hdev⟩, htx⟩) hr
  · cases hr; exact Nat.zero_le _

theorem vfsReadNode_no_card {D : Devices σ} {hw : Hardware} {p buffer : ℕ} (hp : p ≠ 0) (hb : buffer ≠ 0)
    (h : ReadsCard D p) (hrx : hw.rxDescs = none) (offset size : ℕ) (out : Mem) :
    vfsReadNode K D hw p offset size buffer out = some (2 ^ 32 - 1, out, hw) := by
  obtain ⟨node, hnode, hread, hdev⟩ := h
  have hhw : { hw with rxDescs := none } = hw := by rw [← hrx]
  simp only [vfsReadNode, hp, hb, or_self, if_false, hnode, hread, hdev, DevRead.run, devEthRead, hrx,
    e1000ReceivePacket, hhw]
  rfl

theorem vfsWriteNode_no_card {D : Devices σ} {hw : Hardware} {p buffer : ℕ} (hp : p ≠ 0) (hb : buffer ≠ 0)
    (h : WritesCard D p) (htx : hw.txDescs = none) (offset size : ℕ) (out : Mem) :
    vfsWriteNode D hw p offset size buffer out = some (2 ^ 32 - 1, hw) := by
  obtain ⟨hne, hdev⟩ := h
  obtain ⟨node, hnode⟩ := Option.ne_none_iff_exists'.mp hne
  have hhw : { hw with txDescs := none } = hw := by rw [← htx]
  simp only [vfsWriteNode, hp, hb, or_self, if_false, hnode, hdev, DevWrite.run, devEthWrite, htx,
    e1000SendPacket, Option.map_some, hhw]
  rfl

theorem count_le_iff {α : Type} {call : Option α} {count : α → ℕ} {bad : Prop} {size : ℕ}
    (hgood : ¬bad → ∀ r, call = some r → count r ≤ size) (hbad : bad → ∃ r, call = some r ∧ count r = 2 ^ 32 - 1) :
    (∀ r, call = some r → count r ≤ size) ↔ ¬(bad ∧ size < 2 ^ 32 - 1) := by
  by_cases h : bad
  · obtain ⟨r, hr, hcount⟩ := hbad h
    simp only [h, true_and, Nat.not_lt, ← hcount]
    constructor
    · exact fun hle => hle r hr
    · intro hle r' hr'
      obtain rfl := Option.some.inj (hr.symm.trans hr')
      exact hle
  · simp only [h, false_and, not_false_eq_true, iff_true]
    exact hgood h

/-- Only the node of a card that was never set up breaks the contract: `-1` becomes `2^32 - 1`. -/
theorem vfs_counts_iff (K : Machine σ) (D : Devices σ) (hw : Hardware) (p offset size buffer : ℕ) (out : Mem) :
    ((∀ r, vfsReadNode K D hw p offset size buffer out = some r → r.1 ≤ size) ↔
        ¬(p ≠ 0 ∧ buffer ≠ 0 ∧ ReadsCard D p ∧ hw.rxDescs = none ∧ size < 2 ^ 32 - 1)) ∧
      ((∀ r, vfsWriteNode D hw p offset size buffer out = some r → r.1 ≤ size) ↔
        ¬(p ≠ 0 ∧ buffer ≠ 0 ∧ WritesCard D p ∧ hw.txDescs = none ∧ size < 2 ^ 32 - 1)) := by
  constructor
  · have hiff : (∀ r, vfsReadNode K D hw p offset size buffer out = some r → r.1 ≤ size) ↔
        ¬((p ≠ 0 ∧ buffer ≠ 0 ∧ ReadsCard D p ∧ hw.rxDescs = none) ∧ size < 2 ^ 32 - 1) := by
      apply count_le_iff
      · exact fun h r hr => vfsReadNode_count h hr
      · rintro ⟨hp, hb, hcard, hrx⟩
        exact ⟨_, vfsReadNode_no_card hp hb hcard hrx offset size out, rfl⟩
    simpa only [and_assoc] using hiff
  · have hiff : (∀ r, vfsWriteNode D hw p offset size buffer out = some r → r.1 ≤ size) ↔
        ¬((p ≠ 0 ∧ buffer ≠ 0 ∧ WritesCard D p ∧ hw.txDescs = none) ∧ size < 2 ^ 32 - 1) := by
      apply count_le_iff
      · exact fun h r hr => vfsWriteNode_count h hr
      · rintro ⟨hp, hb, hcard, htx⟩
        exact ⟨_, vfsWriteNode_no_card hp hb hcard htx offset size out, rfl⟩
    simpa only [and_assoc] using hiff

def noCard : Hardware where
  seed := 0x12345678
  keys := []
  screen := []
  serial := []
  fbBuffer := none
  rxDescs := none
  txDescs := none
  freePage := none
  sent := 0

def bootDevices : Option (Devices ℕ) := do
  let s ← vfsInit fatMachine powerOn
  let (fatRoot, s) ← fat32Init fatMachine s 0x100000 2048
  let (_, s) ← vfsMount fatMachine s (bytes "/") fatRoot
  devfsInitDevices fatMachine { fs := s, handlers := fun _ => {} } []

def catEth0 : Option ℕ := do
  let D ← bootDevices
  let (net, s) ← vfsFinddir fatMachine D.fs D.fs.devRoot (bytes "net")
  let (eth0, s) ← vfsFinddir fatMachine s net (bytes "eth0")
  let (n, _) ← vfsReadNode fatMachine { D with fs := s } noCard eth0 0 255 1 fun _ => 0
  some n

theorem catEth0_count : ∃ n, catEth0 = some n ∧ ¬n ≤ 255 := ⟨2 ^ 32 - 1, by decide +kernel, by decide⟩

end JurkOS.Kernel.Fs
