import JurkOS.Kernel.Fs.Mounts

/-!
The root file system at boot (`kernel_main.c`): the disk module is tried as FAT32
first, then as a JurkVFS image.
-/

namespace JurkOS.Kernel.Fs

open Lib.Libc Lib.Memory

variable {σ : Type} (K : Machine σ)

inductive Root
  | fat32
  | jurkvfs
  | memory
  deriving DecidableEq

def mountDisk (s : State σ) (address size : ℕ) (pci : List PciDevice) : Option (Root × State σ) := do
  let (fatRoot, s) ← fat32Init K s address size
  if fatRoot ≠ 0 then
    let (_, s) ← vfsMount K s (bytes "/") fatRoot
    let s ← devfsInit K s pci
    some (.fat32, s)
  else
    let (jurkRoot, s) ← jurkvfsInit K s address size
    if jurkRoot ≠ 0 then
      let (_, s) ← vfsMount K s (bytes "/") jurkRoot
      let s ← devfsInit K s pci
      some (.jurkvfs, s)
    else some (.memory, s)

structure JurkImage (m : Mem) (address size : ℕ) : Prop where
  address_ne : address ≠ 0
  size_ge : 512 ≤ size
  magic : bytesAt m address 8 = JURKVFS_MAGIC
  reserved : ∀ i, 32 ≤ i → i < 64 → m (address + i) = 0

def Redirected (m : Mem) (address : ℕ) : Prop :=
  m (address + 510) = 0x55 ∧ m (address + 511) = 0xAA ∧ (m (address + 450) = 0x0B ∨ m (address + 450) = 0x0C)

def Sized (m : Mem) (bpb : ℕ) : Prop := load m (bpb + 11) 2 ≠ 0 ∧ load m (bpb + 13) 1 ≠ 0

instance (m : Mem) (address : ℕ) : Decidable (Redirected m address) := inferInstanceAs (Decidable (_ ∧ _ ∧ _))

instance (m : Mem) (bpb : ℕ) : Decidable (Sized m bpb) := inferInstanceAs (Decidable (_ ∧ _))

def Typed (m : Mem) (bpb : ℕ) : Prop := bytesAt m (bpb + 82) 8 = bytes "FAT32   "

def Taken (m : Mem) (address : ℕ) : Prop :=
  ¬Redirected m address ∧ Sized m address ∧ Typed m address ∨
  Redirected m address ∧
    let bpb := address + wrap32 (load m (address + 454) 4 * 512)
    Sized m bpb ∧ (Typed m bpb ∨ load m (bpb + 44) 4 ≠ 0)

variable {K} {m : Mem} {address size : ℕ}

theorem partitionLba_redirected (h : Redirected m address) : partitionLba m address = load m (address + 454) 4 :=
  if_pos h

theorem partitionLba_direct (h : ¬Redirected m address) : partitionLba m address = 0 := if_neg h

theorem JurkImage.root_zero (h : JurkImage m address size) : load m (address + 44) 4 = 0 := by
  apply load_eq_zero
  rintro b ⟨hlow, hhigh⟩
  have hb := h.reserved (b - address) (by omega) (by omega)
  rwa [Nat.add_sub_cancel' (by omega)] at hb

theorem fat32Volume_isSome (ha : address ≠ 0) (hs : 512 ≤ size) :
    (fat32Volume m address size).isSome ↔
      let bpb := address + wrap32 (partitionLba m address * 512)
      Sized m bpb ∧ (Typed m bpb ∨ load m (bpb + 44) 4 ≠ 0) := by
  have hsize : ¬(address = 0 ∨ size < 512) := by omega
  dsimp only
  rw [fat32Volume, if_neg hsize]
  dsimp only
  rw [Sized, Typed]
  split_ifs with hzero htype
  · simp only [Option.isSome_none, Bool.false_eq_true, false_iff]
    tauto
  · simp only [Option.isSome_none, Bool.false_eq_true, false_iff]
    tauto
  · simp only [Option.isSome_some, true_iff]
    tauto

theorem JurkImage.taken_iff (h : JurkImage m address size) :
    (fat32Volume m address size).isSome ↔ Taken m address := by
  rw [fat32Volume_isSome h.address_ne h.size_ge, Taken]
  by_cases hr : Redirected m address
  · rw [partitionLba_redirected hr]
    simp [hr]
  · have hbpb : address + wrap32 (partitionLba m address * 512) = address := by
      rw [partitionLba_direct hr]
      rfl
    dsimp only
    rw [hbpb, h.root_zero]
    simp [hr]

theorem kzallocNode_ne_zero {s u : State σ} {n p : ℕ} (h : kzallocNode K n s = some (p, u)) : p ≠ 0 := by
  simp only [kzallocNode] at h
  split_ifs at h with hp
  cases h
  exact hp

theorem fat32CreateNode_ne_zero {s u : State σ} {name : Name} {cluster n p : ℕ} {isDir : Bool}
    (h : fat32CreateNode K s name cluster n isDir = some (p, u)) : p ≠ 0 := by
  simp only [fat32CreateNode, Option.bind_eq_bind, Option.bind_eq_some_iff] at h
  obtain ⟨⟨q, s₁⟩, h₁, s₂, h₂, h⟩ := h
  have hq := kzallocNode_ne_zero h₁
  split_ifs at h
  all_goals
    cases h
    exact hq

theorem jurkvfsCreateVfsNode_ne_zero {s u : State σ} {i p : ℕ} (h : jurkvfsCreateVfsNode K s i = some (p, u)) :
    p ≠ 0 := by
  simp only [jurkvfsCreateVfsNode, Option.bind_eq_bind, Option.bind_eq_some_iff] at h
  obtain ⟨⟨q, s₁⟩, h₁, name, -, s₂, h₂, h⟩ := h
  have hq := kzallocNode_ne_zero h₁
  split_ifs at h
  all_goals
    cases h
    exact hq

theorem fat32Init_eq_null_iff (s : State σ) :
    fat32Init K s address size = some (0, s) ↔ fat32Volume K.mem address size = none := by
  unfold fat32Init
  cases hfs : fat32Volume K.mem address size with
  | none => simp
  | some fs =>
    simp only [reduceCtorEq, iff_false]
    intro h
    exact fat32CreateNode_ne_zero h rfl

theorem jurkvfsInit_ne_zero {s u : State σ} {p : ℕ} (h : JurkImage K.mem address size)
    (hinit : jurkvfsInit K s address size = some (p, u)) : p ≠ 0 := by
  have haddress := h.address_ne
  have hsize := h.size_ge
  have hvolume : (jurkvfsVolume K.mem address size).isSome := by
    have hlong : ¬(address = 0 ∨ size < sizeofJurkvfsHeader) := by unfold sizeofJurkvfsHeader; omega
    rw [jurkvfsVolume, if_neg hlong, if_neg (not_not.mpr h.magic)]
    rfl
  obtain ⟨fs, hfs⟩ := Option.isSome_iff_exists.mp hvolume
  rw [jurkvfsInit, hfs] at hinit
  exact jurkvfsCreateVfsNode_ne_zero hinit

theorem mountDisk_jurkvfs {s : State σ} {pci : List PciDevice} {r : Root × State σ}
    (h : JurkImage K.mem address size) (hfat : fat32Init K s address size = some (0, s))
    (hr : mountDisk K s address size pci = some r) : r.1 = .jurkvfs := by
  simp only [mountDisk, hfat, Option.bind_eq_bind, Option.bind_some, ne_eq, not_true_eq_false, if_false,
    Option.bind_eq_some_iff] at hr
  obtain ⟨⟨p, u⟩, hinit, hr⟩ := hr
  have hp := jurkvfsInit_ne_zero h hinit
  rw [if_pos hp] at hr
  obtain ⟨mounted, -, hr⟩ := Option.bind_eq_some_iff.mp hr
  obtain ⟨v, -, hr⟩ := Option.bind_eq_some_iff.mp hr
  cases hr
  rfl

theorem mountDisk_jurkvfs_iff (K : Machine σ) (s : State σ) (address size : ℕ) (pci : List PciDevice)
    (h : JurkImage K.mem address size) :
    (fat32Init K s address size = some (0, s) ∧
        ∀ r, mountDisk K s address size pci = some r → r.1 = .jurkvfs) ↔ ¬Taken K.mem address := by
  rw [← h.taken_iff, Option.not_isSome_iff_eq_none, ← fat32Init_eq_null_iff s]
  exact and_iff_left_of_imp fun hfat r hr => mountDisk_jurkvfs h hfat hr

def placed (segments : List (ℕ × List UInt8)) (off : ℕ) : UInt8 :=
  match segments.find? fun x => x.1 ≤ off ∧ off < x.1 + x.2.length with
  | none => 0
  | some x => x.2.getD (off - x.1) 0

def imageOf (text : List (ℕ × List UInt8)) (x : ℕ) : UInt8 :=
  placed
    ([(0, bytes "JURKVFS1" ++ [1, 0, 0, 0, 0, 2, 0, 0, 2, 0, 0, 0, 0, 4, 0, 0, 64, 0, 0, 0, 0, 6, 0, 0]),
      (1024, bytes "/"), (1088, [2]), (1116, bytes "notes"), (1180, [1, 0, 0, 0, 0xC0, 3])] ++ text)
    (x - 0x100000)

def letters : ℕ → UInt8 := imageOf [(450, [0x0C, 0, 0, 0, 1]), (510, [0x55, 0xAA]), (512, List.replicate 96 0x41)]

def lettersMachine : Machine ℕ := ⟨.x86_64, bump, letters, 16⟩

theorem letters_mounted : JurkImage letters 0x100000 1536 ∧
    fat32Init lettersMachine powerOn 0x100000 1536 ≠ some (0, powerOn) ∧
    (mountDisk lettersMachine powerOn 0x100000 1536 []).map Prod.fst = some .fat32 := by
  refine ⟨⟨by decide, by decide, by decide +kernel, ?_⟩, ?_, by decide +kernel⟩
  · have h : ∀ i < 64, 32 ≤ i → letters (0x100000 + i) = 0 := by decide
    exact fun i hlow hhigh => h i hhigh hlow
  · rw [ne_eq, fat32Init_eq_null_iff]
    decide

def plainMachine : Machine ℕ := ⟨.x86_64, bump, imageOf [], 16⟩

theorem mountDisk_jurkvfs_plain : fat32Init plainMachine powerOn 0x100000 1536 = some (0, powerOn) := by
  have h : ∀ i < 64, 32 ≤ i → plainMachine.mem (0x100000 + i) = 0 := by decide
  have himage : JurkImage plainMachine.mem 0x100000 1536 :=
    ⟨by decide, by decide, by decide, fun i hlow hhigh => h i hhigh hlow⟩
  have hdirect : ¬Redirected plainMachine.mem 0x100000 := by decide
  have hsizes : ¬Sized plainMachine.mem 0x100000 := by decide
  refine ((mountDisk_jurkvfs_iff plainMachine powerOn 0x100000 1536 [] himage).mpr ?_).1
  rintro (⟨-, hsized, -⟩ | ⟨hredirected, -⟩)
  · exact hsizes hsized
  · exact hdirect hredirected

end JurkOS.Kernel.Fs
