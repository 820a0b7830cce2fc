import JurkOS.Kernel.Fs.Mounts
import JurkOS.Kernel.Fs.Reads
import Mathlib.Data.Nat.ModEq

/-!
Where a FAT32 volume keeps a cluster and its table entry, in unbounded numbers,
and when the 32-bit arithmetic of the driver finds them.
-/

namespace JurkOS.Kernel.Fs

open Lib Lib.Libc Lib.Memory Lib.Traced

structure Fat32Bpb where
  partitionLba : ℕ
  bytesPerSector : ℕ
  sectorsPerCluster : ℕ
  reservedSectorCount : ℕ
  numFats : ℕ
  tableSize32 : ℕ

def fat32Bpb (m : Mem) (diskData : ℕ) : Fat32Bpb :=
  let lba := partitionLba m diskData
  let bpb := diskData + wrap32 (lba * 512)
  { partitionLba := lba
    bytesPerSector := load m (bpb + 11) 2
    sectorsPerCluster := load m (bpb + 13) 1
    reservedSectorCount := load m (bpb + 14) 2
    numFats := load m (bpb + 16) 1
    tableSize32 := load m (bpb + 36) 4 }

namespace Fat32Bpb

variable (b : Fat32Bpb)

def tableOffset (c : ℕ) : ℕ := b.partitionLba * 512 + b.reservedSectorCount * b.bytesPerSector + 4 * c

def dataOffset (c : ℕ) : ℕ :=
  b.partitionLba * 512 +
    (b.reservedSectorCount + b.numFats * b.tableSize32 + (c - 2) * b.sectorsPerCluster) * b.bytesPerSector

def UnitsAgree : Prop := b.partitionLba * 512 ≡ b.partitionLba * b.bytesPerSector [MOD 2 ^ 32]

instance : Decidable b.UnitsAgree := inferInstanceAs (Decidable (_ % _ = _ % _))

end Fat32Bpb

theorem wrap32_modEq (x : ℕ) : wrap32 x ≡ x [MOD 2 ^ 32] := Nat.mod_modEq _ _

theorem wrap32_congr {x y : ℕ} (h : x ≡ y [MOD 2 ^ 32]) : wrap32 x = wrap32 y := h

variable {m : Mem} {diskData diskSize : ℕ} {fs : Fat32Fs}

theorem fat32Volume_fields (h : fat32Volume m diskData diskSize = some fs) :
    let b := fat32Bpb m diskData
    fs.diskBase = diskData ∧ fs.bytesPerSector = b.bytesPerSector ∧ b.bytesPerSector ≠ 0 ∧
      fs.sectorsPerCluster = b.sectorsPerCluster ∧
      fs.fatStartSector = wrap32 (b.partitionLba + b.reservedSectorCount) ∧
      fs.dataStartSector = wrap32 (fs.fatStartSector + wrap32 (b.numFats * b.tableSize32)) := by
  unfold fat32Volume at h
  dsimp only at h
  split_ifs at h with hsize hzero htype
  rw [not_or] at hzero
  cases h
  exact ⟨rfl, rfl, hzero.1, rfl, rfl, rfl⟩

theorem fatEntryOffset_eq (h : fat32Volume m diskData diskSize = some fs) (c : ℕ) :
    let b := fat32Bpb m diskData
    let r := wrap32 (4 * c) % b.bytesPerSector
    fatEntryOffset fs c =
      wrap32 (b.partitionLba * b.bytesPerSector + b.reservedSectorCount * b.bytesPerSector +
        (wrap32 (4 * c) - r)) + r := by
  obtain ⟨-, hbps, -, -, hstart, -⟩ := fat32Volume_fields h
  intro b r
  have hr : wrap32 (4 * c) - r = wrap32 (4 * c) / b.bytesPerSector * b.bytesPerSector := by
    have := Nat.div_add_mod' (wrap32 (4 * c)) b.bytesPerSector
    omega
  simp only [fatEntryOffset, hbps, hstart, Nat.mul_comm c 4]
  congr 1
  apply wrap32_congr
  rw [hr, ← Nat.add_mul, ← Nat.add_mul]
  exact (Nat.ModEq.trans (wrap32_modEq _) (Nat.ModEq.add_right _ (wrap32_modEq _))).mul_right _

theorem fatEntryOffset_iff {b : Fat32Bpb} (h : fat32Volume m diskData diskSize = some fs)
    (hb : b = fat32Bpb m diskData) (c : ℕ) :
    fatEntryOffset fs c = b.tableOffset c ↔
      b.UnitsAgree ∧ b.tableOffset c < 2 ^ 32 + wrap32 (4 * c) % b.bytesPerSector := by
  subst hb
  have he := fatEntryOffset_eq h c
  generalize fat32Bpb m diskData = b at he ⊢
  have hmod : wrap32 (4 * c) % b.bytesPerSector ≤ wrap32 (4 * c) := Nat.mod_le _ _
  have hwrap : wrap32 (4 * c) = 4 * c % 2 ^ 32 := rfl
  dsimp only at he
  rw [he, Fat32Bpb.UnitsAgree, Fat32Bpb.tableOffset, Nat.ModEq, wrap32]
  change (b.partitionLba * b.bytesPerSector + b.reservedSectorCount * b.bytesPerSector +
    (wrap32 (4 * c) - wrap32 (4 * c) % b.bytesPerSector)) % 2 ^ 32 + wrap32 (4 * c) % b.bytesPerSector = _ ↔ _
  generalize wrap32 (4 * c) % b.bytesPerSector = r at hmod ⊢
  generalize b.partitionLba * b.bytesPerSector = inSectors
  generalize b.reservedSectorCount * b.bytesPerSector = reserved
  omega

theorem clusterOffset_iff {b : Fat32Bpb} (h : fat32Volume m diskData diskSize = some fs)
    (hb : b = fat32Bpb m diskData) (c : ℕ) :
    clusterOffset fs c = b.dataOffset c ↔ b.UnitsAgree ∧ b.dataOffset c < 2 ^ 32 := by
  obtain ⟨-, hbps, -, hspc, hstart, hdata⟩ := fat32Volume_fields h
  rw [← hb] at hbps hspc hstart hdata
  have hsector : wrap32 (fs.dataStartSector + wrap32 ((c - 2) * fs.sectorsPerCluster)) ≡
      b.partitionLba + (b.reservedSectorCount + b.numFats * b.tableSize32 + (c - 2) * b.sectorsPerCluster)
      [MOD 2 ^ 32] := by
    rw [hdata, hstart, hspc, ← Nat.add_assoc, ← Nat.add_assoc]
    have hstart := wrap32_modEq (b.partitionLba + b.reservedSectorCount)
    have htables := hstart.add (wrap32_modEq (b.numFats * b.tableSize32))
    have hclusters := ((wrap32_modEq _).trans htables).add (wrap32_modEq ((c - 2) * b.sectorsPerCluster))
    exact (wrap32_modEq _).trans hclusters
  have he : clusterOffset fs c = wrap32 (b.partitionLba * b.bytesPerSector +
      (b.reservedSectorCount + b.numFats * b.tableSize32 + (c - 2) * b.sectorsPerCluster) * b.bytesPerSector) := by
    rw [clusterOffset, hbps, ← Nat.add_mul]
    exact wrap32_congr (hsector.mul_right _)
  rw [he, Fat32Bpb.UnitsAgree, Fat32Bpb.dataOffset, Nat.ModEq, wrap32]
  generalize b.partitionLba * b.bytesPerSector = inSectors
  generalize (_ + (c - 2) * b.sectorsPerCluster) * b.bytesPerSector = inside
  omega

theorem nextClusterReads_reads (c : ℕ) :
    (nextClusterReads m fs c).reads = List.range' (fs.diskBase + fatEntryOffset fs c) 4 := by
  simp [nextClusterReads, word]

theorem fat32_addressing_iff {b : Fat32Bpb} (h : fat32Volume m diskData diskSize = some fs)
    (hb : b = fat32Bpb m diskData) {c : ℕ} (hc : 2 ≤ c) :
    ((nextClusterReads m fs c).reads = List.range' (diskData + b.tableOffset c) 4 ∧
        fat32GetClusterPtr fs c = some (diskData + b.dataOffset c)) ↔
      b.UnitsAgree ∧ b.tableOffset c < 2 ^ 32 + wrap32 (4 * c) % b.bytesPerSector ∧
        b.dataOffset c < 2 ^ 32 := by
  have hbase := (fat32Volume_fields h).1
  have htable : (nextClusterReads m fs c).reads = List.range' (diskData + b.tableOffset c) 4 ↔
      fatEntryOffset fs c = b.tableOffset c := by
    rw [nextClusterReads_reads, hbase]
    constructor
    · intro he
      have := (List.cons.inj he).1
      omega
    · intro he
      rw [he]
  have hdata : fat32GetClusterPtr fs c = some (diskData + b.dataOffset c) ↔
      clusterOffset fs c = b.dataOffset c := by
    rw [fat32GetClusterPtr_eq hc, hbase, Option.some_inj]
    omega
  rw [htable, hdata, fatEntryOffset_iff h hb, clusterOffset_iff h hb]
  exact and_and_left.symm

def largeSectors (x : ℕ) : UInt8 :=
  let segment (base : ℕ) (l : List UInt8) (i : ℕ) : Option UInt8 := if base ≤ i then l[i - base]? else none
  let off := x - 0x100000
  ((segment 450 [0x0C, 0, 0, 0, 0x00, 0x08, 0, 0] off).orElse fun _ =>
    (segment 510 [0x55, 0xAA] off).orElse fun _ =>
    (segment 0x10000B [0x00, 0x10, 1, 32, 0, 2] off).orElse fun _ =>
    (segment 0x100024 [100, 0, 0, 0] off).orElse fun _ =>
    (segment 0x10002C [2, 0, 0, 0] off).orElse fun _ =>
    (segment 0x100052 (bytes "FAT32   ") off)).getD 0

def largeFs : Fat32Fs where
  diskBase := 0x100000
  diskSize := 0x4000000
  partitionOffset := 0x100000
  bytesPerSector := 4096
  sectorsPerCluster := 1
  clusterSize := 4096
  reservedSectors := 32
  fatStartSector := 2080
  fatSizeSectors := 100
  dataStartSector := 2280
  rootCluster := 2

theorem largeSectors_misplaced : fat32Volume largeSectors 0x100000 0x4000000 = some largeFs ∧
    ¬((nextClusterReads largeSectors largeFs 2).reads =
        List.range' (0x100000 + (fat32Bpb largeSectors 0x100000).tableOffset 2) 4 ∧
      fat32GetClusterPtr largeFs 2 = some (0x100000 + (fat32Bpb largeSectors 0x100000).dataOffset 2)) := by
  constructor <;> decide

theorem fat32_addressing_fatDisk : ∃ fs, fat32Volume fatDisk 0x100000 2048 = some fs ∧
    fat32GetClusterPtr fs 3 = some (0x100000 + (fat32Bpb fatDisk 0x100000).dataOffset 3) := by
  have hsome : (fat32Volume fatDisk 0x100000 2048).isSome := by decide
  obtain ⟨fs, hfs⟩ := Option.isSome_iff_exists.mp hsome
  have hiff := fat32_addressing_iff hfs rfl (show 2 ≤ 3 by decide)
  refine ⟨fs, hfs, (hiff.mpr ⟨?_, ?_, ?_⟩).2⟩ <;> decide

end JurkOS.Kernel.Fs
