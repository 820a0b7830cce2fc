import JurkOS.Kernel.Fs.FileReads
import JurkOS.Kernel.Fs.Listing
import Mathlib.Algebra.BigOperators.Group.Finset.Basic
import Mathlib.Algebra.Order.BigOperators.Group.Finset

/-!
Which directory scans come to an end. A scan turns cluster by cluster; a chain
that comes back to itself holds it for ever if nothing in it stops the scan.
-/

namespace JurkOS.Kernel.Fs

open Lib Lib.Libc Lib.Memory

section Scans

variable (m : Mem) (fs : Fat32Fs)

def Scanned (c : ℕ) : Prop := 2 ≤ c ∧ c < 0x0FFFFFF8

def slotsOf (c : ℕ) : ℕ := fs.diskBase + clusterOffset fs c

def EndsIn (c : ℕ) : Prop := ∃ i < fs.clusterSize / 32, m (slotsOf fs c + 32 * i) = 0

def Carries (name : Name) (e : ℕ) : Prop :=
  m e ≠ 0xE5 ∧ m (e + 11) ≠ FAT_ATTR_LFN ∧ m (e + 11) &&& FAT_ATTR_VOLUME_ID = 0 ∧
    fat32FormatName (bytesAt m e 11) = name

def HoldsName (name : Name) (c : ℕ) : Prop := ∃ i < fs.clusterSize / 32, Carries m name (slotsOf fs c + 32 * i)

def visibleIn : ℕ → ℕ → ℕ
  | 0, _ => 0
  | n + 1, e => (if Visible m e then 1 else 0) + visibleIn n (e + 32)

def entryCount (c : ℕ) : ℕ := visibleIn m (fs.clusterSize / 32) (slotsOf fs c)

instance (c : ℕ) : Decidable (Scanned c) := inferInstanceAs (Decidable (_ ∧ _))

instance (c : ℕ) : Decidable (EndsIn m fs c) := Nat.decidableExistsLT _

instance (name : Name) (e : ℕ) : Decidable (Carries m name e) := inferInstanceAs (Decidable (_ ∧ _ ∧ _ ∧ _))

instance (name : Name) (c : ℕ) : Decidable (HoldsName m fs name c) := Nat.decidableExistsLT _

variable {m fs} {name : Name} {index : ℕ}

theorem slot_step {P : ℕ → Prop} {n e : ℕ} :
    (∃ i < n + 1, P (e + 32 * i)) ↔ P e ∨ ∃ i < n, P (e + 32 + 32 * i) := by
  constructor
  · rintro ⟨i, hi, hP⟩
    cases i with
    | zero => exact .inl hP
    | succ i => exact .inr ⟨i, by omega, by rwa [Nat.mul_succ, Nat.add_comm (32 * i), ← Nat.add_assoc] at hP⟩
  · rintro (hP | ⟨i, hi, hP⟩)
    · exact ⟨0, by omega, hP⟩
    · exact ⟨i + 1, by omega, by rwa [Nat.mul_succ, Nat.add_comm (32 * i), ← Nat.add_assoc]⟩

theorem scanCluster_more_iff (n e : ℕ) :
    scanCluster m name n e = .more ↔ ¬ ∃ i < n, m (e + 32 * i) = 0 ∨ Carries m name (e + 32 * i) := by
  induction n generalizing e with
  | zero => simp [scanCluster]
  | succ n ih =>
    rw [slot_step (P := fun e => m e = 0 ∨ Carries m name e), not_or, ← ih, scanCluster]
    unfold Carries
    split_ifs with h₁ h₂ h₃ h₄ h₅
    · simp [h₁]
    · simp [h₂]
    · simp [h₁, h₃]
    · simp [h₁, h₄]
    · simp [h₁, h₂, h₃, not_not.mp h₄, h₅]
    · simp [h₁, h₅]

theorem readdirCluster_more_iff (hindex : index < 2 ^ 32) {n e cm cm' : ℕ} (hle : cm ≤ index) :
    readdirCluster m index n e cm = .more cm' ↔
      (¬ ∃ i < n, m (e + 32 * i) = 0) ∧ cm + visibleIn m n e ≤ index ∧ cm' = cm + visibleIn m n e := by
  induction n generalizing e cm with
  | zero => simp [readdirCluster, visibleIn, hle, eq_comm]
  | succ n ih =>
    rw [slot_step (P := fun e => m e = 0)]
    by_cases hend : m e = 0
    · simp [readdirCluster, hend]
    by_cases hvis : Visible m e
    · rw [readdirCluster_visible n hend hvis, visibleIn, if_pos hvis, or_iff_right hend]
      by_cases hat : cm = index
      · rw [if_pos hat]
        exact iff_of_false (fun h => by cases h) (fun h => by omega)
      · rw [if_neg hat, wrap32, Nat.mod_eq_of_lt (by omega), ih (by omega), Nat.add_assoc]
    · rw [readdirCluster_hidden n hend hvis, visibleIn, if_neg hvis, or_iff_right hend, Nat.zero_add]
      exact ih hle

def finddirGoes (m : Mem) (fs : Fat32Fs) (name : Name) (c : ℕ) : Prop :=
  Scanned c ∧ ¬ EndsIn m fs c ∧ ¬ HoldsName m fs name c

instance (c : ℕ) : Decidable (finddirGoes m fs name c) := inferInstanceAs (Decidable (_ ∧ _ ∧ _))

def readdirGoes (m : Mem) (fs : Fat32Fs) (index : ℕ) (t : ℕ × ℕ) : Prop :=
  Scanned t.1 ∧ ¬ EndsIn m fs t.1 ∧ t.2 + entryCount m fs t.1 ≤ index

instance (t : ℕ × ℕ) : Decidable (readdirGoes m fs index t) := inferInstanceAs (Decidable (_ ∧ _ ∧ _))

def readdirTurn (m : Mem) (fs : Fat32Fs) (t : ℕ × ℕ) : ℕ × ℕ :=
  (fat32GetNextCluster m fs t.1, t.2 + entryCount m fs t.1)

theorem scan_goes_iff (c : ℕ) :
    scanCluster m name (fs.clusterSize / 32) (slotsOf fs c) = .more ↔ ¬ EndsIn m fs c ∧ ¬ HoldsName m fs name c := by
  rw [scanCluster_more_iff, ← not_or, EndsIn, HoldsName, ← exists_or]
  simp only [and_or_left]

theorem finddirLoop_goes {fuel c : ℕ} (h : finddirGoes m fs name c) :
    finddirLoop m fs name (fuel + 1) c = finddirLoop m fs name fuel (fat32GetNextCluster m fs c) := by
  rw [finddirLoop, if_pos h.1.2, fat32GetClusterPtr_eq h.1.1]
  have hscan : scanCluster m name (fs.clusterSize / 32) (fs.diskBase + clusterOffset fs c) = .more :=
    (scan_goes_iff c).mpr h.2
  dsimp only
  rw [hscan]

theorem finddirLoop_stops {fuel c : ℕ} (h : ¬ finddirGoes m fs name c) :
    (finddirLoop m fs name (fuel + 1) c).isSome := by
  rw [finddirLoop]
  obtain ⟨hdata, hptr⟩ | ⟨hdata, hptr⟩ := clusterPtr_cases fs c
  · rw [if_pos hdata.2, hptr]
    dsimp only
    cases hscan : scanCluster m name (fs.clusterSize / 32) (fs.diskBase + clusterOffset fs c) with
    | ended => rfl
    | found e => rfl
    | more => exact absurd ⟨hdata, (scan_goes_iff c).mp hscan⟩ h
  · split_ifs with hend
    · rw [hptr hend]
      rfl
    · rfl

theorem finddirLoop_isSome_iff (fuel c : ℕ) :
    (finddirLoop m fs name (fuel + 1) c).isSome ↔
      (Loop.run (finddirGoes m fs name) (fat32GetNextCluster m fs) fuel c).isSome := by
  induction fuel generalizing c with
  | zero =>
    by_cases hgoes : finddirGoes m fs name c
    · rw [finddirLoop_goes hgoes, Loop.run, if_pos hgoes]
      rfl
    · exact iff_of_true (finddirLoop_stops hgoes) (Loop.run_stop hgoes ▸ rfl)
  | succ fuel ih =>
    by_cases hgoes : finddirGoes m fs name c
    · rw [finddirLoop_goes hgoes, Loop.run_goes hgoes, Option.isSome_map]
      exact ih _
    · exact iff_of_true (finddirLoop_stops hgoes) (Loop.run_stop hgoes ▸ rfl)

theorem readdirLoop_goes (hindex : index < 2 ^ 32) {fuel : ℕ} {t : ℕ × ℕ} (h : readdirGoes m fs index t) :
    readdirLoop m fs index (fuel + 1) t.1 t.2 =
      readdirLoop m fs index fuel (readdirTurn m fs t).1 (readdirTurn m fs t).2 := by
  have hle : t.2 ≤ index := le_trans (Nat.le_add_right _ _) h.2.2
  have hscan : readdirCluster m index (fs.clusterSize / 32) (fs.diskBase + clusterOffset fs t.1) t.2 =
      .more (t.2 + entryCount m fs t.1) := (readdirCluster_more_iff hindex hle).mpr ⟨h.2.1, h.2.2, rfl⟩
  rw [readdirLoop, if_pos h.1.2, fat32GetClusterPtr_eq h.1.1]
  dsimp only
  rw [hscan]
  rfl

theorem readdirLoop_stops (hindex : index < 2 ^ 32) {fuel : ℕ} {t : ℕ × ℕ} (hle : t.2 ≤ index)
    (h : ¬ readdirGoes m fs index t) : (readdirLoop m fs index (fuel + 1) t.1 t.2).isSome := by
  rw [readdirLoop]
  obtain ⟨hdata, hptr⟩ | ⟨hdata, hptr⟩ := clusterPtr_cases fs t.1
  · rw [if_pos hdata.2, hptr]
    dsimp only
    cases hscan : readdirCluster m index (fs.clusterSize / 32) (fs.diskBase + clusterOffset fs t.1) t.2 with
    | ended => rfl
    | found e => rfl
    | more cm =>
      have hmore := (readdirCluster_more_iff hindex hle).mp hscan
      exact absurd ⟨hdata, hmore.1, hmore.2.1⟩ h
  · split_ifs with hend
    · rw [hptr hend]
      rfl
    · rfl

theorem readdirLoop_isSome_iff (hindex : index < 2 ^ 32) (fuel : ℕ) {t : ℕ × ℕ} (hle : t.2 ≤ index) :
    (readdirLoop m fs index (fuel + 1) t.1 t.2).isSome ↔
      (Loop.run (readdirGoes m fs index) (readdirTurn m fs) fuel t).isSome := by
  induction fuel generalizing t with
  | zero =>
    by_cases hgoes : readdirGoes m fs index t
    · rw [readdirLoop_goes hindex hgoes, Loop.run, if_pos hgoes]
      rfl
    · exact iff_of_true (readdirLoop_stops hindex hle hgoes) (Loop.run_stop hgoes ▸ rfl)
  | succ fuel ih =>
    by_cases hgoes : readdirGoes m fs index t
    · rw [readdirLoop_goes hindex hgoes, Loop.run_goes hgoes, Option.isSome_map]
      exact ih hgoes.2.2
    · exact iff_of_true (readdirLoop_stops hindex hle hgoes) (Loop.run_stop hgoes ▸ rfl)

theorem readdirTurn_iterate (c j : ℕ) : (readdirTurn m fs)^[j] (c, 0) =
    (chainCluster m fs c j, ∑ i ∈ Finset.range j, entryCount m fs (chainCluster m fs c i)) := by
  induction j with
  | zero => rfl
  | succ j ih =>
    rw [Function.iterate_succ_apply', ih, Finset.sum_range_succ]
    exact Prod.ext (Function.iterate_succ_apply' (fat32GetNextCluster m fs) j c).symm rfl

theorem exists_isSome_iff {α : Type} {f : ℕ → Option α} {P : ℕ → Prop} (h0 : f 0 = none)
    (h : ∀ n, (f (n + 1)).isSome ↔ ∃ k ≤ n, P k) : (∃ n, (f n).isSome) ↔ ∃ k, P k := by
  constructor
  · rintro ⟨n, hn⟩
    cases n with
    | zero => simp [h0] at hn
    | succ n =>
      obtain ⟨k, -, hk⟩ := (h n).mp hn
      exact ⟨k, hk⟩
  · rintro ⟨k, hk⟩
    exact ⟨k + 1, (h k).mpr ⟨k, le_rfl, hk⟩⟩

theorem finddir_ends_iff (name : Name) (c : ℕ) :
    (∃ fuel, (finddirLoop m fs name fuel c).isSome) ↔ ∃ j, ¬ finddirGoes m fs name (chainCluster m fs c j) :=
  exists_isSome_iff rfl fun n => (finddirLoop_isSome_iff n c).trans Loop.run_isSome_iff

theorem readdir_ends_iff (hindex : index < 2 ^ 32) (c : ℕ) :
    (∃ fuel, (readdirLoop m fs index fuel c 0).isSome) ↔
      ∃ j, ¬ readdirGoes m fs index
        (chainCluster m fs c j, ∑ i ∈ Finset.range j, entryCount m fs (chainCluster m fs c i)) := by
  refine exists_isSome_iff rfl fun n => ?_
  rw [readdirLoop_isSome_iff hindex n (t := (c, 0)) (Nat.zero_le index), Loop.run_isSome_iff]
  simp only [readdirTurn_iterate]

def ChainStops (m : Mem) (fs : Fat32Fs) (first : ℕ) : Prop :=
  ∃ j ≤ 0x0FFFFFF8, ¬ Scanned (chainCluster m fs first j) ∨ EndsIn m fs (chainCluster m fs first j)

theorem chainStops_iff {first : ℕ} : ChainStops m fs first ↔
    ∃ j, ¬ Scanned (chainCluster m fs first j) ∨ EndsIn m fs (chainCluster m fs first j) := by
  constructor
  · rintro ⟨j, -, h⟩
    exact ⟨j, h⟩
  · intro h
    have hout (i : ℕ) (hi : ¬ (¬ Scanned (chainCluster m fs first i) ∨ EndsIn m fs (chainCluster m fs first i))) :
        chainCluster m fs first i < 0x0FFFFFF8 := (not_not.mp (not_or.mp hi).1).2
    exact Loop.orbit_early (P := fun c => ¬ Scanned c ∨ EndsIn m fs c) hout h

theorem finddir_stops_iff (first : ℕ) :
    (∃ fuel, (finddirLoop m fs name fuel first).isSome) ↔
      ChainStops m fs first ∨ ∃ j ≤ 0x0FFFFFF8, HoldsName m fs name (chainCluster m fs first j) := by
  rw [finddir_ends_iff]
  constructor
  · intro h
    have hout (i : ℕ) (hi : ¬ ¬ finddirGoes m fs name (chainCluster m fs first i)) :
        chainCluster m fs first i < 0x0FFFFFF8 := (not_not.mp hi).1.2
    obtain ⟨j, hj, hstop⟩ := Loop.orbit_early (P := fun c => ¬ finddirGoes m fs name c) hout h
    by_cases hname : HoldsName m fs name (chainCluster m fs first j)
    · exact .inr ⟨j, hj, hname⟩
    · refine .inl ⟨j, hj, ?_⟩
      by_contra hno
      obtain ⟨hscan, hend⟩ := not_or.mp hno
      exact hstop ⟨not_not.mp hscan, hend, hname⟩
  · rintro (⟨j, -, hscan | hend⟩ | ⟨j, -, hname⟩)
    · exact ⟨j, fun h => hscan h.1⟩
    · exact ⟨j, fun h => h.2.1 hend⟩
    · exact ⟨j, fun h => h.2.2 hname⟩

-- Past the first repetition, a cluster that lists something lists it again and again.
theorem entries_unbounded {first j : ℕ} (hchain : ∀ i, Scanned (chainCluster m fs first i)) (hj : 0x0FFFFFF8 ≤ j)
    (hpos : 0 < entryCount m fs (chainCluster m fs first j)) (n : ℕ) :
    ∃ k, n ≤ ∑ i ∈ Finset.range k, entryCount m fs (chainCluster m fs first i) := by
  induction n with
  | zero => exact ⟨0, Nat.zero_le _⟩
  | succ n ih =>
    obtain ⟨k, hk⟩ := ih
    obtain ⟨i, hi, heq⟩ := Loop.orbit_recurs (fun i => (hchain i).2) hj k
    refine ⟨i + 1, ?_⟩
    have hmono : ∑ i ∈ Finset.range k, entryCount m fs (chainCluster m fs first i) ≤
        ∑ i ∈ Finset.range i, entryCount m fs (chainCluster m fs first i) :=
      Finset.sum_le_sum_of_subset (Finset.range_subset_range.mpr hi)
    have hagain : 0 < entryCount m fs (chainCluster m fs first i) := by
      rw [chainCluster, heq]
      exact hpos
    rw [Finset.sum_range_succ]
    omega

theorem readdir_stops_iff (hindex : index < 2 ^ 32) (first : ℕ) :
    (∃ fuel, (readdirLoop m fs index fuel first 0).isSome) ↔
      ChainStops m fs first ∨
        index < ∑ i ∈ Finset.range 0x0FFFFFF8, entryCount m fs (chainCluster m fs first i) ∨
        ∃ i, 0x0FFFFFF8 ≤ i ∧ i ≤ 0x0FFFFFF8 + 0x0FFFFFF8 ∧ 0 < entryCount m fs (chainCluster m fs first i) := by
  rw [readdir_ends_iff hindex]
  by_cases hstops : ChainStops m fs first
  · refine iff_of_true ?_ (.inl hstops)
    obtain ⟨j, -, hscan | hend⟩ := hstops
    · exact ⟨j, fun h => hscan h.1⟩
    · exact ⟨j, fun h => h.2.1 hend⟩
  rw [or_iff_right hstops]
  have hchain (i : ℕ) : Scanned (chainCluster m fs first i) ∧ ¬ EndsIn m fs (chainCluster m fs first i) := by
    have hi := not_exists.mp (mt chainStops_iff.mpr hstops) i
    exact ⟨not_not.mp (not_or.mp hi).1, (not_or.mp hi).2⟩
  have hgoes (j : ℕ) : ¬ readdirGoes m fs index
      (chainCluster m fs first j, ∑ i ∈ Finset.range j, entryCount m fs (chainCluster m fs first i)) ↔
        index < ∑ i ∈ Finset.range (j + 1), entryCount m fs (chainCluster m fs first i) := by
    rw [Finset.sum_range_succ, ← Nat.not_le]
    exact not_congr ⟨fun h => h.2.2, fun h => ⟨(hchain j).1, (hchain j).2, h⟩⟩
  simp only [hgoes]
  constructor
  · rintro ⟨j, hj⟩
    by_cases hcycle : ∃ i, 0x0FFFFFF8 ≤ i ∧ 0 < entryCount m fs (chainCluster m fs first i)
    · obtain ⟨i, hi, hpos⟩ := hcycle
      exact .inr (Loop.orbit_late (P := fun c => 0 < entryCount m fs c) (fun i => (hchain i).1.2) hi hpos)
    · left
      apply Nat.lt_of_lt_of_le hj
      apply Finset.sum_le_sum_of_ne_zero
      intro i _ hi
      by_contra hlate
      exact hcycle ⟨i, by simpa using hlate, Nat.pos_of_ne_zero hi⟩
  · rintro (h | ⟨i, hi, -, hpos⟩)
    · exact ⟨0x0FFFFFF7, h⟩
    · obtain ⟨k, hk⟩ := entries_unbounded (fun i => (hchain i).1) hi hpos (index + 1)
      cases k with
      | zero => exact absurd hk (by simp)
      | succ k => exact ⟨k, hk⟩

def FinddirEnds (m : Mem) (fs : Fat32Fs) (name : Name) (first : ℕ) : Prop :=
  ∃ fuel, (finddirLoop m fs name fuel first).isSome

def ReaddirEnds (m : Mem) (fs : Fat32Fs) (index first : ℕ) : Prop :=
  ∃ fuel, (readdirLoop m fs index fuel first 0).isSome

theorem directory_scans_end_iff (m : Mem) (fs : Fat32Fs) (first : ℕ) (name : Name) (hindex : index < 2 ^ 32) :
    (FinddirEnds m fs name first ↔
        ChainStops m fs first ∨ ∃ j ≤ 0x0FFFFFF8, HoldsName m fs name (chainCluster m fs first j)) ∧
      (ReaddirEnds m fs index first ↔
        ChainStops m fs first ∨
          index < ∑ i ∈ Finset.range 0x0FFFFFF8, entryCount m fs (chainCluster m fs first i) ∨
          ∃ i, 0x0FFFFFF8 ≤ i ∧ i ≤ 0x0FFFFFF8 + 0x0FFFFFF8 ∧ 0 < entryCount m fs (chainCluster m fs first i)) :=
  ⟨finddir_stops_iff first, readdir_stops_iff hindex first⟩

def fatDiskFs : Fat32Fs := (fat32Volume fatDisk 0x100000 2048).getD {}

theorem directory_scans_end_fatDisk :
    FinddirEnds fatDisk fatDiskFs (bytes "dev") 2 ∧ ReaddirEnds fatDisk fatDiskFs 5 2 := by
  have hiff := directory_scans_end_iff fatDisk fatDiskFs 2 (bytes "dev") (show 5 < 2 ^ 32 by norm_num)
  have hend : EndsIn fatDisk fatDiskFs (chainCluster fatDisk fatDiskFs 2 0) := by decide
  have hstops : ChainStops fatDisk fatDiskFs 2 := ⟨0, Nat.zero_le _, .inr hend⟩
  exact ⟨hiff.1.mpr (.inl hstops), hiff.2.mpr (.inl hstops)⟩

end Scans

def loopedDisk (x : ℕ) : UInt8 :=
  placed
    [(11, [0x00, 0x02, 1, 1, 0, 1]), (36, [1, 0, 0, 0]), (44, [2, 0, 0, 0]), (82, bytes "FAT32   "),
      (520, [2, 0, 0, 0]), (1024, List.replicate 512 0xE5)]
    (x - 0x100000)

def loopedFs : Fat32Fs := (fat32Volume loopedDisk 0x100000 2048).getD {}

theorem loopedDisk_chain (j : ℕ) : chainCluster loopedDisk loopedFs 2 j = 2 := by
  apply Function.iterate_fixed
  decide

theorem loopedDisk_scans : fat32Volume loopedDisk 0x100000 2048 = some loopedFs ∧ loopedFs.rootCluster = 2 ∧
    ¬ FinddirEnds loopedDisk loopedFs (bytes "notes") 2 ∧ ¬ ReaddirEnds loopedDisk loopedFs 0 2 := by
  have hcount : entryCount loopedDisk loopedFs 2 = 0 := by decide +kernel
  have hend : ¬ EndsIn loopedDisk loopedFs 2 := by decide +kernel
  have hname : ¬ HoldsName loopedDisk loopedFs (bytes "notes") 2 := by decide +kernel
  have hscanned : Scanned 2 := by decide
  refine ⟨by decide, by decide, ?_, ?_⟩
  · unfold FinddirEnds
    rw [finddir_ends_iff]
    rintro ⟨j, hj⟩
    rw [loopedDisk_chain] at hj
    exact hj ⟨hscanned, hend, hname⟩
  · unfold ReaddirEnds
    rw [readdir_ends_iff (by norm_num)]
    rintro ⟨j, hj⟩
    apply hj
    simp only [loopedDisk_chain, hcount]
    exact ⟨hscanned, hend, by simp [hcount]⟩

end JurkOS.Kernel.Fs
