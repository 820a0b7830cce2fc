import JurkOS.Kernel.Fs.Reads

/-!
Which parts of a disk have to be there. What a driver reads lies on the disk if
and only if the structures that it walks do.
-/

namespace JurkOS.Kernel.Fs

open Lib Lib.Libc Lib.Memory Lib.Traced

section Disk

variable {m : Mem} {disk size o k : ℕ}

theorem word_onDisk (hk : 0 < k) : Within (Span disk size) (word m (disk + o) k) ↔ o + k ≤ size := by
  rw [within_word]
  simp only [mem_span]
  constructor
  · intro h
    have hlast := h (k - 1) (by omega)
    omega
  · intro h i hi
    omega

theorem peek_onDisk : Within (Span disk size) (peek m (disk + o)) ↔ o + 1 ≤ size := by
  rw [within_peek, mem_span]
  omega

theorem block_onDisk : Within (Span disk size) (block m (disk + o) k) ↔ (0 < k → o + k ≤ size) := by
  rcases Nat.eq_zero_or_pos k with rfl | hk
  · rw [within_block]
    exact ⟨fun _ h => absurd h (Nat.lt_irrefl 0), fun _ i hi => absurd hi (Nat.not_lt_zero i)⟩
  · exact (word_onDisk (m := m) hk).trans ⟨fun h _ => h, fun h => h hk⟩

def memcmpLength (m : Mem) : ℕ → List UInt8 → ℕ
  | _, [] => 0
  | p, c :: l => if m p = c then memcmpLength m (p + 1) l + 1 else 1

theorem memcmpReads_inside {l : List UInt8} (hl : l ≠ []) :
    Within (Span disk size) (memcmpReads m (disk + o) l) ↔ o + memcmpLength m (disk + o) l ≤ size := by
  induction l generalizing o with
  | nil => exact absurd rfl hl
  | cons c l ih =>
    unfold memcmpReads memcmpLength
    rw [within_bind, peek_onDisk]
    by_cases hsame : m (disk + o) = c
    · rw [if_pos hsame, if_pos hsame]
      cases l with
      | nil => exact ⟨fun h => h.1, fun h => ⟨h, within_pure _⟩⟩
      | cons d l =>
        have hrest := ih (o := o + 1) (List.cons_ne_nil d l)
        rw [← Nat.add_assoc] at hrest
        have hpos : 1 ≤ memcmpLength m (disk + o + 1) (d :: l) := by
          unfold memcmpLength
          split_ifs <;> omega
        rw [hrest]
        constructor
        · rintro ⟨-, hlen⟩
          omega
        · exact fun h => ⟨by omega, by omega⟩
    · rw [if_neg hsame, if_neg hsame]
      exact ⟨fun h => h.1, fun h => ⟨h, within_pure _⟩⟩

theorem memcmpLength_le (p : ℕ) (l : List UInt8) : memcmpLength m p l ≤ l.length := by
  induction l generalizing p with
  | nil => exact le_refl 0
  | cons c l ih =>
    have hrest := ih (p + 1)
    rw [memcmpLength, List.length_cons]
    split_ifs <;> omega

end Disk

/-! ### FAT32 -/

section Fat32

variable (m : Mem) (fs : Fat32Fs)

def BootSectorInside (disk size : ℕ) : Prop :=
  let sector := wrap32 (partitionLba m disk * 512)
  sector + 48 ≤ size ∧ sector + 82 + memcmpLength m (disk + (sector + 82)) (bytes "FAT32   ") ≤ size

def EntryInside (cluster : ℕ) : Prop := fatEntryOffset fs cluster + 4 ≤ fs.diskSize

section Slots

variable {α : Type} (visit : α → ℕ → Traced (Option α)) (hit : ℕ)

def slotLength (x : α) (e : ℕ) : ℕ :=
  if m e = 0x00 ∨ m e = 0xE5 then 1 else if Hidden m e then 12 else if (visit x e).value.isNone then hit else 12

def SlotInside (s : α × ℕ) : Prop := s.2 + slotLength m visit hit s.1 (fs.diskBase + s.2) ≤ fs.diskSize

def ScanInside (x : α) (cluster : ℕ) : Prop :=
  Along (fun s => (slotReads m fs visit s).value) (SlotInside m fs visit hit) (fs.clusterSize / 32)
    (x, clusterOffset fs cluster)

def ClusterInside (s : ℕ × α) : Prop :=
  2 ≤ s.1 ∧ s.1 < 0x0FFFFFF8 → ScanInside m fs visit hit s.2 s.1 ∧
    ((scanReads m fs visit s.2 s.1).value.isLeft → EntryInside fs s.1)

def DirInside (fuel cluster : ℕ) (x : α) : Prop :=
  Along (fun s => (clusterReads m fs visit s).value) (ClusterInside m fs visit hit) fuel (cluster, x)

end Slots

def SkipInside (skip cluster : ℕ) : Prop :=
  ∀ k < skip, (∀ j ≤ k, (fat32GetNextCluster m fs)^[j] cluster < 0x0FFFFFF8) →
    EntryInside fs ((fat32GetNextCluster m fs)^[k] cluster)

def CopyInside (size : ℕ) (s : CopyState) : Prop :=
  s.bytesRead < size ∧ 2 ≤ s.cluster ∧ s.cluster < 0x0FFFFFF8 →
    (0 < s.count fs size → clusterOffset fs s.cluster + s.clusterOffset + s.count fs size ≤ fs.diskSize) ∧
      EntryInside fs s.cluster

def FileInside (firstCluster fileSize offset size : ℕ) (out : Mem) : Prop :=
  offset < fileSize →
    SkipInside m fs (offset / fs.clusterSize) firstCluster ∧
      let size := if fileSize < wrap32 (offset + size) then fileSize - offset else size
      Along (fun s => (copyReads m fs size s).value) (CopyInside fs size) (size + 1)
        ⟨0, skipLoop m fs (offset / fs.clusterSize) firstCluster, offset % fs.clusterSize, out⟩

variable {m fs}

theorem partitionLbaReads_inside {disk size : ℕ} (hsize : 512 ≤ size) :
    Within (Span disk size) (partitionLbaReads m disk) := by
  unfold partitionLbaReads
  refine within_bind.mpr ⟨peek_onDisk.mpr (by omega), ?_⟩
  apply Within.ite
  · exact fun _ => within_pure _
  intro _
  refine within_bind.mpr ⟨peek_onDisk.mpr (by omega), ?_⟩
  apply Within.ite
  · exact fun _ => within_pure _
  intro _
  refine within_bind.mpr ⟨peek_onDisk.mpr (by omega), ?_⟩
  apply Within.ite
  · exact fun _ => (word_onDisk (by decide)).mpr (by omega)
  · exact fun _ => within_pure _

theorem fat32VolumeReads_inside {disk size : ℕ} (hsize : 512 ≤ size) :
    Within (Span disk size) (fat32VolumeReads m disk) ↔ BootSectorInside m disk size := by
  have hfield {o k : ℕ} (hk : 0 < k) :
      Within (Span disk size) (word m (disk + wrap32 (partitionLba m disk * 512) + o) k) ↔
        wrap32 (partitionLba m disk * 512) + o + k ≤ size := by
    rw [Nat.add_assoc, word_onDisk hk]
  unfold fat32VolumeReads BootSectorInside
  rw [within_bind, value_partitionLbaReads]
  simp only [within_bind]
  rw [hfield (by decide), hfield (by decide), hfield (by decide), hfield (by decide), hfield (by decide),
    hfield (by decide), Nat.add_assoc disk, memcmpReads_inside (by decide)]
  constructor
  · rintro ⟨-, -, -, hname, hroot, -⟩
    exact ⟨hroot, hname⟩
  · rintro ⟨hroot, hname⟩
    exact ⟨partitionLbaReads_inside hsize, by omega, by omega, hname, by omega, by omega, by omega, by omega,
      within_pure _⟩

theorem nextClusterReads_inside (c : ℕ) :
    Within (Span fs.diskBase fs.diskSize) (nextClusterReads m fs c) ↔ EntryInside fs c := by
  unfold nextClusterReads
  rw [within_bind, word_onDisk (by decide)]
  exact ⟨fun h => h.1, fun h => ⟨h, within_pure _⟩⟩

section Slots

variable {α : Type} {visit : α → ℕ → Traced (Option α)} {hit : ℕ}

variable (fs visit hit) in
structure Visitor : Prop where
  name_le : 12 ≤ hit
  reads : ∀ x o, o + 12 ≤ fs.diskSize → (Within (Span fs.diskBase fs.diskSize) (visit x (fs.diskBase + o)) ↔
    ((visit x (fs.diskBase + o)).value = none → o + hit ≤ fs.diskSize))

theorem slotReads_inside (hv : Visitor fs visit hit) (s : α × ℕ) :
    Within (Span fs.diskBase fs.diskSize) (slotReads m fs visit s) ↔ SlotInside m fs visit hit s := by
  obtain ⟨x, o⟩ := s
  have hname := hv.name_le
  have hattr : Within (Span fs.diskBase fs.diskSize) (peek m (fs.diskBase + o + 11)) ↔ o + 12 ≤ fs.diskSize := by
    rw [Nat.add_assoc]
    exact peek_onDisk
  unfold slotReads SlotInside slotLength
  rw [within_bind, peek_onDisk]
  by_cases hend : m (fs.diskBase + o) = 0
  · rw [if_pos hend, if_pos (Or.inl hend)]
    exact ⟨fun h => h.1, fun h => ⟨h, within_pure _⟩⟩
  by_cases hdeleted : m (fs.diskBase + o) = 0xE5
  · rw [if_neg hend, if_pos hdeleted, if_pos (Or.inr hdeleted)]
    exact ⟨fun h => h.1, fun h => ⟨h, within_pure _⟩⟩
  rw [if_neg hend, if_neg hdeleted, if_neg (not_or.mpr ⟨hend, hdeleted⟩), within_bind, hattr]
  by_cases hhidden : Hidden m (fs.diskBase + o)
  · rw [if_pos hhidden, if_pos hhidden]
    exact ⟨fun h => h.2.1, fun h => ⟨by omega, h, within_pure _⟩⟩
  rw [if_neg hhidden, if_neg hhidden, within_bind]
  cases hvisit : (visit x (fs.diskBase + o)).value with
  | none =>
    simp only [Option.isNone_none, if_true]
    constructor
    · rintro ⟨-, hlen, hin, -⟩
      exact (hv.reads x o hlen).mp hin hvisit
    · intro h
      exact ⟨by omega, by omega, (hv.reads x o (by omega)).mpr fun _ => h, within_pure _⟩
  | some y =>
    simp only [Option.isNone_some, Bool.false_eq_true, if_false]
    constructor
    · exact fun h => h.2.1
    · intro h
      refine ⟨by omega, h, (hv.reads x o h).mpr fun hnone => ?_, within_pure _⟩
      cases hvisit.symm.trans hnone

theorem clusterReads_inside (hv : Visitor fs visit hit) (s : ℕ × α) :
    Within (Span fs.diskBase fs.diskSize) (clusterReads m fs visit s) ↔ ClusterInside m fs visit hit s := by
  have hscan : Within (Span fs.diskBase fs.diskSize) (scanReads m fs visit s.2 s.1) ↔
      ScanInside m fs visit hit s.2 s.1 := within_loop (slotReads_inside hv) _ _
  unfold clusterReads ClusterInside
  by_cases hdata : 2 ≤ s.1 ∧ s.1 < 0x0FFFFFF8
  · rw [if_pos hdata, within_bind, hscan]
    constructor
    · rintro ⟨hslots, hrest⟩ -
      refine ⟨hslots, fun hmore => ?_⟩
      cases hx : (scanReads m fs visit s.2 s.1).value with
      | inl y =>
        rw [hx, within_bind, nextClusterReads_inside] at hrest
        exact hrest.1
      | inr e =>
        rw [hx] at hmore
        cases hmore
    · intro h
      obtain ⟨hslots, hmore⟩ := h hdata
      refine ⟨hslots, ?_⟩
      cases hx : (scanReads m fs visit s.2 s.1).value with
      | inl y =>
        rw [hx] at hmore
        rw [within_bind, nextClusterReads_inside]
        exact ⟨hmore rfl, within_pure _⟩
      | inr e => exact within_pure _
  · rw [if_neg hdata]
    exact ⟨fun _ h => absurd h hdata, fun _ => within_pure _⟩

theorem dirReads_inside (hv : Visitor fs visit hit) (fuel c : ℕ) (x : α) :
    Within (Span fs.diskBase fs.diskSize) (loop (clusterReads m fs visit) fuel (c, x)) ↔
      DirInside m fs visit hit fuel c x :=
  within_loop (clusterReads_inside hv) _ _

end Slots

theorem visit_word {e o i k : ℕ} (he : e = fs.diskBase + o) (hk : 0 < k) :
    Within (Span fs.diskBase fs.diskSize) (word m (e + i) k) ↔ o + (i + k) ≤ fs.diskSize := by
  rw [he, Nat.add_assoc, word_onDisk hk, Nat.add_assoc]

theorem finddirVisit_visitor (name : Name) : Visitor fs (finddirVisit m name) 32 := by
  refine ⟨by decide, fun x o ho => ?_⟩
  rw [value_finddirVisit]
  unfold finddirVisit
  rw [within_bind, block_onDisk]
  change _ ∧ Within _ (if fat32FormatName (bytesAt m (fs.diskBase + o) 11) = name then _ else _) ↔ _
  split_ifs with hname
  · simp only [within_bind]
    rw [visit_word rfl (by decide), visit_word rfl (by decide), visit_word rfl (by decide)]
    constructor
    · exact fun h _ => h.2.2.2.1
    · intro h
      have hlen := h trivial
      exact ⟨fun _ => by omega, by omega, by omega, by omega, within_pure _⟩
  · exact ⟨fun _ h => (nomatch h), fun _ => ⟨fun _ => by omega, within_pure _⟩⟩

theorem readdirVisit_visitor (index : ℕ) : Visitor fs (readdirVisit m index) 28 := by
  refine ⟨by decide, fun cm o ho => ?_⟩
  have hfirst : Within (Span fs.diskBase fs.diskSize) (peek m (fs.diskBase + o)) := peek_onDisk.mpr (by omega)
  rw [value_readdirVisit]
  unfold readdirVisit
  rw [within_bind]
  change _ ∧ Within _ (if m (fs.diskBase + o) = 0x2E then _ else _) ↔ _
  split_ifs with hdot hindex
  · exact ⟨fun _ h => (nomatch h), fun _ => ⟨hfirst, within_pure _⟩⟩
  · simp only [within_bind]
    rw [block_onDisk, visit_word rfl (by decide), visit_word rfl (by decide)]
    constructor
    · exact fun h _ => h.2.2.2.1
    · intro h
      have hlen := h trivial
      exact ⟨hfirst, fun _ => by omega, by omega, by omega, within_pure _⟩
  · exact ⟨fun _ h => (nomatch h), fun _ => ⟨hfirst, within_pure _⟩⟩

theorem skipReads_inside (skip c : ℕ) :
    Within (Span fs.diskBase fs.diskSize) (skipReads m fs skip c) ↔ SkipInside m fs skip c := by
  induction skip generalizing c with
  | zero => exact ⟨fun _ k hk => absurd hk (Nat.not_lt_zero k), fun _ => within_pure _⟩
  | succ skip ih =>
    unfold skipReads
    rw [loop, within_bind]
    by_cases hdata : c < 0x0FFFFFF8
    · rw [if_pos hdata, within_bind, nextClusterReads_inside]
      simp only [value_bind, value_pure]
      rw [value_nextClusterReads]
      change (_ ∧ _) ∧ Within _ (skipReads m fs skip (fat32GetNextCluster m fs c)) ↔ _
      rw [ih]
      constructor
      · rintro ⟨⟨hentry, -⟩, hrest⟩ k hk hall
        cases k with
        | zero => exact hentry
        | succ k => exact hrest k (by omega) fun j hj => hall (j + 1) (by omega)
      · intro h
        refine ⟨⟨h 0 (by omega) fun j hj => ?_, within_pure _⟩, fun k hk hall => h (k + 1) (by omega) fun j hj => ?_⟩
        · rw [Nat.le_zero.mp hj]
          exact hdata
        · cases j with
          | zero => exact hdata
          | succ j => exact hall j (by omega)
    · rw [if_neg hdata]
      constructor
      · intro _ k _ hall
        exact absurd (hall 0 (Nat.zero_le k)) hdata
      · exact fun _ => ⟨within_pure _, within_pure _⟩

theorem copyReads_inside (size : ℕ) (s : CopyState) :
    Within (Span fs.diskBase fs.diskSize) (copyReads m fs size s) ↔ CopyInside fs size s := by
  unfold copyReads CopyInside
  by_cases hmore : s.bytesRead < size ∧ 2 ≤ s.cluster ∧ s.cluster < 0x0FFFFFF8
  · rw [if_pos hmore]
    simp only [within_bind]
    rw [Nat.add_assoc, block_onDisk, nextClusterReads_inside]
    constructor
    · exact fun h _ => ⟨h.1, h.2.1⟩
    · intro h
      exact ⟨(h hmore).1, (h hmore).2, within_pure _⟩
  · rw [if_neg hmore]
    exact ⟨fun _ h => absurd h hmore, fun _ => within_pure _⟩

theorem fileReads_inside (c fileSize offset size : ℕ) (out : Mem) :
    Within (Span fs.diskBase fs.diskSize) (fileReads m fs c fileSize offset size out) ↔
      FileInside m fs c fileSize offset size out := by
  unfold fileReads FileInside
  by_cases hend : fileSize ≤ offset
  · rw [if_pos hend]
    exact ⟨fun _ h => absurd h (by omega), fun _ => within_pure _⟩
  · rw [if_neg hend, within_bind, skipReads_inside, within_loop (copyReads_inside _), ← skipLoop_reads]
    exact ⟨fun h _ => h, fun h => h (by omega)⟩

end Fat32

/-! ### JurkVFS -/

section Jurkvfs

variable (m : Mem)

variable {m} in
theorem jurkvfsVolumeReads_inside {disk size : ℕ} (hsize : sizeofJurkvfsHeader ≤ size) :
    Within (Span disk size) (jurkvfsVolumeReads m disk) := by
  have hmagic : Within (Span disk size) (memcmpReads m (disk + 0) JURKVFS_MAGIC) := by
    have hle := memcmpLength_le (m := m) (disk + 0) JURKVFS_MAGIC
    have hlength : JURKVFS_MAGIC.length ≤ sizeofJurkvfsHeader := by decide
    exact (memcmpReads_inside (by decide)).mpr (by omega)
  have hfield {o : ℕ} (ho : o + 4 ≤ sizeofJurkvfsHeader) : Within (Span disk size) (word m (disk + o) 4) :=
    (word_onDisk (by decide)).mpr (ho.trans hsize)
  unfold jurkvfsVolumeReads
  simp only [within_bind]
  exact ⟨hmagic, hfield (by decide), hfield (by decide), hfield (by decide), within_pure _⟩

def strcpyLength : ℕ → ℕ → ℕ
  | _, 0 => 0
  | p, n + 1 => if m p = 0 then 1 else strcpyLength (p + 1) n + 1

def strcmpLength : ℕ → Name → ℕ
  | _, [] => 1
  | p, c :: name => if m p = c then strcmpLength (p + 1) name + 1 else 1

variable (fs : JurkvfsFs)

def inodeOffset (i : ℕ) : ℕ := load m (fs.diskData + 20) 4 + sizeofJurkvfsInode * i

def NameInside (i : ℕ) : Prop :=
  inodeOffset m fs i + strcpyLength m (jurkvfsInode fs i) FS_MAX_NAME ≤ fs.diskSize

def NodeInside (i : ℕ) : Prop := NameInside m fs i ∧ inodeOffset m fs i + 72 ≤ fs.diskSize

def FinddirInside (name : Name) (_ : Unit) (i : ℕ) : Prop :=
  inodeOffset m fs i + strcmpLength m (jurkvfsInode fs i) name ≤ fs.diskSize ∧
    (strcmpEq m (jurkvfsInode fs i) name → NodeInside m fs i)

def ReaddirInside (index currentMatch i : ℕ) : Prop :=
  currentMatch = index → NameInside m fs i ∧ inodeOffset m fs i + 68 ≤ fs.diskSize

def InodeInside {α : Type} (V : α → ℕ → Prop) (parent : ℕ) (s : α × ℕ) : Prop :=
  inodeOffset m fs s.2 + 80 ≤ fs.diskSize ∧ (Child m fs parent s.2 → V s.1 s.2)

def TableInside {α : Type} (visit : α → ℕ → Traced (Option α)) (V : α → ℕ → Prop) (parent : ℕ) (x : α) : Prop :=
  Along (fun s => (inodeReads m fs visit parent s).value) (InodeInside m fs V parent) (totalInodes m fs) (x, 0)

def DataInside (i offset size : ℕ) : Prop :=
  inodeOffset m fs i + 72 ≤ fs.diskSize ∧
    let inodeSize := load m (jurkvfsInode fs i + 68) 4
    offset < inodeSize → inodeOffset m fs i + 76 ≤ fs.diskSize ∧
      let size := if inodeSize < wrap32 (offset + size) then inodeSize - offset else size
      0 < size → load m (fs.header + 24) 4 + load m (jurkvfsInode fs i + 72) 4 + offset + size ≤ fs.diskSize

variable {m fs}

theorem strcpyReads_inside {disk size o : ℕ} (n : ℕ) :
    Within (Span disk size) (strcpyReads m (disk + o) (n + 1)) ↔ o + strcpyLength m (disk + o) (n + 1) ≤ size := by
  induction n generalizing o with
  | zero =>
    unfold strcpyReads strcpyLength
    rw [within_bind, peek_onDisk]
    split_ifs with hend
    · exact ⟨fun h => h.1, fun h => ⟨h, within_pure _⟩⟩
    · exact ⟨fun h => h.1, fun h => ⟨h, within_bind.mpr ⟨within_pure _, within_pure _⟩⟩⟩
  | succ n ih =>
    have hrest := ih (o := o + 1)
    rw [← Nat.add_assoc] at hrest
    have hpos : 1 ≤ strcpyLength m (disk + o + 1) (n + 1) := by
      unfold strcpyLength
      split_ifs <;> omega
    unfold strcpyReads strcpyLength
    rw [within_bind, peek_onDisk]
    split_ifs with hend
    · exact ⟨fun h => h.1, fun h => ⟨h, within_pure _⟩⟩
    · rw [within_bind, hrest]
      constructor
      · rintro ⟨-, hlen, -⟩
        omega
      · exact fun h => ⟨by omega, by omega, within_pure _⟩

theorem strcmpReads_inside {disk size o : ℕ} (name : Name) :
    Within (Span disk size) (strcmpReads m (disk + o) name) ↔ o + strcmpLength m (disk + o) name ≤ size := by
  induction name generalizing o with
  | nil =>
    unfold strcmpReads
    rw [within_bind, peek_onDisk]
    exact ⟨fun h => h.1, fun h => ⟨h, within_pure _⟩⟩
  | cons c name ih =>
    have hrest := ih (o := o + 1)
    rw [← Nat.add_assoc] at hrest
    have hpos : 1 ≤ strcmpLength m (disk + o + 1) name := by
      cases name with
      | nil => exact le_refl 1
      | cons c name =>
        unfold strcmpLength
        split_ifs <;> omega
    unfold strcmpReads strcmpLength
    rw [within_bind, peek_onDisk]
    split_ifs with hsame
    · rw [hrest]
      constructor
      · rintro ⟨-, hlen⟩
        omega
      · exact fun h => ⟨by omega, by omega⟩
    · exact ⟨fun h => h.1, fun h => ⟨h, within_pure _⟩⟩

variable (m fs) in
structure JurkvfsMounted : Prop where
  header : fs.header = fs.diskData
  inodes : fs.inodes = fs.diskData + load m (fs.diskData + 20) 4
  header_le : sizeofJurkvfsHeader ≤ fs.diskSize

namespace JurkvfsMounted

variable (h : JurkvfsMounted m fs)
include h

theorem inode_eq (i : ℕ) : jurkvfsInode fs i = fs.diskData + inodeOffset m fs i := by
  unfold jurkvfsInode inodeOffset
  rw [h.inodes, Nat.add_assoc]

theorem field_inside (i : ℕ) {o k : ℕ} (hk : 0 < k) :
    Within (Span fs.diskData fs.diskSize) (word m (jurkvfsInode fs i + o) k) ↔
      inodeOffset m fs i + (o + k) ≤ fs.diskSize := by
  rw [h.inode_eq, Nat.add_assoc, word_onDisk hk, Nat.add_assoc]

theorem header_inside {o k : ℕ} (hk : 0 < k) (hle : o + k ≤ sizeofJurkvfsHeader) :
    Within (Span fs.diskData fs.diskSize) (word m (fs.header + o) k) := by
  rw [h.header, word_onDisk hk]
  exact hle.trans h.header_le

theorem name_inside (i : ℕ) :
    Within (Span fs.diskData fs.diskSize) (strcpyReads m (jurkvfsInode fs i) FS_MAX_NAME) ↔ NameInside m fs i := by
  unfold NameInside
  rw [h.inode_eq]
  exact strcpyReads_inside 127

theorem nodeReads_inside (i : ℕ) :
    Within (Span fs.diskData fs.diskSize) (nodeReads m fs i) ↔ NodeInside m fs i := by
  unfold nodeReads NodeInside
  simp only [within_bind]
  rw [h.name_inside, h.field_inside i (by decide), h.field_inside i (by decide)]
  constructor
  · exact fun hall => ⟨hall.1, hall.2.1⟩
  · exact fun hall => ⟨hall.1, hall.2, by omega, within_pure _⟩

theorem finddirNode_inside (name : Name) (x : Unit) (i : ℕ) :
    Within (Span fs.diskData fs.diskSize) (finddirNode m fs name x i) ↔ FinddirInside m fs name x i := by
  have hcmp : Within (Span fs.diskData fs.diskSize) (strcmpReads m (jurkvfsInode fs i) name) ↔
      inodeOffset m fs i + strcmpLength m (jurkvfsInode fs i) name ≤ fs.diskSize := by
    rw [h.inode_eq]
    exact strcmpReads_inside name
  unfold finddirNode FinddirInside
  rw [within_bind, hcmp, ← strcmpEq_reads]
  apply and_congr_right
  intro _
  split_ifs with hsame
  · rw [within_bind, h.nodeReads_inside]
    exact ⟨fun hnode _ => hnode.1, fun hnode => ⟨hnode hsame, within_pure _⟩⟩
  · exact ⟨fun _ hyes => absurd hyes hsame, fun _ => within_pure _⟩

theorem readdirNode_inside (index cm i : ℕ) :
    Within (Span fs.diskData fs.diskSize) (readdirNode m fs index cm i) ↔ ReaddirInside m fs index cm i := by
  unfold readdirNode ReaddirInside
  split_ifs with hindex
  · simp only [within_bind]
    rw [h.name_inside, h.field_inside i (by decide)]
    exact ⟨fun hall _ => ⟨hall.1, hall.2.1⟩, fun hall => ⟨(hall hindex).1, (hall hindex).2, within_pure _⟩⟩
  · exact ⟨fun _ hyes => absurd hyes hindex, fun _ => within_pure _⟩

theorem tableReads_inside {α : Type} {visit : α → ℕ → Traced (Option α)} {V : α → ℕ → Prop}
    (hv : ∀ x i, Within (Span fs.diskData fs.diskSize) (visit x i) ↔ V x i) (parent : ℕ) (x : α) :
    Within (Span fs.diskData fs.diskSize) (tableReads m fs visit parent x) ↔ TableInside m fs visit V parent x := by
  have hturn (s : α × ℕ) : Within (Span fs.diskData fs.diskSize) (inodeReads m fs visit parent s) ↔
      InodeInside m fs V parent s := by
    unfold inodeReads InodeInside
    rw [within_bind, h.field_inside s.2 (by decide)]
    apply and_congr_right
    intro _
    change Within _ (if Child m fs parent s.2 then _ else _) ↔ _
    split_ifs with hchild
    · rw [within_bind, hv]
      constructor
      · exact fun hall _ => hall.1
      · intro hall
        refine ⟨hall hchild, ?_⟩
        cases (visit s.1 s.2).value with
        | none => exact within_pure _
        | some y => exact within_pure _
    · exact ⟨fun _ hyes => absurd hyes hchild, fun _ => within_pure _⟩
  unfold tableReads
  rw [within_bind, within_loop hturn]
  exact ⟨fun hall => hall.2, fun hall => ⟨h.header_inside (by decide) (by decide), hall⟩⟩

theorem dataReads_inside (i offset size : ℕ) (out : Mem) :
    Within (Span fs.diskData fs.diskSize) (dataReads m fs i offset size out) ↔ DataInside m fs i offset size := by
  have hdata {a b k : ℕ} : Within (Span fs.diskData fs.diskSize) (block m (fs.diskData + a + b + offset) k) ↔
      (0 < k → a + b + offset + k ≤ fs.diskSize) := by
    rw [Nat.add_assoc fs.diskData, Nat.add_assoc fs.diskData]
    exact block_onDisk
  unfold dataReads DataInside
  rw [within_bind, h.field_inside i (by decide)]
  apply and_congr_right
  intro _
  dsimp only
  by_cases hend : load m (jurkvfsInode fs i + 68) 4 ≤ offset
  · rw [if_pos hend]
    exact ⟨fun _ hlt => absurd hlt (by omega), fun _ => within_pure _⟩
  · rw [if_neg hend]
    simp only [within_bind]
    rw [h.field_inside i (by decide), hdata]
    constructor
    · exact fun hall _ => ⟨hall.2.1, hall.2.2.1⟩
    · intro hall
      obtain ⟨hrecord, hblock⟩ := hall (by omega)
      exact ⟨h.header_inside (by decide) (by decide), hrecord, hblock, within_pure _⟩

end JurkvfsMounted

end Jurkvfs

end JurkOS.Kernel.Fs
