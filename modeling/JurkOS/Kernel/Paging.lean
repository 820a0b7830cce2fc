import JurkOS.Kernel.Pmm
import JurkOS.Lib.Radix

/-!
Page tables in memory: `arch/x86_64/paging.c` with four levels and
`arch/x86/paging.c` with two.
-/

namespace JurkOS.Kernel.Paging

open Lib Lib.Memory Lib.Radix Pmm

def PAGE_PRESENT : ℕ := 1
def PAGE_WRITABLE : ℕ := 2
def PAGE_USER : ℕ := 4

def frameMask (a : Arch) : ℕ := 2 ^ a.wordBits - 2 ^ 12

/-- `kernelTable` is `kernel_pml4` or `kernel_page_dir`; `allocs` counts the calls of `pmm_alloc_page`. -/
structure State where
  mem : Mem
  kernelTable : ℕ
  allocs : ℕ

-- `frame i` is what the call number `i` of `pmm_alloc_page` returns.
variable (a : Arch) (frame : ℕ → ℕ) (cr3 : ℕ)

def vmmInit (s : State) : State := { s with kernelTable := cr3 &&& frameMask a }

def entryAt (m : Mem) (table idx : ℕ) : ℕ := load m (table + a.wordBytes * idx) a.wordBytes

def setEntry (m : Mem) (table idx e : ℕ) : Mem := store m (table + a.wordBytes * idx) a.wordBytes e

def writeEntry (s : State) (table idx e : ℕ) : State := { s with mem := setEntry a s.mem table idx e }

def nextTable (s : State) (table idx flags : ℕ) : ℕ × State :=
  if entryAt a s.mem table idx &&& PAGE_PRESENT = 0 then
    let page := frame s.allocs
    let mem := memset 0 PAGE_SIZE s.mem page
    (page, { s with
      mem := setEntry a mem table idx (page ||| PAGE_PRESENT ||| PAGE_WRITABLE ||| (flags &&& PAGE_USER))
      allocs := s.allocs + 1 })
  else (entryAt a s.mem table idx &&& frameMask a, s)

def tableBelow (m : Mem) (table idx : ℕ) : Option ℕ :=
  if entryAt a m table idx &&& PAGE_PRESENT = 0 then none
  else some (entryAt a m table idx &&& frameMask a)

namespace X86_64

def vmmMapPage (s : State) (phys virt flags : ℕ) : State :=
  let pml4Idx := (virt >>> 39) &&& 0x1FF
  let pdptIdx := (virt >>> 30) &&& 0x1FF
  let pdIdx := (virt >>> 21) &&& 0x1FF
  let ptIdx := (virt >>> 12) &&& 0x1FF
  let s := if s.kernelTable = 0 then vmmInit .x86_64 cr3 s else s
  let (pdpt, s) := nextTable .x86_64 frame s s.kernelTable pml4Idx flags
  let (pd, s) := nextTable .x86_64 frame s pdpt pdptIdx flags
  let (pt, s) := nextTable .x86_64 frame s pd pdIdx flags
  writeEntry .x86_64 s pt ptIdx ((phys &&& frameMask .x86_64) ||| flags ||| PAGE_PRESENT)

def pageTable (s : State) (virt : ℕ) : Option ℕ :=
  let pml4Idx := (virt >>> 39) &&& 0x1FF
  let pdptIdx := (virt >>> 30) &&& 0x1FF
  let pdIdx := (virt >>> 21) &&& 0x1FF
  if s.kernelTable = 0 then none
  else
    (tableBelow .x86_64 s.mem s.kernelTable pml4Idx).bind fun pdpt =>
    (tableBelow .x86_64 s.mem pdpt pdptIdx).bind fun pd =>
    tableBelow .x86_64 s.mem pd pdIdx

end X86_64

namespace X86

def vmmMapPage (s : State) (phys virt flags : ℕ) : State :=
  let pdIdx := (virt >>> 22) &&& 0x3FF
  let ptIdx := (virt >>> 12) &&& 0x3FF
  let s := if s.kernelTable = 0 then vmmInit .x86 cr3 s else s
  let (pt, s) := nextTable .x86 frame s s.kernelTable pdIdx flags
  writeEntry .x86 s pt ptIdx ((phys &&& frameMask .x86) ||| (flags &&& 0xFFF) ||| PAGE_PRESENT)

def pageTable (s : State) (virt : ℕ) : Option ℕ :=
  let pdIdx := (virt >>> 22) &&& 0x3FF
  if s.kernelTable = 0 then none else tableBelow .x86 s.mem s.kernelTable pdIdx

end X86

def vmmMapPage : State → ℕ → ℕ → ℕ → State :=
  match a with
  | .x86_64 => X86_64.vmmMapPage frame cr3
  | .x86 => X86.vmmMapPage frame cr3

def pageTable : State → ℕ → Option ℕ :=
  match a with
  | .x86_64 => X86_64.pageTable
  | .x86 => X86.pageTable

def ptIdx (virt : ℕ) : ℕ :=
  match a with
  | .x86_64 => (virt >>> 12) &&& 0x1FF
  | .x86 => (virt >>> 12) &&& 0x3FF

def vmmUnmapPage (s : State) (virt : ℕ) : State :=
  match pageTable a s virt with
  | none => s
  | some pt => writeEntry a s pt (ptIdx a virt) 0

def vmmGetPhys (s : State) (virt : ℕ) : ℕ :=
  match pageTable a s virt with
  | none => 0
  | some pt =>
    if entryAt a s.mem pt (ptIdx a virt) &&& PAGE_PRESENT = 0 then 0
    else (entryAt a s.mem pt (ptIdx a virt) &&& frameMask a) ||| (virt &&& 0xFFF)

def fanout : ℕ := PAGE_SIZE / a.wordBytes

def levels : ℕ :=
  match a with
  | .x86_64 => 3
  | .x86 => 1

abbrev Index := Fin (fanout a)

theorem fanout_pos : 0 < fanout a := by cases a <;> decide

def tableIndex (shift virt : ℕ) : Index a :=
  ⟨(virt >>> shift) &&& (fanout a - 1),
    Nat.lt_of_le_of_lt Nat.and_le_right (Nat.sub_lt (fanout_pos a) Nat.one_pos)⟩

def path (virt : ℕ) : List (Index a) :=
  match a with
  | .x86_64 => [tableIndex .x86_64 39 virt, tableIndex .x86_64 30 virt, tableIndex .x86_64 21 virt]
  | .x86 => [tableIndex .x86 22 virt]

def leaf (virt : ℕ) : Index a := tableIndex a 12 virt

def pageNumber (virt : ℕ) : ℕ := virt / PAGE_SIZE % fanout a ^ (levels a + 1)

def child (e : ℕ) : Option ℕ := if e &&& PAGE_PRESENT = 0 then none else some (e &&& frameMask a)

def entries (m : Mem) (t : ℕ) (i : Index a) : ℕ := entryAt a m t i

def descend (flags : ℕ) : List (Index a) → ℕ → State → ℕ × State
  | [], t, s => (t, s)
  | i :: p, t, s =>
    descend flags p (nextTable a frame s t i flags).1 (nextTable a frame s t i flags).2

def start (s : State) : State := if s.kernelTable = 0 then vmmInit a cr3 s else s

variable {a frame cr3}

theorem length_path (virt : ℕ) : (path a virt).length = levels a := by cases a <;> rfl

theorem pageTable_eq (s : State) (virt : ℕ) : pageTable a s virt =
    if s.kernelTable = 0 then none else walk (child a) (entries a s.mem) s.kernelTable (path a virt) := by
  cases a with
  | x86_64 =>
    simp only [path, walk, Option.bind_fun_some]
    rfl
  | x86 =>
    simp only [path, walk, Option.bind_fun_some]
    rfl

theorem ptIdx_eq (virt : ℕ) : ptIdx a virt = leaf a virt := by cases a <;> rfl

theorem vmmMapPage_eq {s : State} {phys virt flags : ℕ} (hflags : flags < 0x1000) :
    vmmMapPage a frame cr3 s phys virt flags =
      writeEntry a (descend a frame flags (path a virt) (start a cr3 s).kernelTable (start a cr3 s)).2
        (descend a frame flags (path a virt) (start a cr3 s).kernelTable (start a cr3 s)).1 (leaf a virt)
        ((phys &&& frameMask a) ||| flags ||| PAGE_PRESENT) := by
  cases a with
  | x86_64 => rfl
  | x86 =>
    have hmask : flags &&& 0xFFF = flags := by
      rw [Nat.and_two_pow_sub_one_eq_mod flags 12]
      exact Nat.mod_eq_of_lt hflags
    change X86.vmmMapPage frame cr3 s phys virt flags = _
    rw [X86.vmmMapPage, hmask]
    rfl

theorem tableIndex_val (shift virt : ℕ) : (tableIndex a shift virt : ℕ) = virt / 2 ^ shift % fanout a := by
  cases a with
  | x86_64 =>
    change (virt >>> shift) &&& (2 ^ 9 - 1) = virt / 2 ^ shift % 2 ^ 9
    rw [Nat.and_two_pow_sub_one_eq_mod, Nat.shiftRight_eq_div_pow]
  | x86 =>
    change (virt >>> shift) &&& (2 ^ 10 - 1) = virt / 2 ^ shift % 2 ^ 10
    rw [Nat.and_two_pow_sub_one_eq_mod, Nat.shiftRight_eq_div_pow]

theorem path_leaf_eq_iff {v w : ℕ} :
    path a v = path a w ∧ leaf a v = leaf a w ↔ pageNumber a v = pageNumber a w := by
  cases a with
  | x86_64 =>
    simp only [path, leaf, List.cons.injEq, and_true, Fin.ext_iff, tableIndex_val]
    simp only [pageNumber, fanout, levels, Arch.wordBytes, PAGE_SIZE]
    omega
  | x86 =>
    simp only [path, leaf, List.cons.injEq, and_true, Fin.ext_iff, tableIndex_val]
    simp only [pageNumber, fanout, levels, Arch.wordBytes, PAGE_SIZE]
    omega

theorem wordBytes_mul_index (i : Index a) : a.wordBytes * i + a.wordBytes ≤ PAGE_SIZE := by
  have hi := i.isLt
  cases a <;> simp only [fanout, Arch.wordBytes, PAGE_SIZE] at * <;> omega

theorem wordBytes_apart {i j : Index a} (h : i ≠ j) :
    a.wordBytes * i + a.wordBytes ≤ a.wordBytes * j ∨ a.wordBytes * j + a.wordBytes ≤ a.wordBytes * i := by
  have hne : (i : ℕ) ≠ j := fun he => h (Fin.ext he)
  cases a <;> simp only [Arch.wordBytes] <;> omega

theorem pages_apart {t u : ℕ} (ht : t % PAGE_SIZE = 0) (hu : u % PAGE_SIZE = 0) (hne : u ≠ t) :
    u + PAGE_SIZE ≤ t ∨ t + PAGE_SIZE ≤ u := by
  rw [PAGE_SIZE] at *
  omega

theorem entries_congr {m m' : Mem} {t : ℕ} {i : Index a} (h : ∀ b ∈ Span t PAGE_SIZE, m' b = m b) :
    entries a m' t i = entries a m t i := by
  have hi := wordBytes_mul_index i
  apply load_congr
  intro b hb
  apply h b
  exact ⟨by have := hb.1; omega, by have := hb.2; omega⟩

theorem entries_setEntry_self {m : Mem} {t e : ℕ} {i : Index a} (he : e < 2 ^ a.wordBits) :
    entries a (setEntry a m t i e) t i = e :=
  load_store_of_lt (by rwa [a.pow_wordBytes])

theorem entries_setEntry_ne {m : Mem} {t u e : ℕ} {i j : Index a} (ht : t % PAGE_SIZE = 0)
    (hu : u % PAGE_SIZE = 0) (hne : u ≠ t ∨ j ≠ i) :
    entries a (setEntry a m t i e) u j = entries a m u j := by
  have hi := wordBytes_mul_index i
  have hj := wordBytes_mul_index j
  apply load_store_of_disjoint
  by_cases hut : u = t
  · subst hut
    rcases hne with hne | hne
    · exact absurd rfl hne
    · have := wordBytes_apart hne
      omega
  · have := pages_apart ht hu hut
    omega

theorem entries_memset_self {m : Mem} {n : ℕ} {i : Index a} : entries a (memset 0 PAGE_SIZE m n) n i = 0 := by
  have hi := wordBytes_mul_index i
  apply load_eq_zero
  intro b hb
  apply memset_apply
  exact ⟨by have := hb.1; omega, by have := hb.2; omega⟩

theorem entries_memset_ne {m : Mem} {n u : ℕ} {i : Index a} (hn : n % PAGE_SIZE = 0) (hu : u % PAGE_SIZE = 0)
    (hne : u ≠ n) : entries a (memset 0 PAGE_SIZE m n) u i = entries a m u i := by
  refine entries_congr fun b hb => memset_changedIn 0 PAGE_SIZE m n b fun hb' => ?_
  have := pages_apart hn hu hne
  obtain ⟨h₁, h₂⟩ := hb
  obtain ⟨h₃, h₄⟩ := hb'
  omega

theorem and_frameMask {x : ℕ} (hx : x < 2 ^ a.wordBits) : x &&& frameMask a = x / 2 ^ 12 * 2 ^ 12 := by
  have hw : 12 ≤ a.wordBits := by cases a <;> decide
  exact Bits.and_highMask hw hx

theorem child_entry {page low : ℕ} (haligned : page % PAGE_SIZE = 0) (hpage : page < 2 ^ a.wordBits)
    (hlow : low < 2 ^ 12) : child a (page ||| low ||| PAGE_PRESENT) = some page := by
  have hw : 12 ≤ a.wordBits := by cases a <;> decide
  have hlt : 2 ^ 12 ≤ 2 ^ a.wordBits := Nat.pow_le_pow_right (by decide) hw
  have hone : PAGE_PRESENT < 2 ^ a.wordBits := by
    rw [PAGE_PRESENT]
    omega
  have hword : page ||| low ||| PAGE_PRESENT < 2 ^ a.wordBits :=
    Nat.or_lt_two_pow (Nat.or_lt_two_pow hpage (hlow.trans_le hlt)) hone
  have hpresent : (page ||| low ||| PAGE_PRESENT) &&& PAGE_PRESENT ≠ 0 := by
    rw [PAGE_PRESENT, Nat.and_one_is_mod]
    intro h
    have hbit : (page ||| low ||| 1).testBit 0 = true := by simp
    rw [Nat.testBit_zero, h] at hbit
    cases hbit
  have hflags : low ||| PAGE_PRESENT < 2 ^ 12 := Nat.or_lt_two_pow hlow (by decide)
  have hmask : (page ||| low ||| PAGE_PRESENT) &&& frameMask a = page := by
    have hpage12 : page % 2 ^ 12 = 0 := haligned
    rw [and_frameMask hword, Nat.or_assoc, Bits.or_low hpage12 hflags]
    omega
  rw [child, if_neg hpresent, hmask]

theorem tableEntry_eq (n flags : ℕ) : n ||| PAGE_PRESENT ||| PAGE_WRITABLE ||| (flags &&& PAGE_USER) =
    n ||| (PAGE_WRITABLE ||| (flags &&& PAGE_USER)) ||| PAGE_PRESENT := by
  rw [Nat.or_assoc n, Nat.or_comm PAGE_PRESENT, ← Nat.or_assoc n, Nat.or_assoc (n ||| PAGE_WRITABLE),
    Nat.or_comm PAGE_PRESENT, ← Nat.or_assoc, Nat.or_assoc n]

theorem child_zero : child a 0 = none := by rw [child, Nat.zero_and, if_pos rfl]

structure Frames (a : Arch) (frame : ℕ → ℕ) (root k : ℕ) : Prop where
  root_aligned : root % PAGE_SIZE = 0
  nonnull : ∀ i < k, frame i ≠ 0
  aligned : ∀ i < k, frame i % PAGE_SIZE = 0
  word : ∀ i < k, frame i < 2 ^ a.wordBits
  distinct : ∀ i < k, ∀ j < k, frame i = frame j → i = j
  not_root : ∀ i < k, frame i ≠ root

theorem Frames.mono {root k k' : ℕ} (h : Frames a frame root k') (hk : k ≤ k') : Frames a frame root k where
  root_aligned := h.root_aligned
  nonnull := fun i hi => h.nonnull i (hi.trans_le hk)
  aligned := fun i hi => h.aligned i (hi.trans_le hk)
  word := fun i hi => h.word i (hi.trans_le hk)
  distinct := fun i hi j hj => h.distinct i (hi.trans_le hk) j (hj.trans_le hk)
  not_root := fun i hi => h.not_root i (hi.trans_le hk)

variable (frame) in
def tables (root k : ℕ) : Set ℕ := {t | t = root ∨ ∃ i < k, t = frame i}

structure Tree (a : Arch) (frame : ℕ → ℕ) (root : ℕ) (s : State) : Prop where
  separated : Radix.Separated (child a) (entries a s.mem) root (levels a)
  owned : ∀ q t, q.length ≤ levels a → walk (child a) (entries a s.mem) root q = some t →
    t ∈ tables frame root s.allocs

theorem Frames.table_aligned {root k t : ℕ} (h : Frames a frame root k) (ht : t ∈ tables frame root k) :
    t % PAGE_SIZE = 0 := by
  rcases ht with rfl | ⟨i, hi, rfl⟩
  · exact h.root_aligned
  · exact h.aligned i hi

theorem Frames.fresh {root k : ℕ} (h : Frames a frame root (k + 1)) : frame k ∉ tables frame root k := by
  rintro (hroot | ⟨i, hi, heq⟩)
  · exact h.not_root k (Nat.lt_succ_self k) hroot
  · have := h.distinct k (Nat.lt_succ_self k) i (by omega) heq
    omega

theorem nextTable_cases {root t flags : ℕ} {s : State} {pre : List (Index a)} {i : Index a}
    (hf : Frames a frame root (nextTable a frame s t i flags).2.allocs) (htree : Tree a frame root s)
    (ht : walk (child a) (entries a s.mem) root pre = some t) (hpre : pre.length < levels a) :
    (nextTable a frame s t i flags).2 = s ∧ child a (entries a s.mem t i) = some (nextTable a frame s t i flags).1 ∨
      (nextTable a frame s t i flags).2.allocs = s.allocs + 1 ∧
      (nextTable a frame s t i flags).2.kernelTable = s.kernelTable ∧
      (nextTable a frame s t i flags).1 = frame s.allocs ∧
      Grown (child a) 0 (entries a s.mem) (entries a (nextTable a frame s t i flags).2.mem) root (levels a) pre i t
        (frame s.allocs) := by
  by_cases he : entryAt a s.mem t i &&& PAGE_PRESENT = 0
  · right
    simp only [nextTable, if_pos he] at hf ⊢
    refine ⟨trivial, trivial, trivial, ?_⟩
    set n := frame s.allocs with hn
    have hold : Frames a frame root s.allocs := hf.mono (Nat.le_succ _)
    have haligned : n % PAGE_SIZE = 0 := hf.aligned _ (Nat.lt_succ_self _)
    have hword : n < 2 ^ a.wordBits := hf.word _ (Nat.lt_succ_self _)
    have htable (q : List (Index a)) (u : ℕ) (hq : q.length ≤ levels a)
        (hu : walk (child a) (entries a s.mem) root q = some u) : u % PAGE_SIZE = 0 ∧ u ≠ n := by
      have hmem := htree.owned q u hq hu
      exact ⟨hold.table_aligned hmem, fun hun => hf.fresh (by rw [← hn, ← hun]; exact hmem)⟩
    have htn := htable pre t hpre.le ht
    have hlow : PAGE_WRITABLE ||| (flags &&& PAGE_USER) < 2 ^ 12 :=
      Nat.or_lt_two_pow (by decide) (Nat.and_lt_two_pow flags (by decide))
    refine ⟨ht, hpre, if_pos he, ?_, ?_, ?_, ?_⟩
    · rw [tableEntry_eq, entries_setEntry_self, child_entry haligned hword hlow]
      have h12 : 2 ^ 12 ≤ 2 ^ a.wordBits := Nat.pow_le_pow_right (by decide) (by cases a <;> decide)
      have hone : PAGE_PRESENT < 2 ^ a.wordBits := by
        rw [PAGE_PRESENT]
        omega
      exact Nat.or_lt_two_pow (Nat.or_lt_two_pow hword (hlow.trans_le h12)) hone
    · intro j
      rw [entries_setEntry_ne htn.1 haligned (.inl (Ne.symm htn.2)), entries_memset_self]
    · intro q hq hqn
      exact (htable q n hq hqn).2 rfl
    · intro q u j hq hu hne
      rw [entries_setEntry_ne htn.1 (htable q u hq hu).1 hne,
        entries_memset_ne haligned (htable q u hq hu).1 (htable q u hq hu).2]
  · left
    simp only [nextTable, if_neg he]
    exact ⟨trivial, if_neg he⟩

end JurkOS.Kernel.Paging
