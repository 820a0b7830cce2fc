import JurkOS.Kernel.Loader.Elf
import JurkOS.Lib.Traced

/-!
What the ELF loaders read of the buffer.
-/

namespace JurkOS.Kernel.Loader

open Lib Lib.Memory Lib.Traced Paging Pmm

variable {a : Arch}

namespace Buffer

def fieldReads (b : Buffer a) (pos : ℕ) (f : ℕ × ℕ) : Traced ℕ := word b.byteAt (pos + f.1) f.2

/-- The turn of the loop over the program headers, as far as it reads. -/
def segmentReads (c : ElfClass) (b : Buffer a) (i : ℕ) : Traced (Option Phdr) := do
  let pos := b.phdrPos c i
  let type ← b.fieldReads pos c.type
  if type ≠ PT_LOAD then pure none
  else do
    let vaddr ← b.fieldReads pos c.vaddr
    let memsz ← b.fieldReads pos c.memsz
    let filesz ← b.fieldReads pos c.filesz
    let offset ← b.fieldReads pos c.offset
    let flags ← b.fieldReads pos c.flags
    let ph : Phdr := ⟨type, flags, a.wrap offset, a.wrap vaddr, a.wrap filesz, a.wrap memsz⟩
    if ph.Copied a b.size then
      let _ ← block b.byteAt ph.offset ph.filesz
      pure (some ph)
    else pure (some ph)

def loopReads (c : ElfClass) (b : Buffer a) : ℕ → ℕ → Traced (List Phdr)
  | 0, _ => pure []
  | n + 1, i => do
    let ph ← b.segmentReads c i
    let rest ← b.loopReads c n (i + 1)
    pure (ph.toList ++ rest)

def elfReads (c : ElfClass) (b : Buffer a) : Traced (List Phdr) :=
  if Accepted a c b then b.loopReads c (b.field 0 c.phnum) 0 else pure []

end Buffer

def ElfClass.phdrRead (c : ElfClass) : ℕ := max (c.memsz.1 + c.memsz.2) (c.flags.1 + c.flags.2)

def Inside (b : Buffer a) : Set ℕ := {i | a.wrap i < b.size}

def PhdrInside (c : ElfClass) (b : Buffer a) (i : ℕ) : Prop :=
  b.phdrPos c i + 4 ≤ b.size ∧ ((b.phdr c i).type = PT_LOAD →
    b.phdrPos c i + c.phdrRead ≤ b.size ∧
      ((b.phdr c i).Copied a b.size → (b.phdr c i).offset + (b.phdr c i).filesz < 2 ^ a.wordBits))

section

variable {c : ElfClass} {b : Buffer a}

theorem interval_inside {x n : ℕ} (hx : x < 2 ^ a.wordBits) (hn : 0 < n) :
    (∀ k < n, x + k ∈ Inside b) ↔ x + n ≤ b.size := by
  have hsize := b.size_le
  have hpage : 0 < PAGE_SIZE := by decide
  constructor
  · intro h
    by_contra hlt
    by_cases hstart : b.size ≤ x
    · have hin : a.wrap (x + 0) < b.size := h 0 hn
      rw [Nat.add_zero, Arch.wrap_of_lt hx] at hin
      omega
    · have hin : a.wrap (x + (b.size - x)) < b.size := h (b.size - x) (by omega)
      rw [Nat.add_sub_cancel' (by omega), Arch.wrap_of_lt (by omega)] at hin
      omega
  · intro h k hk
    change a.wrap (x + k) < b.size
    rw [Arch.wrap_of_lt (by omega)]
    omega

structure Fields (c : ElfClass) : Prop where
  type : c.type = (0, 4)
  read_le : c.phdrRead ≤ PAGE_SIZE
  inside : ∀ f ∈ [c.vaddr, c.memsz, c.filesz, c.offset, c.flags], 0 < f.2 ∧ f.1 + f.2 ≤ c.phdrRead

theorem elf64_fields : Fields elf64 := ⟨rfl, by decide, by decide⟩

theorem elf32_fields : Fields elf32 := ⟨rfl, by decide, by decide⟩

theorem field_inside (hc : Fields c) {pos : ℕ} {f : ℕ × ℕ} (hpos : pos + 4 ≤ b.size)
    (hf : f ∈ [c.vaddr, c.memsz, c.filesz, c.offset, c.flags]) :
    Within (Inside b) (b.fieldReads pos f) ↔ pos + f.1 + f.2 ≤ b.size := by
  obtain ⟨hlen, hend⟩ := hc.inside f hf
  have hread := hc.read_le
  have hsize := b.size_le
  exact within_word.trans (interval_inside (by omega) hlen)

theorem segmentReads_inside (hc : Fields c) (i : ℕ) :
    Within (Inside b) (b.segmentReads c i) ↔ PhdrInside c b i := by
  have hpos : b.phdrPos c i < 2 ^ a.wordBits := Nat.mod_lt _ (by positivity)
  have htype : Within (Inside b) (b.fieldReads (b.phdrPos c i) c.type) ↔ b.phdrPos c i + 4 ≤ b.size := by
    rw [hc.type]
    exact within_word.trans (interval_inside hpos (by decide))
  unfold Buffer.segmentReads PhdrInside
  simp only [within_bind, htype]
  apply and_congr_right
  intro hstart
  change Within (Inside b) (if (b.phdr c i).type ≠ PT_LOAD then _ else _) ↔ _
  by_cases hload : (b.phdr c i).type = PT_LOAD
  · rw [if_neg (not_not.mpr hload)]
    have hfields (f : ℕ × ℕ) (hf : f ∈ [c.vaddr, c.memsz, c.filesz, c.offset, c.flags]) :=
      field_inside (b := b) hc hstart hf
    have hcopy : Within (Inside b) (if (b.phdr c i).Copied a b.size then
          block b.byteAt (b.phdr c i).offset (b.phdr c i).filesz >>= fun _ => pure (some (b.phdr c i))
        else pure (some (b.phdr c i))) ↔
        ((b.phdr c i).Copied a b.size → (b.phdr c i).offset + (b.phdr c i).filesz < 2 ^ a.wordBits) := by
      have hoff : (b.phdr c i).offset < 2 ^ a.wordBits := Nat.mod_lt _ (by positivity)
      have hsize := b.size_le
      have hpage : 0 < PAGE_SIZE := by decide
      by_cases hcopied : (b.phdr c i).Copied a b.size
      · have hinterval := interval_inside (b := b) hoff hcopied.1
        rw [if_pos hcopied, within_bind, within_block, hinterval]
        constructor
        · intro h _
          omega
        · intro h
          have hlt := h hcopied
          have hle := hcopied.2
          rw [Arch.wrap_of_lt hlt] at hle
          exact ⟨hle, within_pure _⟩
      · rw [if_neg hcopied]
        exact ⟨fun _ h => absurd h hcopied, fun _ => within_pure _⟩
    simp only [within_bind]
    rw [hfields c.vaddr (by simp), hfields c.memsz (by simp), hfields c.filesz (by simp), hfields c.offset (by simp),
      hfields c.flags (by simp)]
    have hlast : c.phdrRead = max (c.memsz.1 + c.memsz.2) (c.flags.1 + c.flags.2) := rfl
    constructor
    · rintro ⟨-, hmemsz, -, -, hflags, hrest⟩ -
      exact ⟨by omega, hcopy.mp hrest⟩
    · intro h
      obtain ⟨hread, hrest⟩ := h hload
      have hend (f : ℕ × ℕ) (hf : f ∈ [c.vaddr, c.memsz, c.filesz, c.offset, c.flags]) := (hc.inside f hf).2
      have h₁ := hend c.vaddr (by simp)
      have h₂ := hend c.memsz (by simp)
      have h₃ := hend c.filesz (by simp)
      have h₄ := hend c.offset (by simp)
      have h₅ := hend c.flags (by simp)
      exact ⟨by omega, by omega, by omega, by omega, by omega, hcopy.mpr hrest⟩
  · rw [if_pos hload]
    exact ⟨fun _ h => absurd h hload, fun _ => within_pure _⟩

theorem loopReads_inside (hc : Fields c) (n i : ℕ) :
    Within (Inside b) (b.loopReads c n i) ↔ ∀ j, i ≤ j → j < i + n → PhdrInside c b j := by
  induction n generalizing i with
  | zero => exact ⟨fun _ j hle hlt => by omega, fun _ => within_pure _⟩
  | succ n ih =>
    unfold Buffer.loopReads
    rw [within_bind, within_bind, segmentReads_inside hc, ih]
    constructor
    · rintro ⟨hi, hrest, -⟩ j hle hlt
      by_cases hj : j = i
      · exact hj ▸ hi
      · exact hrest j (by omega) (by omega)
    · exact fun h => ⟨h i (le_refl i) (by omega), fun j hle hlt => h j (by omega) (by omega), within_pure _⟩

theorem segmentReads_value (i : ℕ) : (b.segmentReads c i).value =
    if (b.phdr c i).type = PT_LOAD then some (b.phdr c i) else none := by
  have hvalue : (b.segmentReads c i).value = if (b.phdr c i).type ≠ PT_LOAD then none else
      if (b.phdr c i).Copied a b.size then some (b.phdr c i) else some (b.phdr c i) := by
    unfold Buffer.segmentReads
    simp only [value_bind, value_ite, value_pure]
    rfl
  rw [hvalue, ite_self, ite_not]

theorem loopReads_value (n i : ℕ) : (b.loopReads c n i).value =
    ((List.range' i n).map (b.phdr c)).filter fun ph => ph.type = PT_LOAD := by
  induction n generalizing i with
  | zero => rfl
  | succ n ih =>
    rw [Buffer.loopReads, List.range'_succ, List.map_cons, List.filter_cons]
    simp only [value_bind, value_pure]
    rw [segmentReads_value, ih]
    by_cases hload : (b.phdr c i).type = PT_LOAD
    · rw [if_pos hload, if_pos (decide_eq_true hload)]
      rfl
    · rw [if_neg hload, if_neg (by simpa using hload)]
      rfl

theorem elfReads_value (hacc : Accepted a c b) : (b.elfReads c).value = b.segments c := by
  rw [Buffer.elfReads, if_pos hacc, loopReads_value, Buffer.segments, List.range_eq_range']

theorem elfReads_inside (hc : Fields c) : Within (Inside b) (b.elfReads c) ↔
    (Accepted a c b → ∀ i < b.field 0 c.phnum, PhdrInside c b i) := by
  unfold Buffer.elfReads
  by_cases hacc : Accepted a c b
  · rw [if_pos hacc, loopReads_inside hc]
    constructor
    · exact fun h _ i hi => h i (Nat.zero_le i) (by omega)
    · exact fun h i _ hi => h hacc i (by omega)
  · rw [if_neg hacc]
    exact ⟨fun _ h => absurd h hacc, fun _ => within_pure _⟩

end

theorem elf_reads_iff (b : Buffer a) :
    (Within (Inside b) (b.elfReads elf64) ↔
      (Accepted a elf64 b → ∀ i < b.field 0 elf64.phnum, PhdrInside elf64 b i)) ∧
    (Within (Inside b) (b.elfReads elf32) ↔
      (Accepted a elf32 b → ∀ i < b.field 0 elf32.phnum, PhdrInside elf32 b i)) :=
  ⟨elfReads_inside elf64_fields, elfReads_inside elf32_fields⟩

def farTable : Buffer .x86_64 :=
  { oneSegment 6 4 with byte := fun i => if i = 39 then 0x80 else oneSegmentByte 6 4 i }

theorem farTable_reads : Accepted .x86_64 elf64 farTable ∧ ¬ Within (Inside farTable) (farTable.elfReads elf64) := by
  have hacc : Accepted .x86_64 elf64 farTable := by decide
  refine ⟨hacc, fun hwithin => ?_⟩
  have hinside := (elfReads_inside elf64_fields).mp hwithin hacc 0 (by decide)
  exact absurd hinside.1 (by decide)

end JurkOS.Kernel.Loader
