import JurkOS.Kernel.Loader.Elf

/-!
A program apart from its encoding: what it means to load it, and that both loaders
do so for a file of their class.
-/

namespace JurkOS.Kernel.Loader

open Lib.Memory Paging Pmm

structure Segment where
  type : ℕ
  flags : ℕ
  vaddr : ℕ
  memsz : ℕ
  content : List UInt8
  vaddr_lt : vaddr < 2 ^ 32
  memsz_lt : memsz < 2 ^ 32
  filesz_lt : content.length < 2 ^ 32
  type_lt : type < 2 ^ 32
  flags_lt : flags < 2 ^ 32

structure Program where
  entry : ℕ
  segments : List Segment
  entry_lt : entry < 2 ^ 32

def Segment.phdr (g : Segment) (offset : ℕ) : Phdr where
  type := g.type
  flags := g.flags
  offset := offset
  vaddr := g.vaddr
  filesz := g.content.length
  memsz := g.memsz

variable {a : Arch}

def Present (b : Buffer a) (g : Segment) (offset : ℕ) : Prop :=
  offset + g.content.length ≤ b.size ∧ ∀ i < g.content.length, b.byteAt (offset + i) = g.content.getD i 0

structure Encodes (c : ElfClass) (b : Buffer a) (program : Program) : Prop where
  accepted : Accepted a c b
  entry : b.field 0 c.entry = program.entry
  phnum : b.field 0 c.phnum = program.segments.length
  phdrs : ∀ i g, program.segments[i]? = some g → ∃ offset, b.phdr c i = g.phdr offset ∧
    (g.type = PT_LOAD → 0 < g.content.length → Present b g offset)

variable {frame : ℕ → ℕ} {cr3 : ℕ}

variable (a frame cr3) in
def Segment.load (g : Segment) (s : State) : State :=
  let ph := g.phdr 0
  let s := { s with
    tables := mapLoop a frame cr3 (ph.startPage (frameMask a)) ph.pageFlags (ph.pagesNeeded a (frameMask a)) 0
      s.tables }
  let s := fill a cr3 g.vaddr (fun i => g.content.getD i 0) g.content.length 0 s
  fill a cr3 (a.wrap (g.vaddr + g.content.length)) (fun _ => 0) (g.memsz - g.content.length) 0 s

variable (a frame cr3) in
def Program.load (program : Program) (s : State) : State :=
  (program.segments.filter fun g => g.type = PT_LOAD).foldl (fun s g => g.load a frame cr3 s) s

theorem fill_congr {dest n i : ℕ} {src src' : ℕ → UInt8} {s : State} (h : ∀ k, i ≤ k → k < i + n → src k = src' k) :
    fill a cr3 dest src n i s = fill a cr3 dest src' n i s := by
  induction n generalizing i s with
  | zero => rfl
  | succ n ih =>
    rw [fill, fill, h i (le_refl i) (by omega)]
    exact ih fun k hk hk' => h k (by omega) (by omega)

theorem copied_iff {b : Buffer a} {g : Segment} {offset : ℕ} (h : 0 < g.content.length → Present b g offset) :
    (g.phdr offset).Copied a b.size ↔ 0 < g.content.length := by
  constructor
  · exact fun hcopied => hcopied.1
  · intro hpos
    have hfits := (h hpos).1
    have hsize := b.size_le
    have hpage : 0 < PAGE_SIZE := by decide
    refine ⟨hpos, ?_⟩
    change a.wrap (offset + g.content.length) ≤ b.size
    rw [Arch.wrap_of_lt (by omega)]
    exact hfits

theorem loadSegment_phdr {b : Buffer a} {g : Segment} {offset : ℕ} (h : 0 < g.content.length → Present b g offset)
    (s : State) : loadSegment a frame cr3 (frameMask a) b (g.phdr offset) s = g.load a frame cr3 s := by
  have hcopy (s : State) : (if (g.phdr offset).Copied a b.size then
        fill a cr3 g.vaddr (fun i => b.byteAt (offset + i)) g.content.length 0 s else s) =
      fill a cr3 g.vaddr (fun i => g.content.getD i 0) g.content.length 0 s := by
    by_cases hpos : 0 < g.content.length
    · rw [if_pos ((copied_iff h).mpr hpos)]
      exact fill_congr fun k _ hk => (h hpos).2 k (by omega)
    · rw [if_neg (mt (copied_iff h).mp hpos), Nat.eq_zero_of_not_pos hpos]
      rfl
  have hclear (s : State) : (if g.content.length < g.memsz then
        fill a cr3 (a.wrap (g.vaddr + g.content.length)) (fun _ => 0) (g.memsz - g.content.length) 0 s else s) =
      fill a cr3 (a.wrap (g.vaddr + g.content.length)) (fun _ => 0) (g.memsz - g.content.length) 0 s := by
    split_ifs with hlt
    · rfl
    · rw [Nat.sub_eq_zero_of_le (Nat.le_of_not_lt hlt)]
      rfl
  simp only [loadSegment, Segment.load]
  rw [← hcopy, ← hclear]
  rfl

theorem segments_load {c : ElfClass} {b : Buffer a} {l : List Segment} {i : ℕ}
    (h : ∀ k g, l[k]? = some g → ∃ offset, b.phdr c (i + k) = g.phdr offset ∧
      (g.type = PT_LOAD → 0 < g.content.length → Present b g offset)) (s : State) :
    phdrLoop a frame cr3 c b l.length i s =
      (l.filter fun g => g.type = PT_LOAD).foldl (fun s g => g.load a frame cr3 s) s := by
  induction l generalizing i s with
  | nil => rfl
  | cons g l ih =>
    obtain ⟨offset, hphdr, hpresent⟩ := h 0 g rfl
    have hrest (s : State) := ih (i := i + 1) (fun k g' hg => by
      rw [Nat.add_assoc, Nat.add_comm 1 k]
      exact h (k + 1) g' hg) s
    have htypes : (g.phdr offset).type = g.type := rfl
    rw [Nat.add_zero] at hphdr
    rw [List.length_cons, phdrLoop, hphdr, hrest, List.filter_cons, htypes]
    by_cases htype : g.type = PT_LOAD
    · rw [if_neg (not_not.mpr htype), if_pos (decide_eq_true htype), List.foldl_cons,
        c.mask_eq, loadSegment_phdr (hpresent htype)]
    · rw [if_pos htype, if_neg (by simpa using htype)]

theorem elfLoad_program {c : ElfClass} {b : Buffer a} {program : Program} (h : Encodes c b program) (s : State) :
    elfLoad a frame cr3 c b s = (some program.entry, program.load a frame cr3 s) := by
  have hentry : program.entry < 2 ^ a.wordBits :=
    program.entry_lt.trans_le (Nat.pow_le_pow_right (by decide) (by cases a <;> decide))
  rw [elfLoad, if_pos h.accepted, h.entry, h.phnum, Arch.wrap_of_lt hentry]
  congr 1
  exact segments_load (fun k g hg => by rw [Nat.zero_add]; exact h.phdrs k g hg) s

theorem elf32_elf64_agree (program : Program) (b₃₂ b₆₄ : Buffer .x86_64) (h₃₂ : Encodes elf32 b₃₂ program)
    (h₆₄ : Encodes elf64 b₆₄ program) (frame : ℕ → ℕ) (cr3 : ℕ) (s : State) :
    elf32Load .x86_64 frame cr3 b₃₂ s = elf64Load .x86_64 frame cr3 b₆₄ s ∧
      (elf32Load .x86_64 frame cr3 b₃₂ s).1 = some program.entry := by
  have hleft : elf32Load .x86_64 frame cr3 b₃₂ s = (some program.entry, program.load .x86_64 frame cr3 s) :=
    elfLoad_program h₃₂ s
  have hright : elf64Load .x86_64 frame cr3 b₆₄ s = (some program.entry, program.load .x86_64 frame cr3 s) :=
    elfLoad_program h₆₄ s
  exact ⟨hleft.trans hright.symm, congrArg Prod.fst hleft⟩

def oneSegment32Byte : ℕ → UInt8
  | 0 => 0x7F
  | 1 => 0x45
  | 2 => 0x4C
  | 3 => 0x46
  | 4 => 1
  | 28 => 52
  | 44 => 1
  | 52 => 1
  | 56 => 120
  | 62 => 0x40
  | 68 => 4
  | 72 => 8
  | 76 => 6
  | 120 => 0xAA
  | _ => 0

def oneSegment32 : Buffer .x86_64 := { oneSegment 6 4 with byte := oneSegment32Byte }

def oneProgram : Program where
  entry := 0
  segments := [⟨1, 6, 0x400000, 8, [0xAA, 0, 0, 0], by decide, by decide, by decide, by decide, by decide⟩]
  entry_lt := by decide

theorem encodes_oneProgram {c : ElfClass} {b : Buffer .x86_64} (haccepted : Accepted .x86_64 c b)
    (hentry : b.field 0 c.entry = 0) (hphnum : b.field 0 c.phnum = 1)
    (hphdr : b.phdr c 0 = ⟨1, 6, 120, 0x400000, 4, 8⟩) (hsize : b.size = 124)
    (hbytes : ∀ i < 4, b.byteAt (120 + i) = [0xAA, 0, 0, 0].getD i 0) : Encodes c b oneProgram where
  accepted := haccepted
  entry := hentry
  phnum := hphnum
  phdrs := by
    intro i g hg
    cases i with
    | succ i => cases hg
    | zero =>
      cases hg
      refine ⟨120, hphdr, fun _ _ => ⟨?_, hbytes⟩⟩
      rw [hsize]
      exact le_refl 124

theorem elf32_elf64_agree_oneProgram :
    (elf32Load .x86_64 (fun n => 0x200000 + n * 0x1000) 0x100000 oneSegment32
      ⟨⟨fun _ => 0, 0x100000, 0⟩, []⟩).1 = some 0 := by
  have h₃₂ : Encodes elf32 oneSegment32 oneProgram :=
    encodes_oneProgram (by decide) (by decide) (by decide) (by decide) rfl (by decide)
  have h₆₄ : Encodes elf64 (oneSegment 6 4) oneProgram :=
    encodes_oneProgram (by decide) (by decide) (by decide) (by decide) rfl (by decide)
  exact (elf32_elf64_agree oneProgram oneSegment32 (oneSegment 6 4) h₃₂ h₆₄ _ _ _).2

end JurkOS.Kernel.Loader
