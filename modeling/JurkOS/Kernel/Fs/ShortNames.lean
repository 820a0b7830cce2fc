import JurkOS.Kernel.Fs.Listing
import JurkOS.Lib.Fields

/-!
The names of a FAT32 directory: what `fat32_format_name` makes of the 11 bytes of an
entry keeps names apart that differ in more than the case of their letters.
-/

namespace JurkOS.Kernel.Fs

open Lib.Libc Lib.Memory Lib.Fields

def SPACE : UInt8 := 0x20
def DOT : UInt8 := 0x2E

def IsNameChar (c : UInt8) : Prop := 0x21 ≤ c ∧ c ≤ 0x7E ∧ c ≠ DOT

structure ShortName where
  base : List UInt8
  ext : List UInt8
  nonempty : base ≠ []
  base_length : base.length ≤ 8
  ext_length : ext.length ≤ 3
  base_char : ∀ c ∈ base, IsNameChar c
  ext_char : ∀ c ∈ ext, IsNameChar c

def ShortName.raw (n : ShortName) : List UInt8 := padded SPACE 8 n.base ++ padded SPACE 3 n.ext

instance (c : UInt8) : Decidable (IsNameChar c) := inferInstanceAs (Decidable (_ ∧ _ ∧ _))

def IsUpper (c : UInt8) : Prop := 0x41 ≤ c ∧ c ≤ 0x5A

def SameLetter (c d : UInt8) : Prop := c = d ∨ IsUpper c ∧ d = c + 0x20 ∨ IsUpper d ∧ c = d + 0x20

def SameName (s t : List UInt8) : Prop := List.Forall₂ SameLetter s t

def refilled (name : Name) : List UInt8 := padded SPACE 8 (cut DOT name).1 ++ padded SPACE 3 (cut DOT name).2

variable {c : UInt8} {s t : List UInt8} {n n' : ShortName}

theorem lowercase_eq_iff (c d : UInt8) : lowercase c = lowercase d ↔ SameLetter c d := by
  unfold lowercase SameLetter IsUpper
  simp only [UInt8.le_iff_toNat_le, ← UInt8.toNat_inj]
  split_ifs <;> simp only [UInt8.toNat_add, UInt8.reduceToNat] at * <;> omega

theorem lowercase_lowercase (c : UInt8) : lowercase (lowercase c) = lowercase c := by
  by_cases hc : 0x41 ≤ c ∧ c ≤ 0x5A
  · have hlower : lowercase c = c + 0x20 := if_pos hc
    rw [hlower]
    apply if_neg
    simp only [UInt8.le_iff_toNat_le] at *
    simp only [UInt8.toNat_add, UInt8.reduceToNat] at *
    omega
  · have hlower : lowercase c = c := if_neg hc
    rw [hlower, hlower]

theorem IsNameChar.lowercase (h : IsNameChar c) : IsNameChar (lowercase c) := by
  unfold IsNameChar Fs.lowercase DOT at *
  simp only [UInt8.le_iff_toNat_le, ne_eq, ← UInt8.toNat_inj] at *
  split_ifs <;> simp only [UInt8.toNat_add, UInt8.reduceToNat] at * <;> omega

theorem sameName_iff : SameName s t ↔ s.map lowercase = t.map lowercase := by
  rw [SameName, ← List.forall₂_eq_eq_eq, List.forall₂_map_left_iff, List.forall₂_map_right_iff]
  simp only [lowercase_eq_iff]

theorem notMem_of_nameChars {d : UInt8} (h : ∀ c ∈ s, IsNameChar c) (hd : ¬IsNameChar d) : d ∉ s :=
  fun hmem => hd (h d hmem)

theorem lowercase_chars (h : ∀ c ∈ s, IsNameChar c) : ∀ c ∈ s.map lowercase, IsNameChar c := by
  intro c hc
  obtain ⟨d, hd, rfl⟩ := List.mem_map.mp hc
  exact (h d hd).lowercase

theorem not_space : ¬IsNameChar SPACE := fun h => absurd h.1 (by decide)

theorem not_dot : ¬IsNameChar DOT := fun h => h.2.2 rfl

theorem not_zero : ¬IsNameChar 0 := fun h => absurd h.1 (by decide)

theorem ShortName.take_raw (n : ShortName) : n.raw.take 8 = padded SPACE 8 n.base :=
  List.take_left' (length_padded n.base_length)

theorem ShortName.drop_raw (n : ShortName) : n.raw.drop 8 = padded SPACE 3 n.ext :=
  List.drop_left' (length_padded n.base_length)

theorem ShortName.raw_eight (n : ShortName) : n.raw.getD 8 0 ≠ 0x20 ↔ n.ext ≠ [] := by
  have hget : n.raw.getD 8 0 = (padded SPACE 3 n.ext).getD 0 0 := by
    rw [← n.drop_raw, List.getD_eq_getElem?_getD, List.getD_eq_getElem?_getD, List.getElem?_drop]
  rw [hget]
  cases hext : n.ext with
  | nil => exact iff_of_false (not_not.mpr rfl) (not_not.mpr rfl)
  | cons c ext =>
    have hc : c ≠ 0x20 := by
      rintro rfl
      exact not_space (n.ext_char _ (hext ▸ List.mem_cons_self))
    exact iff_of_true hc (List.cons_ne_nil c ext)

theorem formatName_raw (n : ShortName) :
    fat32FormatName n.raw = joined DOT (n.base.map lowercase) (n.ext.map lowercase) := by
  have hbase : (n.raw.take 8).takeWhile (· ≠ 0x20) = n.base := by
    rw [n.take_raw]
    exact text_padded 8 (notMem_of_nameChars n.base_char not_space)
  have hext : ((n.raw.drop 8).take 3).takeWhile (· ≠ 0x20) = n.ext := by
    rw [n.drop_raw, List.take_of_length_le (length_padded n.ext_length).le]
    exact text_padded 3 (notMem_of_nameChars n.ext_char not_space)
  have hjoined : (if n.raw.getD 8 0 ≠ 0x20 then n.base.map lowercase ++ 0x2E :: n.ext.map lowercase
      else n.base.map lowercase) = joined DOT (n.base.map lowercase) (n.ext.map lowercase) := by
    rw [joined]
    by_cases hnil : n.ext = []
    · have height := mt n.raw_eight.mp (not_not.mpr hnil)
      rw [if_neg height, if_pos (List.map_eq_nil_iff.mpr hnil)]
    · rw [if_pos (n.raw_eight.mpr hnil), if_neg (mt List.map_eq_nil_iff.mp hnil)]
      rfl
  have hzero : 0 ∉ joined DOT (n.base.map lowercase) (n.ext.map lowercase) := by
    have hb := notMem_of_nameChars (lowercase_chars n.base_char) not_zero
    have he := notMem_of_nameChars (lowercase_chars n.ext_char) not_zero
    rw [joined]
    split_ifs
    · exact hb
    · rw [List.mem_append, List.mem_cons, not_or, not_or]
      exact ⟨hb, by decide, he⟩
  unfold fat32FormatName
  rw [hbase, hext]
  exact (congrArg cstr hjoined).trans (cstr_of_notMem hzero)

theorem dot_notMem_base (n : ShortName) : DOT ∉ n.base.map lowercase :=
  notMem_of_nameChars (lowercase_chars n.base_char) not_dot

theorem space_notMem (h : ∀ c ∈ s, IsNameChar c) : SPACE ∉ s.map lowercase :=
  notMem_of_nameChars (lowercase_chars h) not_space

theorem raw_lowercase (n : ShortName) :
    n.raw.map lowercase = padded SPACE 8 (n.base.map lowercase) ++ padded SPACE 3 (n.ext.map lowercase) := by
  have hspace : lowercase SPACE = SPACE := rfl
  rw [ShortName.raw, List.map_append, map_padded, map_padded, hspace]

theorem raw_lowercase_inj : n.raw.map lowercase = n'.raw.map lowercase ↔
    n.base.map lowercase = n'.base.map lowercase ∧ n.ext.map lowercase = n'.ext.map lowercase := by
  have hbase {n : ShortName} : (padded SPACE 8 (n.base.map lowercase)).length = 8 :=
    length_padded (by rw [List.length_map]; exact n.base_length)
  rw [raw_lowercase, raw_lowercase]
  constructor
  · intro h
    obtain ⟨hb, he⟩ := List.append_inj h (hbase.trans hbase.symm)
    exact ⟨(padded_inj (space_notMem n.base_char) (space_notMem n'.base_char)).mp hb,
      (padded_inj (space_notMem n.ext_char) (space_notMem n'.ext_char)).mp he⟩
  · rintro ⟨hb, he⟩
    rw [hb, he]

theorem formatName_eq_iff : fat32FormatName n.raw = fat32FormatName n'.raw ↔ SameName n.raw n'.raw := by
  rw [formatName_raw, formatName_raw, joined_inj (dot_notMem_base n) (dot_notMem_base n'), sameName_iff,
    raw_lowercase_inj]

theorem refilled_formatName (n : ShortName) : refilled (fat32FormatName n.raw) = n.raw.map lowercase := by
  rw [formatName_raw, refilled, cut_joined (dot_notMem_base n), raw_lowercase]

theorem formatName_distinguishes (n n' : ShortName) :
    (fat32FormatName n.raw = fat32FormatName n'.raw ↔ SameName n.raw n'.raw) ∧
      (fat32FormatName n.raw).length ≤ 12 ∧ SameName (refilled (fat32FormatName n.raw)) n.raw := by
  refine ⟨formatName_eq_iff, ?_, ?_⟩
  · have hlen := length_joined_le DOT (n.base.map lowercase) (n.ext.map lowercase)
    have := n.base_length
    have := n.ext_length
    rw [List.length_map, List.length_map] at hlen
    rw [formatName_raw]
    omega
  · rw [sameName_iff, refilled_formatName, List.map_map]
    apply List.map_congr_left
    intro c _
    exact lowercase_lowercase c

def readme : ShortName where
  base := bytes "README"
  ext := bytes "TXT"
  nonempty := by decide
  base_length := by decide
  ext_length := by decide
  base_char := by decide +kernel
  ext_char := by decide +kernel

example : fat32FormatName readme.raw = bytes "readme.txt" := by decide

section Directory

variable {m : Mem} {fs : Fat32Fs} {names : ℕ → ShortName} {chain : List ℕ} {fuel first e e' : ℕ}

theorem formatName_head (n : ShortName) : (fat32FormatName n.raw).head? ≠ some 0x2E := by
  rw [formatName_raw, joined]
  cases hbase : n.base with
  | nil => exact absurd hbase n.nonempty
  | cons c base =>
    have hc : lowercase c ≠ DOT := by
      intro h
      exact not_dot (h ▸ (n.base_char c (hbase ▸ List.mem_cons_self)).lowercase)
    split_ifs
    · exact fun h => hc (Option.some.inj h)
    · exact fun h => hc (Option.some.inj h)

theorem isNamed_iff (he : bytesAt m e 11 = n.raw) :
    IsNamed m (fat32FormatName n'.raw) e = true ↔ SameName n.raw n'.raw := by
  rw [IsNamed, decide_eq_true_iff, he]
  exact formatName_eq_iff

theorem finddirLoop_formatName (h : DirChain m fs chain first) (hfuel : chain.length < fuel)
    (hnames : ∀ e ∈ listed m (slots fs chain), bytesAt m e 11 = (names e).raw)
    (hdistinct : (listed m (slots fs chain)).Pairwise fun e e' => ¬SameName (names e).raw (names e').raw)
    (he : e ∈ listed m (slots fs chain)) :
    finddirLoop m fs (fat32FormatName (names e).raw) fuel first = some (some e) := by
  rw [finddirLoop_listed (formatName_head (names e)) h hfuel]
  apply congrArg some
  obtain ⟨before, after, hsplit⟩ := List.append_of_mem he
  rw [hsplit, List.pairwise_append] at hdistinct
  rw [List.find?_eq_some_iff_append]
  refine ⟨(isNamed_iff (hnames e he)).mpr (sameName_iff.mpr rfl), before, after, hsplit, fun e' he' => ?_⟩
  have hmem : e' ∈ listed m (slots fs chain) := by
    rw [hsplit]
    exact List.mem_append_left _ he'
  rw [Bool.not_eq_true', ← Bool.not_eq_true, isNamed_iff (hnames e' hmem)]
  exact hdistinct.2.2 e' he' e List.mem_cons_self

end Directory

end JurkOS.Kernel.Fs
