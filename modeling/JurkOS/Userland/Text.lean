import JurkOS.Lib.Copies
import JurkOS.Userland.Tail
import Mathlib.Data.List.Infix

/-!
`cmd_cat`, `cmd_less`, `cmd_head`, `cmd_grep` and `cmd_wc` of `NoneCompiled/main.c`.
The first four work on what `fgets` leaves in their buffers, `cmd_wc` reads byte by byte.
-/

namespace JurkOS.Userland.Text

open Lib.Libc Lib.Pieces
open Tail (parseArgs)
open Uniq (oneText)

/-! ### `cmd_cat` -/

def catOperand (fopen : Fopen) (file : Str) : Str :=
  match fopen file with
  | .error error => openFailed (bytes "cat") file error
  | .ok s => copied 512 s

/-- What is printed, and what is left of `stdin`. -/
def cmdCat (fopen : Fopen) (stdin : Str) (argv : List Str) : Str × Str :=
  if argv.length < 2 then (copied 256 stdin, []) else ((argv.tail.map (catOperand fopen)).flatten, stdin)

def wholeOperand (fopen : Fopen) (file : Str) : Str :=
  match fopen file with
  | .error error => openFailed (bytes "cat") file error
  | .ok s => s

def concatenation (fopen : Fopen) (stdin : Str) (argv : List Str) : Str :=
  if argv.length < 2 then stdin else (argv.tail.map (wholeOperand fopen)).flatten

def catSources (fopen : Fopen) (stdin : Str) (argv : List Str) : List Str :=
  if argv.length < 2 then [stdin] else argv.tail.filterMap fun file => (fopen file).toOption

theorem length_catOperand_le (fopen : Fopen) (file : Str) :
    (catOperand fopen file).length ≤ (wholeOperand fopen file).length := by
  rw [catOperand, wholeOperand]
  cases fopen file with
  | error error => exact le_refl _
  | ok s => exact length_copied_le (by decide) s

theorem catOperand_eq_iff (fopen : Fopen) (file : Str) :
    catOperand fopen file = wholeOperand fopen file ↔ ∀ s, fopen file = .ok s → 0 ∉ s := by
  rw [catOperand, wholeOperand]
  cases fopen file with
  | error error => simp
  | ok s =>
    have hcopied : copied 512 s = s ↔ 0 ∉ s := copied_eq_iff (by decide)
    simp [hcopied]

theorem cmdCat_concatenates_iff (fopen : Fopen) (stdin : Str) (argv : List Str) :
    (cmdCat fopen stdin argv).1 = concatenation fopen stdin argv ↔ ∀ s ∈ catSources fopen stdin argv, 0 ∉ s := by
  rw [cmdCat, concatenation, catSources]
  split_ifs with hargs
  · rw [List.forall_mem_singleton]
    exact copied_eq_iff (by decide)
  · rw [flatten_map_eq_iff fun file _ => length_catOperand_le fopen file]
    simp only [catOperand_eq_iff, List.mem_filterMap]
    constructor
    · rintro h s ⟨file, hfile, hs⟩
      cases hopen : fopen file with
      | error error =>
        rw [hopen] at hs
        cases hs
      | ok t =>
        rw [hopen] at hs
        obtain rfl := Option.some.inj hs
        exact h file hfile t hopen
    · intro h file hfile s hopen
      exact h s ⟨file, hfile, by rw [hopen]; rfl⟩

/-! ### `cmd_head` -/

def headText (n : ℤ) (s : Str) : Str := ((readLines 512 s).take n.toNat).flatten

def cmdHead (fopen : Fopen) (argv : List Str) : Str :=
  match parseArgs 10 none argv.tail with
  | (_, none) => operandMissing (bytes "head")
  | (n, some file) =>
    match fopen file with
    | .error error => openFailed (bytes "head") file error
    | .ok s => headText n s

def firstLines (n : ℕ) (s : Str) : Str := ((segments s).take n).flatten

variable {n : ℕ} {s : Str}

theorem segments_firstLines (n : ℕ) (s : Str) : segments (firstLines n s) = (segments s).take n := by
  obtain ⟨init, last, rfl, hinit, hlast⟩ := exists_text s
  rw [firstLines, segments_text hinit hlast]
  by_cases hn : n ≤ init.length
  · have htake : ((init.map (· ++ [NEWLINE])) ++ unclosed last).take n = (init.take n).map (· ++ [NEWLINE]) := by
      rw [List.take_append_of_le_length (by rwa [List.length_map]), List.map_take]
    have hinit' : ∀ l ∈ init.take n, NEWLINE ∉ l := fun l hl => hinit l (List.mem_of_mem_take hl)
    have htext : segments (closed (init.take n) ++ []) = _ := segments_text hinit' List.not_mem_nil
    rw [List.append_nil] at htext
    rw [htake]
    exact htext.trans (List.append_nil _)
  · have hone := length_unclosed_le last
    rw [List.take_of_length_le (by rw [List.length_append, List.length_map]; omega), List.flatten_append,
      flatten_unclosed]
    exact segments_text hinit hlast

theorem flatten_take_eq_iff {front back : List Str} (hne : ∀ p ∈ front, p ≠ [])
    (hback : front.length ≤ n → back.take (n - front.length) = []) :
    ((front ++ back).take n).flatten = front.flatten ↔ front.length ≤ n := by
  constructor
  · intro h
    by_contra hlt
    rw [List.take_append_of_le_length (by omega), ← List.take_append_drop n front, List.flatten_append,
      List.take_append_drop] at h
    have hdrop := List.flatten_eq_nil_iff.mp (List.append_cancel_left ((List.append_nil _).trans h)).symm
    have hmem := List.getElem_mem (l := front.drop n) (n := 0) (by rw [List.length_drop]; omega)
    exact hne _ (List.mem_of_mem_drop hmem) (hdrop _ hmem)
  · intro hle
    rw [List.take_append, List.take_of_length_le hle, hback hle, List.append_nil]

theorem headText_eq_iff (hzero : 0 ∉ s) (n : ℤ) :
    headText n s = firstLines n.toNat s ↔ (readLines 512 (firstLines n.toNat s)).length ≤ n.toNat := by
  have hfront : 0 ∉ firstLines n.toNat s := by
    intro hmem
    obtain ⟨l, hl, hc⟩ := List.mem_flatten.mp hmem
    rw [← flatten_segments s] at hzero
    exact hzero (List.mem_flatten_of_mem (List.mem_of_mem_take hl) hc)
  obtain ⟨hcut, hflat⟩ := cut_readLines (n := 511) (by decide) hfront
  have hpieces : readLines 512 s = readLines 512 (firstLines n.toNat s) ++
      ((segments s).drop n.toNat).flatMap (readLines 512) := by
    rw [readLines_segments (by decide) s, readLines_segments (by decide) (firstLines n.toNat s), segments_firstLines,
      ← List.flatMap_append, List.take_append_drop]
  have hlines : (segments (firstLines n.toNat s)).length ≤ (readLines 512 (firstLines n.toNat s)).length :=
    length_segments_le (by decide) hfront
  rw [segments_firstLines, List.length_take] at hlines
  rw [headText, hpieces, ← flatten_take_eq_iff (ne_nil_of_cut hcut), hflat]
  intro hle
  by_cases hshort : (segments s).length ≤ n.toNat
  · rw [List.drop_eq_nil_of_le hshort]
    exact List.take_nil
  · have hnone : n.toNat - (readLines 512 (firstLines n.toNat s)).length = 0 := by omega
    rw [hnone, List.take_zero]

theorem cmdHead_prints_iff {fopen : Fopen} {argv : List Str} {n : ℤ} {file : Str}
    (hargs : parseArgs 10 none argv.tail = (n, some file)) (hfile : fopen file = .ok s) (hzero : 0 ∉ s) :
    cmdHead fopen argv = firstLines n.toNat s ↔ (readLines 512 (firstLines n.toNat s)).length ≤ n.toNat := by
  rw [cmdHead, hargs]
  dsimp only
  rw [hfile]
  exact headText_eq_iff hzero n

theorem cmdHead_prints_one :
    cmdHead (oneText (bytes "a\nb")) [bytes "head", bytes "-n", bytes "1", bytes "f"] =
      firstLines 1 (bytes "a\nb") := by
  have hargs : parseArgs 10 none [bytes "-n", bytes "1", bytes "f"] = (1, some (bytes "f")) := by decide
  have hfile : oneText (bytes "a\nb") (bytes "f") = .ok (bytes "a\nb") := rfl
  have hprints := @cmdHead_prints_iff _ (oneText (bytes "a\nb")) [bytes "head", bytes "-n", bytes "1", bytes "f"] 1 _
    hargs hfile (by decide)
  exact hprints.mpr (by decide)

/-! ### `cmd_grep` -/

def grepText (pattern s : Str) : Str := ((readLines 512 s).filter fun line => (strstr pattern line).isSome).flatten

def cmdGrep (fopen : Fopen) (argv : List Str) : Str :=
  match argv with
  | _ :: pattern :: file :: _ =>
    match fopen file with
    | .error error => openFailed (bytes "grep") file error
    | .ok s => grepText pattern s
  | _ => bytes "grep: usage: grep <pattern> <file>\n"

def matching (pattern s : Str) : Str := ((segments s).filter fun line => decide (pattern <:+: line)).flatten

theorem isSome_strstr_iff {pattern line : Str} : (strstr pattern line).isSome ↔ pattern <:+: line := by
  rw [Option.isSome_iff_ne_none, ne_eq, strstr_eq_none_iff_infix, not_not]

theorem flatten_filter (p : Str → Bool) (ls : List Str) :
    (ls.filter p).flatten = (ls.map fun l => if p l then l else []).flatten := by
  induction ls with
  | nil => rfl
  | cons l ls ih =>
    rw [List.filter_cons, List.map_cons, List.flatten_cons, ← ih]
    split_ifs <;> simp

theorem length_flatten_filter_le (p : Str → Bool) (ls : List Str) :
    (ls.filter p).flatten.length ≤ ls.flatten.length := by
  induction ls with
  | nil => exact le_refl _
  | cons l ls ih =>
    rw [List.filter_cons, List.flatten_cons, List.length_append]
    split_ifs
    · rw [List.flatten_cons, List.length_append]
      exact Nat.add_le_add_left ih _
    · exact ih.trans (Nat.le_add_left _ _)

theorem flatten_filter_eq_iff {p : Str → Bool} {ls : List Str} (hne : ∀ l ∈ ls, l ≠ []) :
    (ls.filter p).flatten = ls.flatten ↔ ∀ l ∈ ls, p l = true := by
  have hle : ∀ l ∈ ls, (if p l then l else []).length ≤ (id l).length := by
    intro l hl
    split_ifs
    · exact le_refl _
    · exact Nat.zero_le _
  have hid : (ls.map id).flatten = ls.flatten := by rw [List.map_id]
  rw [flatten_filter, ← hid, flatten_map_eq_iff hle]
  refine forall₂_congr fun l hl => ?_
  split_ifs with hp
  · simp [hp]
  · simp [hp, hne l hl, eq_comm]

def grepped (pattern line : Str) : Str :=
  ((readLines 512 line).filter fun piece => (strstr pattern piece).isSome).flatten

theorem grepText_eq (pattern s : Str) : grepText pattern s = ((segments s).map (grepped pattern)).flatten := by
  rw [grepText, readLines_segments (by decide) s, List.filter_flatMap, List.flatMap_def, List.flatten_flatten,
    List.map_map]
  rfl

theorem infix_of_mem {ls : List Str} {l : Str} (h : l ∈ ls) : l <:+: ls.flatten := by
  obtain ⟨before, after, rfl⟩ := List.append_of_mem h
  exact ⟨before.flatten, after.flatten, by simp⟩

theorem grepped_eq_iff {pattern line : Str} (hzero : 0 ∉ line) :
    grepped pattern line = line ↔ ∀ piece ∈ readLines 512 line, pattern <:+: piece := by
  obtain ⟨hcut, hflat⟩ := cut_readLines (n := 511) (by decide) hzero
  have hfilter := flatten_filter_eq_iff (p := fun piece => (strstr pattern piece).isSome) (ne_nil_of_cut hcut)
  rw [hflat] at hfilter
  rw [grepped, hfilter]
  simp only [isSome_strstr_iff]

theorem grepped_eq_nil {pattern line : Str} (hzero : 0 ∉ line) (hmatch : ¬pattern <:+: line) :
    grepped pattern line = [] := by
  obtain ⟨-, hflat⟩ := cut_readLines (n := 511) (by decide) hzero
  have hnone : (readLines 512 line).filter (fun piece => (strstr pattern piece).isSome) = [] := by
    rw [List.filter_eq_nil_iff]
    intro piece hpiece hfound
    rw [isSome_strstr_iff] at hfound
    apply hmatch
    rw [← hflat]
    exact hfound.trans (infix_of_mem hpiece)
  rw [grepped, hnone]
  rfl

theorem length_grepped_le {pattern line : Str} (hzero : 0 ∉ line) : (grepped pattern line).length ≤ line.length := by
  obtain ⟨-, hflat⟩ := cut_readLines (n := 511) (by decide) hzero
  exact (length_flatten_filter_le _ _).trans_eq (congrArg List.length hflat)

theorem grepText_eq_iff (pattern : Str) (hzero : 0 ∉ s) : grepText pattern s = matching pattern s ↔
    ∀ line ∈ segments s, pattern <:+: line → ∀ piece ∈ readLines 512 line, pattern <:+: piece := by
  have hline : ∀ line ∈ segments s, 0 ∉ line := by
    intro line hline hmem
    rw [← flatten_segments s] at hzero
    exact hzero (List.mem_flatten_of_mem hline hmem)
  have hle : ∀ line ∈ segments s,
      (grepped pattern line).length ≤ (if decide (pattern <:+: line) then line else []).length := by
    intro line hl
    split_ifs with hmatch
    · exact length_grepped_le (hline line hl)
    · rw [decide_eq_true_eq] at hmatch
      rw [grepped_eq_nil (hline line hl) hmatch]
  rw [grepText_eq, matching, flatten_filter, flatten_map_eq_iff hle]
  refine forall₂_congr fun line hl => ?_
  split_ifs with hmatch
  · rw [decide_eq_true_eq] at hmatch
    rw [grepped_eq_iff (hline line hl)]
    exact ⟨fun h _ => h, fun h => h hmatch⟩
  · rw [decide_eq_true_eq] at hmatch
    rw [grepped_eq_nil (hline line hl) hmatch]
    exact iff_of_true rfl fun h => absurd h hmatch

theorem cmdGrep_prints_iff {fopen : Fopen} {name pattern file : Str} {args : List Str} (hfile : fopen file = .ok s)
    (hzero : 0 ∉ s) : cmdGrep fopen (name :: pattern :: file :: args) = matching pattern s ↔
      ∀ line ∈ segments s, pattern <:+: line → ∀ piece ∈ readLines 512 line, pattern <:+: piece := by
  rw [cmdGrep, hfile]
  exact grepText_eq_iff pattern hzero

theorem cmdGrep_prints_one :
    cmdGrep (oneText (bytes "ab\nc\n")) [bytes "grep", bytes "b", bytes "f"] =
      matching (bytes "b") (bytes "ab\nc\n") := by
  have hfile : oneText (bytes "ab\nc\n") (bytes "f") = .ok (bytes "ab\nc\n") := rfl
  exact (cmdGrep_prints_iff hfile (by decide)).mpr (by decide)

/-! ### `cmd_wc` -/

structure Counts where
  lines : ℕ
  words : ℕ
  bytes : ℕ
  inWord : Bool

def wcStep (w : Counts) (c : UInt8) : Counts :=
  let w := { w with bytes := w.bytes + 1, lines := if c = NEWLINE then w.lines + 1 else w.lines }
  if isSpace c then { w with inWord := false }
  else if ¬w.inWord then { w with inWord := true, words := w.words + 1 }
  else w

def wcText (s : Str) : Counts := s.foldl wcStep ⟨0, 0, 0, false⟩

def column (n : ℕ) : Str :=
  let digits := bytes (toString n)
  List.replicate (7 - digits.length) 0x20 ++ digits

def wcRow (lines words bytes : ℕ) (file : Str) : Str :=
  0x20 :: column lines ++ 0x20 :: column words ++ 0x20 :: column bytes ++ 0x20 :: file ++ [NEWLINE]

def cmdWc (fopen : Fopen) (argv : List Str) : Str :=
  match argv[1]? with
  | none => operandMissing (bytes "wc")
  | some file =>
    match fopen file with
    | .error error => openFailed (bytes "wc") file error
    | .ok s => wcRow (wcText s).lines (wcText s).words (wcText s).bytes file

def words (s : Str) : List Str := (s.splitOnP isSpace).filter (· ≠ [])

theorem wcStep_lines (w : Counts) (c : UInt8) : (wcStep w c).lines = w.lines + if c = NEWLINE then 1 else 0 := by
  unfold wcStep
  dsimp only
  split_ifs <;> rfl

theorem wcStep_bytes (w : Counts) (c : UInt8) : (wcStep w c).bytes = w.bytes + 1 := by
  unfold wcStep
  dsimp only
  split_ifs <;> rfl

theorem foldl_lines (w : Counts) (s : Str) : (s.foldl wcStep w).lines = w.lines + s.count NEWLINE := by
  induction s generalizing w with
  | nil => rfl
  | cons c s ih =>
    rw [List.foldl_cons, ih, wcStep_lines, List.count_cons]
    split_ifs with hc hbeq hbeq
    · omega
    · exact absurd (beq_iff_eq.mpr hc) hbeq
    · exact absurd (beq_iff_eq.mp hbeq) hc
    · omega

theorem foldl_bytes (w : Counts) (s : Str) : (s.foldl wcStep w).bytes = w.bytes + s.length := by
  induction s generalizing w with
  | nil => rfl
  | cons c s ih =>
    rw [List.foldl_cons, ih, wcStep_bytes, List.length_cons]
    omega

def skipWord (s : Str) : Str := s.dropWhile fun c => !isSpace c

theorem words_blank {c : UInt8} (hc : isSpace c = true) (s : Str) : words (c :: s) = words s := by
  rw [words, List.splitOnP_cons_eq_if_modifyHead, if_pos hc]
  rfl

theorem skipWord_blank {c : UInt8} (hc : isSpace c = true) (s : Str) : skipWord (c :: s) = c :: s :=
  List.dropWhile_cons_of_neg (by simp [hc])

theorem skipWord_letter {c : UInt8} (hc : isSpace c = false) (s : Str) : skipWord (c :: s) = skipWord s :=
  List.dropWhile_cons_of_pos (by simp [hc])

theorem splitOnP_skipWord (s : Str) :
    ∃ first rest, s.splitOnP isSpace = first :: rest ∧ words (skipWord s) = rest.filter (· ≠ []) := by
  induction s with
  | nil => exact ⟨[], [], rfl, rfl⟩
  | cons c s ih =>
    obtain ⟨first, rest, hsplit, hwords⟩ := ih
    rw [List.splitOnP_cons_eq_if_modifyHead]
    cases hc : isSpace c with
    | true =>
      rw [skipWord_blank hc, words_blank hc]
      exact ⟨[], s.splitOnP isSpace, rfl, rfl⟩
    | false =>
      rw [skipWord_letter hc, hsplit]
      exact ⟨c :: first, rest, rfl, hwords⟩

theorem length_words_letter {c : UInt8} (hc : isSpace c = false) (s : Str) :
    (words (c :: s)).length = (words (skipWord s)).length + 1 := by
  obtain ⟨first, rest, hsplit, hwords⟩ := splitOnP_skipWord s
  rw [hwords, words, List.splitOnP_cons_eq_if_modifyHead, hc, hsplit, if_neg Bool.false_ne_true, List.modifyHead_cons,
    List.filter_cons_of_pos (by simp), List.length_cons]

-- In a word, what is read up to the next blank belongs to the word that was counted.
theorem foldl_words (w : Counts) (s : Str) : (s.foldl wcStep w).words =
    w.words + if w.inWord then (words (skipWord s)).length else (words s).length := by
  induction s generalizing w with
  | nil => simp [skipWord, words]
  | cons c s ih =>
    rw [List.foldl_cons, ih]
    cases hc : isSpace c with
    | true =>
      have hword : (wcStep w c).inWord = false := by simp [wcStep, hc]
      have hwords : (wcStep w c).words = w.words := by simp [wcStep, hc]
      rw [hword, hwords, skipWord_blank hc, words_blank hc]
      simp
    | false =>
      have hword : (wcStep w c).inWord = true := by
        cases hin : w.inWord with
        | true => simp [wcStep, hc, hin]
        | false => simp [wcStep, hc, hin]
      rw [hword, skipWord_letter hc, length_words_letter hc, if_pos rfl]
      cases hin : w.inWord with
      | true =>
        have hwords : (wcStep w c).words = w.words := by simp [wcStep, hc, hin]
        rw [hwords, if_pos rfl]
      | false =>
        have hwords : (wcStep w c).words = w.words + 1 := by simp [wcStep, hc, hin]
        rw [hwords, if_neg Bool.false_ne_true]
        omega

theorem cmdWc_counts (fopen : Fopen) (argv : List Str) :
    cmdWc fopen argv = operate (bytes "wc")
      (fun s => wcRow (s.count NEWLINE) (words s).length s.length (argv[1]?.getD [])) fopen argv := by
  have hcounts (s : Str) : (wcText s).lines = s.count NEWLINE ∧ (wcText s).words = (words s).length ∧
      (wcText s).bytes = s.length := by
    refine ⟨?_, ?_, ?_⟩
    · exact (foldl_lines _ s).trans (Nat.zero_add _)
    · exact (foldl_words _ s).trans (Nat.zero_add _)
    · exact (foldl_bytes _ s).trans (Nat.zero_add _)
  rw [cmdWc, operate, firstOperand]
  cases argv[1]? with
  | none => rfl
  | some file =>
    cases hfile : fopen file with
    | error error =>
      simp [hfile, Except.mapError]
    | ok s =>
      obtain ⟨hlines, hwords, hbytes⟩ := hcounts s
      simp [hfile, Except.mapError, hlines, hwords, hbytes]

/-! ### `cmd_less` -/

def more : Str := bytes "\x1b[7m-- More (Press Enter to continue, 'q' to quit) --\x1b[0m"

def clear : Str := RETURN :: List.replicate 53 0x20 ++ [RETURN]

def quits (c : UInt8) : Bool := c = 0x71 ∨ c = 0x51

/-- What is printed, and what is left of `stdin`; at its end `getchar` gives nothing. -/
def lessLoop : ℕ → List Str → Str → Str × Str
  | _, [], stdin => ([], stdin)
  | lineCount, line :: lines, stdin =>
    if (lineCount + 1) % 22 = 0 then
      let (out, left) := if stdin.head?.any quits then ([], stdin.tail) else lessLoop (lineCount + 1) lines stdin.tail
      (line ++ more ++ clear ++ out, left)
    else
      let (out, left) := lessLoop (lineCount + 1) lines stdin
      (line ++ out, left)

def cmdLess (fopen : Fopen) (stdin : Str) (argv : List Str) : Str × Str :=
  match argv[1]? with
  | none => (bytes "less: missing filename\n", stdin)
  | some file =>
    match fopen file with
    | .error error => (openFailed (bytes "less") file error, stdin)
    | .ok s => lessLoop 0 (readLines 512 s) stdin

def paged : ℕ → List Str → Str
  | _, [] => []
  | k, l :: ls => l ++ (if (k + 1) % 22 = 0 then more ++ clear else []) ++ paged (k + 1) ls

def prompts (k n : ℕ) : ℕ := (k + n) / 22 - k / 22

def quitAt (k n : ℕ) (stdin : Str) : Option ℕ := (stdin.take (prompts k n)).findIdx? quits

theorem prompts_asked {k : ℕ} (h : (k + 1) % 22 = 0) (n : ℕ) : prompts k (n + 1) = prompts (k + 1) n + 1 := by
  rw [prompts, prompts]
  omega

theorem prompts_silent {k : ℕ} (h : (k + 1) % 22 ≠ 0) (n : ℕ) : prompts k (n + 1) = prompts (k + 1) n := by
  rw [prompts, prompts]
  omega

def lessResult (k : ℕ) (ps : List Str) (stdin : Str) (quit : Option ℕ) : Str × Str :=
  match quit with
  | none => (paged k ps, stdin.drop (prompts k ps.length))
  | some j => (paged k (ps.take (22 * (k / 22 + j + 1) - k)), stdin.drop (j + 1))

theorem lessResult_silent {k : ℕ} (h : (k + 1) % 22 ≠ 0) (l : Str) (ls : List Str) (stdin : Str) (quit : Option ℕ) :
    lessResult k (l :: ls) stdin quit =
      (l ++ (lessResult (k + 1) ls stdin quit).1, (lessResult (k + 1) ls stdin quit).2) := by
  cases quit with
  | none =>
    rw [lessResult, lessResult, List.length_cons, prompts_silent h, paged, if_neg h, List.append_nil]
  | some j =>
    have hcount : 22 * (k / 22 + j + 1) - k = 22 * ((k + 1) / 22 + j + 1) - (k + 1) + 1 := by omega
    rw [lessResult, lessResult, hcount, List.take_succ_cons, paged, if_neg h, List.append_nil]

theorem lessResult_asked {k : ℕ} (h : (k + 1) % 22 = 0) (l : Str) (ls : List Str) (stdin : Str) (quit : Option ℕ) :
    lessResult k (l :: ls) stdin (quit.map (· + 1)) =
      (l ++ more ++ clear ++ (lessResult (k + 1) ls stdin.tail quit).1, (lessResult (k + 1) ls stdin.tail quit).2) := by
  have htail (n : ℕ) : stdin.tail.drop n = stdin.drop (n + 1) := by rw [← List.drop_one, List.drop_drop, Nat.add_comm]
  cases quit with
  | none =>
    rw [Option.map_none, lessResult, lessResult, List.length_cons, prompts_asked h, paged, if_pos h, htail]
    simp
  | some j =>
    have hcount : 22 * (k / 22 + (j + 1) + 1) - k = 22 * ((k + 1) / 22 + j + 1) - (k + 1) + 1 := by omega
    rw [Option.map_some, lessResult, lessResult, hcount, List.take_succ_cons, paged, if_pos h, htail]
    simp

theorem quitAt_asked {k : ℕ} (h : (k + 1) % 22 = 0) (n : ℕ) {stdin : Str} (hquit : stdin.head?.any quits = false) :
    quitAt k (n + 1) stdin = (quitAt (k + 1) n stdin.tail).map (· + 1) := by
  rw [quitAt, quitAt, prompts_asked h]
  cases stdin with
  | nil => simp
  | cons c stdin =>
    have hc : quits c = false := hquit
    rw [List.take_succ_cons, List.findIdx?_cons, hc, if_neg Bool.false_ne_true]
    rfl

theorem lessLoop_eq (k : ℕ) (ps : List Str) (stdin : Str) :
    lessLoop k ps stdin = lessResult k ps stdin (quitAt k ps.length stdin) := by
  induction ps generalizing k stdin with
  | nil =>
    have hnone : prompts k 0 = 0 := by rw [prompts, Nat.add_zero, Nat.sub_self]
    rw [lessLoop, quitAt, List.length_nil, hnone]
    simp [lessResult, hnone, paged]
  | cons l ls ih =>
    rw [lessLoop]
    split_ifs with hasked hquit
    · cases stdin with
      | nil => cases hquit
      | cons c stdin =>
        have hc : quits c = true := hquit
        have hcount : 22 * (k / 22 + 0 + 1) - k = 1 := by omega
        rw [quitAt, List.length_cons, prompts_asked hasked, List.take_succ_cons, List.findIdx?_cons, if_pos hc,
          lessResult, hcount, List.take_succ_cons, List.take_zero, paged, if_pos hasked]
        simp [paged]
    · rw [Bool.not_eq_true] at hquit
      rw [ih, List.length_cons, quitAt_asked hasked ls.length hquit, lessResult_asked hasked]
    · rw [ih, lessResult_silent hasked, quitAt, quitAt, List.length_cons, prompts_silent hasked]

theorem cmdLess_shows {fopen : Fopen} {name file : Str} (hfile : fopen file = .ok s) (stdin : Str) (args : List Str) :
    cmdLess fopen stdin (name :: file :: args) =
      lessResult 0 (readLines 512 s) stdin (quitAt 0 (readLines 512 s).length stdin) := by
  rw [cmdLess, List.getElem?_cons_succ, List.getElem?_cons_zero]
  dsimp only
  rw [hfile]
  exact lessLoop_eq 0 _ stdin

theorem cmdLess_shows_screen :
    cmdLess (oneText (List.replicate 23 NEWLINE)) (bytes "qx") [bytes "less", bytes "f"] =
      (List.replicate 22 NEWLINE ++ more ++ clear, bytes "x") := by
  have hfile : oneText (List.replicate 23 NEWLINE) (bytes "f") = .ok (List.replicate 23 NEWLINE) := rfl
  exact (cmdLess_shows hfile (bytes "qx") []).trans (by decide)

end JurkOS.Userland.Text
