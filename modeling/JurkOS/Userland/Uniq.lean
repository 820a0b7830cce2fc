import Mathlib.Data.List.Destutter
import JurkOS.Lib.Pieces

/-!
`cmd_uniq` of `NoneCompiled/main.c`: it compares what `fgets` leaves in a buffer of
512 bytes, a line or a piece of a longer one.
-/

namespace JurkOS.Userland

open Lib.Libc Lib.Pieces

/-- What a file holds, or the text of the error of `fopen`. -/
abbrev Fopen := Str → Except Str Str

def operandMissing (name : Str) : Str := name ++ bytes ": missing file operand\n"

def openFailed (name file error : Str) : Str := name ++ bytes ": " ++ file ++ bytes ": " ++ error ++ [NEWLINE]

def firstOperand (name : Str) (fopen : Fopen) (argv : List Str) : Except Str Str :=
  match argv[1]? with
  | none => .error (operandMissing name)
  | some file => (fopen file).mapError (openFailed name file)

def operate (name : Str) (work : Str → Str) (fopen : Fopen) (argv : List Str) : Str :=
  match firstOperand name fopen argv with
  | .error message => message
  | .ok s => work s

namespace Uniq

def uniqLoop : Str → List Str → Str
  | _, [] => []
  | prev, curr :: rest => if strcmp curr prev ≠ 0 then curr ++ uniqLoop curr rest else uniqLoop prev rest

def cmdUniq : Fopen → List Str → Str := operate (bytes "uniq") fun s => uniqLoop [] (readLines 512 s)

def Unrepeated (out s : Str) : Prop := lines out = (lines s).destutter (· ≠ ·)

def Varied (l : Str) : Prop := (blocks 511 l).IsChain (· ≠ ·)

def Fits (l l' : Str) : Prop := if 511 ≤ l'.length then l' ≠ l else 511 ≤ l.length → l' ≠ rest 511 l

/-- From the line `l` on, each line behind it fits, and an unterminated one is no repeat; or the text ends with
what is left of a long line, as lines of their own of which the last one is unterminated. -/
def Follows (l : Str) : List Str → Str → Prop
  | [], last => Varied last ∧ (last = [] ∨ last ≠ l)
  | l' :: ls, last => Fits l l' ∧ Varied l' ∧ Follows l' ls last ∨
      511 ≤ l.length ∧ l' = rest 511 l ∧ l' ≠ [] ∧ (∀ x ∈ ls, x = l') ∧ last = l'

def Distinct : List Str → Str → Prop
  | [], last => Varied last
  | l :: ls, last => Varied l ∧ Follows l ls last

variable {l l' b last prev : Str} {ls ps init : List Str}

/-! ### Pieces -/

theorem uniqLoop_cons (hcurr : 0 ∉ b) (hprev : 0 ∉ prev) (ps : List Str) :
    uniqLoop prev (b :: ps) = (if b = prev then [] else b) ++ uniqLoop b ps := by
  have hzero := strcmp_eq_zero hcurr hprev
  by_cases h : b = prev
  · rw [uniqLoop, if_neg (not_not.mpr (hzero.mpr h)), if_pos h, h]
    rfl
  · rw [uniqLoop, if_pos (mt hzero.mp h), if_neg h]

theorem uniqLoop_append (hps : ∀ p ∈ ps, 0 ∉ p) (hprev : 0 ∉ prev) (qs : List Str) :
    uniqLoop prev (ps ++ qs) = uniqLoop prev ps ++ uniqLoop (ps.getLast?.getD prev) qs := by
  induction ps generalizing prev with
  | nil => rfl
  | cons p ps ih =>
    rw [List.forall_mem_cons] at hps
    rw [List.cons_append, uniqLoop_cons hps.1 hprev, uniqLoop_cons hps.1 hprev, ih hps.2 hps.1, List.append_assoc,
      List.getLast?_cons, Option.getD_some]

def shrunk (l : Str) : Str := uniqLoop [] (blocks 511 l) ++ rest 511 l

theorem shrunk_short (h : l.length < 511) : shrunk l = l := by
  rw [shrunk, blocks_of_lt h, rest_of_lt h]
  rfl

-- A block is not empty, so the first one is printed.
theorem uniqLoop_blocks (hps : ∀ p ∈ ps, 0 ∉ p) (hprev : 0 ∉ prev) (hhead : ∀ p ∈ ps.head?, p ≠ [] ∧ p ≠ prev) :
    uniqLoop prev ps = uniqLoop [] ps := by
  cases ps with
  | nil => rfl
  | cons p ps =>
    rw [List.forall_mem_cons] at hps
    have hp := hhead p rfl
    rw [uniqLoop_cons hps.1 hprev, uniqLoop_cons hps.1 List.not_mem_nil, if_neg hp.1, if_neg hp.2]

theorem length_uniqLoop_le (hps : ∀ p ∈ ps, 0 ∉ p) (hprev : 0 ∉ prev) :
    (uniqLoop prev ps).length ≤ ps.flatten.length := by
  induction ps generalizing prev with
  | nil => exact le_refl _
  | cons p ps ih =>
    rw [List.forall_mem_cons] at hps
    rw [uniqLoop_cons hps.1 hprev, List.length_append, List.flatten_cons, List.length_append]
    have := ih hps.2 hps.1
    split_ifs
    · rw [List.length_nil]
      omega
    · omega

theorem uniqLoop_eq_flatten_iff (hps : ∀ p ∈ ps, 0 ∉ p ∧ p ≠ []) (hprev : 0 ∉ prev) :
    uniqLoop prev ps = ps.flatten ↔ (prev :: ps).IsChain (· ≠ ·) := by
  induction ps generalizing prev with
  | nil => simp [uniqLoop]
  | cons p ps ih =>
    rw [List.forall_mem_cons] at hps
    rw [uniqLoop_cons hps.1.1 hprev, List.flatten_cons, List.isChain_cons_cons, ← ih hps.2 hps.1.1]
    by_cases h : p = prev
    · rw [if_pos h]
      apply iff_of_false
      · intro he
        have hlen := length_uniqLoop_le (fun q hq => (hps.2 q hq).1) hps.1.1
        have hpos := List.length_pos_iff.mpr hps.1.2
        rw [List.nil_append] at he
        rw [he, List.length_append] at hlen
        omega
      · exact fun hne => hne.1 h.symm
    · rw [if_neg h, List.append_right_inj, and_iff_right (Ne.symm h)]

theorem blocks_plain (h : 0 ∉ l) : ∀ p ∈ blocks 511 l, 0 ∉ p ∧ p ≠ [] := by
  intro p hp
  refine ⟨fun hc => h (mem_of_mem_blocks (by decide) hp hc), ?_⟩
  rintro rfl
  exact absurd (length_of_mem_blocks (by decide) hp) (by decide)

theorem shrunk_eq_iff (h : 0 ∉ l) : shrunk l = l ↔ Varied l := by
  have hplain := blocks_plain h
  have hflat := flatten_blocks (n := 511) (by decide) l
  calc shrunk l = l ↔ shrunk l = (blocks 511 l).flatten ++ rest 511 l := by rw [hflat]
    _ ↔ uniqLoop [] (blocks 511 l) = (blocks 511 l).flatten := List.append_left_inj _
    _ ↔ ([] :: blocks 511 l).IsChain (· ≠ ·) := uniqLoop_eq_flatten_iff hplain List.not_mem_nil
    _ ↔ Varied l := by
      rw [List.isChain_cons, Varied, and_iff_right]
      exact fun p hp => Ne.symm (hplain p (List.mem_of_mem_head? hp)).2

theorem exists_block (h : 511 ≤ l.length) : ∃ b t, l = b ++ t ∧ b.length = 511 :=
  ⟨l.take 511, l.drop 511, (List.take_append_drop 511 l).symm, by rw [List.length_take]; omega⟩

theorem length_shrunk (hzero : 0 ∉ l) (h : 511 ≤ l.length) : 511 ≤ (shrunk l).length := by
  obtain ⟨b, t, rfl, hb⟩ := exists_block h
  rw [List.mem_append, not_or] at hzero
  rw [shrunk, blocks_append (by decide) hb, uniqLoop_cons hzero.1 List.not_mem_nil, if_neg (by rintro rfl; cases hb)]
  simp only [List.length_append]
  omega

theorem shrunk_eq_nil_iff (hzero : 0 ∉ l) : shrunk l = [] ↔ l = [] := by
  by_cases h : 511 ≤ l.length
  · have hlen := length_shrunk hzero h
    apply iff_of_false
    · intro he
      rw [he] at hlen
      cases hlen
    · rintro rfl
      cases h
  · rw [shrunk_short (Nat.not_le.mp h)]

/-! ### Lines -/

theorem uniqLoop_long (hline : NEWLINE ∉ l) (hzero : 0 ∉ l) (hprev : 0 ∉ prev)
    (hend : prev ≠ [] → NEWLINE ∈ prev) : uniqLoop prev (blocks 511 l) = uniqLoop [] (blocks 511 l) := by
  apply uniqLoop_blocks (fun p hp => (blocks_plain hzero p hp).1) hprev
  intro p hp
  have hmem := List.mem_of_mem_head? hp
  have hne := (blocks_plain hzero p hmem).2
  exact ⟨hne, fun he => hline (mem_of_mem_blocks (by decide) hmem (he ▸ hend (he ▸ hne)))⟩

theorem uniqLoop_closing (h : 511 ≤ l.length) (hline : NEWLINE ∉ l) (hzero : 0 ∉ l) (hprev : 0 ∉ prev)
    (hend : prev ≠ [] → NEWLINE ∈ prev) (hb : 0 ∉ b) (hnew : b ∉ blocks 511 l) (ps : List Str) :
    uniqLoop prev (blocks 511 l ++ b :: ps) = uniqLoop [] (blocks 511 l) ++ b ++ uniqLoop b ps := by
  have hplain := blocks_plain hzero
  have hne : blocks 511 l ≠ [] := by
    obtain ⟨c, t, rfl, hc⟩ := exists_block h
    rw [blocks_append (by decide) hc]
    exact List.cons_ne_nil _ _
  have hmem := List.getLast_mem hne
  have hdiff : b ≠ (blocks 511 l).getLast hne := by
    rintro rfl
    exact hnew hmem
  rw [uniqLoop_append (fun p hp => (hplain p hp).1) hprev, uniqLoop_long hline hzero hprev hend,
    List.getLast?_eq_getLast_of_ne_nil hne, Option.getD_some, uniqLoop_cons hb (hplain _ hmem).1,
    if_neg hdiff, List.append_assoc]

theorem zero_notMem_closing (hzero : 0 ∉ l) : 0 ∉ rest 511 l ++ [NEWLINE] := by
  rw [List.mem_append, not_or]
  exact ⟨fun h => hzero (mem_of_mem_rest h), by decide⟩

theorem uniqLoop_closed (hline : NEWLINE ∉ l) (hzero : 0 ∉ l) (hprev : 0 ∉ prev) (hend : prev ≠ [] → NEWLINE ∈ prev)
    (v : Str) : uniqLoop prev (readLines 512 (l ++ NEWLINE :: v)) =
      (if l.length < 511 ∧ l ++ [NEWLINE] = prev then [] else shrunk l ++ [NEWLINE]) ++
        uniqLoop (rest 511 l ++ [NEWLINE]) (readLines 512 v) := by
  have hclosing := zero_notMem_closing hzero
  rw [readLines_closed (by decide) hline hzero]
  by_cases hlt : l.length < 511
  · rw [rest_of_lt hlt] at hclosing ⊢
    rw [blocks_of_lt hlt, List.nil_append, uniqLoop_cons hclosing hprev, shrunk_short hlt]
    simp only [hlt, true_and]
  · rw [uniqLoop_closing (Nat.not_lt.mp hlt) hline hzero hprev hend hclosing, if_neg (fun h => hlt h.1), shrunk]
    · simp only [List.append_assoc]
    · exact fun hmem => hline (mem_of_mem_blocks (by decide) hmem (by simp))

theorem uniqLoop_unclosed (hline : NEWLINE ∉ l) (hzero : 0 ∉ l) (hprev : 0 ∉ prev) (hend : prev ≠ [] → NEWLINE ∈ prev) :
    uniqLoop prev (readLines 512 l) = shrunk l := by
  have hrest : 0 ∉ rest 511 l := fun h => hzero (mem_of_mem_rest h)
  rw [readLines_unclosed (by decide) hline hzero, unclosed, shrunk]
  by_cases hlt : l.length < 511
  · rw [blocks_of_lt hlt, rest_of_lt hlt]
    split_ifs with hnil
    · rw [hnil]
      rfl
    · have hne : l ≠ prev := fun he => hline (he ▸ hend (he ▸ hnil))
      rw [List.nil_append, uniqLoop_cons hzero hprev, if_neg hne]
      simp [uniqLoop]
  · rw [Nat.not_lt] at hlt
    split_ifs with hnil
    · rw [hnil, List.append_nil, List.append_nil, uniqLoop_long hline hzero hprev hend]
    · rw [uniqLoop_closing hlt hline hzero hprev hend hrest, uniqLoop, List.append_nil]
      intro hmem
      have hlen := length_of_mem_blocks (by decide) hmem
      have := length_rest_lt (n := 511) (by decide) l
      omega

def printed (l : Str) : List Str → List Str
  | [] => []
  | l' :: ls => if l'.length < 511 ∧ l' = rest 511 l then printed l' ls else shrunk l' :: printed l' ls

def Texts (ls : List Str) : Prop := ∀ l ∈ ls, NEWLINE ∉ l ∧ 0 ∉ l

theorem uniqLoop_text (hl : 0 ∉ l) (hls : Texts ls) (hlast : NEWLINE ∉ last ∧ 0 ∉ last) :
    uniqLoop (rest 511 l ++ [NEWLINE]) (readLines 512 (closed ls ++ last)) = closed (printed l ls) ++ shrunk last := by
  induction ls generalizing l with
  | nil =>
    exact uniqLoop_unclosed hlast.1 hlast.2 (zero_notMem_closing hl) (by simp)
  | cons l' ls ih =>
    obtain ⟨hl', hls⟩ := List.forall_mem_cons.mp hls
    rw [closed_cons, List.append_assoc, List.cons_append,
      uniqLoop_closed hl'.1 hl'.2 (zero_notMem_closing hl) (by simp),
      ih hl'.2 hls, printed]
    simp only [List.append_left_inj]
    split_ifs
    · rfl
    · rw [closed_cons]
      simp only [List.append_assoc, List.cons_append, List.nil_append]

/-! ### Repeats -/

def fresh (l : Str) : List Str → List Str
  | [] => []
  | l' :: ls => if l' = l then fresh l ls else l' :: fresh l' ls

theorem destutter_cons (l : Str) (ls : List Str) : (l :: ls).destutter (· ≠ ·) = l :: fresh l ls := by
  induction ls generalizing l with
  | nil => rfl
  | cons l' ls ih =>
    rw [List.destutter_cons_cons, fresh]
    by_cases h : l' = l
    · rw [if_neg (not_not.mpr h.symm), if_pos h]
      exact ih l
    · rw [if_pos (Ne.symm h), if_neg h]
      exact congrArg (l :: ·) (ih l')

theorem fresh_sublist (l : Str) (ls : List Str) : (fresh l ls).Sublist ls := by
  induction ls generalizing l with
  | nil => exact .slnil
  | cons l' ls ih =>
    rw [fresh]
    split_ifs
    · exact (ih l).cons l'
    · exact (ih l').cons_cons l'

def IsLong (l : Str) : Bool := 511 ≤ l.length

theorem isLong_shrunk (hzero : 0 ∉ l) : IsLong (shrunk l) = IsLong l := by
  by_cases h : 511 ≤ l.length
  · rw [IsLong, IsLong, decide_eq_true h, decide_eq_true (length_shrunk hzero h)]
  · rw [shrunk_short (Nat.not_le.mp h)]

theorem countP_printed (hls : Texts ls) (l : Str) : (printed l ls).countP IsLong = ls.countP IsLong := by
  induction ls generalizing l with
  | nil => rfl
  | cons l' ls ih =>
    obtain ⟨hl', hls⟩ := List.forall_mem_cons.mp hls
    rw [printed]
    split_ifs with h
    · have hshort : ¬IsLong l' = true := by
        rw [IsLong, decide_eq_true_iff]
        omega
      rw [ih hls, List.countP_cons_of_neg hshort]
    · rw [List.countP_cons, List.countP_cons, ih hls, isLong_shrunk hl'.2]

theorem countP_unclosed (hlast : 0 ∉ last) :
    (unclosed (shrunk last)).countP IsLong = (unclosed last).countP IsLong := by
  simp only [unclosed, shrunk_eq_nil_iff hlast]
  split_ifs
  · rfl
  · rw [List.countP_singleton, List.countP_singleton, isLong_shrunk hlast]

theorem printed_ne_fresh (hls : Texts ls) (hlast : 0 ∉ last) (hl : 0 ∉ l) (hlong : 511 ≤ l.length) (l' : Str) :
    shrunk l :: (printed l ls ++ unclosed (shrunk last)) ≠ fresh l' (ls ++ unclosed last) := by
  intro he
  have hcount := (fresh_sublist l' (ls ++ unclosed last)).countP_le (p := IsLong)
  have hhead : IsLong (shrunk l) = true := by rw [isLong_shrunk hl, IsLong, decide_eq_true hlong]
  rw [← he, List.countP_cons_of_pos hhead, List.countP_append, List.countP_append, countP_printed hls,
    countP_unclosed hlast] at hcount
  omega

theorem printed_eq_cons_fresh_iff (hls : Texts ls) (hshort : l.length < 511) :
    printed l ls ++ unclosed (shrunk last) = l :: fresh l (ls ++ unclosed last) ↔
      l ≠ [] ∧ (∀ x ∈ ls, x = l) ∧ last = l := by
  have hshrunk := shrunk_short hshort
  induction ls with
  | nil =>
    by_cases hlast : last = l
    · rw [hlast, hshrunk]
      by_cases hnil : l = []
      · simp [hnil, unclosed, printed]
      · simp [hnil, unclosed, printed, fresh]
    · apply iff_of_false
      · intro he
        have hlen := congrArg List.length he
        by_cases hnil : last = []
        · rw [hnil, shrunk_short (by decide)] at hlen
          cases hlen
        · simp only [printed, unclosed, if_neg hnil, fresh, if_neg hlast, List.nil_append, List.length_cons,
            List.length_nil] at hlen
          split_ifs at hlen
          cases hlen
      · exact fun h => hlast h.2.2
  | cons x ls ih =>
    obtain ⟨hx, hls⟩ := List.forall_mem_cons.mp hls
    rw [printed, List.cons_append, fresh, rest_of_lt hshort, List.forall_mem_cons]
    by_cases hxl : x = l
    · rw [hxl, if_pos ⟨hshort, rfl⟩, if_pos rfl, and_iff_right rfl]
      exact ih hls
    · rw [if_neg (fun h => hxl h.2), if_neg hxl]
      apply iff_of_false
      · intro he
        have hhead : shrunk x = l := (List.cons.inj he).1
        by_cases hlong : 511 ≤ x.length
        · have := length_shrunk hx.2 hlong
          rw [hhead] at this
          omega
        · rw [shrunk_short (Nat.not_le.mp hlong)] at hhead
          exact hxl hhead
      · exact fun h => hxl h.2.1.1

theorem shrunk_unclosed_eq_iff (hlast : 0 ∉ last) (l : Str) :
    unclosed (shrunk last) = fresh l (unclosed last) ↔ Varied last ∧ (last = [] ∨ last ≠ l) := by
  rw [← shrunk_eq_iff hlast]
  by_cases hnil : last = []
  · simp [hnil, unclosed, fresh, shrunk_short]
  · rw [unclosed, if_neg (mt (shrunk_eq_nil_iff hlast).mp hnil), unclosed, if_neg hnil, fresh, or_iff_right hnil]
    by_cases h : last = l
    · simp [h, fresh]
    · simp [h, fresh]

-- By induction on the lines; a line that is printed although it is a repeat, or lost, decides the case.
theorem printed_eq_fresh_iff (hls : Texts ls) (hlast : 0 ∉ last) :
    printed l ls ++ unclosed (shrunk last) = fresh l (ls ++ unclosed last) ↔ Follows l ls last := by
  induction ls generalizing l with
  | nil => exact shrunk_unclosed_eq_iff hlast l
  | cons l' ls ih =>
    obtain ⟨hl', hls⟩ := List.forall_mem_cons.mp hls
    have hvaried := shrunk_eq_iff hl'.2
    rw [printed, Follows, List.cons_append, fresh, Fits]
    by_cases hlong : 511 ≤ l'.length
    · have hne : l' ≠ rest 511 l := by
        rintro rfl
        exact absurd (length_rest_lt (n := 511) (by decide) l) (Nat.not_lt.mpr hlong)
      rw [if_neg (by omega), if_pos hlong]
      by_cases heq : l' = l
      · rw [if_pos heq]
        apply iff_of_false
        · exact printed_ne_fresh hls hlast hl'.2 hlong l
        · rintro (⟨h, -⟩ | ⟨-, h, -⟩)
          · exact h heq
          · exact hne h
      · rw [if_neg heq, List.cons_append, List.cons.injEq, hvaried, ih hls]
        simp [heq, hne]
    · rw [if_neg hlong]
      rw [Nat.not_le] at hlong
      by_cases hlost : l' = rest 511 l
      · rw [if_pos ⟨hlong, hlost⟩]
        by_cases hshort : l.length < 511
        · rw [rest_of_lt hshort] at hlost
          have hvaried' : Varied l' := hvaried.mp (shrunk_short hlong)
          obtain rfl := hlost
          rw [if_pos rfl, ih hls]
          have hnot : ¬511 ≤ l'.length := Nat.not_le.mpr hshort
          simp [hnot, hvaried']
        · have heq : l' ≠ l := by
            rintro rfl
            exact hshort hlong
          rw [if_neg heq, printed_eq_cons_fresh_iff hls hlong]
          rw [Nat.not_lt] at hshort
          simp [hshort, ← hlost]
      · have heq : l' ≠ l := by
          rintro rfl
          exact hlost (rest_of_lt hlong).symm
        rw [if_neg (fun h => hlost h.2), if_neg heq, List.cons_append, List.cons.injEq, hvaried, ih hls]
        simp [hlost]

/-! ### The whole file -/

theorem splitOn_eq_iff {s : Str} : s.splitOn NEWLINE = init ++ [last] ↔
    s = closed init ++ last ∧ (∀ l ∈ init, NEWLINE ∉ l) ∧ NEWLINE ∉ last := by
  constructor
  · intro h
    obtain ⟨init', last', rfl, hinit, hlast⟩ := exists_text s
    rw [splitOn_text hinit hlast] at h
    obtain ⟨rfl, hsingle⟩ := List.append_inj' h rfl
    obtain rfl := List.singleton_inj.mp hsingle
    exact ⟨rfl, hinit, hlast⟩
  · rintro ⟨rfl, hinit, hlast⟩
    exact splitOn_text hinit hlast

theorem mem_uniqLoop {c : UInt8} (h : c ∈ uniqLoop prev ps) : c ∈ ps.flatten := by
  induction ps generalizing prev with
  | nil => exact h
  | cons p ps ih =>
    rw [uniqLoop] at h
    rw [List.flatten_cons, List.mem_append]
    split_ifs at h
    · exact (List.mem_append.mp h).imp id ih
    · exact .inr (ih h)

theorem newline_notMem_shrunk (hline : NEWLINE ∉ l) : NEWLINE ∉ shrunk l := by
  intro h
  rw [← flatten_blocks (n := 511) (by decide) l] at hline
  exact hline (List.mem_append.mpr ((List.mem_append.mp h).imp mem_uniqLoop id))

theorem newline_notMem_printed (hls : ∀ x ∈ ls, NEWLINE ∉ x) (l : Str) : ∀ x ∈ printed l ls, NEWLINE ∉ x := by
  induction ls generalizing l with
  | nil => exact fun x hx => absurd hx List.not_mem_nil
  | cons l' ls ih =>
    rw [List.forall_mem_cons] at hls
    rw [printed]
    split_ifs
    · exact ih hls.2 l'
    · rw [List.forall_mem_cons]
      exact ⟨newline_notMem_shrunk hls.1, ih hls.2 l'⟩

theorem zero_notMem_of_closed (hzero : 0 ∉ closed init ++ last) : (∀ l ∈ init, 0 ∉ l) ∧ 0 ∉ last := by
  rw [List.mem_append, not_or] at hzero
  refine ⟨fun l hl h => hzero.1 ?_, hzero.2⟩
  exact List.mem_flatten_of_mem (List.mem_map_of_mem hl) (List.mem_append_left _ h)

theorem uniqLoop_unrepeated_iff {s : Str} (hs : s.splitOn NEWLINE = init ++ [last]) (hzero : 0 ∉ s) :
    Unrepeated (uniqLoop [] (readLines 512 s)) s ↔ Distinct init last := by
  obtain ⟨rfl, hinit, hlast⟩ := splitOn_eq_iff.mp hs
  obtain ⟨hzeros, hend⟩ := zero_notMem_of_closed hzero
  have hunclosed := newline_notMem_shrunk hlast
  rw [Unrepeated, lines_text hinit hlast]
  cases init with
  | nil =>
    have hout : uniqLoop [] (readLines 512 (closed [] ++ last)) = closed [] ++ shrunk last :=
      uniqLoop_unclosed hlast hend List.not_mem_nil fun h => absurd rfl h
    have hone : (unclosed last).destutter (· ≠ ·) = unclosed last := by
      rw [unclosed]
      split_ifs <;> rfl
    rw [hout, lines_text hinit hunclosed, List.nil_append, List.nil_append, hone, Distinct, ← shrunk_eq_iff hend]
    by_cases hnil : last = []
    · simp [hnil, shrunk_short]
    · rw [unclosed, if_neg (mt (shrunk_eq_nil_iff hend).mp hnil), unclosed, if_neg hnil, List.singleton_inj]
  | cons l ls =>
    rw [List.forall_mem_cons] at hinit hzeros
    have hls : Texts ls := fun x hx => ⟨hinit.2 x hx, hzeros.2 x hx⟩
    have hout : uniqLoop [] (readLines 512 (closed (l :: ls) ++ last)) =
        closed (shrunk l :: printed l ls) ++ shrunk last := by
      rw [closed_cons, List.append_assoc, List.cons_append,
        uniqLoop_closed hinit.1 hzeros.1 List.not_mem_nil fun h => absurd rfl h,
        uniqLoop_text hzeros.1 hls ⟨hlast, hend⟩, closed_cons, if_neg (fun h => absurd h.2 (by simp))]
      simp only [List.append_assoc, List.cons_append, List.nil_append]
    have hprinted : ∀ x ∈ shrunk l :: printed l ls, NEWLINE ∉ x :=
      List.forall_mem_cons.mpr ⟨newline_notMem_shrunk hinit.1, newline_notMem_printed hinit.2 l⟩
    rw [hout, lines_text hprinted hunclosed, List.cons_append, List.cons_append, destutter_cons, List.cons.injEq,
      printed_eq_fresh_iff hls hend, shrunk_eq_iff hzeros.1, Distinct]

theorem cmdUniq_unrepeated_iff {fopen : Fopen} {argv : List Str} {s : Str}
    (hopen : firstOperand (bytes "uniq") fopen argv = .ok s) (hzero : 0 ∉ s)
    (hs : s.splitOn NEWLINE = init ++ [last]) : Unrepeated (cmdUniq fopen argv) s ↔ Distinct init last := by
  rw [cmdUniq, operate, hopen]
  exact uniqLoop_unrepeated_iff hs hzero

def oneText (s : Str) : Fopen := fun _ => .ok s

theorem cmdUniq_unrepeated_twice :
    Unrepeated (cmdUniq (oneText (bytes "a\na\n")) [bytes "uniq", bytes "f"]) (bytes "a\na\n") :=
  (cmdUniq_unrepeated_iff rfl (by decide)
      (show (bytes "a\na\n").splitOn NEWLINE = [bytes "a", bytes "a"] ++ [[]] by decide)).mpr
    ⟨by simp [Varied, blocks, bytes], .inl ⟨by simp [Fits, bytes], by simp [Varied, blocks, bytes],
      by simp [Varied, blocks], .inl rfl⟩⟩

theorem cmdUniq_unterminated :
    ¬Unrepeated (cmdUniq (oneText (bytes "a\na")) [bytes "uniq", bytes "f"]) (bytes "a\na") := by
  rw [Unrepeated]
  decide

end Uniq

end JurkOS.Userland
