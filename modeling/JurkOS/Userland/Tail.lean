import JurkOS.Userland.Uniq

/-!
`cmd_tail` of `NoneCompiled/main.c`, with what undefined behaviour there is: a division
by zero, an access outside of the ring or through the null pointer, an `int` that overflows.
-/

namespace JurkOS.Userland.Tail

open Lib.Libc Lib.Pieces
open Uniq (oneText)

/-- Which requests of memory are granted: `malloc` by the size, `strdup` by the number of the piece. -/
structure Heap where
  malloc : ℕ → Bool
  strdup : ℕ → Bool

/-- The cells of the ring; `none` is the null pointer. -/
abbrev Ring := List (Option Str)

def parseArgs : ℤ → Option Str → List Str → ℤ × Option Str
  | n, file, [] => (n, file)
  | n, _, [a] => (n, some a)
  | n, file, a :: b :: args =>
    if strcmp a (bytes "-n") = 0 then parseArgs (atoi b) file args else parseArgs n (some a) (b :: args)

/-- `sizeof(char*) * max_lines`, a `size_t`. -/
def ringSize (n : ℤ) : ℕ := (8 * n % 2 ^ 64).toNat

def makeRing (heap : Heap) (n : ℤ) : Option Ring :=
  if heap.malloc (ringSize n) then some (List.replicate n.toNat none) else if n ≤ 0 then some [] else none

def remainder (a n : ℤ) : Option ℤ := if n = 0 then none else some (a.tmod n)

def add (a b : ℤ) : Option ℤ := if a + b < 2 ^ 31 then some (a + b) else none

def cell (ring : Ring) (idx : ℤ) : Option (Option Str) := if idx < 0 then none else ring[idx.toNat]?

def copyOf (heap : Heap) (k : ℕ) (line : Str) : Option Str := if heap.strdup k then some line else none

def fillLoop (heap : Heap) (n : ℤ) : List Str → ℤ → Ring → Option (ℤ × Ring)
  | [], total, ring => some (total, ring)
  | line :: lines, total, ring => do
    let idx ← remainder total n
    let _ ← cell ring idx
    let next ← add total 1
    fillLoop heap n lines next (ring.set idx.toNat (copyOf heap total.toNat line))

def printLoop (n start : ℤ) (ring : Ring) : ℕ → ℤ → Option Str
  | 0, _ => some []
  | k + 1, i => do
    let sum ← add start i
    let idx ← remainder sum n
    let text ← cell ring idx
    let out ← printLoop n start ring k (i + 1)
    some (text.getD [] ++ out)

def tailText (heap : Heap) (n : ℤ) (s : Str) : Option Str := do
  let ring ← makeRing heap n
  let (total, ring) ← fillLoop heap n (readLines 512 s) 0 ring
  let printCount := if total < n then total else n
  let start ← if total < n then some 0 else remainder total n
  printLoop n start ring printCount.toNat 0

/-- What is printed, if the behaviour is defined. -/
def cmdTail (heap : Heap) (fopen : Fopen) (argv : List Str) : Option Str :=
  match parseArgs 10 none argv.tail with
  | (_, none) => some (operandMissing (bytes "tail"))
  | (n, some file) =>
    match fopen file with
    | .error error => some (openFailed (bytes "tail") file error)
    | .ok s => tailText heap n s

structure RingWorks (heap : Heap) (n : ℕ) (s : Str) : Prop where
  positive : 0 < n
  granted : heap.malloc (ringSize n) = true
  counted : (readLines 512 s).length < 2 ^ 31
  replayed : (readLines 512 s).length < n ∨ (readLines 512 s).length % n + n ≤ 2 ^ 31
  fits : (readLines 512 (lastLines n s)).length ≤ n
  copied : ∀ k < (readLines 512 s).length, (readLines 512 s).length ≤ k + n → heap.strdup k = true

variable {heap : Heap} {n : ℕ} {pieces front back : List Str} {ring : Ring} {s : Str}

structure Holds (heap : Heap) (n : ℕ) (pieces : List Str) (ring : Ring) : Prop where
  length : ring.length = n
  cell : ∀ k line, pieces[k]? = some line → pieces.length ≤ k + n → ring[k % n]? = some (copyOf heap k line)

theorem holds_nil (heap : Heap) (n : ℕ) : Holds heap n [] (List.replicate n none) :=
  ⟨List.length_replicate, fun k line h => by cases h⟩

theorem mod_ne {k t : ℕ} (hlt : k < t) (hnear : t < k + n) : k % n ≠ t % n := by
  intro h
  have hdvd : n ∣ t - k := Nat.dvd_of_mod_eq_zero (Nat.sub_mod_eq_zero_of_mod_eq h.symm)
  have := Nat.le_of_dvd (by omega) hdvd
  omega

theorem holds_push (hn : 0 < n) (h : Holds heap n pieces ring) (line : Str) :
    Holds heap n (pieces ++ [line]) (ring.set (pieces.length % n) (copyOf heap pieces.length line)) := by
  constructor
  · rw [List.length_set]
    exact h.length
  · intro k piece hk hnear
    rw [List.length_append, List.length_singleton] at hnear
    rcases Nat.lt_trichotomy k pieces.length with hlt | rfl | hlt
    · rw [List.getElem?_append_left hlt] at hk
      rw [List.getElem?_set_ne (Ne.symm (mod_ne hlt (by omega)))]
      exact h.cell k piece hk (by omega)
    · rw [List.getElem?_concat_length] at hk
      obtain rfl := Option.some.inj hk
      rw [List.getElem?_set_self (by rw [h.length]; exact Nat.mod_lt _ hn)]
    · rw [List.getElem?_eq_none (by simp; omega)] at hk
      cases hk

theorem cell_eq (ring : Ring) (k : ℕ) : cell ring k = ring[k]? := by
  rw [cell, if_neg (by omega), Int.toNat_natCast]

theorem remainder_eq (hn : 0 < n) (k : ℕ) : remainder k n = some ((k % n : ℕ) : ℤ) := by
  rw [remainder, if_neg (by omega), Int.ofNat_tmod]

theorem fillLoop_step (hn : 0 < n) (h : Holds heap n front ring) (line : Str) (back : List Str) :
    fillLoop heap n (line :: back) front.length ring = (add front.length 1).bind fun next =>
      fillLoop heap n back next (ring.set (front.length % n) (copyOf heap front.length line)) := by
  have hinside : front.length % n < ring.length := by
    rw [h.length]
    exact Nat.mod_lt _ hn
  have hcell : cell ring ((front.length % n : ℕ) : ℤ) = some ring[front.length % n] := by
    rw [cell_eq, List.getElem?_eq_getElem hinside]
  have hidx := Int.toNat_natCast (front.length % n)
  have hnum := Int.toNat_natCast front.length
  rw [fillLoop, remainder_eq hn, Option.bind_eq_bind, Option.bind_some, hcell, Option.bind_eq_bind, Option.bind_some,
    hidx, hnum]

theorem add_eq {a b : ℕ} (hlt : a + b < 2 ^ 31) : add a b = some ((a + b : ℕ) : ℤ) := by
  rw [add, if_pos (by omega), Int.natCast_add]

theorem add_one (hlt : n + 1 < 2 ^ 31) : add n 1 = some ((n + 1 : ℕ) : ℤ) := add_eq hlt

theorem fillLoop_eq (hn : 0 < n) (h : Holds heap n front ring) (back : List Str)
    (hcount : (front ++ back).length < 2 ^ 31) :
    ∃ ring', fillLoop heap n back front.length ring = some (((front ++ back).length : ℤ), ring') ∧
      Holds heap n (front ++ back) ring' := by
  induction back generalizing front ring with
  | nil => exact ⟨ring, by rw [List.append_nil, fillLoop], by rwa [List.append_nil]⟩
  | cons line back ih =>
    have hroom : front.length + 1 < 2 ^ 31 := by
      rw [List.length_append, List.length_cons] at hcount
      omega
    rw [List.append_cons] at hcount ⊢
    obtain ⟨ring', hloop, hholds⟩ := ih (holds_push hn h line) hcount
    rw [List.length_append, List.length_singleton] at hloop
    exact ⟨ring', by rw [fillLoop_step hn h, add_one hroom, Option.bind_some, hloop], hholds⟩

theorem fillLoop_overflow (hn : 0 < n) (h : Holds heap n front ring) (back : List Str) (hfront : front.length < 2 ^ 31)
    (hcount : 2 ^ 31 ≤ (front ++ back).length) : fillLoop heap n back front.length ring = none := by
  induction back generalizing front ring with
  | nil =>
    rw [List.append_nil] at hcount
    omega
  | cons line back ih =>
    rw [fillLoop_step hn h]
    by_cases hroom : front.length + 1 < 2 ^ 31
    · have hrest := ih (holds_push hn h line) (by rwa [List.length_append])
        (by rwa [List.append_assoc, List.singleton_append])
      rw [List.length_append, List.length_singleton] at hrest
      rw [add_one hroom, Option.bind_some, hrest]
    · have hadd : add front.length 1 = none := if_neg (by omega)
      rw [hadd, Option.bind_none]

def copies (heap : Heap) : ℕ → List Str → Str
  | _, [] => []
  | k, line :: lines => (copyOf heap k line).getD [] ++ copies heap (k + 1) lines

theorem printLoop_overflow {start i k : ℕ} (hk : 0 < k) (h : 2 ^ 31 < start + i + k) :
    printLoop n start ring k i = none := by
  induction k generalizing i with
  | zero => cases hk
  | succ k ih =>
    by_cases hsum : start + i < 2 ^ 31
    · have hrest : printLoop n start ring k ((i : ℤ) + 1) = none := by
        have hnext := ih (i := i + 1) (by omega) (by omega)
        rwa [Int.natCast_succ] at hnext
      simp only [printLoop, Option.bind_eq_bind, hrest, Option.bind_none, Option.bind_fun_none]
    · have hadd : add start i = none := if_neg (by omega)
      rw [printLoop, hadd]
      rfl

theorem printLoop_eq (hn : 0 < n) (h : Holds heap n (front ++ back) ring) (start base i : ℕ)
    (hstart : start % n = base % n) (hfront : front.length = base + i) (hbase : (front ++ back).length ≤ base + n)
    (hsum : start + i + back.length ≤ 2 ^ 31) :
    printLoop n start ring back.length i = some (copies heap front.length back) := by
  induction back generalizing front i with
  | nil => rfl
  | cons line back ih =>
    rw [List.length_cons] at hsum
    have hidx : (start + i) % n = front.length % n := by rw [Nat.add_mod, hstart, ← Nat.add_mod, hfront]
    have hcell : cell ring ((start + i) % n : ℕ) = some (copyOf heap front.length line) := by
      rw [cell_eq, hidx]
      exact h.cell front.length line (by simp) (by omega)
    rw [List.append_cons] at h hbase
    have hrest := ih h (i + 1) (by rw [List.length_append, hfront]; rfl) hbase (by omega)
    rw [Int.natCast_succ, List.length_append, List.length_singleton] at hrest
    rw [List.length_cons, printLoop, add_eq (by omega), Option.bind_eq_bind, Option.bind_some, remainder_eq hn,
      Option.bind_eq_bind, Option.bind_some, hcell, Option.bind_eq_bind, Option.bind_some, hrest]
    rfl

theorem length_copies_le (heap : Heap) (k : ℕ) (lines : List Str) :
    (copies heap k lines).length ≤ lines.flatten.length := by
  induction lines generalizing k with
  | nil => exact le_refl _
  | cons line lines ih =>
    have hrest := ih (k + 1)
    have hline : ((copyOf heap k line).getD []).length ≤ line.length := by
      rw [copyOf]
      split_ifs
      · exact le_refl _
      · exact Nat.zero_le _
    rw [copies, List.flatten_cons, List.length_append, List.length_append]
    omega

theorem copies_eq_flatten_iff {lines : List Str} (hne : ∀ line ∈ lines, line ≠ []) (k : ℕ) :
    copies heap k lines = lines.flatten ↔ ∀ j < lines.length, heap.strdup (k + j) = true := by
  induction lines generalizing k with
  | nil => simp [copies]
  | cons line lines ih =>
    rw [List.forall_mem_cons] at hne
    have hlen := length_copies_le heap (k + 1) lines
    have hpos := List.length_pos_iff.mpr hne.1
    have hsplit : (∀ j < (line :: lines).length, heap.strdup (k + j) = true) ↔
        heap.strdup k = true ∧ ∀ j < lines.length, heap.strdup (k + 1 + j) = true := by
      rw [List.length_cons, Nat.forall_lt_succ_left']
      simp only [Nat.add_zero, Nat.add_assoc, Nat.add_comm 1]
    rw [hsplit, ← ih hne.2, copies, List.flatten_cons, copyOf]
    by_cases hgranted : heap.strdup k = true
    · simp [hgranted]
    · rw [if_neg hgranted, Option.getD_none, List.nil_append]
      apply iff_of_false
      · intro he
        rw [he, List.length_append] at hlen
        omega
      · exact fun h => hgranted h.1

theorem tailText_eq (hn : 0 < n) (hgranted : heap.malloc (ringSize n) = true)
    (hcount : (readLines 512 s).length < 2 ^ 31) : tailText heap n s =
      if (readLines 512 s).length < n ∨ (readLines 512 s).length % n + n ≤ 2 ^ 31 then
        some (copies heap ((readLines 512 s).length - n) ((readLines 512 s).drop ((readLines 512 s).length - n)))
      else none := by
  obtain ⟨ring, hfill, hholds⟩ := fillLoop_eq hn (holds_nil heap n) (readLines 512 s) hcount
  rw [List.nil_append] at hfill hholds
  have hring : makeRing heap n = some (List.replicate n none) := by
    rw [makeRing, if_pos hgranted, Int.toNat_natCast]
  rw [tailText, hring, Option.bind_eq_bind, Option.bind_some]
  rw [List.length_nil, Int.natCast_zero] at hfill
  rw [hfill, Option.bind_eq_bind, Option.bind_some]
  dsimp only
  generalize readLines 512 s = pieces at hholds hcount ⊢
  by_cases hlt : pieces.length < n
  · rw [← List.nil_append pieces] at hholds
    have hall := printLoop_eq hn hholds 0 0 0 rfl rfl (by simpa using hlt.le) (by omega)
    rw [if_pos (Int.ofNat_lt.mpr hlt), if_pos (Int.ofNat_lt.mpr hlt), if_pos (.inl hlt), Nat.sub_eq_zero_of_le hlt.le,
      Int.toNat_natCast]
    exact hall
  · have hle := Nat.not_lt.mp hlt
    have hlt' : ¬(pieces.length : ℤ) < n := fun h => hlt (Int.ofNat_lt.mp h)
    rw [if_neg hlt', if_neg hlt', remainder_eq hn, Option.bind_eq_bind, Option.bind_some, Int.toNat_natCast]
    have hback : (pieces.drop (pieces.length - n)).length = n := by
      rw [List.length_drop]
      omega
    have hfront : (pieces.take (pieces.length - n)).length = pieces.length - n := by
      rw [List.length_take]
      omega
    split_ifs with hreplayed
    · rw [← List.take_append_drop (pieces.length - n) pieces] at hholds
      have hlast := printLoop_eq hn hholds (pieces.length % n) (pieces.length - n) 0
        (by rw [Nat.mod_mod, Nat.mod_eq_sub_mod hle]) hfront (by rw [List.take_append_drop]; omega)
        (by rw [hback]; omega)
      rwa [hback, hfront] at hlast
    · exact printLoop_overflow (i := 0) hn (by omega)

theorem prints_iff (hn : 0 < n) (hzero : 0 ∉ s) :
    copies heap ((readLines 512 s).length - n) ((readLines 512 s).drop ((readLines 512 s).length - n)) = lastLines n s ↔
      (readLines 512 (lastLines n s)).length ≤ n ∧
        ∀ k < (readLines 512 s).length, (readLines 512 s).length ≤ k + n → heap.strdup k = true := by
  obtain ⟨front, hs, hfront, hmany⟩ := exists_lastLines hn s
  have hreads : readLines 512 s = readLines 512 front ++ readLines 512 (lastLines n s) := by
    rw [← readLines_append (by decide) hfront, ← hs]
  have hzero' : 0 ∉ lastLines n s := fun h => hzero (hs ▸ List.mem_append_right _ h)
  obtain ⟨hcut, hflat⟩ := cut_readLines (n := 511) (by decide) hzero'
  have hne := ne_nil_of_cut hcut
  have hsegments := length_segments_le (n := 511) (by decide) hzero'
  simp only [Nat.reduceAdd] at hflat hne hsegments
  rw [hreads, List.length_append]
  generalize lastLines n s = last at hflat hne hsegments hmany ⊢
  generalize readLines 512 last = ps at hflat hne hsegments ⊢
  have hfront : (readLines 512 front).length = 0 ∨ n ≤ ps.length := by
    rcases hmany with rfl | hmany
    · exact .inl rfl
    · exact .inr (hmany.trans hsegments)
  by_cases hfits : ps.length ≤ n
  · have hskip : (readLines 512 front).length + ps.length - n = (readLines 512 front).length := by omega
    rw [hskip, List.drop_left, ← hflat, copies_eq_flatten_iff hne, and_iff_right hfits]
    constructor
    · intro h k hk hnear
      obtain ⟨j, rfl⟩ := Nat.exists_eq_add_of_le (show (readLines 512 front).length ≤ k by omega)
      exact h j (by omega)
    · intro h j hj
      exact h _ (by omega) (by omega)
  · apply iff_of_false
    · intro he
      obtain ⟨k, hk⟩ := Nat.exists_eq_add_of_lt (Nat.not_le.mp hfits)
      have hskip : (readLines 512 front).length + ps.length - n = (readLines 512 front).length + (k + 1) := by omega
      rw [hskip, List.drop_length_add_append] at he
      have hlen := length_copies_le heap ((readLines 512 front).length + (k + 1)) (ps.drop (k + 1))
      cases ps with
      | nil => cases hk
      | cons p ps =>
        have hpos := List.length_pos_iff.mpr (hne p List.mem_cons_self)
        have htail := congrArg List.length (congrArg List.flatten (List.take_append_drop k ps))
        rw [he, ← hflat, List.flatten_cons, List.drop_succ_cons, List.length_append] at hlen
        rw [List.flatten_append, List.length_append] at htail
        omega
    · exact fun h => hfits h.1

theorem tailText_of_nonpos {n : ℤ} (hn : n ≤ 0) :
    tailText heap n s = some (lastLines n.toNat s) ↔ n < 0 ∧ s = [] := by
  have hring : makeRing heap n = some [] := by
    rw [makeRing, if_pos hn, Int.toNat_of_nonpos hn]
    exact ite_self _
  rw [tailText, hring, Option.bind_eq_bind, Option.bind_some]
  by_cases hs : s = []
  · have hread : readLines 512 s = [] := by rw [hs]; rfl
    have hlast : lastLines n.toNat s = [] := by rw [hs, Int.toNat_of_nonpos hn]; rfl
    rw [hread, hlast, fillLoop, Option.bind_eq_bind, Option.bind_some]
    dsimp only
    rw [if_neg (by omega), if_neg (by omega), Int.toNat_of_nonpos hn, remainder]
    split_ifs with hzero
    · simp [hzero]
    · have hneg : n < 0 := by omega
      simp [printLoop, hs, hneg]
  · obtain ⟨p, ps, hread⟩ : ∃ p ps, readLines 512 s = p :: ps := ⟨_, _, readLines_cons (by decide) hs⟩
    have hfault : fillLoop heap n (p :: ps) 0 [] = none := by
      rw [fillLoop, remainder]
      split_ifs with hzero
      · rfl
      · simp [cell]
    rw [hread, hfault]
    simp [hs]

theorem tailText_of_pos (hn : 0 < n) (hzero : 0 ∉ s) :
    tailText heap n s = some (lastLines n s) ↔ RingWorks heap n s := by
  by_cases hgranted : heap.malloc (ringSize n) = true
  · by_cases hcount : (readLines 512 s).length < 2 ^ 31
    · rw [tailText_eq hn hgranted hcount]
      split_ifs with hreplayed
      · rw [Option.some.injEq, prints_iff hn hzero]
        exact ⟨fun h => ⟨hn, hgranted, hcount, hreplayed, h.1, h.2⟩, fun h => ⟨h.fits, h.copied⟩⟩
      · exact iff_of_false (by simp) fun h => hreplayed h.replayed
    · have hfault := fillLoop_overflow hn (holds_nil heap n) (readLines 512 s) (by simp) (Nat.not_lt.mp hcount)
      have hring : makeRing heap n = some (List.replicate n none) := by
        rw [makeRing, if_pos hgranted, Int.toNat_natCast]
      rw [List.length_nil, Int.natCast_zero] at hfault
      rw [tailText, hring, Option.bind_eq_bind, Option.bind_some, hfault]
      exact iff_of_false (by simp) fun h => hcount h.counted
  · have hring : makeRing heap n = none := by
      rw [makeRing, if_neg hgranted, if_neg (by omega)]
    rw [tailText, hring]
    exact iff_of_false (by simp) fun h => hgranted h.granted

theorem cmdTail_prints_iff {fopen : Fopen} {argv : List Str} {n : ℤ} {file : Str} (heap : Heap)
    (hargs : parseArgs 10 none argv.tail = (n, some file)) (hopen : fopen file = .ok s) (hzero : 0 ∉ s) :
    cmdTail heap fopen argv = some (lastLines n.toNat s) ↔ RingWorks heap n.toNat s ∨ n < 0 ∧ s = [] := by
  have hcmd : cmdTail heap fopen argv = tailText heap n s := by
    rw [cmdTail, hargs]
    dsimp only
    rw [hopen]
  rw [hcmd]
  by_cases hn : 0 < n
  · obtain ⟨k, rfl⟩ := Int.eq_ofNat_of_zero_le hn.le
    rw [Int.toNat_natCast, tailText_of_pos (by omega) hzero, or_iff_left]
    omega
  · rw [tailText_of_nonpos (Int.not_lt.mp hn), or_iff_right]
    intro h
    have := h.positive
    omega

def plenty : Heap := ⟨fun size => size < 2 ^ 63, fun _ => true⟩

def countArgs (count : String) : List Str := [bytes "tail", bytes "-n", bytes count, bytes "f"]

theorem cmdTail_prints_one :
    cmdTail plenty (oneText (bytes "a\nb")) (countArgs "1") = some (lastLines 1 (bytes "a\nb")) := by
  have hargs : parseArgs 10 none (countArgs "1").tail = (1, some (bytes "f")) := by decide
  have hopen : oneText (bytes "a\nb") (bytes "f") = .ok (bytes "a\nb") := rfl
  have hworks : RingWorks plenty (1 : ℤ).toNat (bytes "a\nb") :=
    ⟨by decide, by decide, by decide, by decide, by decide, fun _ _ _ => rfl⟩
  exact (cmdTail_prints_iff plenty hargs hopen (by decide)).mpr (.inl hworks)

theorem cmdTail_zero :
    cmdTail plenty (oneText (bytes "a\n")) (countArgs "0") ≠ some (lastLines 0 (bytes "a\n")) := by
  decide

end JurkOS.Userland.Tail
