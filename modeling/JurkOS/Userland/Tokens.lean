import JurkOS.Userland.Removal

/-!
The words of a line of `run_shell`: the line is cut in place, and what the pointers
in `args` show are the words that `arguments` tells.
-/

namespace JurkOS.Userland.Tokens

open Lib.Libc
open Removal (SPACE TAB arguments)

/-- `input_copy`, `args` (`none` is the null pointer), `argc_cmd`, and `p` as a place in `input_copy`. -/
structure Scan where
  copy : Str
  args : List (Option ℕ)
  argc : ℕ
  p : ℕ

variable (s : Scan)

/-- `*p`; an access outside of the array has no result. -/
def Scan.char : Option UInt8 := s.copy[s.p]?

def Scan.store (i : ℕ) (v : Option ℕ) : Option Scan :=
  if i < s.args.length then some { s with args := s.args.set i v } else none

def skipBlanks : ℕ → Scan → Option Scan
  | 0, _ => none
  | n + 1, s => do
    let c ← s.char
    if c = SPACE ∨ c = TAB then skipBlanks n { s with copy := s.copy.set s.p 0, p := s.p + 1 } else some s

def skipWord : ℕ → Scan → Option Scan
  | 0, _ => none
  | n + 1, s => do
    let c ← s.char
    if c ≠ 0 ∧ c ≠ SPACE ∧ c ≠ TAB then skipWord n { s with p := s.p + 1 } else some s

def addArg : Option Scan :=
  if s.argc < 31 then (s.store s.argc (some s.p)).map fun s => { s with argc := s.argc + 1 } else some s

/-- The outer loop; no loop turns more often than `n` tells. -/
def tokenLoop : ℕ → Scan → Option Scan
  | 0, _ => none
  | n + 1, s => do
    let c ← s.char
    if c = 0 then some s
    else
      let s ← skipBlanks (n + 1) s
      let c ← s.char
      if c = 0 then some s
      else
        let s ← addArg s
        let s ← skipWord (n + 1) s
        tokenLoop n s

def inputCopy (line : Str) : Str := (line ++ List.replicate 1023 0).take 1023 ++ [0]

def tokenize (n : ℕ) (args : Vector (Option ℕ) 32) (input : Str) : Option Scan := do
  let s ← tokenLoop n ⟨inputCopy (stripNewline (cstr input)), args.toList, 0, 0⟩
  s.store s.argc none

def StringIn (copy : Str) (p : ℕ) (w : Str) : Prop := w ++ [0] <+: copy.drop p

structure Shows (s : Scan) (ws : List Str) : Prop where
  count : s.argc = ws.length
  word : ∀ (i : ℕ) w, ws[i]? = some w → ∃ p, s.args[i]? = some (some p) ∧ StringIn s.copy p w
  null : s.args[s.argc]? = some none

def IsBlank (c : UInt8) : Bool := c = SPACE ∨ c = TAB

def words (line : Str) : List Str := (line.splitOnP IsBlank).filter (· ≠ [])

def erase (line : Str) : Str := line.map fun c => if IsBlank c then 0 else c

variable {s} {line done blanks word t : Str} {c : UInt8} {n : ℕ} {args : List (Option ℕ)} {argc p : ℕ}

theorem words_nil : words [] = [] := by
  rw [words, List.splitOnP_nil]
  rfl

theorem words_blank (hc : IsBlank c) (t : Str) : words (c :: t) = words t := by
  rw [words, ← List.nil_append (c :: t), List.splitOnP_append_cons_of_forall_mem (by simp) c hc]
  rfl

theorem words_blanks (hblanks : ∀ c ∈ blanks, IsBlank c) (t : Str) : words (blanks ++ t) = words t := by
  induction blanks with
  | nil => rfl
  | cons c blanks ih =>
    rw [List.cons_append, words_blank (hblanks c List.mem_cons_self)]
    exact ih fun d hd => hblanks d (List.mem_cons_of_mem _ hd)

theorem words_word (hne : word ≠ []) (hword : ∀ c ∈ word, IsBlank c = false) (ht : ∀ c ∈ t.head?, IsBlank c) :
    words (word ++ t) = word :: words t := by
  cases t with
  | nil =>
    rw [List.append_nil, words_nil, words, List.splitOnP_eq_singleton hword]
    simp [hne]
  | cons c t =>
    have hc : IsBlank c := ht c rfl
    rw [words_blank hc, words, List.splitOnP_append_cons_of_forall_mem hword c hc, List.filter_cons, if_pos (by simpa)]
    rfl

theorem char_at (done t : Str) (args : List (Option ℕ)) (argc : ℕ) :
    (⟨done ++ c :: t, args, argc, done.length⟩ : Scan).char = some c := by
  simp [Scan.char]

theorem isBlank_iff : IsBlank c = true ↔ c = SPACE ∨ c = TAB := decide_eq_true_iff

theorem skipBlanks_eq (hblanks : ∀ c ∈ blanks, IsBlank c) (hc : IsBlank c = false) (hn : blanks.length < n)
    (done : Str) (args : List (Option ℕ)) (argc : ℕ) :
    skipBlanks n ⟨done ++ (blanks ++ c :: t), args, argc, done.length⟩ =
      some ⟨done ++ erase blanks ++ c :: t, args, argc, (done ++ erase blanks).length⟩ := by
  induction blanks generalizing done n with
  | nil =>
    obtain ⟨n, rfl⟩ := Nat.exists_eq_succ_of_ne_zero (Nat.ne_zero_of_lt hn)
    have hstop : ¬(c = SPACE ∨ c = TAB) := by simpa [IsBlank] using hc
    simp [skipBlanks, char_at, hstop, erase]
  | cons b blanks ih =>
    obtain ⟨n, rfl⟩ := Nat.exists_eq_succ_of_ne_zero (Nat.ne_zero_of_lt hn)
    have hb := hblanks b List.mem_cons_self
    have hgo : b = SPACE ∨ b = TAB := isBlank_iff.mp hb
    have hrest := ih (fun d hd => hblanks d (List.mem_cons_of_mem _ hd)) (Nat.lt_of_succ_lt_succ hn) (done ++ [0])
    simp only [List.append_assoc, List.length_append, List.cons_append, List.nil_append, List.length_singleton] at hrest
    simp only [skipBlanks, List.cons_append, char_at, Option.bind_eq_bind, Option.bind_some, if_pos hgo,
      List.set_append_right _ _ (le_refl _), Nat.sub_self, List.set_cons_zero]
    rw [hrest]
    simp [erase, hb]

theorem skipWord_eq (hword : ∀ c ∈ word, c ≠ 0 ∧ IsBlank c = false) (hc : c = 0 ∨ IsBlank c) (hn : word.length < n)
    (done : Str) (args : List (Option ℕ)) (argc : ℕ) :
    skipWord n ⟨done ++ (word ++ c :: t), args, argc, done.length⟩ =
      some ⟨done ++ word ++ c :: t, args, argc, (done ++ word).length⟩ := by
  induction word generalizing done n with
  | nil =>
    obtain ⟨n, rfl⟩ := Nat.exists_eq_succ_of_ne_zero (Nat.ne_zero_of_lt hn)
    have hstop : ¬(c ≠ 0 ∧ c ≠ SPACE ∧ c ≠ TAB) := by
      rw [isBlank_iff] at hc
      exact fun h => hc.elim h.1 fun hblank => hblank.elim h.2.1 h.2.2
    simp only [skipWord, List.nil_append, char_at, Option.bind_eq_bind, Option.bind_some, if_neg hstop, List.append_nil]
  | cons b word ih =>
    obtain ⟨n, rfl⟩ := Nat.exists_eq_succ_of_ne_zero (Nat.ne_zero_of_lt hn)
    have hgo : b ≠ 0 ∧ b ≠ SPACE ∧ b ≠ TAB := by
      have hb := hword b List.mem_cons_self
      simpa [IsBlank] using hb
    have hrest := ih (fun d hd => hword d (List.mem_cons_of_mem _ hd)) (Nat.lt_of_succ_lt_succ hn) (done ++ [b])
    simp only [List.append_assoc, List.length_append, List.cons_append, List.nil_append, List.length_singleton] at hrest
    simp only [skipWord, List.cons_append, char_at, Option.bind_eq_bind, Option.bind_some, if_pos hgo]
    rw [hrest]
    simp

theorem cut (line : Str) : (∀ c ∈ line, IsBlank c) ∨ ∃ blanks word t, line = blanks ++ (word ++ t) ∧
    (∀ c ∈ blanks, IsBlank c) ∧ word ≠ [] ∧ (∀ c ∈ word, IsBlank c = false) ∧ ∀ c ∈ t.head?, IsBlank c := by
  by_cases hblank : ∀ c ∈ line, IsBlank c
  · exact .inl hblank
  · right
    have hrest : line.dropWhile IsBlank ≠ [] := by
      rw [ne_eq, List.dropWhile_eq_nil_iff]
      exact hblank
    refine ⟨line.takeWhile IsBlank, (line.dropWhile IsBlank).takeWhile fun c => !IsBlank c,
      (line.dropWhile IsBlank).dropWhile fun c => !IsBlank c, ?_, fun c hc => List.mem_takeWhile_imp hc, ?_,
      fun c hc => by simpa using List.mem_takeWhile_imp hc, ?_⟩
    · rw [List.takeWhile_append_dropWhile, List.takeWhile_append_dropWhile]
    · have hhead := List.head_dropWhile_not IsBlank hrest
      obtain ⟨d, t, he⟩ := List.exists_cons_of_ne_nil hrest
      simp only [he, List.head_cons] at hhead
      rw [he, List.takeWhile_cons, hhead]
      exact List.cons_ne_nil _ _
    · intro c hc
      have hhead := List.head?_dropWhile_not (fun c => !IsBlank c) (line.dropWhile IsBlank)
      rw [Option.mem_def.mp hc] at hhead
      simpa using hhead

def keep (stored : List ℕ) (ps : List ℕ) : List ℕ := stored ++ ps.take (31 - stored.length)

theorem keep_cons {stored : List ℕ} (ps : List ℕ) : keep (keep stored [p]) ps = keep stored (p :: ps) := by
  by_cases hroom : stored.length < 31
  · obtain ⟨k, hk⟩ : ∃ k, 31 - stored.length = k + 1 := ⟨30 - stored.length, by omega⟩
    simp [keep, hk, show 31 - (stored.length + 1) = k by omega]
  · simp [keep, show 31 - stored.length = 0 by omega]

theorem addArg_eq {stored : List ℕ} {junk : List (Option ℕ)} (hjunk : stored.length + junk.length = 32)
    (hroom : stored.length ≤ 31) (copy : Str) (p : ℕ) : ∃ junk', (keep stored [p]).length + junk'.length = 32 ∧
      (keep stored [p]).length ≤ 31 ∧ addArg ⟨copy, stored.map some ++ junk, stored.length, p⟩ =
        some ⟨copy, (keep stored [p]).map some ++ junk', (keep stored [p]).length, p⟩ := by
  by_cases hlt : stored.length < 31
  · cases junk with
    | nil =>
      rw [List.length_nil] at hjunk
      omega
    | cons j junk =>
      have hkeep : keep stored [p] = stored ++ [p] := by
        rw [keep, List.take_of_length_le]
        simp
        omega
      rw [List.length_cons] at hjunk
      refine ⟨junk, ?_, ?_, ?_⟩
      · simp [hkeep]
        omega
      · simp [hkeep]
        omega
      · have hinside : stored.length < (stored.map some ++ j :: junk).length := by simp
        have hset : (stored.map some ++ j :: junk).set stored.length (some p) = stored.map some ++ some p :: junk := by
          rw [List.set_append_right _ _ (by simp), List.length_map, Nat.sub_self, List.set_cons_zero]
        simp [addArg, Scan.store, hlt, hkeep, hset]
  · have hkeep : keep stored [p] = stored := by simp [keep, show 31 - stored.length = 0 by omega]
    refine ⟨junk, by rwa [hkeep], by rwa [hkeep], ?_⟩
    rw [addArg, if_neg hlt, hkeep]

theorem erase_append (u v : Str) : erase (u ++ v) = erase u ++ erase v := List.map_append

theorem erase_word (hword : ∀ c ∈ word, IsBlank c = false) : erase word = word := by
  rw [erase, List.map_congr_left (g := id) fun c hc => by simp [hword c hc], List.map_id]

theorem stringIn_word (ht : ∀ c ∈ t.head?, IsBlank c) (u word pad : Str) :
    StringIn (u ++ (word ++ (erase t ++ 0 :: pad))) u.length word := by
  rw [StringIn, List.drop_left, List.prefix_append_right_inj]
  cases t with
  | nil => exact ⟨pad, rfl⟩
  | cons c t =>
    rw [erase, List.map_cons, if_pos (ht c rfl)]
    exact ⟨erase t ++ 0 :: pad, rfl⟩

theorem tokenLoop_char (hc : c ≠ 0) (done t : Str) (args : List (Option ℕ)) (argc : ℕ) :
    tokenLoop (n + 1) ⟨done ++ c :: t, args, argc, done.length⟩ = (do
      let s ← skipBlanks (n + 1) ⟨done ++ c :: t, args, argc, done.length⟩
      let c ← s.char
      if c = 0 then some s
      else
        let s ← addArg s
        let s ← skipWord (n + 1) s
        tokenLoop n s) := by
  simp only [tokenLoop, char_at, Option.bind_eq_bind, Option.bind_some, if_neg hc]

theorem head_ne_zero {rest : Str} (hzero : 0 ∉ rest) (hne : rest ≠ []) : ∃ c t, rest = c :: t ∧ c ≠ 0 := by
  obtain ⟨c, t, rfl⟩ := List.exists_cons_of_ne_nil hne
  exact ⟨c, t, rfl, fun h => hzero (h ▸ List.mem_cons_self)⟩

theorem tokenLoop_blank {rest : Str} (hzero : 0 ∉ rest) (hblank : ∀ c ∈ rest, IsBlank c) (hn : rest.length < n + 1)
    (done pad : Str) : tokenLoop (n + 1) ⟨done ++ (rest ++ 0 :: pad), args, argc, done.length⟩ =
      some ⟨done ++ erase rest ++ 0 :: pad, args, argc, (done ++ erase rest).length⟩ := by
  by_cases hnil : rest = []
  · simp [hnil, tokenLoop, char_at, erase]
  · have hskip := skipBlanks_eq (t := pad) hblank (c := 0) rfl hn done args argc
    obtain ⟨c, t, rfl, hc⟩ := head_ne_zero hzero hnil
    rw [List.cons_append] at hskip ⊢
    rw [tokenLoop_char hc, hskip]
    simp only [Option.bind_eq_bind, Option.bind_some, char_at, if_true]

theorem tokenLoop_turn (hzero : 0 ∉ blanks ++ (word ++ t)) (hblanks : ∀ c ∈ blanks, IsBlank c) (hne : word ≠ [])
    (hword : ∀ c ∈ word, IsBlank c = false) (ht : ∀ c ∈ t.head?, IsBlank c)
    (hn : (blanks ++ (word ++ t)).length < n + 1) (done pad : Str) {stored : List ℕ} {junk : List (Option ℕ)}
    (hjunk : stored.length + junk.length = 32) (hroom : stored.length ≤ 31) :
    ∃ junk', (keep stored [(done ++ erase blanks).length]).length + junk'.length = 32 ∧
      (keep stored [(done ++ erase blanks).length]).length ≤ 31 ∧
      tokenLoop (n + 1) ⟨done ++ (blanks ++ (word ++ t) ++ 0 :: pad), stored.map some ++ junk, stored.length,
        done.length⟩ =
      tokenLoop n ⟨done ++ erase blanks ++ word ++ (t ++ 0 :: pad),
        (keep stored [(done ++ erase blanks).length]).map some ++ junk',
        (keep stored [(done ++ erase blanks).length]).length, (done ++ erase blanks ++ word).length⟩ := by
  obtain ⟨junk', hlen, hroom', hadd⟩ := addArg_eq hjunk hroom (done ++ erase blanks ++ (word ++ (t ++ 0 :: pad)))
    (done ++ erase blanks).length
  refine ⟨junk', hlen, hroom', ?_⟩
  simp only [List.length_append] at hn
  obtain ⟨e, rest, hrest, he⟩ : ∃ e rest, t ++ 0 :: pad = e :: rest ∧ (e = 0 ∨ IsBlank e) := by
    cases t with
    | nil => exact ⟨0, pad, rfl, .inl rfl⟩
    | cons e t => exact ⟨e, t ++ 0 :: pad, rfl, .inr (ht e rfl)⟩
  have hchars : ∀ c ∈ word, c ≠ 0 ∧ IsBlank c = false := fun c hc =>
    ⟨fun h => hzero (List.mem_append_right _ (List.mem_append_left _ (h ▸ hc))), hword c hc⟩
  have hover := skipWord_eq (t := rest) hchars he (show word.length < n + 1 by omega) (done ++ erase blanks)
    ((keep stored [(done ++ erase blanks).length]).map some ++ junk')
    (keep stored [(done ++ erase blanks).length]).length
  rw [← hrest] at hover
  obtain ⟨c, tail, hcons, hc⟩ := head_ne_zero hzero (by simp [hne])
  obtain ⟨d, word', rfl⟩ := List.exists_cons_of_ne_nil hne
  have hskip := skipBlanks_eq (t := word' ++ (t ++ 0 :: pad)) hblanks (hword d List.mem_cons_self)
    (show blanks.length < n + 1 by omega) done (stored.map some ++ junk) stored.length
  have hline : blanks ++ d :: (word' ++ (t ++ 0 :: pad)) = c :: (tail ++ 0 :: pad) := by
    have := congrArg (· ++ 0 :: pad) hcons
    simpa using this
  rw [hline] at hskip
  rw [hcons, List.cons_append, tokenLoop_char hc, hskip]
  simp only [Option.bind_eq_bind, Option.bind_some, char_at, if_neg (hchars d List.mem_cons_self).1]
  rw [List.cons_append] at hadd hover
  rw [hadd, Option.bind_some, hover, Option.bind_some]

-- By induction on the turns of the outer loop.
theorem tokenLoop_eq {rest : Str} (hzero : 0 ∉ rest) (hn : rest.length < n) (done pad : Str) (stored : List ℕ)
    (junk : List (Option ℕ)) (hjunk : stored.length + junk.length = 32) (hroom : stored.length ≤ 31) :
    ∃ ps junk', List.Forall₂ (StringIn (done ++ erase rest ++ 0 :: pad)) ps (words rest) ∧
      (keep stored ps).length + junk'.length = 32 ∧
      tokenLoop n ⟨done ++ (rest ++ 0 :: pad), stored.map some ++ junk, stored.length, done.length⟩ =
        some ⟨done ++ erase rest ++ 0 :: pad, (keep stored ps).map some ++ junk', (keep stored ps).length,
          (done ++ erase rest).length⟩ := by
  induction n generalizing rest done stored junk with
  | zero => cases hn
  | succ n ih =>
    rcases cut rest with hblank | ⟨blanks, word, t, rfl, hblanks, hne, hword, ht⟩
    · have hwords : words rest = [] := by
        rw [← List.append_nil rest, words_blanks hblank, words_nil]
      refine ⟨[], junk, hwords ▸ .nil, by simpa [keep], ?_⟩
      rw [tokenLoop_blank hzero hblank hn]
      simp [keep]
    · obtain ⟨junk₁, hjunk₁, hroom₁, hturn⟩ := tokenLoop_turn hzero hblanks hne hword ht hn done pad hjunk hroom
      have hpos := List.length_pos_iff.mpr hne
      simp only [List.length_append] at hn
      have hzero' : 0 ∉ t := fun h => hzero (by simp [h])
      obtain ⟨ps, junk', hps, hlen, hloop⟩ := ih hzero' (by omega) (done ++ erase blanks ++ word) _ _ hjunk₁ hroom₁
      have hcopy : done ++ erase (blanks ++ (word ++ t)) = done ++ erase blanks ++ word ++ erase t := by
        rw [erase_append, erase_append, erase_word hword]
        simp only [List.append_assoc]
      rw [keep_cons] at hlen hloop
      rw [hcopy, words_blanks hblanks, words_word hne hword ht]
      refine ⟨(done ++ erase blanks).length :: ps, junk', .cons ?_ hps, hlen, hturn.trans hloop⟩
      have hhere := stringIn_word ht (done ++ erase blanks) word pad
      simpa only [List.append_assoc] using hhere

theorem length_stripNewline_le (input : Str) : (stripNewline (cstr input)).length ≤ input.length :=
  (stripNewline_initial _).length_le.trans (cstr_initial input).length_le

theorem inputCopy_eq (hlen : line.length ≤ 1023) : ∃ pad, inputCopy line = line ++ 0 :: pad := by
  obtain ⟨k, hk⟩ := Nat.exists_eq_add_of_le hlen
  refine ⟨List.replicate k 0, ?_⟩
  rw [inputCopy, hk, List.take_append, List.take_of_length_le (by omega)]
  simp only [Nat.add_sub_cancel_left, List.take_replicate, List.append_assoc]
  rw [Nat.min_eq_left (by omega), ← List.replicate_succ', List.replicate_succ]

theorem arguments_eq (input : Str) : arguments input = (words (stripNewline (cstr input))).take 31 := rfl

theorem shows_of_forall₂ {copy : Str} {ps : List ℕ} {ws : List Str} (h : List.Forall₂ (StringIn copy) ps ws)
    (junk : List (Option ℕ)) (p : ℕ) : Shows ⟨copy, ps.map some ++ none :: junk, ps.length, p⟩ ws := by
  refine ⟨h.length_eq, fun i w hw => ?_, by simp⟩
  obtain ⟨hi, rfl⟩ := List.getElem?_eq_some_iff.mp hw
  have hi' : i < ps.length := h.length_eq ▸ hi
  refine ⟨ps[i], ?_, h.get hi' hi⟩
  rw [List.getElem?_append_left (by simpa), List.getElem?_map, List.getElem?_eq_getElem hi']
  rfl

theorem tokenize_shows {input : Str} (hlen : input.length ≤ 1023) (hn : 1024 ≤ n) (args : Vector (Option ℕ) 32) :
    ∃ s, tokenize n args input = some s ∧ Shows s (arguments input) := by
  have hline := (length_stripNewline_le input).trans hlen
  have hzero : 0 ∉ stripNewline (cstr input) := fun h => zero_notMem_cstr input ((stripNewline_initial _).subset h)
  obtain ⟨pad, hpad⟩ := inputCopy_eq hline
  obtain ⟨ps, junk, hps, hjunk, hloop⟩ := tokenLoop_eq hzero (show _ < n by omega) [] pad [] args.toList (by simp)
    (Nat.zero_le _)
  simp only [List.nil_append, List.map_nil, List.length_nil, keep, Nat.sub_zero] at hps hjunk hloop
  have hshort : (ps.take 31).length < 32 := Nat.lt_succ_of_le (List.length_take_le _ _)
  obtain ⟨j, junk, rfl⟩ := List.exists_cons_of_ne_nil (l := junk) (by
    rintro rfl
    rw [List.length_nil] at hjunk
    omega)
  have hwords : List.Forall₂ (StringIn (erase (stripNewline (cstr input)) ++ 0 :: pad)) (ps.take 31)
      (arguments input) := arguments_eq input ▸ List.forall₂_take 31 hps
  refine ⟨_, ?_, shows_of_forall₂ hwords junk (erase (stripNewline (cstr input))).length⟩
  have hinside : (ps.take 31).length < ((ps.take 31).map some ++ j :: junk).length := by simp
  have hset : ((ps.take 31).map some ++ j :: junk).set (ps.take 31).length none =
      (ps.take 31).map some ++ none :: junk := by
    rw [List.set_append_right _ _ (by rw [List.length_map]), List.length_map, Nat.sub_self, List.set_cons_zero]
  rw [tokenize, hpad, hloop, Option.bind_eq_bind, Option.bind_some, Scan.store, if_pos hinside, hset]

def noArgs : Vector (Option ℕ) 32 := Vector.replicate 32 none

theorem tokenize_shows_ls : ∃ s, tokenize 1024 noArgs (bytes " ls\t-l \n") = some s ∧
    Shows s (arguments (bytes " ls\t-l \n")) :=
  tokenize_shows (by decide) (le_refl _) noArgs

end JurkOS.Userland.Tokens
