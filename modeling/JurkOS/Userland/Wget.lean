import JurkOS.Lib.Libc

/-!
The download loops of `NoneCompiled/wget.c`: the end of the header is searched in
each chunk, in a buffer that older chunks have been read into.
-/

namespace JurkOS.Userland.Wget

open Lib.Libc

def TERMINATOR : Str := bytes "\r\n\r\n"

/-- One read into `buf[4096]`; `after` is what lies behind the buffer when it is searched. -/
structure Chunk where
  bytes : Str
  ne_nil : bytes ≠ []
  length_le : bytes.length ≤ 4096
  after : Str

def fill (buf : Str) (c : Chunk) : Str := c.bytes ++ buf.drop c.bytes.length

def headerEnd (buf : Str) (c : Chunk) : Option ℕ := strstr TERMINATOR (cstr (fill buf c ++ c.after))

/-- What a loop writes to `out`; `total_bytes` is the length of it. -/
def receive : Str → Bool → List Chunk → Str
  | _, _, [] => []
  | buf, headerPassed, c :: rest =>
    if ¬headerPassed then
      match headerEnd buf c with
      | some hdrEnd => c.bytes.drop (hdrEnd + 4) ++ receive (fill buf c) true rest
      | none => receive (fill buf c) false rest
    else c.bytes ++ receive (fill buf c) true rest

def httpLoop (buf : Str) (chunks : List Chunk) : Str := receive buf false chunks

def httpsLoop (buf : Str) (chunks : List Chunk) : Str := receive buf false chunks

def stream (chunks : List Chunk) : Str := chunks.flatMap Chunk.bytes

def body (s : Str) : Str :=
  match strstr TERMINATOR s with
  | some i => s.drop (i + 4)
  | none => []

def filled (buf : Str) (chunks : List Chunk) : Str := chunks.foldl fill buf

def Quiet (buf : Str) (chunks : List Chunk) : Prop :=
  ∀ l c rest, chunks = l ++ c :: rest → headerEnd (filled buf l) c = none

inductive HeaderSeen (buf : Str) (chunks : List Chunk) : Prop
  | inside {l rest : List Chunk} {c : Chunk} {i : ℕ} (hsplit : chunks = l ++ c :: rest) (hquiet : Quiet buf l)
      (hfirst : strstr TERMINATOR (stream chunks) = some ((stream l).length + i))
      (hfit : i + 4 ≤ c.bytes.length) (hnul : 0 ∉ c.bytes.take i)
  | overhang {l rest : List Chunk} {c : Chunk} {i : ℕ} (hsplit : chunks = l ++ c :: rest) (hquiet : Quiet buf l)
      (hstale : headerEnd (filled buf l) c = some i) (hover : c.bytes.length < i + 4)
      (hend : (∃ j, strstr TERMINATOR (stream chunks) = some j ∧ j + 4 = (stream l).length + c.bytes.length) ∨
        (strstr TERMINATOR (stream chunks) = none ∧ rest = []))
  | nothing (hquiet : Quiet buf chunks) (hbody : body (stream chunks) = [])

def copyStart : Str → List Chunk → ℕ
  | _, [] => 0
  | buf, c :: rest =>
    match headerEnd buf c with
    | some i => min (i + 4) c.bytes.length
    | none => c.bytes.length + copyStart (fill buf c) rest

def headerLength (s : Str) : ℕ :=
  match strstr TERMINATOR s with
  | some i => i + 4
  | none => s.length

@[simp] theorem stream_nil : stream [] = [] := rfl

@[simp] theorem stream_cons (c : Chunk) (rest : List Chunk) : stream (c :: rest) = c.bytes ++ stream rest := rfl

@[simp] theorem stream_append (l l' : List Chunk) : stream (l ++ l') = stream l ++ stream l' := List.flatMap_append

theorem body_eq_drop (s : Str) : body s = s.drop (headerLength s) := by
  unfold body headerLength
  split
  · rfl
  · exact (List.drop_length).symm

theorem receive_passed (buf : Str) (chunks : List Chunk) : receive buf true chunks = stream chunks := by
  induction chunks generalizing buf with
  | nil => rfl
  | cons c rest ih => simp [receive, ih]

theorem copyStart_le (buf : Str) (chunks : List Chunk) : copyStart buf chunks ≤ (stream chunks).length := by
  induction chunks generalizing buf with
  | nil => exact Nat.zero_le _
  | cons c rest ih =>
    have hrest := ih (fill buf c)
    rw [stream_cons, List.length_append, copyStart]
    split <;> omega

theorem receive_eq_drop (buf : Str) (chunks : List Chunk) :
    receive buf false chunks = (stream chunks).drop (copyStart buf chunks) := by
  induction chunks generalizing buf with
  | nil => rfl
  | cons c rest ih =>
    simp only [receive, copyStart, stream_cons, Bool.false_eq_true, not_false_eq_true, if_true]
    cases headerEnd buf c with
    | none =>
      dsimp only
      rw [ih, List.drop_append, Nat.add_sub_cancel_left, List.drop_of_length_le (Nat.le_add_right _ _),
        List.nil_append]
    | some i =>
      dsimp only
      rw [receive_passed, List.drop_append, Nat.sub_eq_zero_of_le (Nat.min_le_right _ _), List.drop_zero]
      congr 1
      by_cases hfit : i + 4 ≤ c.bytes.length
      · rw [Nat.min_eq_left hfit]
      · rw [Nat.min_eq_right (by omega), List.drop_length, List.drop_of_length_le (by omega)]

theorem terminator_fits {s : Str} {i : ℕ} (h : TERMINATOR <+: s.drop i) : i + 4 ≤ s.length := by
  have hlen := h.length_le
  have h4 : TERMINATOR.length = 4 := by decide
  rw [List.length_drop] at hlen
  omega

theorem terminator_ne_nil : TERMINATOR ≠ [] := by decide

theorem headerLength_le (s : Str) : headerLength s ≤ s.length := by
  unfold headerLength
  split
  · rename_i i hi
    exact terminator_fits ((strstr_eq_some_iff terminator_ne_nil).mp hi).1
  · exact le_refl _

theorem receive_eq_body_iff (buf : Str) (chunks : List Chunk) :
    receive buf false chunks = body (stream chunks) ↔ copyStart buf chunks = headerLength (stream chunks) := by
  rw [receive_eq_drop, body_eq_drop]
  constructor
  · intro h
    have hlen := congrArg List.length h
    rw [List.length_drop, List.length_drop] at hlen
    have := copyStart_le buf chunks
    have := headerLength_le (stream chunks)
    omega
  · intro h
    rw [h]

theorem terminator_congr {s t : Str} {i n : ℕ} (h : s.take n = t.take n) (hi : i + 4 ≤ n) :
    TERMINATOR <+: s.drop i ↔ TERMINATOR <+: t.drop i := by
  have hwindow (x : Str) : (x.drop i).take 4 = ((x.take n).drop i).take 4 := by
    rw [List.drop_take, List.take_take, Nat.min_eq_left (by omega)]
  have h4 : TERMINATOR.length = 4 := by decide
  rw [List.prefix_iff_eq_take, List.prefix_iff_eq_take, h4, hwindow s, hwindow t, h]

theorem take_cstr {s : Str} {k : ℕ} (h : k ≤ (cstr s).length) : (cstr s).take k = s.take k := by
  obtain ⟨t, ht⟩ := cstr_initial s
  conv_rhs => rw [← ht]
  exact (List.take_append_of_le_length h).symm

theorem length_cstr_ge {s : Str} {k : ℕ} (h : 0 ∉ s.take k) (hk : k ≤ s.length) : k ≤ (cstr s).length := by
  have hall : ∀ c ∈ s.take k, (decide (c ≠ 0)) = true := by
    intro c hc
    rw [decide_eq_true_eq]
    rintro rfl
    exact h hc
  have hsplit : cstr s = s.take k ++ cstr (s.drop k) := by
    conv_lhs => rw [← List.take_append_drop k s]
    exact List.takeWhile_append_of_pos hall
  rw [hsplit, List.length_append, List.length_take, Nat.min_eq_left hk]
  exact Nat.le_add_right _ _

theorem take_fill {buf : Str} {c : Chunk} {k : ℕ} (h : k ≤ c.bytes.length) :
    (fill buf c ++ c.after).take k = c.bytes.take k := by
  rw [fill, List.append_assoc, List.take_append_of_le_length h]

theorem headerEnd_inside {buf : Str} {c : Chunk} {i : ℕ} (h : headerEnd buf c = some i)
    (hfit : i + 4 ≤ c.bytes.length) : TERMINATOR <+: c.bytes.drop i ∧ 0 ∉ c.bytes.take i := by
  obtain ⟨hi, -⟩ := (strstr_eq_some_iff terminator_ne_nil).mp h
  have htake := (take_cstr (terminator_fits hi)).trans (take_fill hfit)
  refine ⟨(terminator_congr htake (le_refl _)).mp hi, fun hmem => ?_⟩
  have hmem' : 0 ∈ c.bytes.take (i + 4) := (List.take_subset_take_left c.bytes (by omega)) hmem
  rw [← htake] at hmem'
  exact zero_notMem_cstr _ (List.mem_of_mem_take hmem')

theorem headerEnd_of_inside {buf : Str} {c : Chunk} {i : ℕ} (h : TERMINATOR <+: c.bytes.drop i)
    (hnul : 0 ∉ c.bytes.take i) (hleast : ∀ j < i, ¬TERMINATOR <+: c.bytes.drop j) : headerEnd buf c = some i := by
  have hfit := terminator_fits h
  have hnul' : 0 ∉ c.bytes.take (i + 4) := by
    obtain ⟨t, ht⟩ := h
    rw [List.take_add, ← ht, List.take_left' (by decide), List.mem_append, not_or]
    exact ⟨hnul, by decide⟩
  have htake : (fill buf c ++ c.after).take (i + 4) = c.bytes.take (i + 4) := take_fill hfit
  have hlen : i + 4 ≤ (cstr (fill buf c ++ c.after)).length := by
    apply length_cstr_ge
    · rwa [htake]
    · rw [fill, List.length_append, List.length_append]
      omega
  have hview := (take_cstr hlen).trans htake
  rw [headerEnd, strstr_eq_some_iff terminator_ne_nil]
  refine ⟨(terminator_congr hview (le_refl _)).mpr h, fun j hj hfound => hleast j hj ?_⟩
  exact (terminator_congr hview (by omega)).mp hfound

theorem quiet_nil (buf : Str) : Quiet buf [] := by
  intro l c rest h
  simp at h

theorem Quiet.cons {buf : Str} {c : Chunk} {l : List Chunk} (hc : headerEnd buf c = none)
    (hl : Quiet (fill buf c) l) : Quiet buf (c :: l) := by
  intro before d rest h
  cases before with
  | nil =>
    obtain ⟨rfl, -⟩ := List.cons.inj h
    exact hc
  | cons e before =>
    obtain ⟨rfl, hrest⟩ := List.cons.inj h
    exact hl before d rest hrest

theorem Quiet.head {buf : Str} {c : Chunk} {l : List Chunk} (h : Quiet buf (c :: l)) : headerEnd buf c = none :=
  h [] c l rfl

theorem Quiet.tail {buf : Str} {c : Chunk} {l : List Chunk} (h : Quiet buf (c :: l)) : Quiet (fill buf c) l :=
  fun before d rest he => h (c :: before) d rest (by rw [he, List.cons_append])

theorem copyStart_quiet {buf : Str} {l : List Chunk} (h : Quiet buf l) (l' : List Chunk) :
    copyStart buf (l ++ l') = (stream l).length + copyStart (filled buf l) l' := by
  induction l generalizing buf with
  | nil => simp [filled]
  | cons c l ih =>
    have htail := ih h.tail
    simp only [List.cons_append, copyStart, h.head, htail, stream_cons, List.length_append, Nat.add_assoc]
    rfl

theorem quiet_or_shown (buf : Str) (chunks : List Chunk) :
    Quiet buf chunks ∨ ∃ l c rest i, chunks = l ++ c :: rest ∧ Quiet buf l ∧
      headerEnd (filled buf l) c = some i := by
  induction chunks generalizing buf with
  | nil => exact .inl (quiet_nil buf)
  | cons c rest ih =>
    cases hc : headerEnd buf c with
    | some i => exact .inr ⟨[], c, rest, i, rfl, quiet_nil buf, hc⟩
    | none =>
      rcases ih (fill buf c) with hquiet | ⟨l, d, rest', i, hsplit, hquiet, hd⟩
      · exact .inl (hquiet.cons hc)
      · exact .inr ⟨c :: l, d, rest', i, by rw [hsplit, List.cons_append], hquiet.cons hc, hd⟩

theorem copyStart_shown {buf : Str} {l rest : List Chunk} {c : Chunk} {i : ℕ} (hquiet : Quiet buf l)
    (hc : headerEnd (filled buf l) c = some i) :
    copyStart buf (l ++ c :: rest) = (stream l).length + min (i + 4) c.bytes.length := by
  rw [copyStart_quiet hquiet, copyStart, hc]

theorem copyStart_of_quiet {buf : Str} {chunks : List Chunk} (h : Quiet buf chunks) :
    copyStart buf chunks = (stream chunks).length := by
  have := copyStart_quiet h []
  rwa [List.append_nil] at this

theorem terminator_stream {l rest : List Chunk} {c : Chunk} {i : ℕ} (hfit : i + 4 ≤ c.bytes.length) :
    TERMINATOR <+: (stream (l ++ c :: rest)).drop ((stream l).length + i) ↔ TERMINATOR <+: c.bytes.drop i := by
  have hdrop : (stream (l ++ c :: rest)).drop ((stream l).length + i) = (c.bytes ++ stream rest).drop i := by
    rw [stream_append, stream_cons, ← List.drop_drop, List.drop_left]
  rw [hdrop]
  exact terminator_congr (List.take_append_of_le_length (le_refl _)) hfit

theorem stream_eq_nil {l : List Chunk} (h : stream l = []) : l = [] := by
  cases l with
  | nil => rfl
  | cons c l => exact absurd (List.append_eq_nil_iff.mp h).1 c.ne_nil

theorem headerLength_of_some {s : Str} {i : ℕ} (h : strstr TERMINATOR s = some i) : headerLength s = i + 4 := by
  simp only [headerLength, h]

theorem headerLength_of_none {s : Str} (h : strstr TERMINATOR s = none) : headerLength s = s.length := by
  simp only [headerLength, h]

theorem copyStart_of_seen {buf : Str} {chunks : List Chunk} (h : HeaderSeen buf chunks) :
    copyStart buf chunks = headerLength (stream chunks) := by
  cases h with
  | @inside l rest c i hsplit hquiet hfirst hfit hnul =>
    rw [headerLength_of_some hfirst]
    subst hsplit
    obtain ⟨hi, hleast⟩ := (strstr_eq_some_iff terminator_ne_nil).mp hfirst
    have hshown : headerEnd (filled buf l) c = some i := by
      refine headerEnd_of_inside ((terminator_stream hfit).mp hi) hnul fun j hj hfound => ?_
      exact hleast _ (by omega) ((terminator_stream (by omega)).mpr hfound)
    rw [copyStart_shown hquiet hshown, Nat.min_eq_left hfit, Nat.add_assoc]
  | @overhang l rest c i hsplit hquiet hstale hover hend =>
    subst hsplit
    rw [copyStart_shown hquiet hstale, Nat.min_eq_right (by omega)]
    obtain ⟨j, hj, he⟩ | ⟨hnone, rfl⟩ := hend
    · rw [headerLength_of_some hj, he]
    · rw [headerLength_of_none hnone]
      simp
  | nothing hquiet hbody =>
    rw [copyStart_of_quiet hquiet]
    rw [body_eq_drop, List.drop_eq_nil_iff] at hbody
    exact Nat.le_antisymm hbody (headerLength_le _)

theorem seen_of_copyStart {buf : Str} {chunks : List Chunk}
    (h : copyStart buf chunks = headerLength (stream chunks)) : HeaderSeen buf chunks := by
  rcases quiet_or_shown buf chunks with hquiet | ⟨l, c, rest, i, rfl, hquiet, hshown⟩
  · rw [copyStart_of_quiet hquiet] at h
    refine .nothing hquiet ?_
    rw [body_eq_drop, ← h, List.drop_length]
  · rw [copyStart_shown hquiet hshown] at h
    cases hfirst : strstr TERMINATOR (stream (l ++ c :: rest)) with
    | none =>
      rw [headerLength_of_none hfirst, stream_append, stream_cons, List.length_append, List.length_append] at h
      have hrest : stream rest = [] := List.length_eq_zero_iff.mp (by omega)
      by_cases hfit : i + 4 ≤ c.bytes.length
      · obtain ⟨hi, -⟩ := headerEnd_inside hshown hfit
        exact absurd ((terminator_stream hfit).mpr hi) (strstr_eq_none_iff.mp hfirst _)
      · exact .overhang rfl hquiet hshown (by omega) (.inr ⟨hfirst, stream_eq_nil hrest⟩)
    | some j =>
      rw [headerLength_of_some hfirst] at h
      by_cases hfit : i + 4 ≤ c.bytes.length
      · obtain ⟨hi, hnul⟩ := headerEnd_inside hshown hfit
        rw [Nat.min_eq_left hfit] at h
        have hj : j = (stream l).length + i := by omega
        exact .inside rfl hquiet (hj ▸ hfirst) hfit hnul
      · rw [Nat.min_eq_right (by omega)] at h
        exact .overhang rfl hquiet hshown (by omega) (.inl ⟨j, hfirst, h.symm⟩)

theorem download_body_iff (buf : Str) (chunks : List Chunk) :
    (httpLoop buf chunks = body (stream chunks) ∧ httpsLoop buf chunks = body (stream chunks)) ↔
      HeaderSeen buf chunks := by
  simp only [httpLoop, httpsLoop, and_self, receive_eq_body_iff]
  exact ⟨seen_of_copyStart, copyStart_of_seen⟩

theorem download_split : ∃ c d : Chunk,
    c.bytes = bytes "HTTP/1.0 200 OK\r\n" ∧ d.bytes = bytes "\r\nbody" ∧
    body (stream [c, d]) = bytes "body" ∧ httpLoop (List.replicate 4096 0) [c, d] = [] := by
  refine ⟨⟨bytes "HTTP/1.0 200 OK\r\n", by decide, by decide, []⟩, ⟨bytes "\r\nbody", by decide, by decide, []⟩,
    rfl, rfl, ?_, ?_⟩
  · decide
  · decide

end JurkOS.Userland.Wget
