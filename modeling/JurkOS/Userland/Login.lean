import JurkOS.Userland.Base64
import JurkOS.Lib.Run

/-!
First-time setup and the login loop of `NoneCompiled/main.c`.
-/

namespace JurkOS.Userland

open Lib.Libc Lib.Run

def SETUP_MARKER : Str := bytes "/encrypted/.setup_done"
def USER_DB_PATH : Str := bytes "/encrypted/userlogin/"
def DEFAULT_USERNAME : Str := bytes "AmineTheJurk"

abbrev Files := Str → Option Str

def stripNewline (str : Str) : Str := str.rdropWhile fun c => c = NEWLINE ∨ c = RETURN

def userPath (username : Str) : Str := snprintf 256 (USER_DB_PATH ++ username)

def authFile (username : Str) : Str := snprintf 512 (userPath username ++ bytes "/auth")

def creds (username password : Str) : Str := snprintf 128 (username ++ bytes ":" ++ password)

def token (username password : Str) : Str := base64Encode (creds username password)

/-- The loop that asks for a name until it gets one, with the rest of the input; each round that
reads anything uses up a byte, and at the end of the input the loop goes on for ever. -/
def usernameLoop : ℕ → Str → Option (Str × Str)
  | 0, _ => none
  | n + 1, stdin =>
    match fgets 64 stdin with
    | none => none
    | some (chunk, rest) =>
      if (stripNewline (cstr chunk)).length > 0 then some (stripNewline (cstr chunk), rest) else usernameLoop n rest

structure Registration where
  username : Str
  password : Str
  files : Files

/-- `canWrite path`: `fopen(path, "w")` succeeds, once the directories have been made. -/
def firstTimeSetup (canWrite : Str → Bool) (files : Files) (stdin : Str) : Option Registration := do
  let (username, stdin) ← usernameLoop (stdin.length + 1) stdin
  let password :=
    match fgets 64 stdin with
    | none => []
    | some (chunk, _) => stripNewline (cstr chunk)
  let auth := authFile username
  let files := if canWrite auth then Function.update files auth (some (token username password)) else files
  let files := if canWrite SETUP_MARKER then Function.update files SETUP_MARKER (some username) else files
  some ⟨username, password, files⟩

def loginUsername (files : Files) : Str :=
  let username :=
    match files SETUP_MARKER with
    | none => DEFAULT_USERNAME
    | some content =>
      match fgets 64 content with
      | none => DEFAULT_USERNAME
      | some (chunk, _) => stripNewline (cstr chunk)
  if username.length = 0 then DEFAULT_USERNAME else username

inductive Outcome
  | shell
  | incorrect
  deriving DecidableEq

def loginAttempt (files : Files) (username chunk : Str) : Outcome :=
  let password := stripNewline (cstr chunk)
  if password.length = 0 then .shell
  else
    match files (authFile username) with
    | none => .shell
    | some content =>
      let storedEncoded :=
        match fgets 256 content with
        | none => []
        | some (line, _) => cstr line
      let inputEncoded := base64Encode (creds username password)
      if storedEncoded = inputEncoded then .shell else .incorrect

structure Attempt where
  files : Files
  chunk : Str
  outcome : Outcome

def Attempt.password (i : Attempt) : Str := stripNewline (cstr i.chunk)

def LoginStep (username : Str) (s : Files) (i : Attempt) (t : Files) : Prop :=
  i.files = s ∧ (∃ input rest, fgets 64 input = some (i.chunk, rest)) ∧
    i.outcome = loginAttempt s username i.chunk ∧ (i.outcome = .incorrect → t = s)

structure Entered (s : Str) : Prop where
  noZero : 0 ∉ s
  noNewline : NEWLINE ∉ s
  length : s.length ≤ 63
  stripped : stripNewline s = s

theorem stripNewline_initial (s : Str) : stripNewline s <+: s := List.rdropWhile_prefix _ _

theorem entered_of_fgets {stream chunk rest : Str} (h : fgets 64 stream = some (chunk, rest)) :
    Entered (stripNewline (cstr chunk)) := by
  have hpre := stripNewline_initial (cstr chunk)
  have hchunk := hpre.trans (cstr_initial chunk)
  refine ⟨fun hz => zero_notMem_cstr chunk (hpre.subset hz), ?_, hchunk.length_le.trans (fgets_length h), ?_⟩
  · intro hn
    -- a newline left over would be the last byte, and that one was stripped
    obtain ⟨r, hr⟩ := hchunk
    have hlast := fgets_newline h
    have hne : stripNewline (cstr chunk) ≠ [] := List.ne_nil_of_mem hn
    rw [← List.dropLast_append_getLast hne, List.mem_append, List.mem_singleton] at hn
    rcases hn with hn | hn
    · apply hlast
      rw [← hr]
      cases hrn : r with
      | nil => rwa [List.append_nil]
      | cons c r =>
        rw [List.dropLast_append_of_ne_nil (List.cons_ne_nil c r)]
        exact List.mem_append_left _ ((List.dropLast_subset _) hn)
    · have hstop := List.rdropWhile_last_not (fun c : UInt8 => decide (c = NEWLINE ∨ c = RETURN)) (cstr chunk) hne
      apply hstop
      rw [decide_eq_true_eq]
      exact .inl hn.symm
  · exact List.rdropWhile_idempotent _ _

theorem usernameLoop_entered {n : ℕ} {stdin name rest : Str} (h : usernameLoop n stdin = some (name, rest)) :
    Entered name ∧ name ≠ [] := by
  induction n generalizing stdin with
  | zero => cases h
  | succ n ih =>
    rw [usernameLoop] at h
    cases hf : fgets 64 stdin with
    | none =>
      rw [hf] at h
      cases h
    | some r =>
      obtain ⟨chunk, rest'⟩ := r
      rw [hf] at h
      dsimp only at h
      split_ifs at h with hlen
      · obtain ⟨rfl, -⟩ := Prod.mk.inj (Option.some.inj h)
        exact ⟨entered_of_fgets hf, List.length_pos_iff.mp hlen⟩
      · exact ih h

theorem entered_nil : Entered [] := ⟨List.not_mem_nil, List.not_mem_nil, Nat.zero_le _, rfl⟩

theorem setup_entered {canWrite : Str → Bool} {files : Files} {stdin : Str} {reg : Registration}
    (h : firstTimeSetup canWrite files stdin = some reg) :
    Entered reg.username ∧ reg.username ≠ [] ∧ Entered reg.password := by
  simp only [firstTimeSetup, Option.bind_eq_bind, Option.bind_eq_some_iff] at h
  obtain ⟨⟨username, rest⟩, hname, h⟩ := h
  obtain rfl := Option.some.inj h
  obtain ⟨hentered, hne⟩ := usernameLoop_entered hname
  refine ⟨hentered, hne, ?_⟩
  dsimp only
  cases hf : fgets 64 rest with
  | none => exact entered_nil
  | some r => exact entered_of_fgets hf

theorem creds_eq {username password : Str} (hu : Entered username) (hp : Entered password) :
    creds username password = username ++ bytes ":" ++ password := by
  apply snprintf_of_lt
  have := hu.length
  have := hp.length
  have hcolon : (bytes ":").length = 1 := rfl
  rw [List.length_append, List.length_append, hcolon]
  omega

theorem zero_notMem_creds {username password : Str} (hu : Entered username) (hp : Entered password) :
    0 ∉ creds username password := by
  have hcolon : (0 : UInt8) ∉ bytes ":" := by decide
  rw [creds_eq hu hp, List.mem_append, List.mem_append, not_or, not_or]
  exact ⟨⟨hu.noZero, hcolon⟩, hp.noZero⟩

theorem token_inj {username password password' : Str} (hu : Entered username) (hp : Entered password)
    (hp' : Entered password') (h : token username password = token username password') : password = password' := by
  have heq := base64Encode_injective (zero_notMem_creds hu hp) (zero_notMem_creds hu hp') h
  rw [creds_eq hu hp, creds_eq hu hp'] at heq
  exact List.append_cancel_left heq

theorem cstr_base64Encode (s : Str) : cstr (base64Encode s) = base64Encode s :=
  cstr_of_notMem fun h => (base64Encode_text h).1 rfl

theorem length_base64Encode_lt {s : Str} (h : s.length ≤ 127) : (base64Encode s).length < 256 := by
  rw [length_base64Encode]
  omega

theorem fgets_base64Encode {s : Str} (hne : s ≠ []) (h : s.length ≤ 127) :
    fgets 256 (base64Encode s) = some (base64Encode s, []) := by
  apply fgets_of_notMem
  · exact fun hmem => (base64Encode_text hmem).2 rfl
  · intro hnil
    have hlen := length_base64Encode s
    have hpos := List.length_pos_iff.mpr hne
    rw [hnil, List.length_nil] at hlen
    omega
  · exact length_base64Encode_lt h

theorem token_stored {username password : Str} (hu : Entered username) (hp : Entered password) :
    fgets 256 (token username password) = some (token username password, []) ∧
      cstr (token username password) = token username password := by
  have hcolon : (bytes ":").length = 1 := rfl
  have hcreds : (creds username password).length = username.length + 1 + password.length := by
    rw [creds_eq hu hp, List.length_append, List.length_append, hcolon]
  have := hu.length
  have := hp.length
  refine ⟨fgets_base64Encode ?_ (by omega), cstr_base64Encode _⟩
  exact List.ne_nil_of_length_pos (by omega)

def storedEncoded (content : Str) : Str :=
  match fgets 256 content with
  | none => []
  | some (line, _) => cstr line

theorem storedEncoded_base64Encode {s : Str} (h : s.length ≤ 127) :
    storedEncoded (base64Encode s) = base64Encode s := by
  rw [storedEncoded]
  by_cases hnil : s = []
  · rw [hnil]
    rfl
  · rw [fgets_base64Encode hnil h]
    exact cstr_base64Encode s

theorem base64Encode_decides {s t : Str} (hs : 0 ∉ s) (ht : 0 ∉ t) :
    (base64Encode s = base64Encode t → s = t) ∧
      (s.length ≤ 127 → (base64Encode s).length + 1 ≤ 256 ∧
        (strcmp (storedEncoded (base64Encode s)) (base64Encode t) = 0 ↔ s = t)) := by
  refine ⟨base64Encode_injective hs ht, fun hlen => ⟨length_base64Encode_lt hlen, ?_⟩⟩
  rw [storedEncoded_base64Encode hlen,
    strcmp_eq_zero (fun hmem => (base64Encode_text hmem).1 rfl) fun hmem => (base64Encode_text hmem).1 rfl]
  constructor
  · exact base64Encode_injective hs ht
  · rintro rfl
    rfl

theorem base64Encode_decides_password :
    (base64Encode (bytes "a:b")).length + 1 ≤ 256 ∧
      (strcmp (storedEncoded (base64Encode (bytes "a:b"))) (base64Encode (bytes "a:c")) = 0 ↔
        bytes "a:b" = bytes "a:c") :=
  (base64Encode_decides (by decide) (by decide)).2 (by decide)

theorem loginAttempt_of_empty {files : Files} {username chunk : Str} (h : stripNewline (cstr chunk) = []) :
    loginAttempt files username chunk = .shell := by
  simp only [loginAttempt, h, List.length_nil, ↓reduceIte]

theorem loginAttempt_iff {files : Files} {username password chunk input rest : Str} (hu : Entered username)
    (hp : Entered password) (hread : fgets 64 input = some (chunk, rest))
    (hauth : files (authFile username) = some (token username password)) :
    loginAttempt files username chunk = .shell ↔
      stripNewline (cstr chunk) = [] ∨ stripNewline (cstr chunk) = password := by
  have hentered := entered_of_fgets hread
  obtain ⟨hstored, hcstr⟩ := token_stored hu hp
  by_cases hempty : stripNewline (cstr chunk) = []
  · exact ⟨fun _ => .inl hempty, fun _ => loginAttempt_of_empty hempty⟩
  have hlen : ¬(stripNewline (cstr chunk)).length = 0 := fun h => hempty (List.length_eq_zero_iff.mp h)
  have hrun : loginAttempt files username chunk =
      if token username password = token username (stripNewline (cstr chunk)) then .shell else .incorrect := by
    simp only [loginAttempt, if_neg hlen, hauth, hstored, hcstr]
    rfl
  rw [hrun]
  constructor
  · intro h
    split_ifs at h with heq
    exact .inr (token_inj hu hp hentered heq).symm
  · rintro (h | rfl)
    · exact absurd h hempty
    · rw [if_pos rfl]

theorem authFile_ne_marker (username : Str) : authFile username ≠ SETUP_MARKER := by
  intro h
  have hpath : userPath username = USER_DB_PATH ++ username.take 234 := by
    have hlen : USER_DB_PATH.length = 21 := rfl
    rw [userPath, snprintf, List.take_append, List.take_of_length_le (by rw [hlen]; omega), hlen]
  have hchar := congrArg (fun s : Str => s[11]?) h
  simp only [authFile, hpath, snprintf, List.append_assoc] at hchar
  rw [List.getElem?_take_of_lt (by omega), List.getElem?_append_left (by decide)] at hchar
  revert hchar
  decide

theorem loginUsername_of_marker {files : Files} {username : Str} (hu : Entered username) (hne : username ≠ [])
    (h : files SETUP_MARKER = some username) : loginUsername files = username := by
  have hread := fgets_of_notMem hu.noNewline hne (Nat.lt_succ_of_le hu.length)
  have hlen : ¬username.length = 0 := fun h => hne (List.length_eq_zero_iff.mp h)
  simp only [loginUsername, h, hread, cstr_of_notMem hu.noZero, hu.stripped, if_neg hlen]

theorem setup_files {canWrite : Str → Bool} {files : Files} {stdin : Str} {reg : Registration}
    (h : firstTimeSetup canWrite files stdin = some reg) (hauth : canWrite (authFile reg.username) = true)
    (hmarker : canWrite SETUP_MARKER = true) :
    reg.files SETUP_MARKER = some reg.username ∧
      reg.files (authFile reg.username) = some (token reg.username reg.password) := by
  simp only [firstTimeSetup, Option.bind_eq_bind, Option.bind_eq_some_iff] at h
  obtain ⟨⟨username, rest⟩, -, h⟩ := h
  obtain rfl := Option.some.inj h
  dsimp only at hauth ⊢
  rw [if_pos hmarker, if_pos hauth]
  refine ⟨Function.update_self .., ?_⟩
  rw [Function.update_of_ne (authFile_ne_marker _), Function.update_self]

theorem login_shell {canWrite : Str → Bool} {files : Files} {stdin : Str} {reg : Registration}
    (hreg : firstTimeSetup canWrite files stdin = some reg) :
    (∀ s₀ s l, loginUsername s₀ = reg.username → Steps (LoginStep (loginUsername s₀)) s₀ l s →
      ∀ i ∈ l, i.outcome = .shell → i.password = [] ∨ i.password = reg.password ∨
        i.files (authFile reg.username) ≠ some (token reg.username reg.password)) ∧
    (canWrite (authFile reg.username) = true → canWrite SETUP_MARKER = true → ∀ s l,
      Steps (fun s i t => LoginStep (loginUsername reg.files) s i t ∧
        t (authFile reg.username) = s (authFile reg.username)) reg.files l s →
      ∀ i ∈ l, (i.outcome = .shell ↔ i.password = [] ∨ i.password = reg.password)) := by
  obtain ⟨hu, hne, hp⟩ := setup_entered hreg
  have hattempt {s t : Files} {i : Attempt} (h : LoginStep reg.username s i t)
      (hauth : i.files (authFile reg.username) = some (token reg.username reg.password)) :
      i.outcome = .shell ↔ i.password = [] ∨ i.password = reg.password := by
    obtain ⟨hfiles, ⟨input, rest, hread⟩, hout, -⟩ := h
    rw [hout, ← hfiles]
    exact loginAttempt_iff hu hp hread hauth
  constructor
  · intro s₀ s l hname hrun
    rw [hname] at hrun
    clear hname
    induction hrun with
    | nil s => exact fun i hi => absurd hi List.not_mem_nil
    | @cons s t u j l hstep rest ih =>
      intro i hi hshell
      rcases List.mem_cons.mp hi with rfl | hi
      · by_cases hauth : i.files (authFile reg.username) = some (token reg.username reg.password)
        · exact ((hattempt hstep hauth).mp hshell).imp id .inl
        · exact .inr (.inr hauth)
      · exact ih i hi hshell
  · intro hwrite hmarker s l hrun
    obtain ⟨hmark, hauth⟩ := setup_files hreg hwrite hmarker
    rw [loginUsername_of_marker hu hne hmark] at hrun
    clear hmark
    -- the token stays in the file along the run
    generalize reg.files = s₀ at hrun hauth
    induction hrun with
    | nil s => exact fun i hi => absurd hi List.not_mem_nil
    | @cons s t u j l hstep rest ih =>
      intro i hi
      rcases List.mem_cons.mp hi with rfl | hi
      · exact hattempt hstep.1 (by rw [hstep.1.1]; exact hauth)
      · exact ih (hstep.2.trans hauth) i hi

def rootSetup (canWrite : Str → Bool) : Option Registration :=
  firstTimeSetup canWrite (fun _ => none) (bytes "root\nsecret\n")

theorem login_shell_guess : ∃ reg, rootSetup (fun _ => true) = some reg ∧
    (Outcome.incorrect = .shell ↔ bytes "guess" = [] ∨ bytes "guess" = reg.password) :=
  ⟨_, rfl, (login_shell
    (show firstTimeSetup (fun _ => true) (fun _ => none) (bytes "root\nsecret\n") = some _ from rfl)).2 rfl rfl _
      [⟨_, bytes "guess\n", .incorrect⟩]
    (.single ⟨⟨rfl, ⟨bytes "guess\n", [], rfl⟩, by decide, fun _ => rfl⟩, rfl⟩) _ List.mem_cons_self⟩

theorem login_fails_open : ∃ reg reg', rootSetup (fun _ => true) = some reg ∧
    loginAttempt reg.files (loginUsername reg.files) (bytes "\n") = .shell ∧
    stripNewline (cstr (bytes "\n")) ≠ reg.password ∧
    rootSetup (fun path => path = SETUP_MARKER) = some reg' ∧
    loginAttempt reg'.files (loginUsername reg'.files) (bytes "guess\n") = .shell ∧
    stripNewline (cstr (bytes "guess\n")) ≠ reg'.password := by
  refine ⟨_, _, rfl, ?_, ?_, rfl, ?_, ?_⟩
  all_goals decide

end JurkOS.Userland
