import JurkOS.Userland.Removal
import JurkOS.Userland.Text

/-!
The loop of `run_shell` of `NoneCompiled/main.c`: which commands a text on `stdin` makes
it carry out, and which files it starts. The commands themselves are given from outside,
but for what `cat` and `less` take of `stdin`.
-/

namespace JurkOS.Userland.Session

open Lib.Libc Lib.Paths Lib.Pieces
open Removal (arguments)

/-- What the system and the commands do; `taken` is how many bytes of `stdin` a program reads. -/
structure System (W : Type) where
  fopen : W → Fopen
  builtin : List Str → W → W
  access : W → Str → Bool
  fork : W → Bool × W
  execv : Str → List Str → W → W
  taken : Str → List Str → W → ℕ

inductive Deed
  | builtin (args : List Str)
  | leave (args : List Str)
  | program (path : Str) (args : List Str)
  | notFound (args : List Str)
  deriving DecidableEq

def Deed.args : Deed → List Str
  | builtin args | leave args | program _ args | notFound args => args

def builtins : List Str :=
  ["help", "pwd", "cd", "ls", "mkdir", "rmdir", "touch", "cp", "mv", "rm", "cat", "less", "head", "tail", "grep", "wc",
    "sort", "uniq", "echo", "ps", "kill", "df", "du", "free", "uname", "date", "clear", "devs"].map bytes

/-- The first two return to the login, the others end the process. -/
def leavers : List Str := ["logout", "exit", "reboot", "poweroff", "shutdown"].map bytes

def isOneOf (names : List Str) (cmd : Str) : Bool := names.any fun name => strcmp cmd name = 0

def searchPaths : List Str := ["/bin", "/sbin", "/usr/apps", "."].map bytes

def candidates (cmd : Str) : List Str :=
  searchPaths.flatMap fun dir =>
    [snprintf 512 (dir ++ SLASH :: cmd), snprintf 512 (dir ++ SLASH :: (cmd ++ bytes ".jex"))]

variable {W : Type} (o : System W)

def search : List Str → W → Option Str × W
  | [], w => (none, w)
  | path :: paths, w =>
    if o.access w path then
      let (forked, w) := o.fork w
      if forked then (some path, w) else search paths w
    else search paths w

def stdinAfter (args : List Str) (w : W) (stdin : Str) : Str :=
  if strcmp (args.headD []) (bytes "cat") = 0 then (Text.cmdCat (o.fopen w) stdin args).2
  else if strcmp (args.headD []) (bytes "less") = 0 then (Text.cmdLess (o.fopen w) stdin args).2
  else stdin

def perform (args : List Str) (w : W) (stdin : Str) : Deed × W × Str :=
  let cmd := args.headD []
  if isOneOf builtins cmd then (.builtin args, o.builtin args w, stdinAfter o args w stdin)
  else if isOneOf leavers cmd then (.leave args, w, stdin)
  else
    match search o (candidates cmd) w with
    | (some path, w) => (.program path args, o.execv path args w, stdin.drop (o.taken path args w))
    | (none, w) => (.notFound args, w, stdin)

/-- Every round takes a byte of `stdin` at least. -/
def shellLoop : ℕ → W → Str → List Deed
  | 0, _, _ => []
  | n + 1, w, stdin =>
    match fgets 1024 stdin with
    | none => []
    | some (input, stdin) =>
      let args := arguments input
      if args = [] then shellLoop n w stdin
      else
        match perform o args w stdin with
        | (.leave args, _) => [.leave args]
        | (deed, w, stdin) => deed :: shellLoop n w stdin

def runShell (w : W) (stdin : Str) : List Deed := shellLoop o stdin.length w stdin

/-! ### The files that are started -/

variable {o} {w : W} {cmd path : Str} {args : List Str} {stdin : Str}

theorem isOneOf_iff {names : List Str} (hcmd : 0 ∉ cmd) (hnames : ∀ name ∈ names, 0 ∉ name) :
    isOneOf names cmd = true ↔ cmd ∈ names := by
  rw [isOneOf, List.any_eq_true]
  constructor
  · rintro ⟨name, hname, h⟩
    rw [decide_eq_true_eq, strcmp_eq_zero hcmd (hnames name hname)] at h
    exact h ▸ hname
  · intro h
    exact ⟨cmd, h, decide_eq_true ((strcmp_eq_zero hcmd hcmd).mpr rfl)⟩

theorem mem_of_mem_splitOnP {p : UInt8 → Bool} {s piece : Str} {c : UInt8} (hpiece : piece ∈ s.splitOnP p)
    (hc : c ∈ piece) : c ∈ s := by
  induction s generalizing piece with
  | nil =>
    rw [List.splitOnP_nil, List.mem_singleton] at hpiece
    exact hpiece ▸ hc
  | cons d s ih =>
    rw [List.splitOnP_cons_eq_if_modifyHead] at hpiece
    split_ifs at hpiece
    · rcases List.mem_cons.mp hpiece with rfl | hpiece
      · cases hc
      · exact List.mem_cons_of_mem d (ih hpiece hc)
    · obtain ⟨first, pieces, hsplit⟩ := List.exists_cons_of_ne_nil (List.splitOnP_ne_nil p s)
      rw [hsplit, List.modifyHead_cons] at hpiece
      rcases List.mem_cons.mp hpiece with rfl | hpiece
      · rcases List.mem_cons.mp hc with rfl | hc
        · exact List.mem_cons_self
        · exact List.mem_cons_of_mem d (ih (hsplit ▸ List.mem_cons_self) hc)
      · exact List.mem_cons_of_mem d (ih (hsplit ▸ List.mem_cons_of_mem first hpiece) hc)

theorem zero_notMem_arguments {input word : Str} (h : word ∈ arguments input) : 0 ∉ word := by
  intro hc
  have hword := (List.mem_filter.mp (List.mem_of_mem_take h)).1
  exact zero_notMem_cstr input ((stripNewline_initial _).subset (mem_of_mem_splitOnP hword hc))

theorem zero_notMem_command (input : Str) : 0 ∉ (arguments input).headD [] := by
  cases hwords : arguments input with
  | nil => exact List.not_mem_nil
  | cons cmd tail =>
    have hmem : cmd ∈ arguments input := by
      rw [hwords]
      exact List.mem_cons_self
    exact zero_notMem_arguments hmem

theorem search_some {paths : List Str} {w' : W} (h : search o paths w = (some path, w')) :
    path ∈ paths ∧ (∃ w, o.access w path = true) ∧
      ((∀ w, (o.fork w).1 = true) → paths.find? (o.access w) = some path) := by
  induction paths generalizing w with
  | nil => cases h
  | cons first paths ih =>
    rw [search] at h
    rw [List.find?_cons]
    cases haccess : o.access w first with
    | false =>
      rw [haccess] at h
      obtain ⟨hmem, hrest, hfind⟩ := ih h
      exact ⟨List.mem_cons_of_mem _ hmem, hrest, hfind⟩
    | true =>
      cases hforked : (o.fork w).1 with
      | true =>
        simp only [haccess, hforked, if_true, Prod.mk.injEq, Option.some.injEq] at h
        obtain ⟨rfl, -⟩ := h
        exact ⟨List.mem_cons_self, ⟨w, haccess⟩, fun _ => rfl⟩
      | false =>
        simp only [haccess, hforked, if_true, Bool.false_eq_true, if_false] at h
        obtain ⟨hmem, hrest, -⟩ := ih h
        refine ⟨List.mem_cons_of_mem _ hmem, hrest, fun hfork => ?_⟩
        rw [hfork w] at hforked
        cases hforked

theorem perform_program {args' : List Str} (h : (perform o args w stdin).1 = .program path args') :
    args' = args ∧ isOneOf builtins (args.headD []) = false ∧ isOneOf leavers (args.headD []) = false ∧
      ∃ w', search o (candidates (args.headD [])) w = (some path, w') := by
  rw [perform] at h
  split_ifs at h with hbuiltin hleaver
  obtain ⟨found, w', hsearch⟩ : ∃ found w', search o (candidates (args.headD [])) w = (found, w') := ⟨_, _, rfl⟩
  rw [hsearch] at h
  cases found with
  | none => cases h
  | some found =>
    obtain ⟨rfl, rfl⟩ := Deed.program.inj h
    exact ⟨rfl, Bool.eq_false_of_not_eq_true hbuiltin, Bool.eq_false_of_not_eq_true hleaver, w', hsearch⟩

theorem exists_perform {n : ℕ} {deed : Deed} (hdeed : deed ∈ shellLoop o n w stdin) :
    ∃ input w stdin, arguments input ≠ [] ∧ (perform o (arguments input) w stdin).1 = deed := by
  induction n generalizing w stdin with
  | zero => cases hdeed
  | succ n ih =>
    rw [shellLoop] at hdeed
    cases hline : fgets 1024 stdin with
    | none =>
      rw [hline] at hdeed
      cases hdeed
    | some line =>
      obtain ⟨input, stdin'⟩ := line
      rw [hline] at hdeed
      dsimp only at hdeed
      split_ifs at hdeed with hargs
      · exact ih hdeed
      · have hdone : ∃ done w' stdin'', perform o (arguments input) w stdin' = (done, w', stdin'') := ⟨_, _, _, rfl⟩
        obtain ⟨done, w', stdin'', hdone⟩ := hdone
        have hthis : ∃ input w stdin, arguments input ≠ [] ∧ (perform o (arguments input) w stdin).1 = done :=
          ⟨input, w, stdin', hargs, congrArg Prod.fst hdone⟩
        rw [hdone] at hdeed
        cases done with
        | leave args =>
          rw [List.mem_singleton.mp hdeed]
          exact hthis
        | _ =>
          rcases List.mem_cons.mp hdeed with rfl | hdeed
          · exact hthis
          · exact ih hdeed

theorem splitOn_append (u v : Str) : ∃ first rest first' rest', u.splitOn SLASH = first :: rest ∧
    (u ++ v).splitOn SLASH = first' :: rest' ∧ first <+: first' ∧ ∀ part ∈ rest, ∃ whole ∈ rest', part <+: whole := by
  induction u with
  | nil =>
    obtain ⟨first', rest', hv⟩ := List.exists_cons_of_ne_nil (List.splitOn_ne_nil SLASH v)
    exact ⟨[], [], first', rest', rfl, hv, List.nil_prefix, fun _ h => nomatch h⟩
  | cons c u ih =>
    obtain ⟨first, rest, first', rest', hu, huv, hfirst, hrest⟩ := ih
    rw [List.cons_append, List.splitOn_cons_eq_if_modifyHead, List.splitOn_cons_eq_if_modifyHead, hu, huv]
    by_cases hc : (c == SLASH) = true
    · rw [if_pos hc, if_pos hc]
      refine ⟨[], _, [], _, rfl, rfl, List.nil_prefix, fun part hpart => ?_⟩
      rcases List.mem_cons.mp hpart with rfl | hpart
      · exact ⟨first', List.mem_cons_self, hfirst⟩
      · obtain ⟨whole, hwhole, hprefix⟩ := hrest part hpart
        exact ⟨whole, List.mem_cons_of_mem _ hwhole, hprefix⟩
    · rw [if_neg hc, if_neg hc]
      exact ⟨_, _, _, _, rfl, rfl, (List.prefix_cons_inj c).mpr hfirst, hrest⟩

theorem dotdot_notMem_parts {s rest : Str} (hs : ∀ part ∈ parts s, ¬DOTDOT <+: part) (hrest : rest <+: s) :
    DOTDOT ∉ parts rest := by
  intro hmem
  obtain ⟨v, rfl⟩ := hrest
  obtain ⟨first, others, first', others', hu, huv, hfirst, hothers⟩ := splitOn_append rest v
  have hwhole : ∃ whole ∈ (rest ++ v).splitOn SLASH, DOTDOT <+: whole := by
    have hmem := (List.mem_filter.mp hmem).1
    rw [hu] at hmem
    rw [huv]
    rcases List.mem_cons.mp hmem with h | h
    · exact ⟨first', List.mem_cons_self, h ▸ hfirst⟩
    · obtain ⟨whole, hwhole, hprefix⟩ := hothers _ h
      exact ⟨whole, List.mem_cons_of_mem _ hwhole, hprefix⟩
  obtain ⟨whole, hwhole, hprefix⟩ := hwhole
  refine hs whole (List.mem_filter.mpr ⟨hwhole, decide_eq_true ⟨?_, ?_⟩⟩) hprefix
  · rintro rfl
    exact absurd hprefix (by decide)
  · rintro rfl
    exact absurd hprefix (by decide)

theorem mem_candidates (h : path ∈ candidates cmd) :
    ∃ dir ∈ searchPaths, ∃ rest, path = dir ++ SLASH :: rest ∧ rest <+: cmd ++ bytes ".jex" := by
  obtain ⟨dir, hdir, hpath⟩ := List.mem_flatMap.mp h
  have hshort : dir.length + 1 ≤ 511 := (by decide : ∀ dir ∈ searchPaths, dir.length + 1 ≤ 511) dir hdir
  have hcut (name : Str) : snprintf 512 (dir ++ SLASH :: name) = dir ++ SLASH :: name.take (510 - dir.length) := by
    rw [snprintf, List.take_append, List.take_of_length_le (by omega)]
    have hlen : 512 - 1 - dir.length = 510 - dir.length + 1 := by omega
    rw [hlen, List.take_succ_cons]
  refine ⟨dir, hdir, ?_⟩
  rcases List.mem_cons.mp hpath with rfl | hpath
  · exact ⟨_, hcut cmd, (List.take_prefix _ _).trans (List.prefix_append cmd _)⟩
  · rw [List.mem_singleton.mp hpath]
    exact ⟨_, hcut _, List.take_prefix _ _⟩

theorem runShell_programs (o : System W) (w : W) (stdin : Str) {path : Str} {args : List Str}
    (h : .program path args ∈ runShell o w stdin) :
    ∃ cmd rest dir tail, args = cmd :: tail ∧ cmd ∉ builtins ∧ cmd ∉ leavers ∧ dir ∈ searchPaths ∧
      path = dir ++ SLASH :: rest ∧ rest <+: cmd ++ bytes ".jex" ∧
      ((∀ part ∈ parts (cmd ++ bytes ".jex"), ¬DOTDOT <+: part) → DOTDOT ∉ parts rest) ∧
      (∃ w, o.access w path = true) ∧
      ((∀ w, (o.fork w).1 = true) → ∃ w, (candidates cmd).find? (o.access w) = some path) := by
  obtain ⟨input, w, stdin, hargs, hdeed⟩ := exists_perform h
  obtain ⟨rfl, hbuiltin, hleaver, w', hsearch⟩ := perform_program hdeed
  obtain ⟨cmd, tail, hwords⟩ := List.exists_cons_of_ne_nil hargs
  obtain ⟨hmem, haccess, hfind⟩ := search_some hsearch
  have hzero := zero_notMem_command input
  rw [hwords, List.headD_cons] at hbuiltin hleaver hmem hfind hzero
  obtain ⟨dir, hdir, rest, hpath, hrest⟩ := mem_candidates hmem
  have hnames : ∀ name ∈ builtins ++ leavers, (0 : UInt8) ∉ name := by decide
  have hbuiltin' : cmd ∉ builtins := fun hcmd => Bool.false_ne_true
    (hbuiltin.symm.trans ((isOneOf_iff hzero fun name hname => hnames name (List.mem_append_left _ hname)).mpr hcmd))
  have hleaver' : cmd ∉ leavers := fun hcmd => Bool.false_ne_true
    (hleaver.symm.trans ((isOneOf_iff hzero fun name hname => hnames name (List.mem_append_right _ hname)).mpr hcmd))
  exact ⟨cmd, rest, dir, tail, hwords, hbuiltin', hleaver', hdir, hpath, hrest,
    fun hparts => dotdot_notMem_parts hparts hrest, haccess, fun hfork => ⟨_, hfind hfork⟩⟩

def oneProgram : System Unit where
  fopen _ _ := .error (bytes "No such file or directory")
  builtin _ _ := ()
  access _ path := path = bytes "/bin/wifi"
  fork _ := (true, ())
  execv _ _ _ := ()
  taken _ _ _ := 0

theorem runShell_programs_wifi : .program (bytes "/bin/wifi") [bytes "wifi"] ∈ runShell oneProgram () (bytes "wifi\n") ∧
    ∃ w, oneProgram.access w (bytes "/bin/wifi") = true := by
  have hmem : Deed.program (bytes "/bin/wifi") [bytes "wifi"] ∈ runShell oneProgram () (bytes "wifi\n") := by
    decide
  obtain ⟨cmd, rest, dir, tail, -, -, -, -, -, -, -, haccess, -⟩ :=
    runShell_programs oneProgram () (bytes "wifi\n") hmem
  exact ⟨hmem, haccess⟩

/-! ### The lines that are carried out -/

def Ends (args : List Str) : Prop := args.headD [] ∈ leavers ∨ args = [bytes "cat"]

instance (args : List Str) : Decidable (Ends args) := inferInstanceAs (Decidable (_ ∨ _))

def script : List (List Str) → List (List Str)
  | [] => []
  | args :: lines => if args = [] then script lines else if Ends args then [args] else args :: script lines

def LeavesStdin (o : System W) (args : List Str) : Prop :=
  (args.headD [] = bytes "less" → ∀ w, ∀ file ∈ args[1]?, ∀ s, o.fopen w file = .ok s → (readLines 512 s).length < 22) ∧
    ∀ path w, o.taken path args w = 0

theorem lessLoop_short {k : ℕ} {lines : List Str} (h : k + lines.length < 22) (stdin : Str) :
    (Text.lessLoop k lines stdin).2 = stdin := by
  induction lines generalizing k with
  | nil => rfl
  | cons line lines ih =>
    rw [List.length_cons] at h
    have hprompt : ¬(k + 1) % 22 = 0 := by omega
    rw [Text.lessLoop, if_neg hprompt]
    exact ih (by omega)

theorem cmdLess_stdin {args : List Str} {fopen : Fopen}
    (h : ∀ file ∈ args[1]?, ∀ s, fopen file = .ok s → (readLines 512 s).length < 22) (stdin : Str) :
    (Text.cmdLess fopen stdin args).2 = stdin := by
  rw [Text.cmdLess]
  cases hfile : args[1]? with
  | none => rfl
  | some file =>
    cases hopen : fopen file with
    | error error => simp [hopen]
    | ok s =>
      simp only [hopen]
      apply lessLoop_short
      rw [Nat.zero_add]
      exact h file hfile s hopen

theorem perform_leave (hleaver : isOneOf leavers (args.headD []) = true)
    (hbuiltin : isOneOf builtins (args.headD []) = false) : perform o args w stdin = (.leave args, w, stdin) := by
  rw [perform, hbuiltin, hleaver]
  rfl

theorem perform_args : (perform o args w stdin).1.args = args := by
  rw [perform]
  split_ifs
  · rfl
  · rfl
  · obtain ⟨found, w', hsearch⟩ : ∃ found w', search o (candidates (args.headD [])) w = (found, w') := ⟨_, _, rfl⟩
    rw [hsearch]
    cases found <;> rfl

theorem stdinAfter_eq (hquiet : LeavesStdin o args) (hzero : 0 ∉ args.headD []) (hne : args ≠ [])
    (hends : args ≠ [bytes "cat"]) : stdinAfter o args w stdin = stdin := by
  have hcat : strcmp (args.headD []) (bytes "cat") = 0 ↔ args.headD [] = bytes "cat" := strcmp_eq_zero hzero (by decide)
  have hless : strcmp (args.headD []) (bytes "less") = 0 ↔ args.headD [] = bytes "less" :=
    strcmp_eq_zero hzero (by decide)
  rw [stdinAfter]
  simp only [hcat, hless]
  split_ifs with hc hl
  · obtain ⟨cmd, tail, rfl⟩ := List.exists_cons_of_ne_nil hne
    obtain ⟨file, files, rfl⟩ := List.exists_cons_of_ne_nil (l := tail) fun htail => hends (by
      rw [htail]
      exact congrArg (fun cmd => [cmd]) hc)
    rw [Text.cmdCat, if_neg (by simp)]
  · exact cmdLess_stdin (hquiet.1 hl w) stdin
  · rfl

theorem perform_stdin (hquiet : LeavesStdin o args) (hzero : 0 ∉ args.headD []) (hne : args ≠ [])
    (hends : args ≠ [bytes "cat"]) : (perform o args w stdin).2.2 = stdin := by
  rw [perform]
  split_ifs
  · exact stdinAfter_eq hquiet hzero hne hends
  · rfl
  · obtain ⟨found, w', hsearch⟩ : ∃ found w', search o (candidates (args.headD [])) w = (found, w') := ⟨_, _, rfl⟩
    rw [hsearch]
    cases found with
    | none => rfl
    | some path =>
      dsimp only
      rw [hquiet.2, List.drop_zero]

theorem perform_cat : (perform o [bytes "cat"] w stdin).2.2 = [] := by
  have hbuiltin : isOneOf builtins ([bytes "cat"].headD []) = true := by decide
  rw [perform, if_pos hbuiltin]
  rfl

theorem shellLoop_nil (n : ℕ) : shellLoop o n w [] = [] := by
  cases n <;> rfl

theorem arguments_cstr (input : Str) : arguments (cstr input) = arguments input := by
  rw [arguments, arguments, cstr_of_notMem (zero_notMem_cstr input)]

theorem isOneOf_leavers (hzero : 0 ∉ args.headD []) :
    isOneOf leavers (args.headD []) = true ↔ args.headD [] ∈ leavers := isOneOf_iff hzero (by decide)

theorem perform_ne_leave (h : isOneOf leavers (args.headD []) = false) (args' : List Str) :
    (perform o args w stdin).1 ≠ .leave args' := by
  intro hleave
  rw [perform, h, if_neg Bool.false_ne_true] at hleave
  split_ifs at hleave
  obtain ⟨found, w', hsearch⟩ : ∃ found w', search o (candidates (args.headD [])) w = (found, w') := ⟨_, _, rfl⟩
  rw [hsearch] at hleave
  cases found <;> cases hleave

theorem shellLoop_succ {n : ℕ} {rest : Str}
    (hline : ∃ input, fgets 1024 stdin = some (input, rest) ∧ arguments input = args) :
    shellLoop o (n + 1) w stdin = if args = [] then shellLoop o n w rest
      else if Ends args then [(perform o args w rest).1]
      else (perform o args w rest).1 :: shellLoop o n (perform o args w rest).2.1 (perform o args w rest).2.2 := by
  obtain ⟨input, hinput, rfl⟩ := hline
  rw [shellLoop, hinput]
  dsimp only
  by_cases hne : arguments input = []
  · rw [if_pos hne, if_pos hne]
  · rw [if_neg hne, if_neg hne]
    have hzero := zero_notMem_command input
    cases hleaver : isOneOf leavers ((arguments input).headD []) with
    | true =>
      have hmem := (isOneOf_leavers hzero).mp hleaver
      have hbuiltin : isOneOf builtins ((arguments input).headD []) = false :=
        (by decide : ∀ cmd ∈ leavers, isOneOf builtins cmd = false) _ hmem
      have hends : Ends (arguments input) := Or.inl hmem
      rw [perform_leave hleaver hbuiltin, if_pos hends]
    | false =>
      obtain ⟨deed, w', rest', hperform⟩ : ∃ deed w' rest', perform o (arguments input) w rest = (deed, w', rest') :=
        ⟨_, _, _, rfl⟩
      have hcont : (match (deed, w', rest') with
          | (.leave args, _) => [.leave args]
          | (deed, w, stdin) => deed :: shellLoop o n w stdin) = deed :: shellLoop o n w' rest' := by
        have hstay : ∀ args', (perform o (arguments input) w rest).1 ≠ .leave args' := perform_ne_leave hleaver
        rw [hperform] at hstay
        cases deed with
        | leave args => exact absurd rfl (hstay args)
        | _ => rfl
      rw [hperform, hcont]
      by_cases hends : Ends (arguments input)
      · have hcat : arguments input = [bytes "cat"] := hends.resolve_left fun hmem =>
          Bool.false_ne_true (hleaver.symm.trans ((isOneOf_leavers hzero).mpr hmem))
        have hleft : rest' = [] := by
          rw [hcat] at hperform
          exact (congrArg (fun p => p.2.2) hperform).symm.trans perform_cat
        rw [if_pos hends, hleft, shellLoop_nil]
      · rw [if_neg hends]

theorem shellLoop_script {n : ℕ} (hquiet : ∀ line ∈ readLines 1024 stdin, LeavesStdin o (arguments line))
    (hn : stdin.length ≤ n) :
    (shellLoop o n w stdin).map Deed.args = script ((readLines 1024 stdin).map arguments) := by
  induction n generalizing stdin w with
  | zero =>
    rw [List.length_eq_zero_iff.mp (Nat.le_zero.mp hn)]
    rfl
  | succ n ih =>
    by_cases hne : stdin = []
    · rw [hne, shellLoop_nil]
      rfl
    · have hsize : 2 ≤ 1024 := by decide
      have hless := drop_readLine_lt hsize hne
      have hlines := readLines_cons hsize hne
      have hline : ∃ input, fgets 1024 stdin = some (input, stdin.drop (readLine 1023 stdin).length) ∧
          arguments input = arguments (cstr (readLine 1023 stdin)) :=
        ⟨_, by rw [fgets, if_neg hne], (arguments_cstr _).symm⟩
      rw [hlines, List.forall_mem_cons] at hquiet
      rw [hlines, List.map_cons, script, shellLoop_succ hline]
      have hrest (w : W) := ih (w := w) hquiet.2 (by omega)
      split_ifs with hargs hends
      · exact hrest w
      · rw [List.map_singleton, perform_args]
      · have hzero := zero_notMem_command (cstr (readLine 1023 stdin))
        rw [List.map_cons, perform_args, perform_stdin hquiet.1 hzero hargs fun h => hends (Or.inr h), hrest]

theorem runShell_script (o : System W) (w : W) {stdin : Str}
    (hquiet : ∀ line ∈ readLines 1024 stdin, LeavesStdin o (arguments line)) :
    (runShell o w stdin).map Deed.args = script ((readLines 1024 stdin).map arguments) :=
  shellLoop_script hquiet le_rfl

theorem runShell_script_exit :
    (∀ line ∈ readLines 1024 (bytes "wifi\nexit\nps\n"), LeavesStdin oneProgram (arguments line)) ∧
      (runShell oneProgram () (bytes "wifi\nexit\nps\n")).map Deed.args = [[bytes "wifi"], [bytes "exit"]] := by
  have hquiet : ∀ line ∈ readLines 1024 (bytes "wifi\nexit\nps\n"), LeavesStdin oneProgram (arguments line) :=
    fun _ _ => ⟨fun _ _ _ _ _ hopen => (nomatch hopen), fun _ _ => rfl⟩
  refine ⟨hquiet, (runShell_script oneProgram () hquiet).trans ?_⟩
  decide

end JurkOS.Userland.Session
