import JurkOS.Kernel.Drivers.Readline
import JurkOS.Kernel.Fs.Vfs
import JurkOS.Kernel.Strings

/-!
The shell of the kernel, `run_shell` in `kernel_main.c`: which command a line
stands for, and the search in `/bin` for the others.
-/

namespace JurkOS.Kernel.Shell

open Lib.Libc Lib.Memory Readline
open Fs (Machine State vfsLookup SLASH strcpyFrom)

def SPACE : UInt8 := 0x20

inductive Command
  | nothing
  | help
  | ls (path : Str)
  | cat (path : Str)
  | wifi
  | jurkstore
  | uname (arg : Str)
  | clear
  | reboot
  | exec (path : Str)
  | program (name : Str)
  deriving DecidableEq

def skipSpaces (s : Str) : Str := s.dropWhile (· = SPACE)

/-- The chain of comparisons, for what `keyboard_readline` has put into `cmd`. -/
def dispatch (cmd : Str) : Command :=
  let p := skipSpaces (cstr cmd)
  if p.length = 0 then .nothing
  else if strcmp p (bytes "help") = 0 then .help
  else if strncmp p (bytes "ls") 2 = 0 then .ls (skipSpaces (p.drop 2))
  else if strncmp p (bytes "cat ") 4 = 0 then .cat (p.drop 4)
  else if strcmp p (bytes "wifi") = 0 then .wifi
  else if strcmp p (bytes "jurkstore") = 0 then .jurkstore
  else if strncmp p (bytes "uname") 5 = 0 then .uname (skipSpaces (p.drop 5))
  else if strcmp p (bytes "clear") = 0 then .clear
  else if strcmp p (bytes "reboot") = 0 then .reboot
  else if strncmp p (bytes "exec ") 5 = 0 then .exec (p.drop 5)
  else .program p

/-! ### By the first word -/

inductive Builtin
  | help
  | ls
  | cat
  | wifi
  | jurkstore
  | uname
  | clear
  | reboot
  | exec
  deriving DecidableEq

def Builtin.name : Builtin → Str
  | help => bytes "help"
  | ls => bytes "ls"
  | cat => bytes "cat"
  | wifi => bytes "wifi"
  | jurkstore => bytes "jurkstore"
  | uname => bytes "uname"
  | clear => bytes "clear"
  | reboot => bytes "reboot"
  | exec => bytes "exec"

def Command.builtin : Command → Option Builtin
  | nothing => none
  | help => some .help
  | ls _ => some .ls
  | cat _ => some .cat
  | wifi => some .wifi
  | jurkstore => some .jurkstore
  | uname _ => some .uname
  | clear => some .clear
  | reboot => some .reboot
  | exec _ => some .exec
  | program _ => none

def text (cmd : Str) : Str := skipSpaces (cstr cmd)

def firstWord (cmd : Str) : Str := (text cmd).takeWhile (· ≠ SPACE)

structure ByWord (cmd : Str) : Prop where
  builtin : ∀ b, (dispatch cmd).builtin = some b ↔ firstWord cmd = b.name
  program : firstWord cmd ≠ [] → (∀ b : Builtin, firstWord cmd ≠ b.name) → dispatch cmd = .program (text cmd)

structure Regular (cmd : Str) : Prop where
  whole : ∀ b ∈ [Builtin.help, .wifi, .jurkstore, .clear, .reboot], firstWord cmd = b.name → text cmd = b.name
  spaced : ∀ b ∈ [Builtin.cat, .exec], firstWord cmd = b.name → text cmd ≠ b.name
  begun : ∀ b ∈ [Builtin.ls, .uname], b.name <+: firstWord cmd → firstWord cmd = b.name

section Words

variable {cmd w r : Str}

theorem zero_notMem_text (cmd : Str) : 0 ∉ text cmd :=
  fun h => zero_notMem_cstr cmd ((List.dropWhile_sublist _).subset h)

def remainder (cmd : Str) : Str := (text cmd).dropWhile (· ≠ SPACE)

theorem text_eq (cmd : Str) : text cmd = firstWord cmd ++ remainder cmd := (List.takeWhile_append_dropWhile).symm

theorem remainder_cases (cmd : Str) : remainder cmd = [] ∨ ∃ t, remainder cmd = SPACE :: t := by
  unfold remainder
  generalize text cmd = s
  induction s with
  | nil => exact .inl rfl
  | cons c s ih =>
    by_cases hc : c = SPACE
    · exact .inr ⟨s, by simp [hc]⟩
    · simpa [hc] using ih

theorem text_of_notMem {n : Str} (h : SPACE ∉ n) : text cmd = n ↔ firstWord cmd = n ∧ remainder cmd = [] := by
  constructor
  · intro htext
    have hword : firstWord cmd = n := by
      rw [firstWord, htext, List.takeWhile_eq_self_iff]
      intro c hc
      rw [decide_eq_true_eq]
      rintro rfl
      exact h hc
    have hsplit := text_eq cmd
    rw [htext, hword] at hsplit
    exact ⟨hword, List.append_cancel_left (hsplit.symm.trans (List.append_nil n).symm)⟩
  · rintro ⟨hword, hrest⟩
    rw [text_eq, hword, hrest, List.append_nil]

theorem begins_of_notMem {n : Str} (h : SPACE ∉ n) : n <+: text cmd ↔ n <+: firstWord cmd := by
  constructor
  · intro hn
    have hword : firstWord cmd <+: text cmd := List.takeWhile_prefix _
    rcases le_total n.length (firstWord cmd).length with hlen | hlen
    · exact List.prefix_of_prefix_length_le hn hword hlen
    · obtain ⟨s, rfl⟩ := List.prefix_of_prefix_length_le hword hn hlen
      rw [text_eq, List.prefix_append_right_inj] at hn
      cases s with
      | nil => simp
      | cons c s =>
        rcases remainder_cases cmd with hrest | ⟨r, hrest⟩
        · rw [hrest] at hn
          exact absurd (List.prefix_nil.mp hn) (List.cons_ne_nil c s)
        · rw [hrest, List.cons_prefix_cons] at hn
          exact absurd (by simp [hn.1]) h
  · intro hn
    exact hn.trans (List.takeWhile_prefix _)

theorem begins_spaced {n : Str} (h : SPACE ∉ n) :
    n ++ [SPACE] <+: text cmd ↔ firstWord cmd = n ∧ remainder cmd ≠ [] := by
  constructor
  · rintro ⟨s, hs⟩
    have hbefore : ∀ c ∈ n, decide (c ≠ SPACE) = true := by
      intro c hc
      rw [decide_eq_true_eq]
      rintro rfl
      exact h hc
    have hword : firstWord cmd = n := by
      rw [firstWord, ← hs, List.append_assoc, List.takeWhile_append_of_pos hbefore]
      simp
    refine ⟨hword, fun hrest => ?_⟩
    have hsplit := text_eq cmd
    rw [hword, hrest, List.append_nil] at hsplit
    exact h (hsplit ▸ hs ▸ by simp)
  · rintro ⟨hword, hrest⟩
    obtain ⟨r, hr⟩ := (remainder_cases cmd).resolve_left hrest
    rw [text_eq, hword, hr]
    exact ⟨r, by simp⟩

theorem text_eq_nil : (text cmd).length = 0 ↔ firstWord cmd = [] := by
  rw [List.length_eq_zero_iff]
  constructor
  · intro h
    rw [firstWord, h]
    rfl
  · intro h
    rcases remainder_cases cmd with hrest | ⟨r, hrest⟩
    · rw [text_eq, h, hrest]
      rfl
    · have htext : text cmd = SPACE :: r := by rw [text_eq, h, hrest]; rfl
      have hhead := List.head?_dropWhile_not (fun c : UInt8 => decide (c = SPACE)) (cstr cmd)
      have hskip : (cstr cmd).dropWhile (fun c => decide (c = SPACE)) = text cmd := rfl
      rw [hskip, htext] at hhead
      simp at hhead

def choose (w : Str) (bare : Bool) : Option Builtin :=
  if w = [] then none
  else if w = bytes "help" ∧ bare then some .help
  else if bytes "ls" <+: w then some .ls
  else if w = bytes "cat" ∧ ¬bare then some .cat
  else if w = bytes "wifi" ∧ bare then some .wifi
  else if w = bytes "jurkstore" ∧ bare then some .jurkstore
  else if bytes "uname" <+: w then some .uname
  else if w = bytes "clear" ∧ bare then some .clear
  else if w = bytes "reboot" ∧ bare then some .reboot
  else if w = bytes "exec" ∧ ¬bare then some .exec
  else none

def bare (cmd : Str) : Bool := remainder cmd = []

theorem whole_iff (n : Str) (h0 : 0 ∉ n) (h : SPACE ∉ n) :
    strcmp (text cmd) n = 0 ↔ firstWord cmd = n ∧ bare cmd := by
  rw [strcmp_eq_zero (zero_notMem_text cmd) h0, text_of_notMem h, bare, decide_eq_true_eq]

theorem begun_iff (n : Str) (h0 : 0 ∉ n) (h : SPACE ∉ n) :
    strncmp (text cmd) n n.length = 0 ↔ n <+: firstWord cmd := by
  rw [strncmp_eq_zero (zero_notMem_text cmd) h0, begins_of_notMem h]

theorem spaced_iff (n : Str) (h0 : 0 ∉ n) (h : SPACE ∉ n) :
    strncmp (text cmd) (n ++ [SPACE]) (n ++ [SPACE]).length = 0 ↔ firstWord cmd = n ∧ ¬bare cmd := by
  have h0' : 0 ∉ n ++ [SPACE] := by simpa [SPACE] using h0
  rw [strncmp_eq_zero (zero_notMem_text cmd) h0', begins_spaced h, bare, decide_eq_true_eq]

theorem builtin_dispatch (cmd : Str) : (dispatch cmd).builtin = choose (firstWord cmd) (bare cmd) := by
  have hhelp : strcmp (text cmd) (bytes "help") = 0 ↔ _ := whole_iff (bytes "help") (by decide) (by decide)
  have hls : strncmp (text cmd) (bytes "ls") 2 = 0 ↔ _ := begun_iff (bytes "ls") (by decide) (by decide)
  have hcat : strncmp (text cmd) (bytes "cat ") 4 = 0 ↔ _ := spaced_iff (bytes "cat") (by decide) (by decide)
  have hwifi : strcmp (text cmd) (bytes "wifi") = 0 ↔ _ := whole_iff (bytes "wifi") (by decide) (by decide)
  have hstore : strcmp (text cmd) (bytes "jurkstore") = 0 ↔ _ :=
    whole_iff (bytes "jurkstore") (by decide) (by decide)
  have huname : strncmp (text cmd) (bytes "uname") 5 = 0 ↔ _ := begun_iff (bytes "uname") (by decide) (by decide)
  have hclear : strcmp (text cmd) (bytes "clear") = 0 ↔ _ := whole_iff (bytes "clear") (by decide) (by decide)
  have hreboot : strcmp (text cmd) (bytes "reboot") = 0 ↔ _ := whole_iff (bytes "reboot") (by decide) (by decide)
  have hexec : strncmp (text cmd) (bytes "exec ") 5 = 0 ↔ _ := spaced_iff (bytes "exec") (by decide) (by decide)
  have htext : skipSpaces (cstr cmd) = text cmd := rfl
  simp only [dispatch, choose, htext, text_eq_nil, hhelp, hls, hcat, hwifi, hstore, huname, hclear, hreboot, hexec,
    apply_ite Command.builtin]
  simp only [Command.builtin]

inductive Ends (cmd : Str) : Command → Prop
  | nothing (h : firstWord cmd = []) : Ends cmd .nothing
  | builtin {c : Command} (b : Builtin) (h : c.builtin = some b) : Ends cmd c
  | program : Ends cmd (.program (text cmd))

theorem ends_ite {p : Prop} [Decidable p] {c c' : Command} (hc : p → Ends cmd c) (hc' : Ends cmd c') :
    Ends cmd (if p then c else c') := iteInduction hc fun _ => hc'

theorem ends_dispatch (cmd : Str) : Ends cmd (dispatch cmd) := by
  apply ends_ite fun h => .nothing (text_eq_nil.mp h)
  apply ends_ite fun _ => .builtin .help rfl
  apply ends_ite fun _ => .builtin .ls rfl
  apply ends_ite fun _ => .builtin .cat rfl
  apply ends_ite fun _ => .builtin .wifi rfl
  apply ends_ite fun _ => .builtin .jurkstore rfl
  apply ends_ite fun _ => .builtin .uname rfl
  apply ends_ite fun _ => .builtin .clear rfl
  apply ends_ite fun _ => .builtin .reboot rfl
  apply ends_ite fun _ => .builtin .exec rfl
  exact .program

theorem dispatch_program (h : (dispatch cmd).builtin = none) (hne : firstWord cmd ≠ []) :
    dispatch cmd = .program (text cmd) := by
  have hends := ends_dispatch cmd
  generalize dispatch cmd = c at h hends
  cases hends with
  | nothing hnil => exact absurd hnil hne
  | builtin b hb =>
    rw [h] at hb
    cases hb
  | program => rfl

theorem choose_name (b : Builtin) (bare : Bool) : choose b.name bare =
    if (b ∈ [Builtin.help, .wifi, .jurkstore, .clear, .reboot] ∧ ¬bare) ∨ (b ∈ [Builtin.cat, .exec] ∧ bare) then none
    else some b := by
  cases b <;> cases bare <;> decide

theorem choose_other {w : Str} (h : ∀ b : Builtin, w ≠ b.name) (bare : Bool) :
    choose w bare = none ↔ ∀ b ∈ [Builtin.ls, .uname], ¬b.name <+: w := by
  have hhelp : w ≠ bytes "help" := h .help
  have hcat : w ≠ bytes "cat" := h .cat
  have hwifi : w ≠ bytes "wifi" := h .wifi
  have hstore : w ≠ bytes "jurkstore" := h .jurkstore
  have hclear : w ≠ bytes "clear" := h .clear
  have hreboot : w ≠ bytes "reboot" := h .reboot
  have hexec : w ≠ bytes "exec" := h .exec
  have hboth : (∀ b ∈ [Builtin.ls, .uname], ¬b.name <+: w) ↔ ¬bytes "ls" <+: w ∧ ¬bytes "uname" <+: w := by
    simp [Builtin.name]
  simp only [hboth, choose, hhelp, hcat, hwifi, hstore, hclear, hreboot, hexec, false_and, if_false]
  split_ifs with hnil hls huname
  · subst hnil
    exact iff_of_true rfl (by decide)
  · simp [hls]
  · simp [huname]
  · simp [hls, huname]

theorem name_injective : Function.Injective Builtin.name := by
  intro b b'
  cases b <;> cases b' <;> decide

theorem text_eq_name (b : Builtin) : text cmd = b.name ↔ firstWord cmd = b.name ∧ bare cmd := by
  have hspace : SPACE ∉ b.name := by cases b <;> decide
  rw [text_of_notMem hspace, bare, decide_eq_true_eq]

theorem byWord_of_name {b : Builtin} (hb : firstWord cmd = b.name) :
    ByWord cmd ↔ (dispatch cmd).builtin = some b := by
  constructor
  · intro h
    exact (h.builtin b).mpr hb
  · intro h
    refine ⟨fun b' => ?_, fun _ hother => absurd hb (hother b)⟩
    rw [h, hb, Option.some_inj]
    exact ⟨fun he => he ▸ rfl, fun he => name_injective he⟩

theorem regular_of_name {b : Builtin} (hb : firstWord cmd = b.name) : Regular cmd ↔
    ¬((b ∈ [Builtin.help, .wifi, .jurkstore, .clear, .reboot] ∧ ¬bare cmd) ∨
      (b ∈ [Builtin.cat, .exec] ∧ bare cmd)) := by
  constructor
  · rintro h (⟨hwhole, hrest⟩ | ⟨hspaced, hrest⟩)
    · exact hrest ((text_eq_name b).mp (h.whole b hwhole hb)).2
    · exact h.spaced b hspaced hb ((text_eq_name b).mpr ⟨hb, hrest⟩)
  · intro h
    rw [not_or, not_and, not_and, not_not] at h
    refine ⟨fun b' hwhole hb' => ?_, fun b' hspaced hb' => ?_, fun b' hbegun hb' => ?_⟩
    · obtain rfl := name_injective (hb.symm.trans hb')
      exact (text_eq_name b).mpr ⟨hb, h.1 hwhole⟩
    · obtain rfl := name_injective (hb.symm.trans hb')
      exact fun htext => h.2 hspaced ((text_eq_name b).mp htext).2
    · rw [hb] at hb' ⊢
      revert hbegun hb'
      cases b <;> cases b' <;> decide

end Words

theorem dispatch_byWord_iff (cmd : Str) : ByWord cmd ↔ Regular cmd := by
  by_cases hname : ∃ b : Builtin, firstWord cmd = b.name
  · obtain ⟨b, hb⟩ := hname
    rw [byWord_of_name hb, regular_of_name hb, builtin_dispatch, hb, choose_name]
    split_ifs with hirregular
    · exact iff_of_false id (not_not.mpr hirregular)
    · exact iff_of_true rfl hirregular
  · push Not at hname
    have hchoose := choose_other hname (bare cmd)
    rw [← builtin_dispatch] at hchoose
    constructor
    · intro h
      have hnone : (dispatch cmd).builtin = none := by
        rw [Option.eq_none_iff_forall_ne_some]
        exact fun b hb => hname b ((h.builtin b).mp hb)
      exact ⟨fun b _ hb => absurd hb (hname b), fun b _ hb => absurd hb (hname b),
        fun b hbegun hb => absurd hb (hchoose.mp hnone b hbegun)⟩
    · intro h
      have hnone : (dispatch cmd).builtin = none :=
        hchoose.mpr fun b hbegun hb => hname b (h.begun b hbegun hb)
      refine ⟨fun b => ?_, fun hne _ => dispatch_program hnone hne⟩
      rw [hnone]
      exact iff_of_false (Option.some_ne_none b).symm (hname b)

theorem dispatch_lsof : ¬ByWord (bytes "lsof") := by
  intro h
  have hls := (h.builtin .ls).mp (by decide)
  exact absurd hls (by decide)

/-! ### The search in `/bin` -/

/-- What goes into `bin_path`; `strcat` looks for the end of what `strcpy` has put there. -/
def binPathWrites (arch : Arch) (m : Mem) (binPath : ℕ) (p : Str) : Option (List (ℕ × UInt8)) :=
  let copied := strcpyWrites binPath (bytes "/bin/")
  (strend (applyWrites m copied) binPath (2 ^ arch.wordBits)).map fun stop => copied ++ strcpyWrites stop p

variable {σ : Type} (K : Machine σ) (s : State σ)

def searchProgram (m : Mem) (binPath : ℕ) (p : Str) : List (ℕ × UInt8) × Option (ℕ × State σ) :=
  match vfsLookup K s p with
  | none => ([], none)
  | some (file, s) =>
    if file = 0 ∧ p.head? ≠ some SLASH then
      match binPathWrites K.arch m binPath p with
      | none => ([], none)
      | some writes =>
        (writes, (strcpyFrom (applyWrites m writes) binPath (2 ^ K.arch.wordBits)).bind fun path => vfsLookup K s path)
    else ([], some (file, s))

def lineWrites (m : Mem) (binPath : ℕ) (cmd : Str) : List (ℕ × UInt8) :=
  match dispatch cmd with
  | .program p => (searchProgram K s m binPath p).1
  | _ => []

structure FallsThrough (cmd : Str) : Prop where
  dispatched : dispatch cmd = .program (text cmd)
  lookup : ∃ u, vfsLookup K s (text cmd) = some (0, u)
  relative : (text cmd).head? ≠ some SLASH

theorem strend_strcpy (m : Mem) (dest : ℕ) {src : Str} (h0 : 0 ∉ src) {n : ℕ} (hn : src.length < n) :
    strend (applyWrites m (strcpyWrites dest src)) dest n = some (dest + src.length) := by
  induction src generalizing m dest n with
  | nil =>
    obtain ⟨n, rfl⟩ := Nat.exists_eq_succ_of_ne_zero (by omega : n ≠ 0)
    exact if_pos (Function.update_self _ _ _)
  | cons c src ih =>
    obtain ⟨n, rfl⟩ := Nat.exists_eq_succ_of_ne_zero (by omega : n ≠ 0)
    rw [List.mem_cons, not_or] at h0
    have hrest : applyWrites m (strcpyWrites dest (c :: src)) =
        applyWrites (Function.update m dest c) (strcpyWrites (dest + 1) src) := rfl
    have hc : applyWrites (Function.update m dest c) (strcpyWrites (dest + 1) src) dest = c := by
      rw [applyWrites_of_lt _ _ (Nat.lt_succ_self dest), Function.update_self]
    rw [hrest, strend, hc, if_neg (Ne.symm h0.1), ih _ _ h0.2 (by simpa using hn), List.length_cons, Nat.add_assoc,
      Nat.add_comm 1]

theorem binPathWrites_eq (arch : Arch) (m : Mem) (binPath : ℕ) (p : Str) : binPathWrites arch m binPath p =
    some (strcpyWrites binPath (bytes "/bin/") ++ strcpyWrites (binPath + 5) p) := by
  have hroom : (bytes "/bin/").length < 2 ^ arch.wordBits := by cases arch <;> decide
  have hstop := strend_strcpy m binPath (show 0 ∉ bytes "/bin/" by decide) hroom
  rw [binPathWrites, hstop]
  rfl

theorem binPathWrites_within (binPath : ℕ) (p : Str) :
    (∀ w ∈ strcpyWrites binPath (bytes "/bin/") ++ strcpyWrites (binPath + 5) p,
      binPath ≤ w.1 ∧ w.1 < binPath + 128) ↔ p.length ≤ 122 := by
  have hfolder : ∀ w ∈ strcpyWrites binPath (bytes "/bin/"), binPath ≤ w.1 ∧ w.1 < binPath + 128 := fun w hw =>
    ⟨strcpyWrites_le w hw, (strcpyWrites_within (bytes "/bin/")).mpr (by decide) w hw⟩
  have hname : (∀ w ∈ strcpyWrites (binPath + 5) p, w.1 < binPath + 5 + 123) ↔ p.length < 123 := strcpyWrites_within p
  rw [List.forall_mem_append, and_iff_right hfolder, ← Nat.lt_succ_iff, ← hname]
  refine forall₂_congr fun w hw => ?_
  have hle := strcpyWrites_le w hw
  omega

theorem lineWrites_of_fallsThrough {cmd : Str} (h : FallsThrough K s cmd) (m : Mem) (binPath : ℕ) :
    lineWrites K s m binPath cmd =
      strcpyWrites binPath (bytes "/bin/") ++ strcpyWrites (binPath + 5) (text cmd) := by
  obtain ⟨hdispatch, ⟨u, hlookup⟩, hrelative⟩ := h
  simp only [lineWrites, hdispatch, searchProgram, hlookup, binPathWrites_eq, if_pos (And.intro trivial hrelative)]

theorem eq_text_of_dispatch {cmd p : Str} (h : dispatch cmd = .program p) : p = text cmd := by
  have hends := ends_dispatch cmd
  rw [h] at hends
  cases hends with
  | builtin b hb => cases hb
  | program => rfl

theorem lineWrites_of_not {cmd : Str} (h : ¬FallsThrough K s cmd) (m : Mem) (binPath : ℕ) :
    lineWrites K s m binPath cmd = [] := by
  unfold lineWrites
  split
  · next p hdispatch =>
    obtain rfl := eq_text_of_dispatch hdispatch
    unfold searchProgram
    split
    · rfl
    · next file u hlookup =>
      split_ifs with hsearch
      · obtain ⟨rfl, hrelative⟩ := hsearch
        exact absurd ⟨hdispatch, ⟨u, hlookup⟩, hrelative⟩ h
      · rfl
  · rfl

def WritesInside (m : Mem) (binPath : ℕ) (cmd : Str) : Prop :=
  ∀ w ∈ lineWrites K s m binPath cmd, binPath ≤ w.1 ∧ w.1 < binPath + 128

def readCommand (arch : Arch) (m : Mem) (cmd : ℕ) (stream : Str) : Option Str :=
  (keyboardReadline arch m cmd 128 stream).bind fun r => strcpyFrom r.1.mem cmd 128

/-- The search for a line stays inside `bin_path` if and only if at most 122 characters are to be appended: `cmd`
holds up to 127, and `/bin/` takes five. -/
theorem search_inside_iff (m m' : Mem) (cmd binPath : ℕ) (stream : Str) :
    (∀ line, readCommand K.arch m cmd stream = some line → WritesInside K s m' binPath line) ↔
      ∀ line, readCommand K.arch m cmd stream = some line → FallsThrough K s line → (text line).length ≤ 122 := by
  refine forall₂_congr fun line _ => ?_
  by_cases hfalls : FallsThrough K s line
  · rw [WritesInside, lineWrites_of_fallsThrough K s hfalls, binPathWrites_within]
    exact ⟨fun h _ => h, fun h => h hfalls⟩
  · rw [WritesInside, lineWrites_of_not K s hfalls]
    exact iff_of_true (fun _ hw => absurd hw List.not_mem_nil) fun h => absurd h hfalls

/-! A name that is too long, on a system without a file tree. -/

def bareMachine : Machine ℕ := ⟨.x86_64, bump, fun _ => 0, 0⟩

def bareState : State ℕ := ⟨fun _ => none, 0, 0, {}, {}, 1⟩

def longName : Line where
  keys := List.replicate 123 0x61
  last := NEWLINE
  keys_plain := not_isNewline_replicate 123
  last_newline := isNewline_newline

set_option maxRecDepth 4000 in
theorem longName_fallsThrough : FallsThrough bareMachine bareState longName.keys :=
  ⟨by decide, ⟨bareState, rfl⟩, by decide⟩

set_option maxRecDepth 4000 in
theorem length_text_longName : (text longName.keys).length = 123 := by decide

theorem search_long_name : ¬∀ line, readCommand .x86_64 (fun _ => 0) 0 longName.typed = some line →
    WritesInside bareMachine bareState (fun _ => 0) 0x1000 line := by
  intro h
  have hfits : longName.Fits 128 := Line.fits_of_length (by simp [longName])
  obtain ⟨e, hreturns⟩ : ∃ e, ReturnsLine .x86_64 128 (fun _ => 0) 0 (longName.typed ++ []) longName e [] :=
    hfits.returnsLine (by decide) (by decide)
  have hline : readCommand .x86_64 (fun _ => 0) 0 longName.typed = some longName.keys := by
    have htext := hreturns.text
    have hedit : edit longName.keys = longName.keys := edit_of_printable (isPrintable_replicate 123)
    rw [hedit, List.take_of_length_le (by simp [longName])] at htext
    rw [readCommand, ← List.append_nil longName.typed, hreturns.returns]
    exact htext
  have hinside := h _ hline
  rw [WritesInside, lineWrites_of_fallsThrough _ _ longName_fallsThrough, binPathWrites_within,
    length_text_longName] at hinside
  exact absurd hinside (by decide)

end JurkOS.Kernel.Shell
