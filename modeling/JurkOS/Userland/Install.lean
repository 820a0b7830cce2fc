import JurkOS.Userland.JurkStore

/-!
`install_app` of `NoneCompiled/jurkstore.c`. The shell and the files are given
from outside; a file is found under its path, innermost name first.
-/

namespace JurkOS.Userland

open Lib.Libc Lib.Paths Lib.Shell

namespace Install

inductive Node
  | file (data : Str)
  | dir
  | link (target : Str)
  deriving DecidableEq

abbrev World := List Str → Option Node

structure Machine where
  system : Str → World → World × ℕ
  stat : World → Str → Option Stat
  read : World → Str → Option Str
  write : Str → Str → World → World

/-! ### The command lines -/

def quoted (s : Str) : Str := DOUBLE_QUOTE :: s ++ [DOUBLE_QUOTE]

def appDir (name : Str) : Str := APPS_DIR ++ bytes "/" ++ name

def mkdirLine (name : Str) : Str := snprintf 4096 (bytes "mkdir -p " ++ appDir name ++ bytes " /bin")

def bkPath (name : Str) : Str := snprintf 512 (appDir name ++ bytes "/" ++ name ++ bytes ".bk")

def binPath (name : Str) : Str := snprintf 512 (appDir name ++ bytes "/" ++ name)

def metaPath (name : Str) : Str := snprintf 512 (appDir name ++ bytes "/meta.xml")

def sysLink (name : Str) : Str := snprintf 512 (bytes "/bin/" ++ name)

def copyLine (localBin bk bin : Str) : Str :=
  snprintf 4096 (bytes "cp -f " ++ quoted localBin ++ bytes " " ++ quoted bk ++ bytes " && cp -f " ++ quoted localBin ++
    bytes " " ++ quoted bin ++ bytes " && chmod 755 " ++ quoted bk ++ bytes " " ++ quoted bin)

def fetchLine (bk url : Str) : Str :=
  snprintf 4096 (bytes "/bin/wget -T 20 -O " ++ quoted bk ++ bytes " " ++ quoted url ++
    bytes " 2>/dev/null || wget -T 20 -O " ++ quoted bk ++ bytes " " ++ quoted url ++ bytes " 2>/dev/null")

def placeLine (bk bin : Str) : Str :=
  snprintf 4096 (bytes "cp -f " ++ quoted bk ++ bytes " " ++ quoted bin ++ bytes " && chmod 755 " ++ quoted bk ++
    bytes " " ++ quoted bin)

def linkLine (bin link : Str) : Str :=
  snprintf 4096 (bytes "ln -sf " ++ quoted bin ++ bytes " " ++ quoted link ++ bytes " 2>/dev/null || cp -f " ++
    quoted bin ++ bytes " " ++ quoted link)

/-! ### `install_app` -/

def fullUrl (download : Str) : Str :=
  if bytes "http://" <+: download ∨ bytes "https://" <+: download then (safeStrcpy 1023 download).text
  else snprintf 1024 (bytes "https://" ++ download)

def isPackage (magic url : Str) : Bool :=
  magic.length = 4 ∧
    (magic = 0x7F :: bytes "ELF" ∨ (strstr (bytes ".jex") url).isSome ∨ (strstr (bytes ".sh") url).isSome)

def metaXml (app : AppEntry) : Str :=
  let field (tag : Str) (value : Str) := bytes "    <" ++ tag ++ bytes ">" ++ value ++ bytes "</" ++ tag ++ bytes ">\n"
  bytes "<?xml version=\"1.0\" encoding=\"UTF-8\"?>\n" ++ bytes "<jurkos-app>\n" ++
    field (bytes "name") app.name.text ++ field (bytes "version") app.version.text ++
    field (bytes "author") app.author.text ++ field (bytes "description") app.description.text ++
    field (bytes "download") app.download.text ++ bytes "</jurkos-app>\n"

variable (m : Machine) (app : AppEntry) (w : World)

def installLocal : Bool × World :=
  match checkLocalBinary (m.stat w) app.id.text app.name.text with
  | none => (false, w)
  | some localBin =>
    let (w, status) := m.system (copyLine localBin (bkPath app.name.text) (binPath app.name.text)) w
    (status = 0 ∧ (m.stat w (binPath app.name.text)).any fun st => 1000 < st.size, w)

def installDownload : Bool × World :=
  let url := fullUrl app.download.text
  let bk := bkPath app.name.text
  let (w, status) := m.system (fetchLine bk url) w
  if status = 0 ∧ ((m.stat w bk).any fun st => 100 < st.size) ∧
      (m.read w bk).any fun data => isPackage (data.take 4) url then
    (true, (m.system (placeLine bk (binPath app.name.text)) w).1)
  else (false, w)

def prepare : Bool × World :=
  let (w, _) := m.system (mkdirLine app.name.text) w
  let (ready, w) := installLocal m app w
  if ¬ready ∧ app.download.text.length > 0 then installDownload m app w else (ready, w)

structure Result where
  failed : Bool
  app : AppEntry
  world : World

def installApp : Result :=
  let (ready, w) := prepare m app w
  if ready then
    let w := m.write (metaPath app.name.text) (metaXml app) w
    let (w, _) := m.system (linkLine (binPath app.name.text) (sysLink app.name.text)) w
    ⟨false, { app with installed := true }, w⟩
  else
    let (w, _) := m.system (cleanupLine app) w
    ⟨true, { app with installed := false }, w⟩

/-! ### What the commands do -/

structure Within (S : List Str → Prop) (w w' : World) : Prop where
  frame : ∀ p, ¬S p → w' p = w p
  link : ∀ p target, w' p = some (.link target) → w p = some (.link target)

def Direct (w : World) (path : List Str) : Prop := ∀ p, p <:+ path → ∀ target, w p ≠ some (.link target)

structure IsPlainName (name : Str) : Prop extends IsName name where
  plain : name.all isPlain

structure Clear (name : Str) (w : World) : Prop where
  above : Direct w (canonical (appDir name))
  below : ∀ p, canonical (appDir name) <:+ p → ∀ target, w p ≠ some (.link target)
  bin : Direct w (canonical (bytes "/bin"))

def Quotable (s : Str) : Prop := ∀ c ∈ s, c ≠ DOUBLE_QUOTE ∧ c ≠ BACKSLASH ∧ substitutes c = false

/-- The shell hands it over as it is between double quotes, and it is no option; two of them fit a line. -/
structure IsOperand (s : Str) : Prop where
  quotable : Quotable s
  first : s.head? = some SLASH ∨ s.head? = some 0x68
  length_lt : s.length < 1024

/-- `mkdir -p`, `rm -rf`, `cp -f` and `wget -O` as they are documented, on the operands that `install_app` has. -/
structure Posix (m : Machine) : Prop where
  mkdir : ∀ line name w, simple line = some [bytes "mkdir", bytes "-p", appDir name, bytes "/bin"] → IsName name →
    Clear name w →
    Within (fun p => p <:+ canonical (appDir name) ∨ p <:+ canonical (bytes "/bin")) w (m.system line w).1
  removed : ∀ line name w, simple line = some [bytes "rm", bytes "-rf", appDir name] → IsName name →
    ∀ p, canonical (appDir name) <:+ p → (m.system line w).1 p = none
  rm : ∀ line name w, simple line = some [bytes "rm", bytes "-rf", appDir name] → IsName name → Clear name w →
    Within (fun p => canonical (appDir name) <:+ p) w (m.system line w).1
  copy : ∀ localBin name w, IsOperand localBin → IsPlainName name → name.length < 64 → Clear name w →
    Within (fun p => canonical (bkPath name) <:+ p ∨ canonical (binPath name) <:+ p) w
      (m.system (copyLine localBin (bkPath name) (binPath name)) w).1
  fetch : ∀ name url w, IsPlainName name → name.length < 64 → IsOperand url → Clear name w →
    Within (fun p => canonical (bkPath name) <:+ p) w (m.system (fetchLine (bkPath name) url) w).1

theorem Within.trans {S : List Str → Prop} {w w' w'' : World} (h : Within S w w') (h' : Within S w' w'') :
    Within S w w'' where
  frame p hp := (h'.frame p hp).trans (h.frame p hp)
  link p target hlink := h.link p target (h'.link p target hlink)

theorem Within.mono {S T : List Str → Prop} {w w' : World} (h : Within S w w') (hST : ∀ p, S p → T p) :
    Within T w w' where
  frame p hp := h.frame p fun hs => hp (hST p hs)
  link := h.link

theorem Within.refl (S : List Str → Prop) (w : World) : Within S w w := ⟨fun _ _ => rfl, fun _ _ h => h⟩

theorem Within.direct {S : List Str → Prop} {w w' : World} (h : Within S w w') {path : List Str} (hw : Direct w path) :
    Direct w' path := fun p hp target hlink => hw p hp target (h.link p target hlink)

/-! ### Plain names -/

variable {m : Machine} {app : AppEntry} {w : World} {name : Str}

theorem quotable_append {s t : Str} (hs : Quotable s) (ht : Quotable t) : Quotable (s ++ t) := by
  intro c hc
  rcases List.mem_append.mp hc with hc | hc
  · exact hs c hc
  · exact ht c hc

theorem quotable_take {s : Str} (hs : Quotable s) (n : ℕ) : Quotable (s.take n) :=
  fun c hc => hs c (List.mem_of_mem_take hc)

theorem quotable_of_plain {s : Str} (hs : s.all isPlain) : Quotable s := by
  intro c hc
  have hplain := List.all_eq_true.mp hs c hc
  refine ⟨?_, ?_, ?_⟩
  · rintro rfl
    revert hplain
    decide
  · rintro rfl
    revert hplain
    decide
  · rw [← Bool.not_eq_true]
    intro hsub
    rw [substitutes, decide_eq_true_eq] at hsub
    rcases hsub with rfl | rfl
    · revert hplain
      decide
    · revert hplain
      decide

theorem appDir_eq (name : Str) : appDir name = APPS_DIR ++ SLASH :: name := List.append_assoc _ _ _

theorem canonical_appDir (h : IsName name) : canonical (appDir name) = [name, apps, usr] := by
  rw [appDir_eq, canonical_append, route_of_isName h, canonical_APPS_DIR]
  rfl

theorem canonical_sysLink (h : IsName name) : canonical (bytes "/bin/" ++ name) = [name, bin] := by
  have hdir : bytes "/bin/" ++ name = bytes "/bin" ++ SLASH :: name := rfl
  rw [hdir, canonical_append, route_of_isName h, canonical_bin]
  rfl

theorem isPlainWord_appDir (h : IsPlainName name) : isPlainWord (appDir name) := by
  have hdir : (APPS_DIR ++ bytes "/").all isPlain := by decide
  have hplain : (appDir name).all isPlain := by rw [appDir, List.all_append, hdir, h.plain]; rfl
  have hcons : appDir name = SLASH :: (bytes "usr/apps/" ++ name) := rfl
  rw [hcons] at hplain ⊢
  rw [isPlainWord, decide_eq_true_eq]
  exact ⟨by decide, by decide, hplain⟩

theorem isName_bk (h : IsName name) : IsName (name ++ bytes ".bk") where
  nonempty hnil := h.nonempty (List.append_eq_nil_iff.mp hnil).1
  slash hmem := by
    rcases List.mem_append.mp hmem with hmem | hmem
    · exact h.slash hmem
    · revert hmem
      decide
  dot heq := by
    have hlen := congrArg List.length heq
    rw [List.length_append] at hlen
    exact Nat.ne_of_gt (Nat.lt_add_left _ (by decide)) hlen
  dotdot heq := by
    have hlen := congrArg List.length heq
    rw [List.length_append] at hlen
    exact Nat.ne_of_gt (Nat.lt_add_left _ (by decide)) hlen

theorem canonical_below {file : Str} (h : IsName name) (hfile : IsName file) :
    canonical (appDir name ++ bytes "/" ++ file) = [file, name, apps, usr] := by
  have hdir : appDir name ++ bytes "/" ++ file = appDir name ++ SLASH :: file := List.append_assoc _ _ _
  rw [hdir, canonical_append, canonical_appDir h, route_of_isName hfile]
  rfl

theorem length_appDir (name : Str) : (appDir name).length = 10 + name.length := by
  have hdir : (APPS_DIR ++ bytes "/").length = 10 := by decide
  rw [appDir, List.length_append, hdir]

theorem bkPath_eq (hlen : name.length < 64) : bkPath name = appDir name ++ bytes "/" ++ (name ++ bytes ".bk") := by
  have hslash : (bytes "/").length = 1 := rfl
  have hbk : (bytes ".bk").length = 3 := rfl
  rw [bkPath, snprintf_of_lt, List.append_assoc _ name]
  rw [List.length_append, List.length_append, List.length_append, length_appDir]
  omega

theorem binPath_eq (hlen : name.length < 64) : binPath name = appDir name ++ bytes "/" ++ name := by
  have hslash : (bytes "/").length = 1 := rfl
  rw [binPath, snprintf_of_lt]
  rw [List.length_append, List.length_append, length_appDir]
  omega

theorem isOperand_fullUrl (h : Quotable app.download.text) : IsOperand (fullUrl app.download.text) := by
  have hlen := app.download.length_lt
  unfold fullUrl
  split_ifs with hscheme
  · have hwhole : (safeStrcpy 1023 app.download.text).text = app.download.text := by
      change (cstr app.download.text).take 1023 = _
      rw [cstr_of_notMem app.download.zero_notMem, List.take_of_length_le (by omega)]
    rw [hwhole]
    refine ⟨h, .inr ?_, by omega⟩
    rcases hscheme with ⟨rest, hurl⟩ | ⟨rest, hurl⟩
    · rw [← hurl]
      rfl
    · rw [← hurl]
      rfl
  · exact ⟨quotable_take (quotable_append (quotable_of_plain (by decide)) h) _, .inr rfl,
      Nat.lt_succ_of_le (List.length_take_le _ _)⟩

theorem isOperand_candidate {id candidate : Str} (hid : Quotable id) (h : IsPlainName name)
    (hc : candidate ∈ candidates id name) : IsOperand candidate := by
  have hname := quotable_of_plain h.plain
  have hsuffix : Quotable (bytes ".bk") := quotable_of_plain (by decide)
  have hdir : Quotable (LOCAL_APPS_DIR ++ bytes "/" ++ id ++ bytes "/") := by
    apply quotable_append
    · exact quotable_append (quotable_of_plain (by decide)) hid
    · exact quotable_of_plain (by decide)
  have hcut (file : Str) (hfile : Quotable file) :
      IsOperand (snprintf 512 (LOCAL_APPS_DIR ++ bytes "/" ++ id ++ bytes "/" ++ file)) :=
    ⟨quotable_take (quotable_append hdir hfile) _, .inl rfl, (List.length_take_le _ _).trans_lt (by decide)⟩
  simp only [candidates, List.mem_cons, List.not_mem_nil, or_false, List.append_assoc _ _ (bytes ".bk")] at hc
  rcases hc with rfl | rfl | rfl
  · exact hcut _ (quotable_append hname hsuffix)
  · exact hcut _ (quotable_append hid hsuffix)
  · exact hcut _ hname

/-! ### The two lines without quotes -/

theorem simple_mkdirLine (h : IsPlainName name) (hlen : name.length < 64) :
    simple (mkdirLine name) = some [bytes "mkdir", bytes "-p", appDir name, bytes "/bin"] := by
  have hwords : ∀ word ∈ [bytes "mkdir", bytes "-p", appDir name], isPlainWord word := by
    intro word hword
    simp only [List.mem_cons, List.not_mem_nil, or_false] at hword
    rcases hword with rfl | rfl | rfl
    · decide
    · decide
    · exact isPlainWord_appDir h
  have hline : mkdirLine name = spaced [bytes "mkdir", bytes "-p", appDir name] ++ (bytes "/bin" ++ []) := by
    have hpre : (bytes "mkdir -p ").length = 9 := rfl
    have hbin : (bytes " /bin").length = 5 := rfl
    have hspaced : bytes "mkdir -p " = spaced [bytes "mkdir", bytes "-p"] := by decide
    have hspace : bytes " /bin" = SPACE :: bytes "/bin" := by decide
    rw [mkdirLine, snprintf_of_lt, hspaced, hspace]
    · simp only [spaced, List.flatMap_cons, List.flatMap_nil, List.append_assoc, List.append_nil, List.cons_append,
        List.nil_append]
    · rw [List.length_append, List.length_append, length_appDir]
      omega
  rw [hline, simple_spaced (by decide) hwords (by decide)]
  rfl

theorem simple_cleanupLine (h : IsPlainName app.name.text) :
    simple (cleanupLine app) = some [bytes "rm", bytes "-rf", appDir app.name.text] := by
  have hdir : isPlainWord (APPS_DIR ++ bytes "/") := by decide
  have hwords : ∀ word ∈ [bytes "rm", bytes "-rf"], isPlainWord word := List.all_eq_true.mp (by decide)
  rw [cleanupLine, removeTree_eq (by decide), simple_spaced (by decide) hwords hdir]
  have hread := read_plain h.plain []
  rw [List.append_nil] at hread
  rw [hread]
  change some [_, _, _ ++ (_ ++ [])] = _
  rw [List.append_nil]
  rfl

/-! ### A failed installation -/

theorem Clear.within {S : List Str → Prop} {w' : World} (h : Clear name w) (hw : Within S w w') : Clear name w' where
  above := hw.direct h.above
  below p hp target hlink := h.below p hp target (hw.link p target hlink)
  bin := hw.direct h.bin

def Aside (name : Str) (p : List Str) : Prop := ¬[name, bin] <:+ p

theorem aside_of_last {p : List Str} (h : p.getLast? ≠ some bin) : Aside name p := by
  rintro ⟨rest, rfl⟩
  apply h
  rw [List.getLast?_append]
  rfl

theorem aside_of_below {p : List Str} (h : [name, apps, usr] <:+ p) : Aside name p := by
  obtain ⟨rest, rfl⟩ := h
  apply aside_of_last
  rw [List.getLast?_append]
  exact fun heq => usr_ne_bin (Option.some.inj heq)

theorem aside_of_above {p : List Str} (h : p <:+ [name, apps, usr]) : Aside name p := by
  intro hbin
  have happs : Aside name [name, apps, usr] := aside_of_below (List.suffix_refl _)
  exact happs (hbin.trans h)

theorem aside_of_bin {p : List Str} (h : p <:+ [bin]) : Aside name p := by
  intro hbin
  exact absurd (hbin.trans h).length_le (Nat.not_succ_le_self 1)

theorem within_mkdir (hm : Posix m) (h : IsPlainName name) (hlen : name.length < 64) (hw : Clear name w) :
    Within (Aside name) w (m.system (mkdirLine name) w).1 := by
  apply Within.mono (hm.mkdir _ name w (simple_mkdirLine h hlen) h.toIsName hw)
  rintro p (hp | hp)
  · rw [canonical_appDir h.toIsName] at hp
    exact aside_of_above hp
  · rw [canonical_bin] at hp
    exact aside_of_bin hp

theorem canonical_bkPath (h : IsPlainName name) (hlen : name.length < 64) :
    canonical (appDir name) <:+ canonical (bkPath name) := by
  rw [bkPath_eq hlen, canonical_below h.toIsName (isName_bk h.toIsName), canonical_appDir h.toIsName]
  exact List.suffix_cons _ _

theorem canonical_binPath (h : IsPlainName name) (hlen : name.length < 64) :
    canonical (appDir name) <:+ canonical (binPath name) := by
  rw [binPath_eq hlen, canonical_below h.toIsName h.toIsName, canonical_appDir h.toIsName]
  exact List.suffix_cons _ _

theorem aside_of_suffix (h : IsPlainName name) {path p : List Str} (hpath : canonical (appDir name) <:+ path)
    (hp : path <:+ p) : Aside name p := by
  rw [canonical_appDir h.toIsName] at hpath
  exact aside_of_below (hpath.trans hp)

theorem within_installLocal (hm : Posix m) (h : IsPlainName app.name.text) (hid : Quotable app.id.text)
    (hw : Clear app.name.text w) : Within (Aside app.name.text) w (installLocal m app w).2 := by
  have hlen := app.name.length_lt
  unfold installLocal
  split
  · exact Within.refl _ w
  · rename_i localBin hfound
    have hoperand := isOperand_candidate hid h (List.mem_of_find?_eq_some hfound)
    apply (hm.copy localBin _ w hoperand h hlen hw).mono
    rintro p (hp | hp)
    · exact aside_of_suffix h (canonical_bkPath h hlen) hp
    · exact aside_of_suffix h (canonical_binPath h hlen) hp

theorem within_installDownload (hm : Posix m) (h : IsPlainName app.name.text) (hurl : Quotable app.download.text)
    (hw : Clear app.name.text w) (hfail : (installDownload m app w).1 = false) :
    Within (Aside app.name.text) w (installDownload m app w).2 := by
  have hbk := canonical_bkPath h app.name.length_lt
  have hfetch := hm.fetch _ _ w h app.name.length_lt (isOperand_fullUrl hurl) hw
  unfold installDownload at hfail ⊢
  dsimp only at hfail ⊢
  split_ifs at hfail ⊢
  exact hfetch.mono fun p hp => aside_of_suffix h hbk hp

theorem within_prepare (hm : Posix m) (h : IsPlainName app.name.text) (hid : Quotable app.id.text)
    (hurl : Quotable app.download.text) (hw : Clear app.name.text w) (hfail : (prepare m app w).1 = false) :
    Within (Aside app.name.text) w (prepare m app w).2 := by
  have hmkdir := within_mkdir hm h app.name.length_lt hw
  have hlocal := within_installLocal hm h hid (hw.within hmkdir)
  have hsteps := hmkdir.trans hlocal
  unfold prepare at hfail ⊢
  dsimp only at hfail ⊢
  split_ifs at hfail ⊢
  · exact hsteps.trans (within_installDownload hm h hurl (hw.within hsteps) hfail)
  · exact hsteps

def Untouched (app : AppEntry) (w : World) (result : Result) : Prop :=
  (∀ p, canonical (appDir app.name.text) <:+ p ∨ canonical (bytes "/bin/" ++ app.name.text) <:+ p →
    result.world p = w p) ∧ result.app.installed = app.installed

def Fresh (app : AppEntry) (w : World) : Prop :=
  (∀ p, canonical (appDir app.name.text) <:+ p → w p = none) ∧ app.installed = false

structure Orderly (app : AppEntry) (w : World) : Prop where
  name : IsPlainName app.name.text
  id : Quotable app.id.text
  download : Quotable app.download.text
  apps : Direct w (canonical APPS_DIR)
  bin : Direct w (canonical (bytes "/bin"))

theorem clear_of_fresh (h : Orderly app w) (hfresh : Fresh app w) : Clear app.name.text w where
  above p hp target hlink := by
    have hpath := canonical_appDir h.name.toIsName
    rw [hpath] at hp
    rcases List.suffix_cons_iff.mp hp with rfl | hp
    · rw [hfresh.1 _ (hpath ▸ List.suffix_refl _)] at hlink
      cases hlink
    · exact h.apps p (by rwa [canonical_APPS_DIR]) target hlink
  below p hp target hlink := by
    rw [hfresh.1 p hp] at hlink
    cases hlink
  bin := h.bin

theorem installApp_failed (hfail : (installApp m app w).failed = true) :
    (prepare m app w).1 = false ∧
      installApp m app w =
        ⟨true, { app with installed := false }, (m.system (cleanupLine app) (prepare m app w).2).1⟩ := by
  unfold installApp at hfail ⊢
  dsimp only at hfail ⊢
  split_ifs at hfail ⊢ with hready
  exact ⟨Bool.eq_false_iff.mpr hready, rfl⟩

theorem installApp_untouched (hm : Posix m) (hfail : (installApp m app w).failed = true) :
    (Orderly app w → Fresh app w → Untouched app w (installApp m app w)) ∧
      (IsPlainName app.name.text → Untouched app w (installApp m app w) → Fresh app w) := by
  obtain ⟨hprepare, hresult⟩ := installApp_failed hfail
  have hgone (h : IsPlainName app.name.text) (p : List Str) (hp : canonical (appDir app.name.text) <:+ p) :
      (installApp m app w).world p = none := by
    have hline := simple_cleanupLine h
    rw [hresult]
    exact hm.removed _ _ _ hline h.toIsName p hp
  constructor
  · intro h hfresh
    have hclear := clear_of_fresh h hfresh
    have hwithin := within_prepare hm h.name h.id h.download hclear hprepare
    refine ⟨?_, by rw [hresult, hfresh.2]⟩
    rintro p (hp | hp)
    · rw [hgone h.name p hp, hfresh.1 p hp]
    · have hrm := hm.rm _ _ _ (simple_cleanupLine h.name) h.name.toIsName (hclear.within hwithin)
      rw [canonical_sysLink h.name.toIsName] at hp
      have hbelow : ¬canonical (appDir app.name.text) <:+ p := by
        intro happs
        exact aside_of_suffix h.name (List.suffix_refl _) happs hp
      rw [hresult]
      exact (hrm.frame p hbelow).trans (hwithin.frame p fun haside => haside hp)
  · intro h huntouched
    refine ⟨fun p hp => ?_, ?_⟩
    · rw [← huntouched.1 p (.inl hp), hgone h p hp]
    · rw [← huntouched.2, hresult]

/-! ### Without a network -/

def offlineSystem (line : Str) (w : World) : World × ℕ :=
  match simple line with
  | some (command :: option :: ops) =>
    if command = bytes "rm" ∧ option = bytes "-rf" then
      (fun p => if ∃ op ∈ ops, canonical op <:+ p then none else w p, 0)
    else if command = bytes "mkdir" ∧ option = bytes "-p" then
      (fun p => if w p = none ∧ ∃ op ∈ ops, p <:+ canonical op then some .dir else w p, 0)
    else (w, 1)
  | _ => (w, 1)

def offline : Machine where
  system := offlineSystem
  stat w path :=
    match w (canonical path) with
    | some (.file data) => some ⟨data.length, true, true⟩
    | some .dir => some ⟨0, false, true⟩
    | _ => none
  read w path :=
    match w (canonical path) with
    | some (.file data) => some data
    | _ => none
  write path data w p := if p = canonical path then some (.file data) else w p

theorem offline_other {u line : Str} (hu : isPlainWord u) (hrm : u ≠ bytes "rm") (hmkdir : u ≠ bytes "mkdir")
    (hline : u ++ [SPACE] <+: line) (w : World) : (offline.system line w).1 = w := by
  obtain ⟨s, rfl⟩ := hline
  have hfirst := @simple_first u s hu
  change (offlineSystem _ w).1 = w
  rw [offlineSystem, List.append_assoc]
  cases hsimple : simple (u ++ ([SPACE] ++ s)) with
  | none => rfl
  | some ws =>
    have hhead := hfirst hsimple
    match ws, hhead with
    | [command], _ => rfl
    | command :: option :: ops, hhead =>
      obtain rfl := Option.some.inj hhead
      dsimp only
      rw [if_neg (fun h => hrm h.1), if_neg (fun h => hmkdir h.1)]

theorem copyLine_first (localBin bk bin : Str) : bytes "cp" ++ [SPACE] <+: copyLine localBin bk bin := by
  rw [copyLine]
  apply List.prefix_take_iff.mpr
  refine ⟨?_, by decide⟩
  simp only [List.append_assoc]
  exact (show bytes "cp" ++ [SPACE] <+: bytes "cp -f " by decide).trans (List.prefix_append _ _)

theorem fetchLine_first (bk url : Str) : bytes "/bin/wget" ++ [SPACE] <+: fetchLine bk url := by
  rw [fetchLine]
  apply List.prefix_take_iff.mpr
  refine ⟨?_, by decide⟩
  simp only [List.append_assoc]
  exact (show bytes "/bin/wget" ++ [SPACE] <+: bytes "/bin/wget -T 20 -O " by decide).trans (List.prefix_append _ _)

theorem posix_offline : Posix offline where
  mkdir line name w hline _ _ := by
    have hsystem : offline.system line w = (fun p => if w p = none ∧ ∃ op ∈ [appDir name, bytes "/bin"],
        p <:+ canonical op then some .dir else w p, 0) := by
      change offlineSystem line w = _
      rw [offlineSystem, hline]
      rfl
    rw [hsystem]
    constructor
    · intro p hp
      apply if_neg
      rintro ⟨-, op, hop, hop'⟩
      rcases List.mem_pair.mp hop with rfl | rfl
      · exact hp (.inl hop')
      · exact hp (.inr hop')
    · intro p target hlink
      dsimp only at hlink
      split_ifs at hlink
      · cases hlink
      · exact hlink
  removed line name w hline _ p hp := by
    have hsystem : (offline.system line w).1 p =
        if ∃ op ∈ [appDir name], canonical op <:+ p then none else w p := by
      change (offlineSystem line w).1 p = _
      rw [offlineSystem, hline]
      rfl
    rw [hsystem, if_pos ⟨_, List.mem_singleton_self _, hp⟩]
  rm line name w hline _ _ := by
    have hsystem : offline.system line w =
        (fun p => if ∃ op ∈ [appDir name], canonical op <:+ p then none else w p, 0) := by
      change offlineSystem line w = _
      rw [offlineSystem, hline]
      rfl
    rw [hsystem]
    constructor
    · intro p hp
      apply if_neg
      rintro ⟨op, hop, hop'⟩
      rw [List.mem_singleton.mp hop] at hop'
      exact hp hop'
    · intro p target hlink
      dsimp only at hlink
      split_ifs at hlink
      exact hlink
  copy localBin name w _ _ _ _ := by
    rw [offline_other (u := bytes "cp") (by decide) (by decide) (by decide) (copyLine_first localBin _ _)]
    exact Within.refl _ w
  fetch name url w _ _ _ _ := by
    rw [offline_other (u := bytes "/bin/wget") (by decide) (by decide) (by decide) (fetchLine_first _ _)]
    exact Within.refl _ w

def calculator : AppEntry := metaEntry (fun _ => none) (bytes "calc") (bytes "<name>calc</name>")

def emptyDisk (p : List Str) : Option Node :=
  if p ∈ [[], [usr], [apps, usr], [bin]] then some .dir else none

def installedDisk (p : List Str) : Option Node :=
  let name := bytes "calc"
  if p = [name, apps, usr] then some .dir
  else if p = [name, name, apps, usr] ∨ p = [name ++ bytes ".bk", name, apps, usr] then
    some (.file (0x7F :: bytes "ELF"))
  else if p = [name, bin] then some (.link (bytes "/usr/apps/calc/calc"))
  else emptyDisk p

theorem orderly_calculator : Orderly calculator emptyDisk where
  name := {
    nonempty := by decide
    slash := by decide
    dot := by decide
    dotdot := by decide
    plain := by decide }
  id := quotable_of_plain (by decide)
  download := quotable_of_plain (by decide)
  apps p _ target hlink := by
    rw [emptyDisk] at hlink
    split_ifs at hlink
    cases hlink
  bin p _ target hlink := by
    rw [emptyDisk] at hlink
    split_ifs at hlink
    cases hlink

theorem fresh_calculator : Fresh calculator emptyDisk := by
  have hdir : canonical (appDir calculator.name.text) = [bytes "calc", apps, usr] := by decide
  refine ⟨fun p hp => if_neg fun hmem => ?_, by decide⟩
  rw [hdir] at hp
  have hlen := hp.length_le
  simp only [List.mem_cons, List.not_mem_nil, or_false] at hmem
  rcases hmem with rfl | rfl | rfl | rfl
  · exact absurd hlen (by decide)
  · exact absurd hlen (by decide)
  · exact absurd hlen (by decide)
  · exact absurd hlen (by decide)

theorem installApp_untouched_offline : Untouched calculator emptyDisk (installApp offline calculator emptyDisk) :=
  (installApp_untouched posix_offline (by decide +kernel)).1 orderly_calculator fresh_calculator

theorem installApp_removes :
    (installApp offline { calculator with installed := true } installedDisk).failed = true ∧
      ¬Untouched { calculator with installed := true } installedDisk
        (installApp offline { calculator with installed := true } installedDisk) := by
  constructor
  · decide +kernel
  · intro h
    have hdir := h.1 [bytes "calc", apps, usr] (.inl (by decide))
    revert hdir
    decide +kernel

end Install

end JurkOS.Userland
