import JurkOS.Lib.Lines
import JurkOS.Lib.ShellLines
import JurkOS.Userland.Install
import JurkOS.Userland.StoreLoop

/-!
`refresh_remote_catalog` of `NoneCompiled/jurkstore.c`: what the lines of the remote
catalog make the shell do, and what they make of the package list.
-/

namespace JurkOS.Userland.Refresh

open Lib.Libc Lib.Paths Lib.Shell
open Install (quoted Quotable)

/-- The shell, with the exit status of a line, and the files. What `access` allows is opened. -/
structure Online (W : Type) where
  system : Str → W → W × ℕ
  read : W → Str → Option Str
  remove : Str → W → W
  stat : W → Str → Option Stat

def wgetLine (size : ℕ) (out url : Str) : Str :=
  snprintf size (bytes "/bin/wget -q -T 6 -O " ++ quoted out ++ bytes " " ++ quoted url ++
    bytes " 2>/dev/null || wget -q -T 6 -O " ++ quoted out ++ bytes " " ++ quoted url ++ bytes " 2>/dev/null")

/-! ### `fetch_meta_from_entry` -/

def metaUrl (entry : Str) : Str :=
  if bytes "$repo/" <+: entry then snprintf 512 (REPO_BASE ++ bytes "/" ++ entry.drop 6)
  else if bytes "$repo" <+: entry then snprintf 512 (REPO_BASE ++ entry.drop 5)
  else if bytes "http://" <+: entry ∨ bytes "https://" <+: entry then (safeStrcpy 511 entry).text
  else if bytes "apps/" <+: entry then snprintf 512 (REPO_BASE ++ bytes "/" ++ entry)
  else snprintf 512 (REPO_BASE ++ bytes "/apps/" ++ entry ++ bytes "/meta.xml")

def IsBare (entry : Str) : Prop :=
  ¬bytes "$repo" <+: entry ∧ ¬bytes "http://" <+: entry ∧ ¬bytes "https://" <+: entry ∧ ¬bytes "apps/" <+: entry

instance (entry : Str) : Decidable (IsBare entry) := inferInstanceAs (Decidable (_ ∧ _))

def urlFolder (url : Str) : Str :=
  match strstr (bytes "apps/") url with
  | none => []
  | some i =>
    let p := url.drop (i + 5)
    match strchr p SLASH with
    | none => []
    | some flen => p.take (if 64 ≤ flen then 63 else flen)

def entryName (entry : Str) : Str := if IsBare entry then (safeStrcpy 63 entry).text else []

def folderId (entry : Str) : Str :=
  let id := entryName entry
  let id := if id.length = 0 then urlFolder (metaUrl entry) else id
  if id.length = 0 then bytes "app" else id

def tmpPath (entry : Str) : Str := snprintf 256 (bytes "/tmp/meta_" ++ folderId entry ++ bytes ".xml")

def metaLine (entry : Str) : Str := wgetLine 1024 (tmpPath entry) (metaUrl entry)

variable {W : Type} (o : Online W)

def fetchMetaFromEntry (s : W × List AppEntry) (entry : Str) : W × List AppEntry :=
  let (w, status) := o.system (metaLine entry) s.1
  if status = 0 then
    let apps :=
      match o.read w (tmpPath entry) with
      | none => s.2
      | some xml =>
        if 0 < xml.length ∧ xml.length < 65536 then parseMetaXmlBuffer (o.stat w) (folderId entry) xml s.2 else s.2
    (o.remove (tmpPath entry) w, apps)
  else (w, s.2)

/-! ### `refresh_remote_catalog` -/

structure Index where
  url : Str
  path : Str
  size : ℕ
  clean : Str → Str

def catalogTxt : Index where
  url := REPO_BASE ++ bytes "/catalog.txt"
  path := bytes "/tmp/jurkstore_catalog.txt"
  size := 256
  clean line :=
    (line.rdropWhile fun c => c = RETURN ∨ c = NEWLINE ∨ c = SPACE ∨ c = DOUBLE_QUOTE).dropWhile fun c =>
      c = SPACE ∨ c = DOUBLE_QUOTE

def appsTxt : Index where
  url := REPO_BASE ++ bytes "/apps.txt"
  path := bytes "/tmp/jurkstore_apps.txt"
  size := 128
  clean := trimEnd

def Index.line (x : Index) : Str := wgetLine 4096 x.path x.url

def Index.entries (x : Index) (text : Str) : List Str :=
  ((readLines x.size text).map x.clean).filter fun entry => entry.length > 0 ∧ entry.head? ≠ some HASH

def sync (x : Index) (s : W × List AppEntry) : (W × List AppEntry) × Bool :=
  let (w, status) := o.system x.line s.1
  match if status = 0 then o.read w x.path else none with
  | none => ((w, s.2), false)
  | some text =>
    let (w, apps) := (x.entries text).foldl (fetchMetaFromEntry o) (w, s.2)
    ((o.remove x.path w, apps), x.entries text ≠ [])

def refreshRemoteCatalog (s : W × List AppEntry) : W × List AppEntry :=
  let (s, found) := sync o catalogTxt s
  let s := if found then s else (sync o appsTxt s).1
  (s.1, refreshStates (o.stat s.1) s.2)

/-! ### How the lines read -/

def PIPE : UInt8 := 0x7C
def GREATER : UInt8 := 0x3E
def SEMICOLON : UInt8 := 0x3B

def options : List Str := ["-q", "-T", "6", "-O"].map bytes

def silenced : List Token := [.word (bytes "2"), .operator GREATER, .word (bytes "/dev/null")]

def fetchTokens (prog out url : Str) : List Token :=
  (prog :: options).map .word ++ (.word out :: .word url :: silenced)

/-- `/bin/wget`, and `wget` where the first fails. -/
def wgetTokens (out url : Str) : List Token :=
  fetchTokens (bytes "/bin/wget") out url ++ (.operator PIPE :: .operator PIPE :: fetchTokens (bytes "wget") out url)

def silence : Str := bytes " 2>/dev/null"

def fetchPart (prog out url s : Str) : Str :=
  spaced (prog :: options) ++ (quoted out ++ SPACE :: (quoted url ++ (silence ++ s)))

variable {out url prog s : Str} {ts : List Token}

theorem quoted_append (q s : Str) : quoted q ++ s = DOUBLE_QUOTE :: (q ++ DOUBLE_QUOTE :: s) := by
  rw [quoted, List.cons_append, List.cons_append, List.append_assoc]
  rfl

theorem reads_silence (hparts : Parts s) (h : Reads s ts) : Reads (silence ++ s) (silenced ++ ts) := by
  have hline : silence ++ s = SPACE :: (bytes "2" ++ GREATER :: (bytes "/dev/null" ++ s)) := rfl
  rw [hline]
  apply Reads.space
  apply Reads.word (by decide) (parts_cons (by decide) _)
  apply Reads.operator (by decide)
  exact h.word (by decide) hparts

theorem reads_fetchPart (hprog : isPlainWord prog) (hout : Quotable out) (hurl : Quotable url) (hparts : Parts s)
    (h : Reads s ts) : Reads (fetchPart prog out url s) (fetchTokens prog out url ++ ts) := by
  have hwords : ∀ w ∈ prog :: options, isPlainWord w := by
    rw [List.forall_mem_cons]
    exact ⟨hprog, by decide⟩
  rw [fetchPart, fetchTokens, List.append_assoc, quoted_append, quoted_append]
  apply Reads.spaced hwords
  apply Reads.quoted hout (parts_cons (by decide) _)
  apply Reads.space
  apply Reads.quoted hurl (parts_cons (by decide) _)
  exact reads_silence hparts h

def wgetCommand (out url : Str) : Str :=
  fetchPart (bytes "/bin/wget") out url (bytes " || " ++ fetchPart (bytes "wget") out url [])

theorem wgetLine_eq {size : ℕ} (hlen : 2 * (out.length + url.length) + 76 ≤ size) :
    wgetLine size out url = wgetCommand out url := by
  have hfirst : bytes "/bin/wget -q -T 6 -O " = spaced (bytes "/bin/wget" :: options) := by decide
  have hsecond : bytes " 2>/dev/null || wget -q -T 6 -O " =
    silence ++ (bytes " || " ++ spaced (bytes "wget" :: options)) := by decide
  have hspace : bytes " " = [SPACE] := by decide
  rw [wgetLine, snprintf_of_lt]
  · rw [hfirst, hsecond, hspace]
    simp [wgetCommand, fetchPart, silence]
  · have hl₁ : (bytes "/bin/wget -q -T 6 -O ").length = 21 := by decide
    have hl₂ : (bytes " 2>/dev/null || wget -q -T 6 -O ").length = 32 := by decide
    have hl₃ : (bytes " 2>/dev/null").length = 12 := by decide
    simp only [List.length_append, hl₁, hl₂, hl₃, hspace, quoted, List.length_cons, List.length_nil]
    omega

theorem reads_wgetCommand (hout : Quotable out) (hurl : Quotable url) :
    Reads (wgetCommand out url) (wgetTokens out url) := by
  have hsecond : Reads (fetchPart (bytes "wget") out url []) (fetchTokens (bytes "wget") out url ++ []) :=
    reads_fetchPart (by decide) hout hurl parts_nil .nil
  have hpipes : Reads (bytes " || " ++ fetchPart (bytes "wget") out url [])
      (.operator PIPE :: .operator PIPE :: fetchTokens (bytes "wget") out url) := by
    rw [List.append_nil] at hsecond
    apply Reads.space
    apply Reads.operator (by decide)
    apply Reads.operator (by decide)
    exact hsecond.space
  exact reads_fetchPart (by decide) hout hurl (parts_cons (by decide) _) hpipes

/-! ### Where an entry leads -/

variable {entry : Str}

theorem length_metaUrl_le (entry : Str) : (metaUrl entry).length ≤ entry.length + 82 := by
  have hbase : REPO_BASE.length = 66 := by decide
  have hslash : (bytes "/").length = 1 := by decide
  have happs : (bytes "/apps/").length = 6 := by decide
  have hmeta : (bytes "/meta.xml").length = 9 := by decide
  have hcstr := (cstr_initial entry).length_le
  unfold metaUrl
  split_ifs <;>
    simp only [snprintf, safeStrcpy, List.length_take, List.length_append, List.length_drop, hbase, hslash, happs,
      hmeta] <;>
    omega

theorem length_urlFolder_le (url : Str) : (urlFolder url).length ≤ 63 := by
  unfold urlFolder
  split
  · exact Nat.zero_le 63
  · dsimp only
    split
    · exact Nat.zero_le 63
    · rw [List.length_take]
      split_ifs <;> omega

theorem folderId_induction {P : Str → Prop} (hname : P (entryName entry)) (hfolder : P (urlFolder (metaUrl entry)))
    (happ : P (bytes "app")) : P (folderId entry) := by
  rw [folderId]
  split_ifs
  · exact happ
  · exact hfolder
  · exact hname

theorem length_entryName_le (entry : Str) : (entryName entry).length ≤ 63 := by
  rw [entryName]
  split_ifs
  · exact Nat.lt_succ_iff.mp (safeStrcpy 63 entry).length_lt
  · exact Nat.zero_le 63

theorem length_folderId_le (entry : Str) : (folderId entry).length ≤ 63 :=
  folderId_induction (P := fun id => id.length ≤ 63) (length_entryName_le entry) (length_urlFolder_le (metaUrl entry))
    (by decide)

theorem tmpPath_eq (entry : Str) : tmpPath entry = bytes "/tmp/meta_" ++ folderId entry ++ bytes ".xml" := by
  have hid := length_folderId_le entry
  have hpre : (bytes "/tmp/meta_").length = 10 := by decide
  have hext : (bytes ".xml").length = 4 := by decide
  apply snprintf_of_lt
  rw [List.length_append, List.length_append, hpre, hext]
  omega

theorem metaUrl_bare (h : IsBare entry) :
    metaUrl entry = snprintf 512 (REPO_BASE ++ bytes "/apps/" ++ entry ++ bytes "/meta.xml") := by
  obtain ⟨hrepo, hhttp, hhttps, happs⟩ := h
  have hslash : ¬bytes "$repo/" <+: entry := fun hpre => hrepo (List.IsPrefix.trans (by decide) hpre)
  rw [metaUrl, if_neg hslash, if_neg hrepo, if_neg (not_or.mpr ⟨hhttp, hhttps⟩), if_neg happs]

theorem mem_metaUrl_of_mem_entryName {c : UInt8} (hc : c ∈ entryName entry) : c ∈ metaUrl entry := by
  rw [entryName] at hc
  split_ifs at hc with h
  swap
  · cases hc
  have hlen : (REPO_BASE ++ bytes "/apps/").length = 72 := by decide
  have hstart : c ∈ entry.take 439 := by
    have hsub : (safeStrcpy 63 entry).text <+: entry.take 439 := by
      apply List.prefix_take_iff.mpr
      constructor
      · exact (List.take_prefix 63 (cstr entry)).trans (cstr_initial entry)
      · exact (Nat.lt_succ_iff.mp (safeStrcpy 63 entry).length_lt).trans (by decide)
    exact hsub.subset hc
  rw [metaUrl_bare h, snprintf, List.append_assoc, List.take_append, hlen]
  apply List.mem_append_right
  rw [List.take_append]
  exact List.mem_append_left _ hstart

theorem mem_of_mem_urlFolder {c : UInt8} (hc : c ∈ urlFolder url) : c ∈ url := by
  unfold urlFolder at hc
  split at hc
  · cases hc
  · dsimp only at hc
    split at hc
    · cases hc
    · exact List.mem_of_mem_drop (List.mem_of_mem_take hc)

theorem quotable_folderId (h : Quotable (metaUrl entry)) : Quotable (folderId entry) := by
  apply folderId_induction
  · exact fun c hc => h c (mem_metaUrl_of_mem_entryName hc)
  · exact fun c hc => h c (mem_of_mem_urlFolder hc)
  · exact Install.quotable_of_plain (by decide)

theorem quotable_tmpPath (h : Quotable (metaUrl entry)) : Quotable (tmpPath entry) := by
  rw [tmpPath_eq]
  apply Install.quotable_append
  · exact Install.quotable_append (Install.quotable_of_plain (by decide)) (quotable_folderId h)
  · exact Install.quotable_of_plain (by decide)

theorem metaLine_eq (hlen : entry.length ≤ 255) : metaLine entry = wgetCommand (tmpPath entry) (metaUrl entry) := by
  have hurl := length_metaUrl_le entry
  have htmp := congrArg List.length (tmpPath_eq entry)
  have hid := length_folderId_le entry
  have hpre : (bytes "/tmp/meta_").length = 10 := by decide
  have hext : (bytes ".xml").length = 4 := by decide
  rw [List.length_append, List.length_append, hpre, hext] at htmp
  exact wgetLine_eq (by omega)

/-! ### The lists -/

def indexes : List Index := [catalogTxt, appsTxt]

theorem index_bound {x : Index} (hx : x ∈ indexes) :
    2 ≤ x.size ∧ x.size ≤ 256 ∧ ∀ l, (x.clean l).length ≤ l.length := by
  rcases List.mem_pair.mp hx with rfl | rfl
  · refine ⟨by decide, by decide, fun l => ?_⟩
    exact (List.dropWhile_suffix _).length_le.trans (List.rdropWhile_prefix _ l).length_le
  · exact ⟨by decide, by decide, fun l => (List.rdropWhile_prefix _ l).length_le⟩

theorem length_of_mem_readLines {size : ℕ} {text l : Str} (hsize : 2 ≤ size) (h : l ∈ readLines size text) :
    l.length < size := by
  induction hn : text.length using Nat.strong_induction_on generalizing text with
  | _ n ih =>
    by_cases htext : text = []
    · rw [htext] at h
      cases h
    · rw [readLines_cons hsize htext, List.mem_cons] at h
      rcases h with rfl | h
      · have hcstr := (cstr_initial (readLine (size - 1) text)).length_le
        have hline := length_readLine_le (size - 1) text
        omega
      · exact ih _ (hn ▸ drop_readLine_lt hsize htext) h rfl

theorem length_entry {x : Index} (hx : x ∈ indexes) {text : Str} (h : entry ∈ x.entries text) : entry.length ≤ 255 := by
  obtain ⟨hmin, hmax, hclean⟩ := index_bound hx
  obtain ⟨l, hl, rfl⟩ := List.mem_map.mp (List.mem_of_mem_filter h)
  have hline := length_of_mem_readLines hmin hl
  have hle := hclean l
  omega

theorem index_line {x : Index} (hx : x ∈ indexes) :
    x.line = wgetCommand x.path x.url ∧ Quotable x.path ∧ Quotable x.url := by
  rcases List.mem_pair.mp hx with rfl | rfl
  · exact ⟨wgetLine_eq (by decide), Install.quotable_of_plain (by decide), Install.quotable_of_plain (by decide)⟩
  · exact ⟨wgetLine_eq (by decide), Install.quotable_of_plain (by decide), Install.quotable_of_plain (by decide)⟩

/-! ### What is run -/

def Online.logged : Online (W × List Str) where
  system line s := (((o.system line s.1).1, s.2 ++ [line]), (o.system line s.1).2)
  read s := o.read s.1
  remove path s := (o.remove path s.1, s.2)
  stat s := o.stat s.1

def Requested (line : Str) : Prop :=
  ∃ x ∈ indexes, line = x.line ∨ ∃ w text, o.read w x.path = some text ∧ ∃ entry ∈ x.entries text, line = metaLine entry

variable {o : Online W}

theorem log_fetchMetaFromEntry (s : (W × List Str) × List AppEntry) (entry : Str) :
    (fetchMetaFromEntry o.logged s entry).1.2 = s.1.2 ++ [metaLine entry] := by
  rw [fetchMetaFromEntry]
  dsimp only [Online.logged]
  split_ifs <;> rfl

theorem log_foldl (entries : List Str) (s : (W × List Str) × List AppEntry) :
    (entries.foldl (fetchMetaFromEntry o.logged) s).1.2 = s.1.2 ++ entries.map metaLine := by
  induction entries generalizing s with
  | nil => exact (List.append_nil s.1.2).symm
  | cons entry entries ih =>
    rw [List.foldl_cons, ih, log_fetchMetaFromEntry, List.append_assoc]
    rfl

theorem log_sync_read {x : Index} {s : (W × List Str) × List AppEntry} {text : Str}
    (hstatus : (o.system x.line s.1.1).2 = 0) (hread : o.read (o.system x.line s.1.1).1 x.path = some text) :
    (sync o.logged x s).1.1.2 = s.1.2 ++ x.line :: (x.entries text).map metaLine := by
  have hlog := log_foldl (o := o) (x.entries text) (((o.system x.line s.1.1).1, s.1.2 ++ [x.line]), s.2)
  rw [List.append_assoc] at hlog
  rw [sync]
  dsimp only [Online.logged]
  rw [if_pos hstatus, hread]
  exact hlog

theorem log_sync (x : Index) (s : (W × List Str) × List AppEntry) : (sync o.logged x s).1.1.2 = s.1.2 ++ [x.line] ∨
    ∃ text, (o.system x.line s.1.1).2 = 0 ∧ o.read (o.system x.line s.1.1).1 x.path = some text ∧
      (sync o.logged x s).1.1.2 = s.1.2 ++ x.line :: (x.entries text).map metaLine := by
  by_cases hstatus : (o.system x.line s.1.1).2 = 0
  · cases hread : o.read (o.system x.line s.1.1).1 x.path with
    | none =>
      left
      rw [sync]
      dsimp only [Online.logged]
      rw [if_pos hstatus, hread]
    | some text => exact .inr ⟨text, hstatus, rfl, log_sync_read hstatus hread⟩
  · left
    rw [sync]
    dsimp only [Online.logged]
    rw [if_neg hstatus]

theorem requested_sync {x : Index} (hx : x ∈ indexes) {s : (W × List Str) × List AppEntry}
    (h : ∀ line ∈ s.1.2, Requested o line) : ∀ line ∈ (sync o.logged x s).1.1.2, Requested o line := by
  intro line hline
  rcases log_sync x s with hlog | ⟨text, -, hread, hlog⟩
  · rw [hlog, List.mem_append, List.mem_singleton] at hline
    rcases hline with hline | rfl
    · exact h line hline
    · exact ⟨x, hx, .inl rfl⟩
  · rw [hlog, List.mem_append, List.mem_cons, List.mem_map] at hline
    rcases hline with hline | rfl | ⟨entry, hentry, rfl⟩
    · exact h line hline
    · exact ⟨x, hx, .inl rfl⟩
    · exact ⟨x, hx, .inr ⟨_, text, hread, entry, hentry, rfl⟩⟩

theorem requested_refresh (w : W) (apps : List AppEntry) :
    ∀ line ∈ (refreshRemoteCatalog o.logged ((w, []), apps)).1.2, Requested o line := by
  have hnil : ∀ line ∈ ([] : List Str), Requested o line := fun line hline => nomatch hline
  have hcatalog := requested_sync (o := o) (x := catalogTxt) (by simp [indexes]) (s := ((w, []), apps)) hnil
  rw [refreshRemoteCatalog]
  dsimp only
  split_ifs
  · exact hcatalog
  · exact requested_sync (by simp [indexes]) hcatalog

def Tame (o : Online W) : Prop :=
  ∀ x ∈ indexes, ∀ w text, o.read w x.path = some text → ∀ entry ∈ x.entries text, Quotable (metaUrl entry)

theorem refresh_only_fetches (w : W) (apps : List AppEntry) :
    ∀ line ∈ (refreshRemoteCatalog o.logged ((w, []), apps)).1.2, ∃ out url, line = wgetCommand out url ∧
      (Tame o → Reads line (wgetTokens out url)) ∧
      ((∃ x ∈ indexes, out = x.path ∧ url = x.url) ∨
        ∃ x ∈ indexes, ∃ w' text, o.read w' x.path = some text ∧ ∃ entry ∈ x.entries text,
          out = tmpPath entry ∧ url = metaUrl entry) := by
  intro line hline
  obtain ⟨x, hx, rfl | ⟨w', text, hread, entry, hentry, rfl⟩⟩ := requested_refresh w apps line hline
  · obtain ⟨heq, hpath, hurl⟩ := index_line hx
    exact ⟨x.path, x.url, heq, fun _ => heq ▸ reads_wgetCommand hpath hurl, .inl ⟨x, hx, rfl, rfl⟩⟩
  · have heq := metaLine_eq (length_entry hx hentry)
    refine ⟨tmpPath entry, metaUrl entry, heq, fun h => ?_, .inr ⟨x, hx, w', text, hread, entry, hentry, rfl, rfl⟩⟩
    have hurl := h x hx w' text hread entry hentry
    exact heq ▸ reads_wgetCommand (quotable_tmpPath hurl) hurl

def peaceful : Online Unit where
  system _ w := (w, 0)
  read _ _ := some (bytes "calc\n")
  remove _ w := w
  stat _ _ := none

theorem peaceful_only_fetches : metaLine (bytes "calc") ∈ (refreshRemoteCatalog peaceful.logged (((), []), [])).1.2 ∧
    ∃ out url, Reads (metaLine (bytes "calc")) (wgetTokens out url) ∧
      ((∃ x ∈ indexes, out = x.path ∧ url = x.url) ∨
        ∃ x ∈ indexes, ∃ w' text, peaceful.read w' x.path = some text ∧ ∃ entry ∈ x.entries text,
          out = tmpPath entry ∧ url = metaUrl entry) := by
  have htame : Tame peaceful := by
    intro x hx w text htext entry hentry
    obtain rfl := Option.some.inj htext
    have hentries : ∀ x ∈ indexes, x.entries (bytes "calc\n") = [bytes "calc"] := by decide
    have hurl : metaUrl (bytes "calc") = REPO_BASE ++ bytes "/apps/calc/meta.xml" := by decide
    rw [hentries x hx, List.mem_singleton] at hentry
    rw [hentry, hurl]
    exact Install.quotable_of_plain (by decide)
  have hline : metaLine (bytes "calc") ∈ (refreshRemoteCatalog peaceful.logged (((), []), [])).1.2 := by
    decide +kernel
  obtain ⟨out, url, -, hreads, hwhich⟩ := refresh_only_fetches () [] _ hline
  exact ⟨hline, out, url, hreads htame, hwhich⟩

/-! ### What an entry can make the shell run -/

def smuggled (ws : List Str) : Str := bytes "$repo/apps/app/x\";" ++ spaced ws ++ bytes ";\"y"

def smugglingUrl (ws : List Str) : Str := REPO_BASE ++ bytes "/apps/app/x\";" ++ spaced ws ++ bytes ";\"y"

variable {ws : List Str}

theorem metaUrl_smuggled (hlen : (smuggled ws).length ≤ 255) : metaUrl (smuggled ws) = smugglingUrl ws := by
  have hentry : smuggled ws = bytes "$repo/" ++ (bytes "apps/app/x\";" ++ (spaced ws ++ bytes ";\"y")) := by
    rw [smuggled, List.append_assoc, ← List.append_assoc (bytes "$repo/")]
    rfl
  have hpre : bytes "$repo/" <+: smuggled ws := hentry ▸ List.prefix_append _ _
  have hdrop : (smuggled ws).drop 6 = bytes "apps/app/x\";" ++ (spaced ws ++ bytes ";\"y") := by
    rw [hentry]
    rfl
  have hbase : (REPO_BASE ++ bytes "/").length = 67 := by decide
  rw [metaUrl, if_pos hpre, snprintf_of_lt]
  · rw [hdrop, smugglingUrl, List.append_assoc, List.append_assoc, List.append_assoc]
    rfl
  · rw [List.length_append, hbase, List.length_drop]
    omega

theorem strstr_append_of_some {needle s : Str} (hne : needle ≠ []) {i : ℕ} (h : strstr needle s = some i) (t : Str) :
    strstr needle (s ++ t) = some i := by
  have hfits := strstr_fits hne h
  rw [strstr_eq_some_iff hne] at h ⊢
  obtain ⟨hfound, hfirst⟩ := h
  constructor
  · rw [List.drop_append_of_le_length (by omega)]
    exact hfound.trans (List.prefix_append _ t)
  · intro j hj hpre
    apply hfirst j hj
    rw [List.drop_append_of_le_length (by omega)] at hpre
    apply List.prefix_of_prefix_length_le hpre (List.prefix_append _ t)
    rw [List.length_drop]
    omega

theorem folderId_smuggled (hlen : (smuggled ws).length ≤ 255) : folderId (smuggled ws) = bytes "app" := by
  have hurl : smugglingUrl ws = REPO_BASE ++ bytes "/apps/app/x\";" ++ (spaced ws ++ bytes ";\"y") :=
    List.append_assoc _ _ _
  have hfound : strstr (bytes "apps/") (smugglingUrl ws) = some 67 := by
    rw [hurl]
    exact strstr_append_of_some (by decide) (by decide) _
  have hfolder : urlFolder (smugglingUrl ws) = bytes "app" := by
    have hdrop : (smugglingUrl ws).drop (67 + 5) =
        bytes "app" ++ SLASH :: (bytes "x\";" ++ (spaced ws ++ bytes ";\"y")) := by
      rw [hurl, List.drop_append_of_le_length (by decide)]
      rfl
    have hslash : strchr ((smugglingUrl ws).drop (67 + 5)) SLASH = some 3 := by
      rw [hdrop]
      exact strchr_append (by decide) _
    rw [urlFolder, hfound]
    dsimp only
    rw [hslash, hdrop]
    rfl
  have hname : entryName (smuggled ws) = [] := by
    have hrepo : bytes "$repo" <+: smuggled ws := by
      rw [smuggled, List.append_assoc]
      exact List.IsPrefix.trans (by decide) (List.prefix_append _ _)
    exact if_neg fun h => h.1 hrepo
  rw [folderId, hname, metaUrl_smuggled hlen, hfolder]
  rfl

def smuggledTokens (prog out : Str) (ws : List Str) : List Token :=
  (prog :: options).map .word ++ (.word out :: .word (REPO_BASE ++ bytes "/apps/app/x") :: .operator SEMICOLON ::
    (ws.map .word ++ (.operator SEMICOLON :: .word (bytes "y") :: silenced)))

theorem reads_smuggledPart (hprog : isPlainWord prog) (hout : Quotable out) (hws : ∀ w ∈ ws, isPlainWord w)
    (hparts : Parts s) (h : Reads s ts) :
    Reads (fetchPart prog out (smugglingUrl ws) s) (smuggledTokens prog out ws ++ ts) := by
  have hwords : ∀ w ∈ prog :: options, isPlainWord w := by
    rw [List.forall_mem_cons]
    exact ⟨hprog, by decide⟩
  have hurl : quoted (smugglingUrl ws) ++ (silence ++ s) =
      DOUBLE_QUOTE :: ((REPO_BASE ++ bytes "/apps/app/x") ++ DOUBLE_QUOTE :: SEMICOLON :: (spaced ws ++
        SEMICOLON :: DOUBLE_QUOTE :: (bytes "y" ++ DOUBLE_QUOTE :: (silence ++ s)))) := by
    have hstart : bytes "/apps/app/x\";" = bytes "/apps/app/x" ++ [DOUBLE_QUOTE, SEMICOLON] := by decide
    have hend : bytes ";\"y" = SEMICOLON :: DOUBLE_QUOTE :: bytes "y" := by decide
    rw [smugglingUrl, quoted, hstart, hend]
    simp
  have htokens : smuggledTokens prog out ws ++ ts = (prog :: options).map .word ++ (.word out ::
      .word (REPO_BASE ++ bytes "/apps/app/x") :: .operator SEMICOLON :: (ws.map .word ++
        (.operator SEMICOLON :: .word (bytes "y") :: (silenced ++ ts)))) := by
    simp [smuggledTokens]
  rw [fetchPart, quoted_append, hurl, htokens]
  apply Reads.spaced hwords
  apply Reads.quoted hout (parts_cons (by decide) _)
  apply Reads.space
  apply Reads.quoted (Install.quotable_of_plain (by decide)) (parts_cons (by decide) _)
  apply Reads.operator (by decide)
  apply Reads.spaced hws
  apply Reads.operator (by decide)
  apply Reads.quoted (Install.quotable_of_plain (by decide)) (parts_cons (by decide) _)
  exact reads_silence hparts h

theorem reads_smuggled (hws : ∀ w ∈ ws, isPlainWord w) (hlen : (smuggled ws).length ≤ 255) :
    Reads (metaLine (smuggled ws)) (smuggledTokens (bytes "/bin/wget") (bytes "/tmp/meta_app.xml") ws ++
      (.operator PIPE :: .operator PIPE :: smuggledTokens (bytes "wget") (bytes "/tmp/meta_app.xml") ws)) := by
  have hout : Quotable (bytes "/tmp/meta_app.xml") := Install.quotable_of_plain (by decide)
  have htmp : tmpPath (smuggled ws) = bytes "/tmp/meta_app.xml" := by
    rw [tmpPath_eq, folderId_smuggled hlen]
    decide
  have hurl := length_metaUrl_le (smuggled ws)
  have htmpLen : (bytes "/tmp/meta_app.xml").length = 17 := by decide
  have hwget : isPlainWord (bytes "wget") := by decide
  have hsecond := reads_smuggledPart hwget hout hws parts_nil .nil
  rw [List.append_nil] at hsecond
  rw [metaLine, htmp, wgetLine_eq (by omega), metaUrl_smuggled hlen]
  apply reads_smuggledPart (by decide) hout hws (parts_cons (by decide) _)
  apply Reads.space
  apply Reads.operator (by decide)
  apply Reads.operator (by decide)
  exact hsecond.space

theorem newline_notMem_smuggled (hws : ∀ w ∈ ws, isPlainWord w) : NEWLINE ∉ smuggled ws := by
  have hspaced : NEWLINE ∉ spaced ws := by
    rw [spaced, List.mem_flatMap]
    rintro ⟨w, hw, hmem⟩
    rw [List.mem_append] at hmem
    rcases hmem with hmem | hmem
    · have hplain := List.all_eq_true.mp (all_isPlain_of_isPlainWord (hws w hw)) NEWLINE hmem
      revert hplain
      decide
    · revert hmem
      decide
  have hends : NEWLINE ∉ bytes "$repo/apps/app/x\";" ∧ NEWLINE ∉ bytes ";\"y" := by decide
  simp [smuggled, hspaced, hends]

theorem zero_notMem_smuggled (hzero : ∀ w ∈ ws, 0 ∉ w) : 0 ∉ smuggled ws := by
  have hspaced : 0 ∉ spaced ws := by
    rw [spaced, List.mem_flatMap]
    rintro ⟨w, hw, hmem⟩
    rw [List.mem_append] at hmem
    rcases hmem with hmem | hmem
    · exact hzero w hw hmem
    · revert hmem
      decide
  have hends : 0 ∉ bytes "$repo/apps/app/x\";" ∧ 0 ∉ bytes ";\"y" := by decide
  simp [smuggled, hspaced, hends]

theorem clean_smuggled (ws : List Str) : catalogTxt.clean (smuggled ws ++ [NEWLINE]) = smuggled ws := by
  have hlast : smuggled ws = (bytes "$repo/apps/app/x\";" ++ spaced ws ++ [SEMICOLON, DOUBLE_QUOTE]) ++ bytes "y" := by
    have hend : bytes ";\"y" = [SEMICOLON, DOUBLE_QUOTE] ++ bytes "y" := by decide
    rw [smuggled, hend, List.append_assoc _ _ (bytes "y")]
  have hfirst : smuggled ws = bytes "$" ++ (bytes "repo/apps/app/x\";" ++ spaced ws ++ bytes ";\"y") := by
    rw [smuggled, List.append_assoc, List.append_assoc]
    rfl
  simp only [catalogTxt]
  rw [List.rdropWhile_concat_pos _ _ _ (by decide)]
  have hy : bytes "y" = [0x79] := by decide
  have hend : (smuggled ws).rdropWhile (fun c => c = RETURN ∨ c = NEWLINE ∨ c = SPACE ∨ c = DOUBLE_QUOTE) =
      smuggled ws := by
    rw [hlast, hy]
    exact List.rdropWhile_concat_neg _ _ _ (by decide)
  rw [hend, hfirst]
  exact List.dropWhile_cons_of_neg (by decide)

theorem smuggled_mem_entries (hws : ∀ w ∈ ws, isPlainWord w) (hzero : ∀ w ∈ ws, 0 ∉ w)
    (hlen : (smuggled ws).length ≤ 254) {front : Str} (hfront : front = [] ∨ front.getLast? = some NEWLINE)
    (rest : Str) : smuggled ws ∈ catalogTxt.entries (front ++ (smuggled ws ++ NEWLINE :: rest)) := by
  have hline : cstr (smuggled ws ++ [NEWLINE]) = smuggled ws ++ [NEWLINE] := by
    apply cstr_of_notMem
    rw [List.mem_append, not_or]
    exact ⟨zero_notMem_smuggled hzero, by decide⟩
  have hsize : catalogTxt.size = 256 := rfl
  have hkept : 0 < (smuggled ws).length ∧ (smuggled ws).head? ≠ some HASH := by
    rw [smuggled, List.append_assoc]
    refine ⟨Nat.succ_pos _, fun hhead => ?_⟩
    exact absurd (Option.some.inj hhead) (by decide)
  rw [Index.entries, hsize, readLines_append (by decide) hfront,
    readLines_line (newline_notMem_smuggled hws) (by omega), hline, List.map_append, List.map_cons, clean_smuggled,
    List.mem_filter]
  refine ⟨by simp, by simpa using hkept⟩

theorem log_grows (x : Index) (s : (W × List Str) × List AppEntry) {line : Str} (h : line ∈ s.1.2) :
    line ∈ (sync o.logged x s).1.1.2 := by
  rcases log_sync x s with hlog | ⟨text, -, -, hlog⟩
  · rw [hlog]
    exact List.mem_append_left _ h
  · rw [hlog]
    exact List.mem_append_left _ h

theorem mem_log_refresh {s : (W × List Str) × List AppEntry} {line : Str}
    (h : line ∈ (sync o.logged catalogTxt s).1.1.2) :
    line ∈ (refreshRemoteCatalog o.logged s).1.2 := by
  rw [refreshRemoteCatalog]
  dsimp only
  split_ifs
  · exact h
  · exact log_grows appsTxt _ h

theorem catalog_runs_commands (hws : ∀ w ∈ ws, isPlainWord w) (hzero : ∀ w ∈ ws, 0 ∉ w)
    (hlen : (smuggled ws).length ≤ 254) {front rest : Str} (hfront : front = [] ∨ front.getLast? = some NEWLINE)
    (w : W) (apps : List AppEntry) (hstatus : (o.system catalogTxt.line w).2 = 0)
    (hread : o.read (o.system catalogTxt.line w).1 catalogTxt.path = some (front ++ (smuggled ws ++ NEWLINE :: rest))) :
    ∃ line ∈ (refreshRemoteCatalog o.logged ((w, []), apps)).1.2, ∃ before after,
      Reads line (before ++ .operator SEMICOLON :: (ws.map .word ++ .operator SEMICOLON :: after)) := by
  refine ⟨metaLine (smuggled ws), ?_, ?_⟩
  · apply mem_log_refresh
    rw [log_sync_read hstatus hread]
    exact List.mem_cons_of_mem _ (List.mem_map_of_mem (smuggled_mem_entries hws hzero hlen hfront rest))
  · have hline := reads_smuggled hws (Nat.le_succ_of_le hlen)
    simp only [smuggledTokens, List.append_assoc, List.cons_append] at hline
    obtain ⟨after, hafter⟩ : ∃ after, Reads (metaLine (smuggled ws)) ((bytes "/bin/wget" :: options).map .word ++
        .word (bytes "/tmp/meta_app.xml") :: .word (REPO_BASE ++ bytes "/apps/app/x") :: .operator SEMICOLON ::
          (ws.map .word ++ .operator SEMICOLON :: after)) := ⟨_, hline⟩
    refine ⟨(bytes "/bin/wget" :: options).map .word ++ [.word (bytes "/tmp/meta_app.xml"),
      .word (REPO_BASE ++ bytes "/apps/app/x")], after, ?_⟩
    rw [List.append_assoc]
    exact hafter

def hostile : Online Unit where
  system _ w := (w, 0)
  read _ _ := some (smuggled [bytes "rm", bytes "-rf", bytes "/usr"] ++ [NEWLINE])
  remove _ w := w
  stat _ _ := none

theorem catalog_runs_rm : ∃ line ∈ (refreshRemoteCatalog hostile.logged (((), []), [])).1.2, ∃ before after,
    Reads line (before ++ .operator SEMICOLON :: ([bytes "rm", bytes "-rf", bytes "/usr"].map .word ++
      .operator SEMICOLON :: after)) :=
  catalog_runs_commands (by decide) (by decide) (by decide) (.inl rfl) () [] rfl rfl

end JurkOS.Userland.Refresh
