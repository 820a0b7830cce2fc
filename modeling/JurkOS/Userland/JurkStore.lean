import JurkOS.Lib.Paths
import JurkOS.Lib.Shell

/-!
The package list of `NoneCompiled/jurkstore.c`: what it takes from `meta.xml`,
and the command lines that remove a package.
-/

namespace JurkOS.Userland

open Lib.Libc Lib.Paths Lib.Shell

def MAX_APPS : ℕ := 64
def APPS_DIR : Str := bytes "/usr/apps"
def REPO_BASE : Str := bytes "https://raw.githubusercontent.com/AmineTheJurk/JurkStore-Apps/main"
def LOCAL_APPS_DIR : Str := bytes "/usr/share/jurkstore/apps"

structure AppEntry where
  id : CharArray 64
  name : CharArray 64
  version : CharArray 32
  author : CharArray 64
  description : CharArray 256
  download : CharArray 512
  installed : Bool
  hasLocal : Bool
  deriving DecidableEq

structure Stat where
  size : ℕ
  regular : Bool
  executable : Bool

theorem zero_notMem_take {s : Str} (h : 0 ∉ s) (n : ℕ) : 0 ∉ s.take n := fun hmem => h (List.mem_of_mem_take hmem)

def safeStrcpy (n : ℕ) (src : Str) : CharArray (n + 1) where
  text := (cstr src).take n
  length_lt := Nat.lt_succ_of_le (List.length_take_le n (cstr src))
  zero_notMem := zero_notMem_take (zero_notMem_cstr src) n

def openTag (tag : Str) : Str := snprintf 64 (bytes "<" ++ tag ++ bytes ">")

def closeTag (tag : Str) : Str := snprintf 64 (bytes "</" ++ tag ++ bytes ">")

def trimEnd (s : Str) : Str := s.rdropWhile fun c => c = RETURN ∨ c = NEWLINE ∨ c = SPACE

def extractTagValue (xml tag : Str) (destSize : ℕ) : Str :=
  match strstr (openTag tag) xml with
  | none => []
  | some i =>
    let start := xml.drop (i + (openTag tag).length)
    match strstr (closeTag tag) start with
    | none => []
    | some len => trimEnd ((start.take len).take (destSize - 1))

def isAppInstalled (stat : Str → Option Stat) (name : Str) : Bool :=
  if name.length = 0 then false
  else
    match stat (snprintf 512 (APPS_DIR ++ bytes "/" ++ name ++ bytes "/" ++ name)) with
    | some ⟨_, true, true⟩ => true
    | _ =>
      match stat (snprintf 512 (bytes "/bin/" ++ name)) with
      | some st => st.executable
      | none => false

def candidates (folderId appName : Str) : List Str :=
  let dir := LOCAL_APPS_DIR ++ bytes "/" ++ folderId ++ bytes "/"
  [snprintf 512 (dir ++ appName ++ bytes ".bk"), snprintf 512 (dir ++ folderId ++ bytes ".bk"),
    snprintf 512 (dir ++ appName)]

def checkLocalBinary (stat : Str → Option Stat) (folderId appName : Str) : Option Str :=
  (candidates folderId appName).find? fun candidate => (stat candidate).any fun st => 1000 < st.size

def newEntry (stat : Str → Option Stat) (id name version author description download : Str) : AppEntry where
  id := safeStrcpy 63 id
  name := safeStrcpy 63 name
  version := safeStrcpy 31 version
  author := safeStrcpy 63 author
  description := safeStrcpy 255 description
  download := safeStrcpy 511 download
  installed := isAppInstalled stat name
  hasLocal := (checkLocalBinary stat id name).isSome

def addOrUpdateApp (entry : AppEntry) (id name : Str) (apps : List AppEntry) : List AppEntry :=
  match apps.findIdx? fun app => app.name.text = name ∨ app.id.text = id with
  | some i => apps.set i entry
  | none => if MAX_APPS ≤ apps.length then apps else apps ++ [entry]

def metaName (folderId xml : Str) : Str :=
  let name := extractTagValue xml (bytes "name") 64
  if name.length = 0 then (safeStrcpy 63 folderId).text else name

def metaDownload (folderId xml : Str) : Str :=
  let dl := extractTagValue xml (bytes "download") 512
  if dl.length = 0 then
    snprintf 512 (REPO_BASE ++ bytes "/apps/" ++ folderId ++ bytes "/" ++ metaName folderId xml ++ bytes ".bk")
  else dl

def metaEntry (stat : Str → Option Stat) (folderId xml : Str) : AppEntry :=
  newEntry stat folderId (metaName folderId xml) (extractTagValue xml (bytes "version") 32)
    (extractTagValue xml (bytes "author") 64) (extractTagValue xml (bytes "description") 256)
    (metaDownload folderId xml)

def parseMetaXmlBuffer (stat : Str → Option Stat) (folderId xmlContent : Str) (apps : List AppEntry) : List AppEntry :=
  addOrUpdateApp (metaEntry stat folderId (cstr xmlContent)) folderId (metaName folderId (cstr xmlContent)) apps

def removeTree (size : ℕ) (name : Str) : Str := snprintf size (bytes "rm -rf " ++ APPS_DIR ++ bytes "/" ++ name)

def uninstallLines (app : AppEntry) : List Str :=
  [removeTree 512 app.name.text, snprintf 512 (bytes "rm -f /bin/" ++ app.name.text)]

def cleanupLine (app : AppEntry) : Str := removeTree 4096 app.name.text

def uninstallApp (app : AppEntry) : AppEntry × List Str := ({ app with installed := false }, uninstallLines app)

def operands : List Str → List Str
  | [] => []
  | arg :: args =>
    if arg = bytes "--" then args
    else if bytes "-" <+: arg ∧ arg ≠ bytes "-" then operands args
    else arg :: args

def IsPackagePath (path : List Str) : Prop :=
  ∃ name, path = name :: canonical APPS_DIR ∨ path = name :: canonical (bytes "/bin")

def Confined (line : Str) : Prop :=
  ∃ args operand, simple line = some (bytes "rm" :: args) ∧ operands args = [operand] ∧
    operand.head? = some SLASH ∧ IsPackagePath (canonical operand)

def RemovalConfined (app : AppEntry) : Prop := ∀ line ∈ cleanupLine app :: (uninstallApp app).2, Confined line

def LeadsToEntry (word : Str) : Prop :=
  (∃ name, route (parts word) = (0, [name])) ∨ (2 ≤ (route (parts word)).1 ∧ IsPackagePath (route (parts word)).2)

def apps : Str := bytes "apps"
def usr : Str := bytes "usr"
def bin : Str := bytes "bin"

theorem canonical_APPS_DIR : canonical APPS_DIR = [apps, usr] := by decide

theorem canonical_bin : canonical (bytes "/bin") = [bin] := by decide

theorem isPackagePath_iff {path : List Str} :
    IsPackagePath path ↔ ∃ name, path = [name, apps, usr] ∨ path = [name, bin] := by
  rw [IsPackagePath, canonical_APPS_DIR, canonical_bin]

theorem usr_ne_bin : usr ≠ bin := by decide

theorem apps_ne_bin : apps ≠ bin := by decide

theorem isPackagePath_entry (name : Str) :
    IsPackagePath (name :: canonical APPS_DIR) ∧ IsPackagePath (name :: canonical (bytes "/bin")) :=
  ⟨⟨name, .inl rfl⟩, ⟨name, .inr rfl⟩⟩

-- Split on the levels up: from `/usr/apps` two of them reach the root, from `/bin` one does.
theorem isPackagePath_follow_iff (up : ℕ) (down : List Str) :
    IsPackagePath (follow (canonical APPS_DIR) (up, down)) ∧
        IsPackagePath (follow (canonical (bytes "/bin")) (up, down)) ↔
      (∃ name, (up, down) = (0, [name])) ∨ (2 ≤ up ∧ IsPackagePath down) := by
  constructor
  · rintro ⟨happs, hbin⟩
    rw [canonical_APPS_DIR, follow, isPackagePath_iff] at happs
    rw [canonical_bin, follow, isPackagePath_iff] at hbin
    match up, happs, hbin with
    | 0, happs, hbin =>
      obtain ⟨name, h | h⟩ := hbin
      · have hlast := congrArg List.getLast? h
        simp [usr_ne_bin.symm] at hlast
      · have hdown : down = [name] := List.append_cancel_right h
        exact .inl ⟨name, by rw [hdown]⟩
    | 1, happs, hbin =>
      have hnil : ([bin] : List Str).drop 1 = [] := rfl
      rw [hnil, List.append_nil] at hbin
      obtain ⟨name, rfl | rfl⟩ := hbin
      · obtain ⟨other, h | h⟩ := happs
        · simp at h
        · simp at h
      · obtain ⟨other, h | h⟩ := happs
        · simp [apps_ne_bin.symm] at h
        · simp at h
    | up + 2, happs, hbin =>
      have hnil : ([bin] : List Str).drop (up + 2) = [] := rfl
      rw [hnil, List.append_nil] at hbin
      exact .inr ⟨Nat.le_add_left 2 up, isPackagePath_iff.mpr hbin⟩
  · rintro (⟨name, h⟩ | ⟨hup, hdown⟩)
    · rw [h]
      exact isPackagePath_entry name
    · have happs : (canonical APPS_DIR).drop up = [] := by
        rw [canonical_APPS_DIR]
        exact List.drop_of_length_le hup
      have hbin : (canonical (bytes "/bin")).drop up = [] := by
        rw [canonical_bin]
        exact List.drop_of_length_le (Nat.le_of_succ_le hup)
      rw [follow, follow, happs, hbin, List.append_nil]
      exact ⟨hdown, hdown⟩

theorem operands_path {args : List Str} {arg : Str} (h : arg.head? = some SLASH) :
    operands (arg :: args) = arg :: args := by
  cases arg with
  | nil => cases h
  | cons c arg =>
    obtain rfl := Option.some.inj h
    have hdashes : SLASH :: arg ≠ bytes "--" := fun heq => absurd (List.cons.inj heq).1 (by decide)
    have hdash : ¬bytes "-" <+: SLASH :: arg := fun hpre => absurd (List.cons_prefix_cons.mp hpre).1 (by decide)
    rw [operands, if_neg hdashes, if_neg (fun h => hdash h.1)]

theorem confined_iff {option dir : Str} (hoption : isPlainWord option)
    (hargs : ∀ args, operands (option :: args) = operands args)
    (hdir : isPlainWord (dir ++ bytes "/")) (habs : dir.head? = some SLASH) (name : Str) :
    Confined (spaced [bytes "rm", option] ++ (dir ++ bytes "/" ++ name)) ↔
      ∃ w, lastWord name = some w ∧ IsPackagePath (follow (canonical dir) (route (parts w))) := by
  have hplain : ∀ w ∈ [bytes "rm", option], isPlainWord w := by
    intro w hw
    rcases List.mem_pair.mp hw with rfl | rfl
    · decide
    · exact hoption
  have hsimple := simple_spaced (u := bytes "rm") (by decide) hplain hdir name
  have habs' (w : Str) : (dir ++ bytes "/" ++ w).head? = some SLASH := by
    rw [List.append_assoc, List.head?_append, habs]
    rfl
  have hcanonical (w : Str) : canonical (dir ++ bytes "/" ++ w) = follow (canonical dir) (route (parts w)) := by
    rw [List.append_assoc]
    exact canonical_append dir w
  rw [Confined, hsimple]
  constructor
  · rintro ⟨args, operand, hline, hops, -, hpath⟩
    obtain ⟨⟨w, ts⟩, hread, hline⟩ := Option.bind_eq_some_iff.mp hline
    obtain ⟨rest, honly, hline⟩ := Option.map_eq_some_iff.mp hline
    obtain rfl : option :: (dir ++ bytes "/" ++ w) :: rest = args := (List.cons.inj hline).2
    rw [hargs, operands_path (habs' w)] at hops
    obtain ⟨rfl, rfl⟩ := List.cons.inj hops
    rw [hcanonical] at hpath
    exact ⟨w, lastWord_eq_some_iff.mpr ⟨ts, hread, honly⟩, hpath⟩
  · rintro ⟨w, hw, hpath⟩
    obtain ⟨ts, hread, honly⟩ := lastWord_eq_some_iff.mp hw
    refine ⟨[option, dir ++ bytes "/" ++ w], dir ++ bytes "/" ++ w, ?_, ?_, habs' w, ?_⟩
    · rw [hread, Option.bind_some, honly]
      rfl
    · rw [hargs, operands_path (habs' w)]
    · rw [hcanonical]
      exact hpath

theorem removeTree_eq {size : ℕ} (hsize : 128 ≤ size) (name : CharArray 64) :
    removeTree size name.text = spaced [bytes "rm", bytes "-rf"] ++ (APPS_DIR ++ bytes "/" ++ name.text) := by
  have hlen := name.length_lt
  have hpre : (bytes "rm -rf " ++ APPS_DIR ++ bytes "/").length = 17 := by decide
  have hspaced : bytes "rm -rf " = spaced [bytes "rm", bytes "-rf"] := by decide
  rw [removeTree, snprintf_of_lt, hspaced, List.append_assoc, List.append_assoc, List.append_assoc]
  rw [List.length_append, hpre]
  omega

theorem removeLink_eq (name : CharArray 64) :
    snprintf 512 (bytes "rm -f /bin/" ++ name.text) =
      spaced [bytes "rm", bytes "-f"] ++ (bytes "/bin" ++ bytes "/" ++ name.text) := by
  have hlen := name.length_lt
  have hpre : (bytes "rm -f /bin/").length = 11 := by decide
  have hspaced : bytes "rm -f /bin/" = spaced [bytes "rm", bytes "-f"] ++ (bytes "/bin" ++ bytes "/") := by decide
  rw [snprintf_of_lt (by rw [List.length_append, hpre]; omega), hspaced, List.append_assoc]

theorem confined_removeTree_iff (size : ℕ) (hsize : 128 ≤ size) (name : CharArray 64) :
    Confined (removeTree size name.text) ↔
      ∃ w, lastWord name.text = some w ∧ IsPackagePath (follow (canonical APPS_DIR) (route (parts w))) := by
  rw [removeTree_eq hsize]
  exact confined_iff (by decide) (fun args => rfl) (by decide) rfl name.text

theorem confined_removeLink_iff (name : CharArray 64) :
    Confined (snprintf 512 (bytes "rm -f /bin/" ++ name.text)) ↔
      ∃ w, lastWord name.text = some w ∧ IsPackagePath (follow (canonical (bytes "/bin")) (route (parts w))) := by
  rw [removeLink_eq]
  exact confined_iff (by decide) (fun args => rfl) (by decide) rfl name.text

theorem removalConfined_iff (app : AppEntry) :
    RemovalConfined app ↔ ∃ word, lastWord app.name.text = some word ∧ LeadsToEntry word := by
  have hcleanup := confined_removeTree_iff 4096 (by decide) app.name
  have htree := confined_removeTree_iff 512 (by decide) app.name
  have hlink := confined_removeLink_iff app.name
  constructor
  · intro h
    have h₁ := h _ (.tail _ (.head _))
    have h₂ := h _ (.tail _ (.tail _ (.head _)))
    rw [htree] at h₁
    rw [hlink] at h₂
    obtain ⟨w, hw, happs⟩ := h₁
    obtain ⟨v, hv, hbin⟩ := h₂
    obtain rfl := Option.some.inj (hv.symm.trans hw)
    exact ⟨v, hw, (isPackagePath_follow_iff _ _).mp ⟨happs, hbin⟩⟩
  · rintro ⟨w, hw, hleads⟩
    obtain ⟨happs, hbin⟩ := (isPackagePath_follow_iff (route (parts w)).1 (route (parts w)).2).mpr hleads
    intro line hline
    rcases List.mem_cons.mp hline with rfl | hline
    · exact hcleanup.mpr ⟨w, hw, happs⟩
    rcases List.mem_pair.mp hline with rfl | rfl
    · exact htree.mpr ⟨w, hw, happs⟩
    · exact hlink.mpr ⟨w, hw, hbin⟩

def escaping : AppEntry := metaEntry (fun _ => none) (bytes "calc") (bytes "<name>../../encrypted</name>")

theorem parseMetaXmlBuffer_escapes :
    escaping ∈ parseMetaXmlBuffer (fun _ => none) (bytes "calc") (bytes "<name>../../encrypted</name>") [] ∧
      ¬RemovalConfined escaping := by
  have hxml : cstr (bytes "<name>../../encrypted</name>") = bytes "<name>../../encrypted</name>" := by decide
  have hname : escaping.name.text = bytes "../../encrypted" := by decide
  constructor
  · rw [parseMetaXmlBuffer, hxml]
    exact List.mem_singleton_self escaping
  · intro h
    have hline := h _ (.head _)
    rw [cleanupLine, confined_removeTree_iff 4096 (by decide), hname] at hline
    obtain ⟨w, hw, hpath⟩ := hline
    have hplain : lastWord (bytes "../../encrypted") = some (bytes "../../encrypted") := lastWord_plain (by decide)
    obtain rfl := Option.some.inj (hplain.symm.trans hw)
    have hfollow : follow (canonical APPS_DIR) (route (parts (bytes "../../encrypted"))) = [bytes "encrypted"] := by
      decide
    rw [hfollow, isPackagePath_iff] at hpath
    obtain ⟨name, hpath | hpath⟩ := hpath
    · cases hpath
    · cases hpath

end JurkOS.Userland
