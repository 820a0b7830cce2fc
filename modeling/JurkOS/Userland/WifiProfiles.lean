import JurkOS.Lib.Copies
import JurkOS.Userland.WifiNames

/-!
The saved profiles of `NoneCompiled/wifi.c` and the session of its menu: what is
connected to, what `save_wifi_profile` leaves of that, and what
`list_saved_profiles` reads in it.
-/

namespace JurkOS.Userland.Wifi

open Lib.Libc Lib.Pieces Lib.Roster

/-- The arguments of `save_wifi_profile`; no password is an empty one there. -/
structure Profile where
  ssid : Str
  password : Str
  isOpen : Bool
  deriving DecidableEq

def entry (p : Profile) : Str :=
  if p.isOpen then bytes "SSID=" ++ p.ssid ++ bytes "\nSECURITY=Open\n\n"
  else bytes "SSID=" ++ p.ssid ++ bytes "\nSECURITY=WPA2\nPSK=" ++ p.password ++ bytes "\n\n"

/-- `WIFI_HISTORY_FILE` and `LEGACY_HISTORY_FILE`. -/
structure Histories where
  history : Option Str
  legacy : Option Str

/-- `opens` says of each file whether it can be opened for appending. -/
def saveWifiProfile (opens : Bool × Bool) (h : Histories) (p : Profile) : Histories :=
  if opens.1 then { h with history := some (h.history.getD [] ++ entry p) }
  else if opens.2 then { h with legacy := some (h.legacy.getD [] ++ entry p) }
  else h

def untilLineEnd (s : Str) : Str := s.takeWhile fun c => c ≠ RETURN ∧ c ≠ NEWLINE

def savedSsid (line : Str) : Option Str := if bytes "SSID=" <+: line then some (untilLineEnd (line.drop 5)) else none

def savedSsids (s : Str) : List Str := (readLines 256 s).filterMap savedSsid

/-- The names that are shown, or `none` for the message that there are none. -/
def listSavedProfiles (h : Histories) : Option (List Str) := (h.history.or h.legacy).map savedSsids

variable {p : Profile} {s t : Str}

def ssidEntry (ssid : Str) : Str := bytes "SSID=" ++ ssid ++ [NEWLINE]

def pskEntry (password : Str) : Str := bytes "PSK=" ++ password ++ [NEWLINE]

/-- The name is read as it is, and nothing of the password is taken for a name. -/
structure Legible (p : Profile) : Prop where
  line : RETURN ∉ p.ssid ∧ NEWLINE ∉ p.ssid
  short : p.ssid.length ≤ 250
  secret : p.isOpen = false → ∀ piece ∈ readLines 256 (pskEntry p.password), ¬bytes "SSID=" <+: piece

theorem savedSsids_append (hs : s = [] ∨ s.getLast? = some NEWLINE) (t : Str) :
    savedSsids (s ++ t) = savedSsids s ++ savedSsids t := by
  rw [savedSsids, readLines_append (by decide) hs, List.filterMap_append]
  rfl

theorem ssidEntry_ends (ssid : Str) : ssidEntry ssid = [] ∨ (ssidEntry ssid).getLast? = some NEWLINE :=
  .inr List.getLast?_concat

theorem pskEntry_ends (password : Str) : pskEntry password = [] ∨ (pskEntry password).getLast? = some NEWLINE :=
  .inr List.getLast?_concat

theorem entry_ends (p : Profile) : (entry p).getLast? = some NEWLINE := by
  rw [entry]
  split_ifs
  · rw [List.getLast?_append_of_ne_nil _ (by decide)]
    rfl
  · rw [List.getLast?_append_of_ne_nil _ (by decide)]
    rfl

theorem savedSsids_entry (p : Profile) :
    savedSsids (entry p) =
      savedSsids (ssidEntry p.ssid) ++ if p.isOpen then [] else savedSsids (pskEntry p.password) := by
  have hopen : savedSsids (bytes "SECURITY=Open\n\n") = [] := by decide
  have hwpa2 : savedSsids (bytes "SECURITY=WPA2\n") = [] := by decide
  have hend : savedSsids [NEWLINE] = [] := by decide
  have hssid := savedSsids_append (ssidEntry_ends p.ssid)
  have hpsk := savedSsids_append (pskEntry_ends p.password)
  rw [entry]
  split_ifs with h
  · have hline : bytes "SSID=" ++ p.ssid ++ bytes "\nSECURITY=Open\n\n" =
        ssidEntry p.ssid ++ bytes "SECURITY=Open\n\n" := by
      rw [ssidEntry, List.append_assoc _ [NEWLINE]]
      rfl
    rw [hline, hssid, hopen]
  · have hline : bytes "SSID=" ++ p.ssid ++ bytes "\nSECURITY=WPA2\nPSK=" ++ p.password ++ bytes "\n\n" =
        ssidEntry p.ssid ++ (bytes "SECURITY=WPA2\n" ++ (pskEntry p.password ++ [NEWLINE])) := by
      simp only [ssidEntry, pskEntry, List.append_assoc]
      rfl
    have hnext := savedSsids_append (.inr (by decide) : bytes "SECURITY=WPA2\n" = [] ∨ _)
    rw [hline, hssid, hnext, hpsk, hwpa2, hend, List.nil_append, List.append_nil]

theorem savedSsids_eq_nil : savedSsids s = [] ↔ ∀ piece ∈ readLines 256 s, ¬bytes "SSID=" <+: piece := by
  rw [savedSsids, List.filterMap_eq_nil_iff]
  constructor
  · intro h piece hpiece hprefix
    have hnone := h piece hpiece
    rw [savedSsid, if_pos hprefix] at hnone
    cases hnone
  · intro h piece hpiece
    exact if_neg (h piece hpiece)

theorem untilLineEnd_clean (s : Str) : RETURN ∉ untilLineEnd s ∧ NEWLINE ∉ untilLineEnd s := by
  have hall : ∀ c ∈ untilLineEnd s, c ≠ RETURN ∧ c ≠ NEWLINE := by
    intro c hc
    have hkept := List.mem_takeWhile_imp hc
    exact of_decide_eq_true hkept
  exact ⟨fun h => (hall _ h).1 rfl, fun h => (hall _ h).2 rfl⟩

theorem untilLineEnd_append (hs : RETURN ∉ s ∧ NEWLINE ∉ s) (t : Str) : untilLineEnd (s ++ NEWLINE :: t) = s := by
  have hall : ∀ c ∈ s, decide (c ≠ RETURN ∧ c ≠ NEWLINE) = true := fun c hc =>
    decide_eq_true ⟨fun h => hs.1 (h ▸ hc), fun h => hs.2 (h ▸ hc)⟩
  rw [untilLineEnd, List.takeWhile_append_of_pos hall]
  exact List.append_nil s

theorem untilLineEnd_eq (hs : RETURN ∉ s ∧ NEWLINE ∉ s) : untilLineEnd s = s := by
  rw [untilLineEnd, List.takeWhile_eq_self_iff]
  intro c hc
  exact decide_eq_true ⟨fun h => hs.1 (h ▸ hc), fun h => hs.2 (h ▸ hc)⟩

theorem savedSsid_entry (s : Str) : savedSsid (bytes "SSID=" ++ s) = some (untilLineEnd s) := by
  rw [savedSsid, if_pos (List.prefix_append _ s)]
  rfl

theorem savedSsids_ssidEntry {ssid : Str} (hzero : 0 ∉ ssid) :
    ∃ more, savedSsids (ssidEntry ssid) = untilLineEnd (readLine 250 (ssid ++ [NEWLINE])) :: more := by
  have hne : ssidEntry ssid ≠ [] := List.append_ne_nil_of_right_ne_nil _ (List.cons_ne_nil _ _)
  have hread : readLine 255 (ssidEntry ssid) = bytes "SSID=" ++ readLine 250 (ssid ++ [NEWLINE]) := rfl
  have hcstr : cstr (readLine 255 (ssidEntry ssid)) = bytes "SSID=" ++ readLine 250 (ssid ++ [NEWLINE]) := by
    rw [hread]
    apply cstr_of_notMem
    rw [List.mem_append, not_or]
    refine ⟨by decide, fun h => ?_⟩
    rcases List.mem_append.mp ((readLine_initial _ _).subset h) with h | h
    · exact hzero h
    · exact absurd h (by decide)
  have hsize : 2 ≤ 256 := by decide
  have hlines := readLines_cons hsize hne
  rw [hcstr] at hlines
  exact ⟨_, by rw [savedSsids, hlines, List.filterMap_cons_some (savedSsid_entry _)]⟩

theorem savedSsids_ssidEntry_iff {ssid : Str} (hzero : 0 ∉ ssid) :
    savedSsids (ssidEntry ssid) = [ssid] ↔ (RETURN ∉ ssid ∧ NEWLINE ∉ ssid) ∧ ssid.length ≤ 250 := by
  constructor
  · intro h
    obtain ⟨more, hmore⟩ := savedSsids_ssidEntry hzero
    rw [h] at hmore
    have hssid := (List.cons.inj hmore).1
    rw [hssid]
    exact ⟨untilLineEnd_clean _, (List.takeWhile_prefix _).length_le.trans (length_readLine_le _ _)⟩
  · rintro ⟨hline, hlen⟩
    have hnewline : NEWLINE ∉ bytes "SSID=" ++ ssid := by
      rw [List.mem_append, not_or]
      exact ⟨by decide, hline.2⟩
    have hzero' : 0 ∉ bytes "SSID=" ++ ssid := by
      rw [List.mem_append, not_or]
      exact ⟨by decide, hzero⟩
    have hlength : (bytes "SSID=" ++ ssid).length = 5 + ssid.length := by rw [List.length_append]; rfl
    by_cases hfull : ssid.length = 250
    · have hlines : readLines 256 (ssidEntry ssid) = [bytes "SSID=" ++ ssid, [NEWLINE]] :=
        readLines_block (n := 255) (by decide) (by omega) hnewline hzero' [NEWLINE]
      rw [savedSsids, hlines, List.filterMap_cons_some (savedSsid_entry ssid), untilLineEnd_eq hline]
      rfl
    · have hlines : readLines 256 (ssidEntry ssid) = [cstr (bytes "SSID=" ++ ssid ++ [NEWLINE])] :=
        readLines_line hnewline (by omega) []
      have hcstr : cstr (bytes "SSID=" ++ ssid ++ [NEWLINE]) = bytes "SSID=" ++ (ssid ++ [NEWLINE]) := by
        rw [cstr_of_notMem, List.append_assoc]
        rw [List.mem_append, not_or]
        exact ⟨hzero', by decide⟩
      rw [savedSsids, hlines, hcstr, List.filterMap_cons_some (savedSsid_entry _), untilLineEnd_append hline]
      rfl

theorem savedSsids_entry_iff (hssid : 0 ∉ p.ssid) : savedSsids (entry p) = [p.ssid] ↔ Legible p := by
  rw [savedSsids_entry]
  constructor
  · intro h
    obtain ⟨more, hmore⟩ := savedSsids_ssidEntry hssid
    have hfirst : savedSsids (ssidEntry p.ssid) = [p.ssid] := by
      rw [hmore] at h ⊢
      rw [List.cons_append] at h
      obtain ⟨hhead, hrest⟩ := List.cons.inj h
      rw [hhead, (List.append_eq_nil_iff.mp hrest).1]
    rw [hfirst] at h
    obtain ⟨hline, hshort⟩ := (savedSsids_ssidEntry_iff hssid).mp hfirst
    refine ⟨hline, hshort, fun hopen => ?_⟩
    rw [hopen] at h
    exact savedSsids_eq_nil.mp (List.cons.inj h).2
  · rintro ⟨hline, hshort, hsecret⟩
    rw [(savedSsids_ssidEntry_iff hssid).mpr ⟨hline, hshort⟩]
    split_ifs with hopen
    · rfl
    · rw [savedSsids_eq_nil.mpr (hsecret (Bool.eq_false_of_not_eq_true hopen))]
      rfl

theorem savedSsids_entries {profiles : List Profile} :
    savedSsids (profiles.map entry).flatten = (profiles.map fun p => savedSsids (entry p)).flatten := by
  induction profiles with
  | nil => rfl
  | cons p profiles ih =>
    rw [List.map_cons, List.flatten_cons, savedSsids_append (.inr (entry_ends p)), ih]
    rfl

theorem savedSsids_saved_iff {profiles : List Profile} (hs : s = [] ∨ s.getLast? = some NEWLINE)
    (hzero : ∀ p ∈ profiles, 0 ∉ p.ssid) :
    savedSsids (s ++ (profiles.map entry).flatten) = savedSsids s ++ profiles.map Profile.ssid ↔
      ∀ p ∈ profiles, Legible p := by
  have hnames : profiles.map Profile.ssid = (profiles.map fun p => [p.ssid]).flatten := by
    induction profiles with
    | nil => rfl
    | cons p profiles ih => simp [ih fun q hq => hzero q (List.mem_cons_of_mem p hq)]
  have hle : ∀ p ∈ profiles, [p.ssid].length ≤ (savedSsids (entry p)).length := by
    intro p hp
    obtain ⟨more, hmore⟩ := savedSsids_ssidEntry (hzero p hp)
    rw [savedSsids_entry, hmore, List.length_append, List.length_cons]
    exact (Nat.le_add_left 1 _).trans (Nat.le_add_right _ _)
  rw [savedSsids_append hs, List.append_right_inj, savedSsids_entries, hnames, eq_comm, flatten_map_eq_iff hle]
  exact forall₂_congr fun p hp => by rw [eq_comm, savedSsids_entry_iff (hzero p hp)]

abbrev Save := (Bool × Bool) × Profile

def saveAll (saves : List Save) (h : Histories) : Histories := saves.foldl (fun h s => saveWifiProfile s.1 h s.2) h

def recorded (saves : List Save) : List Profile := (saves.filter fun s => s.1.1).map Prod.snd

theorem saveAll_history (saves : List Save) (h : Histories) : (saveAll saves h).history =
    if recorded saves = [] then h.history else some (h.history.getD [] ++ ((recorded saves).map entry).flatten) := by
  induction saves generalizing h with
  | nil => rfl
  | cons save saves ih =>
    obtain ⟨⟨first, second⟩, p⟩ := save
    have hstep : saveAll (((first, second), p) :: saves) h = saveAll saves (saveWifiProfile (first, second) h p) := rfl
    rw [hstep, ih]
    cases first with
    | true =>
      have hrecorded : recorded (((true, second), p) :: saves) = p :: recorded saves := rfl
      rw [hrecorded, if_neg (List.cons_ne_nil _ _), saveWifiProfile, if_pos rfl]
      split_ifs with hnone
      · rw [hnone]
        simp
      · simp
    | false =>
      have hrecorded : recorded (((false, second), p) :: saves) = recorded saves := rfl
      have hsame : (saveWifiProfile (false, second) h p).history = h.history := by
        rw [saveWifiProfile, if_neg Bool.false_ne_true]
        split_ifs <;> rfl
      rw [hrecorded, hsame]

def leftOver (saves : List Save) : List Profile := (saves.filter fun s => !s.1.1 && s.1.2).map Prod.snd

theorem saveAll_legacy (saves : List Save) (h : Histories) : (saveAll saves h).legacy =
    if leftOver saves = [] then h.legacy else some (h.legacy.getD [] ++ ((leftOver saves).map entry).flatten) := by
  induction saves generalizing h with
  | nil => rfl
  | cons save saves ih =>
    obtain ⟨⟨first, second⟩, p⟩ := save
    have hstep : saveAll (((first, second), p) :: saves) h = saveAll saves (saveWifiProfile (first, second) h p) := rfl
    rw [hstep, ih]
    by_cases hlegacy : first = false ∧ second = true
    · obtain ⟨rfl, rfl⟩ := hlegacy
      have hleft : leftOver (((false, true), p) :: saves) = p :: leftOver saves := rfl
      rw [hleft, if_neg (List.cons_ne_nil _ _), saveWifiProfile, if_neg Bool.false_ne_true, if_pos rfl]
      split_ifs with hnone
      · rw [hnone]
        simp
      · simp
    · have hleft : leftOver (((first, second), p) :: saves) = leftOver saves := by
        rw [leftOver, List.filter_cons_of_neg, leftOver]
        simpa using hlegacy
      have hsame : (saveWifiProfile (first, second) h p).legacy = h.legacy := by
        rw [saveWifiProfile]
        cases first with
        | true => rfl
        | false =>
          cases second with
          | true => exact absurd ⟨rfl, rfl⟩ hlegacy
          | false => rfl
      rw [hleft, hsame]

theorem listSavedProfiles_saveAll {h : Histories} {saves : List Save}
    (hfile : h.history ≠ none ∨ recorded saves ≠ []) : listSavedProfiles (saveAll saves h) =
      some (savedSsids (h.history.getD [] ++ ((recorded saves).map entry).flatten)) := by
  have hsome : (saveAll saves h).history = some (h.history.getD [] ++ ((recorded saves).map entry).flatten) := by
    rw [saveAll_history]
    split_ifs with hnone
    · obtain ⟨s, hs⟩ := Option.ne_none_iff_exists'.mp (hfile.resolve_right fun hne => hne hnone)
      rw [hs, hnone]
      simp
    · rfl
  rw [listSavedProfiles, hsome, Option.some_or, Option.map_some]

theorem file_ends {file : Option Str} (hends : ∀ s ∈ file, s = [] ∨ s.getLast? = some NEWLINE) :
    file.getD [] = [] ∨ (file.getD []).getLast? = some NEWLINE := by
  cases hs : file with
  | none => exact .inl rfl
  | some s => exact hends s hs

theorem listSavedProfiles_iff {h : Histories} {saves : List Save} (hfile : h.history ≠ none ∨ recorded saves ≠ [])
    (hends : ∀ s ∈ h.history, s = [] ∨ s.getLast? = some NEWLINE) (hzero : ∀ save ∈ saves, 0 ∉ save.2.ssid) :
    listSavedProfiles (saveAll saves h) =
        some (savedSsids (h.history.getD []) ++ (recorded saves).map Profile.ssid) ↔
      ∀ p ∈ recorded saves, Legible p := by
  have hrecorded : ∀ p ∈ recorded saves, 0 ∉ p.ssid := by
    intro p hp
    obtain ⟨save, hsave, rfl⟩ := List.mem_map.mp hp
    exact hzero save (List.mem_of_mem_filter hsave)
  rw [listSavedProfiles_saveAll hfile, Option.some_inj]
  exact savedSsids_saved_iff (file_ends hends) hrecorded

theorem listSavedProfiles_two : listSavedProfiles (saveAll [((true, true), ⟨bytes "a", bytes "secret", false⟩),
    ((false, true), ⟨bytes "b", [], true⟩)] ⟨none, none⟩) = some [bytes "a"] := by
  have hsecret : ∀ piece ∈ readLines 256 (pskEntry (bytes "secret")), ¬bytes "SSID=" <+: piece := by decide
  apply (listSavedProfiles_iff (h := ⟨none, none⟩) (.inr (by decide)) (fun _ hs => nomatch hs) (by decide)).mpr
  intro p hp
  obtain rfl : p = ⟨bytes "a", bytes "secret", false⟩ := List.mem_singleton.mp hp
  exact ⟨by decide, by decide, fun _ => hsecret⟩

end JurkOS.Userland.Wifi
