import JurkOS.Lib.Markup
import JurkOS.Lib.Roster
import JurkOS.Userland.Wifi

/-!
The names in the network list: each name of the scan once, as long as the array
has room.
-/

namespace JurkOS.Userland.Wifi

open Lib.Libc Lib.Roster

/-! ### The SSIDs of a text -/

def ssidsFrom (header : Str → Bool) (name : Str → Option Str) (cur : Str) : List Str → List Str
  | [] => [cur]
  | p :: rest =>
    if header p then cur :: ssidsFrom header name [] rest else ssidsFrom header name ((name p).getD cur) rest

def ssids (header : Str → Bool) (name : Str → Option Str) : List Str → List Str
  | [] => []
  | p :: rest => if header p then ssidsFrom header name [] rest else ssids header name rest

def textLines (scan : Str) : List Str := (scan.splitOn NEWLINE).map (·.dropWhile isBlank)

def essidLine (p : Str) : Option Str :=
  if bytes "ESSID:\"" <+: p ∧ QUOTE ∈ p.drop 7 then some ((p.drop 7).takeWhile (· ≠ QUOTE)) else none

def ssidLine (p : Str) : Option Str :=
  let s := (p.drop 6).takeWhile (· ≠ RETURN)
  if bytes "SSID: " <+: p ∧ s ≠ [] then some s else none

def iwlistSsids (scan : Str) : List Str := ssids (bytes "Cell " <+: ·) essidLine (textLines scan)

def iwSsids (scan : Str) : List Str := ssids (bytes "BSS " <+: ·) ssidLine (textLines scan)

def textSsids (iwlist iw : Str) : List Str :=
  if ∃ name ∈ iwlistSsids iwlist, name ≠ [] then iwlistSsids iwlist else iwSsids iw

/-! ### The SSIDs that the tests of the code find -/

def iwSsidOf (p : Str) : Option Str :=
  let s := (p.drop 6).takeWhile fun c => c ≠ RETURN ∧ c ≠ NEWLINE
  if bytes "SSID: " <+: p ∧ s.length > 0 then some (snprintf 64 s) else none

def pieces (scan : Str) : List Str := (readLines 512 scan).map (·.dropWhile isBlank)

def iwlistNames (scan : Str) : List Str := ssids isCell essidOf (pieces scan)

def iwNames (scan : Str) : List Str := ssidsFrom (bytes "BSS " <+: ·) iwSsidOf [] (pieces scan)

def Heard (header : Str → Bool) (name : Str → Option Str) (pieces : List Str) (z : Str) : Prop :=
  ∃ before p after, pieces = before ++ p :: after ∧ header p = false ∧ name p = some z ∧
    ∀ q ∈ after.takeWhile (fun q => !header q), name q = none

def HeardIwlist (scan z : Str) : Prop := Heard isCell essidOf ((pieces scan).dropWhile fun q => !isCell q) z

def HeardIw (scan z : Str) : Prop := Heard (bytes "BSS " <+: ·) iwSsidOf (pieces scan) z

def Full (maxNets : ℕ) (P : Str → Prop) : Prop :=
  ∃ l : List Str, l.Nodup ∧ l.length = maxNets ∧ ∀ z ∈ l, z ≠ [] ∧ P z

section

variable {maxNets : ℕ} {signal : Str → Option ℤ} {networks cells : List WifiNetwork} {cur c : WifiNetwork}
  {lines : List Str} {names spec : List Str} {name : Str}

theorem keyStep_ssid (p : Str) (cur : WifiNetwork) : (keyStep p cur).ssid = cur.ssid := by
  unfold keyStep
  split_ifs <;> rfl

theorem wpaStep_ssid (p : Str) (cur : WifiNetwork) : (wpaStep p cur).ssid = cur.ssid := by
  unfold wpaStep
  cases wpaOf p with
  | none => rfl
  | some security => rfl

theorem iwlistFields_ssid (cur : WifiNetwork) (p : Str) : (iwlistFields cur p).ssid = (essidOf p).getD cur.ssid := by
  rw [iwlistFields, wpaStep_ssid, keyStep_ssid]

theorem iwFields_ssid (cur : WifiNetwork) (p : Str) : (iwFields signal cur p).ssid = (iwSsidOf p).getD cur.ssid := by
  unfold iwFields iwSsidOf
  by_cases hssid : bytes "SSID: " <+: p
  · simp only [hssid, if_true, true_and]
    split_ifs
    · rfl
    · rfl
  · simp only [hssid, if_false, false_and]
    split_ifs
    · cases signal (p.drop 8) with
      | none => rfl
      | some pct => rfl
    · rfl
    · rfl

theorem cellsFrom_ssids : (cellsFrom cur lines).map WifiNetwork.ssid =
    ssidsFrom isCell essidOf cur.ssid (lines.map (·.dropWhile isBlank)) := by
  induction lines generalizing cur with
  | nil => rfl
  | cons line rest ih =>
    rw [cellsFrom, List.map_cons, ssidsFrom]
    split_ifs
    · rw [List.map_cons, ih]
      rfl
    · rw [ih, iwlistFields_ssid]

theorem iwlistCells_ssids : (iwlistCells lines).map WifiNetwork.ssid =
    ssids isCell essidOf (lines.map (·.dropWhile isBlank)) := by
  induction lines with
  | nil => rfl
  | cons line rest ih =>
    rw [iwlistCells, List.map_cons, ssids]
    split_ifs
    · exact cellsFrom_ssids
    · exact ih

variable (signal) in
theorem iwCells_ssids : (iwCells signal cur lines).map WifiNetwork.ssid =
    ssidsFrom (bytes "BSS " <+: ·) iwSsidOf cur.ssid (lines.map (·.dropWhile isBlank)) := by
  induction lines generalizing cur with
  | nil => rfl
  | cons line rest ih =>
    rw [iwCells, List.map_cons, ssidsFrom]
    simp only [decide_eq_true_eq]
    split_ifs
    · rw [List.map_cons, ih]
      rfl
    · rw [ih, iwFields_ssid]

/-! ### One name entered -/

theorem enterNew_names : (enterNew maxNets networks c).map WifiNetwork.ssid =
    enlist [] maxNets (networks.map WifiNetwork.ssid) c.ssid := by
  unfold enterNew enlist
  simp only [List.length_map, List.forall_mem_map]
  split_ifs
  · rw [List.map_append]
    rfl
  · rfl

theorem modify_names {i : ℕ} {f : WifiNetwork → WifiNetwork} (hf : ∀ n, networks[i]? = some n → (f n).ssid = n.ssid) :
    (networks.modify i f).map WifiNetwork.ssid = networks.map WifiNetwork.ssid := by
  apply List.ext_getElem?
  intro j
  rw [List.getElem?_map, List.getElem?_map, List.getElem?_modify]
  by_cases hij : i = j
  · subst hij
    cases hn : networks[i]? with
    | none => rfl
    | some n => simp [hf n hn]
  · simp [hij]

theorem enter_names (hroom : networks.length < maxNets) : (enter maxNets networks c).map WifiNetwork.ssid =
    enlist [] maxNets (networks.map WifiNetwork.ssid) c.ssid := by
  unfold enter
  obtain ⟨hskip, heq⟩ | ⟨⟨hne, hnew, -⟩, heq⟩ := enlist_cases [] maxNets (networks.map WifiNetwork.ssid) c.ssid
  · rw [heq]
    rw [List.length_map] at hskip
    by_cases hnil : c.ssid = []
    · rw [if_pos hnil]
    · rw [if_neg hnil]
      have hold : c.ssid ∈ networks.map WifiNetwork.ssid := (hskip.resolve_left hnil).resolve_right (by omega)
      obtain ⟨n, hn, hname⟩ := List.mem_map.mp hold
      cases hi : networks.findIdx? (·.ssid = c.ssid) with
      | none => exact absurd (decide_eq_true hname) (by simpa using List.findIdx?_eq_none_iff.mp hi n hn)
      | some i =>
        obtain ⟨hlt, hsame, -⟩ := List.findIdx?_eq_some_iff_getElem.mp hi
        apply modify_names
        intro m hm
        rw [List.getElem?_eq_getElem hlt] at hm
        obtain rfl := Option.some.inj hm
        split_ifs
        · exact (of_decide_eq_true hsame).symm
        · rfl
  · have hfind : networks.findIdx? (·.ssid = c.ssid) = none := by
      rw [List.findIdx?_eq_none_iff]
      intro n hn
      exact decide_eq_false fun hname => hnew (List.mem_map.mpr ⟨n, hn, hname⟩)
    rw [heq, if_neg hne, hfind]
    dsimp only
    rw [if_pos hroom, List.map_append]
    rfl

/-! ### The parsers -/

theorem tabulate_concat (flush last : List WifiNetwork → WifiNetwork → List WifiNetwork)
    (networks cells : List WifiNetwork) (c : WifiNetwork) (hflush : ∀ networks c, networks.length < maxNets →
      (flush networks c).map WifiNetwork.ssid = enlist [] maxNets (networks.map WifiNetwork.ssid) c.ssid)
    (hlast : ∀ networks c, ¬networks.length < maxNets → last networks c = networks) :
    ∃ table, table.map WifiNetwork.ssid = (cells.map WifiNetwork.ssid).foldl (enlist [] maxNets)
        (networks.map WifiNetwork.ssid) ∧
      tabulate maxNets flush last networks (cells ++ [c]) = last table c := by
  induction cells generalizing networks with
  | nil => exact ⟨networks, rfl, rfl⟩
  | cons d cells ih =>
    by_cases hroom : networks.length < maxNets
    · obtain ⟨table, hnames, htable⟩ := ih (flush networks d)
      refine ⟨table, ?_, ?_⟩
      · rw [hnames, hflush networks d hroom, List.map_cons, List.foldl_cons]
      · rw [List.cons_append, tabulate_cons (by simp) hroom, htable]
    · refine ⟨networks, (foldl_enlist_full ?_).symm, ?_⟩
      · rw [List.length_map]
        exact Nat.le_of_not_lt hroom
      · rw [hlast networks c hroom, tabulate_full hroom fun c => hlast networks c hroom]

theorem tabulate_names (maxNets : ℕ) (cells : List WifiNetwork) :
    (tabulate maxNets (enter maxNets) (enterNew maxNets) [] cells).map WifiNetwork.ssid =
      roster [] maxNets (cells.map WifiNetwork.ssid) := by
  rcases List.eq_nil_or_concat cells with rfl | ⟨init, c, rfl⟩
  · rfl
  · obtain ⟨table, hnames, htable⟩ := tabulate_concat (enter maxNets) (enterNew maxNets) [] init c
      (fun networks c hroom => enter_names hroom) fun networks c hfull => enterNew_full hfull
    rw [List.concat_eq_append, htable, enterNew_names, hnames, List.map_append, List.map_singleton, roster_concat]
    rfl

theorem parseIwlistScan_names (maxNets : ℕ) (scan : Str) :
    (parseIwlistScan maxNets scan).map WifiNetwork.ssid = roster [] maxNets (iwlistNames scan) := by
  rw [parseIwlistScan_eq, tabulate_names, iwlistCells_ssids, iwlistNames, pieces]

def collectAny (maxNets : ℕ) (names : List Str) : List Str :=
  let listed := roster [] maxNets names.dropLast
  match names.getLast? with
  | none => listed
  | some last => if last = [] ∨ maxNets ≤ listed.length then listed else listed ++ [last]

theorem parseIwScan_names (signal : Str → Option ℤ) (maxNets : ℕ) (scan : Str) :
    (parseIwScan signal maxNets scan).map WifiNetwork.ssid = collectAny maxNets (iwNames scan) := by
  rw [parseIwScan_eq, iwNames, pieces]
  change _ = collectAny maxNets (ssidsFrom _ iwSsidOf iwFresh.ssid _)
  rw [← iwCells_ssids signal]
  rcases List.eq_nil_or_concat (iwCells signal iwFresh (readLines 512 scan)) with hnil | ⟨init, c, hcells⟩
  · exact absurd hnil iwCells_ne_nil
  · obtain ⟨table, hnames, htable⟩ := tabulate_concat (enterNew maxNets) (enterAny maxNets) [] init c
      (fun networks c hroom => enterNew_names) fun networks c hfull => enterAny_full hfull
    have hlisted : table.map WifiNetwork.ssid = roster [] maxNets (init.map WifiNetwork.ssid) := hnames
    rw [hcells, List.concat_eq_append, htable, collectAny, List.map_append, List.map_singleton, List.dropLast_concat,
      List.getLast?_concat]
    dsimp only
    rw [← hlisted, List.length_map, enterAny]
    by_cases hname : c.ssid = []
    · simp [hname]
    · by_cases hroom : table.length < maxNets
      · simp [hname, hroom, List.length_pos_iff]
      · simp [hname, hroom]

theorem parseIwlistScan_eq_nil {scan : Str} : (parseIwlistScan maxNets scan).length = 0 ↔
    maxNets = 0 ∨ ∀ name ∈ iwlistNames scan, name = [] := by
  rw [← List.length_map (f := WifiNetwork.ssid), parseIwlistScan_names]
  constructor
  · intro h
    rw [or_iff_not_imp_left]
    intro hmax name hname
    by_contra hne
    have hlisted : name ∈ roster [] maxNets (iwlistNames scan) := mem_roster (by omega) hname hne
    rw [List.length_eq_zero_iff.mp h] at hlisted
    cases hlisted
  · rintro (rfl | h)
    · exact Nat.le_zero.mp (length_roster_le [] 0 _)
    · rw [List.length_eq_zero_iff, List.eq_nil_iff_forall_not_mem]
      exact fun name hname => (mem_of_mem_roster hname).2 (h name (mem_of_mem_roster hname).1)

/-! ### What the list holds -/

structure Listed (maxNets : ℕ) (spec : List Str) (networks : List WifiNetwork) : Prop where
  distinct : (networks.map WifiNetwork.ssid).Nodup
  named : ∀ n ∈ networks, n.ssid ≠ []
  length_le : networks.length ≤ maxNets
  complete : networks.length < maxNets → ∀ name ∈ spec, name ≠ [] → ∃ n ∈ networks, n.ssid = name

def Found (maxNets : ℕ) (spec : List Str) (P : Str → Prop) : Prop :=
  ¬Full maxNets P → ∀ name ∈ spec, name ≠ [] → P name

def NewLast (maxNets : ℕ) (names : List Str) : Prop :=
  ∀ last ∈ names.getLast?, last = [] ∨ last ∉ names.dropLast ∨ maxNets ≤ distinct [] names.dropLast

def LastNew (maxNets : ℕ) (scan : Str) : Prop :=
  ∀ before h after z, pieces scan = before ++ h :: after → bytes "BSS " <+: h → (∀ q ∈ after, ¬bytes "BSS " <+: q) →
    z ≠ [] → Heard (bytes "BSS " <+: ·) iwSsidOf after z → Heard (bytes "BSS " <+: ·) iwSsidOf before z →
      Full maxNets (Heard (bytes "BSS " <+: ·) iwSsidOf before)

/-! ### Names and pieces -/

section

variable {header : Str → Bool} {nameOf : Str → Option Str} {z : Str} {P Q : Str → Prop}

theorem heard_cons (p : Str) (rest : List Str) : Heard header nameOf (p :: rest) z ↔
    (header p = false ∧ nameOf p = some z ∧ ∀ q ∈ rest.takeWhile (fun q => !header q), nameOf q = none) ∨
      Heard header nameOf rest z := by
  constructor
  · rintro ⟨before, q, after, hsplit, hq⟩
    cases before with
    | nil =>
      cases hsplit
      exact .inl hq
    | cons b before =>
      cases hsplit
      exact .inr ⟨before, q, after, rfl, hq⟩
  · rintro (hp | ⟨before, q, after, rfl, hq⟩)
    · exact ⟨[], p, rest, rfl, hp⟩
    · exact ⟨p :: before, q, after, rfl, hq⟩

/-- Induction on the pieces; `cur` is the name of the cell so far. -/
theorem mem_ssidsFrom_iff (hz : z ≠ []) (cur : Str) (lines : List Str) : z ∈ ssidsFrom header nameOf cur lines ↔
    Heard header nameOf lines z ∨ (z = cur ∧ ∀ q ∈ lines.takeWhile (fun q => !header q), nameOf q = none) := by
  induction lines generalizing cur with
  | nil =>
    have hnone : ¬Heard header nameOf [] z := by
      rintro ⟨before, p, after, hsplit, -⟩
      cases before <;> cases hsplit
    simp [ssidsFrom, hnone]
  | cons p rest ih =>
    rw [ssidsFrom, heard_cons]
    cases hp : header p with
    | true =>
      rw [if_pos rfl, List.mem_cons, ih]
      simp [hp, hz, or_comm]
    | false =>
      rw [if_neg Bool.false_ne_true, ih, List.takeWhile_cons_of_pos (by simp [hp])]
      cases hname : nameOf p with
      | none => simp [hname]
      | some y =>
        have hsome : (z = y) ↔ (some y = some z) := by rw [Option.some_inj, eq_comm]
        simp [hname, hsome, or_comm]

theorem mem_ssids_iff (hz : z ≠ []) (lines : List Str) : z ∈ ssids header nameOf lines ↔
    Heard header nameOf (lines.dropWhile fun q => !header q) z := by
  induction lines with
  | nil =>
    constructor
    · intro h
      cases h
    · rintro ⟨before, p, after, hsplit, -⟩
      cases before <;> cases hsplit
  | cons p rest ih =>
    rw [ssids]
    cases hp : header p with
    | true =>
      rw [if_pos rfl, mem_ssidsFrom_iff hz, List.dropWhile_cons_of_neg (by simp [hp]), heard_cons]
      simp [hp, hz]
    | false => rw [if_neg Bool.false_ne_true, ih, List.dropWhile_cons_of_pos (by simp [hp])]

theorem full_iff (maxNets : ℕ) (names : List Str) : Full maxNets (· ∈ names) ↔ maxNets ≤ distinct [] names :=
  le_distinct_iff.symm

theorem full_congr (h : ∀ z, z ≠ [] → (P z ↔ Q z)) : Full maxNets P ↔ Full maxNets Q := by
  unfold Full
  apply exists_congr
  intro l
  rw [and_congr_right_iff]
  intro _
  rw [and_congr_right_iff]
  intro _
  exact forall₂_congr fun z _ => and_congr_right fun hz => h z hz

theorem found_congr (h : ∀ z, z ≠ [] → (P z ↔ Q z)) : Found maxNets spec P ↔ Found maxNets spec Q := by
  unfold Found
  rw [full_congr h]
  exact imp_congr_right fun _ => forall₃_congr fun z _ hz => h z hz

theorem ssidsFrom_append {h : Str} (hh : header h = true) (cur : Str) (before after : List Str) :
    ssidsFrom header nameOf cur (before ++ h :: after) =
      ssidsFrom header nameOf cur before ++ ssidsFrom header nameOf [] after := by
  induction before generalizing cur with
  | nil => simp [ssidsFrom, hh]
  | cons p before ih =>
    rw [List.cons_append, ssidsFrom, ssidsFrom]
    split_ifs
    · rw [ih, List.cons_append]
    · exact ih _

theorem ssidsFrom_last {after : List Str} (hafter : ∀ q ∈ after, header q = false) (cur : Str) :
    ∃ last, ssidsFrom header nameOf cur after = [last] := by
  induction after generalizing cur with
  | nil => exact ⟨cur, rfl⟩
  | cons p after ih =>
    rw [List.forall_mem_cons] at hafter
    rw [ssidsFrom, if_neg (by simp [hafter.1])]
    exact ih hafter.2 _

theorem last_header (lines : List Str) : (∀ q ∈ lines, header q = false) ∨
    ∃ before h after, lines = before ++ h :: after ∧ header h = true ∧ ∀ q ∈ after, header q = false := by
  induction lines with
  | nil => exact .inl fun q hq => absurd hq List.not_mem_nil
  | cons p lines ih =>
    rcases ih with hnone | ⟨before, h, after, rfl, hh, hafter⟩
    · cases hp : header p with
      | false => exact .inl (List.forall_mem_cons.mpr ⟨hp, hnone⟩)
      | true => exact .inr ⟨[], p, lines, rfl, hp, hnone⟩
    · exact .inr ⟨p :: before, h, after, rfl, hh, hafter⟩

end

theorem newLast_iff (maxNets : ℕ) (scan : Str) : NewLast maxNets (iwNames scan) ↔ LastNew maxNets scan := by
  have hheard (lines : List Str) (z : Str) (hz : z ≠ []) :
      z ∈ ssidsFrom (bytes "BSS " <+: ·) iwSsidOf [] lines ↔ Heard (bytes "BSS " <+: ·) iwSsidOf lines z := by
    rw [mem_ssidsFrom_iff hz]
    exact or_iff_left fun h => hz h.1
  have hsplit (before : List Str) (h : Str) (after : List Str) (hscan : pieces scan = before ++ h :: after)
      (hh : bytes "BSS " <+: h) (hafter : ∀ q ∈ after, ¬bytes "BSS " <+: q) :
      ∃ last, ssidsFrom (bytes "BSS " <+: ·) iwSsidOf [] after = [last] ∧
        iwNames scan = ssidsFrom (bytes "BSS " <+: ·) iwSsidOf [] before ++ [last] := by
    have hone : ∃ last, ssidsFrom (bytes "BSS " <+: ·) iwSsidOf [] after = [last] :=
      ssidsFrom_last (fun q hq => decide_eq_false (hafter q hq)) []
    obtain ⟨last, hlast⟩ := hone
    refine ⟨last, hlast, ?_⟩
    rw [iwNames, hscan, ssidsFrom_append (decide_eq_true hh), hlast]
  constructor
  · intro hnew before h after z hscan hh hafter hz hlate hearly
    obtain ⟨last, hlast, hnames⟩ := hsplit before h after hscan hh hafter
    have heq : z = last := by
      rw [← hheard after z hz, hlast, List.mem_singleton] at hlate
      exact hlate
    have hcase := hnew last (by rw [hnames]; simp)
    rw [hnames, List.dropLast_concat, ← heq] at hcase
    rw [← full_congr (hheard before), full_iff]
    exact (hcase.resolve_left hz).resolve_left fun hnot => hnot ((hheard before z hz).mpr hearly)
  · intro hnew last hmem
    rcases @last_header (bytes "BSS " <+: ·) (pieces scan) with hnone | ⟨before, h, after, hscan, hh, hafter⟩
    · obtain ⟨only, honly⟩ := @ssidsFrom_last _ iwSsidOf _ hnone []
      right
      left
      rw [iwNames, honly]
      exact List.not_mem_nil
    · have hh' : bytes "BSS " <+: h := of_decide_eq_true hh
      have hafter' : ∀ q ∈ after, ¬bytes "BSS " <+: q := fun q hq => of_decide_eq_false (hafter q hq)
      obtain ⟨z, hlast, hnames⟩ := hsplit before h after hscan hh' hafter'
      rw [hnames, List.getLast?_concat, Option.mem_some_iff] at hmem
      subst hmem
      rw [hnames, List.dropLast_concat]
      by_cases hz : z = []
      · exact .inl hz
      by_cases hold : z ∈ ssidsFrom (bytes "BSS " <+: ·) iwSsidOf [] before
      · right
        right
        rw [← full_iff, full_congr (hheard before)]
        apply hnew before h after z hscan hh' hafter' hz
        · rw [← hheard after z hz, hlast]
          exact List.mem_singleton_self z
        · exact (hheard before z hz).mp hold
      · exact .inr (.inl hold)

/-! ### Scans that keep to the format -/

def Regular (header header' : Str → Bool) (name name' : Str → Option Str) (scan : Str) : Prop :=
  ∀ line ∈ scan.splitOn NEWLINE, (0 ∉ line ∧ line.length + 2 ≤ 512) ∧
    header' (line.dropWhile isBlank) = header (line.dropWhile isBlank) ∧
    name' (line.dropWhile isBlank) = name (line.dropWhile isBlank)

def Ends {T : Type} (f : Str → T) : Prop := ∀ p, f (p ++ [NEWLINE]) = f p

theorem dropWhile_stop {c : UInt8} (hc : isBlank c = false) (line rest : Str) :
    (line ++ c :: rest).dropWhile isBlank = line.dropWhile isBlank ++ c :: rest := by
  rw [List.dropWhile_append]
  split_ifs with hnil
  · rw [List.isEmpty_iff.mp hnil, List.dropWhile_cons_of_neg (by simp [hc]), List.nil_append]
  · rfl

theorem strstr_line {needle : Str} (hnew : NEWLINE ∉ needle) (hne : needle ≠ []) : Ends (strstr needle) := by
  intro p
  induction p with
  | nil =>
    have hpre : ¬needle <+: [NEWLINE] := by
      intro h
      cases needle with
      | nil => exact hne rfl
      | cons c needle => exact hnew ((List.cons_prefix_cons.mp h).1 ▸ List.mem_cons_self)
    simp [strstr, hne, hpre]
  | cons c p ih =>
    have hpre : needle <+: c :: p ++ [NEWLINE] ↔ needle <+: c :: p :=
      ⟨Lib.Markup.prefix_of_append hnew rfl, fun h => h.trans (List.prefix_append _ _)⟩
    rw [List.cons_append] at hpre ⊢
    simp only [strstr, List.isPrefixOf_iff_prefix, hpre, ih]

theorem essidOf_line : Ends essidOf := by
  intro p
  unfold essidOf
  rw [strstr_line (by decide) (by decide) p]
  cases hi : strstr (bytes "ESSID:\"") p with
  | none => rfl
  | some i =>
    have hle : i + 7 ≤ p.length := strstr_fits (by decide) hi
    dsimp only
    rw [List.drop_append_of_le_length hle]
    by_cases hquote : QUOTE ∈ p.drop (i + 7)
    · have hstop : ¬((p.drop (i + 7)).takeWhile (· ≠ QUOTE)).length = (p.drop (i + 7)).length := by
        intro hall
        have hself := (List.takeWhile_prefix (· ≠ QUOTE)).eq_of_length hall
        rw [List.takeWhile_eq_self_iff] at hself
        simpa using hself QUOTE hquote
      rw [if_pos (List.mem_append_left _ hquote), if_pos hquote, List.takeWhile_append, if_neg hstop]
    · have hquote' : QUOTE ∉ p.drop (i + 7) ++ [NEWLINE] := by
        rw [List.mem_append, not_or]
        exact ⟨hquote, by decide⟩
      rw [if_neg hquote, if_neg hquote']

theorem iwSsidOf_line : Ends iwSsidOf := by
  intro p
  unfold iwSsidOf
  have hpre : bytes "SSID: " <+: p ++ [NEWLINE] ↔ bytes "SSID: " <+: p :=
    ⟨Lib.Markup.prefix_of_append (by decide) rfl, fun h => h.trans (List.prefix_append _ _)⟩
  by_cases h : bytes "SSID: " <+: p
  · have hle : 6 ≤ p.length := h.length_le
    have hname : ((p ++ [NEWLINE]).drop 6).takeWhile (fun c => c ≠ RETURN ∧ c ≠ NEWLINE) =
        (p.drop 6).takeWhile fun c => c ≠ RETURN ∧ c ≠ NEWLINE := by
      rw [List.drop_append_of_le_length hle, List.takeWhile_append]
      split_ifs with hall
      · rw [(List.takeWhile_prefix _).eq_of_length hall]
        exact List.append_nil _
      · rfl
    rw [hname]
    simp only [hpre]
  · simp [hpre, h]

theorem ssidsFrom_regular {header header' : Str → Bool} {name name' : Str → Option Str} {scan : Str}
    (hreg : Regular header header' name name' scan) (hheader : Ends header') (hname : Ends name')
    (hnil : header [] = false) (hnone : name [] = none) (cur : Str) :
    ssidsFrom header' name' cur ((readLines 512 scan).map (·.dropWhile isBlank)) =
        ssidsFrom header name cur (textLines scan) ∧
      ssids header' name' ((readLines 512 scan).map (·.dropWhile isBlank)) = ssids header name (textLines scan) := by
  obtain ⟨init, last, hsplit, hread⟩ := readLines_splitOn fun l hl => (hreg l hl).1
  rw [hread, textLines]
  unfold Regular at hreg
  rw [hsplit] at hreg ⊢
  clear hread hsplit
  induction init generalizing cur with
  | nil =>
    have hlast := (hreg last (by simp)).2
    by_cases hempty : last = []
    · subst hempty
      simp [ssidsFrom, ssids, hnil, hnone]
    · simp [hempty, ssidsFrom, ssids, hlast.1, hlast.2]
  | cons line init ih =>
    have hline := (hreg line (by simp)).2
    have hrest (cur : Str) := ih cur fun l hl => hreg l (List.mem_cons_of_mem _ hl)
    simp only [List.cons_append, List.map_cons, ssidsFrom, ssids, dropWhile_stop (show isBlank NEWLINE = false by rfl),
      hheader (line.dropWhile isBlank), hname (line.dropWhile isBlank), hline.1, hline.2, (hrest _).1, (hrest []).2,
      and_self]

theorem ssidsFrom_eq_cons (header : Str → Bool) (name : Str → Option Str) (cur : Str) (lines : List Str) :
    ∃ first, ssidsFrom header name cur lines = first :: ssids header name lines := by
  induction lines generalizing cur with
  | nil => exact ⟨cur, rfl⟩
  | cons p rest ih =>
    rw [ssidsFrom, ssids]
    split_ifs
    · exact ⟨cur, rfl⟩
    · exact ih _

theorem iwlistNames_regular {scan : Str} (h : Regular (bytes "Cell " <+: ·) isCell essidLine essidOf scan) :
    iwlistNames scan = iwlistSsids scan := by
  have hheader : Ends isCell := fun p => by
    unfold isCell
    rw [strstr_line (by decide) (by decide) p]
  exact (ssidsFrom_regular h hheader essidOf_line (by decide) (by decide) []).2

theorem iwNames_regular {scan : Str}
    (h : Regular (bytes "BSS " <+: ·) (bytes "BSS " <+: ·) ssidLine iwSsidOf scan) :
    ∃ first, iwNames scan = first :: iwSsids scan := by
  have hheader : Ends fun p => decide (bytes "BSS " <+: p) := fun p => decide_eq_decide.mpr
    ⟨Lib.Markup.prefix_of_append (by decide) rfl, fun h => h.trans (List.prefix_append _ _)⟩
  rw [iwNames, pieces, (ssidsFrom_regular h hheader iwSsidOf_line (by decide) (by decide) []).1]
  exact ssidsFrom_eq_cons _ _ _ _

theorem found_of_subset (h : spec ⊆ names) : Found maxNets spec (· ∈ names) := fun _ _ hname _ => h hname

theorem listed_iff_of_collect (h : networks.map WifiNetwork.ssid = roster [] maxNets names) :
    Listed maxNets spec networks ↔ Found maxNets spec (· ∈ names) := by
  have hlen : networks.length = min maxNets (distinct [] names) := by
    rw [← List.length_map (f := WifiNetwork.ssid), h, length_roster]
  have hmem (name : Str) : (∃ n ∈ networks, n.ssid = name) ↔ name ∈ roster [] maxNets names := by
    rw [← h, List.mem_map]
  unfold Found
  rw [full_iff, Nat.not_le]
  constructor
  · intro hlisted hroom name hname hne
    have hfound := hlisted.complete (by omega) name hname hne
    rw [hmem] at hfound
    exact (mem_of_mem_roster hfound).1
  · intro hkept
    refine ⟨?_, ?_, ?_, ?_⟩
    · rw [h]
      exact roster_nodup [] maxNets names
    · intro n hn
      exact (mem_of_mem_roster ((hmem n.ssid).mp ⟨n, hn, rfl⟩)).2
    · omega
    · intro hroom name hname hne
      rw [hmem]
      apply mem_roster
      · rw [length_roster]
        omega
      · exact hkept (by omega) name hname hne
      · exact hne

theorem collectAny_eq (h : NewLast maxNets names) : collectAny maxNets names = roster [] maxNets names := by
  rcases List.eq_nil_or_concat names with rfl | ⟨init, last, rfl⟩
  · rfl
  · rw [List.concat_eq_append] at h ⊢
    have hlast := h last (by simp)
    rw [List.dropLast_concat] at hlast
    rw [collectAny, List.dropLast_concat, List.getLast?_concat, roster_concat]
    dsimp only
    obtain ⟨hskip, heq⟩ | ⟨⟨hne, -, hroom⟩, heq⟩ := enlist_cases [] maxNets (roster [] maxNets init) last
    · rw [heq, if_pos]
      rcases hskip with hnil | hold | hfull
      · exact .inl hnil
      · rw [length_roster]
        rcases hlast with hnil | hnew | hfull
        · exact .inl hnil
        · exact absurd (mem_of_mem_roster hold).1 hnew
        · exact .inr (by omega)
      · exact .inr hfull
    · rw [heq, if_neg]
      rw [not_or, not_le]
      exact ⟨hne, hroom⟩

theorem not_nodup_collectAny (h : ¬NewLast maxNets names) : ¬(collectAny maxNets names).Nodup := by
  unfold NewLast at h
  push Not at h
  obtain ⟨last, hlast, hne, hold, hroom⟩ := h
  rw [Option.mem_def] at hlast
  have hlen := length_roster [] maxNets names.dropLast
  have hfound : last ∈ roster [] maxNets names.dropLast := mem_roster (by omega) hold hne
  rw [collectAny, hlast]
  dsimp only
  rw [if_neg (by rw [not_or]; exact ⟨hne, by omega⟩), ← List.concat_eq_append, List.nodup_concat]
  exact fun h => h.1 hfound

theorem listed_iff_of_collectAny (h : networks.map WifiNetwork.ssid = collectAny maxNets names) :
    Listed maxNets spec networks ↔ NewLast maxNets names ∧ Found maxNets spec (· ∈ names) := by
  by_cases hnew : NewLast maxNets names
  · rw [listed_iff_of_collect (h.trans (collectAny_eq hnew)), and_iff_right hnew]
  · refine iff_of_false (fun hlisted => not_nodup_collectAny hnew ?_) fun hc => hnew hc.1
    rw [← h]
    exact hlisted.distinct

end

theorem scanWifiNetworks_names (signal : Str → Option ℤ) (maxNets : ℕ) {iface : Str} (hiface : iface ≠ [])
    (iwlist iw : Option Str) : (scanWifiNetworks signal maxNets iface iwlist iw).map WifiNetwork.ssid =
      if ∃ name ∈ iwlistNames (iwlist.getD []), name ≠ [] then roster [] maxNets (iwlistNames (iwlist.getD []))
      else collectAny maxNets (iwNames (iw.getD [])) := by
  have hiwlist : (iwlist.map (parseIwlistScan maxNets)).getD [] = parseIwlistScan maxNets (iwlist.getD []) := by
    cases iwlist with
    | none => rfl
    | some scan => rfl
  have hiw : (iw.map (parseIwScan signal maxNets)).getD [] = parseIwScan signal maxNets (iw.getD []) := by
    cases iw with
    | none => rfl
    | some scan => rfl
  rw [scanWifiNetworks, if_neg hiface, hiwlist, hiw]
  dsimp only
  by_cases hnames : ∃ name ∈ iwlistNames (iwlist.getD []), name ≠ []
  · rw [if_pos hnames]
    by_cases hmax : maxNets = 0
    · -- nothing fits into the array
      subst hmax
      have hnil (names : List Str) : roster [] 0 names = [] :=
        List.length_eq_zero_iff.mp (Nat.le_zero.mp (length_roster_le [] 0 _))
      have hnew (names : List Str) : NewLast 0 names := fun last _ => .inr (.inr (Nat.zero_le _))
      rw [if_pos (parseIwlistScan_eq_nil.mpr (.inl rfl)), parseIwScan_names, collectAny_eq (hnew _), hnil, hnil]
    · have hlen : ¬(parseIwlistScan maxNets (iwlist.getD [])).length = 0 := by
        rw [parseIwlistScan_eq_nil, or_iff_right hmax]
        push Not
        exact hnames
      rw [if_neg hlen, parseIwlistScan_names]
  · have hlen : (parseIwlistScan maxNets (iwlist.getD [])).length = 0 := by
      rw [parseIwlistScan_eq_nil]
      push Not at hnames
      exact .inr hnames
    rw [if_neg hnames, if_pos hlen, parseIwScan_names]

theorem heardIwlist_iff {z : Str} (hz : z ≠ []) (scan : Str) : z ∈ iwlistNames scan ↔ HeardIwlist scan z :=
  mem_ssids_iff hz _

theorem heardIw_iff {z : Str} (hz : z ≠ []) (scan : Str) : z ∈ iwNames scan ↔ HeardIw scan z := by
  rw [iwNames, mem_ssidsFrom_iff hz]
  exact or_iff_left fun h => hz h.1

theorem scanWifiNetworks_listed_iff (signal : Str → Option ℤ) (maxNets : ℕ) {iface : Str} (hiface : iface ≠ [])
    (iwlist iw : Option Str) :
    Listed maxNets (textSsids (iwlist.getD []) (iw.getD [])) (scanWifiNetworks signal maxNets iface iwlist iw) ↔
      ((∃ z, z ≠ [] ∧ HeardIwlist (iwlist.getD []) z) ∧
          Found maxNets (textSsids (iwlist.getD []) (iw.getD [])) (HeardIwlist (iwlist.getD []))) ∨
        ((∀ z, z ≠ [] → ¬HeardIwlist (iwlist.getD []) z) ∧ LastNew maxNets (iw.getD []) ∧
          Found maxNets (textSsids (iwlist.getD []) (iw.getD [])) (HeardIw (iw.getD []))) := by
  have hnames := scanWifiNetworks_names signal maxNets hiface iwlist iw
  have hsource : (∃ name ∈ iwlistNames (iwlist.getD []), name ≠ []) ↔
      ∃ z, z ≠ [] ∧ HeardIwlist (iwlist.getD []) z := by
    apply exists_congr
    intro z
    rw [and_comm]
    exact and_congr_right fun hz => heardIwlist_iff hz _
  by_cases hfound : ∃ z, z ≠ [] ∧ HeardIwlist (iwlist.getD []) z
  · have hnone : ¬∀ z, z ≠ [] → ¬HeardIwlist (iwlist.getD []) z := by
      push Not
      exact hfound
    rw [if_pos (hsource.mpr hfound)] at hnames
    rw [listed_iff_of_collect hnames, found_congr fun z hz => heardIwlist_iff hz _, and_iff_right hfound,
      or_iff_left fun h => hnone h.1]
  · have hnone : ∀ z, z ≠ [] → ¬HeardIwlist (iwlist.getD []) z := by
      push Not at hfound
      exact hfound
    rw [if_neg fun h => hfound (hsource.mp h)] at hnames
    rw [listed_iff_of_collectAny hnames, found_congr fun z hz => heardIw_iff hz _, newLast_iff, and_iff_right hnone,
      or_iff_right fun h => hfound h.1]

theorem listed_regular_iff (signal : Str → Option ℤ) (maxNets : ℕ) {iface : Str} (hiface : iface ≠ [])
    {iwlist iw : Str} (hiwlist : Regular (bytes "Cell " <+: ·) isCell essidLine essidOf iwlist)
    (hiw : Regular (bytes "BSS " <+: ·) (bytes "BSS " <+: ·) ssidLine iwSsidOf iw) :
    Listed maxNets (textSsids iwlist iw) (scanWifiNetworks signal maxNets iface iwlist iw) ↔
      (∃ name ∈ iwlistSsids iwlist, name ≠ []) ∨ LastNew maxNets iw := by
  have hnames := scanWifiNetworks_names signal maxNets hiface (some iwlist) (some iw)
  simp only [Option.getD_some] at hnames
  have hsame := iwlistNames_regular hiwlist
  unfold textSsids
  by_cases hfound : ∃ name ∈ iwlistSsids iwlist, name ≠ []
  · rw [hsame, if_pos hfound] at hnames
    rw [if_pos hfound, listed_iff_of_collect hnames]
    exact iff_of_true (found_of_subset (List.Subset.refl _)) (.inl hfound)
  · rw [hsame, if_neg hfound] at hnames
    rw [if_neg hfound, listed_iff_of_collectAny hnames, or_iff_right hfound, newLast_iff]
    obtain ⟨first, hfirst⟩ := iwNames_regular hiw
    exact and_iff_left (found_of_subset (hfirst ▸ List.subset_cons_self _ _))

def oneCell : Str := bytes "Cell 01 - Address: 02\n  ESSID:\"lab\"\n"

theorem scanWifiNetworks_listed_oneCell :
    Listed 64 [bytes "lab"] (scanWifiNetworks (fun _ => none) 64 (bytes "wlan0") (some oneCell) none) := by
  have hspec : textSsids oneCell [] = [bytes "lab"] := by decide
  have hheard : HeardIwlist oneCell (bytes "lab") :=
    ⟨[bytes "Cell 01 - Address: 02\n"], bytes "ESSID:\"lab\"\n", [], by decide, by decide, by decide,
      fun _ hq => absurd hq List.not_mem_nil⟩
  have hlisted := scanWifiNetworks_listed_iff (fun _ => none) 64 (show bytes "wlan0" ≠ [] by decide) (some oneCell) none
  rw [Option.getD_some, Option.getD_none, hspec] at hlisted
  refine hlisted.mpr (.inl ⟨⟨bytes "lab", by decide, hheard⟩, fun _ name hname _ => ?_⟩)
  rw [List.mem_singleton.mp hname]
  exact hheard

def twoOfOne : Str := bytes "BSS 02(on wlan0)\n\tSSID: lab\nBSS 04(on wlan0)\n\tSSID: lab\n"

theorem lab_listed_twice :
    ¬Listed 64 (textSsids [] twoOfOne)
      (scanWifiNetworks (fun _ => none) 64 (bytes "wlan0") (some []) (some twoOfOne)) := by
  intro h
  have hnames : (scanWifiNetworks (fun _ => none) 64 (bytes "wlan0") (some []) (some twoOfOne)).map WifiNetwork.ssid =
      [bytes "lab", bytes "lab"] := by decide
  have hdistinct := h.distinct
  rw [hnames] at hdistinct
  exact absurd hdistinct (by decide)

end JurkOS.Userland.Wifi
