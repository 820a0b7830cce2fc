import JurkOS.Lib.Lines

/-!
The network list of `NoneCompiled/wifi.c`: the parsers of the `iwlist` and `iw`
scans. A scan is a list of cells, and the parsers enter them one by one into a
table of names.
-/

namespace JurkOS.Userland.Wifi

open Lib.Libc

structure WifiNetwork where
  ssid : Str
  signalPct : ℤ
  security : Str
  channel : ℤ
  isOpen : Bool
  deriving DecidableEq

def QUOTE : UInt8 := 0x22

def isBlank (c : UInt8) : Bool := c = 0x20 ∨ c = 0x09

def iwlistFresh : WifiNetwork := ⟨[], 50, bytes "Open", 1, true⟩

def isCell (p : Str) : Bool := strstr (bytes "Cell ") p ≠ none

/-- The text between the quotes, cut to the array. -/
def essidOf (p : Str) : Option Str :=
  match strstr (bytes "ESSID:\"") p with
  | none => none
  | some i =>
    let essid := p.drop (i + 7)
    if QUOTE ∈ essid then some ((essid.takeWhile (· ≠ QUOTE)).take 63) else none

def channelOf (p : Str) : Option ℤ :=
  match strstr (bytes "Channel:") p with
  | some i => some (atoi (p.drop (i + 8)))
  | none => (strstr (bytes "(Channel ") p).map fun i => atoi (p.drop (i + 9))

def signalOf (p : Str) : Option ℤ :=
  match strstr (bytes "Quality=") p with
  | some i =>
    let pct := (toInt32 (atoi (p.drop (i + 8)) * 100)).tdiv 70
    some (if pct > 100 then 100 else pct)
  | none =>
    match strstr (bytes "Signal level=") p with
    | none => none
    | some i =>
      let dbm := atoi (p.drop (i + 13))
      if dbm < 0 then
        let pct := toInt32 (2 * (dbm + 100))
        let pct := if pct < 5 then 5 else pct
        some (if pct > 100 then 100 else pct)
      else none

def keyStep (p : Str) (cur : WifiNetwork) : WifiNetwork :=
  if strstr (bytes "Encryption key:off") p ≠ none then { cur with isOpen := true, security := bytes "Open" }
  else if strstr (bytes "Encryption key:on") p ≠ none then
    if cur.isOpen then { cur with isOpen := false, security := bytes "WEP" } else cur
  else cur

def wpaOf (p : Str) : Option Str :=
  if strstr (bytes "IEEE 802.11i/WPA2") p ≠ none ∨ strstr (bytes "WPA2") p ≠ none then some (bytes "WPA2-PSK")
  else if strstr (bytes "WPA3") p ≠ none ∨ strstr (bytes "SAE") p ≠ none then some (bytes "WPA3-SAE")
  else if strstr (bytes "WPA Version 1") p ≠ none ∨ strstr (bytes "WPA1") p ≠ none then some (bytes "WPA-PSK")
  else none

def wpaStep (p : Str) (cur : WifiNetwork) : WifiNetwork :=
  match wpaOf p with
  | none => cur
  | some security => { cur with isOpen := false, security := security }

def iwlistFields (cur : WifiNetwork) (p : Str) : WifiNetwork :=
  let cur := { cur with ssid := (essidOf p).getD cur.ssid }
  let cur := { cur with channel := (channelOf p).getD cur.channel }
  let cur := { cur with signalPct := (signalOf p).getD cur.signalPct }
  wpaStep p (keyStep p cur)

/-- The first entry of the name takes the stronger signal; a new name goes to the end. -/
def enter (maxNets : ℕ) (networks : List WifiNetwork) (cur : WifiNetwork) : List WifiNetwork :=
  if cur.ssid = [] then networks
  else
    match networks.findIdx? (·.ssid = cur.ssid) with
    | some i => networks.modify i fun old => if cur.signalPct > old.signalPct then cur else old
    | none => if networks.length < maxNets then networks ++ [cur] else networks

/-- The duplicate test that leaves the entry as it is. -/
def enterNew (maxNets : ℕ) (networks : List WifiNetwork) (cur : WifiNetwork) : List WifiNetwork :=
  if cur.ssid ≠ [] ∧ networks.length < maxNets ∧ ∀ n ∈ networks, n.ssid ≠ cur.ssid then networks ++ [cur] else networks

structure Scan where
  networks : List WifiNetwork
  cur : WifiNetwork
  inCell : Bool

def iwlistLoop (maxNets : ℕ) : List Str → Scan → Scan
  | [], s => s
  | line :: rest, s =>
    if s.networks.length < maxNets then
      let p := line.dropWhile isBlank
      if isCell p then
        let networks := if s.inCell then enter maxNets s.networks s.cur else s.networks
        iwlistLoop maxNets rest ⟨networks, iwlistFresh, true⟩
      else if !s.inCell then iwlistLoop maxNets rest s
      else iwlistLoop maxNets rest { s with cur := iwlistFields s.cur p }
    else s

def parseIwlistScan (maxNets : ℕ) (scan : Str) : List WifiNetwork :=
  let s := iwlistLoop maxNets (readLines 512 scan) ⟨[], iwlistFresh, false⟩
  if s.inCell then enterNew maxNets s.networks s.cur else s.networks

def iwFresh : WifiNetwork := ⟨[], 60, bytes "Open", 6, true⟩

/-- `signal` is what `atof` and the arithmetic in `float` make of the text, where it is negative. -/
def iwFields (signal : Str → Option ℤ) (cur : WifiNetwork) (p : Str) : WifiNetwork :=
  if bytes "SSID: " <+: p then
    let s := (p.drop 6).takeWhile fun c => c ≠ RETURN ∧ c ≠ NEWLINE
    if s.length > 0 then { cur with ssid := snprintf 64 s } else cur
  else if bytes "signal: " <+: p then
    match signal (p.drop 8) with
    | none => cur
    | some pct =>
      let pct := if pct < 5 then 5 else pct
      { cur with signalPct := if pct > 100 then 100 else pct }
  else if strstr (bytes "WPA") p ≠ none ∨ strstr (bytes "RSN") p ≠ none then
    { cur with isOpen := false, security := bytes "WPA2-PSK" }
  else cur

/-- The flush after the loop makes no duplicate test. -/
def enterAny (maxNets : ℕ) (networks : List WifiNetwork) (cur : WifiNetwork) : List WifiNetwork :=
  if cur.ssid.length > 0 ∧ networks.length < maxNets then networks ++ [cur] else networks

def iwLoop (signal : Str → Option ℤ) (maxNets : ℕ) :
    List Str → List WifiNetwork × WifiNetwork → List WifiNetwork × WifiNetwork
  | [], s => s
  | line :: rest, (networks, cur) =>
    if networks.length < maxNets then
      let p := line.dropWhile isBlank
      if bytes "BSS " <+: p then iwLoop signal maxNets rest (enterNew maxNets networks cur, iwFresh)
      else iwLoop signal maxNets rest (networks, iwFields signal cur p)
    else (networks, cur)

def parseIwScan (signal : Str → Option ℤ) (maxNets : ℕ) (scan : Str) : List WifiNetwork :=
  let (networks, cur) := iwLoop signal maxNets (readLines 512 scan) ([], iwFresh)
  enterAny maxNets networks cur

/-- `iwlist` and `iw` are what the two commands leave in the file for `iface`, if it can be opened. -/
def scanWifiNetworks (signal : Str → Option ℤ) (maxNets : ℕ) (iface : Str) (iwlist iw : Option Str) :
    List WifiNetwork :=
  if iface = [] then []
  else
    let networks := (iwlist.map (parseIwlistScan maxNets)).getD []
    if networks.length = 0 then (iw.map (parseIwScan signal maxNets)).getD [] else networks

def cellsFrom (cur : WifiNetwork) : List Str → List WifiNetwork
  | [] => [cur]
  | line :: rest =>
    let p := line.dropWhile isBlank
    if isCell p then cur :: cellsFrom iwlistFresh rest else cellsFrom (iwlistFields cur p) rest

def iwlistCells : List Str → List WifiNetwork
  | [] => []
  | line :: rest => if isCell (line.dropWhile isBlank) then cellsFrom iwlistFresh rest else iwlistCells rest

/-- The cells of an `iw` scan; what stands before the first header counts as one. -/
def iwCells (signal : Str → Option ℤ) (cur : WifiNetwork) : List Str → List WifiNetwork
  | [] => [cur]
  | line :: rest =>
    let p := line.dropWhile isBlank
    if bytes "BSS " <+: p then cur :: iwCells signal iwFresh rest else iwCells signal (iwFields signal cur p) rest

def tabulate (maxNets : ℕ) (flush last : List WifiNetwork → WifiNetwork → List WifiNetwork) :
    List WifiNetwork → List WifiNetwork → List WifiNetwork
  | networks, [] => networks
  | networks, [c] => last networks c
  | networks, c :: d :: cells =>
    if networks.length < maxNets then tabulate maxNets flush last (flush networks c) (d :: cells) else networks

section

variable {maxNets : ℕ} {flush last : List WifiNetwork → WifiNetwork → List WifiNetwork}
  {signal : Str → Option ℤ} {networks cells : List WifiNetwork} {cur c : WifiNetwork} {lines : List Str}

theorem tabulate_cons (hne : cells ≠ []) (hroom : networks.length < maxNets) :
    tabulate maxNets flush last networks (c :: cells) = tabulate maxNets flush last (flush networks c) cells := by
  cases cells with
  | nil => exact absurd rfl hne
  | cons d cells => exact if_pos hroom

theorem tabulate_full (hfull : ¬networks.length < maxNets) (hlast : ∀ c, last networks c = networks) :
    tabulate maxNets flush last networks cells = networks := by
  cases cells with
  | nil => rfl
  | cons c cells =>
    cases cells with
    | nil => exact hlast c
    | cons d cells => exact if_neg hfull

theorem enterNew_full (hfull : ¬networks.length < maxNets) : enterNew maxNets networks c = networks :=
  if_neg fun h => hfull h.2.1

theorem enterAny_full (hfull : ¬networks.length < maxNets) : enterAny maxNets networks c = networks :=
  if_neg fun h => hfull h.2

theorem cellsFrom_ne_nil : cellsFrom cur lines ≠ [] := by
  induction lines generalizing cur with
  | nil => exact List.cons_ne_nil _ _
  | cons line rest ih =>
    rw [cellsFrom]
    split_ifs
    · exact List.cons_ne_nil _ _
    · exact ih

theorem iwCells_ne_nil : iwCells signal cur lines ≠ [] := by
  induction lines generalizing cur with
  | nil => exact List.cons_ne_nil _ _
  | cons line rest ih =>
    rw [iwCells]
    split_ifs
    · exact List.cons_ne_nil _ _
    · exact ih

def Scan.finish (maxNets : ℕ) (s : Scan) : List WifiNetwork :=
  if s.inCell then enterNew maxNets s.networks s.cur else s.networks

theorem iwlistLoop_full (hfull : ¬networks.length < maxNets) (inCell : Bool) :
    (iwlistLoop maxNets lines ⟨networks, cur, inCell⟩).finish maxNets = networks := by
  have hfinish : (Scan.mk networks cur inCell).finish maxNets = networks := by
    unfold Scan.finish
    split_ifs
    · exact enterNew_full hfull
    · rfl
  cases lines with
  | nil => exact hfinish
  | cons line rest => rw [iwlistLoop, if_neg hfull, hfinish]

theorem iwlistLoop_cells : (iwlistLoop maxNets lines ⟨networks, cur, true⟩).finish maxNets =
    tabulate maxNets (enter maxNets) (enterNew maxNets) networks (cellsFrom cur lines) := by
  by_cases hroom : networks.length < maxNets
  · induction lines generalizing networks cur with
    | nil => rfl
    | cons line rest ih =>
      rw [iwlistLoop, if_pos hroom, cellsFrom]
      by_cases hcell : isCell (line.dropWhile isBlank)
      · simp only [hcell, if_true]
        rw [tabulate_cons cellsFrom_ne_nil hroom]
        by_cases hroom' : (enter maxNets networks cur).length < maxNets
        · exact ih hroom'
        · rw [iwlistLoop_full hroom', tabulate_full hroom' fun c => enterNew_full hroom']
      · simp only [hcell, Bool.not_true, Bool.false_eq_true, if_false]
        exact ih hroom
  · rw [iwlistLoop_full hroom, tabulate_full hroom fun c => enterNew_full hroom]

theorem iwlistLoop_start (hmax : 0 < maxNets) : (iwlistLoop maxNets lines ⟨[], cur, false⟩).finish maxNets =
    tabulate maxNets (enter maxNets) (enterNew maxNets) [] (iwlistCells lines) := by
  have hroom : ([] : List WifiNetwork).length < maxNets := hmax
  induction lines with
  | nil => rfl
  | cons line rest ih =>
    rw [iwlistLoop, if_pos hroom, iwlistCells]
    by_cases hcell : isCell (line.dropWhile isBlank)
    · simp only [hcell, if_true, Bool.false_eq_true, if_false]
      exact iwlistLoop_cells
    · simp only [hcell, Bool.not_false, Bool.false_eq_true, if_true, if_false]
      exact ih

theorem parseIwlistScan_eq (maxNets : ℕ) (scan : Str) : parseIwlistScan maxNets scan =
    tabulate maxNets (enter maxNets) (enterNew maxNets) [] (iwlistCells (readLines 512 scan)) := by
  change (iwlistLoop maxNets (readLines 512 scan) ⟨[], iwlistFresh, false⟩).finish maxNets = _
  by_cases hmax : 0 < maxNets
  · exact iwlistLoop_start hmax
  · rw [iwlistLoop_full hmax, tabulate_full hmax fun c => enterNew_full hmax]

theorem iwLoop_cells : (enterAny maxNets (iwLoop signal maxNets lines (networks, cur)).1
      (iwLoop signal maxNets lines (networks, cur)).2) =
    tabulate maxNets (enterNew maxNets) (enterAny maxNets) networks (iwCells signal cur lines) := by
  induction lines generalizing networks cur with
  | nil => rfl
  | cons line rest ih =>
    rw [iwLoop, iwCells]
    by_cases hroom : networks.length < maxNets
    · rw [if_pos hroom]
      by_cases hcell : bytes "BSS " <+: line.dropWhile isBlank
      · simp only [hcell, if_true]
        rw [tabulate_cons iwCells_ne_nil hroom]
        exact ih
      · simp only [hcell, if_false]
        exact ih
    · rw [if_neg hroom, enterAny_full hroom, tabulate_full hroom fun c => enterAny_full hroom]

theorem parseIwScan_eq (signal : Str → Option ℤ) (maxNets : ℕ) (scan : Str) : parseIwScan signal maxNets scan =
    tabulate maxNets (enterNew maxNets) (enterAny maxNets) [] (iwCells signal iwFresh (readLines 512 scan)) :=
  iwLoop_cells

end

end JurkOS.Userland.Wifi
