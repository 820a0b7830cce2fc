import JurkOS.Userland.WifiProfiles

/-!
The menu of `main` in `NoneCompiled/wifi.c`, round by round: what is connected to, and
what is saved of it. The lines are read through `stdin`, a password byte by byte from the
terminal.
-/

namespace JurkOS.Userland.Wifi

open Lib.Libc Lib.Pieces Lib.Roster

def MAX_NETWORKS : ℕ := 64

/-- What the system says in a round: the interface that is detected, whether a wired one is, and what the two
commands leave of a scan. -/
structure Round where
  iface : Option Str
  wired : Bool
  iwlist : Option Str
  iw : Option Str

inductive Action
  | connectWifi (iface ssid password : Str) (isOpen : Bool)
  | configureWired
  | status
  deriving DecidableEq

structure Typed where
  stdin : Str
  keys : Str

def Typed.enter (t : Typed) : Typed := { t with stdin := t.stdin.tail }

def ask (size : ℕ) (t : Typed) : Option (Str × Typed) :=
  (fgets size t.stdin).map fun (line, stdin) => (untilLineEnd (cstr line), { t with stdin := stdin })

/-- `none` where the program ends at Ctrl+C, or waits for ever. -/
def getPasswordMasked (maxLen : ℕ) : Str → Str → Option (Str × Str)
  | _, [] => none
  | buf, c :: keys =>
    if c = NEWLINE ∨ c = RETURN then some (buf, keys)
    else if c = 127 ∨ c = 8 then getPasswordMasked maxLen buf.dropLast keys
    else if c = 3 then none
    else if 32 ≤ c ∧ c ≤ 126 ∧ buf.length < maxLen - 1 then getPasswordMasked maxLen (buf ++ [c]) keys
    else getPasswordMasked maxLen buf keys

def lower (c : UInt8) : UInt8 := if 0x41 ≤ c ∧ c ≤ 0x5A then c + 0x20 else c

def sameLetters (s t : Str) : Bool := s.map lower = t.map lower

def connectOpen (iface ssid : Str) (t : Typed) : List Action × Option Typed :=
  ([.connectWifi iface ssid [] true], some t.enter)

/-- What is done in a round, and what is left to be read if another one follows. -/
def withoutWifi (r : Round) (t : Typed) : List Action × Option Typed :=
  match ask 128 t with
  | none => ([], none)
  | some (input, t) =>
    if sameLetters input (bytes "q") ∨ input = bytes "exit" then ([], none)
    else if sameLetters input (bytes "r") then ([], some t)
    else if sameLetters input (bytes "1") ∧ r.wired then ([.configureWired], some t.enter)
    else if sameLetters input (bytes "m") then
      -- the name that is typed is overwritten when the interfaces are looked for again
      match ask 64 t with
      | none => ([], some t)
      | some (_, t) => ([], some t)
    else ([], some t)

def manual (iface : Str) (t : Typed) : List Action × Option Typed :=
  match ask 64 t with
  | none => ([], some t)
  | some (ssid, t) =>
    if ssid = [] then ([], some t)
    else
      match ask 16 t with
      | none => ([], some t)
      | some (hasSec, t) =>
        if sameLetters hasSec (bytes "y") ∨ sameLetters hasSec (bytes "yes") then
          match getPasswordMasked 128 [] t.keys with
          | none => ([], none)
          | some (password, keys) => ([.connectWifi iface ssid password false], some { t with keys := keys }.enter)
        else connectOpen iface ssid t

def select (iface : Str) (chosen : WifiNetwork) (t : Typed) : List Action × Option Typed :=
  if chosen.isOpen then connectOpen iface chosen.ssid t
  else
    match getPasswordMasked 128 [] t.keys with
    | none => ([], none)
    | some (password, keys) =>
      let t := { t with keys := keys }
      if password = [] then ([], some t.enter)
      else ([.connectWifi iface chosen.ssid password false], some t.enter)

variable (signal : Str → Option ℤ)

def Round.networks (r : Round) (iface : Str) : List WifiNetwork :=
  scanWifiNetworks signal MAX_NETWORKS iface r.iwlist r.iw

def withWifi (iface : Str) (r : Round) (t : Typed) : List Action × Option Typed :=
  let networks := r.networks signal iface
  match ask 128 t with
  | none => ([], none)
  | some (input, t) =>
    if sameLetters input (bytes "q") ∨ input = bytes "exit" then ([], none)
    else if sameLetters input (bytes "r") then ([], some t)
    else if sameLetters input (bytes "s") then ([.status], some t.enter)
    else if sameLetters input (bytes "e") ∧ r.wired then ([.configureWired], some t.enter)
    else if sameLetters input (bytes "m") then manual iface t
    else
      let choice := atoi input
      if 1 ≤ choice ∧ choice ≤ networks.length then
        match networks[(choice - 1).toNat]? with
        | none => ([], some t.enter)
        | some chosen => select iface chosen t
      else ([], some t.enter)

def menuRound (r : Round) (t : Typed) : List Action × Option Typed :=
  match r.iface with
  | none => withoutWifi r t
  | some iface => withWifi signal iface r t

def session : List Round → Typed → List (Round × List Action)
  | [], _ => []
  | r :: rounds, t =>
    match menuRound signal r t with
    | (actions, none) => [(r, actions)]
    | (actions, some t) => (r, actions) :: session rounds t

def menu (rounds : List Round) (t : Typed) : List Action := (session signal rounds t).flatMap Prod.snd

def Action.profile : Action → Option Profile
  | .connectWifi _ ssid password isOpen => some ⟨ssid, password, isOpen⟩
  | _ => none

/-! ### What is connected to -/

def Printable (s : Str) : Prop := ∀ c ∈ s, 32 ≤ c ∧ c ≤ 126

def OnLine (s : Str) : Prop := 0 ∉ s ∧ RETURN ∉ s ∧ NEWLINE ∉ s

variable {signal}

theorem getPasswordMasked_spec {maxLen : ℕ} {buf keys password rest : Str}
    (h : getPasswordMasked maxLen buf keys = some (password, rest)) (hprint : Printable buf)
    (hlen : buf.length ≤ maxLen - 1) : Printable password ∧ password.length ≤ maxLen - 1 := by
  induction keys generalizing buf with
  | nil => cases h
  | cons c keys ih =>
    rw [getPasswordMasked] at h
    split_ifs at h with hend hback hbreak hchar
    · obtain ⟨rfl, -⟩ := Prod.mk.inj (Option.some.inj h)
      exact ⟨hprint, hlen⟩
    · apply ih h (fun d hd => hprint d (List.dropLast_subset _ hd))
      rw [List.length_dropLast]
      omega
    · apply ih h
      · intro d hd
        rcases List.mem_append.mp hd with hd | hd
        · exact hprint d hd
        · rw [List.mem_singleton.mp hd]
          exact ⟨hchar.1, hchar.2.1⟩
      · rw [List.length_append, List.length_singleton]
        omega
    · exact ih h hprint hlen

theorem ask_spec {size : ℕ} {t t' : Typed} {answer : Str} (h : ask size t = some (answer, t')) :
    OnLine answer ∧ answer.length ≤ size - 1 := by
  obtain ⟨⟨line, stdin⟩, hline, hanswer⟩ := Option.map_eq_some_iff.mp h
  obtain ⟨rfl, -⟩ := Prod.mk.inj hanswer
  have hinitial : untilLineEnd (cstr line) <+: cstr line := List.takeWhile_prefix _
  refine ⟨⟨fun hzero => zero_notMem_cstr line (hinitial.subset hzero), untilLineEnd_clean _⟩, ?_⟩
  exact hinitial.length_le.trans ((length_cstr_le line).trans (fgets_length hline))

structure Allowed (signal : Str → Option ℤ) (r : Round) (iface ssid password : Str) (isOpen : Bool) : Prop where
  detected : r.iface = some iface
  printable : Printable password ∧ password.length ≤ 127
  unused : isOpen = true → password = []
  network : (∃ n ∈ r.networks signal iface, n.ssid = ssid ∧ n.isOpen = isOpen ∧ (isOpen = false → password ≠ [])) ∨
    OnLine ssid ∧ ssid ≠ [] ∧ ssid.length ≤ 63

variable {r : Round} {iface ssid password : Str} {isOpen : Bool} {t : Typed}

theorem masked_spec {keys rest : Str} (h : getPasswordMasked 128 [] keys = some (password, rest)) :
    Printable password ∧ password.length ≤ 127 :=
  getPasswordMasked_spec h (fun _ hc => nomatch hc) (Nat.zero_le _)

theorem printable_nil : Printable [] ∧ ([] : Str).length ≤ 127 := ⟨fun _ hc => (nomatch hc), Nat.zero_le _⟩

theorem manual_allowed (hiface : r.iface = some iface) {iface' : Str}
    (h : .connectWifi iface' ssid password isOpen ∈ (manual iface t).1) :
    Allowed signal r iface' ssid password isOpen := by
  rw [manual] at h
  cases hssid : ask 64 t with
  | none =>
    rw [hssid] at h
    cases h
  | some answer =>
    obtain ⟨name, t₁⟩ := answer
    obtain ⟨hline, hlen⟩ := ask_spec hssid
    simp only [hssid] at h
    split_ifs at h with hempty
    · cases h
    cases hsec : ask 16 t₁ with
    | none =>
      simp only [hsec] at h
      cases h
    | some answer =>
      obtain ⟨hasSec, t₂⟩ := answer
      simp only [hsec] at h
      split_ifs at h with hyes
      · cases hkeys : getPasswordMasked 128 [] t₂.keys with
        | none =>
          simp only [hkeys] at h
          cases h
        | some answer =>
          obtain ⟨typed, keys⟩ := answer
          simp only [hkeys] at h
          cases List.mem_singleton.mp h
          exact ⟨hiface, masked_spec hkeys, fun hopen => (nomatch hopen), .inr ⟨hline, hempty, hlen⟩⟩
      · cases List.mem_singleton.mp h
        exact ⟨hiface, printable_nil, fun _ => rfl, .inr ⟨hline, hempty, hlen⟩⟩

theorem select_allowed (hiface : r.iface = some iface) {chosen : WifiNetwork}
    (hchosen : chosen ∈ r.networks signal iface) {iface' : Str}
    (h : .connectWifi iface' ssid password isOpen ∈ (select iface chosen t).1) :
    Allowed signal r iface' ssid password isOpen := by
  rw [select] at h
  split_ifs at h with hopen
  · cases List.mem_singleton.mp h
    exact ⟨hiface, printable_nil, fun _ => rfl, .inl ⟨chosen, hchosen, rfl, hopen, fun hne => nomatch hne⟩⟩
  · cases hkeys : getPasswordMasked 128 [] t.keys with
    | none =>
      simp only [hkeys] at h
      cases h
    | some answer =>
      obtain ⟨typed, keys⟩ := answer
      simp only [hkeys] at h
      split_ifs at h with hempty
      · cases h
      · cases List.mem_singleton.mp h
        exact ⟨hiface, masked_spec hkeys, fun hne => (nomatch hne),
          .inl ⟨chosen, hchosen, rfl, Bool.eq_false_of_not_eq_true hopen, fun _ => hempty⟩⟩

theorem withoutWifi_connects (h : .connectWifi iface ssid password isOpen ∈ (withoutWifi r t).1) : False := by
  rw [withoutWifi] at h
  cases hinput : ask 128 t with
  | none =>
    rw [hinput] at h
    cases h
  | some answer =>
    simp only [hinput] at h
    split_ifs at h
    · cases h
    · cases h
    · cases List.mem_singleton.mp h
    · cases hname : ask 64 answer.2 with
      | none =>
        simp only [hname] at h
        cases h
      | some name =>
        simp only [hname] at h
        cases h
    · cases h

theorem withWifi_allowed (hiface : r.iface = some iface) {iface' : Str}
    (h : .connectWifi iface' ssid password isOpen ∈ (withWifi signal iface r t).1) :
    Allowed signal r iface' ssid password isOpen := by
  rw [withWifi] at h
  cases hinput : ask 128 t with
  | none =>
    simp only [hinput] at h
    cases h
  | some answer =>
    simp only [hinput] at h
    split_ifs at h with hquit hagain hstatus hwired hmanual hchoice
    · cases h
    · cases h
    · cases List.mem_singleton.mp h
    · cases List.mem_singleton.mp h
    · exact manual_allowed hiface h
    · cases hchosen : (r.networks signal iface)[(atoi answer.1 - 1).toNat]? with
      | none =>
        simp only [hchosen] at h
        cases h
      | some chosen =>
        simp only [hchosen] at h
        exact select_allowed hiface (List.mem_of_getElem? hchosen) h
    · cases h

theorem menuRound_allowed (h : .connectWifi iface ssid password isOpen ∈ (menuRound signal r t).1) :
    Allowed signal r iface ssid password isOpen := by
  rw [menuRound] at h
  cases hiface : r.iface with
  | none =>
    rw [hiface] at h
    exact (withoutWifi_connects h).elim
  | some found =>
    rw [hiface] at h
    exact withWifi_allowed hiface h

theorem session_rounds (signal : Str → Option ℤ) (rounds : List Round) (t : Typed) :
    (session signal rounds t).map Prod.fst <+: rounds ∧
      ∀ done ∈ session signal rounds t, ∃ t', done.2 = (menuRound signal done.1 t').1 := by
  induction rounds generalizing t with
  | nil => exact ⟨List.prefix_refl _, fun done hdone => nomatch hdone⟩
  | cons r rounds ih =>
    rw [session]
    obtain ⟨actions, left, hround⟩ : ∃ actions left, menuRound signal r t = (actions, left) := ⟨_, _, rfl⟩
    have hhere : actions = (menuRound signal r t).1 := by rw [hround]
    rw [hround]
    cases left with
    | none =>
      refine ⟨(List.prefix_cons_inj r).mpr List.nil_prefix, fun done hdone => ?_⟩
      rw [List.mem_singleton.mp hdone]
      exact ⟨t, hhere⟩
    | some t' =>
      obtain ⟨hrounds, hdone⟩ := ih t'
      refine ⟨(List.prefix_cons_inj r).mpr hrounds, ?_⟩
      rw [List.forall_mem_cons]
      exact ⟨⟨t, hhere⟩, hdone⟩

theorem session_allowed {rounds : List Round} {actions : List Action} (hround : (r, actions) ∈ session signal rounds t)
    (h : .connectWifi iface ssid password isOpen ∈ actions) :
    r ∈ rounds ∧ Allowed signal r iface ssid password isOpen := by
  obtain ⟨hrounds, hdone⟩ := session_rounds signal rounds t
  obtain ⟨t', hactions⟩ := hdone _ hround
  have hin : .connectWifi iface ssid password isOpen ∈ (menuRound signal r t').1 := hactions ▸ h
  exact ⟨hrounds.subset (List.mem_map_of_mem hround), menuRound_allowed hin⟩

theorem menu_connects (signal : Str → Option ℤ) (rounds : List Round) (t : Typed) {r : Round} {actions : List Action}
    (hround : (r, actions) ∈ session signal rounds t) {iface ssid password : Str} {isOpen : Bool}
    (h : .connectWifi iface ssid password isOpen ∈ actions) :
    r.iface = some iface ∧ Printable password ∧ password.length ≤ 127 ∧ (isOpen = true → password = []) ∧
      ((∃ n ∈ r.networks signal iface, n.ssid = ssid ∧ n.isOpen = isOpen ∧ (isOpen = false → password ≠ [])) ∨
        OnLine ssid ∧ ssid ≠ [] ∧ ssid.length ≤ 63) := by
  obtain ⟨-, hdetected, ⟨hprint, hlen⟩, hunused, hnetwork⟩ := session_allowed hround h
  exact ⟨hdetected, hprint, hlen, hunused, hnetwork⟩

section Example

def quietRound : Round := ⟨some (bytes "wlan0"), false, none, none⟩

def homeRound : Round :=
  ⟨some (bytes "wlan1"), false, some (bytes "Cell 01\nESSID:\"home\"\nEncryption key:on\n"), none⟩

def chosenNetwork : Typed := ⟨bytes "m\ncafe\nn\n\n1\n\nq\n", bytes "secret\n"⟩

def typedConnection : Action := .connectWifi (bytes "wlan0") (bytes "cafe") [] true

def chosenConnection : Action := .connectWifi (bytes "wlan1") (bytes "home") (bytes "secret") false

theorem session_chosen : session (fun _ => none) [quietRound, homeRound, quietRound] chosenNetwork =
    [(quietRound, [typedConnection]), (homeRound, [chosenConnection]), (quietRound, [])] := by rfl

theorem menu_connects_home : ∃ n ∈ homeRound.networks (fun _ => none) (bytes "wlan1"), n.ssid = bytes "home" := by
  have hround : (homeRound, [chosenConnection]) ∈
      session (fun _ => none) [quietRound, homeRound, quietRound] chosenNetwork := by
    rw [session_chosen]
    simp
  obtain ⟨-, -, -, -, hnetwork⟩ := menu_connects (fun _ => none) _ chosenNetwork hround List.mem_cons_self
  rcases hnetwork with ⟨n, hn, hname, -⟩ | ⟨-, -, -⟩
  · exact ⟨n, hn, hname⟩
  · exact ⟨⟨bytes "home", 50, bytes "WEP", 1, false⟩, by decide, rfl⟩

end Example

/-! ### The names of a scan -/

theorem dropLast_subset_of_initial {u l : Str} (h : u <+: l) : u.dropLast ⊆ l.dropLast := by
  obtain ⟨v, rfl⟩ := h
  by_cases hv : v = []
  · rw [hv, List.append_nil]
    exact List.Subset.refl _
  · rw [List.dropLast_append_of_ne_nil hv]
    exact List.Subset.trans (List.dropLast_subset u) (List.subset_append_left _ _)

theorem dropLast_subset_of_final {u l : Str} (h : u <:+ l) : u.dropLast ⊆ l.dropLast := by
  obtain ⟨v, rfl⟩ := h
  by_cases hu : u = []
  · rw [hu]
    exact List.nil_subset _
  · rw [List.dropLast_append_of_ne_nil hu]
    exact List.subset_append_right _ _

theorem mem_readLines {size : ℕ} (hsize : 2 ≤ size) {s piece : Str} (h : piece ∈ readLines size s) :
    piece ⊆ s ∧ 0 ∉ piece ∧ NEWLINE ∉ piece.dropLast := by
  induction hn : s.length using Nat.strong_induction_on generalizing s with
  | _ n ih =>
    by_cases hs : s = []
    · rw [hs] at h
      cases h
    · rw [readLines_cons hsize hs] at h
      rcases List.mem_cons.mp h with rfl | h
      · have hinitial := cstr_initial (readLine (size - 1) s)
        refine ⟨fun c hc => (readLine_initial _ s).subset (hinitial.subset hc), zero_notMem_cstr _, fun hmem => ?_⟩
        exact newline_notMem_dropLast _ _ (dropLast_subset_of_initial hinitial hmem)
      · obtain ⟨hsubset, hzero, hnewline⟩ := ih _ (hn ▸ drop_readLine_lt hsize hs) h rfl
        exact ⟨fun c hc => List.mem_of_mem_drop (hsubset hc), hzero, hnewline⟩

theorem mem_ssidsFrom {header : Str → Bool} {name : Str → Option Str} {lines : List Str} {cur x : Str}
    (h : x ∈ ssidsFrom header name cur lines) : x = cur ∨ x = [] ∨ ∃ line ∈ lines, name line = some x := by
  induction lines generalizing cur with
  | nil => exact .inl (List.mem_singleton.mp h)
  | cons line lines ih =>
    rw [ssidsFrom] at h
    split_ifs at h with hheader
    · rcases List.mem_cons.mp h with rfl | h
      · exact .inl rfl
      · rcases ih h with h | h | ⟨l, hl, hx⟩
        · exact .inr (.inl h)
        · exact .inr (.inl h)
        · exact .inr (.inr ⟨l, List.mem_cons_of_mem line hl, hx⟩)
    · rcases ih h with hx | hx | ⟨l, hl, hx⟩
      · cases hname : name line with
        | none =>
          rw [hname] at hx
          exact .inl hx
        | some y =>
          rw [hname] at hx
          exact .inr (.inr ⟨line, List.mem_cons_self, hname.trans (congrArg some hx.symm)⟩)
      · exact .inr (.inl hx)
      · exact .inr (.inr ⟨l, List.mem_cons_of_mem line hl, hx⟩)

theorem mem_ssids {header : Str → Bool} {name : Str → Option Str} {lines : List Str} {x : Str}
    (h : x ∈ ssids header name lines) : x = [] ∨ ∃ line ∈ lines, name line = some x := by
  induction lines with
  | nil => cases h
  | cons line lines ih =>
    rw [ssids] at h
    have hmore (hx : x = [] ∨ ∃ l ∈ lines, name l = some x) : x = [] ∨ ∃ l ∈ line :: lines, name l = some x := by
      rcases hx with hx | ⟨l, hl, hx⟩
      · exact .inl hx
      · exact .inr ⟨l, List.mem_cons_of_mem line hl, hx⟩
    split_ifs at h with hheader
    · rcases mem_ssidsFrom h with hx | hx
      · exact .inl hx
      · exact hmore hx
    · exact hmore (ih h)

theorem essidOf_onLine {line x : Str} (hzero : 0 ∉ line) (hreturn : RETURN ∉ line) (hnewline : NEWLINE ∉ line.dropLast)
    (h : essidOf line = some x) : OnLine x ∧ x.length ≤ 63 := by
  rw [essidOf] at h
  cases hfound : strstr (bytes "ESSID:\"") line with
  | none =>
    rw [hfound] at h
    cases h
  | some i =>
    simp only [hfound] at h
    split_ifs at h with hquote
    obtain rfl := Option.some.inj h
    obtain ⟨u, v, huv, hu⟩ := List.eq_append_cons_of_mem hquote
    have htaken : (line.drop (i + 7)).takeWhile (· ≠ QUOTE) = u := by
      have hall : ∀ c ∈ u, decide (c ≠ QUOTE) = true := fun c hc => decide_eq_true fun h => hu (h ▸ hc)
      rw [huv, List.takeWhile_append_of_pos hall]
      simp
    have hinside : ∀ c ∈ u, c ∈ line := fun c hc => List.mem_of_mem_drop (huv ▸ List.mem_append_left _ hc)
    have hbefore : NEWLINE ∉ u := by
      intro hc
      apply hnewline
      apply dropLast_subset_of_final (List.drop_suffix (i + 7) line)
      rw [huv, List.dropLast_append_of_ne_nil (List.cons_ne_nil _ _)]
      exact List.mem_append_left _ hc
    rw [htaken]
    have htake : ∀ c ∈ u.take 63, c ∈ u := fun c hc => List.mem_of_mem_take hc
    exact ⟨⟨fun hc => hzero (hinside _ (htake _ hc)), fun hc => hreturn (hinside _ (htake _ hc)),
      fun hc => hbefore (htake _ hc)⟩, List.length_take_le _ _⟩

theorem iwSsidOf_onLine {line x : Str} (hzero : 0 ∉ line) (h : iwSsidOf line = some x) : OnLine x ∧ x.length ≤ 63 := by
  rw [iwSsidOf] at h
  split_ifs at h
  obtain rfl := Option.some.inj h
  have hclean := untilLineEnd_clean (line.drop 6)
  have htake : ∀ c ∈ (untilLineEnd (line.drop 6)).take 63, c ∈ untilLineEnd (line.drop 6) :=
    fun c hc => List.mem_of_mem_take hc
  refine ⟨⟨fun hc => ?_, fun hc => hclean.1 (htake _ hc), fun hc => hclean.2 (htake _ hc)⟩, List.length_take_le _ _⟩
  exact hzero (List.mem_of_mem_drop ((List.takeWhile_prefix _).subset (htake _ hc)))

theorem mem_of_mem_collectAny {maxNets : ℕ} {names : List Str} {x : Str} (h : x ∈ collectAny maxNets names) :
    x ∈ names := by
  have hlisted (h : x ∈ roster [] maxNets names.dropLast) : x ∈ names :=
    List.dropLast_subset _ (mem_of_mem_roster h).1
  rw [collectAny] at h
  cases hlast : names.getLast? with
  | none =>
    rw [hlast] at h
    exact hlisted h
  | some last =>
    simp only [hlast] at h
    split_ifs at h
    · exact hlisted h
    · rcases List.mem_append.mp h with h | h
      · exact hlisted h
      · rw [List.mem_singleton.mp h]
        exact List.mem_of_getLast? hlast

theorem networks_onLine {iface : Str} {n : WifiNetwork} (hscan : ∀ scan ∈ r.iwlist, RETURN ∉ scan)
    (h : n ∈ r.networks signal iface) : OnLine n.ssid ∧ n.ssid.length ≤ 63 := by
  have hnil : OnLine [] ∧ ([] : Str).length ≤ 63 :=
    ⟨⟨List.not_mem_nil, List.not_mem_nil, List.not_mem_nil⟩, Nat.zero_le _⟩
  by_cases hiface : iface = []
  · rw [Round.networks, scanWifiNetworks, if_pos hiface] at h
    cases h
  have hname : n.ssid ∈ (r.networks signal iface).map WifiNetwork.ssid := List.mem_map_of_mem h
  rw [Round.networks, scanWifiNetworks_names signal MAX_NETWORKS hiface] at hname
  split_ifs at hname with hnames
  · have hmem := (mem_of_mem_roster hname).1
    rcases mem_ssids hmem with hx | ⟨line, hline, hx⟩
    · rw [hx]
      exact hnil
    · obtain ⟨piece, hpiece, rfl⟩ := List.mem_map.mp hline
      obtain ⟨hsubset, hzero, hnewline⟩ := mem_readLines (by decide) hpiece
      have hsuffix : piece.dropWhile isBlank <:+ piece := List.dropWhile_suffix _
      apply essidOf_onLine (fun hc => hzero (hsuffix.subset hc)) (fun hc => ?_)
        (fun hc => hnewline (dropLast_subset_of_final hsuffix hc)) hx
      have hreturn := hsubset (hsuffix.subset hc)
      cases hfile : r.iwlist with
      | none =>
        rw [hfile] at hreturn
        cases hreturn
      | some scan =>
        rw [hfile] at hreturn
        exact hscan scan hfile hreturn
  · rcases mem_ssidsFrom (mem_of_mem_collectAny hname) with hx | hx | ⟨line, hline, hx⟩
    · rw [hx]
      exact hnil
    · rw [hx]
      exact hnil
    · obtain ⟨piece, hpiece, rfl⟩ := List.mem_map.mp hline
      obtain ⟨-, hzero, -⟩ := mem_readLines (by decide) hpiece
      exact iwSsidOf_onLine (fun hc => hzero ((List.dropWhile_suffix _).subset hc)) hx

/-! ### What a session saves -/

theorem pskEntry_short {password : Str} (h : Printable password ∧ password.length ≤ 127) :
    ∀ piece ∈ readLines 256 (pskEntry password), ¬bytes "SSID=" <+: piece := by
  obtain ⟨hprint, hlen⟩ := h
  have hall (c : UInt8) (hc : ¬(32 ≤ c ∧ c ≤ 126)) (hpsk : c ∉ bytes "PSK=") : c ∉ bytes "PSK=" ++ password := by
    rw [List.mem_append, not_or]
    exact ⟨hpsk, fun hmem => hc (hprint c hmem)⟩
  have hline : NEWLINE ∉ bytes "PSK=" ++ password := hall _ (by decide) (by decide)
  have hzero : 0 ∉ bytes "PSK=" ++ password := hall _ (by decide) (by decide)
  have hlength : (bytes "PSK=" ++ password).length = 4 + password.length := by rw [List.length_append]; rfl
  have hread : readLines 256 (pskEntry password) = [cstr (bytes "PSK=" ++ password ++ [NEWLINE])] :=
    readLines_line hline (by omega) []
  rw [hread, List.forall_mem_singleton, cstr_of_notMem]
  · rintro ⟨rest, hrest⟩
    cases hrest
  · rw [List.mem_append, not_or]
    exact ⟨hzero, by decide⟩

theorem legible_of_allowed (hscan : ∀ scan ∈ r.iwlist, RETURN ∉ scan)
    (h : Allowed signal r iface ssid password isOpen) : 0 ∉ ssid ∧ Legible ⟨ssid, password, isOpen⟩ := by
  have hssid : OnLine ssid ∧ ssid.length ≤ 63 := by
    rcases h.network with ⟨n, hn, rfl, -⟩ | ⟨hline, -, hlen⟩
    · exact networks_onLine hscan hn
    · exact ⟨hline, hlen⟩
  obtain ⟨⟨hzero, hline⟩, hlen⟩ := hssid
  exact ⟨hzero, hline, hlen.trans (by decide), fun _ => pskEntry_short h.printable⟩

def shown (file : Option Str) (profiles : List Profile) : Option (List Str) :=
  if file = none ∧ profiles = [] then none else some (savedSsids (file.getD []) ++ profiles.map Profile.ssid)

theorem shown_saved {file : Option Str} {profiles : List Profile}
    (hends : ∀ s ∈ file, s = [] ∨ s.getLast? = some NEWLINE)
    (hprofiles : ∀ p ∈ profiles, 0 ∉ p.ssid ∧ Legible p) :
    (if profiles = [] then file else some (file.getD [] ++ (profiles.map entry).flatten)).map savedSsids =
      shown file profiles := by
  have hsaved := (savedSsids_saved_iff (file_ends hends) fun p hp => (hprofiles p hp).1).mpr
    fun p hp => (hprofiles p hp).2
  rw [shown]
  by_cases hnil : profiles = []
  · rw [if_pos hnil]
    cases file with
    | none => rw [if_pos ⟨rfl, hnil⟩, Option.map_none]
    | some s => simp [hnil]
  · rw [if_neg hnil, if_neg fun h => hnil h.2, Option.map_some, hsaved]

theorem menu_listed (signal : Str → Option ℤ) (rounds : List Round) (t : Typed) {h : Histories} {saves : List Save}
    (hsaves : saves.map Prod.snd = (menu signal rounds t).filterMap Action.profile)
    (hends : ∀ s ∈ h.history, s = [] ∨ s.getLast? = some NEWLINE)
    (hends' : ∀ s ∈ h.legacy, s = [] ∨ s.getLast? = some NEWLINE)
    (hscan : ∀ r ∈ rounds, ∀ scan ∈ r.iwlist, RETURN ∉ scan) :
    listSavedProfiles (saveAll saves h) = (shown h.history (recorded saves)).or (shown h.legacy (leftOver saves)) := by
  have hlegible : ∀ save ∈ saves, 0 ∉ save.2.ssid ∧ Legible save.2 := by
    intro save hsave
    have hp := hsaves ▸ List.mem_map_of_mem (f := Prod.snd) hsave
    obtain ⟨action, haction, hprofile⟩ := List.mem_filterMap.mp hp
    obtain ⟨⟨r, actions⟩, hround, haction⟩ := List.mem_flatMap.mp haction
    cases action with
    | connectWifi iface ssid password isOpen =>
      rw [← Option.some.inj hprofile]
      obtain ⟨hr, hallowed⟩ := session_allowed hround haction
      exact legible_of_allowed (hscan r hr) hallowed
    | configureWired => cases hprofile
    | status => cases hprofile
  have hfirst : ∀ p ∈ recorded saves, 0 ∉ p.ssid ∧ Legible p := by
    intro p hp
    obtain ⟨save, hsave, rfl⟩ := List.mem_map.mp hp
    exact hlegible save (List.mem_of_mem_filter hsave)
  have hlegacy : ∀ p ∈ leftOver saves, 0 ∉ p.ssid ∧ Legible p := by
    intro p hp
    obtain ⟨save, hsave, rfl⟩ := List.mem_map.mp hp
    exact hlegible save (List.mem_of_mem_filter hsave)
  rw [listSavedProfiles, saveAll_history, saveAll_legacy, ← shown_saved hends hfirst, ← shown_saved hends' hlegacy,
    Option.map_or]

theorem menu_listed_home :
    let legacy := bytes "SSID=old\nSECURITY=Open\n\n"
    let saves : List Save :=
      [((false, true), ⟨bytes "cafe", [], true⟩), ((true, true), ⟨bytes "home", bytes "secret", false⟩)]
    listSavedProfiles (saveAll (saves.take 1) ⟨none, some legacy⟩) = some [bytes "old", bytes "cafe"] ∧
      listSavedProfiles (saveAll saves ⟨none, some legacy⟩) = some [bytes "home"] := by
  intro legacy saves
  have hlisted := @menu_listed (fun _ => none) [quietRound, homeRound, quietRound] chosenNetwork ⟨none, some legacy⟩
    saves (by rw [menu, session_chosen]; rfl) (fun _ hs => nomatch hs) (by decide) (by decide)
  refine ⟨by decide, hlisted.trans ?_⟩
  decide

end JurkOS.Userland.Wifi
