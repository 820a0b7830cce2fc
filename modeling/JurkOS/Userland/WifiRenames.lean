import JurkOS.Lib.Markup
import JurkOS.Userland.WifiRepeats
import Mathlib.Logic.Equiv.Basic

/-!
Two scans that differ in the name of one network: the list is the same up to that
name only where the line with the name says nothing else by it.
-/

namespace JurkOS.Userland.Wifi

open Lib.Libc Lib.Roster

/-! ### The cell of a line -/

def ownLines (lines : List Str) : List Str := (lines.map (·.dropWhile isBlank)).takeWhile (!isCell ·)

def closeCell (cur : WifiNetwork) (lines : List Str) : WifiNetwork := (ownLines lines).foldl iwlistFields cur

section

variable {cur c : WifiNetwork} {cells networks : List WifiNetwork} {lines before : List Str} {maxNets : ℕ}

theorem ownLines_cons (line : Str) (lines : List Str) : ownLines (line :: lines) =
    if isCell (line.dropWhile isBlank) then [] else line.dropWhile isBlank :: ownLines lines := by
  rw [ownLines, List.map_cons, List.takeWhile_cons]
  cases isCell (line.dropWhile isBlank) <;> rfl

theorem cellsFrom_eq : cellsFrom cur lines = closeCell cur lines :: iwlistCells lines := by
  induction lines generalizing cur with
  | nil => rfl
  | cons line lines ih =>
    rw [cellsFrom, iwlistCells, closeCell, ownLines_cons]
    split_ifs
    · rfl
    · exact ih

theorem cellsFrom_append (h : cellsFrom c before = cells ++ [cur]) (lines : List Str) :
    cellsFrom c (before ++ lines) = cells ++ cellsFrom cur lines := by
  induction before generalizing c cells with
  | nil =>
    cases cells with
    | nil =>
      obtain rfl := (List.cons.inj h).1
      rfl
    | cons d cells => exact absurd (List.cons.inj h).2 (by simp)
  | cons line before ih =>
    rw [cellsFrom] at h
    rw [List.cons_append, cellsFrom]
    by_cases hcell : isCell (line.dropWhile isBlank)
    · simp only [hcell, if_true] at h ⊢
      cases cells with
      | nil => exact absurd (List.cons.inj h).2 cellsFrom_ne_nil
      | cons d cells =>
        obtain ⟨rfl, hrest⟩ := List.cons.inj h
        rw [ih hrest]
        rfl
    · simp only [hcell] at h ⊢
      exact ih h

theorem iwlistCells_append (h : iwlistCells before = cells ++ [cur]) (lines : List Str) :
    iwlistCells (before ++ lines) = cells ++ cellsFrom cur lines := by
  induction before with
  | nil => cases cells <;> cases h
  | cons line before ih =>
    rw [iwlistCells] at h
    rw [List.cons_append, iwlistCells]
    by_cases hcell : isCell (line.dropWhile isBlank)
    · simp only [hcell, if_true] at h ⊢
      exact cellsFrom_append h lines
    · simp only [hcell] at h ⊢
      exact ih h

theorem closeCell_ssid (h : ∀ p ∈ ownLines lines, essidOf p = none) : (closeCell cur lines).ssid = cur.ssid := by
  rw [closeCell]
  revert h
  induction ownLines lines generalizing cur with
  | nil => exact fun _ => rfl
  | cons p rest ih =>
    intro h
    rw [List.forall_mem_cons] at h
    rw [List.foldl_cons, ih h.2, iwlistFields_ssid, h.1]
    rfl

end

/-! ### Other names -/

def WifiNetwork.rename (e : Equiv.Perm Str) (c : WifiNetwork) : WifiNetwork := { c with ssid := e c.ssid }

section

variable {e : Equiv.Perm Str} {maxNets : ℕ} {networks cells : List WifiNetwork} {c : WifiNetwork}

theorem rename_ssid_eq_nil (he : e [] = []) : (c.rename e).ssid = [] ↔ c.ssid = [] := by
  change e c.ssid = [] ↔ _
  rw [← he, e.apply_eq_iff_eq, he]

theorem enterNew_rename (he : e [] = []) : enterNew maxNets (networks.map (WifiNetwork.rename e)) (c.rename e) =
    (enterNew maxNets networks c).map (WifiNetwork.rename e) := by
  have hnew : (∀ n ∈ networks.map (WifiNetwork.rename e), n.ssid ≠ (c.rename e).ssid) ↔
      ∀ n ∈ networks, n.ssid ≠ c.ssid := by
    rw [List.forall_mem_map]
    exact forall₂_congr fun n _ => not_congr e.apply_eq_iff_eq
  unfold enterNew
  simp only [ne_eq, rename_ssid_eq_nil he, List.length_map, hnew]
  split_ifs
  · rw [List.map_append]
    rfl
  · rfl

theorem enter_rename (he : e [] = []) : enter maxNets (networks.map (WifiNetwork.rename e)) (c.rename e) =
    (enter maxNets networks c).map (WifiNetwork.rename e) := by
  have hfind : (networks.map (WifiNetwork.rename e)).findIdx? (·.ssid = (c.rename e).ssid) =
      networks.findIdx? (·.ssid = c.ssid) := by
    rw [List.findIdx?_map]
    congr 1
    funext n
    exact decide_eq_decide.mpr e.apply_eq_iff_eq
  unfold enter
  rw [hfind, List.length_map]
  by_cases hnil : c.ssid = []
  · rw [if_pos ((rename_ssid_eq_nil he).mpr hnil), if_pos hnil]
  · rw [if_neg (mt (rename_ssid_eq_nil he).mp hnil), if_neg hnil]
    cases networks.findIdx? (·.ssid = c.ssid) with
    | none =>
      dsimp only
      split_ifs
      · rw [List.map_append]
        rfl
      · rfl
    | some i =>
      apply List.ext_getElem?
      intro j
      dsimp only
      rw [List.getElem?_modify, List.getElem?_map, List.getElem?_map, List.getElem?_modify]
      cases networks[j]? with
      | none => rfl
      | some old =>
        by_cases hij : i = j
        · simp only [hij, if_true, Option.map_eq_map, Option.map_some]
          exact congrArg some (apply_ite (WifiNetwork.rename e) (c.signalPct > old.signalPct) c old).symm
        · simp [hij]

theorem tabulate_rename (he : e [] = []) (networks : List WifiNetwork) :
    tabulate maxNets (enter maxNets) (enterNew maxNets) (networks.map (WifiNetwork.rename e))
        (cells.map (WifiNetwork.rename e)) =
      (tabulate maxNets (enter maxNets) (enterNew maxNets) networks cells).map (WifiNetwork.rename e) := by
  induction cells generalizing networks with
  | nil => rfl
  | cons c cells ih =>
    cases cells with
    | nil => exact enterNew_rename he
    | cons d cells =>
      rw [List.map_cons, List.map_cons, tabulate, tabulate, List.length_map]
      split_ifs
      · rw [enter_rename he]
        exact ih _
      · rfl

end

/-! ### What a line says -/

def noWpa (security : Str) : Prop := security = bytes "Open" ∨ security = bytes "WEP"

def keyOff (p : Str) : Prop := strstr (bytes "Encryption key:off") p ≠ none

def keyOn (p : Str) : Prop := strstr (bytes "Encryption key:on") p ≠ none

instance : DecidablePred keyOff := fun p => inferInstanceAs (Decidable (strstr _ p ≠ none))

instance : DecidablePred keyOn := fun p => inferInstanceAs (Decidable (strstr _ p ≠ none))

structure SameClass (cur : WifiNetwork) (p q : Str) (rest : List Str) : Prop where
  channel : (channelOf p).getD cur.channel = (channelOf q).getD cur.channel ∨ ∃ l ∈ rest, channelOf l ≠ none
  signalPct : (signalOf p).getD cur.signalPct = (signalOf q).getD cur.signalPct ∨ ∃ l ∈ rest, signalOf l ≠ none
  security : (wpaStep p (keyStep p cur)).security = (wpaStep q (keyStep q cur)).security ∨
    (∃ l ∈ rest, keyOff l ∨ wpaOf l ≠ none) ∨
    noWpa (wpaStep p (keyStep p cur)).security ∧ noWpa (wpaStep q (keyStep q cur)).security ∧ ∃ l ∈ rest, keyOn l

def Plain (c : WifiNetwork) : Prop := c.isOpen = decide (c.security = bytes "Open")

def securityAfter (p security : Str) : Str :=
  match wpaOf p with
  | some wpa => wpa
  | none =>
    if keyOff p then bytes "Open"
    else if keyOn p ∧ security = bytes "Open" then bytes "WEP"
    else security

section

variable {a b c cur : WifiNetwork} {p q : Str} {rest lines : List Str}

theorem wpaOf_ne_open {wpa : Str} (h : wpaOf p = some wpa) : wpa ≠ bytes "Open" := by
  unfold wpaOf at h
  split_ifs at h
  all_goals
    obtain rfl := Option.some.inj h
    decide

theorem keyStep_eq (p : Str) (c : WifiNetwork) : keyStep p c =
    if keyOff p then { c with isOpen := true, security := bytes "Open" }
    else if keyOn p then if c.isOpen then { c with isOpen := false, security := bytes "WEP" } else c
    else c := rfl

theorem guardSteps (hc : Plain c) : (wpaStep p (keyStep p c)).security = securityAfter p c.security ∧
    Plain (wpaStep p (keyStep p c)) := by
  have hopen : c.isOpen = true ↔ c.security = bytes "Open" := by rw [hc, decide_eq_true_eq]
  unfold wpaStep securityAfter
  cases hwpa : wpaOf p with
  | some wpa => exact ⟨rfl, (decide_eq_false (wpaOf_ne_open hwpa)).symm⟩
  | none =>
    dsimp only
    rw [keyStep_eq]
    by_cases hoff : keyOff p
    · rw [if_pos hoff, if_pos hoff]
      exact ⟨rfl, rfl⟩
    · rw [if_neg hoff, if_neg hoff]
      by_cases hon : keyOn p
      · by_cases hsec : c.security = bytes "Open"
        · rw [if_pos hon, if_pos (hopen.mpr hsec), if_pos ⟨hon, hsec⟩]
          exact ⟨rfl, rfl⟩
        · rw [if_pos hon, if_neg (mt hopen.mp hsec), if_neg fun h => hsec h.2]
          exact ⟨rfl, hc⟩
      · rw [if_neg hon, if_neg fun h => hon h.1]
        exact ⟨rfl, hc⟩

theorem iwlistFields_security (hc : Plain c) (p : Str) :
    (iwlistFields c p).security = securityAfter p c.security ∧ Plain (iwlistFields c p) :=
  guardSteps (c := { c with
    ssid := (essidOf p).getD c.ssid
    channel := (channelOf p).getD c.channel
    signalPct := (signalOf p).getD c.signalPct }) hc

theorem keyStep_channel : (keyStep p c).channel = c.channel ∧ (keyStep p c).signalPct = c.signalPct := by
  unfold keyStep
  split_ifs <;> exact ⟨rfl, rfl⟩

theorem wpaStep_channel : (wpaStep p c).channel = c.channel ∧ (wpaStep p c).signalPct = c.signalPct := by
  unfold wpaStep
  cases wpaOf p with
  | none => exact ⟨rfl, rfl⟩
  | some wpa => exact ⟨rfl, rfl⟩

theorem iwlistFields_channel (c : WifiNetwork) (p : Str) :
    (iwlistFields c p).channel = (channelOf p).getD c.channel := by
  rw [iwlistFields, wpaStep_channel.1, keyStep_channel.1]

theorem iwlistFields_signalPct (c : WifiNetwork) (p : Str) :
    (iwlistFields c p).signalPct = (signalOf p).getD c.signalPct := by
  rw [iwlistFields, wpaStep_channel.2, keyStep_channel.2]

theorem foldl_getD_eq_iff {S T : Type} {step : S → Str → S} {get : S → T} {f : Str → Option T}
    (hstep : ∀ s p, get (step s p) = (f p).getD (get s)) (s t : S) (lines : List Str) :
    get (lines.foldl step s) = get (lines.foldl step t) ↔ get s = get t ∨ ∃ l ∈ lines, f l ≠ none := by
  induction lines generalizing s t with
  | nil => simp
  | cons p lines ih =>
    rw [List.foldl_cons, List.foldl_cons, ih, hstep, hstep, List.exists_mem_cons_iff]
    cases f p with
    | none => simp
    | some v => simp

theorem plain_foldl (hc : Plain c) (lines : List Str) : Plain (lines.foldl iwlistFields c) := by
  induction lines generalizing c with
  | nil => exact hc
  | cons p lines ih => exact ih (iwlistFields_security hc p).2

theorem plain_of_mem_cells (h : c ∈ iwlistCells lines) : Plain c := by
  induction lines with
  | nil => cases h
  | cons line lines ih =>
    rw [iwlistCells] at h
    split_ifs at h
    · rw [cellsFrom_eq, List.mem_cons] at h
      rcases h with rfl | h
      · exact plain_foldl (show Plain iwlistFresh from rfl) _
      · exact ih h
    · exact ih h

theorem securityAfter_sets (h : keyOff p ∨ wpaOf p ≠ none) (s t : Str) : securityAfter p s = securityAfter p t := by
  unfold securityAfter
  cases hwpa : wpaOf p with
  | some wpa => rfl
  | none =>
    have hoff : keyOff p := h.resolve_right fun hne => hne hwpa
    exact (if_pos hoff).trans (if_pos hoff).symm

theorem securityAfter_keeps (h : ¬(keyOff p ∨ wpaOf p ≠ none)) (s : Str) :
    securityAfter p s = if keyOn p ∧ s = bytes "Open" then bytes "WEP" else s := by
  rw [not_or, not_not] at h
  rw [securityAfter, h.2]
  exact if_neg h.1

theorem securityAfter_eq_iff (p s t : Str) : securityAfter p s = securityAfter p t ↔
    s = t ∨ (keyOff p ∨ wpaOf p ≠ none) ∨ noWpa s ∧ noWpa t ∧ keyOn p := by
  by_cases hsets : keyOff p ∨ wpaOf p ≠ none
  · exact iff_of_true (securityAfter_sets hsets s t) (.inr (.inl hsets))
  · rw [securityAfter_keeps hsets, securityAfter_keeps hsets, or_iff_right hsets]
    have hne : bytes "Open" ≠ bytes "WEP" := by decide
    unfold noWpa
    by_cases hon : keyOn p
    · by_cases hs : s = bytes "Open"
      · by_cases ht : t = bytes "Open"
        · simp [hs, ht]
        · rw [if_pos ⟨hon, hs⟩, if_neg fun h => ht h.2]
          constructor
          · exact fun h => .inr ⟨.inl hs, .inr h.symm, hon⟩
          · rintro (h | ⟨-, h, -⟩)
            · exact absurd (h ▸ hs) ht
            · exact (h.resolve_left ht).symm
      · by_cases ht : t = bytes "Open"
        · rw [if_neg fun h => hs h.2, if_pos ⟨hon, ht⟩]
          constructor
          · exact fun h => .inr ⟨.inr h, .inl ht, hon⟩
          · rintro (h | ⟨h, -, -⟩)
            · exact absurd (h ▸ ht) hs
            · exact h.resolve_left hs
        · rw [if_neg fun h => hs h.2, if_neg fun h => ht h.2]
          constructor
          · exact .inl
          · rintro (h | ⟨h, h', -⟩)
            · exact h
            · rw [h.resolve_left hs, h'.resolve_left ht]
    · simp [hon]

theorem noWpa_securityAfter {s : Str} (h : ¬(keyOff p ∨ wpaOf p ≠ none)) :
    noWpa (securityAfter p s) ↔ noWpa s := by
  rw [securityAfter_keeps h]
  split_ifs with hopen
  · exact iff_of_true (.inr rfl) (.inl hopen.2)
  · rfl

theorem foldl_security_eq_iff (ha : Plain a) (hb : Plain b) (lines : List Str) :
    (lines.foldl iwlistFields a).security = (lines.foldl iwlistFields b).security ↔
      a.security = b.security ∨ (∃ l ∈ lines, keyOff l ∨ wpaOf l ≠ none) ∨
        noWpa a.security ∧ noWpa b.security ∧ ∃ l ∈ lines, keyOn l := by
  induction lines generalizing a b with
  | nil => simp
  | cons p lines ih =>
    obtain ⟨hp, ha'⟩ := iwlistFields_security ha p
    obtain ⟨hq, hb'⟩ := iwlistFields_security hb p
    rw [List.foldl_cons, List.foldl_cons, ih ha' hb', hp, hq, securityAfter_eq_iff, List.exists_mem_cons_iff,
      List.exists_mem_cons_iff]
    by_cases hsets : keyOff p ∨ wpaOf p ≠ none
    · simp [hsets]
    · rw [noWpa_securityAfter hsets, noWpa_securityAfter hsets]
      simp only [hsets, false_or, and_or_left, or_assoc]
      rw [or_left_comm (a := _ ∧ _ ∧ keyOn p)]

end

/-! ### One name replaced -/

def lineOf (lead tail z : Str) : Str := lead ++ (bytes "ESSID:\"" ++ (z ++ QUOTE :: tail))

def partOf (lead tail z : Str) : Str := (lineOf lead tail z).dropWhile isBlank

structure SameBut (x y : Str) (a b : WifiNetwork) : Prop where
  signalPct : a.signalPct = b.signalPct
  channel : a.channel = b.channel
  security : a.security = b.security
  isOpen : a.isOpen = b.isOpen
  ssid : a.ssid = b.ssid ∨ a.ssid = x ∧ b.ssid = y

def tableOf (maxNets : ℕ) (lines : List Str) : List WifiNetwork :=
  tabulate maxNets (enter maxNets) (enterNew maxNets) [] (iwlistCells lines)

section

variable {cur a b c d : WifiNetwork} {cells networks rest X Y : List WifiNetwork} {lines before after : List Str}
  {maxNets : ℕ} {lead tail x y z : Str} {names names' : List Str}

theorem essidOf_partOf (hlead : ¬bytes "ESSID:\"" <:+: lead) (hz : QUOTE ∉ z) :
    essidOf (partOf lead tail z) = some (z.take 63) := by
  have hpart : partOf lead tail z = lead.dropWhile isBlank ++ (bytes "ESSID:\"" ++ (z ++ QUOTE :: tail)) :=
    dropWhile_stop rfl lead _
  have hnone : strstr (bytes "ESSID:\"") (lead.dropWhile isBlank) = none := by
    apply strstr_eq_none_iff_infix.mpr
    exact fun h => hlead (h.trans (List.dropWhile_suffix _).isInfix)
  have hfirst : strstr (bytes "ESSID:\"") (partOf lead tail z) = some (lead.dropWhile isBlank).length := by
    have hhere : strstr (bytes "ESSID:\"") (bytes "ESSID:\"" ++ (z ++ QUOTE :: tail)) = some 0 := by
      rw [strstr_eq_some_iff (by decide)]
      exact ⟨List.prefix_append _ _, fun j hj => absurd hj (Nat.not_lt_zero j)⟩
    have happend := Lib.Markup.strstr_append (m := 0x45) (q := bytes "SSID:\"") (A := lead.dropWhile isBlank)
      (B := bytes "ESSID:\"" ++ (z ++ QUOTE :: tail)) (by decide) rfl
    rw [hpart]
    apply happend.trans
    change (strstr (bytes "ESSID:\"") _).or ((strstr (bytes "ESSID:\"") _).map _) = _
    rw [hnone, hhere, Option.none_or, Option.map_some, Nat.zero_add]
  have hname : (partOf lead tail z).drop ((lead.dropWhile isBlank).length + 7) = z ++ QUOTE :: tail := by
    rw [hpart, ← List.drop_drop, List.drop_left]
    rfl
  rw [essidOf, hfirst]
  dsimp only
  rw [hname, if_pos (by simp), List.takeWhile_append_of_pos]
  · simp
  · intro c hc
    rw [decide_eq_true_eq]
    rintro rfl
    exact hz hc

theorem distinct_old_cell (hc : c.ssid = [] ∨ c.ssid ∈ (cells ++ rest).map WifiNetwork.ssid) :
    distinct [] ((cells ++ c :: rest).map WifiNetwork.ssid) = distinct [] ((cells ++ rest).map WifiNetwork.ssid) := by
  rw [List.map_append] at hc ⊢
  rw [List.map_cons, distinct_middle, distinct_old hc, List.map_append]

theorem distinct_new_cell (hc : c.ssid = y) (hy : y ≠ []) (hother : ∀ d ∈ cells ++ rest, d.ssid ≠ y) :
    distinct [] ((cells ++ c :: rest).map WifiNetwork.ssid) =
      distinct [] ((cells ++ rest).map WifiNetwork.ssid) + 1 := by
  have hnew : y ∉ (cells ++ rest).map WifiNetwork.ssid := by
    rw [List.mem_map]
    exact fun ⟨d, hd, heq⟩ => hother d hd heq
  rw [List.map_append] at hnew ⊢
  rw [List.map_cons, hc, distinct_middle, distinct_new hy hnew, List.map_append]

theorem mem_enter (h : c ∈ enter maxNets networks d) : c ∈ networks ∨ c = d := by
  unfold enter at h
  by_cases hnil : d.ssid = []
  · rw [if_pos hnil] at h
    exact .inl h
  · rw [if_neg hnil] at h
    cases hi : networks.findIdx? (·.ssid = d.ssid) with
    | none =>
      simp only [hi] at h
      split_ifs at h
      · simpa using h
      · exact .inl h
    | some i =>
      simp only [hi] at h
      obtain ⟨j, hj⟩ := List.mem_iff_getElem?.mp h
      rw [List.getElem?_modify] at hj
      cases hold : networks[j]? with
      | none => simp [hold] at hj
      | some old =>
        have hmem := List.mem_of_getElem? hold
        by_cases hij : i = j
        · simp only [hold, hij, if_true, Option.map_eq_map, Option.map_some, Option.some.injEq] at hj
          split_ifs at hj
          · exact .inr hj.symm
          · exact .inl (hj ▸ hmem)
        · simp only [hold, hij, if_false, Option.map_eq_map, Option.map_some, Option.some.injEq] at hj
          exact .inl (hj ▸ hmem)

theorem mem_enterNew (h : c ∈ enterNew maxNets networks d) : c ∈ networks ∨ c = d := by
  unfold enterNew at h
  split_ifs at h
  · simpa using h
  · exact .inl h

theorem mem_tabulate (h : c ∈ tabulate maxNets (enter maxNets) (enterNew maxNets) networks cells) :
    c ∈ networks ∨ c ∈ cells := by
  induction cells generalizing networks with
  | nil => exact .inl h
  | cons d cells ih =>
    rw [List.mem_cons, ← or_assoc]
    by_cases hne : cells = []
    · subst hne
      exact .inl (mem_enterNew h)
    · by_cases hroom : networks.length < maxNets
      · rw [tabulate_cons hne hroom] at h
        exact (ih h).imp_left mem_enter
      · rw [tabulate_full hroom fun c => enterNew_full hroom] at h
        exact .inl (.inl h)

theorem tabulate_congr (hX : X ≠ []) (hY : Y ≠ [])
    (h : ∀ networks, tabulate maxNets (enter maxNets) (enterNew maxNets) networks X =
      tabulate maxNets (enter maxNets) (enterNew maxNets) networks Y) :
    tabulate maxNets (enter maxNets) (enterNew maxNets) networks (cells ++ X) =
      tabulate maxNets (enter maxNets) (enterNew maxNets) networks (cells ++ Y) := by
  induction cells generalizing networks with
  | nil => exact h networks
  | cons c cells ih =>
    by_cases hroom : networks.length < maxNets
    · rw [List.cons_append, List.cons_append, tabulate_cons (by simp [hX]) hroom, tabulate_cons (by simp [hY]) hroom,
        ih]
    · rw [tabulate_full hroom fun c => enterNew_full hroom, tabulate_full hroom fun c => enterNew_full hroom]

theorem SameBut.refl (a : WifiNetwork) : SameBut x y a a := ⟨rfl, rfl, rfl, rfl, .inl rfl⟩

theorem distinct_eq_of_same {R : WifiNetwork → WifiNetwork → Prop} {lines' : List Str}
    (h : ∀ maxNets, List.Forall₂ R (tableOf maxNets lines) (tableOf maxNets lines')) :
    distinct [] ((iwlistCells lines).map WifiNetwork.ssid) =
      distinct [] ((iwlistCells lines').map WifiNetwork.ssid) := by
  have hlen (maxNets : ℕ) (lines : List Str) : (tableOf maxNets lines).length =
      min maxNets (distinct [] ((iwlistCells lines).map WifiNetwork.ssid)) := by
    rw [← List.length_map (f := WifiNetwork.ssid), tableOf, tabulate_names, length_roster]
  have heq := (h (distinct [] ((iwlistCells lines).map WifiNetwork.ssid) +
    distinct [] ((iwlistCells lines').map WifiNetwork.ssid))).length_eq
  rw [hlen, hlen] at heq
  omega

theorem exists_mem_tableOf (hc : c ∈ iwlistCells lines) (hne : c.ssid ≠ []) :
    ∃ n ∈ tableOf (distinct [] ((iwlistCells lines).map WifiNetwork.ssid) + 1) lines, n.ssid = c.ssid := by
  apply List.mem_map.mp
  rw [tableOf, tabulate_names]
  apply mem_roster
  · rw [length_roster]
    omega
  · exact List.mem_map_of_mem hc
  · exact hne

/-! ### The cell with either name -/

theorem iwlistCells_lineOf (hcell : iwlistCells before = cells ++ [cur]) (lead tail z : Str) (after : List Str) :
    iwlistCells (before ++ lineOf lead tail z :: after) =
      if isCell (partOf lead tail z) then cells ++ cur :: closeCell iwlistFresh after :: iwlistCells after
      else cells ++ closeCell (iwlistFields cur (partOf lead tail z)) after :: iwlistCells after := by
  rw [iwlistCells_append hcell, cellsFrom]
  change (cells ++ if isCell (partOf lead tail z) then _ else _) = _
  split_ifs
  · rw [cellsFrom_eq]
  · rw [cellsFrom_eq]
    rfl

theorem sameClass_iff (hcur : Plain cur) (p q : Str) (after : List Str) : SameClass cur p q (ownLines after) ↔
    (closeCell (iwlistFields cur p) after).channel = (closeCell (iwlistFields cur q) after).channel ∧
      (closeCell (iwlistFields cur p) after).signalPct = (closeCell (iwlistFields cur q) after).signalPct ∧
      (closeCell (iwlistFields cur p) after).security = (closeCell (iwlistFields cur q) after).security := by
  unfold closeCell
  rw [foldl_getD_eq_iff iwlistFields_channel, foldl_getD_eq_iff iwlistFields_signalPct,
    foldl_security_eq_iff (iwlistFields_security hcur p).2 (iwlistFields_security hcur q).2,
    iwlistFields_channel, iwlistFields_channel, iwlistFields_signalPct, iwlistFields_signalPct,
    (iwlistFields_security hcur p).1, (iwlistFields_security hcur q).1, ← (guardSteps hcur).1, ← (guardSteps hcur).1]
  exact ⟨fun h => ⟨h.channel, h.signalPct, h.security⟩, fun h => ⟨h.1, h.2.1, h.2.2⟩⟩

theorem closeCell_partOf_ssid (cur : WifiNetwork) (tail : Str) (hlead : ¬bytes "ESSID:\"" <:+: lead) (hz : QUOTE ∉ z)
    (honly : ∀ p ∈ ownLines after, essidOf p = none) :
    (closeCell (iwlistFields cur (partOf lead tail z)) after).ssid = z.take 63 := by
  rw [closeCell_ssid honly, iwlistFields_ssid, essidOf_partOf hlead hz]
  rfl

theorem rename_cells {e : Equiv.Perm Str} (hab : (a.rename e).ssid = b.ssid) (hchannel : a.channel = b.channel)
    (hsignal : a.signalPct = b.signalPct) (hsecurity : a.security = b.security) (ha : Plain a) (hb : Plain b)
    (hother : ∀ c ∈ cells ++ rest, e c.ssid = c.ssid) :
    cells ++ b :: rest = (cells ++ a :: rest).map (WifiNetwork.rename e) := by
  have hkeep (c : WifiNetwork) (hc : c ∈ cells ++ rest) : c.rename e = c := by
    rw [WifiNetwork.rename, hother c hc]
  have hopen : a.isOpen = b.isOpen := by rw [ha, hb, hsecurity]
  have hnew : a.rename e = b := by
    change WifiNetwork.mk (e a.ssid) a.signalPct a.security a.channel a.isOpen = b
    change e a.ssid = b.ssid at hab
    rw [hab, hchannel, hsignal, hsecurity, hopen]
  have hsame {l : List WifiNetwork} (hl : ∀ c ∈ l, c.rename e = c) : l.map (WifiNetwork.rename e) = l :=
    (List.map_congr_left hl).trans (List.map_id' l)
  rw [List.map_append, List.map_cons, hnew, hsame fun c hc => hkeep c (List.mem_append_left _ hc),
    hsame fun c hc => hkeep c (List.mem_append_right _ hc)]

/-! ### The four kinds of replacement -/

theorem exists_same {R : WifiNetwork → WifiNetwork → Prop} {l l' : List WifiNetwork} (h : List.Forall₂ R l l')
    (hb : b ∈ l') : ∃ a ∈ l, R a b := by
  induction h with
  | nil => cases hb
  | cons hab _ ih =>
    rcases List.mem_cons.mp hb with rfl | hb
    · exact ⟨_, List.mem_cons_self, hab⟩
    · obtain ⟨a, ha, hR⟩ := ih hb
      exact ⟨a, List.mem_cons_of_mem _ ha, hR⟩

theorem mem_other (hlines : iwlistCells lines = cells ++ a :: rest) (hc : c ∈ tableOf maxNets lines) (hne : c ≠ a) :
    c ∈ cells ++ rest := by
  have hmem := (mem_tabulate hc).resolve_left List.not_mem_nil
  rw [hlines, List.mem_append, List.mem_cons] at hmem
  exact List.mem_append.mpr (hmem.imp_right fun h => h.resolve_left hne)

theorem eq_of_named (hlines : iwlistCells lines = cells ++ a :: rest) (hother : ∀ c ∈ cells ++ rest, c.ssid ≠ z)
    (hc : c ∈ tableOf maxNets lines) (hname : c.ssid = z) : c = a := by
  by_contra hne
  exact hother c (mem_other hlines hc hne) hname

theorem fresh_of_same {lines lines' : List Str} (hlines : iwlistCells lines = cells ++ a :: rest)
    (hlines' : iwlistCells lines' = cells ++ b :: rest) (ha : a.ssid = x) (hb : b.ssid = y) (hy : y ≠ [])
    (hother : ∀ c ∈ cells ++ rest, c.ssid ≠ y)
    (h : ∀ maxNets, List.Forall₂ (SameBut x y) (tableOf maxNets lines) (tableOf maxNets lines')) :
    x ≠ [] ∧ (∀ c ∈ cells ++ rest, c.ssid ≠ x) ∧
      a.channel = b.channel ∧ a.signalPct = b.signalPct ∧ a.security = b.security := by
  have hcount := distinct_eq_of_same h
  rw [hlines, hlines', distinct_new_cell hb hy hother] at hcount
  have hnew : ¬(a.ssid = [] ∨ a.ssid ∈ (cells ++ rest).map WifiNetwork.ssid) := by
    intro hc
    rw [distinct_old_cell hc] at hcount
    omega
  rw [ha, not_or] at hnew
  have hfresh (c : WifiNetwork) (hc : c ∈ cells ++ rest) : c.ssid ≠ x :=
    fun hx => hnew.2 (List.mem_map.mpr ⟨c, hc, hx⟩)
  -- the only entry that can stand where the second list has the new name
  have hb' : b ∈ iwlistCells lines' := by rw [hlines']; simp
  obtain ⟨n, hn, hname⟩ := exists_mem_tableOf hb' (hb.symm ▸ hy)
  obtain rfl : n = b := eq_of_named hlines' hother hn (hname.trans hb)
  obtain ⟨m, hm, hsame⟩ := exists_same (h _) hn
  obtain rfl : m = a := by
    rcases hsame.ssid with hm' | ⟨hm', -⟩
    · exact eq_of_named hlines hother hm (hm'.trans hb)
    · exact eq_of_named hlines hfresh hm hm'
  exact ⟨hnew.1, hfresh, hsame.channel, hsame.signalPct, hsame.security⟩

theorem same_of_fresh {lines lines' : List Str} (hlines : iwlistCells lines = cells ++ a :: rest)
    (hlines' : iwlistCells lines' = cells ++ b :: rest) (ha : a.ssid = x) (hb : b.ssid = y) (hx : x ≠ []) (hy : y ≠ [])
    (hfresh : ∀ c ∈ cells ++ rest, c.ssid ≠ x) (hother : ∀ c ∈ cells ++ rest, c.ssid ≠ y)
    (hchannel : a.channel = b.channel) (hsignal : a.signalPct = b.signalPct) (hsecurity : a.security = b.security)
    (maxNets : ℕ) : List.Forall₂ (SameBut x y) (tableOf maxNets lines) (tableOf maxNets lines') := by
  have ha' : a ∈ iwlistCells lines := by rw [hlines]; simp
  have hb' : b ∈ iwlistCells lines' := by rw [hlines']; simp
  have he : Equiv.swap x y [] = [] := Equiv.swap_apply_of_ne_of_ne hx.symm hy.symm
  have hkeep (c : WifiNetwork) (hc : c ∈ cells ++ rest) : Equiv.swap x y c.ssid = c.ssid :=
    Equiv.swap_apply_of_ne_of_ne (hfresh c hc) (hother c hc)
  have hcells : iwlistCells lines' = (iwlistCells lines).map (WifiNetwork.rename (Equiv.swap x y)) := by
    rw [hlines, hlines']
    apply rename_cells _ hchannel hsignal hsecurity (plain_of_mem_cells ha') (plain_of_mem_cells hb') hkeep
    change Equiv.swap x y a.ssid = b.ssid
    rw [ha, hb, Equiv.swap_apply_left]
  have htable : tableOf maxNets lines' = (tableOf maxNets lines).map (WifiNetwork.rename (Equiv.swap x y)) := by
    rw [tableOf, hcells]
    exact tabulate_rename he []
  rw [htable, List.forall₂_map_right_iff, List.forall₂_same]
  intro c hc
  refine ⟨rfl, rfl, rfl, rfl, ?_⟩
  change c.ssid = Equiv.swap x y c.ssid ∨ c.ssid = x ∧ Equiv.swap x y c.ssid = y
  by_cases hcx : c.ssid = x
  · exact .inr ⟨hcx, by rw [hcx, Equiv.swap_apply_left]⟩
  · have hne : c ≠ a := fun hca => hcx (hca ▸ ha)
    exact .inl (hkeep c (mem_other hlines hc hne)).symm

theorem named_iff {lines lines' : List Str} (hlines : iwlistCells lines = cells ++ a :: rest)
    (hlines' : iwlistCells lines' = cells ++ b :: rest) (ha : a.ssid = x) (hb : b.ssid = y) (hy : y ≠ [])
    (hother : ∀ c ∈ cells ++ rest, c.ssid ≠ y) :
    (∀ maxNets, List.Forall₂ (SameBut x y) (tableOf maxNets lines) (tableOf maxNets lines')) ↔
      x ≠ [] ∧ (∀ c ∈ cells ++ rest, c.ssid ≠ x) ∧
        a.channel = b.channel ∧ a.signalPct = b.signalPct ∧ a.security = b.security := by
  constructor
  · exact fresh_of_same hlines hlines' ha hb hy hother
  · rintro ⟨hx, hfresh, hchannel, hsignal, hsecurity⟩ maxNets
    exact same_of_fresh hlines hlines' ha hb hx hy hfresh hother hchannel hsignal hsecurity maxNets

theorem not_same_of_header {lines lines' : List Str} (hlines : iwlistCells lines = cells ++ a :: c :: rest)
    (hlines' : iwlistCells lines' = cells ++ b :: rest) (ha : a.ssid = []) (hc : c.ssid = []) (hb : b.ssid = y)
    (hy : y ≠ []) (hother : ∀ c ∈ cells ++ rest, c.ssid ≠ y) :
    ¬∀ maxNets, List.Forall₂ (SameBut x y) (tableOf maxNets lines) (tableOf maxNets lines') := by
  intro h
  have hcount := distinct_eq_of_same h
  rw [hlines, hlines', distinct_new_cell hb hy hother, distinct_old_cell (.inl ha), distinct_old_cell (.inl hc)]
    at hcount
  omega

theorem eq_of_same {R : WifiNetwork → WifiNetwork → Prop} {l l' : List WifiNetwork} (h : List.Forall₂ R l l')
    (heq : ∀ b ∈ l', ∀ a, R a b → a = b) : l = l' := by
  induction h with
  | nil => rfl
  | cons hab _ ih =>
    rw [List.forall_mem_cons] at heq
    rw [heq.1 _ hab, ih heq.2]

theorem nameless_iff {lines lines' : List Str} (hlines : iwlistCells lines = cells ++ a :: rest)
    (hlines' : iwlistCells lines' = cells ++ b :: c :: rest) (hb : b.ssid = []) (hc : c.ssid = []) (hy : y ≠ [])
    (hother : ∀ c ∈ cells ++ rest, c.ssid ≠ y) :
    (∀ maxNets, List.Forall₂ (SameBut x y) (tableOf maxNets lines) (tableOf maxNets lines')) ↔
      Unnoticed cells a rest := by
  have htable (maxNets : ℕ) : tableOf maxNets lines' =
      tabulate maxNets (enter maxNets) (enterNew maxNets) [] (cells ++ b :: rest) := by
    rw [tableOf, hlines']
    apply tabulate_congr (List.cons_ne_nil _ _) (List.cons_ne_nil _ _)
    intro networks
    rw [tabulate_nameless hb, tabulate_nameless hc, tabulate_nameless hb]
  rw [← unnoticed_iff hb, ← hlines]
  simp only [htable]
  apply forall_congr'
  intro maxNets
  constructor
  · intro h
    apply eq_of_same h
    intro n hn m hsame
    have hne : n.ssid ≠ y := by
      have hmem := (mem_tabulate hn).resolve_left List.not_mem_nil
      rw [List.mem_append, List.mem_cons, or_left_comm, ← List.mem_append] at hmem
      rcases hmem with rfl | hmem
      · exact hb ▸ hy.symm
      · exact hother n hmem
    cases m
    cases n
    obtain ⟨rfl, rfl, rfl, rfl, hname | hname⟩ := hsame
    · obtain rfl := hname
      rfl
    · exact absurd hname.2 hne
  · intro h
    rw [tableOf, h, List.forall₂_same]
    exact fun n _ => SameBut.refl n

theorem readLines_lineOf {u : Str} (lead tail z v : Str) (hu : u = [] ∨ u.getLast? = some NEWLINE)
    (hline : NEWLINE ∉ lineOf lead tail z) (hzero : 0 ∉ lineOf lead tail z) (hlen : (lineOf lead tail z).length ≤ 510) :
    readLines 512 (u ++ (lineOf lead tail z ++ NEWLINE :: v)) =
      readLines 512 u ++ lineOf lead (tail ++ [NEWLINE]) z :: readLines 512 v := by
  have hread : lineOf lead tail z ++ [NEWLINE] = lineOf lead (tail ++ [NEWLINE]) z := by simp [lineOf]
  rw [readLines_append (by decide) hu, readLines_line hline (by omega), cstr_of_notMem, hread]
  rw [List.mem_append, not_or]
  exact ⟨hzero, by decide⟩

end

theorem essid_replaced_iff {scan scan' lead tail x y : Str} {before after : List Str} {cells : List WifiNetwork}
    {cur : WifiNetwork} (hscan : readLines 512 scan = before ++ lineOf lead tail x :: after)
    (hscan' : readLines 512 scan' = before ++ lineOf lead tail y :: after)
    (hlead : ¬bytes "ESSID:\"" <:+: lead) (hx : QUOTE ∉ x) (hy : QUOTE ∉ y) (hne : y ≠ []) (hlen : y.length ≤ 32)
    (hcell : iwlistCells before = cells ++ [cur]) (hcur : cur.ssid = [])
    (honly : ∀ p ∈ ownLines after, essidOf p = none) (hother : ∀ c ∈ cells ++ iwlistCells after, c.ssid ≠ y) :
    (∀ maxNets,
        List.Forall₂ (SameBut (x.take 63) y) (parseIwlistScan maxNets scan) (parseIwlistScan maxNets scan')) ↔
      if isCell (partOf lead tail x) then isCell (partOf lead tail y) = true
      else if isCell (partOf lead tail y) then
        Unnoticed cells (closeCell (iwlistFields cur (partOf lead tail x)) after) (iwlistCells after)
      else x ≠ [] ∧ (∀ c ∈ cells ++ iwlistCells after, c.ssid ≠ x.take 63) ∧
        SameClass cur (partOf lead tail x) (partOf lead tail y) (ownLines after) := by
  have hparse (maxNets : ℕ) (scan : Str) : parseIwlistScan maxNets scan = tableOf maxNets (readLines 512 scan) :=
    parseIwlistScan_eq maxNets scan
  have hmem : cur ∈ iwlistCells before := by rw [hcell]; simp
  have hcut : y.take 63 = y := List.take_of_length_le (by omega)
  have hnil : x.take 63 ≠ [] ↔ x ≠ [] := by simp
  have hssid := closeCell_partOf_ssid cur tail hlead hx honly
  have hssid' := (closeCell_partOf_ssid cur tail hlead hy honly).trans hcut
  have hfresh : (closeCell iwlistFresh after).ssid = [] := closeCell_ssid honly
  have hcells := iwlistCells_lineOf hcell lead tail x after
  have hcells' := iwlistCells_lineOf hcell lead tail y after
  simp only [hparse, hscan, hscan']
  by_cases hcx : isCell (partOf lead tail x)
  · rw [if_pos hcx] at hcells ⊢
    by_cases hcy : isCell (partOf lead tail y)
    · rw [if_pos hcy] at hcells'
      refine iff_of_true (fun maxNets => ?_) hcy
      rw [tableOf, tableOf, hcells, hcells', List.forall₂_same]
      exact fun n _ => SameBut.refl n
    · rw [if_neg hcy] at hcells'
      exact iff_of_false (not_same_of_header hcells hcells' hcur hfresh hssid' hne hother) hcy
  · rw [if_neg hcx] at hcells ⊢
    by_cases hcy : isCell (partOf lead tail y)
    · rw [if_pos hcy] at hcells' ⊢
      exact nameless_iff hcells hcells' hcur hfresh hne hother
    · rw [if_neg hcy] at hcells' ⊢
      rw [named_iff hcells hcells' hssid hssid' hne hother, hnil, sameClass_iff (plain_of_mem_cells hmem)]

def cafeStart : Str := bytes "Cell 01 - Address: 02\n  Channel:6\n  Encryption key:on\n"

def cafeEnd : Str := bytes "  IE: IEEE 802.11i/WPA2 Version 1\nCell 02 - Address: 04\n  ESSID:\"cafe\"\n"

def cafeScan (z : Str) : Str := cafeStart ++ (lineOf (bytes "  ") [] z ++ NEWLINE :: cafeEnd)

theorem essid_replaced_cafe : List.Forall₂ (SameBut (bytes "lab") (bytes "WPA3 home"))
    (parseIwlistScan 64 (cafeScan (bytes "lab"))) (parseIwlistScan 64 (cafeScan (bytes "WPA3 home"))) := by
  have hlab := readLines_lineOf (u := cafeStart) (bytes "  ") [] (bytes "lab") cafeEnd (.inr (by decide))
    (by decide) (by decide) (by decide)
  have hhome := readLines_lineOf (u := cafeStart) (bytes "  ") [] (bytes "WPA3 home") cafeEnd (.inr (by decide))
    (by decide) (by decide) (by decide)
  have hcell : iwlistCells (readLines 512 cafeStart) = [] ++ [⟨[], 50, bytes "WEP", 6, false⟩] := by decide
  have hiff := essid_replaced_iff hlab hhome (by decide) (by decide) (by decide) (by decide) (by decide) hcell rfl
    (by decide) (by decide)
  refine hiff.mpr ?_ 64
  rw [if_neg (by decide), if_neg (by decide)]
  refine ⟨by decide, by decide, .inl (by decide), .inl (by decide), .inr (.inl ?_)⟩
  decide

def openCell (z : Str) : Str :=
  bytes "Cell 01 - Address: 02\n  Encryption key:off\n" ++ (lineOf (bytes "  ") [] z ++ [NEWLINE])

theorem wpa_in_name : ¬List.Forall₂ (SameBut (bytes "lab") (bytes "WPA2"))
    (parseIwlistScan 64 (openCell (bytes "lab"))) (parseIwlistScan 64 (openCell (bytes "WPA2"))) := by
  have hlab : parseIwlistScan 64 (openCell (bytes "lab")) = [⟨bytes "lab", 50, bytes "Open", 1, true⟩] := by decide
  have hwpa : parseIwlistScan 64 (openCell (bytes "WPA2")) =
      [⟨bytes "WPA2", 50, bytes "WPA2-PSK", 1, false⟩] := by decide
  rw [hlab, hwpa, List.forall₂_cons]
  rintro ⟨hsame, -⟩
  exact absurd hsame.isOpen (by decide)

end JurkOS.Userland.Wifi
