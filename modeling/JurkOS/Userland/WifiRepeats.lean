import JurkOS.Userland.WifiSignals

/-!
A cell more or less in a scan: when `parse_iwlist_scan` makes the same list of
both, whatever the room.
-/

namespace JurkOS.Userland.Wifi

open Lib.Libc Lib.Roster

def Covered (networks : List WifiNetwork) (c : WifiNetwork) : Prop :=
  c.ssid = [] ∨ ∃ n ∈ networks, n.ssid = c.ssid ∧ c.signalPct ≤ n.signalPct

def repeats (cells rest : List WifiNetwork) : List WifiNetwork :=
  rest.dropLast.takeWhile fun d => d.ssid = [] ∨ ∃ c ∈ cells, c.ssid = d.ssid

/-- The list does not show the cell `a` between these others. -/
inductive Unnoticed (cells : List WifiNetwork) (a : WifiNetwork) (rest : List WifiNetwork) : Prop
  | covered (h : Covered cells a)
  | last (h : ∃ c ∈ cells, c.ssid = a.ssid) (hrest : rest = [])
  | overtaken (h : ∃ c ∈ cells, c.ssid = a.ssid) (d : WifiNetwork) (hd : Best (repeats cells rest) d)
      (hname : d.ssid = a.ssid) (hstrong : a.signalPct < d.signalPct ∨ a = d)
  | again (h : ∀ c ∈ cells, c.ssid ≠ a.ssid) (pre post : List WifiNetwork) (hrest : rest = pre ++ a :: post)
      (hpre : ∀ d ∈ pre, Covered cells d)

variable {maxNets : ℕ} {cells cells' networks done rest pre X Y : List WifiNetwork} {a b c d n m : WifiNetwork}

theorem best_append : Best (X ++ Y) n ↔
    (Best X n ∧ ∀ c ∈ Y, c.ssid = n.ssid → c.signalPct ≤ n.signalPct) ∨
      (Best Y n ∧ ∀ c ∈ X, c.ssid = n.ssid → c.signalPct < n.signalPct) := by
  constructor
  · rintro ⟨before, after, heq, hbefore, hafter⟩
    obtain ⟨mid, rfl, hY⟩ | ⟨mid, hX, hmid⟩ := List.append_eq_append_iff.mp heq
    · refine .inr ⟨⟨mid, after, hY, fun c hc => hbefore c (List.mem_append_right _ hc), hafter⟩, ?_⟩
      exact fun c hc => hbefore c (List.mem_append_left _ hc)
    · cases mid with
      | nil =>
        rw [List.append_nil] at hX
        refine .inr ⟨⟨[], after, hmid.symm, fun c hc => absurd hc List.not_mem_nil, hafter⟩, ?_⟩
        exact fun c hc => hbefore c (hX ▸ hc)
      | cons head mid =>
        obtain ⟨rfl, rfl⟩ := List.cons.inj hmid
        refine .inl ⟨⟨before, mid, hX, hbefore, fun c hc => hafter c (List.mem_append_left _ hc)⟩, ?_⟩
        exact fun c hc => hafter c (List.mem_append_right _ hc)
  · rintro (⟨⟨before, after, rfl, hbefore, hafter⟩, hY⟩ | ⟨⟨before, after, rfl, hbefore, hafter⟩, hX⟩)
    · refine ⟨before, after ++ Y, by simp, hbefore, fun c hc => ?_⟩
      exact (List.mem_append.mp hc).elim (hafter c) (hY c)
    · refine ⟨X ++ before, after, by simp, fun c hc => ?_, hafter⟩
      exact (List.mem_append.mp hc).elim (hX c) (hbefore c)

theorem best_singleton : Best [a] n ↔ n = a := by
  constructor
  · intro h
    exact List.mem_singleton.mp h.mem
  · rintro rfl
    have hlast : Best ([] ++ [n]) n := best_last fun d hd => absurd hd List.not_mem_nil
    exact hlast

theorem Best.unique (h : Best cells n) (h' : Best cells m) (hname : n.ssid = m.ssid) : n = m := by
  have hle := h'.signal_le h.mem hname
  obtain ⟨before, after, rfl, hbefore, hafter⟩ := h
  rw [best_append] at h'
  rcases h' with ⟨h', -⟩ | ⟨h', hlt⟩
  · have := hbefore m h'.mem hname.symm
    omega
  · change Best ([n] ++ after) m at h'
    rw [best_append, best_singleton] at h'
    rcases h' with ⟨rfl, -⟩ | ⟨h', hlt⟩
    · rfl
    · have := hafter m h'.mem hname.symm
      have := hlt n List.mem_cons_self hname
      omega

theorem best_middle_iff (hne : a.ssid ≠ n.ssid) : Best (X ++ a :: Y) n ↔ Best (X ++ Y) n := by
  have hsingle : ¬Best [a] n := fun h => hne (congrArg WifiNetwork.ssid (best_singleton.mp h)).symm
  change Best (X ++ ([a] ++ Y)) n ↔ _
  rw [best_append, best_append (X := [a]), best_append (X := X)]
  simp [hsingle, hne]

theorem Bests.unique (h : Bests maxNets cells X) (h' : Bests maxNets cells Y) : X = Y := by
  have hnames : X.map WifiNetwork.ssid = Y.map WifiNetwork.ssid := h.names.trans h'.names.symm
  have hsame : List.Forall₂ (fun n m => n ∈ X ∧ m ∈ Y ∧ n.ssid = m.ssid) X Y := by
    rw [List.forall₂_iff_get]
    have hlen : X.length = Y.length := by simpa using congrArg List.length hnames
    refine ⟨hlen, fun i hX hY => ⟨List.get_mem _ _, List.get_mem _ _, ?_⟩⟩
    have hi := congrArg (fun l : List Str => l[i]?) hnames
    simpa [hX, hY] using hi
  apply List.forall₂_eq_eq_eq ▸ hsame.imp ?_
  exact fun n m ⟨hn, hm, hname⟩ => (h.best n hn).unique (h'.best m hm) hname

theorem enter_covered (hnodup : (networks.map WifiNetwork.ssid).Nodup) (h : Covered networks c) :
    enter maxNets networks c = networks := by
  by_cases hnil : c.ssid = []
  · exact if_pos hnil
  · obtain ⟨n, hn, hname, hle⟩ := h.resolve_left hnil
    rw [enter, if_neg hnil]
    cases hi : networks.findIdx? (·.ssid = c.ssid) with
    | none => exact absurd (decide_eq_true hname) (by simpa using List.findIdx?_eq_none_iff.mp hi n hn)
    | some i =>
      obtain ⟨hlt, hsame, -⟩ := List.findIdx?_eq_some_iff_getElem.mp hi
      have hold : networks[i] = n :=
        List.inj_on_of_nodup_map hnodup (List.getElem_mem hlt) hn ((of_decide_eq_true hsame).trans hname.symm)
      apply List.ext_getElem?
      intro j
      dsimp only
      rw [List.getElem?_modify]
      by_cases hij : i = j
      · subst hij
        rw [List.getElem?_eq_getElem hlt, hold]
        simpa using fun hlt => absurd hle (Int.not_le.mpr hlt)
      · simp [hij]

theorem enterNew_old (h : ∃ n ∈ networks, n.ssid = c.ssid) : enterNew maxNets networks c = networks := by
  obtain ⟨n, hn, hname⟩ := h
  exact if_neg fun hnew => hnew.2.2 n hn hname

theorem tabulate_skip (henter : enter maxNets networks c = networks) (hnew : enterNew maxNets networks c = networks) :
    tabulate maxNets (enter maxNets) (enterNew maxNets) networks (c :: cells) =
      tabulate maxNets (enter maxNets) (enterNew maxNets) networks cells := by
  cases cells with
  | nil => exact hnew
  | cons d cells =>
    by_cases hroom : networks.length < maxNets
    · rw [tabulate_cons (List.cons_ne_nil _ _) hroom, henter]
    · rw [tabulate_full hroom fun c => enterNew_full hroom, tabulate_full hroom fun c => enterNew_full hroom]

theorem tabulate_nameless (hc : c.ssid = []) :
    tabulate maxNets (enter maxNets) (enterNew maxNets) networks (c :: cells) =
      tabulate maxNets (enter maxNets) (enterNew maxNets) networks cells :=
  tabulate_skip (if_pos hc) (if_neg fun h => h.1 hc)

theorem tabulate_covered (hnodup : (networks.map WifiNetwork.ssid).Nodup) (h : ∀ d ∈ pre, Covered networks d) :
    tabulate maxNets (enter maxNets) (enterNew maxNets) networks (pre ++ X) =
      tabulate maxNets (enter maxNets) (enterNew maxNets) networks X := by
  induction pre with
  | nil => rfl
  | cons d pre ih =>
    rw [List.forall_mem_cons] at h
    rw [List.cons_append, ← ih h.2]
    rcases h.1 with hnil | ⟨n, hn, hname, hle⟩
    · exact tabulate_nameless hnil
    · exact tabulate_skip (enter_covered hnodup h.1) (enterNew_old ⟨n, hn, hname⟩)

theorem Bests.covered_iff (h : Bests maxNets cells networks) (hroom : networks.length < maxNets) :
    Covered networks c ↔ Covered cells c := by
  unfold Covered
  by_cases hnil : c.ssid = []
  · simp [hnil]
  · rw [or_iff_right hnil, or_iff_right hnil]
    constructor
    · rintro ⟨n, hn, hname, hle⟩
      exact ⟨n, (h.best n hn).mem, hname, hle⟩
    · rintro ⟨d, hd, hname, hle⟩
      obtain ⟨n, hn, hsame⟩ := h.complete hroom hd (hname ▸ hnil)
      exact ⟨n, hn, hsame.trans hname, hle.trans ((h.best n hn).signal_le hd hsame.symm)⟩

theorem Bests.length (h : Bests maxNets cells networks) :
    networks.length = min maxNets (distinct [] (cells.map WifiNetwork.ssid)) := by
  rw [← List.length_map (f := WifiNetwork.ssid), h.names, length_roster]

theorem Bests.mem_names (h : Bests maxNets cells networks) (hroom : networks.length < maxNets) (hc : c ∈ cells)
    (hne : c.ssid ≠ []) : c.ssid ∈ roster [] maxNets (cells.map WifiNetwork.ssid) := by
  obtain ⟨n, hn, hname⟩ := h.complete hroom hc hne
  exact h.names ▸ List.mem_map.mpr ⟨n, hn, hname⟩

theorem tabulate_old (h : Bests maxNets cells networks) (hroom : networks.length < maxNets)
    (hold : ∀ d ∈ Y, d.ssid = [] ∨ d.ssid ∈ cells.map WifiNetwork.ssid) :
    ∃ table, Bests maxNets (cells ++ Y) table ∧ table.map WifiNetwork.ssid = networks.map WifiNetwork.ssid ∧
      ∀ X ≠ [], tabulate maxNets (enter maxNets) (enterNew maxNets) networks (Y ++ X) =
        tabulate maxNets (enter maxNets) (enterNew maxNets) table X := by
  have hskip (d : WifiNetwork) (hd : d ∈ Y) :
      d.ssid = [] ∨ d.ssid ∈ networks.map WifiNetwork.ssid := by
    by_cases hnil : d.ssid = []
    · exact .inl hnil
    · obtain ⟨c, hc, hname⟩ := List.mem_map.mp ((hold d hd).resolve_left hnil)
      rw [h.names, ← hname]
      exact .inr (h.mem_names hroom hc (hname ▸ hnil))
  induction Y generalizing cells networks with
  | nil => exact ⟨networks, by rwa [List.append_nil], rfl, fun X _ => rfl⟩
  | cons d Y ih =>
    rw [List.forall_mem_cons] at hold hskip
    have hnames : (enter maxNets networks d).map WifiNetwork.ssid = networks.map WifiNetwork.ssid := by
      rw [enter_names hroom, enlist_skip (hskip.1.imp_right .inl)]
    have hlen : (enter maxNets networks d).length < maxNets := by
      rwa [← List.length_map (f := WifiNetwork.ssid), hnames, List.length_map]
    have hmore (e : WifiNetwork) (he : e ∈ Y) : e.ssid = [] ∨ e.ssid ∈ (cells ++ [d]).map WifiNetwork.ssid := by
      rw [List.map_append]
      exact (hold.2 e he).imp_right (List.mem_append_left _)
    obtain ⟨table, hbests, hsame, htable⟩ := ih (h.enter hroom d) hlen hmore (hnames ▸ hskip.2)
    rw [List.append_cons]
    refine ⟨table, hbests, hsame.trans hnames, fun X hX => ?_⟩
    rw [List.cons_append, tabulate_cons (by simp [hX]) hroom, htable X hX]

theorem repeats_old (cells rest : List WifiNetwork) (hd : d ∈ repeats cells rest) :
    d.ssid = [] ∨ d.ssid ∈ cells.map WifiNetwork.ssid := by
  simpa using List.mem_takeWhile_imp hd

theorem rest_eq_repeats (cells : List WifiNetwork) (hrest : rest ≠ []) :
    ∃ e post, rest = repeats cells rest ++ e :: post ∧
      (post = [] ∨ e.ssid ≠ [] ∧ e.ssid ∉ cells.map WifiNetwork.ssid) := by
  have hsplit : rest = repeats cells rest ++
      ((rest.dropLast.dropWhile fun d => d.ssid = [] ∨ ∃ c ∈ cells, c.ssid = d.ssid) ++ [rest.getLast hrest]) := by
    rw [← List.append_assoc, repeats, List.takeWhile_append_dropWhile, List.dropLast_append_getLast]
  cases hdrop : rest.dropLast.dropWhile fun d => d.ssid = [] ∨ ∃ c ∈ cells, c.ssid = d.ssid with
  | nil =>
    rw [hdrop] at hsplit
    exact ⟨_, [], hsplit, .inl rfl⟩
  | cons e post =>
    rw [hdrop] at hsplit
    refine ⟨e, post ++ [rest.getLast hrest], hsplit, .inr ?_⟩
    have hstop := List.head?_dropWhile_not (fun d => d.ssid = [] ∨ ∃ c ∈ cells, c.ssid = d.ssid) rest.dropLast
    rw [hdrop] at hstop
    simpa using hstop

theorem enterNew_new (hne : c.ssid ≠ []) (hroom : networks.length < maxNets) (hnew : ∀ n ∈ networks, n.ssid ≠ c.ssid) :
    enterNew maxNets networks c = networks ++ [c] := if_pos ⟨hne, hroom, hnew⟩

theorem enter_new (hne : c.ssid ≠ []) (hroom : networks.length < maxNets) (hnew : ∀ n ∈ networks, n.ssid ≠ c.ssid) :
    enter maxNets networks c = networks ++ [c] := by
  have hfind : networks.findIdx? (·.ssid = c.ssid) = none := by
    rw [List.findIdx?_eq_none_iff]
    exact fun n hn => decide_eq_false (hnew n hn)
  rw [enter, if_neg hne, hfind]
  exact if_pos hroom

theorem tabulate_next (hlen : networks.length + 1 = maxNets)
    (h : rest = [] ∨ c.ssid ≠ [] ∧ ∀ n ∈ networks, n.ssid ≠ c.ssid) :
    tabulate maxNets (enter maxNets) (enterNew maxNets) networks (c :: rest) = enterNew maxNets networks c := by
  by_cases hrest : rest = []
  · rw [hrest]
    rfl
  · obtain ⟨hne, hnew⟩ := h.resolve_left hrest
    have hroom : networks.length < maxNets := by omega
    have hfull : ¬(networks ++ [c]).length < maxNets := by
      rw [List.length_append, List.length_singleton]
      omega
    rw [tabulate_cons hrest hroom, enter_new hne hroom hnew, enterNew_new hne hroom hnew,
      tabulate_full hfull fun c => enterNew_full hfull]

theorem enterNew_inj (hnames : X.map WifiNetwork.ssid = Y.map WifiNetwork.ssid)
    (h : enterNew maxNets X c = enterNew maxNets Y c) : X = Y := by
  have hlen : X.length = Y.length := by simpa using congrArg List.length hnames
  have hmem : (∀ n ∈ X, n.ssid ≠ c.ssid) ↔ ∀ n ∈ Y, n.ssid ≠ c.ssid := by
    rw [← List.forall_mem_map (f := WifiNetwork.ssid) (P := (· ≠ c.ssid)), hnames, List.forall_mem_map]
  unfold enterNew at h
  simp only [hlen, hmem] at h
  split_ifs at h
  · exact List.append_cancel_right h
  · exact h

theorem best_of_overtaken (hweak : ∀ c ∈ cells, c.ssid = a.ssid → c.signalPct < a.signalPct) (hd : Best Y d)
    (hname : d.ssid = a.ssid) (hstrong : a.signalPct < d.signalPct ∨ a = d) (h : Best (cells ++ a :: Y) n) :
    Best (cells ++ Y) n := by
  by_cases hne : a.ssid = n.ssid
  · have hle : a.signalPct ≤ d.signalPct := hstrong.elim le_of_lt fun heq => heq ▸ le_refl _
    have hbeaten {m : WifiNetwork} (hm : a.signalPct ≤ m.signalPct) :
        ∀ c ∈ cells, c.ssid = n.ssid → c.signalPct < m.signalPct :=
      fun c hc hsame => (hweak c hc (hsame.trans hne.symm)).trans_le hm
    change Best (cells ++ ([a] ++ Y)) n at h
    rw [best_append, best_append (X := [a]), best_singleton] at h
    rw [best_append]
    rcases h with ⟨h, hmore⟩ | ⟨⟨rfl, hmore⟩ | ⟨h, hmore⟩, -⟩
    · have hlt := hweak n h.mem hne.symm
      have hge := hmore a (by simp) hne
      omega
    · have heq : n = d := hstrong.resolve_left fun hlt => absurd (hmore d hd.mem hname) (Int.not_le.mpr hlt)
      exact .inr ⟨heq ▸ hd, hbeaten (le_refl _)⟩
    · exact .inr ⟨h, hbeaten (hmore a List.mem_cons_self hne).le⟩
  · exact (best_middle_iff hne).mp h

theorem overtaken_of_best (hweak : ∀ c ∈ cells, c.ssid = a.ssid → c.signalPct < a.signalPct) (hname : n.ssid = a.ssid)
    (h : Best (cells ++ a :: Y) n) (h' : Best (cells ++ Y) n) : Best Y n ∧ (a.signalPct < n.signalPct ∨ a = n) := by
  have hle := h.signal_le (c := a) (by simp) hname.symm
  have hout : ¬Best cells n := fun hn => by
    have := hweak n hn.mem hname
    omega
  have hY := ((best_append.mp h').resolve_left fun hn => hout hn.1).1
  refine ⟨hY, ?_⟩
  change Best (cells ++ ([a] ++ Y)) n at h
  rw [best_append, best_append (X := [a]), best_singleton] at h
  obtain ⟨rfl, -⟩ | ⟨-, hlt⟩ := (h.resolve_left fun hn => hout hn.1).1
  · exact .inr rfl
  · exact .inl (hlt a List.mem_cons_self hname.symm)

theorem not_covered (h : ¬Covered cells a) : ∀ c ∈ cells, c.ssid = a.ssid → c.signalPct < a.signalPct :=
  fun c hc hname => Int.not_le.mp fun hle => h (.inr ⟨c, hc, hname, hle⟩)

theorem tabulate_overtaken (hT : Bests maxNets cells networks) (hroom : networks.length < maxNets)
    (hcov : ¬Covered cells a) (hold : ∃ c ∈ cells, c.ssid = a.ssid) (hd : Best (repeats cells rest) d)
    (hname : d.ssid = a.ssid) (hstrong : a.signalPct < d.signalPct ∨ a = d) :
    tabulate maxNets (enter maxNets) (enterNew maxNets) networks (a :: rest) =
      tabulate maxNets (enter maxNets) (enterNew maxNets) networks rest := by
  have hrest : rest ≠ [] := by
    rintro rfl
    exact absurd hd.mem List.not_mem_nil
  obtain ⟨e, post, heq, -⟩ := rest_eq_repeats cells hrest
  have hmem (c : WifiNetwork) (hc : c ∈ a :: repeats cells rest) :
      c.ssid = [] ∨ c.ssid ∈ cells.map WifiNetwork.ssid := by
    rcases List.mem_cons.mp hc with rfl | hc
    · exact .inr (List.mem_map.mpr hold)
    · exact repeats_old cells rest hc
  obtain ⟨table, hbests, hnames, htable⟩ := tabulate_old hT hroom hmem
  obtain ⟨table', hbests', hnames', htable'⟩ := tabulate_old hT hroom fun c hc => repeats_old cells rest hc
  have hrest' : Bests maxNets (cells ++ repeats cells rest) table := by
    constructor
    · rw [hnames, ← hnames', hbests'.names]
    · intro n hn
      exact best_of_overtaken (not_covered hcov) hd hname hstrong (hbests.best n hn)
  have hsame : table = table' := hrest'.unique hbests'
  have hX := htable (e :: post) (List.cons_ne_nil _ _)
  rw [List.cons_append, ← heq] at hX
  have hX' := htable' (e :: post) (List.cons_ne_nil _ _)
  rw [← heq] at hX'
  rw [hX, hX', hsame]

theorem tabulate_again (hT : Bests maxNets cells networks) (hroom : networks.length < maxNets)
    (hne : a.ssid ≠ []) (hnew : ∀ c ∈ cells, c.ssid ≠ a.ssid) (hpre : ∀ d ∈ pre, Covered cells d) :
    tabulate maxNets (enter maxNets) (enterNew maxNets) networks (a :: (pre ++ a :: rest)) =
      tabulate maxNets (enter maxNets) (enterNew maxNets) networks (pre ++ a :: rest) := by
  have hfresh : ∀ n ∈ networks, n.ssid ≠ a.ssid := fun n hn => hnew n (hT.best n hn).mem
  have hpre' : ∀ d ∈ pre, Covered networks d := fun d hd => (hT.covered_iff hroom).mpr (hpre d hd)
  have hmore : ∀ d ∈ pre ++ [a], Covered (networks ++ [a]) d := by
    intro d hd
    rcases List.mem_append.mp hd with hd | hd
    · exact (hpre' d hd).imp_right fun ⟨n, hn, h⟩ => ⟨n, List.mem_append_left _ hn, h⟩
    · exact .inr ⟨a, by simp, by rw [List.mem_singleton.mp hd], by rw [List.mem_singleton.mp hd]⟩
  have hnodup : ((networks ++ [a]).map WifiNetwork.ssid).Nodup := by
    rw [← enter_new hne hroom hfresh]
    exact (hT.enter hroom a).nodup
  rw [tabulate_covered hT.nodup hpre', tabulate_cons (by simp) hroom, enter_new hne hroom hfresh, List.append_cons pre,
    tabulate_covered hnodup hmore]
  cases rest with
  | nil => exact (enterNew_new hne hroom hfresh).symm
  | cons c rest => rw [tabulate_cons (List.cons_ne_nil _ _) hroom, enter_new hne hroom hfresh]

theorem same_of_unnoticed (hb : b.ssid = []) (h : Unnoticed cells a rest) (maxNets : ℕ) :
    tabulate maxNets (enter maxNets) (enterNew maxNets) [] (cells ++ a :: rest) =
      tabulate maxNets (enter maxNets) (enterNew maxNets) [] (cells ++ b :: rest) := by
  obtain ⟨table, hbests, htable⟩ := tabulate_append (bests_nil maxNets) cells
  rw [htable _ (List.cons_ne_nil _ _), htable _ (List.cons_ne_nil _ _), tabulate_nameless hb]
  by_cases hroom : table.length < maxNets
  · have hT : Bests maxNets cells table := hbests.resolve_right fun hfull => hfull.1 hroom
    by_cases hcov : Covered cells a
    · have hone : ∀ d ∈ [a], Covered table d := by simpa using (hT.covered_iff hroom).mpr hcov
      exact tabulate_covered hT.nodup hone
    · have hne : a.ssid ≠ [] := fun hnil => hcov (.inl hnil)
      cases h with
      | covered h => exact absurd h hcov
      | last hold hrest =>
        obtain ⟨c, hc, hname⟩ := hold
        obtain ⟨n, hn, hsame⟩ := hT.complete hroom hc (hname ▸ hne)
        rw [hrest]
        exact enterNew_old ⟨n, hn, hsame.trans hname⟩
      | overtaken hold d hd hname hstrong => exact tabulate_overtaken hT hroom hcov hold hd hname hstrong
      | again hnew pre post hrest hpre =>
        rw [hrest]
        exact tabulate_again hT hroom hne hnew hpre
  · rw [tabulate_full hroom fun c => enterNew_full hroom, tabulate_full hroom fun c => enterNew_full hroom]

theorem tabulate_stops {e : WifiNetwork} {post table : List WifiNetwork} (hT : Bests maxNets cells networks)
    (hlen : networks.length + 1 = maxNets) (hnames : table.map WifiNetwork.ssid = networks.map WifiNetwork.ssid)
    (he : post = [] ∨ e.ssid ≠ [] ∧ e.ssid ∉ cells.map WifiNetwork.ssid) :
    tabulate maxNets (enter maxNets) (enterNew maxNets) table (e :: post) = enterNew maxNets table e := by
  apply tabulate_next
  · rwa [← List.length_map (f := WifiNetwork.ssid), hnames, List.length_map]
  · refine he.imp_right fun ⟨hne, hnew⟩ => ⟨hne, fun n hn hname => hnew ?_⟩
    have hmem := hnames ▸ List.mem_map_of_mem (f := WifiNetwork.ssid) hn
    obtain ⟨m, hm, hsame⟩ := List.mem_map.mp hmem
    exact List.mem_map.mpr ⟨m, (hT.best m hm).mem, hsame.trans hname⟩

theorem overtaken_of_tabulate (hT : Bests maxNets cells networks) (hlen : networks.length + 1 = maxNets)
    (hcov : ¬Covered cells a) (hold : ∃ c ∈ cells, c.ssid = a.ssid) (hrest : rest ≠ [])
    (h : tabulate maxNets (enter maxNets) (enterNew maxNets) networks (a :: rest) =
      tabulate maxNets (enter maxNets) (enterNew maxNets) networks rest) :
    ∃ d, Best (repeats cells rest) d ∧ d.ssid = a.ssid ∧ (a.signalPct < d.signalPct ∨ a = d) := by
  have hroom : networks.length < maxNets := by omega
  obtain ⟨e, post, heq, he⟩ := rest_eq_repeats cells hrest
  have hmem (c : WifiNetwork) (hc : c ∈ a :: repeats cells rest) :
      c.ssid = [] ∨ c.ssid ∈ cells.map WifiNetwork.ssid := by
    rcases List.mem_cons.mp hc with rfl | hc
    · exact .inr (List.mem_map.mpr hold)
    · exact repeats_old cells rest hc
  obtain ⟨table, hbests, hnames, htable⟩ := tabulate_old hT hroom hmem
  obtain ⟨table', hbests', hnames', htable'⟩ := tabulate_old hT hroom fun c hc => repeats_old cells rest hc
  have hX := htable (e :: post) (List.cons_ne_nil _ _)
  have hX' := htable' (e :: post) (List.cons_ne_nil _ _)
  rw [List.cons_append, ← heq, tabulate_stops hT hlen hnames he] at hX
  rw [← heq, tabulate_stops hT hlen hnames' he] at hX'
  obtain rfl : table = table' := enterNew_inj (hnames.trans hnames'.symm) (hX.symm.trans (h.trans hX'))
  -- the table with and without the cell is the same, so what it holds under the name comes later
  obtain ⟨c, hc, hname⟩ := hold
  obtain ⟨m, hm, hsame⟩ := hT.complete hroom hc (hname ▸ fun hnil => hcov (.inl hnil))
  obtain ⟨n, hn, hname'⟩ := List.mem_map.mp (hnames ▸ List.mem_map_of_mem (f := WifiNetwork.ssid) hm)
  have hna : n.ssid = a.ssid := hname'.trans (hsame.trans hname)
  obtain ⟨hd, hstrong⟩ := overtaken_of_best (not_covered hcov) hna (hbests.best n hn) (hbests'.best n hn)
  exact ⟨n, hd, hna, hstrong⟩

theorem again_of_tabulate (hT : Bests maxNets cells networks) (hlen : networks.length + 1 = maxNets)
    (hne : a.ssid ≠ []) (hnew : ∀ c ∈ cells, c.ssid ≠ a.ssid)
    (h : tabulate maxNets (enter maxNets) (enterNew maxNets) networks (a :: rest) =
      tabulate maxNets (enter maxNets) (enterNew maxNets) networks rest) :
    ∃ pre post, rest = pre ++ a :: post ∧ ∀ d ∈ pre, Covered cells d := by
  have hroom : networks.length < maxNets := by omega
  have hfresh : ∀ n ∈ networks, n.ssid ≠ a.ssid := fun n hn => hnew n (hT.best n hn).mem
  rw [tabulate_stops hT hlen rfl (.inr ⟨hne, by simpa using hnew⟩), enterNew_new hne hroom hfresh] at h
  by_cases hrest : rest = []
  · rw [hrest] at h
    exact absurd (congrArg List.length h) (by simp [tabulate])
  obtain ⟨e, post, heq, he⟩ := rest_eq_repeats cells hrest
  obtain ⟨table, hbests, hnames, htable⟩ := tabulate_old hT hroom fun c hc => repeats_old cells rest hc
  have hX := htable (e :: post) (List.cons_ne_nil _ _)
  rw [← heq, tabulate_stops hT hlen hnames he, ← h] at hX
  have hlen' : table.length = networks.length := by simpa using congrArg List.length hnames
  obtain ⟨rfl, rfl⟩ : networks = table ∧ a = e := by
    unfold enterNew at hX
    split_ifs at hX
    · exact ⟨List.append_inj_left' hX rfl, (List.cons.inj (List.append_inj_right' hX rfl)).1⟩
    · exact absurd (congrArg List.length hX) (by simp [hlen'])
  refine ⟨repeats cells rest, post, heq, fun d hd => ?_⟩
  by_cases hnil : d.ssid = []
  · exact .inl hnil
  · obtain ⟨n, hn, hsame⟩ := hbests.complete hroom (List.mem_append_right cells hd) hnil
    exact .inr ⟨n, (hT.best n hn).mem, hsame,
      (hbests.best n hn).signal_le (List.mem_append_right cells hd) hsame.symm⟩

theorem unnoticed_of_tabulate (hT : Bests maxNets cells networks) (hlen : networks.length + 1 = maxNets)
    (h : tabulate maxNets (enter maxNets) (enterNew maxNets) networks (a :: rest) =
      tabulate maxNets (enter maxNets) (enterNew maxNets) networks rest) : Unnoticed cells a rest := by
  by_cases hcov : Covered cells a
  · exact .covered hcov
  by_cases hold : ∃ c ∈ cells, c.ssid = a.ssid
  · by_cases hrest : rest = []
    · exact .last hold hrest
    · obtain ⟨d, hd, hname, hstrong⟩ := overtaken_of_tabulate hT hlen hcov hold hrest h
      exact .overtaken hold d hd hname hstrong
  · have hnew : ∀ c ∈ cells, c.ssid ≠ a.ssid := fun c hc hname => hold ⟨c, hc, hname⟩
    obtain ⟨pre, post, hrest, hpre⟩ := again_of_tabulate hT hlen (fun hnil => hcov (.inl hnil)) hnew h
    exact .again hnew pre post hrest hpre

theorem unnoticed_iff (hb : b.ssid = []) : (∀ maxNets,
      tabulate maxNets (enter maxNets) (enterNew maxNets) [] (cells ++ a :: rest) =
        tabulate maxNets (enter maxNets) (enterNew maxNets) [] (cells ++ b :: rest)) ↔ Unnoticed cells a rest := by
  constructor
  · intro h
    obtain ⟨table, hbests, htable⟩ := tabulate_bests cells (Nat.lt_succ_self _)
    apply unnoticed_of_tabulate hbests
    · rw [hbests.length]
      omega
    · have hsame := h (distinct [] (cells.map WifiNetwork.ssid) + 1)
      rwa [htable _ (List.cons_ne_nil _ _), htable _ (List.cons_ne_nil _ _), tabulate_nameless hb] at hsame
  · exact same_of_unnoticed hb

end JurkOS.Userland.Wifi
