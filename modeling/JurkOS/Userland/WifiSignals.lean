import JurkOS.Userland.WifiNames

/-!
Which cell of a network is listed: `parse_iwlist_scan` keeps the strongest when the
next header comes, and makes no comparison when the scan ends.
-/

namespace JurkOS.Userland.Wifi

open Lib.Libc Lib.Roster

def Best (cells : List WifiNetwork) (n : WifiNetwork) : Prop :=
  ∃ before after, cells = before ++ n :: after ∧ (∀ c ∈ before, c.ssid = n.ssid → c.signalPct < n.signalPct) ∧
    ∀ c ∈ after, c.ssid = n.ssid → c.signalPct ≤ n.signalPct

def BestListed (maxNets : ℕ) (scan : Str) : Prop :=
  ∀ n ∈ parseIwlistScan maxNets scan, Best (iwlistCells (readLines 512 scan)) n

def LastWeak (cells : List WifiNetwork) : Prop :=
  ∀ last ∈ cells.getLast?, last.ssid = [] ∨ (∀ c ∈ cells.dropLast, c.ssid ≠ last.ssid) ∨
    ∃ c ∈ cells.dropLast, c.ssid = last.ssid ∧ last.signalPct ≤ c.signalPct

structure Bests (maxNets : ℕ) (cells networks : List WifiNetwork) : Prop where
  names : networks.map WifiNetwork.ssid = roster [] maxNets (cells.map WifiNetwork.ssid)
  best : ∀ n ∈ networks, Best cells n

variable {maxNets : ℕ} {cells networks done : List WifiNetwork} {c n last : WifiNetwork}

theorem Best.signal_le (h : Best cells n) (hc : c ∈ cells) (hname : c.ssid = n.ssid) : c.signalPct ≤ n.signalPct := by
  obtain ⟨before, after, rfl, hbefore, hafter⟩ := h
  rcases List.mem_append.mp hc with hc | hc
  · exact (hbefore c hc hname).le
  · rcases List.mem_cons.mp hc with rfl | hc
    · exact le_refl _
    · exact hafter c hc hname

theorem Best.concat (h : Best cells n) (hc : c.ssid = n.ssid → c.signalPct ≤ n.signalPct) : Best (cells ++ [c]) n := by
  obtain ⟨before, after, rfl, hbefore, hafter⟩ := h
  refine ⟨before, after ++ [c], by simp, hbefore, fun d hd hname => ?_⟩
  rcases List.mem_append.mp hd with hd | hd
  · exact hafter d hd hname
  · rw [List.mem_singleton] at hd
    subst hd
    exact hc hname

theorem best_last (h : ∀ d ∈ cells, d.ssid = c.ssid → d.signalPct < c.signalPct) : Best (cells ++ [c]) c :=
  ⟨cells, [], rfl, h, fun _ hd => absurd hd List.not_mem_nil⟩

theorem Bests.nodup (h : Bests maxNets cells networks) : (networks.map WifiNetwork.ssid).Nodup :=
  h.names ▸ roster_nodup _ _ _

theorem Bests.named (h : Bests maxNets cells networks) (hn : n ∈ networks) : n.ssid ≠ [] :=
  (mem_of_mem_roster (h.names ▸ List.mem_map_of_mem hn)).2

theorem Bests.length_le (h : Bests maxNets cells networks) :
    networks.length ≤ distinct [] (cells.map WifiNetwork.ssid) := by
  rw [← List.length_map (f := WifiNetwork.ssid), h.names, length_roster]
  exact Nat.min_le_right _ _

theorem Bests.complete (h : Bests maxNets cells networks) (hroom : networks.length < maxNets) (hc : c ∈ cells)
    (hne : c.ssid ≠ []) : ∃ n ∈ networks, n.ssid = c.ssid := by
  have hlen : (roster [] maxNets (cells.map WifiNetwork.ssid)).length < maxNets := by
    rwa [← h.names, List.length_map]
  exact List.mem_map.mp (h.names ▸ mem_roster hlen (List.mem_map_of_mem hc) hne)

theorem mem_enter_cases (hne : c.ssid ≠ []) (hnodup : (networks.map WifiNetwork.ssid).Nodup)
    (hroom : networks.length < maxNets) (hn : n ∈ enter maxNets networks c) :
    (n ∈ networks ∧ n.ssid ≠ c.ssid) ∨ (n = c ∧ ∀ old ∈ networks, old.ssid = c.ssid → old.signalPct < c.signalPct) ∨
      (n ∈ networks ∧ c.signalPct ≤ n.signalPct) := by
  rw [enter, if_neg hne] at hn
  cases hi : networks.findIdx? (·.ssid = c.ssid) with
  | none =>
    have hnew : ∀ m ∈ networks, m.ssid ≠ c.ssid := by simpa using List.findIdx?_eq_none_iff.mp hi
    simp only [hi, if_pos hroom, List.mem_append, List.mem_singleton] at hn
    rcases hn with hn | rfl
    · exact .inl ⟨hn, hnew n hn⟩
    · exact .inr (.inl ⟨rfl, fun old hold hname => absurd hname (hnew old hold)⟩)
  | some i =>
    obtain ⟨hlt, hname, -⟩ := List.findIdx?_eq_some_iff_getElem.mp hi
    rw [decide_eq_true_eq] at hname
    simp only [hi] at hn
    obtain ⟨j, hj⟩ := List.mem_iff_getElem?.mp hn
    rw [List.getElem?_modify] at hj
    by_cases hij : i = j
    · subst hij
      simp only [List.getElem?_eq_getElem hlt, if_true, Option.map_eq_map, Option.map_some, Option.some.injEq] at hj
      have hmem := List.getElem_mem hlt
      split_ifs at hj with hweak
      · refine .inr (.inl ⟨hj.symm, fun old hold holdName => ?_⟩)
        have heq := List.inj_on_of_nodup_map hnodup hold hmem (holdName.trans hname.symm)
        exact heq ▸ hweak
      · exact .inr (.inr ⟨hj ▸ hmem, hj ▸ Int.not_lt.mp hweak⟩)
    · simp only [hij, if_false, Option.map_eq_map, Option.map_id'] at hj
      refine .inl ⟨List.mem_of_getElem? hj, fun hsame => hij ?_⟩
      obtain ⟨hlt', rfl⟩ := List.getElem?_eq_some_iff.mp hj
      have hi' : i < (networks.map WifiNetwork.ssid).length := by simpa
      have hj' : j < (networks.map WifiNetwork.ssid).length := by simpa
      have hnames : (networks.map WifiNetwork.ssid)[i] = (networks.map WifiNetwork.ssid)[j] := by
        rw [List.getElem_map, List.getElem_map, hname, hsame]
      exact hnodup.getElem_inj_iff.mp hnames

theorem Bests.enter (h : Bests maxNets cells networks) (hroom : networks.length < maxNets) (c : WifiNetwork) :
    Bests maxNets (cells ++ [c]) (enter maxNets networks c) := by
  constructor
  · rw [enter_names hroom, h.names, List.map_append, List.map_singleton, roster_concat]
  · intro n hn
    by_cases hne : c.ssid = []
    · rw [Wifi.enter, if_pos hne] at hn
      exact (h.best n hn).concat fun he => absurd (he.symm.trans hne) (h.named hn)
    · rcases mem_enter_cases hne h.nodup hroom hn with ⟨hn, hother⟩ | ⟨rfl, hweak⟩ | ⟨hn, hstrong⟩
      · exact (h.best n hn).concat fun he => absurd he.symm hother
      · apply best_last
        intro d hd hname
        obtain ⟨old, hold, holdName⟩ := h.complete hroom hd (hname ▸ hne)
        have hle := (h.best old hold).signal_le hd holdName.symm
        have hlt := hweak old hold (holdName.trans hname)
        omega
      · exact (h.best n hn).concat fun _ => hstrong

theorem bests_nil (maxNets : ℕ) : Bests maxNets [] [] := ⟨rfl, fun _ hn => absurd hn List.not_mem_nil⟩

-- By induction on the cells. Each finds room, or the table is full and changes no more.
theorem tabulate_append (h : Bests maxNets done networks) (cells : List WifiNetwork) :
    ∃ table, (Bests maxNets (done ++ cells) table ∨
        ¬table.length < maxNets ∧ maxNets ≤ distinct [] ((done ++ cells).map WifiNetwork.ssid)) ∧
      ∀ X ≠ [], tabulate maxNets (enter maxNets) (enterNew maxNets) networks (cells ++ X) =
        tabulate maxNets (enter maxNets) (enterNew maxNets) table X := by
  induction cells generalizing done networks with
  | nil => exact ⟨networks, .inl (by rwa [List.append_nil]), fun X _ => rfl⟩
  | cons c cells ih =>
    by_cases hroom : networks.length < maxNets
    · rw [List.append_cons]
      obtain ⟨table, hbests, htable⟩ := ih (h.enter hroom c)
      refine ⟨table, hbests, fun X hX => ?_⟩
      rw [List.cons_append, tabulate_cons (by simp [hX]) hroom, htable X hX]
    · refine ⟨networks, .inr ⟨hroom, ?_⟩, fun X hX => ?_⟩
      · have hle := h.length_le
        have := distinct_append_le [] (done.map WifiNetwork.ssid) ((c :: cells).map WifiNetwork.ssid)
        rw [List.map_append]
        omega
      · rw [tabulate_full hroom fun c => enterNew_full hroom, tabulate_full hroom fun c => enterNew_full hroom]

theorem tabulate_bests (cells : List WifiNetwork) (hroom : distinct [] (cells.map WifiNetwork.ssid) < maxNets) :
    ∃ table, Bests maxNets cells table ∧
      ∀ X ≠ [], tabulate maxNets (enter maxNets) (enterNew maxNets) [] (cells ++ X) =
        tabulate maxNets (enter maxNets) (enterNew maxNets) table X := by
  obtain ⟨table, hbests, htable⟩ := tabulate_append (bests_nil maxNets) cells
  exact ⟨table, hbests.resolve_right fun h => absurd h.2 (Nat.not_le.mpr hroom), htable⟩

theorem lastWeak_concat : LastWeak (cells ++ [last]) ↔ last.ssid = [] ∨ (∀ c ∈ cells, c.ssid ≠ last.ssid) ∨
    ∃ c ∈ cells, c.ssid = last.ssid ∧ last.signalPct ≤ c.signalPct := by
  rw [LastWeak, List.getLast?_concat, List.dropLast_concat]
  constructor
  · exact fun h => h last rfl
  · intro h c hc
    exact Option.some.inj hc ▸ h

theorem Best.mem (h : Best cells n) : n ∈ cells := by
  obtain ⟨before, after, rfl, -⟩ := h
  simp

theorem best_enterNew_iff (h : Bests maxNets cells networks) (hroom : networks.length < maxNets) (last : WifiNetwork) :
    (∀ n ∈ enterNew maxNets networks last, Best (cells ++ [last]) n) ↔ LastWeak (cells ++ [last]) := by
  rw [lastWeak_concat]
  by_cases hne : last.ssid = []
  · rw [enterNew, if_neg fun hnew => hnew.1 hne]
    apply iff_of_true _ (.inl hne)
    exact fun n hn => (h.best n hn).concat fun he => absurd (he.symm.trans hne) (h.named hn)
  · by_cases hold : ∃ n ∈ networks, n.ssid = last.ssid
    · obtain ⟨old, hold, hname⟩ := hold
      rw [enterNew, if_neg fun hnew => hnew.2.2 old hold hname]
      constructor
      · intro hbest
        have hle := (hbest old hold).signal_le (List.mem_append_right _ List.mem_cons_self) hname.symm
        exact .inr (.inr ⟨old, (h.best old hold).mem, hname, hle⟩)
      · intro hweak n hn
        apply (h.best n hn).concat
        intro hsame
        rcases hweak with hnil | hnew | ⟨c, hc, hcName, hle⟩
        · exact absurd hnil hne
        · exact absurd hname (hnew old (h.best old hold).mem)
        · exact hle.trans ((h.best n hn).signal_le hc (hcName.trans hsame))
    · have hnew : ∀ n ∈ networks, n.ssid ≠ last.ssid := fun n hn hname => hold ⟨n, hn, hname⟩
      have hcells : ∀ c ∈ cells, c.ssid ≠ last.ssid := by
        intro c hc hname
        obtain ⟨n, hn, hsame⟩ := h.complete hroom hc (hname ▸ hne)
        exact hnew n hn (hsame.trans hname)
      rw [enterNew, if_pos ⟨hne, hroom, hnew⟩]
      apply iff_of_true _ (.inr (.inl hcells))
      intro n hn
      rcases List.mem_append.mp hn with hn | hn
      · exact (h.best n hn).concat fun he => absurd he.symm (hnew n hn)
      · rw [List.mem_singleton.mp hn]
        exact best_last fun d hd hname => absurd hname (hcells d hd)

theorem parseIwlistScan_best_iff (scan : Str)
    (hroom : distinct [] ((iwlistCells (readLines 512 scan)).map WifiNetwork.ssid) < maxNets) :
    BestListed maxNets scan ↔ LastWeak (iwlistCells (readLines 512 scan)) := by
  rw [BestListed, parseIwlistScan_eq]
  rcases List.eq_nil_or_concat' (iwlistCells (readLines 512 scan)) with hnil | ⟨cells, last, hcells⟩
  · rw [hnil]
    exact iff_of_true (fun n hn => absurd hn List.not_mem_nil) (fun last h => by cases h)
  · rw [hcells] at hroom ⊢
    have hfewer := distinct_append_le [] (cells.map WifiNetwork.ssid) ([last].map WifiNetwork.ssid)
    rw [← List.map_append] at hfewer
    obtain ⟨table, hbests, htable⟩ := tabulate_bests cells (hfewer.trans_lt hroom)
    have hlen := hbests.length_le
    rw [htable [last] (List.cons_ne_nil _ _)]
    exact best_enterNew_iff hbests (by omega) last

def twoCells (first second : String) : Str := bytes ("Cell 01\nESSID:\"lab\"\nQuality=" ++ first ++
  "/70\nCell 02\nESSID:\"lab\"\nQuality=" ++ second ++ "/70\n")

theorem parseIwlistScan_best_first : BestListed 64 (twoCells "70" "35") :=
  (parseIwlistScan_best_iff (twoCells "70" "35") (by decide)).mpr (by rw [LastWeak]; decide)

theorem parseIwlistScan_stronger_last : ¬BestListed 64 (twoCells "35" "70") := by
  intro h
  have hlisted : ⟨bytes "lab", 50, bytes "Open", 1, true⟩ ∈ parseIwlistScan 64 (twoCells "35" "70") := by decide
  have hcell : ⟨bytes "lab", 100, bytes "Open", 1, true⟩ ∈ iwlistCells (readLines 512 (twoCells "35" "70")) := by decide
  exact absurd ((h _ hlisted).signal_le hcell rfl) (by decide)

end JurkOS.Userland.Wifi
