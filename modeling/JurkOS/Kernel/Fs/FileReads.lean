import JurkOS.Kernel.Fs.Addressing
import JurkOS.Kernel.Fs.Boot
import JurkOS.Kernel.Fs.Fat32Files
import JurkOS.Lib.Loop

/-!
How far the read handlers of the two volumes go, for every offset and size and
whatever the links of the file allocation table are.
-/

namespace JurkOS.Kernel.Fs

open Lib Lib.Libc Lib.Memory

variable {σ : Type}

/-! ### Counted loops of `fat32_read_impl` -/

section Counted

variable (m : Mem) (fs : Fat32Fs) (fat : ℕ → ℕ)

def skipGoes (t : ℕ × ℕ) : Prop := 0 < t.1 ∧ t.2 < 0x0FFFFFF8

instance : DecidablePred skipGoes := fun _ => inferInstanceAs (Decidable (_ ∧ _))

def skipTurn (t : ℕ × ℕ) : ℕ × ℕ := (t.1 - 1, fat t.2)

def copyGoes (size : ℕ) (t : CopyState) : Prop := t.bytesRead < size ∧ 2 ≤ t.cluster ∧ t.cluster < 0x0FFFFFF8

instance (size : ℕ) : DecidablePred (copyGoes size) := fun _ => inferInstanceAs (Decidable (_ ∧ _ ∧ _))

def copyTurn (size : ℕ) (t : CopyState) : CopyState where
  bytesRead := t.bytesRead + t.count fs size
  cluster := fat t.cluster
  clusterOffset := 0
  out := copyOut m (fs.diskBase + clusterOffset fs t.cluster + t.clusterOffset) (t.count fs size) t.bytesRead t.out

structure ReadCount where
  skips : ℕ
  copies : ℕ
  returned : ℕ
  out : Mem

/-- The read with its links from `fat`, up to the given numbers of turns. -/
def fat32ReadCount (skipLimit copyLimit first fileSize offset size : ℕ) (out : Mem) : Option ReadCount :=
  if fileSize ≤ offset then some ⟨0, 0, 0, out⟩
  else do
    let size := if fileSize < wrap32 (offset + size) then fileSize - offset else size
    let (skips, _, cluster) ← Loop.run skipGoes (skipTurn fat) skipLimit (offset / fs.clusterSize, first)
    let (copies, t) ←
      Loop.run (copyGoes size) (copyTurn m fs fat size) copyLimit ⟨0, cluster, offset % fs.clusterSize, out⟩
    some ⟨skips, copies, t.bytesRead, t.out⟩

variable {m fs fat} {size : ℕ}

theorem run_skip (fat : ℕ → ℕ) (skip c : ℕ) :
    ∃ k rest, Loop.run skipGoes (skipTurn fat) skip (skip, c) = some (k, rest) :=
  Loop.run_halts (I := fun _ => True) (V := Prod.fst) (fun _ _ hgoes => ⟨trivial, Nat.sub_lt hgoes.1 Nat.one_pos⟩)
    trivial le_rfl

theorem run_skip_eq (m : Mem) (fs : Fat32Fs) (skip c : ℕ) :
    (Loop.run skipGoes (skipTurn (fat32GetNextCluster m fs)) skip (skip, c)).map (fun r => r.2.2) =
      some (skipLoop m fs skip c) := by
  induction skip generalizing c with
  | zero => rfl
  | succ skip ih =>
    unfold skipLoop
    by_cases hend : c < 0x0FFFFFF8
    · rw [Loop.run_goes ⟨Nat.succ_pos skip, hend⟩, Option.map_map, if_pos hend]
      exact ih _
    · rw [Loop.run_stop (fun h => hend h.2), if_neg hend]
      rfl

theorem readLoop_turn (n : ℕ) (t : CopyState) :
    readLoop m fs size (n + 1) t.bytesRead t.cluster t.clusterOffset t.out =
      if copyGoes size t then
        let t' := copyTurn m fs (fat32GetNextCluster m fs) size t
        readLoop m fs size n t'.bytesRead t'.cluster t'.clusterOffset t'.out
      else some (t.bytesRead, t.out) := by
  rw [readLoop]
  obtain ⟨hdata, hptr⟩ | ⟨hdata, hptr⟩ := clusterPtr_cases fs t.cluster
  · by_cases hmore : t.bytesRead < size
    · rw [if_pos ⟨hmore, hdata.2⟩, if_pos (c := copyGoes size t) ⟨hmore, hdata⟩, hptr]
      rfl
    · rw [if_neg (fun h => hmore h.1), if_neg (fun h : copyGoes size t => hmore h.1)]
  · rw [if_neg (fun h : copyGoes size t => hdata h.2)]
    split_ifs with hmore
    · rw [hptr hmore.2]
    · rfl

theorem run_copy_eq (n : ℕ) (t : CopyState) :
    (Loop.run (copyGoes size) (copyTurn m fs (fat32GetNextCluster m fs) size) n t).map
        (fun r => (r.2.bytesRead, r.2.out)) =
      readLoop m fs size (n + 1) t.bytesRead t.cluster t.clusterOffset t.out := by
  induction n generalizing t with
  | zero =>
    rw [readLoop_turn]
    by_cases hgoes : copyGoes size t
    · rw [if_pos hgoes, Loop.run, if_pos hgoes]
      rfl
    · rw [if_neg hgoes, Loop.run_stop hgoes]
      rfl
  | succ n ih =>
    rw [readLoop_turn]
    by_cases hgoes : copyGoes size t
    · rw [if_pos hgoes, Loop.run_goes hgoes, Option.map_map]
      exact ih _
    · rw [if_neg hgoes, Loop.run_stop hgoes]
      rfl

def turnsLeft (fs : Fat32Fs) (size : ℕ) (t : CopyState) : ℕ :=
  (size - t.bytesRead + t.clusterOffset + (fs.clusterSize - 1)) / fs.clusterSize

theorem turnsLeft_copyTurn {t : CopyState} (hoff : t.clusterOffset < fs.clusterSize) (hgoes : copyGoes size t) :
    turnsLeft fs size (copyTurn m fs fat size t) < turnsLeft fs size t := by
  have hmore : t.bytesRead < size := hgoes.1
  have hpos : 0 < fs.clusterSize := Nat.lt_of_le_of_lt (Nat.zero_le _) hoff
  unfold turnsLeft copyTurn CopyState.count
  dsimp only
  by_cases hlast : size - t.bytesRead ≤ fs.clusterSize - t.clusterOffset
  · rw [min_eq_right hlast, Nat.add_sub_cancel' hmore.le, Nat.sub_self, Nat.div_eq_of_lt (by omega)]
    exact Nat.div_pos (by omega) hpos
  · rw [min_eq_left (by omega)]
    have hwhole : size - t.bytesRead + t.clusterOffset + (fs.clusterSize - 1) =
        size - (t.bytesRead + (fs.clusterSize - t.clusterOffset)) + 0 + (fs.clusterSize - 1) + fs.clusterSize := by
      omega
    rw [hwhole, Nat.add_div_right _ hpos]
    exact Nat.lt_succ_self _

def CopyHolds (fs : Fat32Fs) (size : ℕ) (out : Mem) (t : CopyState) : Prop :=
  t.bytesRead ≤ size ∧ t.clusterOffset < fs.clusterSize ∧ ∀ i, t.bytesRead ≤ i → t.out i = out i

theorem copyTurn_inside {out : Mem} {t : CopyState} (h : CopyHolds fs size out t) (hgoes : copyGoes size t) :
    CopyHolds fs size out (copyTurn m fs fat size t) ∧
      turnsLeft fs size (copyTurn m fs fat size t) < turnsLeft fs size t := by
  obtain ⟨hle, hoff, hout⟩ := h
  have hcount : t.bytesRead + t.count fs size ≤ size := by
    unfold CopyState.count
    have := hgoes.1
    omega
  refine ⟨⟨hcount, Nat.lt_of_le_of_lt (Nat.zero_le _) hoff, fun i hi => ?_⟩, ?_⟩
  · refine Eq.trans (if_neg ?_) (hout i (le_trans (Nat.le_add_right _ _) hi))
    intro h
    exact absurd h.2 (Nat.not_lt.mpr hi)
  · exact turnsLeft_copyTurn hoff hgoes

theorem readLoop_run {t t' : CopyState} {n k : ℕ} (hoff : t.clusterOffset < fs.clusterSize)
    (h : Loop.run (copyGoes size) (copyTurn m fs (fat32GetNextCluster m fs) size) n t = some (k, t')) :
    readLoop m fs size (size + 1) t.bytesRead t.cluster t.clusterOffset t.out = some (t'.bytesRead, t'.out) := by
  have hturn (t : CopyState) (hoff : t.clusterOffset < fs.clusterSize) (hgoes : copyGoes size t) :
      let t' := copyTurn m fs (fat32GetNextCluster m fs) size t
      t'.clusterOffset < fs.clusterSize ∧ size - t'.bytesRead < size - t.bytesRead := by
    refine ⟨Nat.lt_of_le_of_lt (Nat.zero_le _) hoff, ?_⟩
    have hmore : t.bytesRead < size := hgoes.1
    unfold copyTurn CopyState.count
    dsimp only
    omega
  obtain ⟨j, u, hrun⟩ := Loop.run_halts (I := fun t : CopyState => t.clusterOffset < fs.clusterSize)
    (V := fun t : CopyState => size - t.bytesRead) hturn hoff (Nat.sub_le size t.bytesRead)
  rw [← run_copy_eq, hrun, (Loop.run_unique hrun h).2]
  rfl

theorem turnsLeft_start {offset asked c : ℕ} {out : Mem} (hpos : 0 < fs.clusterSize) (hle : size ≤ asked) :
    turnsLeft fs size ⟨0, c, offset % fs.clusterSize, out⟩ ≤ asked / fs.clusterSize + 2 := by
  have hoff : offset % fs.clusterSize < fs.clusterSize := Nat.mod_lt _ hpos
  have hsum : size - 0 + offset % fs.clusterSize + (fs.clusterSize - 1) ≤ asked + 2 * fs.clusterSize := by omega
  exact (Nat.div_le_div_right hsum).trans (Nat.add_mul_div_right _ _ hpos).le

theorem run_copy (fat : ℕ → ℕ) {t : CopyState} {out : Mem} {n : ℕ} (h : CopyHolds fs size out t)
    (hn : turnsLeft fs size t ≤ n) :
    ∃ k t', Loop.run (copyGoes size) (copyTurn m fs fat size) n t = some (k, t') ∧ CopyHolds fs size out t' := by
  obtain ⟨k, t', hrun⟩ := Loop.run_halts (V := turnsLeft fs size) (fun _ => copyTurn_inside) h hn
  exact ⟨k, t', hrun, (Loop.run_invariant (I := CopyHolds fs size out)
    (fun _ hs hgoes => (copyTurn_inside hs hgoes).1) h hrun).1⟩

theorem clusterSize_pos {d z : ℕ} (h : fat32Volume m d z = some fs) : 0 < fs.clusterSize := by
  unfold fat32Volume at h
  dsimp only at h
  split_ifs at h with hsize hzero htype
  rw [not_or] at hzero
  cases h
  have hbytes : load m (d + wrap32 (partitionLba m d * 512) + 11) 2 < 256 ^ 2 := load_lt _ _ _
  have hsectors : load m (d + wrap32 (partitionLba m d * 512) + 13) 1 < 256 ^ 1 := load_lt _ _ _
  have hprod := Nat.mul_le_mul hbytes.le hsectors.le
  dsimp only
  rw [wrap32, Nat.mod_eq_of_lt (lt_of_le_of_lt hprod (by norm_num))]
  exact Nat.mul_pos (Nat.pos_of_ne_zero hzero.1) (Nat.pos_of_ne_zero hzero.2)

end Counted

/-! ### Every read comes to its end -/

theorem clip_le (fileSize offset size : ℕ) :
    (if fileSize < wrap32 (offset + size) then fileSize - offset else size) ≤ size := by
  have hwrap : wrap32 (offset + size) ≤ offset + size := Nat.mod_le _ _
  split_ifs <;> omega

theorem fat32ReadCount_eq {K : Machine σ} {s : State σ} {node : Node} {first fileSize offset size n : ℕ} {out : Mem}
    {r : ReadCount} (hpriv : node.devicePriv = some (.fat32 first fileSize)) (hpos : 0 < s.currentFat.clusterSize)
    (h : fat32ReadCount K.mem s.currentFat (fat32GetNextCluster K.mem s.currentFat)
      (offset / s.currentFat.clusterSize) n first fileSize offset size out = some r) :
    fat32ReadImpl K s node offset size out = some (r.returned, r.out) := by
  unfold fat32ReadCount at h
  unfold fat32ReadImpl
  rw [hpriv]
  dsimp only
  by_cases hend : fileSize ≤ offset
  · rw [if_pos hend] at h ⊢
    cases h
    rfl
  rw [if_neg hend] at h ⊢
  generalize (if fileSize < wrap32 (offset + size) then fileSize - offset else size) = clipped at h ⊢
  obtain ⟨⟨k, rest⟩, hskip, h⟩ := Option.bind_eq_some_iff.mp h
  obtain ⟨⟨copies, t⟩, hcopy, hr⟩ := Option.bind_eq_some_iff.mp h
  cases hr
  have hcluster := run_skip_eq K.mem s.currentFat (offset / s.currentFat.clusterSize) first
  rw [hskip] at hcluster
  rw [← Option.some.inj hcluster]
  exact readLoop_run (Nat.mod_lt offset hpos) hcopy

theorem file_read_ends {K : Machine σ} {s : State σ} {d z : ℕ} (hvolume : fat32Volume K.mem d z = some s.currentFat)
    (fat : ℕ → ℕ) (node : Node) (first fileSize offset size : ℕ) (out : Mem) :
    ∃ r, fat32ReadCount K.mem s.currentFat fat (offset / s.currentFat.clusterSize)
        (size / s.currentFat.clusterSize + 2) first fileSize offset size out = some r ∧
      r.skips ≤ offset / s.currentFat.clusterSize ∧ r.copies ≤ size / s.currentFat.clusterSize + 2 ∧
      r.returned ≤ size ∧ (∀ i, r.returned ≤ i → r.out i = out i) ∧
      (fat = fat32GetNextCluster K.mem s.currentFat → node.devicePriv = some (.fat32 first fileSize) →
        fat32ReadImpl K s node offset size out = some (r.returned, r.out)) := by
  have hpos := clusterSize_pos hvolume
  suffices hrun : ∃ r, fat32ReadCount K.mem s.currentFat fat (offset / s.currentFat.clusterSize)
        (size / s.currentFat.clusterSize + 2) first fileSize offset size out = some r ∧
      r.skips ≤ offset / s.currentFat.clusterSize ∧ r.copies ≤ size / s.currentFat.clusterSize + 2 ∧
      r.returned ≤ size ∧ ∀ i, r.returned ≤ i → r.out i = out i by
    obtain ⟨r, hr, hskips, hcopies, hle, hout⟩ := hrun
    refine ⟨r, hr, hskips, hcopies, hle, hout, fun hfat hpriv => ?_⟩
    exact fat32ReadCount_eq hpriv hpos (hfat ▸ hr)
  unfold fat32ReadCount
  by_cases hend : fileSize ≤ offset
  · rw [if_pos hend]
    exact ⟨_, rfl, Nat.zero_le _, Nat.zero_le _, Nat.zero_le _, fun _ _ => rfl⟩
  rw [if_neg hend]
  have hclip := clip_le fileSize offset size
  generalize (if fileSize < wrap32 (offset + size) then fileSize - offset else size) = clipped at hclip ⊢
  obtain ⟨skips, rest, hskip⟩ := run_skip fat (offset / s.currentFat.clusterSize) first
  have hstart : CopyHolds s.currentFat clipped out ⟨0, rest.2, offset % s.currentFat.clusterSize, out⟩ :=
    ⟨Nat.zero_le clipped, Nat.mod_lt offset hpos, fun _ _ => rfl⟩
  obtain ⟨copies, t, hcopy, hle, -, hout⟩ := run_copy (m := K.mem) fat hstart (turnsLeft_start hpos hclip)
  refine ⟨⟨skips, copies, t.bytesRead, t.out⟩, ?_, ?_⟩
  · simp [hskip, hcopy]
  · exact ⟨(Loop.run_eq_some_iff.mp hskip).1, (Loop.run_eq_some_iff.mp hcopy).1, hle.trans hclip, hout⟩

theorem twoCluster_volume : fat32Volume twoClusterMachine.mem 0x100000 2048 = some twoClusterState.currentFat := by
  decide

theorem file_read_ends_twoCluster : ∃ r, fat32ReadCount twoClusterMachine.mem twoClusterState.currentFat (fun _ => 3)
      (600 / twoClusterState.currentFat.clusterSize) (200 / twoClusterState.currentFat.clusterSize + 2) 3 2000 600 200
      (fun _ => 0) = some r ∧ r.returned ≤ 200 := by
  obtain ⟨r, hr, -, -, hle, -⟩ := file_read_ends twoCluster_volume (fun _ => 3) {} 3 2000 600 200 fun _ => 0
  exact ⟨r, hr, hle⟩

/-! ### Which bytes are delivered -/

section Delivered

variable (m : Mem) (fs : Fat32Fs)

def chainCluster (first j : ℕ) : ℕ := (fat32GetNextCluster m fs)^[j] first

def ChainHolds (first offset pos : ℕ) : Prop :=
  ∀ j ≤ pos / fs.clusterSize, chainCluster m fs first j < 0x0FFFFFF8 ∧
    (offset / fs.clusterSize ≤ j → 2 ≤ chainCluster m fs first j)

variable {m fs} {size : ℕ}

theorem chainCluster_succ (c j : ℕ) : chainCluster m fs c (j + 1) = chainCluster m fs (fat32GetNextCluster m fs c) j :=
  Function.iterate_succ_apply _ _ _

theorem skipLoop_holds (skip q c : ℕ) :
    (∀ j ≤ q, 2 ≤ chainCluster m fs (skipLoop m fs skip c) j ∧
      chainCluster m fs (skipLoop m fs skip c) j < 0x0FFFFFF8) ↔
      ∀ j ≤ skip + q, chainCluster m fs c j < 0x0FFFFFF8 ∧ (skip ≤ j → 2 ≤ chainCluster m fs c j) := by
  induction skip generalizing c with
  | zero => simp [skipLoop, and_comm]
  | succ skip ih =>
    unfold skipLoop
    by_cases hend : c < 0x0FFFFFF8
    · rw [if_pos hend, ih]
      constructor
      · intro h j hj
        cases j with
        | zero => exact ⟨hend, fun hle => absurd hle (Nat.not_succ_le_zero skip)⟩
        | succ j =>
          rw [chainCluster_succ]
          exact ⟨(h j (by omega)).1, fun hle => (h j (by omega)).2 (Nat.le_of_succ_le_succ hle)⟩
      · intro h j hj
        have hj' := h (j + 1) (by omega)
        rw [chainCluster_succ] at hj'
        exact ⟨hj'.1, fun hle => hj'.2 (Nat.succ_le_succ hle)⟩
    · rw [if_neg hend]
      constructor
      · exact fun h => absurd (h 0 (Nat.zero_le q)).2 hend
      · exact fun h => absurd (h 0 (Nat.zero_le _)).1 hend

theorem copyTurn_bytes (m : Mem) (fs : Fat32Fs) (fat : ℕ → ℕ) (size : ℕ) (t : CopyState) :
    (copyTurn m fs fat size t).bytesRead = t.bytesRead + min (fs.clusterSize - t.clusterOffset) (size - t.bytesRead) :=
  rfl

-- Induction on the turns; the first one delivers the bytes up to the end of its cluster.
theorem readLoop_delivers {fuel : ℕ} {t : CopyState} (hoff : t.clusterOffset < fs.clusterSize)
    (hle : t.bytesRead ≤ size) (hfuel : size - t.bytesRead < fuel) :
    ∃ n out, readLoop m fs size fuel t.bytesRead t.cluster t.clusterOffset t.out = some (n, out) ∧ t.bytesRead ≤ n ∧
      ∀ k, t.bytesRead ≤ k → (k < n ↔ k < size ∧ ∀ j ≤ (k - t.bytesRead + t.clusterOffset) / fs.clusterSize,
        2 ≤ chainCluster m fs t.cluster j ∧ chainCluster m fs t.cluster j < 0x0FFFFFF8) := by
  induction fuel generalizing t with
  | zero => exact absurd hfuel (Nat.not_lt_zero _)
  | succ fuel ih =>
    rw [readLoop_turn]
    by_cases hgoes : copyGoes size t
    · have hmore : t.bytesRead < size := hgoes.1
      have hturn := copyTurn_bytes m fs (fat32GetNextCluster m fs) size t
      obtain ⟨n, out, hrun, hlen, hdel⟩ := ih (t := copyTurn m fs (fat32GetNextCluster m fs) size t)
        (Nat.lt_of_le_of_lt (Nat.zero_le _) hoff) (by omega) (by omega)
      rw [if_pos hgoes]
      refine ⟨n, out, hrun, by omega, fun k hk => ?_⟩
      by_cases hnear : k < (copyTurn m fs (fat32GetNextCluster m fs) size t).bytesRead
      · have hzero : (k - t.bytesRead + t.clusterOffset) / fs.clusterSize = 0 := Nat.div_eq_of_lt (by omega)
        rw [hzero]
        have hdata : ∀ j ≤ 0, 2 ≤ chainCluster m fs t.cluster j ∧ chainCluster m fs t.cluster j < 0x0FFFFFF8 := by
          intro j hj
          obtain rfl := Nat.le_zero.mp hj
          exact hgoes.2
        exact iff_of_true (by omega) ⟨by omega, hdata⟩
      · rw [hdel k (by omega)]
        refine and_congr_right fun hlt => ?_
        have hsucc : (k - t.bytesRead + t.clusterOffset) / fs.clusterSize =
            (k - (copyTurn m fs (fat32GetNextCluster m fs) size t).bytesRead + 0) / fs.clusterSize + 1 := by
          rw [← Nat.add_div_right _ (Nat.lt_of_le_of_lt (Nat.zero_le _) hoff)]
          congr 1
          omega
        rw [hsucc]
        constructor
        · intro h j hj
          cases j with
          | zero => exact hgoes.2
          | succ j => exact h j (Nat.le_of_succ_le_succ hj)
        · intro h j hj
          exact h (j + 1) (Nat.succ_le_succ hj)
    · rw [if_neg hgoes]
      refine ⟨_, _, rfl, le_rfl, fun k hk => ?_⟩
      constructor
      · intro hlt
        exact absurd hlt (Nat.not_lt.mpr hk)
      · rintro ⟨hlt, hdata⟩
        exact absurd ⟨Nat.lt_of_le_of_lt hk hlt, hdata 0 (Nat.zero_le _)⟩ hgoes

theorem fat32ReadImpl_delivers {K : Machine σ} {s : State σ} {node : Node} {first fileSize offset : ℕ} (size : ℕ)
    (out : Mem) (hpriv : node.devicePriv = some (.fat32 first fileSize)) (hpos : 0 < s.currentFat.clusterSize)
    (hopen : offset < fileSize) :
    ∃ n out', fat32ReadImpl K s node offset size out = some (n, out') ∧
      ∀ k, k < n ↔ k < (if fileSize < wrap32 (offset + size) then fileSize - offset else size) ∧
        ChainHolds K.mem s.currentFat first offset (offset + k) := by
  unfold fat32ReadImpl
  rw [hpriv]
  dsimp only
  rw [if_neg (Nat.not_le.mpr hopen)]
  generalize (if fileSize < wrap32 (offset + size) then fileSize - offset else size) = clipped
  obtain ⟨n, out', hrun, -, hdel⟩ := readLoop_delivers (m := K.mem)
    (t := ⟨0, skipLoop K.mem s.currentFat (offset / s.currentFat.clusterSize) first,
      offset % s.currentFat.clusterSize, out⟩)
    (Nat.mod_lt offset hpos) (Nat.zero_le clipped) (Nat.lt_succ_self _)
  refine ⟨n, out', hrun, fun k => ?_⟩
  have hplace : (offset + k) / s.currentFat.clusterSize = offset / s.currentFat.clusterSize +
      (k - 0 + offset % s.currentFat.clusterSize) / s.currentFat.clusterSize := by
    rw [← Nat.mul_add_div hpos]
    congr 1
    have := Nat.div_add_mod offset s.currentFat.clusterSize
    omega
  rw [hdel k (Nat.zero_le k), skipLoop_holds, ChainHolds, hplace]

end Delivered

/-! ### Only bytes of the file -/

def DeliversOnly (fileSize offset n : ℕ) : Prop := if fileSize ≤ offset then n = 0 else n ≤ fileSize - offset

instance (fileSize offset n : ℕ) : Decidable (DeliversOnly fileSize offset n) :=
  inferInstanceAs (Decidable (if fileSize ≤ offset then n = 0 else n ≤ fileSize - offset))

theorem deliversOnly_end {fileSize offset n : ℕ} (h : fileSize ≤ offset) : DeliversOnly fileSize offset n ↔ n = 0 := by
  rw [DeliversOnly, if_pos h]

theorem deliversOnly_open {fileSize offset n : ℕ} (h : offset < fileSize) :
    DeliversOnly fileSize offset n ↔ n ≤ fileSize - offset := by
  rw [DeliversOnly, if_neg (Nat.not_le.mpr h)]

-- A sum that wraps is below the offset, so that the length is not cut.
theorem clip_wraps {fileSize offset size : ℕ} (hoffset : offset < 2 ^ 32) (hsize : size < 2 ^ 32)
    (hfile : fileSize < 2 ^ 32) (hopen : offset < fileSize) (hwrap : ¬ offset + size < 2 ^ 32) :
    (if fileSize < wrap32 (offset + size) then fileSize - offset else size) = size ∧ fileSize - offset < size := by
  have hsum : wrap32 (offset + size) = offset + size - 2 ^ 32 := by
    rw [wrap32, Nat.mod_eq_sub_mod (Nat.not_lt.mp hwrap), Nat.mod_eq_of_lt (by omega)]
  refine ⟨if_neg ?_, by omega⟩
  omega

theorem clip_fits {fileSize offset size : ℕ} (hopen : offset < fileSize) (hfits : offset + size < 2 ^ 32) :
    (if fileSize < wrap32 (offset + size) then fileSize - offset else size) ≤ fileSize - offset := by
  rw [wrap32, Nat.mod_eq_of_lt hfits]
  split_ifs <;> omega

theorem fat32_delivers_iff {K : Machine σ} {s : State σ} {node : Node} {first fileSize offset size n : ℕ}
    {out out' : Mem} (hpriv : node.devicePriv = some (.fat32 first fileSize)) (hpos : 0 < s.currentFat.clusterSize)
    (hoffset : offset < 2 ^ 32) (hsize : size < 2 ^ 32) (hfile : fileSize < 2 ^ 32)
    (hread : fat32ReadImpl K s node offset size out = some (n, out')) :
    DeliversOnly fileSize offset n ↔ fileSize ≤ offset ∨ offset + size < 2 ^ 32 ∨
      ¬ ChainHolds K.mem s.currentFat first offset fileSize := by
  by_cases hend : fileSize ≤ offset
  · rw [deliversOnly_end hend]
    unfold fat32ReadImpl at hread
    rw [hpriv] at hread
    dsimp only at hread
    rw [if_pos hend] at hread
    cases hread
    exact iff_of_true rfl (.inl hend)
  have hopen := Nat.not_le.mp hend
  obtain ⟨n', out'', hread', hdel⟩ := fat32ReadImpl_delivers (K := K) size out hpriv hpos hopen
  cases hread.symm.trans hread'
  rw [deliversOnly_open hopen, or_iff_right hend, ← Nat.not_lt, hdel]
  by_cases hfits : offset + size < 2 ^ 32
  · have hclip := clip_fits hopen hfits
    exact iff_of_true (fun h => absurd h.1 (by omega)) (.inl hfits)
  · obtain ⟨hclip, hlong⟩ := clip_wraps hoffset hsize hfile hopen hfits
    rw [hclip, or_iff_right hfits, Nat.add_sub_cancel' hopen.le]
    exact not_congr (and_iff_right hlong)

theorem jurkvfs_delivers_iff {fileSize offset size : ℕ} (hoffset : offset < 2 ^ 32) (hsize : size < 2 ^ 32)
    (hfile : fileSize < 2 ^ 32) :
    DeliversOnly fileSize offset (if fileSize ≤ offset then 0
        else if fileSize < wrap32 (offset + size) then fileSize - offset else size) ↔
      fileSize ≤ offset ∨ offset + size < 2 ^ 32 := by
  by_cases hend : fileSize ≤ offset
  · rw [deliversOnly_end hend, if_pos hend]
    exact iff_of_true rfl (.inl hend)
  have hopen := Nat.not_le.mp hend
  rw [deliversOnly_open hopen, if_neg hend, or_iff_right hend]
  by_cases hfits : offset + size < 2 ^ 32
  · exact iff_of_true (clip_fits hopen hfits) hfits
  · obtain ⟨hclip, hlong⟩ := clip_wraps hoffset hsize hfile hopen hfits
    rw [hclip]
    exact iff_of_false (Nat.not_le.mpr hlong) hfits

theorem reads_inside_file_iff {K : Machine σ} {s : State σ} {node : Node} {offset size : ℕ} (out : Mem)
    (hoffset : offset < 2 ^ 32) (hsize : size < 2 ^ 32) :
    (∀ first fileSize d z, node.devicePriv = some (.fat32 first fileSize) → fileSize < 2 ^ 32 →
        fat32Volume K.mem d z = some s.currentFat →
        ∃ n out', fat32ReadImpl K s node offset size out = some (n, out') ∧
          (DeliversOnly fileSize offset n ↔ fileSize ≤ offset ∨ offset + size < 2 ^ 32 ∨
            ¬ ChainHolds K.mem s.currentFat first offset fileSize)) ∧
      ∀ i, node.devicePriv = some (.jurkvfs i) →
        let fileSize := load K.mem (jurkvfsInode s.currentFs i + 68) 4
        ∃ n out', jurkvfsReadImpl K s node offset size out = some (n, out') ∧
          (DeliversOnly fileSize offset n ↔ fileSize ≤ offset ∨ offset + size < 2 ^ 32) := by
  constructor
  · intro first fileSize d z hpriv hfile hvolume
    have hpos := clusterSize_pos hvolume
    have hread : ∃ n out', fat32ReadImpl K s node offset size out = some (n, out') := by
      by_cases hend : fileSize ≤ offset
      · exact ⟨0, out, by simp [fat32ReadImpl, hpriv, hend]⟩
      · obtain ⟨n, out', hread, -⟩ := fat32ReadImpl_delivers (K := K) size out hpriv hpos (Nat.not_le.mp hend)
        exact ⟨n, out', hread⟩
    obtain ⟨n, out', hread⟩ := hread
    exact ⟨n, out', hread, fat32_delivers_iff hpriv hpos hoffset hsize hfile hread⟩
  · intro i hpriv
    have hsize68 : load K.mem (jurkvfsInode s.currentFs i + 68) 4 < 256 ^ 4 := load_lt _ _ _
    have hiff := jurkvfs_delivers_iff hoffset hsize hsize68
    unfold jurkvfsReadImpl
    rw [hpriv]
    dsimp only
    split_ifs at hiff ⊢ with hend hcut
    · exact ⟨_, _, rfl, hiff⟩
    · exact ⟨_, _, rfl, hiff⟩
    · exact ⟨_, _, rfl, hiff⟩

def twoClusterNode : Node := { flags := VFS_FILE, read := some .fat32, devicePriv := some (.fat32 3 700) }

def imageState : State ℕ :=
  { powerOn with currentFs := (jurkvfsVolume (imageOf []) 0x100000 1536).getD {} }

def imageNode : Node := { flags := VFS_FILE, read := some .jurkvfs, devicePriv := some (.jurkvfs 1) }

theorem reads_inside_file_tail :
    (∃ n out', fat32ReadImpl twoClusterMachine twoClusterState twoClusterNode 600 200 (fun _ => 0) = some (n, out') ∧
      DeliversOnly 700 600 n) ∧
    ∃ n out', jurkvfsReadImpl plainMachine imageState imageNode 600 700 (fun _ => 0) = some (n, out') ∧
      DeliversOnly 960 600 n := by
  constructor
  · obtain ⟨n, out', hread, hiff⟩ := (reads_inside_file_iff (fun _ => 0) (show 600 < 2 ^ 32 by norm_num)
      (show 200 < 2 ^ 32 by norm_num)).1 3 700 0x100000 2048
      (show twoClusterNode.devicePriv = _ from rfl) (by norm_num) twoCluster_volume
    exact ⟨n, out', hread, hiff.mpr (.inr (.inl (by norm_num)))⟩
  · have hfile : load plainMachine.mem (jurkvfsInode imageState.currentFs 1 + 68) 4 = 960 := by decide
    obtain ⟨n, out', hread, hiff⟩ := (reads_inside_file_iff (fun _ => 0) (show 600 < 2 ^ 32 by norm_num)
      (show 700 < 2 ^ 32 by norm_num)).2 1 (show imageNode.devicePriv = _ from rfl)
    exact ⟨n, out', hread, hfile ▸ hiff.mpr (.inr (by norm_num))⟩

theorem reads_beyond_file :
    (∃ n out', fat32ReadImpl twoClusterMachine twoClusterState twoClusterNode 1 0xFFFFFFFF (fun _ => 0) =
      some (n, out') ∧ ¬ DeliversOnly 700 1 n) ∧
    ∃ n out', jurkvfsReadImpl plainMachine imageState imageNode 1 0xFFFFFFFF (fun _ => 0) = some (n, out') ∧
      ¬ DeliversOnly 960 1 n := by
  constructor
  · have hpos : 0 < twoClusterState.currentFat.clusterSize := clusterSize_pos twoCluster_volume
    have hpriv : twoClusterNode.devicePriv = some (.fat32 3 700) := rfl
    obtain ⟨n, out', hread, -⟩ := fat32ReadImpl_delivers (K := twoClusterMachine) 0xFFFFFFFF (fun _ => 0) hpriv hpos
      (show 1 < 700 by norm_num)
    refine ⟨n, out', hread, ?_⟩
    have hchain : ChainHolds twoClusterMachine.mem twoClusterState.currentFat 3 1 700 := by
      unfold ChainHolds
      decide
    rw [fat32_delivers_iff hpriv hpos (by norm_num) (by norm_num) (by norm_num) hread]
    rintro (h | h | h)
    · exact absurd h (by norm_num)
    · exact absurd h (by norm_num)
    · exact h hchain
  · refine ⟨0xFFFFFFFF, _, rfl, ?_⟩
    decide

end JurkOS.Kernel.Fs
