import JurkOS.Kernel.Hardware.Walk
import Mathlib.Data.Set.Finite.List

/-!
Plain tables: the kernel walks them as the processor does, and what it adds to
them is plain.
-/

namespace JurkOS.Kernel.Hardware

open Lib Lib.Memory Lib.Radix Paging Pmm Loader

def UpperPlain (m : Mem) (r : ℕ) : Prop :=
  ∀ (q : Path) u i, q.length < 3 → walk (child .x86_64) (entries .x86_64 m) r q = some u →
    entries .x86_64 m u i &&& PAGE_PRESENT ≠ 0 →
      entries .x86_64 m u i < 2 ^ 52 ∧ entries .x86_64 m u i &&& PAGE_LARGE = 0

variable {m m' : Mem} {cr3 n r : ℕ} {frame : ℕ → ℕ}

theorem child_of_present {e : ℕ} (h : e &&& PAGE_PRESENT ≠ 0) : child .x86_64 e = some (e &&& frameMask .x86_64) :=
  if_neg h

theorem child_of_plain {e : ℕ} (h : e &&& PAGE_PRESENT ≠ 0 → e < 2 ^ 52 ∧ e &&& PAGE_LARGE = 0) :
    child .x86_64 e = hwChild e := by
  by_cases hpresent : e &&& PAGE_PRESENT = 0
  · have hnone : hwChild e = none := if_pos (.inl hpresent)
    rw [hnone]
    exact if_pos hpresent
  · obtain ⟨hlt, htable⟩ := h hpresent
    rw [child_of_present hpresent, hwChild_of_table hpresent htable, and_addressMask hlt]

theorem Plain.walk_eq (h : Plain m cr3) {q : Path} (hq : q.length ≤ 3) :
    walk (child .x86_64) (entries .x86_64 m) (hwRoot cr3) q = walk hwChild (entries .x86_64 m) (hwRoot cr3) q := by
  apply walk_congr_child _ hq
  intro q u j hlt hu
  apply child_of_plain
  intro hpresent
  obtain ⟨hentry, htable⟩ := h q u j (by omega) hu hpresent
  exact ⟨hentry, htable hlt⟩

theorem Plain.upper (h : Plain m cr3) : UpperPlain m (hwRoot cr3) := by
  intro q u i hq hu hpresent
  rw [h.walk_eq hq.le] at hu
  obtain ⟨hlt, htable⟩ := h q u i hq.le hu hpresent
  exact ⟨hlt, htable hq⟩

theorem hwWalk_plain {v t : ℕ} {p : Path} {l : Index .x86_64} (h : UpperPlain m r) (q : Path)
    (hq : walk (child .x86_64) (entries .x86_64 m) r q = some t) (hlen : q.length + p.length = 3)
    (hleaf : ∀ u, walk (child .x86_64) (entries .x86_64 m) t p = some u →
      entries .x86_64 m u l &&& PAGE_PRESENT ≠ 0 → entries .x86_64 m u l < 2 ^ 52) :
    hwWalk m v (p ++ [l]) t =
      (walk (child .x86_64) (entries .x86_64 m) t (p ++ [l])).map (· + v % PAGE_SIZE) := by
  induction p generalizing q t with
  | nil =>
    rw [List.nil_append, walk]
    by_cases hpresent : entries .x86_64 m t l &&& PAGE_PRESENT = 0
    · have hnone : child .x86_64 (entries .x86_64 m t l) = none := if_pos hpresent
      rw [hnone, hwWalk]
      exact if_pos hpresent
    · rw [hwWalk_page hpresent (.inl rfl) (by decide), child_of_present hpresent]
      have hlt := hleaf t rfl hpresent
      exact congrArg (fun x => some (x + v % PAGE_SIZE)) (and_addressMask hlt)
  | cons i p ih =>
    rw [List.length_cons] at hlen
    rw [List.cons_append, walk]
    by_cases hpresent : entries .x86_64 m t i &&& PAGE_PRESENT = 0
    · have hnone : child .x86_64 (entries .x86_64 m t i) = none := if_pos hpresent
      rw [hnone, hwWalk]
      exact if_pos hpresent
    · obtain ⟨hlt, htable⟩ := h q t i (by omega) hq hpresent
      have hmore : ¬ (p ++ [l] = [] ∨ entries .x86_64 m t i &&& PAGE_LARGE ≠ 0) := by
        rw [not_or, not_not]
        exact ⟨List.append_ne_nil_of_right_ne_nil p (List.cons_ne_nil l []), htable⟩
      have hsome := child_of_present hpresent
      rw [hsome, Option.bind_some, hwWalk]
      simp only [if_neg hpresent, if_neg hmore, and_addressMask hlt]
      apply ih (q ++ [i])
      · rw [walk_concat, hq]
        exact hsome
      · rw [List.length_append, List.length_singleton]
        omega
      · intro u hu
        apply hleaf u
        rw [walk, hsome]
        exact hu

theorem translate_plain {s : Paging.State} {v : ℕ} (h : UpperPlain s.mem (hwRoot cr3))
    (hleaf : leafEntry .x86_64 (hwRoot cr3) s v &&& PAGE_PRESENT ≠ 0 →
      leafEntry .x86_64 (hwRoot cr3) s v < 2 ^ 52) (hv : canonical .x86_64 v) :
    translate s.mem cr3 v = (child .x86_64 (leafEntry .x86_64 (hwRoot cr3) s v)).map (· + v % PAGE_SIZE) := by
  have hroot : walk (child .x86_64) (entries .x86_64 s.mem) (hwRoot cr3) [] = some (hwRoot cr3) := rfl
  have hlen : ([] : Path).length + (path .x86_64 v).length = 3 := by
    rw [length_path, List.length_nil, Nat.zero_add]
    rfl
  rw [translate, if_pos hv, ← walk_leafEntry]
  apply hwWalk_plain h [] hroot hlen
  intro u hu hpresent
  have hentry : leafEntry .x86_64 (hwRoot cr3) s v = entries .x86_64 s.mem u (leaf .x86_64 v) := entry_of_walk hu
  rw [hentry] at hleaf
  exact hleaf hpresent

theorem Plain.leaf_lt {s : Paging.State} (h : Plain s.mem cr3) (v : ℕ)
    (hpresent : leafEntry .x86_64 (hwRoot cr3) s v &&& PAGE_PRESENT ≠ 0) :
    leafEntry .x86_64 (hwRoot cr3) s v < 2 ^ 52 := by
  have hlen : (path .x86_64 v).length ≤ 3 := (length_path v).le
  unfold leafEntry at hpresent ⊢
  cases hu : walk (child .x86_64) (entries .x86_64 s.mem) (hwRoot cr3) (path .x86_64 v) with
  | none =>
    rw [entry_of_none hu, Nat.zero_and] at hpresent
    exact absurd rfl hpresent
  | some u =>
    rw [entry_of_walk hu] at hpresent ⊢
    rw [h.walk_eq hlen] at hu
    exact (h _ u _ hlen hu hpresent).1

theorem Plain.phys (h : FourLevel m cr3) (hplain : Plain m cr3) {v : ℕ} (hv : canonical .x86_64 v) :
    vmmGetPhys .x86_64 (adopted m cr3 n) v = (translate m cr3 v).getD 0 := by
  have hmem : (adopted m cr3 n).mem = m := rfl
  have hadopted : Plain (adopted m cr3 n).mem cr3 := hplain
  have htranslate := translate_plain hadopted.upper (hadopted.leaf_lt v) hv
  rw [vmmGetPhys_leafEntry h.root_ne_zero (adopted_table h), ← htranslate, hmem]

structure Shifted (n n' : ℕ) (s s' : Paging.State) : Prop where
  mem : s'.mem = s.mem
  table : s'.kernelTable = s.kernelTable
  allocs : ∃ c, s.allocs = n + c ∧ s'.allocs = n' + c

variable {n' : ℕ} {frame' : ℕ → ℕ} {s s' : Paging.State}

theorem nextTable_shifted (t i flags : ℕ) (hframe : ∀ c, frame' (n' + c) = frame (n + c)) (h : Shifted n n' s s') :
    (nextTable .x86_64 frame' s' t i flags).1 = (nextTable .x86_64 frame s t i flags).1 ∧
      Shifted n n' (nextTable .x86_64 frame s t i flags).2 (nextTable .x86_64 frame' s' t i flags).2 := by
  obtain ⟨c, hc, hc'⟩ := h.allocs
  have hsame : frame' s'.allocs = frame s.allocs := by rw [hc, hc', hframe]
  unfold nextTable
  rw [h.mem]
  split_ifs
  · refine ⟨hsame, ?_, h.table, c + 1, ?_, ?_⟩
    · dsimp only
      rw [hsame]
    · exact congrArg (· + 1) hc
    · exact congrArg (· + 1) hc'
  · exact ⟨rfl, h⟩

theorem descend_shifted (p : Path) (t flags : ℕ) (hframe : ∀ c, frame' (n' + c) = frame (n + c))
    (h : Shifted n n' s s') :
    (descend .x86_64 frame' flags p t s').1 = (descend .x86_64 frame flags p t s).1 ∧
      Shifted n n' (descend .x86_64 frame flags p t s).2 (descend .x86_64 frame' flags p t s').2 := by
  induction p generalizing t s s' with
  | nil => exact ⟨rfl, h⟩
  | cons i p ih =>
    obtain ⟨htable, hnext⟩ := nextTable_shifted t i flags hframe h
    rw [descend, descend, htable]
    exact ih _ hnext

theorem vmmMapPage_shifted {phys virt flags : ℕ} (hframe : ∀ c, frame' (n' + c) = frame (n + c))
    (h : Shifted n n' s s') : (vmmMapPage .x86_64 frame' cr3 s' phys virt flags).mem =
      (vmmMapPage .x86_64 frame cr3 s phys virt flags).mem := by
  have hstart : Shifted n n' (start .x86_64 cr3 s) (start .x86_64 cr3 s') := by
    unfold start
    rw [h.table]
    split_ifs
    · exact ⟨h.mem, rfl, h.allocs⟩
    · exact h
  obtain ⟨htable, hdescend⟩ := descend_shifted (path .x86_64 virt)
    (start .x86_64 cr3 s).kernelTable flags hframe hstart
  rw [vmmMapPage_flags, vmmMapPage_flags, hstart.table, htable]
  exact congrArg (fun m => setEntry .x86_64 m _ _ _) hdescend.mem

theorem tables_finite (m : Mem) (cr3 : ℕ) : {u | Table m cr3 u}.Finite := by
  have hpaths := List.finite_length_le (Index .x86_64) 3
  apply (hpaths.image fun q => (walk hwChild (entries .x86_64 m) (hwRoot cr3) q).getD 0).subset
  rintro u ⟨q, hq, hu⟩
  refine ⟨q, hq, ?_⟩
  dsimp only
  rw [hu]
  rfl

def numbered (l : List ℕ) (n : ℕ) (frame : ℕ → ℕ) (i : ℕ) : ℕ :=
  if i < l.length then l.getD i 0 else frame (n + (i - l.length))

theorem numbered_listed {l : List ℕ} {i : ℕ} (hi : i < l.length) : numbered l n frame i = l[i] := by
  rw [numbered, if_pos hi, List.getD_eq_getElem _ _ hi]

theorem numbered_stream (l : List ℕ) (n c : ℕ) (frame : ℕ → ℕ) : numbered l n frame (l.length + c) = frame (n + c) := by
  rw [numbered, if_neg (by omega), Nat.add_sub_cancel_left]

theorem numbered_cases {l : List ℕ} {i k : ℕ} (n : ℕ) (frame : ℕ → ℕ) (hi : i < l.length + k) :
    numbered l n frame i ∈ l ∨ ∃ c < k, numbered l n frame i = frame (n + c) := by
  by_cases hlt : i < l.length
  · left
    rw [numbered_listed hlt]
    exact List.getElem_mem hlt
  · obtain ⟨c, rfl⟩ := Nat.exists_eq_add_of_le (Nat.not_lt.mp hlt)
    exact .inr ⟨c, by omega, numbered_stream l n c frame⟩

theorem numbered_inj {l : List ℕ} {i j k : ℕ} (hnodup : l.Nodup) (hapart : ∀ c < k, frame (n + c) ∉ l)
    (hdistinct : ∀ c < k, ∀ d < k, frame (n + c) = frame (n + d) → c = d) (hi : i < l.length + k)
    (hj : j < l.length + k) (h : numbered l n frame i = numbered l n frame j) : i = j := by
  by_cases hil : i < l.length
  · by_cases hjl : j < l.length
    · rw [numbered_listed hil, numbered_listed hjl] at h
      exact (List.Nodup.getElem_inj_iff hnodup).mp h
    · obtain ⟨d, rfl⟩ := Nat.exists_eq_add_of_le (Nat.not_lt.mp hjl)
      rw [numbered_listed hil, numbered_stream] at h
      exact absurd (h ▸ List.getElem_mem hil) (hapart d (by omega))
  · obtain ⟨c, rfl⟩ := Nat.exists_eq_add_of_le (Nat.not_lt.mp hil)
    rw [numbered_stream] at h
    by_cases hjl : j < l.length
    · rw [numbered_listed hjl] at h
      exact absurd (h ▸ List.getElem_mem hjl) (hapart c (by omega))
    · obtain ⟨d, rfl⟩ := Nat.exists_eq_add_of_le (Nat.not_lt.mp hjl)
      rw [numbered_stream] at h
      rw [hdistinct c (by omega) d (by omega) h]

theorem numbered_frames (h : FourLevel m cr3) (hspare : Spare m cr3 n frame) {l : List ℕ} (hnodup : l.Nodup)
    (hl : ∀ u ∈ l, Table m cr3 u ∧ u ≠ hwRoot cr3) :
    Frames .x86_64 (numbered l n frame) (hwRoot cr3) (l.length + 3) := by
  have hw : (2 : ℕ) ^ 52 ≤ 2 ^ Arch.x86_64.wordBits := Nat.pow_le_pow_right (by decide) (by decide)
  have hpage : 0 < PAGE_SIZE := by decide
  have hroot : Table m cr3 (hwRoot cr3) := ⟨[], Nat.zero_le _, rfl⟩
  refine ⟨hwRoot_aligned, ?_, ?_, ?_, ?_, ?_⟩
  · intro i hi
    rcases numbered_cases n frame hi with hmem | ⟨c, hc, he⟩
    · exact h.nonnull _ (hl _ hmem).1
    · rw [he]
      exact hspare.nonnull c hc
  · intro i hi
    rcases numbered_cases n frame hi with hmem | ⟨c, hc, he⟩
    · exact (hl _ hmem).1.aligned.1
    · rw [he]
      exact hspare.aligned c hc
  · intro i hi
    rcases numbered_cases n frame hi with hmem | ⟨c, hc, he⟩
    · have hbound := (hl _ hmem).1.aligned.2
      omega
    · rw [he]
      exact (hspare.lt c hc).trans_le hw
  · intro i hi j hj hsame
    exact numbered_inj hnodup (fun c hc hmem => hspare.apart c hc (hl _ hmem).1) hspare.distinct hi hj hsame
  · intro i hi
    rcases numbered_cases n frame hi with hmem | ⟨c, hc, he⟩
    · exact (hl _ hmem).2
    · rw [he]
      intro hsame
      exact hspare.apart c hc (hsame ▸ hroot)

/-- The tables that are there, as if they were the first frames that were given out. -/
theorem exists_numbering (h : FourLevel m cr3) (hspare : Spare m cr3 n frame) :
    ∃ frame' n', (∀ c, frame' (n' + c) = frame (n + c)) ∧ Frames .x86_64 frame' (hwRoot cr3) (n' + 3) ∧
      (∀ u, Table m cr3 u → u ∈ tables frame' (hwRoot cr3) n') ∧ ∀ c < 3, frame' (n' + c) < 2 ^ 52 := by
  obtain ⟨l, hnodup, hl⟩ : ∃ l : List ℕ, l.Nodup ∧ ∀ u, u ∈ l ↔ Table m cr3 u ∧ u ≠ hwRoot cr3 := by
    refine ⟨((tables_finite m cr3).toFinset.erase (hwRoot cr3)).toList, Finset.nodup_toList _, fun u => ?_⟩
    rw [Finset.mem_toList, Finset.mem_erase, Set.Finite.mem_toFinset, and_comm]
    rfl
  refine ⟨numbered l n frame, l.length, fun c => numbered_stream l n c frame,
    numbered_frames h hspare hnodup fun u => (hl u).mp, ?_, ?_⟩
  · intro u hu
    by_cases hat : u = hwRoot cr3
    · exact .inl hat
    · obtain ⟨i, hi, rfl⟩ := List.getElem_of_mem ((hl u).mpr ⟨hu, hat⟩)
      exact .inr ⟨i, hi, (numbered_listed hi).symm⟩
  · intro c hc
    rw [numbered_stream]
    exact hspare.lt c hc

theorem page_eq_of_pageNumber {v w : ℕ} (hv : canonical .x86_64 v) (hw : canonical .x86_64 w) (hvlt : v < 2 ^ 64)
    (hwlt : w < 2 ^ 64) (h : pageNumber .x86_64 v = pageNumber .x86_64 w) : v / PAGE_SIZE = w / PAGE_SIZE := by
  simp only [canonical, pageNumber, fanout, levels, Arch.wordBytes, PAGE_SIZE] at *
  omega

theorem and_large_of_aligned {f : ℕ} (haligned : f % PAGE_SIZE = 0) : f &&& PAGE_LARGE = 0 := by
  have hmask : PAGE_LARGE = (2 ^ 12 - 1) &&& PAGE_LARGE := by decide
  have hzero : f % 2 ^ 12 = 0 := haligned
  rw [hmask, ← Nat.and_assoc, Nat.and_two_pow_sub_one_eq_mod, hzero, Nat.zero_and]

theorem tableEntry_plain {f : ℕ} (flags : ℕ) (haligned : f % PAGE_SIZE = 0) (hlt : f < 2 ^ 52) :
    f ||| (PAGE_WRITABLE ||| (flags &&& PAGE_USER)) ||| PAGE_PRESENT < 2 ^ 52 ∧
      (f ||| (PAGE_WRITABLE ||| (flags &&& PAGE_USER)) ||| PAGE_PRESENT) &&& PAGE_LARGE = 0 := by
  have hlow : PAGE_WRITABLE ||| (flags &&& PAGE_USER) ||| PAGE_PRESENT < 2 ^ 12 :=
    Nat.or_lt_two_pow (Nat.or_lt_two_pow (by decide) (Nat.and_lt_two_pow flags (by decide))) (by decide)
  have hframe := and_large_of_aligned haligned
  have huser : flags &&& PAGE_USER &&& PAGE_LARGE = 0 := by
    have hnone : PAGE_USER &&& PAGE_LARGE = 0 := by decide
    rw [Nat.and_assoc, hnone, Nat.and_zero]
  have hwritable : PAGE_WRITABLE &&& PAGE_LARGE = 0 := by decide
  have hpresent : PAGE_PRESENT &&& PAGE_LARGE = 0 := by decide
  constructor
  · rw [Nat.or_assoc]
    exact Nat.or_lt_two_pow hlt (hlow.trans (by decide))
  · rw [Nat.and_or_distrib_right, Nat.and_or_distrib_right, Nat.and_or_distrib_right, hframe, huser, hwritable,
      hpresent]
    rfl

theorem UpperPlain.added (hold : UpperPlain s.mem r) (h : UpperAdded .x86_64 frame r s s')
    (hframes : ∀ j, s.allocs ≤ j → j < s'.allocs → frame j % PAGE_SIZE = 0 ∧ frame j < 2 ^ 52) :
    UpperPlain s'.mem r := by
  intro q u i hq hu hpresent
  have hchild : child .x86_64 (entries .x86_64 s'.mem u i) ≠ none := by
    rw [child_of_present hpresent]
    exact Option.some_ne_none _
  rcases h q u i hq hu hchild with ⟨hu', hsame⟩ | ⟨j, f, hj, hj', he⟩
  · rw [hsame] at hpresent ⊢
    exact hold q u i hq hu' hpresent
  · obtain ⟨haligned, hlt⟩ := hframes j hj hj'
    rw [he]
    exact tableEntry_plain f haligned hlt

theorem Plain.map (h : FourLevel m cr3) (hplain : Plain m cr3) (hspare : Spare m cr3 n frame) {phys virt flags w : ℕ}
    (hphys : phys < 2 ^ 64) (hvirt : virt < 2 ^ 64) (hcanonical : canonical .x86_64 virt) (hflags : flags < 2 ^ 64)
    (hw : w < 2 ^ 64) (hpage : w / PAGE_SIZE ≠ virt / PAGE_SIZE) :
    translate (vmmMapPage .x86_64 frame cr3 (adopted m cr3 n) phys virt flags).mem cr3 w = translate m cr3 w := by
  by_cases hc : canonical .x86_64 w
  · obtain ⟨frame', n', hframe, hf, hnumbered, hlt⟩ := exists_numbering h hspare
    set s : Paging.State := ⟨m, (adopted m cr3 n).kernelTable, n'⟩ with hs
    have hshift : Shifted n n' (adopted m cr3 n) s := ⟨rfl, rfl, 0, rfl, rfl⟩
    rw [← vmmMapPage_shifted hframe hshift]
    have hroot := root_eq h.cr3_lt
    have hallocs : (vmmMapPage .x86_64 frame' cr3 s phys virt flags).allocs ≤ n' + 3 := vmmMapPage_allocs_le
    have htree : Tree .x86_64 frame' (root .x86_64 cr3) s := by
      rw [hroot]
      have hwalk (q : Path) (hq : q.length ≤ levels .x86_64) :
          walk (child .x86_64) (entries .x86_64 s.mem) (hwRoot cr3) q =
            walk hwChild (entries .x86_64 m) (hwRoot cr3) q := hplain.walk_eq hq
      constructor
      · intro p q u hp hq hu hu'
        rw [hwalk p hp] at hu
        rw [hwalk q hq] at hu'
        exact h.separated p q u hp hq hu hu'
      · intro q u hq hu
        rw [hwalk q hq] at hu
        exact hnumbered u ⟨q, hq, hu⟩
    have hword : (phys &&& frameMask .x86_64) ||| leafFlags .x86_64 flags ||| PAGE_PRESENT < 2 ^ Arch.x86_64.wordBits :=
      Nat.or_lt_two_pow (Nat.or_lt_two_pow (Nat.lt_of_le_of_lt Nat.and_le_left hphys) hflags) (by decide)
    have hfr : Frames .x86_64 frame' (root .x86_64 cr3) (vmmMapPage .x86_64 frame' cr3 s phys virt flags).allocs := by
      rw [hroot]
      exact hf.mono hallocs
    obtain ⟨hkeeps, -, hleaf⟩ := vmmMapPage_keeps hfr htree (.inr rfl) hword
    rw [hroot] at hkeeps hleaf
    have hsplain : Plain s.mem cr3 := hplain
    have hsame : leafEntry .x86_64 (hwRoot cr3) (vmmMapPage .x86_64 frame' cr3 s phys virt flags) w =
        leafEntry .x86_64 (hwRoot cr3) s w := by
      rw [hleaf, if_neg]
      intro hnumber
      exact hpage (page_eq_of_pageNumber hc hcanonical hw hvirt hnumber)
    have hupper : UpperPlain (vmmMapPage .x86_64 frame' cr3 s phys virt flags).mem (hwRoot cr3) := by
      apply hsplain.upper.added hkeeps.added
      intro j hj hj'
      change n' ≤ j at hj
      have hat : j = n' + (j - n') := by omega
      refine ⟨hf.aligned j (by omega), ?_⟩
      rw [hat]
      exact hlt _ (by omega)
    have hafter := translate_plain hupper (by rw [hsame]; exact hsplain.leaf_lt w) hc
    have hbefore := translate_plain hsplain.upper (hsplain.leaf_lt w) hc
    rw [hafter, hsame, ← hbefore]
  · have hnone (m : Mem) : translate m cr3 w = none := if_neg hc
    rw [hnone, hnone]

theorem Plain.agrees (h : FourLevel m cr3) (hplain : Plain m cr3) (hspare : Spare m cr3 n frame) :
    Agrees m cr3 n frame where
  phys _ _ hv := hplain.phys h hv
  map _ hphys _ hvirt hc _ hflags _ hw hpage := hplain.map h hspare hphys hvirt hc hflags hw hpage

end JurkOS.Kernel.Hardware
