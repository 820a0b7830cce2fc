import JurkOS.Kernel.Hardware.Plain

/-!
The tables that the kernel can take over: on any other there is memory around them
with which it goes wrong.
-/

namespace JurkOS.Kernel.Hardware

open Lib Lib.Memory Lib.Radix Paging Pmm Loader

variable {m m' : Mem} {cr3 n : ℕ} {frame : ℕ → ℕ} {q : Path} {t : ℕ} {i : Index .x86_64}

def firstIndex : Index .x86_64 := ⟨0, by decide⟩

/-! ### The kernel on the way -/

theorem SameTables.refl : SameTables m cr3 m := fun _ _ _ _ => rfl

theorem vmmGetPhys_walk (h : FourLevel m cr3) (v : ℕ) : vmmGetPhys .x86_64 (adopted m cr3 n) v =
    ((walk (child .x86_64) (entries .x86_64 m) (hwRoot cr3) (path .x86_64 v ++ [leaf .x86_64 v])).map
      (· + v % PAGE_SIZE)).getD 0 := by
  have hmem : (adopted m cr3 n).mem = m := rfl
  rw [vmmGetPhys_leafEntry h.root_ne_zero (adopted_table h), ← walk_leafEntry, hmem]

theorem SameTables.follow (hm : SameTables m cr3 m') (hq : q.length ≤ 3)
    (ht : walk hwChild (entries .x86_64 m) (hwRoot cr3) q = some t)
    (hshort : ∀ (p : Path) u j, p.length < q.length → walk hwChild (entries .x86_64 m) (hwRoot cr3) p = some u →
      entries .x86_64 m u j &&& PAGE_PRESENT ≠ 0 → entries .x86_64 m u j < 2 ^ 52) :
    walk (child .x86_64) (entries .x86_64 m') (hwRoot cr3) q = some t := by
  induction q using List.reverseRecOn generalizing t with
  | nil => exact ht
  | append_singleton q j ih =>
    rw [List.length_append, List.length_singleton] at hq hshort
    rw [walk_concat] at ht ⊢
    obtain ⟨u, hu, hchild⟩ := Option.bind_eq_some_iff.mp ht
    obtain ⟨hpresent, -, rfl⟩ := hwChild_eq_some hchild
    have hlt := hshort q u j (Nat.lt_succ_self _) hu hpresent
    have hup := ih (by omega) hu fun p u j hp => hshort p u j (hp.trans (Nat.lt_succ_self _))
    rw [hup, Option.bind_some, hm.entries_eq (by omega) hu, child_of_present hpresent, and_addressMask hlt]

def PlainAbove (m : Mem) (cr3 d : ℕ) : Prop :=
  ∀ (p : Path) u j, p.length < d → walk hwChild (entries .x86_64 m) (hwRoot cr3) p = some u →
    entries .x86_64 m u j &&& PAGE_PRESENT ≠ 0 → entries .x86_64 m u j < 2 ^ 52

/-! ### The last level -/

theorem leaf_lt_of_agrees (h : FourLevel m cr3) (hagrees : Agrees m cr3 n frame) (hq : q.length = 3)
    (ht : walk hwChild (entries .x86_64 m) (hwRoot cr3) q = some t) (hshort : PlainAbove m cr3 3)
    (hpresent : entries .x86_64 m t i &&& PAGE_PRESENT ≠ 0) : entries .x86_64 m t i < 2 ^ 52 := by
  have hlen : (q ++ [i]).length = 4 := by rw [List.length_append, hq, List.length_singleton]
  obtain ⟨v, hv, hc, hpath, hoff⟩ := exists_address (q ++ [i]) hlen (o := 0) (by decide)
  have hphys := hagrees.phys v hv hc
  have hkernel : walk (child .x86_64) (entries .x86_64 m) (hwRoot cr3) q = some t :=
    SameTables.refl.follow hq.le ht (by rw [hq]; exact hshort)
  rw [vmmGetPhys_walk h, hpath, walk_concat, hkernel, Option.bind_some, child_of_present hpresent, hoff, translate,
    if_pos hc, hpath, hwWalk_append (List.cons_ne_nil i []) ht, hwWalk_page hpresent (.inl rfl) (by decide)] at hphys
  change (entries .x86_64 m t i &&& frameMask .x86_64) + 0 =
    (entries .x86_64 m t i &&& addressMask 12) + v % PAGE_SIZE at hphys
  have hbound := addressMask_lt (entries .x86_64 m t i)
  rw [hoff, and_frameMask (entries_lt m t i)] at hphys
  rw [PAGE_SIZE] at hbound
  omega

/-! ### An address that is no address -/

def above (m : Mem) (c : UInt8) : Mem := fun x => if x < 2 ^ 52 then m x else c

theorem above_sameTables (m : Mem) (cr3 : ℕ) (c : UInt8) : SameTables m cr3 (above m c) := by
  intro u hu x hx
  have hbound := hu.aligned.2
  obtain ⟨-, hhi⟩ := hx
  exact if_pos (by omega)

theorem above_zero {u : ℕ} (hu : 2 ^ 52 ≤ u) (j : Index .x86_64) : entries .x86_64 (above m 0) u j = 0 := by
  apply load_eq_zero
  intro x hx
  obtain ⟨hlo, -⟩ := hx
  exact if_neg (by omega)

theorem above_ones {u : ℕ} (hu : 2 ^ 52 ≤ u) (j : Index .x86_64) :
    child .x86_64 (entries .x86_64 (above m 0xFF) u j) = some (frameMask .x86_64) := by
  have hones : entries .x86_64 (above m 0xFF) u j + 1 = 256 ^ 8 := by
    apply load_eq_ones
    intro x hx
    obtain ⟨hlo, -⟩ := hx
    exact if_neg (by omega)
  have hentry : entries .x86_64 (above m 0xFF) u j = 2 ^ 64 - 1 := by omega
  rw [hentry]
  decide

theorem above_walk {u : ℕ} (hu : 2 ^ 52 ≤ u) (p : Path) :
    ∃ x, 2 ^ 52 ≤ x ∧ walk (child .x86_64) (entries .x86_64 (above m 0xFF)) u p = some x := by
  induction p generalizing u with
  | nil => exact ⟨u, hu, rfl⟩
  | cons j p ih =>
    rw [walk, above_ones hu, Option.bind_some]
    exact ih (by decide)

theorem upper_lt_of_agrees (h : FourLevel m cr3) (hagrees : ∀ m', SameTables m cr3 m' → Agrees m' cr3 n frame)
    (hq : q.length < 3) (ht : walk hwChild (entries .x86_64 m) (hwRoot cr3) q = some t)
    (hshort : PlainAbove m cr3 q.length) (hpresent : entries .x86_64 m t i &&& PAGE_PRESENT ≠ 0) :
    entries .x86_64 m t i < 2 ^ 52 := by
  by_contra hhigh
  set p : Path := List.replicate (2 - q.length) firstIndex with hp
  have hlen : (q ++ i :: firstIndex :: p).length = 4 := by
    simp only [hp, List.length_append, List.length_cons, List.length_replicate]
    omega
  obtain ⟨v, hv, hc, hpath, hoff⟩ := exists_address _ hlen (o := 0) (by decide)
  have hnext : 2 ^ 52 ≤ entries .x86_64 m t i &&& frameMask .x86_64 := by
    rw [and_frameMask (entries_lt m t i)]
    omega
  -- whatever is past the physical addresses, the kernel goes there
  have hphys (c : UInt8) : vmmGetPhys .x86_64 (adopted (above m c) cr3 n) v =
      ((walk (child .x86_64) (entries .x86_64 (above m c)) (entries .x86_64 m t i &&& frameMask .x86_64)
        (firstIndex :: p)).map (· + v % PAGE_SIZE)).getD 0 := by
    have hsame := above_sameTables m cr3 c
    have hkernel := hsame.follow hq.le ht hshort
    rw [vmmGetPhys_walk (hsame.fourLevel h), hpath, Radix.walk_append, hkernel, Option.bind_some, walk,
      hsame.entries_eq hq.le ht, child_of_present hpresent, Option.bind_some]
  have hboth (c : UInt8) : vmmGetPhys .x86_64 (adopted (above m c) cr3 n) v = (translate m cr3 v).getD 0 := by
    have hsame := above_sameTables m cr3 c
    rw [(hagrees _ hsame).phys v hv hc, hsame.translate_eq]
  have hzero := hphys 0
  rw [walk, above_zero hnext, child_zero, Option.bind_none, hboth] at hzero
  obtain ⟨x, hx, hwalk⟩ := above_walk (m := m) hnext (firstIndex :: p)
  have hones := hphys 0xFF
  rw [hwalk, hboth, hzero, hoff] at hones
  change 0 = x + 0 at hones
  omega

/-! ### A large page -/

open Classical in
noncomputable def tablesOnly (m : Mem) (cr3 : ℕ) : Mem :=
  fun x => if ∃ u, Table m cr3 u ∧ x ∈ Span u PAGE_SIZE then m x else 0

theorem tablesOnly_sameTables : SameTables m cr3 (tablesOnly m cr3) := fun u hu _ hx => if_pos ⟨u, hu, hx⟩

theorem table_of_entry {u : ℕ} {j : Index .x86_64} (hu : u % PAGE_SIZE = 0)
    (hentry : entries .x86_64 (tablesOnly m cr3) u j ≠ 0) : Table m cr3 u := by
  by_contra hno
  apply hentry
  have hindex := wordBytes_mul_index j
  apply load_eq_zero
  rintro x ⟨hlo, hhi⟩
  apply if_neg
  rintro ⟨t, ht, hlo', hhi'⟩
  have hne : u ≠ t := fun he => hno (he ▸ ht)
  have hapart := pages_apart ht.aligned.1 hu hne
  omega

theorem walk_aligned {p : Path} {u : ℕ}
    (hu : walk (child .x86_64) (entries .x86_64 m) (hwRoot cr3) p = some u) : u % PAGE_SIZE = 0 := by
  induction p using List.reverseRecOn with
  | nil =>
    rw [← Option.some.inj hu]
    exact hwRoot_aligned
  | append_singleton p j _ =>
    rw [walk_concat] at hu
    obtain ⟨x, -, hchild⟩ := Option.bind_eq_some_iff.mp hu
    unfold child at hchild
    split_ifs at hchild
    rw [← Option.some.inj hchild, and_frameMask (entries_lt m x j)]
    exact Nat.mul_mod_left _ _

theorem descend_present {s : Paging.State} {p : Path} {u : ℕ} (flags : ℕ)
    (hu : walk (child .x86_64) (entries .x86_64 s.mem) t p = some u) :
    descend .x86_64 frame flags p t s = (u, s) := by
  induction p generalizing t with
  | nil =>
    rw [← Option.some.inj hu]
    rfl
  | cons j p ih =>
    rw [walk] at hu
    obtain ⟨x, hchild, hrest⟩ := Option.bind_eq_some_iff.mp hu
    have hpresent : ¬ entryAt .x86_64 s.mem t j &&& PAGE_PRESENT = 0 := by
      intro hzero
      have hnone : child .x86_64 (entries .x86_64 s.mem t j) = none := if_pos hzero
      rw [hnone] at hchild
      cases hchild
    have hnext : nextTable .x86_64 frame s t j flags = (x, s) := by
      unfold nextTable
      rw [if_neg hpresent]
      have hsome := child_of_present hpresent
      exact congrArg (·, s) (Option.some.inj (hsome.symm.trans hchild))
    rw [descend, hnext]
    exact ih hrest

theorem vmmMapPage_present (h : FourLevel m cr3) {phys virt flags u : ℕ}
    (hu : walk (child .x86_64) (entries .x86_64 m) (hwRoot cr3) (path .x86_64 virt) = some u) :
    (vmmMapPage .x86_64 frame cr3 (adopted m cr3 n) phys virt flags).mem =
      setEntry .x86_64 m u (leaf .x86_64 virt) ((phys &&& frameMask .x86_64) ||| flags ||| PAGE_PRESENT) := by
  have hstart : start .x86_64 cr3 (adopted m cr3 n) = adopted m cr3 n := by
    unfold start
    rw [if_neg]
    rw [adopted_table h]
    exact h.root_ne_zero
  rw [vmmMapPage_flags, hstart, adopted_table h, descend_present (s := adopted m cr3 n) flags hu]
  rfl

/-! ### An entry of a table overwritten -/

theorem setEntry_table (h : FourLevel m cr3) (e : ℕ) (hq : q.length ≤ 3)
    (ht : walk hwChild (entries .x86_64 m) (hwRoot cr3) q = some t) :
    walk hwChild (entries .x86_64 (setEntry .x86_64 m t i e)) (hwRoot cr3) q = some t := by
  have htable : Table m cr3 t := ⟨q, hq, ht⟩
  rw [walk_congr (d := q.length) _ (le_refl _), ht]
  intro p u j hp hu
  have hu' : Table m cr3 u := ⟨p, by omega, hu⟩
  apply entries_setEntry_ne htable.aligned.1 hu'.aligned.1
  left
  rintro rfl
  rw [h.separated p q u (by omega) hq hu ht] at hp
  exact lt_irrefl _ hp

/-- What `vmm_map_page` writes for a page at `x` with the large-page bit among the flags. -/
def largeEntry (x : ℕ) : ℕ := (x &&& frameMask .x86_64) ||| PAGE_LARGE ||| PAGE_PRESENT

theorem overwritten_below (h : FourLevel m cr3) (hq : q.length ≤ 3) (hne : q ≠ [])
    (ht : walk hwChild (entries .x86_64 m) (hwRoot cr3) q = some t) (k : Index .x86_64) :
    ∃ phys < 2 ^ 64, ∃ flags < 2 ^ 64, ∃ w < 2 ^ 64, q ++ [k] <+: path .x86_64 w ++ [leaf .x86_64 w] ∧
      translate (setEntry .x86_64 m t k ((phys &&& frameMask .x86_64) ||| flags ||| PAGE_PRESENT)) cr3 w ≠
        translate m cr3 w := by
  set p : Path := List.replicate (3 - q.length) firstIndex with hp
  have hpos : 0 < q.length := List.length_pos_iff.mpr hne
  have hlen : (q ++ k :: p).length = 4 := by
    simp only [hp, List.length_append, List.length_cons, List.length_replicate]
    omega
  obtain ⟨w, hw, hc, hpath, -⟩ := exists_address _ hlen (o := 0) (by decide)
  have hinside : q ++ [k] <+: path .x86_64 w ++ [leaf .x86_64 w] := by
    rw [hpath]
    exact ⟨p, by rw [List.append_assoc, List.singleton_append]⟩
  have hshort : p.length < 3 := by
    rw [hp, List.length_replicate]
    omega
  have hpage (x : ℕ) (hx : largeEntry x < 2 ^ Arch.x86_64.wordBits) (hpresent : largeEntry x &&& PAGE_PRESENT ≠ 0)
      (hlarge : largeEntry x &&& PAGE_LARGE ≠ 0) : translate (setEntry .x86_64 m t k (largeEntry x)) cr3 w =
        some ((largeEntry x &&& addressMask (12 + 9 * p.length)) + w % 2 ^ (12 + 9 * p.length)) := by
    have hself : entries .x86_64 (setEntry .x86_64 m t k (largeEntry x)) t k = largeEntry x :=
      entries_setEntry_self hx
    rw [← hself] at hpresent hlarge
    have hwalk := hwWalk_page (v := w) (p := p) hpresent (.inr hlarge) hshort
    rw [translate, if_pos hc, hpath, hwWalk_append (List.cons_ne_nil k p) (setEntry_table h _ hq ht), hwalk, hself]
  have hdiffer : largeEntry 0 &&& addressMask (12 + 9 * p.length) ≠
      largeEntry (2 ^ 30) &&& addressMask (12 + 9 * p.length) := by
    have hcases : p.length = 0 ∨ p.length = 1 ∨ p.length = 2 := by omega
    rcases hcases with he | he | he <;> rw [he] <;> decide
  by_contra hkept
  have hsame (x : ℕ) (hx : x < 2 ^ 64) :
      translate (setEntry .x86_64 m t k (largeEntry x)) cr3 w = translate m cr3 w := by
    by_contra hchanged
    exact hkept ⟨x, hx, PAGE_LARGE, by decide, w, hw, hinside, hchanged⟩
  have hfirst := hsame 0 (by decide)
  rw [← hsame (2 ^ 30) (by decide), hpage 0 (by decide) (by decide) (by decide),
    hpage (2 ^ 30) (by decide) (by decide) (by decide)] at hfirst
  exact hdiffer (Nat.add_right_cancel (Option.some.inj hfirst))

theorem hwChild_pointer {d : ℕ} (haligned : d % PAGE_SIZE = 0) (hbound : d + PAGE_SIZE ≤ 2 ^ 52) :
    (d &&& frameMask .x86_64) ||| 0 ||| PAGE_PRESENT < 2 ^ 52 ∧
      hwChild ((d &&& frameMask .x86_64) ||| 0 ||| PAGE_PRESENT) = some d := by
  have hpage : 0 < PAGE_SIZE := by decide
  have hwide : (2 : ℕ) ^ 52 ≤ 2 ^ Arch.x86_64.wordBits := Nat.pow_le_pow_right (by decide) (by decide)
  have hword : d < 2 ^ Arch.x86_64.wordBits := by omega
  have hself : d &&& frameMask .x86_64 = d := by
    rw [and_frameMask hword]
    exact Nat.div_mul_cancel (Nat.dvd_of_mod_eq_zero haligned)
  have hlt : d ||| 0 ||| PAGE_PRESENT < 2 ^ 52 :=
    Nat.or_lt_two_pow (Nat.or_lt_two_pow (by omega) (by decide)) (by decide)
  rw [hself]
  refine ⟨hlt, ?_⟩
  rw [← child_of_plain, child_entry haligned hword (by decide)]
  intro _
  refine ⟨hlt, ?_⟩
  rw [Nat.or_zero, Nat.and_or_distrib_right, and_large_of_aligned haligned]
  decide

theorem exists_route (h : FourLevel m cr3) {v : ℕ} (hv : translate m cr3 v ≠ none) :
    ∃ l p d, path .x86_64 v ++ [leaf .x86_64 v] = l :: p ∧ p.length = 3 ∧
      hwChild (entries .x86_64 m (hwRoot cr3) l) = some d ∧ hwWalk m v p d ≠ none := by
  have hc : canonical .x86_64 v := by
    by_contra hno
    exact hv (if_neg hno)
  rw [translate, if_pos hc] at hv
  obtain ⟨l, p, hpath⟩ : ∃ l p, path .x86_64 v ++ [leaf .x86_64 v] = l :: p :=
    List.exists_cons_of_length_pos (by rw [path_leaf_length]; decide)
  have hlen : (l :: p).length = 4 := by rw [← hpath, path_leaf_length]
  rw [List.length_cons] at hlen
  rw [hpath] at hv
  have hp : p ≠ [] := by
    rintro rfl
    cases hlen
  have hpresent : entries .x86_64 m (hwRoot cr3) l &&& PAGE_PRESENT ≠ 0 := by
    intro hzero
    rw [hwWalk] at hv
    exact hv (if_pos hzero)
  have htable := hwChild_of_table hpresent (h.top l hpresent)
  refine ⟨l, p, _, hpath, Nat.succ.inj hlen, htable, ?_⟩
  rwa [← List.singleton_append, hwWalk_append hp (walk_singleton.trans htable)] at hv

theorem FourLevel.below_top (h : FourLevel m cr3) {l : Index .x86_64} {d u : ℕ}
    (hd : hwChild (entries .x86_64 m (hwRoot cr3) l) = some d) (hq : q.length < 3)
    (hu : walk hwChild (entries .x86_64 m) d q = some u) : Table m cr3 u ∧ u ≠ hwRoot cr3 := by
  have hwalk : walk hwChild (entries .x86_64 m) (hwRoot cr3) (l :: q) = some u := by
    rw [walk, hd]
    exact hu
  refine ⟨⟨l :: q, hq, hwalk⟩, ?_⟩
  rintro rfl
  cases h.separated (l :: q) [] (hwRoot cr3) hq (Nat.zero_le _) hwalk rfl

theorem overwritten_top (h : FourLevel m cr3) {v : ℕ} (hv : translate m cr3 v ≠ none) (k : Index .x86_64) :
    ∃ phys < 2 ^ 64, ∃ flags < 2 ^ 64, ∃ w < 2 ^ 64, [k] <+: path .x86_64 w ++ [leaf .x86_64 w] ∧
      translate (setEntry .x86_64 m (hwRoot cr3) k ((phys &&& frameMask .x86_64) ||| flags ||| PAGE_PRESENT)) cr3 w ≠
        translate m cr3 w := by
  obtain ⟨l, p, d, -, hlen, hd, hbelow⟩ := exists_route h hv
  have hp : p ≠ [] := by
    rintro rfl
    cases hlen
  obtain ⟨w, hw, hcw, hpathw, -⟩ := exists_address (k :: p) (by rw [List.length_cons, hlen]) (o := 0) (by decide)
  have hinside : [k] <+: path .x86_64 w ++ [leaf .x86_64 w] := by
    rw [hpathw]
    exact ⟨p, rfl⟩
  by_contra hkept
  have hsame (x flags : ℕ) (hx : x < 2 ^ 64) (hflags : flags < 2 ^ 64) :
      translate (setEntry .x86_64 m (hwRoot cr3) k ((x &&& frameMask .x86_64) ||| flags ||| PAGE_PRESENT)) cr3 w =
        translate m cr3 w := by
    by_contra hchanged
    exact hkept ⟨x, hx, flags, hflags, w, hw, hinside, hchanged⟩
  have hwalk (m' : Mem) : translate m' cr3 w = hwWalk m' w (k :: p) (hwRoot cr3) := by
    rw [translate, if_pos hcw, hpathw]
  have hinvalid : translate m cr3 w = none := by
    have hself : entries .x86_64 (setEntry .x86_64 m (hwRoot cr3) k (largeEntry 0)) (hwRoot cr3) k = largeEntry 0 :=
      entries_setEntry_self (by decide)
    rw [← hsame 0 PAGE_LARGE (by decide) (by decide), hwalk]
    apply hwWalk_reserved _ hlen
    change entries .x86_64 (setEntry .x86_64 m (hwRoot cr3) k (largeEntry 0)) (hwRoot cr3) k &&& PAGE_LARGE ≠ 0
    rw [hself]
    decide
  have htable : Table m cr3 d := (h.below_top (q := []) hd (by decide) rfl).1
  obtain ⟨haligned, hbound⟩ := htable.aligned
  obtain ⟨hlt, hpointer⟩ := hwChild_pointer haligned hbound
  have hpage : 0 < PAGE_SIZE := by decide
  have hnew := hsame d 0 (by omega) (by decide)
  rw [hinvalid, hwalk] at hnew
  set e := (d &&& frameMask .x86_64) ||| 0 ||| PAGE_PRESENT
  set m' := setEntry .x86_64 m (hwRoot cr3) k e
  have hself : entries .x86_64 m' (hwRoot cr3) k = e :=
    entries_setEntry_self (hlt.trans_le (Nat.pow_le_pow_right (by decide) (by decide)))
  have hone : walk hwChild (entries .x86_64 m') (hwRoot cr3) [k] = some d := by
    rw [walk_singleton, hself, hpointer]
  have hcongr : hwWalk m' w p d = hwWalk m w p d := by
    apply hwWalk_congr
    intro q u j hq hu
    obtain ⟨htable', hne⟩ := h.below_top hd (by omega) hu
    exact entries_setEntry_ne hwRoot_aligned htable'.aligned.1 (.inl hne)
  rw [← List.singleton_append, hwWalk_append hp hone, hcongr] at hnew
  have hsome := hwWalk_isSome (m := m) v w p d
  rw [hnew, Option.isSome_none, ← Bool.not_eq_true] at hsome
  exact hsome (Option.isSome_iff_ne_none.mpr hbelow)

theorem exists_overwritten (h : FourLevel m cr3) (hq : q.length ≤ 3)
    (ht : walk hwChild (entries .x86_64 m) (hwRoot cr3) q = some t) {v : ℕ} (hv : translate m cr3 v ≠ none)
    (k : Index .x86_64) :
    ∃ phys < 2 ^ 64, ∃ flags < 2 ^ 64, ∃ w < 2 ^ 64, q ++ [k] <+: path .x86_64 w ++ [leaf .x86_64 w] ∧
      translate (setEntry .x86_64 m t k ((phys &&& frameMask .x86_64) ||| flags ||| PAGE_PRESENT)) cr3 w ≠
        translate m cr3 w := by
  by_cases hnil : q = []
  · subst hnil
    obtain rfl := Option.some.inj ht
    exact overwritten_top h hv k
  · exact overwritten_below h hq hnil ht k

/-! ### The entry behind a large page -/

theorem exists_apart_index (p q : Path) : ∃ k, ¬ p ++ [k] <+: q := by
  by_contra hall
  have hinside (k : Index .x86_64) : p ++ [k] <+: q := by
    by_contra hno
    exact hall ⟨k, hno⟩
  have hlen : (p ++ [firstIndex]).length = (p ++ [(⟨1, by decide⟩ : Index .x86_64)]).length := by simp
  have hsame := (List.prefix_of_prefix_length_le (hinside firstIndex) (hinside _) hlen.le).eq_of_length hlen
  exact absurd (List.singleton_inj.mp (List.append_cancel_left hsame)) (by decide)

theorem path_leaf_of_page {v w : ℕ} (h : v / PAGE_SIZE = w / PAGE_SIZE) :
    path .x86_64 v ++ [leaf .x86_64 v] = path .x86_64 w ++ [leaf .x86_64 w] := by
  have hnumber : pageNumber .x86_64 v = pageNumber .x86_64 w := by rw [pageNumber, pageNumber, h]
  obtain ⟨hpath, hleaf⟩ := path_leaf_eq_iff.mpr hnumber
  rw [hpath, hleaf]

theorem large_reaches (h : FourLevel m cr3) (hagrees : Agrees (tablesOnly m cr3) cr3 n frame) (hq : q.length < 3)
    (hne : q ≠ []) (ht : walk hwChild (entries .x86_64 m) (hwRoot cr3) q = some t)
    (hpresent : entries .x86_64 m t i &&& PAGE_PRESENT ≠ 0) (hlarge : entries .x86_64 m t i &&& PAGE_LARGE ≠ 0) :
    ∃ p u v, q ++ [i] <+: p ∧ p.length = 3 ∧ Table m cr3 u ∧
      walk (child .x86_64) (entries .x86_64 (tablesOnly m cr3)) (hwRoot cr3) p = some u ∧
      translate (tablesOnly m cr3) cr3 v ≠ none := by
  have hsame : SameTables m cr3 (tablesOnly m cr3) := tablesOnly_sameTables
  have hpos : 0 < q.length := List.length_pos_iff.mpr hne
  set z : Path := List.replicate (2 - q.length) firstIndex with hz
  have hlen : (q ++ i :: z).length = 3 := by
    simp only [hz, List.length_append, List.length_cons, List.length_replicate]
    omega
  have hlen' : (q ++ i :: (z ++ [firstIndex])).length = 4 := by
    simp only [hz, List.length_append, List.length_cons, List.length_replicate, List.length_nil]
    omega
  obtain ⟨v, hv, hc, hpath, hoff⟩ := exists_address _ hlen' (o := 1) (by decide)
  have hshort : (z ++ [firstIndex]).length < 3 := by
    simp only [hz, List.length_append, List.length_cons, List.length_replicate, List.length_nil]
    omega
  have htranslate : translate (tablesOnly m cr3) cr3 v = some ((entries .x86_64 m t i &&&
      addressMask (12 + 9 * (z ++ [firstIndex]).length)) + v % 2 ^ (12 + 9 * (z ++ [firstIndex]).length)) := by
    rw [hsame.translate_eq, translate, if_pos hc, hpath, hwWalk_append (List.cons_ne_nil i _) ht,
      hwWalk_page hpresent (.inr hlarge) hshort]
  have hnonzero : v % 2 ^ (12 + 9 * (z ++ [firstIndex]).length) ≠ 0 := by
    intro hzero
    have hdvd : PAGE_SIZE ∣ 2 ^ (12 + 9 * (z ++ [firstIndex]).length) := by
      rw [pow_add]
      exact Dvd.intro _ rfl
    rw [← Nat.mod_mod_of_dvd v hdvd, hzero] at hoff
    cases hoff
  have hphys := hagrees.phys v hv hc
  rw [vmmGetPhys_walk (hsame.fourLevel h), htranslate, hpath] at hphys
  have hsplit : q ++ i :: (z ++ [firstIndex]) = (q ++ i :: z) ++ [firstIndex] := by
    rw [List.append_assoc, List.cons_append]
  rw [hsplit, walk_concat] at hphys
  cases hu : walk (child .x86_64) (entries .x86_64 (tablesOnly m cr3)) (hwRoot cr3) (q ++ i :: z) with
  | none =>
    rw [hu, Option.bind_none, Option.map_none] at hphys
    change 0 = _ + _ at hphys
    omega
  | some u =>
    have hentry : entries .x86_64 (tablesOnly m cr3) u firstIndex ≠ 0 := by
      intro hzero
      rw [hu, Option.bind_some, hzero, child_zero, Option.map_none] at hphys
      change 0 = _ + _ at hphys
      omega
    refine ⟨q ++ i :: z, u, v, ⟨z, ?_⟩, hlen, table_of_entry (walk_aligned hu) hentry, hu, ?_⟩
    · rw [List.append_assoc, List.singleton_append]
    · rw [htranslate]
      exact Option.some_ne_none _

theorem page_ne_of_large {p : Path} {u v w : ℕ} {k : Index .x86_64}
    (ht : walk hwChild (entries .x86_64 m) (hwRoot cr3) q = some t) (hlarge : entries .x86_64 m t i &&& PAGE_LARGE ≠ 0)
    (hu : walk hwChild (entries .x86_64 m) (hwRoot cr3) p = some u) (hk : ¬ p ++ [k] <+: q ++ [i])
    (hw : p ++ [k] <+: path .x86_64 w ++ [leaf .x86_64 w]) (hv : q ++ [i] <+: path .x86_64 v ++ [leaf .x86_64 v]) :
    w / PAGE_SIZE ≠ v / PAGE_SIZE := by
  intro he
  rw [path_leaf_of_page he] at hw
  by_cases hle : (p ++ [k]).length ≤ (q ++ [i]).length
  · exact hk (List.prefix_of_prefix_length_le hw hv hle)
  · have hbehind : q ++ [i] <+: p := by
      apply List.prefix_of_prefix_length_le hv ((List.prefix_append p [k]).trans hw)
      simp only [List.length_append, List.length_singleton] at hle ⊢
      omega
    obtain ⟨z, rfl⟩ := hbehind
    have hnone : hwChild (entries .x86_64 m t i) = none := if_pos (.inr hlarge)
    rw [Radix.walk_append, walk_concat, ht, Option.bind_some, hnone] at hu
    cases hu

theorem table_of_agrees (h : FourLevel m cr3) (hagrees : Agrees (tablesOnly m cr3) cr3 n frame) (hq : q.length < 3)
    (ht : walk hwChild (entries .x86_64 m) (hwRoot cr3) q = some t)
    (hpresent : entries .x86_64 m t i &&& PAGE_PRESENT ≠ 0) : entries .x86_64 m t i &&& PAGE_LARGE = 0 := by
  by_contra hlarge
  have hne : q ≠ [] := by
    rintro rfl
    rw [← Option.some.inj ht] at hpresent hlarge
    exact hlarge (h.top i hpresent)
  have hsame : SameTables m cr3 (tablesOnly m cr3) := tablesOnly_sameTables
  have hfour := hsame.fourLevel h
  obtain ⟨p, u, v, hqp, hp, ⟨q', hq', hu'⟩, hu, hv⟩ := large_reaches h hagrees hq hne ht hpresent hlarge
  rw [← hsame.walk_eq hq'] at hu'
  obtain ⟨k, hk⟩ := exists_apart_index q' (q ++ [i])
  obtain ⟨phys, hphys, flags, hflags, w, hw, hinside, hchanged⟩ := exists_overwritten hfour hq' hu' hv k
  obtain ⟨virt, hvirt, hc, hpath, -⟩ := exists_address (p ++ [k])
    (by rw [List.length_append, hp, List.length_singleton]) (o := 0) (by decide)
  obtain ⟨hvp, hvk⟩ := List.append_inj' hpath rfl
  have hqv : q ++ [i] <+: path .x86_64 virt ++ [leaf .x86_64 virt] := by
    rw [hpath]
    exact hqp.trans (List.prefix_append p [k])
  rw [hsame.walk_eq hq'] at hu'
  have hpage := page_ne_of_large ht hlarge hu' hk hinside hqv
  have hmap := hagrees.map phys hphys virt hvirt hc flags hflags w hw hpage
  rw [← hvp] at hu
  rw [vmmMapPage_present hfour hu, List.singleton_inj.mp hvk] at hmap
  exact hchanged hmap

theorem plain_of_agrees (h : FourLevel m cr3) (hagrees : ∀ m', SameTables m cr3 m' → Agrees m' cr3 n frame) :
    Plain m cr3 := by
  have habove (d : ℕ) (hd : d ≤ 3) : PlainAbove m cr3 d := by
    induction d with
    | zero => exact fun p u j hp => absurd hp (Nat.not_lt_zero _)
    | succ d ih =>
      intro p u j hp hu hpresent
      rcases Nat.lt_succ_iff_lt_or_eq.mp hp with hlt | rfl
      · exact ih (by omega) p u j hlt hu hpresent
      · exact upper_lt_of_agrees h hagrees (by omega) hu (ih (by omega)) hpresent
  intro q t i hq ht hpresent
  refine ⟨?_, fun hlt => table_of_agrees h (hagrees _ tablesOnly_sameTables) hlt ht hpresent⟩
  rcases Nat.lt_or_eq_of_le hq with hlt | hthree
  · exact habove 3 (le_refl 3) q t i hlt ht hpresent
  · exact leaf_lt_of_agrees h (hagrees m SameTables.refl) hthree ht (habove 3 (le_refl 3)) hpresent

theorem Spare.same (hm : SameTables m cr3 m') (h : Spare m cr3 n frame) : Spare m' cr3 n frame where
  nonnull := h.nonnull
  aligned := h.aligned
  lt := h.lt
  distinct := h.distinct
  apart c hc htable := h.apart c hc ((hm.table _).mp htable)

theorem adopted_agrees_iff (h : FourLevel m cr3) (hspare : Spare m cr3 n frame) :
    (∀ m', SameTables m cr3 m' → Agrees m' cr3 n frame) ↔ Plain m cr3 := by
  constructor
  · exact plain_of_agrees h
  · intro hplain m' hm
    exact (hm.plain hplain).agrees (hm.fourLevel h) (hspare.same hm)

/-! ### A tree with four tables -/

def bootTables (e : ℕ) : Mem :=
  let pml4 := setEntry .x86_64 (fun _ => 0) 0x1000 firstIndex 0x2003
  let pdpt := setEntry .x86_64 pml4 0x2000 firstIndex 0x3003
  let pd := setEntry .x86_64 pdpt 0x3000 firstIndex e
  setEntry .x86_64 pd 0x4000 firstIndex 0x5003

theorem entries_setEntry {u e : ℕ} {j : Index .x86_64} (he : e < 2 ^ 64) (ht : t % PAGE_SIZE = 0)
    (hu : u % PAGE_SIZE = 0) : entries .x86_64 (setEntry .x86_64 m t i e) u j =
      if u = t ∧ j = i then e else entries .x86_64 m u j := by
  split_ifs with hsame
  · rw [hsame.1, hsame.2]
    exact entries_setEntry_self he
  · rw [not_and_or] at hsame
    exact entries_setEntry_ne ht hu hsame

theorem bootTables_entries {e u : ℕ} (he : e < 2 ^ 64) (hu : u % PAGE_SIZE = 0) (j : Index .x86_64) :
    entries .x86_64 (bootTables e) u j = if u = 0x4000 ∧ j = firstIndex then 0x5003
      else if u = 0x3000 ∧ j = firstIndex then e
      else if u = 0x2000 ∧ j = firstIndex then 0x3003 else if u = 0x1000 ∧ j = firstIndex then 0x2003 else 0 := by
  have hblank : entries .x86_64 (fun _ => 0) u j = 0 := load_eq_zero fun _ _ => rfl
  rw [bootTables, entries_setEntry (by decide) rfl hu, entries_setEntry he rfl hu,
    entries_setEntry (by decide) rfl hu, entries_setEntry (by decide) rfl hu, hblank]

def BootTable (q : Path) (u : ℕ) : Prop :=
  q = [] ∧ u = 0x1000 ∨ q = [firstIndex] ∧ u = 0x2000 ∨ q = [firstIndex, firstIndex] ∧ u = 0x3000 ∨
    q = [firstIndex, firstIndex, firstIndex] ∧ u = 0x4000

theorem bootTables_walk {e u : ℕ} (he : e < 2 ^ 64) (hpage : hwChild e = none ∨ hwChild e = some 0x4000)
    (hlen : q.length ≤ 3) (hq : walk hwChild (entries .x86_64 (bootTables e)) (hwRoot 0x1000) q = some u) :
    BootTable q u := by
  induction q using List.reverseRecOn generalizing u with
  | nil => exact .inl ⟨rfl, (Option.some.inj hq).symm⟩
  | append_singleton q j ih =>
    rw [walk_concat] at hq
    rw [List.length_append, List.length_singleton] at hlen
    obtain ⟨t, ht, hchild⟩ := Option.bind_eq_some_iff.mp hq
    have htable := ih (by omega) ht
    have haligned : t % PAGE_SIZE = 0 := by
      rcases htable with ⟨-, rfl⟩ | ⟨-, rfl⟩ | ⟨-, rfl⟩ | ⟨-, rfl⟩ <;> rfl
    rw [bootTables_entries he haligned] at hchild
    split_ifs at hchild with hpt hpd hpdpt hpml4
    · rcases htable with ⟨-, rfl⟩ | ⟨-, rfl⟩ | ⟨-, rfl⟩ | ⟨rfl, -⟩
      · simp at hpt
      · simp at hpt
      · simp at hpt
      · simp at hlen
    · rcases htable with ⟨-, rfl⟩ | ⟨-, rfl⟩ | ⟨rfl, -⟩ | ⟨-, rfl⟩
      · simp at hpd
      · simp at hpd
      · have hsome := hpage.resolve_left fun hnone => nomatch hchild.symm.trans hnone
        rw [hpd.2]
        exact .inr (.inr (.inr ⟨rfl, Option.some.inj (hchild.symm.trans hsome)⟩))
      · simp at hpd
    · rcases htable with ⟨-, rfl⟩ | ⟨rfl, -⟩ | ⟨-, rfl⟩ | ⟨-, rfl⟩
      · simp at hpdpt
      · rw [hpdpt.2]
        exact .inr (.inr (.inl ⟨rfl, (Option.some.inj hchild).symm⟩))
      · simp at hpdpt
      · simp at hpdpt
    · rcases htable with ⟨rfl, -⟩ | ⟨-, rfl⟩ | ⟨-, rfl⟩ | ⟨-, rfl⟩
      · rw [hpml4.2]
        exact .inr (.inl ⟨rfl, (Option.some.inj hchild).symm⟩)
      · simp at hpml4
      · simp at hpml4
      · simp at hpml4
    · cases hchild

theorem BootTable.eq {p : Path} {u : ℕ} (hp : BootTable p u) (hq : BootTable q u) : p = q := by
  rcases hp with ⟨rfl, rfl⟩ | ⟨rfl, rfl⟩ | ⟨rfl, rfl⟩ | ⟨rfl, rfl⟩ <;>
    rcases hq with ⟨rfl, h⟩ | ⟨rfl, h⟩ | ⟨rfl, h⟩ | ⟨rfl, h⟩ <;> first | rfl | cases h

theorem BootTable.bound {u : ℕ} (hq : BootTable q u) : 0 < u ∧ u ≤ 0x4000 ∧ u % PAGE_SIZE = 0 := by
  rcases hq with ⟨-, rfl⟩ | ⟨-, rfl⟩ | ⟨-, rfl⟩ | ⟨-, rfl⟩ <;> decide

theorem bootTables_fourLevel {e : ℕ} (he : e < 2 ^ 64) (hpage : hwChild e = none ∨ hwChild e = some 0x4000) :
    FourLevel (bootTables e) 0x1000 where
  cr3_lt := by decide
  separated p q u hp hq hwp hwq := (bootTables_walk he hpage hp hwp).eq (bootTables_walk he hpage hq hwq)
  nonnull := by
    rintro u ⟨q, hlen, hq⟩
    exact (bootTables_walk he hpage hlen hq).bound.1.ne'
  top j _ := by
    rw [bootTables_entries he hwRoot_aligned]
    split_ifs with hpt hpd
    · cases hpt.1
    · cases hpd.1
    · rfl
    · rfl
    · rfl

theorem bootTables_spare {e : ℕ} (he : e < 2 ^ 64) (hpage : hwChild e = none ∨ hwChild e = some 0x4000) :
    Spare (bootTables e) 0x1000 8 frameStream where
  nonnull c _ := by
    unfold frameStream
    omega
  aligned c _ := by
    unfold frameStream PAGE_SIZE
    omega
  lt c _ := by
    unfold frameStream
    omega
  distinct c _ d _ h := by
    unfold frameStream at h
    omega
  apart c _ := by
    rintro ⟨q, hlen, hq⟩
    have htables := (bootTables_walk he hpage hlen hq).bound
    unfold frameStream at htables
    omega

theorem bootTables_plain : Plain (bootTables 0x4003) 0x1000 := by
  intro q u j hlen hq hpresent
  have htable := bootTables_walk (by decide) (.inr rfl) hlen hq
  rw [bootTables_entries (by decide) htable.bound.2.2] at hpresent ⊢
  split_ifs with hpt
  · refine ⟨by decide, fun hlt => ?_⟩
    rcases htable with ⟨-, rfl⟩ | ⟨-, rfl⟩ | ⟨-, rfl⟩ | ⟨rfl, -⟩
    · cases hpt.1
    · cases hpt.1
    · cases hpt.1
    · exact absurd hlt (by decide)
  all_goals exact ⟨by decide, fun _ => rfl⟩

theorem adopted_agrees_page : translate (bootTables 0x4003) 0x1000 0x123 = some 0x5123 ∧
    Plain (bootTables 0x4003) 0x1000 ∧ Agrees (bootTables 0x4003) 0x1000 8 frameStream := by
  refine ⟨by decide, bootTables_plain, ?_⟩
  have htree : FourLevel (bootTables 0x4003) 0x1000 := bootTables_fourLevel (by decide) (.inr rfl)
  exact (adopted_agrees_iff htree (bootTables_spare (by decide) (.inr rfl))).mpr bootTables_plain _ SameTables.refl

theorem large_page_lost : FourLevel (bootTables 0x200083) 0x1000 ∧
    Spare (bootTables 0x200083) 0x1000 8 frameStream ∧ canonical .x86_64 0x123 ∧
    translate (bootTables 0x200083) 0x1000 0x123 = some 0x200123 ∧
    vmmGetPhys .x86_64 (adopted (bootTables 0x200083) 0x1000 8) 0x123 = 0 := by
  refine ⟨bootTables_fourLevel (by decide) (.inl rfl), bootTables_spare (by decide) (.inl rfl), by decide, ?_, ?_⟩
  · decide
  · decide

end JurkOS.Kernel.Hardware
