import JurkOS.Kernel.Loader.Look
import Mathlib.Data.List.Infix
import Mathlib.Data.Nat.Bitwise

/-!
The rights that calls of `vmm_map_page` leave. A table is hung with the rights of
the call that first needs it, and no later call changes them.
-/

namespace JurkOS.Kernel.Loader

open Lib Lib.Memory Lib.Radix Paging Pmm

structure MapCall where
  phys : ℕ
  virt : ℕ
  flags : ℕ

variable (a : Arch) (frame : ℕ → ℕ) (cr3 : ℕ)

/-- `uintptr_t phys` and `uint64_t flags` -/
def MapCall.Allowed (c : MapCall) : Prop := c.phys < 2 ^ a.wordBits ∧ c.flags < 2 ^ 64

def mapCalls (l : List MapCall) (s : Paging.State) : Paging.State :=
  l.foldl (fun s c => vmmMapPage a frame cr3 s c.phys c.virt c.flags) s

def mmuRights (s : Paging.State) (v : ℕ) : Option ℕ :=
  (mmuWalk a s.mem (path a v ++ [leaf a v]) (root a cr3) (PAGE_WRITABLE ||| PAGE_USER)).map Prod.snd

def firstFlags (l : List MapCall) (q : List (Index a)) : Option ℕ :=
  (l.find? fun c => q <+: path a c.virt).map MapCall.flags

def leafFlags (flags : ℕ) : ℕ :=
  match a with
  | .x86_64 => flags
  | .x86 => flags &&& 0xFFF

structure TablesGranted (m : Mem) (r : ℕ) (G : List (Index a) → Option ℕ) : Prop where
  reach : ∀ q, q ≠ [] → q.length ≤ levels a → ((walk (child a) (entries a m) r q).isSome ↔ (G q).isSome)
  rights : ∀ q i t f, q.length < levels a → walk (child a) (entries a m) r q = some t → G (q ++ [i]) = some f →
    entries a m t i &&& (PAGE_WRITABLE ||| PAGE_USER) = PAGE_WRITABLE ||| (f &&& PAGE_USER)

variable {a frame cr3} {r : ℕ} {s : Paging.State} {G : List (Index a) → Option ℕ} {l : List MapCall} {c : MapCall}

theorem vmmMapPage_flags (s : Paging.State) (phys virt flags : ℕ) : vmmMapPage a frame cr3 s phys virt flags =
    writeEntry a (descend a frame flags (path a virt) (start a cr3 s).kernelTable (start a cr3 s)).2
      (descend a frame flags (path a virt) (start a cr3 s).kernelTable (start a cr3 s)).1 (leaf a virt)
      ((phys &&& frameMask a) ||| leafFlags a flags ||| PAGE_PRESENT) := by
  cases a <;> rfl

theorem vmmMapPage_allocs_le {phys virt flags : ℕ} :
    (vmmMapPage a frame cr3 s phys virt flags).allocs ≤ s.allocs + levels a := by
  have hall : (descend a frame flags (path a virt) (start a cr3 s).kernelTable (start a cr3 s)).2.allocs ≤
      (start a cr3 s).allocs + (path a virt).length := descend_allocs_le _
  rw [length_path, start_allocs] at hall
  rw [vmmMapPage_flags]
  exact hall

theorem leafFlags_of_lt {flags : ℕ} (h : flags < 2 ^ 12) : leafFlags a flags = flags := by
  cases a with
  | x86_64 => rfl
  | x86 =>
    change flags &&& (2 ^ 12 - 1) = flags
    rw [Nat.and_two_pow_sub_one_eq_mod, Nat.mod_eq_of_lt h]

/-! ### One table -/

theorem table_rights {f : ℕ} (flags : ℕ) (hf : f % PAGE_SIZE = 0) :
    (f ||| (PAGE_WRITABLE ||| (flags &&& PAGE_USER)) ||| PAGE_PRESENT) &&& (PAGE_WRITABLE ||| PAGE_USER) =
      PAGE_WRITABLE ||| (flags &&& PAGE_USER) := by
  have huser : PAGE_WRITABLE &&& PAGE_USER = 0 := by decide
  rw [Nat.and_comm, entry_rights _ hf, Nat.and_or_distrib_left, Nat.and_or_distrib_right, Nat.and_self,
    Nat.and_comm PAGE_USER, huser, Nat.or_zero, Nat.and_comm _ (flags &&& PAGE_USER), Nat.and_or_distrib_left,
    Nat.and_assoc, Nat.and_comm PAGE_USER, huser, Nat.and_zero, Nat.zero_or, Nat.and_assoc, Nat.and_self]

def grant (G : List (Index a) → Option ℕ) (p : List (Index a)) (flags : ℕ) (q : List (Index a)) : Option ℕ :=
  (G q).or (if q = p then some flags else none)

theorem grant_self {p : List (Index a)} (flags : ℕ) (h : (G p).isSome) : grant G p flags = G := by
  funext q
  unfold grant
  split_ifs with hq
  · rw [hq, Option.or_of_isSome h]
  · exact Option.or_none

theorem nextTable_granted {pre : List (Index a)} {t flags : ℕ} {i : Index a}
    (hf : Frames a frame r (nextTable a frame s t i flags).2.allocs) (htree : Tree a frame r s)
    (ht : walk (child a) (entries a s.mem) r pre = some t) (hpre : pre.length < levels a)
    (h : TablesGranted a s.mem r G) :
    TablesGranted a (nextTable a frame s t i flags).2.mem r (grant G (pre ++ [i]) flags) := by
  have hlen : (pre ++ [i]).length ≤ levels a := by
    rw [List.length_append, List.length_singleton]
    exact hpre
  have hnew := h.reach (pre ++ [i]) (by simp) hlen
  rw [walk_concat, ht, Option.bind_some] at hnew
  rcases nextTable_cases hf htree ht hpre with ⟨hsame, hchild⟩ | ⟨hallocs, -, -, hgrown⟩
  · rw [hsame, grant_self flags (hnew.mp (by rw [hchild]; rfl))]
    exact h
  · have hnone : G (pre ++ [i]) = none := by
      rw [hgrown.empty] at hnew
      exact Option.not_isSome_iff_eq_none.mp fun hsome => absurd (hnew.mpr hsome) (by simp)
    rw [hallocs] at hf
    constructor
    · intro q hq hle
      rw [hgrown.walk child_zero htree.separated hle, grant]
      by_cases hat : q = pre ++ [i]
      · rw [if_pos hat, if_pos hat, hat, hnone]
        rfl
      · rw [if_neg hat, if_neg hat, Option.or_none]
        exact h.reach q hq hle
    · intro q j u f hq hu hG
      rw [hgrown.walk child_zero htree.separated hq.le] at hu
      unfold grant at hG
      by_cases hat : q ++ [j] = pre ++ [i]
      · -- the new entry
        obtain ⟨rfl, hji⟩ := List.append_inj' hat rfl
        obtain rfl := List.singleton_inj.mp hji
        rw [if_neg (by simp), ht] at hu
        rw [if_pos rfl, hnone, Option.none_or] at hG
        cases hu
        cases hG
        rw [nextTable_entry (hf.word _ (Nat.lt_succ_self _)) hgrown.empty]
        exact table_rights flags (hf.aligned _ (Nat.lt_succ_self _))
      · rw [if_neg hat, Option.or_none] at hG
        have hreach := h.reach (q ++ [j]) (by simp) (by rw [List.length_append, List.length_singleton]; exact hq)
        by_cases hbelow : q = pre ++ [i]
        · rw [hbelow, walk_append, walk_concat, ht, Option.bind_some, hgrown.empty] at hreach
          rw [← hbelow, hG] at hreach
          exact absurd (hreach.mpr rfl) (by simp)
        · rw [if_neg hbelow] at hu
          rw [hgrown.keep q u j hq.le hu]
          · exact h.rights q j u f hq hu hG
          · by_contra hboth
            rw [not_or, not_not, not_not] at hboth
            obtain ⟨rfl, rfl⟩ := hboth
            exact hat (by rw [htree.separated q pre u hq.le hpre.le hu ht])

/-! ### The tables of one call -/

def grantWay (G : List (Index a) → Option ℕ) (pre p : List (Index a)) (flags : ℕ) (q : List (Index a)) : Option ℕ :=
  (G q).or (if pre.length < q.length ∧ q <+: pre ++ p then some flags else none)

theorem grantWay_nil (pre : List (Index a)) (flags : ℕ) : grantWay G pre [] flags = G := by
  funext q
  unfold grantWay
  rw [if_neg, Option.or_none]
  rintro ⟨hlt, hq⟩
  rw [List.append_nil] at hq
  exact absurd hq.length_le (Nat.not_le.mpr hlt)

theorem grantWay_cons (pre p : List (Index a)) (i : Index a) (flags : ℕ) :
    grantWay (grant G (pre ++ [i]) flags) (pre ++ [i]) p flags = grantWay G pre (i :: p) flags := by
  funext q
  unfold grantWay grant
  rw [Option.or_assoc]
  congr 1
  have hway : pre ++ [i] ++ p = pre ++ i :: p := by rw [List.append_assoc, List.singleton_append]
  have hlen : (pre ++ [i]).length = pre.length + 1 := by rw [List.length_append, List.length_singleton]
  rw [hway, hlen]
  by_cases hat : q = pre ++ [i]
  · have hon : pre.length < q.length ∧ q <+: pre ++ i :: p := by
      rw [hat, hlen]
      exact ⟨Nat.lt_succ_self _, p, hway⟩
    rw [if_pos hat, if_pos hon]
    rfl
  · rw [if_neg hat, Option.none_or]
    apply if_congr _ rfl rfl
    apply and_congr_left
    intro hq
    constructor
    · exact Nat.lt_of_succ_lt
    · intro hlt
      by_contra hshort
      have hfirst : pre ++ [i] <+: pre ++ i :: p := ⟨p, hway⟩
      apply hat
      apply (List.prefix_of_prefix_length_le hq hfirst (by rw [hlen]; omega)).eq_of_length
      rw [hlen]
      omega

theorem descend_granted (pre : List (Index a)) {p : List (Index a)} {t flags : ℕ}
    (hf : Frames a frame r (descend a frame flags p t s).2.allocs) (htree : Tree a frame r s)
    (ht : walk (child a) (entries a s.mem) r pre = some t) (hlen : pre.length + p.length = levels a)
    (h : TablesGranted a s.mem r G) :
    TablesGranted a (descend a frame flags p t s).2.mem r (grantWay G pre p flags) := by
  induction p generalizing pre t s G with
  | nil =>
    rw [grantWay_nil]
    exact h
  | cons i p ih =>
    rw [List.length_cons] at hlen
    have hfn : Frames a frame r (nextTable a frame s t i flags).2.allocs := hf.mono (descend_allocs _)
    obtain ⟨hnext, hwalk⟩ := nextTable_spec i hfn htree ht (by omega)
    have hgranted := nextTable_granted hfn htree ht (by omega) h
    rw [← grantWay_cons]
    exact ih _ hf hnext.tree hwalk (by rw [List.length_append, List.length_singleton]; omega) hgranted

theorem writeLeaf_granted {t v : ℕ} (e : ℕ) (hf : Frames a frame r s.allocs) (htree : Tree a frame r s)
    (ht : walk (child a) (entries a s.mem) r (path a v) = some t) (h : TablesGranted a s.mem r G) :
    TablesGranted a (writeEntry a s t (leaf a v) e).mem r G := by
  have hwalk (q : List (Index a)) (hq : q.length ≤ levels a) := writeLeaf_walk e hf htree ht hq
  constructor
  · intro q hq hle
    rw [hwalk q hle]
    exact h.reach q hq hle
  · intro q i u f hq hu hG
    rw [hwalk q hq.le] at hu
    have hne : u ≠ t := by
      rintro rfl
      have hsame := htree.separated q (path a v) u hq.le (length_path v).le hu ht
      rw [hsame, length_path] at hq
      exact lt_irrefl _ hq
    rw [writeLeaf_keep e hf htree ht hq.le hu (.inl hne)]
    exact h.rights q i u f hq hu hG

/-! ### Runs -/

structure Calls (a : Arch) (frame : ℕ → ℕ) (cr3 : ℕ) (l : List MapCall) (s : Paging.State) : Prop where
  tree : Tree a frame (root a cr3) s
  table : s.kernelTable = 0 ∨ s.kernelTable = root a cr3
  granted : TablesGranted a s.mem (root a cr3) (firstFlags a l)

theorem firstFlags_concat (l : List MapCall) (c : MapCall) {q : List (Index a)} (hq : q ≠ []) :
    firstFlags a (l ++ [c]) q = grantWay (firstFlags a l) [] (path a c.virt) c.flags q := by
  unfold firstFlags grantWay
  rw [List.find?_append, Option.map_or]
  congr 1
  rw [List.nil_append, List.length_nil]
  have hpos : 0 < q.length := List.length_pos_iff.mpr hq
  by_cases hway : q <+: path a c.virt
  · rw [if_pos ⟨hpos, hway⟩]
    simp [hway]
  · rw [if_neg (fun h => hway h.2)]
    simp [hway]

theorem TablesGranted.congr {m : Mem} {G' : List (Index a) → Option ℕ} (hG : ∀ q, q ≠ [] → G' q = G q)
    (h : TablesGranted a m r G) : TablesGranted a m r G' where
  reach q hq hle := by
    rw [hG q hq]
    exact h.reach q hq hle
  rights q i t f hq ht hf := by
    rw [hG _ (by simp)] at hf
    exact h.rights q i t f hq ht hf

theorem init_calls (h : Init a cr3 s) : Calls a frame cr3 [] s := by
  have htree : Tree a frame (root a cr3) s := (init_refines h).tree
  refine ⟨htree, h.table, ?_, fun q i t f _ _ hf => by cases hf⟩
  intro q hq _
  apply iff_of_false
  · intro hsome
    obtain ⟨t, ht⟩ := Option.isSome_iff_exists.mp hsome
    exact hq (walk_blank child_zero h.blank ht)
  · exact Bool.false_ne_true

theorem leaf_lt (hc : c.Allowed a) :
    (c.phys &&& frameMask a) ||| leafFlags a c.flags ||| PAGE_PRESENT < 2 ^ a.wordBits := by
  have hphys : c.phys &&& frameMask a < 2 ^ a.wordBits := Nat.lt_of_le_of_lt Nat.and_le_left hc.1
  have hpresent : PAGE_PRESENT < 2 ^ a.wordBits := by cases a <;> decide
  have hflags : leafFlags a c.flags < 2 ^ a.wordBits := by
    cases a with
    | x86_64 => exact hc.2
    | x86 => exact Nat.lt_of_le_of_lt Nat.and_le_right (by decide)
  exact Nat.or_lt_two_pow (Nat.or_lt_two_pow hphys hflags) hpresent

theorem call_calls (hf : Frames a frame (root a cr3) (vmmMapPage a frame cr3 s c.phys c.virt c.flags).allocs)
    (h : Calls a frame cr3 l s) :
    Calls a frame cr3 (l ++ [c]) (vmmMapPage a frame cr3 s c.phys c.virt c.flags) ∧ (c.Allowed a →
      ∃ t, walk (child a) (entries a (vmmMapPage a frame cr3 s c.phys c.virt c.flags).mem) (root a cr3)
          (path a c.virt) = some t ∧
        entries a (vmmMapPage a frame cr3 s c.phys c.virt c.flags).mem t (leaf a c.virt) =
          (c.phys &&& frameMask a) ||| leafFlags a c.flags ||| PAGE_PRESENT) := by
  rw [vmmMapPage_flags] at hf ⊢
  have hstart : (start a cr3 s).kernelTable = root a cr3 := by
    unfold start
    split_ifs with hzero
    · rfl
    · exact h.table.resolve_left hzero
  have htree : Tree a frame (root a cr3) (start a cr3 s) := by
    refine ⟨?_, ?_⟩
    · rw [start_mem]
      exact h.tree.separated
    · rw [start_mem, start_allocs]
      exact h.tree.owned
  have hgranted : TablesGranted a (start a cr3 s).mem (root a cr3) (firstFlags a l) := by
    rw [start_mem]
    exact h.granted
  set s₁ := start a cr3 s
  have htop : walk (child a) (entries a s₁.mem) (root a cr3) [] = some s₁.kernelTable := by rw [walk, hstart]
  have hlen : ([] : List (Index a)).length + (path a c.virt).length = levels a := by
    rw [length_path, List.length_nil, Nat.zero_add]
  have hfd : Frames a frame (root a cr3) (descend a frame c.flags (path a c.virt) s₁.kernelTable s₁).2.allocs := hf
  obtain ⟨hext, hwalk⟩ := descend_spec [] (path a c.virt) hfd htree htop hlen
  have hdescend := descend_granted [] hfd htree htop hlen hgranted
  have hleaf (q : List (Index a)) (hq : q.length ≤ levels a) := writeLeaf_walk (v := c.virt)
    ((c.phys &&& frameMask a) ||| leafFlags a c.flags ||| PAGE_PRESENT) hfd hext.tree hwalk hq
  refine ⟨⟨⟨hext.tree.separated.congr hleaf, ?_⟩, .inr (hext.table.trans hstart), ?_⟩, fun hc => ?_⟩
  · intro q u hq hu
    rw [hleaf q hq] at hu
    exact hext.tree.owned q u hq hu
  · apply TablesGranted.congr _ (writeLeaf_granted _ hfd hext.tree hwalk hdescend)
    exact fun q hq => firstFlags_concat l c hq
  · have hpath := (hleaf _ (length_path c.virt).le).trans hwalk
    exact ⟨_, hpath, entries_setEntry_self (leaf_lt hc)⟩

theorem mapCalls_allocs : s.allocs ≤ (mapCalls a frame cr3 l s).allocs := by
  induction l generalizing s with
  | nil => exact le_refl _
  | cons c l ih =>
    have hone : s.allocs ≤ (vmmMapPage a frame cr3 s c.phys c.virt c.flags).allocs := by
      rw [vmmMapPage_flags]
      exact (start_allocs s).symm.le.trans (descend_allocs _)
    exact hone.trans ih

theorem mapCalls_calls (hinit : Init a cr3 s) (hf : Frames a frame (root a cr3) (mapCalls a frame cr3 l s).allocs) :
    Calls a frame cr3 l (mapCalls a frame cr3 l s) := by
  induction l using List.reverseRecOn with
  | nil => exact init_calls hinit
  | append_singleton l c ih =>
    unfold mapCalls at hf ih ⊢
    rw [List.foldl_concat] at hf ⊢
    apply (call_calls hf _).1
    apply ih
    apply hf.mono
    exact mapCalls_allocs (l := [c])

/-! ### The rights of the page -/

theorem and_bit_cases (f k : ℕ) : f &&& 2 ^ k = 0 ∨ f &&& 2 ^ k = 2 ^ k := by
  rw [Nat.and_two_pow]
  cases f.testBit k
  · exact .inl (Nat.zero_mul _)
  · exact .inr (Nat.one_mul _)

theorem and_user_cases (f : ℕ) : f &&& PAGE_USER = 0 ∨ f &&& PAGE_USER = PAGE_USER := and_bit_cases f 2

theorem and_writable_cases (f : ℕ) : f &&& PAGE_WRITABLE = 0 ∨ f &&& PAGE_WRITABLE = PAGE_WRITABLE :=
  and_bit_cases f 1

-- Induction on the way down; the user right is lost at the first table without it.
theorem forall_prefix_cons {ι : Type} {P : List ι → Prop} {i : ι} {p : List ι} :
    (∀ q, q ≠ [] → q <+: i :: p → P q) ↔ P [i] ∧ ∀ q, q ≠ [] → q <+: p → P (i :: q) := by
  constructor
  · intro h
    exact ⟨h [i] (List.cons_ne_nil _ _) ⟨p, rfl⟩,
      fun q _ hqp => h (i :: q) (List.cons_ne_nil _ _) (List.cons_prefix_cons.mpr ⟨rfl, hqp⟩)⟩
  · rintro ⟨hfirst, hrest⟩ q hq hqp
    cases q with
    | nil => exact absurd rfl hq
    | cons j q =>
      obtain ⟨rfl, hqp'⟩ := List.cons_prefix_cons.mp hqp
      cases q with
      | nil => exact hfirst
      | cons k q => exact hrest _ (List.cons_ne_nil _ _) hqp'

theorem mmuWalk_granted {m : Mem} (h : TablesGranted a m r G) {pre p : List (Index a)} {u R : ℕ}
    (hpre : walk (child a) (entries a m) r pre = some u) (hlen : pre.length + p.length ≤ levels a)
    (hall : ∀ q, q ≠ [] → q <+: p → (G (pre ++ q)).isSome) (hR : R = PAGE_WRITABLE ∨ R = PAGE_WRITABLE ||| PAGE_USER) :
    ∃ t R', walk (child a) (entries a m) r (pre ++ p) = some t ∧ mmuWalk a m p u R = some (t, R') ∧
      (R' = PAGE_WRITABLE ∨ R' = PAGE_WRITABLE ||| PAGE_USER) ∧
      (R' = PAGE_WRITABLE ||| PAGE_USER ↔ R = PAGE_WRITABLE ||| PAGE_USER ∧
        ∀ q, q ≠ [] → q <+: p → ∀ f, G (pre ++ q) = some f → f &&& PAGE_USER ≠ 0) := by
  induction p generalizing pre u R with
  | nil =>
    refine ⟨u, R, by rwa [List.append_nil], rfl, hR, ?_⟩
    refine (and_iff_left fun q hq hnil => absurd (List.prefix_nil.mp hnil) hq).symm
  | cons i p ih =>
    rw [List.length_cons] at hlen
    obtain ⟨hfirst, hrest⟩ := forall_prefix_cons.mp hall
    obtain ⟨f, hf⟩ := Option.isSome_iff_exists.mp hfirst
    have hreach := (h.reach (pre ++ [i]) (by simp) (by rw [List.length_append, List.length_singleton]; omega)).mpr
      (by rw [hf]; rfl)
    obtain ⟨t, ht⟩ := Option.isSome_iff_exists.mp hreach
    have hrights := h.rights pre i u f (by omega) hpre hf
    have hnext : child a (entries a m u i) = some t := by rwa [walk_concat, hpre] at ht
    set e := entries a m u i with he
    have hpresent : ¬ e &&& PAGE_PRESENT = 0 := fun hzero => by
      rw [child, if_pos hzero] at hnext
      cases hnext
    rw [child, if_neg hpresent, Option.some.injEq] at hnext
    have hall' (q : List (Index a)) (hq : q ≠ []) (hqp : q <+: p) : (G (pre ++ [i] ++ q)).isSome := by
      rw [List.append_assoc]
      exact hrest q hq hqp
    have hstep : R &&& e = R &&& (PAGE_WRITABLE ||| (f &&& PAGE_USER)) := by
      rw [← hrights, Nat.and_comm e, ← Nat.and_assoc]
      rcases hR with rfl | rfl <;> rfl
    have hR' : R &&& e = PAGE_WRITABLE ∨ R &&& e = PAGE_WRITABLE ||| PAGE_USER := by
      rw [hstep]
      rcases hR with rfl | rfl <;> rcases and_user_cases f with hu | hu <;> rw [hu] <;> decide
    obtain ⟨t', R', hwalk, hmmu, hends, hiff⟩ :=
      ih ht (by rw [List.length_append, List.length_singleton]; omega) hall' hR'
    refine ⟨t', R', ?_, ?_, hends, ?_⟩
    · rwa [List.append_assoc] at hwalk
    · rw [mmuWalk]
      simp only [← he, if_neg hpresent, hnext]
      exact hmmu
    · have hkept : R &&& (PAGE_WRITABLE ||| (f &&& PAGE_USER)) = PAGE_WRITABLE ||| PAGE_USER ↔
          R = PAGE_WRITABLE ||| PAGE_USER ∧ f &&& PAGE_USER ≠ 0 := by
        rcases hR with rfl | rfl <;> rcases and_user_cases f with hu | hu <;> rw [hu] <;> decide
      rw [hiff, hstep, hkept, and_assoc, forall_prefix_cons, hf]
      apply and_congr_right
      intro _
      have hbehind (q : List (Index a)) : pre ++ [i] ++ q = pre ++ i :: q := List.append_assoc pre [i] q
      simp only [hbehind, Option.some.injEq, forall_eq']

theorem leafFlags_rights (flags : ℕ) :
    (PAGE_WRITABLE ||| PAGE_USER) &&& leafFlags a flags = flags &&& (PAGE_WRITABLE ||| PAGE_USER) := by
  cases a with
  | x86_64 => exact Nat.and_comm _ _
  | x86 =>
    have hlow : 0xFFF &&& (PAGE_WRITABLE ||| PAGE_USER) = PAGE_WRITABLE ||| PAGE_USER := by decide
    rw [leafFlags, Nat.and_comm, Nat.and_assoc, hlow]

theorem mapCalls_rights (hinit : Init a cr3 s) (hc : c.Allowed a)
    (hf : Frames a frame (root a cr3) (mapCalls a frame cr3 (l ++ [c]) s).allocs) :
    ∃ R, (R = PAGE_WRITABLE ∨ R = PAGE_WRITABLE ||| PAGE_USER) ∧
      (R = PAGE_WRITABLE ||| PAGE_USER ↔ ∀ q, q ≠ [] → q <+: path a c.virt →
        ∀ f, firstFlags a (l ++ [c]) q = some f → f &&& PAGE_USER ≠ 0) ∧
      mmuRights a cr3 (mapCalls a frame cr3 (l ++ [c]) s) c.virt =
        some (R &&& (c.flags &&& (PAGE_WRITABLE ||| PAGE_USER))) := by
  unfold mapCalls at hf ⊢
  rw [List.foldl_concat] at hf ⊢
  have hbefore : Calls a frame cr3 l (mapCalls a frame cr3 l s) :=
    mapCalls_calls hinit (hf.mono (mapCalls_allocs (l := [c])))
  obtain ⟨hcalls, hleaf⟩ := call_calls hf hbefore
  obtain ⟨t, ht, he⟩ := hleaf hc
  set s' := vmmMapPage a frame cr3 (List.foldl _ s l) c.phys c.virt c.flags
  have hall (q : List (Index a)) (hq : q ≠ []) (hqp : q <+: path a c.virt) :
      (firstFlags a (l ++ [c]) ([] ++ q)).isSome := by
    rw [List.nil_append, firstFlags_concat l c hq, grantWay]
    cases firstFlags a l q with
    | none => simp [hqp, List.length_pos_iff.mpr hq]
    | some f => rfl
  have hroot : walk (child a) (entries a s'.mem) (root a cr3) [] = some (root a cr3) := rfl
  obtain ⟨t', R, ht', hmmu, hR, huser⟩ := mmuWalk_granted hcalls.granted hroot
    (by rw [length_path, List.length_nil, Nat.zero_add]) hall (.inr rfl)
  rw [List.nil_append, ht, Option.some.injEq] at ht'
  subst ht'
  have haligned : (c.phys &&& frameMask a) % PAGE_SIZE = 0 := by
    have hmask : frameMask a % 2 ^ 12 = 0 := by cases a <;> decide
    have hpage : PAGE_SIZE = 2 ^ 12 := rfl
    rw [hpage, Nat.and_mod_two_pow, hmask, Nat.and_zero]
  set e := (c.phys &&& frameMask a) ||| leafFlags a c.flags ||| PAGE_PRESENT with hedef
  have hpresent : ¬ e &&& PAGE_PRESENT = 0 := by
    intro hzero
    rw [hedef, Nat.and_or_distrib_right] at hzero
    exact absurd (Nat.or_eq_zero_iff.mp hzero).2 (by decide)
  have hrights : mmuRights a cr3 s' c.virt = some (R &&& (c.flags &&& (PAGE_WRITABLE ||| PAGE_USER))) := by
    have hmask : R = R &&& (PAGE_WRITABLE ||| PAGE_USER) := by rcases hR with rfl | rfl <;> rfl
    have hleafR : R &&& e = R &&& (c.flags &&& (PAGE_WRITABLE ||| PAGE_USER)) := by
      rw [hmask, Nat.and_assoc, hedef, entry_rights _ haligned, leafFlags_rights, Nat.and_assoc,
        ← Nat.and_assoc (PAGE_WRITABLE ||| PAGE_USER), Nat.and_comm (PAGE_WRITABLE ||| PAGE_USER) c.flags,
        Nat.and_assoc c.flags, Nat.and_self]
    rw [mmuRights, mmuWalk_append, hmmu, Option.bind_some, mmuWalk]
    simp only [he, if_neg hpresent, mmuWalk, Option.map_some]
    rw [hleafR]
  simp only [true_and, List.nil_append] at huser
  exact ⟨R, hR, huser, hrights⟩

theorem mapCall_rights_iff (hinit : Init a cr3 s) (hc : c.Allowed a)
    (hf : Frames a frame (root a cr3) (mapCalls a frame cr3 (l ++ [c]) s).allocs) :
    mmuRights a cr3 (mapCalls a frame cr3 (l ++ [c]) s) c.virt = some (c.flags &&& (PAGE_WRITABLE ||| PAGE_USER)) ↔
      c.flags &&& PAGE_USER = 0 ∨ ∀ q, q ≠ [] → q <+: path a c.virt →
        ∀ f, firstFlags a (l ++ [c]) q = some f → f &&& PAGE_USER ≠ 0 := by
  obtain ⟨R, hR, huser, hrights⟩ := mapCalls_rights hinit hc hf
  rw [hrights, Option.some.injEq, ← huser, Nat.and_or_distrib_left]
  rcases hR with rfl | rfl <;> rcases and_writable_cases c.flags with hw | hw <;>
    rcases and_user_cases c.flags with hu | hu <;> rw [hw, hu] <;> decide

def kernelPage : MapCall := ⟨0x5000, 0x400000, PAGE_WRITABLE⟩

def userPage : MapCall := ⟨0x6000, 0x401000, PAGE_WRITABLE ||| PAGE_USER⟩

theorem mapCalls_two (c c' : MapCall) (s : Paging.State) :
    mapCalls a frame cr3 [c, c'] s = mapCalls a frame cr3 [c'] (mapCalls a frame cr3 [c] s) := rfl

theorem mapCalls_one_allocs (c : MapCall) (s : Paging.State) :
    (mapCalls a frame cr3 [c] s).allocs ≤ s.allocs + levels a := vmmMapPage_allocs_le

theorem pages_frames (c c' : MapCall) : Frames a frameStream (root a 0x1000)
    (mapCalls a frameStream 0x1000 [c, c'] emptyTables).allocs := by
  have hroot : root a 0x1000 = 0x1000 := by cases a <;> decide
  have hlevels : levels a ≤ 3 := by cases a <;> decide
  have hfirst : (mapCalls a frameStream 0x1000 [c] emptyTables).allocs ≤ 0 + levels a := mapCalls_one_allocs _ _
  have hboth : (mapCalls a frameStream 0x1000 [c, c'] emptyTables).allocs ≤
      (mapCalls a frameStream 0x1000 [c] emptyTables).allocs + levels a := by
    rw [mapCalls_two]
    exact mapCalls_one_allocs _ _
  rw [hroot]
  exact frameStream_frames (by omega)

def readOnlyPage : MapCall := ⟨0x5000, 0x400000, PAGE_USER⟩

theorem mapCall_rights_shared :
    mmuRights .x86_64 0x1000 (mapCalls .x86_64 frameStream 0x1000 [readOnlyPage, userPage] emptyTables) userPage.virt =
      some (PAGE_WRITABLE ||| PAGE_USER) := by
  have huser : ∀ c ∈ [readOnlyPage, userPage], c.flags &&& PAGE_USER ≠ 0 := by decide
  apply (mapCall_rights_iff (l := [readOnlyPage]) emptyTables_init ⟨by decide, by decide⟩ (pages_frames _ _)).mpr
  right
  intro q _ _ f hf
  obtain ⟨c, hc, rfl⟩ := Option.map_eq_some_iff.mp hf
  exact huser c (List.mem_of_find?_eq_some hc)

theorem userPage_rights (a : Arch) :
    mmuRights a 0x1000 (mapCalls a frameStream 0x1000 [kernelPage, userPage] emptyTables) userPage.virt ≠
      some (userPage.flags &&& (PAGE_WRITABLE ||| PAGE_USER)) := by
  have hallowed : userPage.Allowed a := by cases a <;> exact ⟨by decide, by decide⟩
  obtain ⟨R, hR, huser, hrights⟩ := mapCalls_rights (l := [kernelPage]) emptyTables_init hallowed (pages_frames _ _)
  have hfirst : ∃ q, q ≠ [] ∧ q <+: path a userPage.virt ∧
      firstFlags a [kernelPage, userPage] q = some PAGE_WRITABLE := by
    refine ⟨(path a userPage.virt).take 1, ?_, List.take_prefix _ _, ?_⟩
    · cases a <;> decide
    · cases a <;> decide
  obtain ⟨q, hq, hway, hflags⟩ := hfirst
  rw [List.singleton_append] at hrights
  rw [hrights]
  rcases hR with rfl | rfl
  · decide
  · exact absurd (huser.mp rfl q hq hway _ hflags) (by decide)

theorem mapCall_rights_lost :
    (Init .x86_64 0x1000 emptyTables ∧ Frames .x86_64 frameStream (root .x86_64 0x1000)
        (mapCalls .x86_64 frameStream 0x1000 [kernelPage, userPage] emptyTables).allocs ∧
      mmuRights .x86_64 0x1000 (mapCalls .x86_64 frameStream 0x1000 [kernelPage, userPage] emptyTables)
        userPage.virt ≠ some (userPage.flags &&& (PAGE_WRITABLE ||| PAGE_USER))) ∧
    mmuRights .x86 0x1000 (mapCalls .x86 frameStream 0x1000 [kernelPage, userPage] emptyTables) userPage.virt ≠
      some (userPage.flags &&& (PAGE_WRITABLE ||| PAGE_USER)) :=
  ⟨⟨emptyTables_init, pages_frames _ _, userPage_rights .x86_64⟩, userPage_rights .x86⟩

end JurkOS.Kernel.Loader
