import JurkOS.Kernel.Fs.Boot
import JurkOS.Kernel.Fs.Listing
import Mathlib.Order.Bounds.Basic

/-!
The names of JurkVFS inodes as fields of 64 bytes. The driver reads them as C
strings, so that a name without a null byte goes on in the fields behind it.
-/

namespace JurkOS.Kernel.Fs

open Lib.Libc Lib.Memory

variable {σ : Type} {m : Mem} {fs : JurkvfsFs} {name : Name} {d p n : ℕ}

def fieldName (m : Mem) (p : ℕ) : Name := cstr (bytesAt m p 64)

def FieldNamed (m : Mem) (fs : JurkvfsFs) (d : ℕ) (name : Name) : Set ℕ :=
  {i | i < totalInodes m fs ∧ i ≠ d ∧ load m (jurkvfsInode fs i + 76) 4 = d ∧ fieldName m (jurkvfsInode fs i) = name}

def Ends (m : Mem) (fs : JurkvfsFs) (name : Name) (i : ℕ) : Prop := name.length < 64 ∨ m (jurkvfsInode fs i + 64) = 0

def FindsField (K : Machine σ) (s : State σ) (d : ℕ) (name : Name) : Prop :=
  ∀ node : Node, node.devicePriv = some (.jurkvfs d) →
    (∀ i, IsLeast (FieldNamed K.mem s.currentFs d name) i →
      ∃ p t, jurkvfsFinddirImpl K s node name = some (p, t) ∧ Denotes t p (jurkvfsDirent K.mem s.currentFs i)) ∧
    (FieldNamed K.mem s.currentFs d name = ∅ → jurkvfsFinddirImpl K s node name = some (0, s))

def CopiesFit (m : Mem) (fs : JurkvfsFs) : Prop :=
  ∀ i < totalInodes m fs, ∃ s, strcpyFrom m (jurkvfsInode fs i) FS_MAX_NAME = some s

theorem bytesAt_succ (m : Mem) (p n : ℕ) : bytesAt m p (n + 1) = m p :: bytesAt m (p + 1) n := by
  unfold bytesAt
  rw [List.range_succ_eq_map, List.map_cons, List.map_map]
  apply congrArg
  apply List.map_congr_left
  intro i _
  simp only [Function.comp_apply, Nat.succ_eq_add_one]
  congr 1
  omega

theorem strcmpEq_bytesAt (m : Mem) (p : ℕ) (name : Name) :
    strcmpEq m p name = true ↔ bytesAt m p name.length = name ∧ m (p + name.length) = 0 := by
  induction name generalizing p with
  | nil => simp [strcmpEq, bytesAt]
  | cons c name ih =>
    have hpos : p + 1 + name.length = p + (name.length + 1) := by omega
    simp [strcmpEq, bytesAt_succ, ih, hpos, and_assoc]

theorem cstr_bytesAt (h0 : 0 ∉ name) (hlen : name.length ≤ n) :
    cstr (bytesAt m p n) = name ↔ bytesAt m p name.length = name ∧ (name.length < n → m (p + name.length) = 0) := by
  induction name generalizing p n with
  | nil =>
    cases n with
    | zero => simp [cstr, bytesAt]
    | succ n => by_cases hend : m p = 0 <;> simp [cstr, bytesAt, hend]
  | cons c name ih =>
    have hc : c ≠ 0 := fun he => h0 (he ▸ List.mem_cons_self)
    cases n with
    | zero => cases hlen
    | succ n =>
      have hrest := ih (p := p + 1) (n := n) (fun hm => h0 (List.mem_cons_of_mem _ hm)) (Nat.le_of_succ_le_succ hlen)
      have hpos : p + 1 + name.length = p + (name.length + 1) := by omega
      rw [hpos] at hrest
      rw [bytesAt_succ]
      by_cases hend : m p = 0
      · have hnil : cstr (0 :: bytesAt m (p + 1) n) = [] := by simp [cstr]
        simp [hnil, bytesAt_succ, hend, hc.symm]
      · have hcons : cstr (m p :: bytesAt m (p + 1) n) = m p :: cstr (bytesAt m (p + 1) n) := by
          simp [cstr, hend]
        simp [hcons, bytesAt_succ, hrest, and_assoc]

theorem strcmpEq_field {i : ℕ} (h0 : 0 ∉ name) (hlen : name.length ≤ 64) :
    strcmpEq m (jurkvfsInode fs i) name = true ↔ fieldName m (jurkvfsInode fs i) = name ∧ Ends m fs name i := by
  unfold fieldName Ends
  rw [strcmpEq_bytesAt, cstr_bytesAt h0 hlen]
  by_cases hfull : name.length < 64
  · simp [hfull]
  · have heq : name.length = 64 := by omega
    simp [heq]

theorem finddirInode_some {i j : ℕ} (h : finddirInode m fs d name n i = some j) :
    i ≤ j ∧ j < i + n ∧ (load m (jurkvfsInode fs j + 76) 4 = d ∧ j ≠ d ∧ strcmpEq m (jurkvfsInode fs j) name) ∧
      ∀ k, i ≤ k → k < j → ¬ (load m (jurkvfsInode fs k + 76) 4 = d ∧ k ≠ d ∧ strcmpEq m (jurkvfsInode fs k) name) := by
  induction n generalizing i with
  | zero => cases h
  | succ n ih =>
    unfold finddirInode at h
    split_ifs at h with hi
    · cases h
      exact ⟨le_refl _, by omega, hi, fun k hle hlt => by omega⟩
    · obtain ⟨hle, hlt, hj, hleast⟩ := ih h
      refine ⟨by omega, by omega, hj, fun k hk hkj => ?_⟩
      by_cases hki : k = i
      · exact hki ▸ hi
      · exact hleast k (by omega) hkj

theorem finddirInode_none {i k : ℕ} (h : finddirInode m fs d name n i = none) (hle : i ≤ k) (hlt : k < i + n) :
    ¬ (load m (jurkvfsInode fs k + 76) 4 = d ∧ k ≠ d ∧ strcmpEq m (jurkvfsInode fs k) name) := by
  induction n generalizing i with
  | zero => omega
  | succ n ih =>
    unfold finddirInode at h
    split_ifs at h with hi
    by_cases hki : k = i
    · exact hki ▸ hi
    · exact ih h (by omega) (by omega)

theorem isLeast_unique_of_ends {i j : ℕ} (h0 : 0 ∉ name) (hlen : name.length ≤ 64)
    (hi : IsLeast (FieldNamed m fs d name) i) (hends : Ends m fs name i)
    (hj : finddirInode m fs d name (totalInodes m fs) 0 = some j) : j = i := by
  obtain ⟨-, hjlt, ⟨hparent, hself, hstr⟩, hleast⟩ := finddirInode_some hj
  obtain ⟨⟨hilt, hine, hiparent, hiname⟩, hlow⟩ := hi
  have hstr' := (strcmpEq_field h0 hlen).mp hstr
  apply le_antisymm
  · by_contra hlt
    exact hleast i (Nat.zero_le _) (by omega) ⟨hiparent, hine, (strcmpEq_field h0 hlen).mpr ⟨hiname, hends⟩⟩
  · exact hlow ⟨by omega, hself, hparent, hstr'.1⟩

theorem finddirInode_least {i : ℕ} (h0 : 0 ∉ name) (hlen : name.length ≤ 64)
    (hi : IsLeast (FieldNamed m fs d name) i) (hends : Ends m fs name i) :
    finddirInode m fs d name (totalInodes m fs) 0 = some i := by
  cases hfind : finddirInode m fs d name (totalInodes m fs) 0 with
  | none =>
    obtain ⟨⟨hilt, hine, hiparent, hiname⟩, -⟩ := hi
    have hno := finddirInode_none hfind (Nat.zero_le i) (by omega)
    exact absurd ⟨hiparent, hine, (strcmpEq_field h0 hlen).mpr ⟨hiname, hends⟩⟩ hno
  | some j => rw [isLeast_unique_of_ends h0 hlen hi hends hfind]

theorem finddirInode_empty (h0 : 0 ∉ name) (hlen : name.length ≤ 64) (hempty : FieldNamed m fs d name = ∅) :
    finddirInode m fs d name (totalInodes m fs) 0 = none := by
  cases hfind : finddirInode m fs d name (totalInodes m fs) 0 with
  | none => rfl
  | some j =>
    obtain ⟨-, hjlt, ⟨hparent, hself, hstr⟩, -⟩ := finddirInode_some hfind
    have hmem : j ∈ FieldNamed m fs d name := ⟨by omega, hself, hparent, ((strcmpEq_field h0 hlen).mp hstr).1⟩
    rw [hempty] at hmem
    cases hmem

variable {K : Machine σ} {s : State σ}

theorem jurkvfsFinddirImpl_eq {node : Node} (hp : node.devicePriv = some (.jurkvfs d)) :
    jurkvfsFinddirImpl K s node name =
      (finddirInode K.mem s.currentFs d name (totalInodes K.mem s.currentFs) 0).elim (some (0, s))
        (jurkvfsCreateVfsNode K s) := by
  unfold jurkvfsFinddirImpl
  rw [hp]
  dsimp only
  cases finddirInode K.mem s.currentFs d name (totalInodes K.mem s.currentFs) 0 <;> rfl

theorem findsField_iff (h0 : 0 ∉ name) (hlen : name.length ≤ 64) (hcopies : CopiesFit K.mem s.currentFs) :
    FindsField K s d name ↔ ∀ i, IsLeast (FieldNamed K.mem s.currentFs d name) i →
      Ends K.mem s.currentFs name i ∧ TwoBlocks K s (sizeofJurkvfsNodePriv K.arch) := by
  constructor
  · intro h i hi
    obtain ⟨p, t, hcall, hp, x, hx, hinode, -⟩ := (h { devicePriv := some (.jurkvfs d) } rfl).1 i hi
    rw [jurkvfsFinddirImpl_eq rfl] at hcall
    cases hfind : finddirInode K.mem s.currentFs d name (totalInodes K.mem s.currentFs) 0 with
    | none =>
      rw [hfind, Option.elim_none] at hcall
      cases hcall
      exact absurd rfl hp
    | some j =>
      rw [hfind, Option.elim_some] at hcall
      obtain ⟨-, hjlt, ⟨-, -, hstr⟩, -⟩ := finddirInode_some hfind
      obtain ⟨u, hu⟩ := hcopies j (by omega)
      rcases jurkvfsCreateVfsNode_cases (K := K) (s := s) hu with
        ⟨hroom, p', t', hcreate, -, y, hy, hyinode, -⟩ | ⟨-, hnone⟩
      · rw [hcall, Option.some.injEq, Prod.mk.injEq] at hcreate
        obtain ⟨rfl, rfl⟩ := hcreate
        rw [hx, Option.some.injEq] at hy
        subst hy
        have hij : i = j := hinode.symm.trans hyinode
        exact ⟨hij ▸ ((strcmpEq_field h0 hlen).mp hstr).2, hroom⟩
      · rw [hcall] at hnone
        cases hnone
  · intro h node hp
    refine ⟨fun i hi => ?_, fun hempty => ?_⟩
    · obtain ⟨hends, hroom⟩ := h i hi
      obtain ⟨u, hu⟩ := hcopies i hi.1.1
      rw [jurkvfsFinddirImpl_eq hp, finddirInode_least h0 hlen hi hends, Option.elim_some]
      rcases jurkvfsCreateVfsNode_cases (K := K) (s := s) hu with ⟨-, hcreated⟩ | ⟨hno, -⟩
      · exact hcreated
      · exact absurd hroom hno
    · rw [jurkvfsFinddirImpl_eq hp, finddirInode_empty h0 hlen hempty, Option.elim_none]

theorem whole_names_iff (h0 : 0 ∉ name) (hlen : name.length ≤ 64) :
    FindsField K s d name ∧ CopiesFit K.mem s.currentFs ↔
      (∀ i, IsLeast (FieldNamed K.mem s.currentFs d name) i →
        Ends K.mem s.currentFs name i ∧ TwoBlocks K s (sizeofJurkvfsNodePriv K.arch)) ∧
      ∀ i < totalInodes K.mem s.currentFs, ∃ k < FS_MAX_NAME, K.mem (jurkvfsInode s.currentFs i + k) = 0 := by
  have hcopies : CopiesFit K.mem s.currentFs ↔
      ∀ i < totalInodes K.mem s.currentFs, ∃ k < FS_MAX_NAME, K.mem (jurkvfsInode s.currentFs i + k) = 0 :=
    forall₂_congr fun i _ => strcpyFrom_isSome_iff
  rw [← hcopies]
  apply and_congr_left
  intro hfit
  exact findsField_iff h0 hlen hfit

def wideMachine : Machine ℕ := ⟨.x86_64, bump, imageOf [(1121, List.replicate 59 0x61)], 16⟩

def wideName : Name := bytes "notes" ++ List.replicate 59 0x61

def wideRoot : State ℕ := ((jurkvfsInit wideMachine powerOn 0x100000 1536).map Prod.snd).getD powerOn

theorem wideRoot_init : jurkvfsInit wideMachine powerOn 0x100000 1536 = some (0x200000, wideRoot) := rfl

theorem wideRoot_inodes : totalInodes wideMachine.mem wideRoot.currentFs = 2 := by decide

theorem whole_names_root :
    FindsField wideMachine wideRoot 0 (bytes "a") ∧ CopiesFit wideMachine.mem wideRoot.currentFs := by
  refine (whole_names_iff (by decide) (by decide)).mpr ⟨?_, ?_⟩
  · intro i _
    exact ⟨Or.inl (by decide), by decide⟩
  · rw [wideRoot_inodes]
    decide +kernel

theorem wide_name_lost : ∃ s root, jurkvfsInit wideMachine powerOn 0x100000 1536 = some (root, s) ∧ root ≠ 0 ∧
    wideName.length = 64 ∧ IsLeast (FieldNamed wideMachine.mem s.currentFs 0 wideName) 1 ∧
    ¬ (FindsField wideMachine s 0 wideName ∧ CopiesFit wideMachine.mem s.currentFs) := by
  have hmem : 1 ∈ FieldNamed wideMachine.mem wideRoot.currentFs 0 wideName := by
    refine ⟨?_, by decide, by decide, by decide⟩
    rw [wideRoot_inodes]
    decide
  have hleast : IsLeast (FieldNamed wideMachine.mem wideRoot.currentFs 0 wideName) 1 :=
    ⟨hmem, fun i hi => Nat.one_le_iff_ne_zero.mpr hi.2.1⟩
  refine ⟨wideRoot, 0x200000, wideRoot_init, by decide, by decide, hleast, ?_⟩
  rintro ⟨hfinds, -⟩
  obtain ⟨p, t, hcall, hp, -⟩ := (hfinds { devicePriv := some (.jurkvfs 0) } rfl).1 1 hleast
  have hnone : finddirInode wideMachine.mem wideRoot.currentFs 0 wideName
      (totalInodes wideMachine.mem wideRoot.currentFs) 0 = none := by decide
  rw [jurkvfsFinddirImpl_eq rfl, hnone, Option.elim_none] at hcall
  cases hcall
  exact hp rfl

end JurkOS.Kernel.Fs
