import JurkOS.Kernel.Fs.Vfs

/-!
What `vfs_lookup` resolves. The tree is any store of nodes with `finddir`
handlers of their own, which may create nodes.
-/

namespace JurkOS.Kernel.Fs

structure Tree (S : Type) where
  vfsRoot : S → ℕ
  flags : S → ℕ → ℕ
  ptr : S → ℕ → ℕ
  finddir : S → ℕ → Option (Name → ℕ × S)

namespace Tree

variable {S : Type} (T : Tree S)

def vfsFinddir (s : S) (p : ℕ) (name : Name) : ℕ × S :=
  if p = 0 ∨ T.flags s p &&& VFS_DIRECTORY = 0 then (0, s)
  else
    match T.finddir s p with
    | none => (0, s)
    | some f => f name

def followPtr (s : S) (current : ℕ) : ℕ := if T.ptr s current ≠ 0 then T.ptr s current else current

def lookupLoop (s : S) (current : ℕ) : List Name → ℕ × S
  | [] => (T.followPtr s current, s)
  | token :: rest =>
    let r := T.vfsFinddir s (T.followPtr s current) token
    if r.1 = 0 then (0, r.2) else lookupLoop r.2 r.1 rest

def vfsLookup (s : S) (path : Name) : ℕ × S :=
  if T.vfsRoot s = 0 then (0, s)
  else if path = [SLASH] then (T.vfsRoot s, s)
  else T.lookupLoop s (T.vfsRoot s) (tokens [] path)

end Tree

def components (path : Name) : List Name := (path.splitOn SLASH).filter (· ≠ [])

namespace Tree

variable {S : Type} (T : Tree S)

/-- What a path stands for: its components are looked up one by one. -/
def resolve (s : S) (path : Name) : ℕ × S :=
  if T.vfsRoot s = 0 then (0, s) else T.lookupLoop s (T.vfsRoot s) (components path)

def NamesFit : Prop :=
  ∀ s p f name, T.finddir s p = some f → FS_MAX_NAME - 1 < name.length → (f name).1 = 0

def RootMounted (s : S) : Prop := T.followPtr s (T.vfsRoot s) ≠ T.vfsRoot s

instance (s : S) : Decidable (T.RootMounted s) := inferInstanceAs (Decidable (_ ≠ _))

end Tree

theorem components_slash (p q : Name) : components (p ++ SLASH :: q) = components p ++ components q := by
  rw [components, List.splitOn_append_cons_self, List.filter_append]
  rfl

theorem components_of_notMem {p : Name} (h : SLASH ∉ p) : components p = if p = [] then [] else [p] := by
  rw [components, List.splitOn_eq_singleton h]
  by_cases hp : p = [] <;> simp [hp]

theorem components_prefix {p : Name} (q : Name) (h : SLASH ∉ p) (hp : p ≠ []) :
    ∃ c ∈ components (p ++ q), p.length ≤ c.length := by
  induction q generalizing p with
  | nil => exact ⟨p, by rw [List.append_nil, components_of_notMem h, if_neg hp]; simp, le_refl _⟩
  | cons c q ih =>
    by_cases hc : c = SLASH
    · refine ⟨p, ?_, le_refl _⟩
      rw [hc, components_slash, components_of_notMem h, if_neg hp]
      simp
    · have hmem : SLASH ∉ p ++ [c] := by
        simp only [List.mem_append, List.mem_singleton]
        tauto
      obtain ⟨d, hd, hle⟩ := ih hmem (by simp)
      refine ⟨d, by simpa using hd, ?_⟩
      rw [List.length_append] at hle
      omega

theorem tokens_eq_components {token path : Name} (ht : SLASH ∉ token)
    (h : ∀ c ∈ components (token ++ path), c.length ≤ FS_MAX_NAME - 1) :
    tokens token path = components (token ++ path) := by
  induction path generalizing token with
  | nil => rw [tokens, List.append_nil, components_of_notMem ht]
  | cons c path ih =>
    unfold tokens
    by_cases hc : c = SLASH
    · rw [if_pos hc]
      rw [hc, components_slash] at h ⊢
      have htail : tokens [] path = components path :=
        ih (by simp) (fun d hd => h d (List.mem_append_right _ hd))
      rw [components_of_notMem ht, htail]
      split <;> rfl
    · have hmem : SLASH ∉ token ++ [c] := by
        simp only [List.mem_append, List.mem_singleton]
        tauto
      have happ : token ++ c :: path = (token ++ [c]) ++ path := by simp
      rw [happ] at h ⊢
      obtain ⟨d, hd, hle⟩ := components_prefix path hmem (by simp)
      have hlen := h d hd
      rw [List.length_append, List.length_singleton] at hle
      rw [if_neg hc, if_pos (by omega)]
      exact ih hmem h

theorem length_le_of_mem_tokens {token path t : Name} (ht : token.length ≤ FS_MAX_NAME - 1)
    (h : t ∈ tokens token path) : t.length ≤ FS_MAX_NAME - 1 := by
  induction path generalizing token with
  | nil =>
    unfold tokens at h
    split at h
    · cases h
    · rwa [List.mem_singleton.mp h]
  | cons c path ih =>
    unfold tokens at h
    split at h
    · split at h
      · exact ih (Nat.zero_le _) h
      · cases List.mem_cons.mp h with
        | inl he => rwa [he]
        | inr hr => exact ih (Nat.zero_le _) hr
    · split at h
      · exact ih (by rw [List.length_append, List.length_singleton]; omega) h
      · cases List.mem_cons.mp h with
        | inl he => rwa [he]
        | inr hr => exact ih (by rw [List.length_singleton]; decide) hr

namespace Tree

variable {S : Type} {T : Tree S}

theorem vfsFinddir_long (hT : T.NamesFit) (s : S) (p : ℕ) {name : Name} (h : FS_MAX_NAME - 1 < name.length) :
    (T.vfsFinddir s p name).1 = 0 := by
  unfold vfsFinddir
  split
  · rfl
  · split
    · rfl
    · rename_i f hf
      exact hT s p f name hf h

theorem lookupLoop_long (hT : T.NamesFit) {s : S} {p : ℕ} {names : List Name}
    (h : ∃ c ∈ names, FS_MAX_NAME - 1 < c.length) : (T.lookupLoop s p names).1 = 0 := by
  induction names generalizing s p with
  | nil =>
    obtain ⟨c, hc, -⟩ := h
    cases hc
  | cons name rest ih =>
    unfold lookupLoop
    by_cases hnext : (T.vfsFinddir s (T.followPtr s p) name).1 = 0
    · rw [if_pos hnext]
    · rw [if_neg hnext]
      apply ih
      obtain ⟨c, hc, hlen⟩ := h
      cases List.mem_cons.mp hc with
      | inl he => exact absurd (vfsFinddir_long hT s _ (he ▸ hlen)) hnext
      | inr hr => exact ⟨c, hr, hlen⟩

theorem vfsLookup_eq_resolve {s : S} {path : Name} (hlen : ∀ c ∈ components path, c.length ≤ FS_MAX_NAME - 1)
    (hroot : path = [SLASH] → ¬ T.RootMounted s) : T.vfsLookup s path = T.resolve s path := by
  unfold vfsLookup resolve
  by_cases hnull : T.vfsRoot s = 0
  · rw [if_pos hnull, if_pos hnull]
  rw [if_neg hnull, if_neg hnull]
  by_cases hpath : path = [SLASH]
  · have hfollow := not_not.mp (hroot hpath)
    have hnone : components path = [] := by
      rw [hpath]
      rfl
    rw [if_pos hpath, hnone, lookupLoop, hfollow]
  · have htokens : tokens [] path = components path := tokens_eq_components List.not_mem_nil hlen
    rw [if_neg hpath, htokens]

def loopTree (rootPtr : ℕ) : Tree Unit where
  vfsRoot _ := 1
  flags _ _ := VFS_DIRECTORY
  ptr _ p := if p = 1 then rootPtr else 0
  finddir _ _ := some fun name => if FS_MAX_NAME - 1 < name.length then (0, ()) else (1, ())

theorem loopTree_namesFit (rootPtr : ℕ) : (loopTree rootPtr).NamesFit := by
  intro s p f name hf h
  cases hf
  simp only [if_pos h]

theorem loopTree_follow_ne (rootPtr p : ℕ) (hp : p ≠ 0) : (loopTree rootPtr).followPtr () p ≠ 0 := by
  unfold followPtr
  split
  · assumption
  · exact hp

theorem loopTree_lookup {rootPtr p : ℕ} {names : List Name} (hp : p ≠ 0)
    (h : ∀ c ∈ names, c.length ≤ FS_MAX_NAME - 1) : ((loopTree rootPtr).lookupLoop () p names).1 ≠ 0 := by
  induction names generalizing p with
  | nil => exact loopTree_follow_ne rootPtr p hp
  | cons name rest ih =>
    have hname := h name List.mem_cons_self
    have hfind : (loopTree rootPtr).vfsFinddir () ((loopTree rootPtr).followPtr () p) name = (1, ()) := by
      unfold vfsFinddir
      rw [if_neg (not_or.mpr ⟨loopTree_follow_ne rootPtr p hp, by change ¬VFS_DIRECTORY &&& VFS_DIRECTORY = 0; decide⟩)]
      exact if_neg (by omega)
    unfold lookupLoop
    rw [hfind]
    exact ih one_ne_zero (fun c hc => h c (List.mem_cons_of_mem _ hc))

theorem vfsLookup_resolves_iff (path : Name) (mounted : Bool) :
    (∀ (S : Type) (T : Tree S) (s : S), T.NamesFit → (T.RootMounted s ↔ mounted = true) →
      T.vfsLookup s path = T.resolve s path) ↔
    (∀ c ∈ components path, c.length ≤ FS_MAX_NAME - 1) ∧ ¬ (path = [SLASH] ∧ mounted = true) := by
  constructor
  · intro h
    have hmounted : (loopTree (if mounted then 2 else 0)).RootMounted () ↔ mounted = true := by
      cases mounted <;> decide
    have heq := h Unit _ () (loopTree_namesFit _) hmounted
    constructor
    · intro c hc
      by_contra hlong
      have hspec : ((loopTree (if mounted then 2 else 0)).resolve () path).1 = 0 :=
        lookupLoop_long (loopTree_namesFit _) ⟨c, hc, by omega⟩
      rw [← heq] at hspec
      have hpath : path ≠ [SLASH] := by
        rintro rfl
        cases hc
      have hroot : (loopTree (if mounted then 2 else 0)).vfsRoot () ≠ 0 := one_ne_zero
      rw [vfsLookup, if_neg hroot, if_neg hpath] at hspec
      exact loopTree_lookup one_ne_zero (fun t ht => length_le_of_mem_tokens (Nat.zero_le _) ht) hspec
    · rintro ⟨rfl, hm⟩
      subst hm
      exact absurd heq (by decide)
  · rintro ⟨hlen, hroot⟩ S T s - hmounted
    apply vfsLookup_eq_resolve hlen
    intro hpath hm
    exact hroot ⟨hpath, hmounted.mp hm⟩

theorem vfsLookup_splits_component :
    ∃ (S : Type) (T : Tree S) (s : S), T.NamesFit ∧ ¬ T.RootMounted s ∧
      T.vfsLookup s (SLASH :: List.replicate 128 0x61) ≠ T.resolve s (SLASH :: List.replicate 128 0x61) :=
  ⟨Unit, loopTree 0, (), loopTree_namesFit 0, by decide, by decide +kernel⟩

end Tree

variable {σ : Type} (K : Machine σ)

/-- The nodes of the kernel as a tree; the state is lost at a fault. -/
def kernelTree : Tree (Option (State σ)) where
  vfsRoot s := s.elim 0 (·.vfsRoot)
  flags s p := (s.bind (·.nodes p)).elim 0 (·.flags)
  ptr s p := (s.bind (·.nodes p)).elim 0 (·.ptr)
  finddir s p :=
    match s with
    | none => none
    | some s => (s.nodes p).bind fun node => node.finddir.map fun _ name =>
      (vfsFinddir K s p name).elim (0, none) fun r => (r.1, some r.2)

variable {K}

theorem followPtr_kernelTree {s : State σ} {p q : ℕ} (h : followPtr s p = some q) :
    (kernelTree K).followPtr (some s) p = q := by
  obtain ⟨node, hnode, rfl⟩ := Option.map_eq_some_iff.mp h
  have hptr : (kernelTree K).ptr (some s) p = node.ptr := by simp [kernelTree, hnode]
  rw [Tree.followPtr, hptr]

theorem vfsFinddir_kernelTree {s t : State σ} {p q : ℕ} {name : Name} (h : vfsFinddir K s p name = some (q, t)) :
    (kernelTree K).vfsFinddir (some s) p name = (q, some t) := by
  unfold Tree.vfsFinddir
  by_cases hp : p = 0
  · rw [if_pos (Or.inl hp)]
    rw [vfsFinddir, if_pos hp] at h
    cases h
    rfl
  cases hnode : s.nodes p with
  | none => simp [vfsFinddir, hp, hnode] at h
  | some node =>
    have hflags : (kernelTree K).flags (some s) p = node.flags := by simp [kernelTree, hnode]
    rw [hflags]
    by_cases hdir : node.flags &&& VFS_DIRECTORY = 0
    · rw [if_pos (Or.inr hdir)]
      simp only [vfsFinddir, if_neg hp, hnode, if_pos hdir] at h
      cases h
      rfl
    · rw [if_neg (not_or.mpr ⟨hp, hdir⟩)]
      cases hf : node.finddir with
      | none =>
        simp only [vfsFinddir, if_neg hp, hnode, if_neg hdir, hf] at h
        cases h
        simp [kernelTree, hnode, hf]
      | some f => simp [kernelTree, hnode, hf, h]

theorem lookupLoop_kernelTree {s t : State σ} {p q : ℕ} {names : List Name}
    (h : lookupLoop K s p names = some (q, t)) : (kernelTree K).lookupLoop (some s) p names = (q, some t) := by
  induction names generalizing s p with
  | nil =>
    obtain ⟨r, hr, he⟩ := Option.map_eq_some_iff.mp h
    cases he
    rw [Tree.lookupLoop, followPtr_kernelTree hr]
  | cons name rest ih =>
    obtain ⟨r, hr, h⟩ := Option.bind_eq_some_iff.mp h
    obtain ⟨⟨next, u⟩, hfind, h⟩ := Option.bind_eq_some_iff.mp h
    rw [Tree.lookupLoop, followPtr_kernelTree hr, vfsFinddir_kernelTree hfind]
    by_cases hnext : next = 0
    · simp only [if_pos hnext] at h ⊢
      cases h
      rfl
    · simp only [if_neg hnext] at h ⊢
      exact ih h

theorem vfsLookup_kernelTree {s t : State σ} {q : ℕ} {path : Name} (h : vfsLookup K s path = some (q, t)) :
    (kernelTree K).vfsLookup (some s) path = (q, some t) := by
  unfold vfsLookup at h
  unfold Tree.vfsLookup
  change (if s.vfsRoot = 0 then _ else _) = _
  by_cases hroot : s.vfsRoot = 0
  · rw [if_pos hroot] at h ⊢
    cases h
    rfl
  rw [if_neg hroot] at h ⊢
  by_cases hpath : path = [SLASH]
  · rw [if_pos hpath] at h ⊢
    cases h
    rfl
  · rw [if_neg hpath] at h ⊢
    exact lookupLoop_kernelTree h

end JurkOS.Kernel.Fs
