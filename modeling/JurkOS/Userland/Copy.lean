import JurkOS.Userland.Files

/-!
`cmd_cp` of `NoneCompiled/main.c` by itself: what it leaves of the two files when
it reports an error, and when it does not.
-/

namespace JurkOS.Userland

open Lib.Libc

variable {fs : FileSystem} (ans : Answers fs) (src dst : Str) (argc : ℕ)

def CpReports : Bool := decide (argc < 3) || !Copies ans src dst

-- What a reader finds at `path`.
def found (fs : FileSystem) (path : Str) : Option Node := (fs.lookup path).map asFile

def AllOrNothing (fs fs' : FileSystem) (src dst : Str) (reports : Bool) : Prop :=
  found fs' src = found fs src ∧ found fs' dst = if reports then found fs dst else found fs src

/-- The source, a file or a device, is read to its end and all of it is taken and kept; what is copied to itself
is an empty file, or a device that has the same content after. -/
structure CopiesWhole (n : Node) : Prop where
  source : fs.lookup src = some n
  same : fs.opens src = fs.opens dst → Survives ans n
  other : fs.opens src ≠ fs.opens dst → ∃ data, asFile n = .file data ∧ Arrives ans data (fs.lookup dst)

variable {ans src dst argc}

theorem cmdCp_reports (h : CpReports ans src dst argc = true) : cmdCp ans src dst argc = fs := by
  simp only [CpReports, Bool.or_eq_true, decide_eq_true_eq, Bool.not_eq_true'] at h
  rcases h with hargc | hcopies
  · exact if_pos hargc
  · exact cmdCp_eq_self hcopies

theorem copiesWhole_same_iff {i e : ℕ} (hargc : ¬argc < 3) (hi : fs.opens src = some i) (he : fs.final dst = some e)
    (hcopies : Copies ans src dst = true) (hd : fs.opens dst = some i) :
    AllOrNothing fs (cmdCp ans src dst argc) src dst false ↔ ∃ n, CopiesWhole ans src dst n := by
  obtain ⟨hsrc, hdst⟩ := lookup_cmdCp_alias hargc hi he hcopies hd
  have hsame : fs.opens src = fs.opens dst := hi.trans hd.symm
  have hnode : fs.lookup src = some (fs.node i) := by rw [FileSystem.lookup, hi]; rfl
  have hiff : AllOrNothing fs (cmdCp ans src dst argc) src dst false ↔ Survives ans (fs.node i) := by
    rw [AllOrNothing, found, found, found, hsrc, hdst, hnode, if_neg Bool.false_ne_true, and_self, Option.map_some,
      Option.map_some, Option.some_inj, survives_iff]
  rw [hiff]
  constructor
  · intro hsurvives
    exact ⟨fs.node i, hnode, fun _ => hsurvives, fun hne => absurd hsame hne⟩
  · rintro ⟨n, hsource, hsurvives, -⟩
    obtain rfl := Option.some.inj (hnode.symm.trans hsource)
    exact hsurvives hsame

theorem copiesWhole_other_iff {i e : ℕ} (hargc : ¬argc < 3) (hi : fs.opens src = some i) (he : fs.final dst = some e)
    (hcopies : Copies ans src dst = true) (hd : fs.opens dst ≠ some i) :
    AllOrNothing fs (cmdCp ans src dst argc) src dst false ↔ ∃ n, CopiesWhole ans src dst n := by
  obtain ⟨hsrc, hdst⟩ := lookup_cmdCp_distinct hargc hi he hcopies hd
  have hdiff : fs.opens src ≠ fs.opens dst := fun h => hd (h ▸ hi)
  have hnode : fs.lookup src = some (fs.node i) := by rw [FileSystem.lookup, hi]; rfl
  have hiff : AllOrNothing fs (cmdCp ans src dst argc) src dst false ↔
      ∃ data, asFile (fs.node i) = .file data ∧ Arrives ans data (fs.lookup dst) := by
    rw [AllOrNothing, found, found, found, hsrc, hdst, hnode, if_neg Bool.false_ne_true, Option.map_some,
      Option.map_some, Option.some_inj, and_iff_right rfl, Option.some_inj, arrives_iff]
  rw [hiff]
  constructor
  · intro harrives
    exact ⟨fs.node i, hnode, fun h => absurd h hdiff, fun _ => harrives⟩
  · rintro ⟨n, hsource, -, harrives⟩
    obtain rfl := Option.some.inj (hnode.symm.trans hsource)
    exact harrives hdiff

theorem cmdCp_allOrNothing_iff (ans : Answers fs) (src dst : Str) (argc : ℕ) :
    AllOrNothing fs (cmdCp ans src dst argc) src dst (CpReports ans src dst argc) ↔
      CpReports ans src dst argc = true ∨ ∃ n, CopiesWhole ans src dst n := by
  cases hreports : CpReports ans src dst argc with
  | true =>
    rw [cmdCp_reports hreports]
    exact iff_of_true ⟨rfl, rfl⟩ (.inl rfl)
  | false =>
    simp only [CpReports, Bool.or_eq_false_iff, decide_eq_false_iff_not, Bool.not_eq_false'] at hreports
    obtain ⟨hargc, hcopies⟩ := hreports
    obtain ⟨e, he⟩ := final_of_copies hcopies
    obtain ⟨i, hi⟩ : ∃ i, fs.opens src = some i := by
      simp only [Copies, Bool.and_eq_true] at hcopies
      exact Option.isSome_iff_exists.mp hcopies.1.1.1.2
    rw [or_iff_right Bool.false_ne_true]
    by_cases hd : fs.opens dst = some i
    · exact copiesWhole_same_iff hargc hi he hcopies hd
    · exact copiesWhole_other_iff hargc hi he hcopies hd

theorem cmdCp_onto_itself : ¬AllOrNothing oneFile (cmdCp allowed (bytes "f") (bytes "f") 3) (bytes "f") (bytes "f")
    (CpReports allowed (bytes "f") (bytes "f") 3) := by
  intro h
  have hsource := h.1
  revert hsource
  decide

end JurkOS.Userland
