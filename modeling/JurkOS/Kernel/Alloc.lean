import JurkOS.Kernel.KheapRuns
import Mathlib.Data.Set.Insert

/-!
What the file systems use of the kernel heap: `kmalloc` gives `NULL` or an
address that is not in use, and nothing that is in use is taken back.
-/

namespace JurkOS.Kernel

structure Allocator (σ : Type) where
  kmalloc : σ → ℕ → ℕ × σ
  live : σ → Set ℕ
  fresh : ∀ h n, (kmalloc h n).1 ≠ 0 → (kmalloc h n).1 ∉ live h
  granted : ∀ h n, (kmalloc h n).1 ≠ 0 → (kmalloc h n).1 ∈ live (kmalloc h n).2
  kept : ∀ h n, live h ⊆ live (kmalloc h n).2

def bump : Allocator ℕ where
  kmalloc h n := (h, h + n + 1)
  live h := {x | x < h}
  fresh h n _ := Nat.lt_irrefl h
  granted h n _ := by change h < h + n + 1; omega
  kept h n x hx := by change x < h + n + 1; have : x < h := hx; omega

namespace Kheap

variable {a : Arch} {A : HeapArea a}

abbrev Held (A : HeapArea a) := {s : Heap // ∃ l, Holds A s l}

theorem grants (s : Held A) {n : ℕ} (hn : n + 15 ≤ a.SIZE_MAX) :
    ∃ r, kmalloc a A.heapHead A.size s.1.mem n = some r ∧ ∃ l, Holds A (s.1.grant n r) l := by
  obtain ⟨s, l, hl⟩ := s
  obtain ⟨r, hr, hholds, -⟩ := grant_kmalloc hl (le_refl A.size) hn
  exact ⟨r, hr, hholds⟩

def kmallocResult (s : Held A) (n : ℕ) (hn : n + 15 ≤ a.SIZE_MAX) : ℕ × Lib.Memory.Mem :=
  (kmalloc a A.heapHead A.size s.1.mem n).get (by
    obtain ⟨r, hr, -⟩ := grants s hn
    rw [hr]
    rfl)

theorem kmallocResult_holds (s : Held A) (n : ℕ) (hn : n + 15 ≤ a.SIZE_MAX) :
    ∃ l, Holds A (s.1.grant n (kmallocResult s n hn)) l := by
  obtain ⟨r, hr, hholds⟩ := grants s hn
  have hresult : kmallocResult s n hn = r := by simp [kmallocResult, hr]
  rwa [hresult]

/-- The block list as an allocator; the callers ask for the size of a structure, which is in range. -/
def allocator (A : HeapArea a) : Allocator (Held A) where
  kmalloc s n :=
    if hn : n + 15 ≤ a.SIZE_MAX then
      ((kmallocResult s n hn).1, ⟨s.1.grant n (kmallocResult s n hn), kmallocResult_holds s n hn⟩)
    else (0, s)
  live s := {x | x ∈ s.1.live.map Prod.fst}
  fresh s n := by
    split_ifs with hn
    · intro hne hmem
      obtain ⟨l, hl⟩ := kmallocResult_holds s n hn
      have hnodup := hl.nodup
      rw [Heap.grant, if_neg hne, List.map_cons, List.nodup_cons] at hnodup
      exact hnodup.1 hmem
    · exact fun hne => absurd rfl hne
  granted s n := by
    split_ifs with hn
    · intro hne
      dsimp only at hne
      simp only [Heap.grant, if_neg hne, List.map_cons]
      exact List.mem_cons_self
    · exact fun hne => absurd rfl hne
  kept s n x hx := by
    split_ifs with hn
    · simp only [Heap.grant]
      split_ifs
      · exact hx
      · exact List.mem_cons_of_mem _ hx
    · exact hx

end Kheap

end JurkOS.Kernel
