import JurkOS.Kernel.Loader.Demand

/-!
The image of a program in memory after a load that returns 0.
-/

namespace JurkOS.Kernel.Loader

open Lib Lib.Memory Paging Pmm

variable {a : Arch} {frame : ℕ → ℕ} {cr3 : ℕ}

/-- A store to an address without a page does not return. -/
def ReturnsZero (r : Option ℕ × State) : Prop := r.1 ≠ none ∧ ∀ x ∈ r.2.stores, x.rights ≠ none

def readByte (a : Arch) (cr3 : ℕ) (t : Paging.State) (v : ℕ) : Option UInt8 := (look a cr3 t v).map Prod.snd

namespace Phdr

def imageByte (b : Buffer a) (ph : Phdr) (d : ℕ) : UInt8 := if d < ph.filesz then b.byte (ph.offset + d) else 0

structure Complete (b : Buffer a) (ph : Phdr) (after : List Phdr) : Prop where
  file : ph.filesz = 0 ∨ ph.offset + ph.filesz ≤ b.size
  kept : ∀ d < ph.memsz,
    after.foldl (fun x q => (q.stored b (ph.vaddr + d)).getD x) (ph.imageByte b d) = ph.imageByte b d

end Phdr

def wholeSegment : Phdr := ⟨PT_LOAD, 6, 120, 0x400000, 4, 8⟩

theorem wholeSegment_segments : (oneSegment 6 4).segments elf64 = [wholeSegment] := by decide

end JurkOS.Kernel.Loader
