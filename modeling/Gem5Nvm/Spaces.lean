import Gem5Nvm.Process

/-!
# The two memory spaces

A virtual page of the NVM window is to be backed by a physical page of the window, every other
virtual page by a physical page off it.
-/

namespace Gem5Nvm

namespace System

/-- `paddr` is a page of the memory space that `vaddr` belongs to. -/
def SameSpace (sys : System) (vaddr paddr : ℕ) : Prop :=
  if inNvm vaddr then nvmStartAddr ≤ paddr ∧ paddr + sys.pageBytes ≤ nvmEndAddr
  else paddr + sys.pageBytes ≤ nvmStartAddr ∨ nvmEndAddr ≤ paddr

/-- There are `n` pages for a request.  The NVM pages must be left in the window; the volatile
pages must not run over it, from one side to the other. -/
def HasRoom (sys : System) (nvm : Bool) (n : ℕ) : Prop :=
  if nvm then nvmStartAddr + (sys.pageNVMPtr + n) * sys.pageBytes ≤ nvmEndAddr
  else
    (sys.pagePtr + n) * sys.pageBytes < 2 ^ 64 ∧
      ¬ (sys.pagePtr * sys.pageBytes < nvmStartAddr ∧
        nvmEndAddr < (sys.pagePtr + n) * sys.pageBytes)

end System

namespace World

def SpacesApart (w : World) : Prop :=
  ∀ pid v e, (w.tables pid).pTable v = some e → w.system.SameSpace v e.paddr

/-- A call that keeps the spaces apart.  `allocateMem` tests its first address only, so all pages
of the region must be on the same side of the window, and they must be fewer than an `int` counts.
`replicatePage` allocates when the child has no page yet. -/
def StaysApart (w : World) : Op → Prop
  | .allocateMem _ vaddr size _ =>
    let n := divCeil size w.system.pageBytes
    1 ≤ size ∧ n < 2 ^ 31 ∧
      (∀ i : ℕ, (i : ℤ) < n →
        inNvm (u64 (vaddr.toNat + i * w.system.pageBytes)) = inNvm vaddr.toNat) ∧
      w.system.HasRoom (inNvm vaddr.toNat) n.toNat
  | .replicatePage _ new vaddr =>
    (w.tables new).translate vaddr.toNat = none → w.system.HasRoom (inNvm vaddr.toNat) 1

end World

end Gem5Nvm
