import Gem5Nvm.Lib.Run
import Gem5Nvm.System

/-!
# Sequences of page requests

A run of `allocPhysPages` and `allocNVMPhysPages` calls hands out one block of bytes per call.
-/

namespace Gem5Nvm

/-- A request for `npages` pages of the volatile memory, or of the NVM. -/
inductive AllocOp
  | phys (npages : ℤ)
  | nvm (npages : ℤ)
  deriving DecidableEq, Repr

def AllocOp.npages : AllocOp → ℤ
  | phys n => n
  | nvm n => n

/-- The bytes a call hands out, from the address it returns. -/
structure Block where
  addr : ℕ
  length : ℕ
  deriving DecidableEq, Repr

/-- The physical addresses of a block. -/
def Block.bytes (b : Block) : Set ℕ := Set.Ico b.addr (b.addr + b.length)

namespace System

/-- `npages` pages from `addr` on. -/
def block (sys : System) (addr : ℕ) (npages : ℤ) : Block :=
  ⟨addr, npages.toNat * sys.pageBytes⟩

def allocStep (sys : System) : AllocOp → Sim (Block × System)
  | .phys n => do
    let (addr, sys') ← sys.allocPhysPages n
    return (sys.block addr n, sys')
  | .nvm n =>
    let (addr, sys') := sys.allocNVMPhysPages n
    .ok (sys.block addr n, sys')

/-- A request the allocators serve with pages of its own.  A volatile request of several pages
must not come to the NVM window: the loop that steps over it reserves one page only.  A single
page must not span the window, and the NVM allocator, which never checks its pointer, must have
the pages left. -/
def Serves (sys : System) : AllocOp → Prop
  | .phys n =>
    let lo := sys.pagePtr * sys.pageBytes
    let hi := (sys.pagePtr + n.toNat) * sys.pageBytes
    hi < 2 ^ 64 ∧ (hi < nvmStartAddr ∨ nvmEndAddr < lo ∨
      n = 1 ∧ ¬ (lo < nvmStartAddr ∧ nvmEndAddr < hi))
  | .nvm n => nvmStartAddr + (sys.pageNVMPtr + n.toNat) * sys.pageBytes ≤ nvmEndAddr

end System

end Gem5Nvm
