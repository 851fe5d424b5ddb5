import Gem5Nvm.PhysicalMemory

/-!
# The physical page allocators

`System` of `sim/system.cc`, as far as it hands out physical pages: two pointers that only move
up, one for the volatile memory, which steps over the NVM window, and one for the NVM.
-/

namespace Gem5Nvm

def nvmStartAddr : ℕ := 0x30000000

def nvmEndAddr : ℕ := 0x50000000

/-- The test of the patch for an address of the NVM window, both ends included. -/
def inNvm (a : ℕ) : Bool := decide (nvmStartAddr ≤ a ∧ a ≤ nvmEndAddr)

/-- The parameters of a system, `PageShift` of the ISA it is built for included. -/
structure SystemParams where
  pageShift : ℕ
  memories : List AbstractMemory
  sharedBackstore : String
  m5opsBase : ℕ

structure System where
  pageShift : ℕ
  physmem : PhysicalMemory
  m5opRange : AddrRange
  pagePtr : ℕ
  pageNVMPtr : ℕ

namespace System

/-- `System::System`. -/
def new (p : SystemParams) : Sim System := do
  let physmem ← PhysicalMemory.new p.memories p.sharedBackstore
  return {
    pageShift := p.pageShift
    physmem := physmem
    m5opRange := if p.m5opsBase ≠ 0 then .rangeSize p.m5opsBase 0x10000 else .contiguous 1 0
    pagePtr := 0
    pageNVMPtr := 0 }

def pageBytes (sys : System) : ℕ := 2 ^ sys.pageShift

/-- `ptr << PageShift`. -/
def pageAddr (sys : System) (ptr : ℕ) : ℕ := u64 (ptr <<< sys.pageShift)

/-- `ptr += npages`, for an `int`. -/
def advance (ptr : ℕ) (npages : ℤ) : ℕ := ((ptr + npages) % 2 ^ 64).toNat

/-- The loop that steps over the NVM window, from `return_addr` and `pagePtr`. -/
def skipNvm (sys : System) (returnAddr pagePtr : ℕ) : Sim (ℕ × ℕ) :=
  whileSim (fun s => inNvm (sys.pageAddr s.2) || inNvm s.1)
    (fun s => .ok (sys.pageAddr s.2, u64 (s.2 + 1))) (returnAddr, pagePtr)

def allocPhysPages (sys : System) (npages : ℤ) : Sim (ℕ × System) := do
  let (returnAddr, pagePtr) ← sys.skipNvm (sys.pageAddr sys.pagePtr) (advance sys.pagePtr npages)
  let (returnAddr, pagePtr) :=
    if sys.m5opRange.contains (sys.pageAddr pagePtr) then
      (0xffffffff, 0xffffffff >>> sys.pageShift)
    else (returnAddr, pagePtr)
  if sys.physmem.totalSize < sys.pageAddr pagePtr then
    .error (.fatal "Out of memory, please increase size of physical memory.")
  else return (returnAddr, { sys with pagePtr := pagePtr })

def allocNVMPhysPages (sys : System) (npages : ℤ) : ℕ × System :=
  (u64 (sys.pageAddr sys.pageNVMPtr + nvmStartAddr),
    { sys with pageNVMPtr := advance sys.pageNVMPtr npages })

/-- The part of a checkpoint that `System::serialize` writes about the allocators. -/
structure Checkpoint where
  pagePtr : ℕ

def serialize (sys : System) : Checkpoint := { pagePtr := sys.pagePtr }

def unserialize (sys : System) (cp : Checkpoint) : System := { sys with pagePtr := cp.pagePtr }

end System

end Gem5Nvm
