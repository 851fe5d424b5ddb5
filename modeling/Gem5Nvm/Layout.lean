import Gem5Nvm.AllocRun

/-!
# The memory layout of the configuration

One volatile memory from address zero up to `top`, not past the NVM window, and the NVM over the
window.
-/

namespace Gem5Nvm

structure Layout where
  dram : AbstractMemory
  nvm : AbstractMemory
  top : ℕ
  dram_range : dram.range = .contiguous 0 top
  nvm_range : nvm.range = .contiguous nvmStartAddr nvmEndAddr
  dram_mapped : dram.inAddrMap = true
  nvm_mapped : nvm.inAddrMap = true
  top_le : top ≤ nvmStartAddr

namespace Layout

/-- The memory a request is to be served from. -/
def memory (L : Layout) : AllocOp → AbstractMemory
  | .phys _ => L.dram
  | .nvm _ => L.nvm

/-- The address map finds memory `m` at every byte of `b`. -/
def BackedBy (sys : System) (b : Block) (m : AbstractMemory) : Prop :=
  ∀ a ∈ b.bytes, ∃ node addrMap,
    sys.physmem.addrMap.contains a = .ok (some node, addrMap) ∧ node.second = m

/-- A call ends in `fatal`, or returns a block of the memory it is to be served from. -/
def FatalOrBacked (L : Layout) (sys : System) (op : AllocOp) : Prop :=
  (∃ msg, sys.allocStep op = .error (.fatal msg)) ∨
    ∃ b sys', sys.allocStep op = .ok (b, sys') ∧ BackedBy sys b (L.memory op)

/-- A request whose exhaustion is noticed.  The end of a volatile request is compared with the
size of both memories together, so it must not fall between the top of the volatile memory and the
window unless it is past that size or in the m5ops range.  The NVM request is compared with
nothing. -/
def Noticed (L : Layout) (sys : System) : AllocOp → Prop
  | .phys n =>
    let next := (sys.pagePtr + n.toNat) * sys.pageBytes
    n ≤ 0 ∨ next ≤ L.top ∨ nvmStartAddr ≤ next ∨ L.top + (nvmEndAddr - nvmStartAddr) < next ∨
      sys.m5opRange.contains next
  | .nvm n =>
    n ≤ 0 ∨ sys.pageAddr sys.pageNVMPtr + n.toNat * sys.pageBytes ≤ nvmEndAddr - nvmStartAddr

end Layout

end Gem5Nvm
