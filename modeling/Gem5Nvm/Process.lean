import Gem5Nvm.Lib.Run
import Gem5Nvm.PageTable
import Gem5Nvm.System

/-!
# Processes and their pages

`Process::allocateMem`, `replicatePage` and the part of `clone` that copies an address space, from
`sim/process.cc`.  The memory behind the ports is an array of bytes.  A proxy that meets a page
that is not mapped fails; a page fault it would repair is an allocation before the access.
-/

namespace Gem5Nvm

/-- Pages for a virtual address, from the allocator of its memory space. -/
def System.allocPagesFor (sys : System) (vaddr : ℕ) (npages : ℤ) : Sim (ℕ × System) :=
  if inNvm vaddr then pure (sys.allocNVMPhysPages npages) else sys.allocPhysPages npages

def allocateMem (sys : System) (t : EmulationPageTable) (vaddr : ℕ) (size : ℤ) (clobber : Bool) :
    Sim (System × EmulationPageTable) := do
  let npages := toInt32 (divCeil size sys.pageBytes)
  let (paddr, sys) ← sys.allocPagesFor vaddr npages
  let t ← t.map vaddr paddr size (if clobber then MappingFlags.clobber else 0)
  return (sys, t)

abbrev PhysBytes := ℕ → UInt8

def frame (mem : PhysBytes) (paddr size : ℕ) : List UInt8 :=
  (List.range size).map fun i => mem (paddr + i)

/-- `ChunkGenerator`: the pieces of `size` bytes from `addr` on that do not cross a page. -/
def chunks (pageBytes : ℕ) : ℕ → ℕ → ℕ → List (ℕ × ℕ)
  | 0, _, _ => []
  | fuel + 1, addr, size =>
    if size = 0 then []
    else
      let n := min size (pageBytes - addr % pageBytes)
      (addr, n) :: chunks pageBytes fuel (u64 (addr + n)) (size - n)

/-- The physical address of a functional access. -/
def translateFunctional (t : EmulationPageTable) (vaddr : ℕ) : Option ℕ :=
  (t.lookup vaddr).map fun e => e.paddr ||| t.pageOffset vaddr

/-- `readBlob` through the page table. -/
def readBlob (t : EmulationPageTable) (mem : PhysBytes) (vaddr size : ℕ) : Sim (List UInt8) := do
  let parts ← (chunks t.pageSize size vaddr size).mapM fun c =>
    match translateFunctional t c.1 with
    | some paddr => .ok (frame mem paddr c.2)
    | none => .error (.fatal "readBlob(%#x, ...) failed")
  return parts.flatten

/-- The bytes `buf` stored from `paddr` on. -/
def storeBytes (mem : PhysBytes) (paddr : ℕ) (buf : List UInt8) : PhysBytes := fun a =>
  if paddr ≤ a ∧ a < paddr + buf.length then buf.getD (a - paddr) 0 else mem a

/-- `writeBlob` through the page table: the bytes left to write go with the memory. -/
def writeBlob (t : EmulationPageTable) (mem : PhysBytes) (vaddr : ℕ) (buf : List UInt8) :
    Sim PhysBytes := do
  let (mem, _) ← (chunks t.pageSize buf.length vaddr buf.length).foldlM
    (fun (s : PhysBytes × List UInt8) c =>
      match translateFunctional t c.1 with
      | some paddr => .ok (storeBytes s.1 paddr (s.2.take c.2), s.2.drop c.2)
      | none => .error (.fatal "writeBlob(%#x, ...) failed")) (mem, buf)
  return mem

/-- A system, its memory, and the page tables of its processes. -/
structure World where
  system : System
  memory : PhysBytes
  tables : ℕ → EmulationPageTable

namespace World

/-- A system whose processes have nothing mapped. -/
def fresh (sys : System) (mem : PhysBytes) : World :=
  ⟨sys, mem, fun _ => .new sys.pageBytes⟩

/-- `Process::replicatePage`, of process `new`, from the context of process `old`. -/
def replicatePage (w : World) (old new vaddr newPaddr : ℕ) (allocatePage : Bool) : Sim World := do
  let (newPaddr, sys) ←
    (if allocatePage then w.system.allocPagesFor vaddr 1 else .ok (newPaddr, w.system))
  let buf ← readBlob (w.tables old) w.memory vaddr sys.pageBytes
  -- the `bool` passed for the flags is `Clobber`
  let t ← (w.tables new).map vaddr newPaddr sys.pageBytes MappingFlags.clobber
  let mem ← writeBlob t w.memory vaddr buf
  return ⟨sys, mem, Function.update w.tables new t⟩

/-- One round of the loop of `clone`; `paddr` is not initialised when the child has no page. -/
def clonePage (w : World) (old new vaddr : ℕ) : Sim World :=
  match (w.tables new).translate vaddr with
  | some paddr => w.replicatePage old new vaddr paddr false
  | none => w.replicatePage old new vaddr 0 true

/-- `Process::clone` without `CLONE_VM`, over the mappings of the parent. -/
def clone (w : World) (old new : ℕ) (mappings : List (ℕ × ℕ)) : Sim World :=
  mappings.foldlM (fun w m => w.clonePage old new m.1) w

/-- The calls through which a process obtains pages. -/
inductive Op
  | allocateMem (pid : ℕ) (vaddr : UInt64) (size : ℤ) (clobber : Bool)
  | replicatePage (old new : ℕ) (vaddr : UInt64)

def step (w : World) : Op → Sim (Unit × World)
  | .allocateMem pid vaddr size clobber => do
    let (sys, t) ← Gem5Nvm.allocateMem w.system (w.tables pid) vaddr.toNat size clobber
    return ((), { w with system := sys, tables := Function.update w.tables pid t })
  | .replicatePage old new vaddr => do
    let w ← w.clonePage old new vaddr.toNat
    return ((), w)

end World

end Gem5Nvm
