import Gem5Nvm.Vma

/-!
# The address space of a process

`MemState` of `sim/mem_state.cc`, with what it reaches through its owner: the page table, the
allocators, the memory and the thread contexts.  The TLB flushes are left out, the page table being
what translates here.
-/

namespace Gem5Nvm

structure MemState where
  pageBytes : ℕ
  brkPoint : ℕ
  stackBase : ℕ
  stackSize : ℕ
  maxStackSize : ℕ
  stackMin : ℕ
  nextThreadStackBase : ℕ
  mmapEnd : ℕ
  endBrkPoint : ℕ
  vmaList : List Vma
  deriving DecidableEq, Repr

def MemState.new (pageBytes brkPoint stackBase maxStackSize nextThreadStackBase mmapEnd : ℕ) :
    MemState where
  pageBytes := pageBytes
  brkPoint := brkPoint
  stackBase := stackBase
  stackSize := maxStackSize
  maxStackSize := maxStackSize
  stackMin := usub stackBase maxStackSize
  nextThreadStackBase := nextThreadStackBase
  mmapEnd := mmapEnd
  endBrkPoint := brkPoint
  vmaList := []

/-- A process, as far as its address space goes. -/
structure Process where
  memState : MemState
  pTable : EmulationPageTable
  system : System
  memory : PhysBytes
  mmapGrowsDown : Bool
  contextIds : List ℕ

/-- The walk of `unmapRegion` over the areas.  The piece pushed back in the first case is not
visited, since the walk stops there. -/
def unmapVmas (pageBytes start end_ : ℕ) : List Vma → Sim (List Vma)
  | [] => .ok []
  | v :: vs =>
    if v.isStrictSuperset start end_ then do
      let back ← v.sliceRegionRight pageBytes start
      let v ← v.sliceRegionLeft pageBytes end_
      return v :: vs ++ [back]
    else if v.isSubset start end_ then unmapVmas pageBytes start end_ vs
    else if v.intersects start end_ then do
      let v ← (if v.start < start then v.sliceRegionRight pageBytes start
        else v.sliceRegionLeft pageBytes end_)
      let vs ← unmapVmas pageBytes start end_ vs
      return v :: vs
    else do
      let vs ← unmapVmas pageBytes start end_ vs
      return v :: vs

/-- One round of the walk of `remapRegion`, over the areas behind it and those ahead; a piece pushed
back is ahead.  A walk that stops leaves nothing ahead. -/
def remapVma (pageBytes start end_ newStart : ℕ) :
    List Vma × List Vma → Sim (List Vma × List Vma)
  | (done, []) => .ok (done, [])
  | (done, v :: rest) =>
    if v.isStrictSuperset start end_ then do
      let right ← v.sliceRegionRight pageBytes start
      let left ← v.sliceRegionLeft pageBytes end_
      let v ← v.sliceRegionLeft pageBytes start
      let v ← v.sliceRegionRight pageBytes end_
      let v ← v.remap pageBytes newStart
      return (done ++ v :: rest ++ [right, left], [])
    else if v.isSubset start end_ then do
      let v ← v.remap pageBytes (u64 (usub v.start start + newStart))
      return (done ++ [v], rest)
    else if v.intersects start end_ then
      if v.start < start then do
        let back ← v.sliceRegionRight pageBytes start
        let v ← v.sliceRegionLeft pageBytes start
        let v ← v.remap pageBytes newStart
        return (done ++ [v], rest ++ [back])
      else do
        let back ← v.sliceRegionLeft pageBytes end_
        let v ← v.sliceRegionRight pageBytes end_
        let v ← v.remap pageBytes (usub (u64 (newStart + v.start)) start)
        return (done ++ [v], rest ++ [back])
    else .ok (done ++ [v], rest)

def remapVmas (pageBytes start end_ newStart : ℕ) (l : List Vma) : Sim (List Vma) := do
  let s ← whileSim (fun s : List Vma × List Vma => !s.2.isEmpty)
    (remapVma pageBytes start end_ newStart) ([], l)
  return s.1

/-- The variables of the page loops of `unmapRegion` and `remapRegion`. -/
structure PageCursor where
  table : EmulationPageTable
  start : ℕ
  newStart : ℕ
  length : ℕ

/-- To the next page; the length left wraps around. -/
def PageCursor.next (c : PageCursor) (pageBytes : ℕ) (table : EmulationPageTable) : PageCursor where
  table := table
  start := u64 (c.start + pageBytes)
  newStart := u64 (c.newStart + pageBytes)
  length := usub c.length pageBytes

def unmapRegionPage (pageBytes : ℕ) (c : PageCursor) : Sim PageCursor := do
  let unmapped ← c.table.isUnmapped c.start pageBytes
  let t ← (if unmapped then .ok c.table else c.table.unmap c.start pageBytes)
  return c.next pageBytes t

def remapRegionPage (pageBytes : ℕ) (c : PageCursor) : Sim PageCursor := do
  let unmapped ← c.table.isUnmapped c.start pageBytes
  let t ← (if unmapped then .ok c.table else c.table.remap c.start pageBytes c.newStart)
  return c.next pageBytes t

/-- An `int64_t` argument that a `uint64_t` is passed for. -/
def toInt64 (x : ℕ) : ℤ := if x < 2 ^ 63 then x else (x : ℤ) - 2 ^ 64

namespace Process

/-- A change of the address space's own fields. -/
def setMemState (p : Process) (ms : MemState) : Process := { p with memState := ms }

/-- One round of the page loop of `isUnmapped`. -/
def checkPage (p : Process) (start : ℕ) : Sim ℕ :=
  if (p.pTable.lookup start).isSome then
    .error (.panic "Someone allocated physical memory at VA %p without creating a VMA!\n")
  else .ok (u64 (start + p.memState.pageBytes))

def isUnmapped (p : Process) (start length : ℕ) : Sim Bool :=
  let end_ := u64 (start + length)
  if p.memState.vmaList.any (·.intersects start end_) then .ok false
  else do
    let _ ← whileSim (fun s => decide (s < end_)) p.checkPage start
    return true

def mapRegion (p : Process) (start length : ℕ) (name : String) (file : Option HostFile)
    (offset : ℕ) : Sim Process := do
  let unmapped ← p.isUnmapped start length
  assert unmapped "isUnmapped(start_addr, length)"
  let v ← Vma.new p.memState.pageBytes start (u64 (start + length)) name file offset
  return p.setMemState { p.memState with vmaList := p.memState.vmaList ++ [v] }

def updateBrkRegion (p : Process) (oldBrk newBrk : ℕ) : Sim Process :=
  if newBrk < oldBrk then .ok (p.setMemState { p.memState with brkPoint := newBrk })
  else
    let pageAlignedBrk := roundUp newBrk p.memState.pageBytes
    if pageAlignedBrk > p.memState.endBrkPoint then do
      let length := usub pageAlignedBrk p.memState.endBrkPoint
      let unmapped ← p.isUnmapped p.memState.endBrkPoint length
      if unmapped then do
        let p ← p.mapRegion p.memState.endBrkPoint length "heap" none 0
        return p.setMemState
          { p.memState with endBrkPoint := pageAlignedBrk, brkPoint := newBrk }
      else return p
    else .ok (p.setMemState { p.memState with brkPoint := newBrk })

def unmapRegion (p : Process) (start length : ℕ) : Sim Process := do
  let vmas ← unmapVmas p.memState.pageBytes start (u64 (start + length)) p.memState.vmaList
  let c ← doWhileSim (fun c : PageCursor => decide (0 < c.length))
    (unmapRegionPage p.memState.pageBytes) ⟨p.pTable, start, 0, length⟩
  return { p with memState := { p.memState with vmaList := vmas }, pTable := c.table }

def remapRegion (p : Process) (start newStart length : ℕ) : Sim Process := do
  let vmas ← remapVmas p.memState.pageBytes start (u64 (start + length)) newStart
    p.memState.vmaList
  let c ← doWhileSim (fun c : PageCursor => decide (0 < c.length))
    (remapRegionPage p.memState.pageBytes) ⟨p.pTable, start, newStart, length⟩
  return { p with memState := { p.memState with vmaList := vmas }, pTable := c.table }

/-- `Process::allocateMem`, on the process's own page table. -/
def allocateMem (p : Process) (vaddr : ℕ) (size : ℤ) (clobber : Bool) : Sim Process := do
  let (sys, t) ← Gem5Nvm.allocateMem p.system p.pTable vaddr size clobber
  return { p with system := sys, pTable := t }

/-- One round of the loop that grows the stack. -/
def growStack (p : Process) : Sim Process :=
  let stackMin := usub p.memState.stackMin p.memState.pageBytes
  if usub p.memState.stackBase stackMin > p.memState.maxStackSize then
    .error (.fatal "Maximum stack size exceeded\n")
  else
    (p.setMemState { p.memState with stackMin := stackMin }).allocateMem stackMin
      p.memState.pageBytes false

def fixupFault (p : Process) (vaddr : ℕ) : Sim (Bool × Process) :=
  let pageBytes := p.memState.pageBytes
  match p.memState.vmaList.find? (·.contains vaddr) with
  | some v => do
    let vpageStart := roundDown vaddr pageBytes
    let p ← p.allocateMem vpageStart pageBytes false
    let mem ← (if v.hasHostBuf then
        p.contextIds.foldlM (fun mem _ => v.fillMemPages pageBytes p.pTable mem vpageStart) p.memory
      else .ok p.memory)
    return (true, { p with memory := mem })
  | none =>
    if p.memState.stackMin ≤ vaddr ∧ vaddr < p.memState.stackBase then do
      let p ← p.allocateMem (roundDown vaddr pageBytes) pageBytes false
      return (true, p)
    else if vaddr < p.memState.stackMin ∧
        usub p.memState.stackBase p.memState.maxStackSize ≤ vaddr then do
      let p ← whileSim (fun p : Process => decide (vaddr < p.memState.stackMin)) growStack p
      return (true, p)
    else .ok (false, p)

/-- The next address `extendMmap` tries. -/
def skipPage (p : Process) (start : ℕ) : ℕ :=
  if p.mmapGrowsDown then usub start p.memState.pageBytes else u64 (start + p.memState.pageBytes)

/-- One round of the loop of `extendMmap`: the address tried, and whether it was taken. -/
def tryExtend (p : Process) (length : ℕ) (s : ℕ × Bool) : Sim (ℕ × Bool) := do
  let unmapped ← p.isUnmapped s.1 length
  return (if unmapped then (s.1, true) else (p.skipPage s.1, false))

def extendMmap (p : Process) (length : ℕ) : Sim (ℕ × Process) := do
  let start := if p.mmapGrowsDown then usub p.memState.mmapEnd length else p.memState.mmapEnd
  let (start, _) ← whileSim (fun s : ℕ × Bool => !s.2) (p.tryExtend length) (start, false)
  let mmapEnd := if p.mmapGrowsDown then start else u64 (start + length)
  return (start, p.setMemState { p.memState with mmapEnd := mmapEnd })

end Process

end Gem5Nvm
