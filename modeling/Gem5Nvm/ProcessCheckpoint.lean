import Gem5Nvm.AddressSpace

/-!
# Checkpoints of an address space

`MemState::serialize` and `unserialize`, from `sim/mem_state.hh`, and those of
`EmulationPageTable`, from `mem/page_table.cc`.  Neither the furthest point mapped for the break nor
the host buffers of the areas are written.  The allocators and the memory are restored elsewhere:
here the restored process gets those of the saved one.
-/

namespace Gem5Nvm

open Run

namespace MemState

/-- What `serialize` writes; of an area, its name, start and end. -/
structure Checkpoint where
  brkPoint : ℕ
  stackBase : ℕ
  stackSize : ℕ
  maxStackSize : ℕ
  stackMin : ℕ
  nextThreadStackBase : ℕ
  mmapEnd : ℕ
  vmaList : List (String × ℕ × ℕ)

def serialize (ms : MemState) : Checkpoint where
  brkPoint := ms.brkPoint
  stackBase := ms.stackBase
  stackSize := ms.stackSize
  maxStackSize := ms.maxStackSize
  stackMin := ms.stackMin
  nextThreadStackBase := ms.nextThreadStackBase
  mmapEnd := ms.mmapEnd
  vmaList := ms.vmaList.map fun v => (v.name, v.start, v.end_)

/-- One round of the loop of `unserialize`: `emplace_back` of an area without a file. -/
def readVma (pageBytes : ℕ) (l : List Vma) (x : String × ℕ × ℕ) : Sim (List Vma) := do
  let v ← Vma.new pageBytes x.2.1 x.2.2 x.1 none 0
  return l ++ [v]

def unserialize (ms : MemState) (cp : Checkpoint) : Sim MemState := do
  let vmaList ← cp.vmaList.foldlM (readVma ms.pageBytes) ms.vmaList
  return { ms with
    brkPoint := cp.brkPoint
    stackBase := cp.stackBase
    stackSize := cp.stackSize
    maxStackSize := cp.maxStackSize
    stackMin := cp.stackMin
    nextThreadStackBase := cp.nextThreadStackBase
    mmapEnd := cp.mmapEnd
    vmaList := vmaList }

end MemState

namespace EmulationPageTable

/-- `unordered_map::emplace`, which keeps an entry that is there. -/
def emplace (t : EmulationPageTable) (x : ℕ × Entry) : EmulationPageTable :=
  if (t.pTable x.1).isSome then t else t.set x.1 x.2

/-- `serialize` writes the entries as they are enumerated; `unserialize` puts them in again. -/
def unserialize (t : EmulationPageTable) (l : List (ℕ × Entry)) : EmulationPageTable :=
  l.foldl emplace t

end EmulationPageTable

/-- The parameters a process is constructed with. -/
structure ProcessParams where
  pageBytes : ℕ
  brkPoint : ℕ
  stackBase : ℕ
  maxStackSize : ℕ
  nextThreadStackBase : ℕ
  mmapEnd : ℕ
  mmapGrowsDown : Bool
  contextIds : List ℕ

namespace Process

def new (ps : ProcessParams) (sys : System) (mem : PhysBytes) : Process where
  memState := MemState.new ps.pageBytes ps.brkPoint ps.stackBase ps.maxStackSize
    ps.nextThreadStackBase ps.mmapEnd
  pTable := .new ps.pageBytes
  system := sys
  memory := mem
  mmapGrowsDown := ps.mmapGrowsDown
  contextIds := ps.contextIds

/-- A fresh process that reads the checkpoint of `p`, whose page table was enumerated as `l`. -/
def restore (ps : ProcessParams) (p : Process) (l : List (ℕ × Entry)) : Sim Process := do
  let fresh := Process.new ps p.system p.memory
  let ms ← fresh.memState.unserialize p.memState.serialize
  return { fresh with memState := ms, pTable := fresh.pTable.unserialize l }

/-- What a run shows: its answers, and at its end the addresses in areas, the pages mapped and the
memory behind them. -/
def shown (x : List Answer × Process) :
    List Answer × Set ℕ × (ℕ → Option Entry) × PhysBytes :=
  (x.1, covered x.2.memState.vmaList, x.2.pTable.pTable, x.2.memory)

/-- The process restored from a checkpoint of `p` goes on as `p` would, or fails as it would. -/
def Transparent (ps : ProcessParams) (p : Process) : Prop :=
  ∀ l, p.pTable.Enumerates l → ∃ q, restore ps p l = .ok q ∧
    ∀ ops, (run step q ops).map shown = (run step p ops).map shown

/-- A process constructed with `ps` and set up: the fields a set-up changes are free, but none of
its areas has failed its check, and the break has not been moved by a call. -/
structure Started (ps : ProcessParams) (p : Process) : Prop where
  pageBytes : p.memState.pageBytes = ps.pageBytes
  pageSize : p.pTable.pageSize = ps.pageBytes
  mmapGrowsDown : p.mmapGrowsDown = ps.mmapGrowsDown
  contextIds : p.contextIds = ps.contextIds
  checked : ∀ v ∈ p.memState.vmaList, v.sanityCheck ps.pageBytes = .ok v
  endBrkPoint : p.memState.endBrkPoint = ps.brkPoint

end Process

end Gem5Nvm
