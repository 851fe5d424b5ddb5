import Gem5Nvm.AddrRangeMap

/-!
# Physical memory

`PhysicalMemory` of `mem/physical.cc`: the memories of a system, the address map over them and the
host memory behind them.  The calls to the host (`shm_open`, `ftruncate`, `mmap`) succeed.  Every
private mapping is new host memory; every shared one is the same object, mapped from its start.
-/

namespace Gem5Nvm

/-- `AbstractMemory`, from `mem/abstract_mem.hh`; its constructor asks for a valid range that is
not empty. -/
structure AbstractMemory where
  name : String
  range : AddrRange
  null : Bool
  inAddrMap : Bool
  confTableReported : Bool
  kvmMap : Bool
  valid_range : range.valid = true ∧ range.size ≠ 0
  deriving DecidableEq

/-- A memory of the address map over the addresses from `start` up to `end_`. -/
def AbstractMemory.over (name : String) (start end_ : ℕ)
    (h : (AddrRange.contiguous start end_).valid = true ∧
      (AddrRange.contiguous start end_).size ≠ 0 := by decide) : AbstractMemory :=
  ⟨name, .contiguous start end_, false, true, true, true, h⟩

def AbstractMemory.nvmCtrl : AbstractMemory := .over "nvm_ctrl" 0x30000000 0x50000000

/-- What a host mapping shows: memory of its own, or the shared object. -/
inductive HostObject
  | private_ (n : ℕ)
  | shared
  deriving DecidableEq, Repr

/-- What `mmap` returns: the start of `length` bytes of an object. -/
structure HostMapping where
  object : HostObject
  length : ℕ
  deriving DecidableEq, Repr

structure BackingStoreEntry where
  range : AddrRange
  pmem : HostMapping
  confTableReported : Bool
  inAddrMap : Bool
  kvmMap : Bool
  deriving DecidableEq, Repr

/-- `backed` lists the calls of `setBackingStore`; `shmSize` is the size `ftruncate` gave the
shared object last. -/
structure PhysicalMemory where
  addrMap : AddrRangeMap AbstractMemory
  memories : List AbstractMemory
  size : ℕ
  sharedBackstore : String
  backingStore : List BackingStoreEntry
  backed : List (AbstractMemory × HostMapping)
  shmSize : ℕ

namespace PhysicalMemory

def createBackingStore (pm : PhysicalMemory) (range : AddrRange) (memories : List AbstractMemory)
    (confTableReported inAddrMap kvmMap : Bool) : Sim PhysicalMemory :=
  if range.interleaved then
    .error (.panic "Cannot create backing store for interleaved range %s\n")
  else
    let shared := pm.sharedBackstore ≠ ""
    let pmem : HostMapping :=
      { object := if shared then .shared else .private_ pm.backingStore.length
        length := range.size }
    .ok { pm with
      shmSize := if shared then range.size else pm.shmSize
      backingStore := pm.backingStore ++ [⟨range, pmem, confTableReported, inAddrMap, kvmMap⟩]
      backed := pm.backed ++ memories.map (·, pmem) }

/-- The first loop of the constructor, one memory. -/
def addMemory (pm : PhysicalMemory) (m : AbstractMemory) : Sim PhysicalMemory :=
  if m.inAddrMap then do
    let (it, addrMap) ← pm.addrMap.insert m.range m
    if it.isNone then
      .error (.fatal "Memory address range for %s is overlapping\n")
    else
      return { pm with
        memories := pm.memories ++ [m]
        size := u64 (pm.size + m.range.size)
        addrMap := addrMap }
  else if m.range.interleaved then
    .error (.fatal
      "Memory %s that is not in the global address map cannot be interleaved\n")
  else pm.createBackingStore m.range [m] m.confTableReported m.inAddrMap m.kvmMap

/-- The interleaved ranges kept so far become one store. -/
def mergeStore (pm : PhysicalMemory) (intlvRanges : List AddrRange)
    (currMemories : List AbstractMemory) : Sim PhysicalMemory := do
  let mergedRange ← AddrRange.merged intlvRanges
  match currMemories with
  | [] => .error (.undefined "front of an empty vector")
  | f :: _ =>
    if currMemories.any fun c => f.confTableReported != c.confTableReported ||
        f.inAddrMap != c.inAddrMap || f.kvmMap != c.kvmMap then
      .error (.fatal "Inconsistent flags in an interleaved range\n")
    else
      pm.createBackingStore mergedRange currMemories f.confTableReported f.inAddrMap f.kvmMap

/-- The state of the second loop: the interleaved ranges waiting to be merged, with their
memories. -/
structure Pending where
  pm : PhysicalMemory
  intlvRanges : List AddrRange
  currMemories : List AbstractMemory

/-- The second loop of the constructor, one node of the address map. -/
def storeNode (p : Pending) (r : RangeNode AbstractMemory) : Sim Pending :=
  if r.second.null then .ok p
  else if r.first.interleaved then do
    let p ←
      match p.intlvRanges.getLast? with
      | some back =>
        if ¬ back.mergesWith r.first then do
          let pm ← p.pm.mergeStore p.intlvRanges p.currMemories
          pure (⟨pm, [], []⟩ : Pending)
        else pure p
      | none => pure p
    return { p with
      intlvRanges := p.intlvRanges ++ [r.first]
      currMemories := p.currMemories ++ [r.second] }
  else do
    let pm ← p.pm.createBackingStore r.first [r.second] r.second.confTableReported
      r.second.inAddrMap r.second.kvmMap
    return { p with pm := pm }

/-- `PhysicalMemory::PhysicalMemory`. -/
def new (memories : List AbstractMemory) (sharedBackstore : String) : Sim PhysicalMemory := do
  let pm ← memories.foldlM addMemory
    { addrMap := .empty 1, memories := [], size := 0, sharedBackstore := sharedBackstore,
      backingStore := [], backed := [], shmSize := 0 }
  let p ← pm.addrMap.tree.foldlM storeNode ⟨pm, [], []⟩
  if p.intlvRanges ≠ [] then p.pm.mergeStore p.intlvRanges p.currMemories else return p.pm

def totalSize (pm : PhysicalMemory) : ℕ := pm.size

/-- `isMemAddr`, with the address map its lookup leaves. -/
def isMemAddr (pm : PhysicalMemory) (addr : ℕ) : Sim (Bool × PhysicalMemory) := do
  let (it, addrMap) ← pm.addrMap.contains addr
  return (it.isSome, { pm with addrMap := addrMap })

end PhysicalMemory

abbrev HostBytes := HostObject → ℕ → UInt8

/-- A packet that reads, or writes `data`, `size` bytes at `addr`. -/
inductive Packet
  | read (addr size : ℕ)
  | write (addr : ℕ) (data : List UInt8)

namespace Packet

def getAddr : Packet → ℕ
  | read addr _ => addr
  | write addr _ => addr

def getSize : Packet → ℕ
  | read _ size => size
  | write _ data => data.length

def getAddrRange (pkt : Packet) : AddrRange := .rangeSize pkt.getAddr pkt.getSize

end Packet

/-- The host memory an access at `addr` of memory `m` reaches: `toHostAddr`, or null. -/
def PhysicalMemory.toHostAddr (pm : PhysicalMemory) (m : AbstractMemory) (addr : ℕ) :
    Option (HostMapping × ℕ) :=
  (pm.backed.reverse.find? fun b => b.1 = m).map fun b => (b.2, usub addr m.range.start)

/-- Whether `size` bytes from `off` on are bytes of a mapping, and of the object behind it. -/
def PhysicalMemory.inStore (pm : PhysicalMemory) (map : HostMapping) (off size : ℕ) : Bool :=
  decide (off + size ≤ map.length ∧ (map.object = .shared → off + size ≤ pm.shmSize))

/-- The bytes a packet reads from `off` on, and the host memory it leaves. -/
def hostAccess (map : HostMapping) (off : ℕ) (host : HostBytes) :
    Packet → Option (List UInt8) × HostBytes
  | .read _ size => (some ((List.range size).map fun i => host map.object (off + i)), host)
  | .write _ data =>
    (none, fun o i =>
      if o = map.object ∧ off ≤ i ∧ i < off + data.length then data.getD (i - off) 0 else host o i)

/-- `functionalAccess` of a memory, and `access` for a plain read or write: the bytes read, and the
host memory afterwards.  A null memory leaves the packet as it is. -/
def PhysicalMemory.memoryAccess (pm : PhysicalMemory) (m : AbstractMemory) (host : HostBytes)
    (pkt : Packet) : Sim (Option (List UInt8) × HostBytes) := do
  let inside ← pkt.getAddrRange.isSubset m.range
  assert inside "pkt->getAddrRange().isSubset(range)"
  match pm.toHostAddr m pkt.getAddr with
  | none => return (none, host)
  | some (map, off) =>
    if pm.inStore map off pkt.getSize then return hostAccess map off host pkt
    else .error (.undefined "access outside the backing store")

/-- `PhysicalMemory::access` and `functionalAccess`. -/
def PhysicalMemory.access (pm : PhysicalMemory) (host : HostBytes) (pkt : Packet) :
    Sim (Option (List UInt8) × HostBytes × PhysicalMemory) := do
  let (it, addrMap) ← pm.addrMap.containsRange pkt.getAddrRange
  match it with
  | none => .error (.assertion "m != addrMap.end()")
  | some m =>
    let (data, host) ← pm.memoryAccess m.second host pkt
    return (data, host, { pm with addrMap := addrMap })

end Gem5Nvm
