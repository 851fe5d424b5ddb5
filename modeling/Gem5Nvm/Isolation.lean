import Gem5Nvm.Lib.Run
import Gem5Nvm.PhysicalMemory

/-!
# Isolation of physical memory

Which lists of memories a system may be given, what it means for the physical memory built from one
to be isolated, and the lists for which it is.
-/

namespace Gem5Nvm

/-- What the constructors of `AddrRange` promise: 64-bit bounds, and a selector of as many bits as
there are masks, stored in a byte. -/
structure AddrRange.WellFormed (r : AddrRange) : Prop where
  end_lt : r.end_ < 2 ^ 64
  match_lt : r.intlvMatch < 2 ^ r.masks.length
  match_byte : r.intlvMatch < 2 ^ 8

namespace AbstractMemory

/-- The memories `m` is interleaved with, itself included. -/
def group (ms : List AbstractMemory) (m : AbstractMemory) : List AbstractMemory :=
  ms.filter fun k => k.inAddrMap && m.range.mergesWith k.range

/-- Memories without a common address in the address map, in complete interleaved groups with
equal flags. -/
structure Acceptable (ms : List AbstractMemory) : Prop where
  nodup : ms.Nodup
  wellFormed : ∀ m ∈ ms, m.range.WellFormed
  apart : ∀ m ∈ ms, ∀ k ∈ ms, m.inAddrMap = true → k.inAddrMap = true → m ≠ k →
    ∀ a, ¬ (m.range.contains a = true ∧ k.range.contains a = true)
  complete : ∀ m ∈ ms, m.inAddrMap = true → m.range.interleaved = true →
    ∀ j < 2 ^ m.range.masks.length, ∃! k, k ∈ m.group ms ∧ k.range.intlvMatch = j
  flags : ∀ m ∈ ms, ∀ k ∈ m.group ms, m.inAddrMap = true → m.range.interleaved = true →
    k.confTableReported = m.confTableReported ∧ k.kvmMap = m.kvmMap

end AbstractMemory

namespace PhysicalMemory

/-- One access, as a step of a memory and the host bytes behind it. -/
def accessStep (s : PhysicalMemory × HostBytes) (pkt : Packet) :
    Sim (Option (List UInt8) × (PhysicalMemory × HostBytes)) := do
  let (data, host, pm) ← s.1.access s.2 pkt
  return (data, (pm, host))

/-- Every memory that is not null has one backing store, which holds every address of its
range. -/
def Backed (pm : PhysicalMemory) (ms : List AbstractMemory) : Prop :=
  ∀ m ∈ ms, m.null = false → ∃ map, (pm.backed.filter fun b => b.1 = m) = [(m, map)] ∧
    ∃ e ∈ pm.backingStore, e.pmem = map ∧ ∀ a, m.range.contains a = true →
      e.range.contains a = true ∧ a - m.range.start < map.length

/-- What a write to one memory of the address map leaves at other addresses of a memory of the
map. -/
def MemoriesIsolated (pm : PhysicalMemory) (ms : List AbstractMemory) : Prop :=
  ∀ m ∈ ms, ∀ k ∈ ms, m.inAddrMap = true → k.inAddrMap = true →
    ∀ host a data host', a < 2 ^ 64 →
      pm.memoryAccess m host (.write a data) = .ok (none, host') →
      ∀ b n, b < 2 ^ 64 → (∀ x, a ≤ x → x < a + data.length → ¬ (b ≤ x ∧ x < b + n)) →
        (pm.memoryAccess k host' (.read b n)).map Prod.fst
          = (pm.memoryAccess k host (.read b n)).map Prod.fst

/-- The same of accesses through the address map, at any point of a run of accesses. -/
def AccessIsolated (pm : PhysicalMemory) : Prop :=
  ∀ start s, Run.Reachable accessStep (pm, start) s →
    ∀ a data x s', a < 2 ^ 64 → accessStep s (.write a data) = .ok (x, s') →
      ∀ b n, b < 2 ^ 64 → 0 < n → (∀ x, a ≤ x → x < a + data.length → ¬ (b ≤ x ∧ x < b + n)) →
        ∀ v t v' t', accessStep s (.read b n) = .ok (v, t) →
          accessStep s' (.read b n) = .ok (v', t') → v' = v

/-- Construction succeeds and the memory it builds is isolated. -/
def Isolated (ms : List AbstractMemory) (sharedBackstore : String) : Prop :=
  ∃ pm, new ms sharedBackstore = .ok pm ∧ pm.Backed ms ∧ pm.MemoriesIsolated ms ∧
    pm.AccessIsolated

/-- Whether `k` may be listed after `m`: the test for overlap takes a member of one byte that holds
the start of its group to overlap every other member. -/
def MayPrecede (m k : AbstractMemory) : Prop :=
  m.inAddrMap = true → k.inAddrMap = true → k.range.interleaved = true →
    k.range.mergesWith m.range = true → k.range.size = 1 →
      k.range.contains k.range.start = false

/-- The lists the constructor accepts: memories off the address map are not interleaved, a group is
null as a whole or not at all, and its members come in an order the test for overlap allows. -/
structure Buildable (ms : List AbstractMemory) : Prop where
  unmapped : ∀ m ∈ ms, m.inAddrMap = false → m.range.interleaved = false
  null : ∀ m ∈ ms, m.inAddrMap = true → m.range.interleaved = true → ∀ k ∈ m.group ms,
    k.null = m.null
  order : ms.Pairwise MayPrecede

/-- The lists it handles: a shared object also backs one store of the address map only. -/
structure Handled (ms : List AbstractMemory) (sharedBackstore : String) : Prop
    extends Buildable ms where
  shared : sharedBackstore ≠ "" → ∀ m ∈ ms, ∀ k ∈ ms, m.inAddrMap = true → k.inAddrMap = true →
    m.null = false → k.null = false → m.range.mergesWith k.range = true

end PhysicalMemory

end Gem5Nvm
