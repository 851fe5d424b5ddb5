import Gem5Nvm.Lib.Run
import Gem5Nvm.Base

/-!
# Ruby's cache memory

`CacheMemory` of `mem/ruby/structures/CacheMemory.cc`: the slots of the sets and, for each line
address, the way it is in.  Entries are known by the slot they are in; each allocation brings a new
one.  The replacement policy and the access times are left out.
-/

namespace Gem5Nvm

open Function (update)

inductive AccessPermission
  | readOnly | readWrite | maybeStale | backingStore | invalid | notPresent | busy
  deriving DecidableEq, Repr

/-- `AbstractCacheEntry`. -/
structure CacheEntry where
  address : ℕ
  permission : AccessPermission
  locked : ℤ
  set : ℕ
  way : ℕ
  deriving DecidableEq, Repr

namespace CacheEntry

def changePermission (e : CacheEntry) (newPerm : AccessPermission) : CacheEntry :=
  { e with
    permission := newPerm
    locked := if newPerm = .invalid ∨ newPerm = .notPresent then -1 else e.locked }

end CacheEntry

structure CacheMemory where
  assoc : ℕ
  numSetBits : ℕ
  startIndexBit : ℕ
  blockSizeBits : ℕ
  cache : ℕ → ℕ → Option CacheEntry
  tagIndex : ℕ → Option ℕ

namespace CacheMemory

/-- `init` of a cache of some size. -/
def init (size assoc blockSize startIndexBit blockSizeBits : ℕ) : Sim CacheMemory := do
  let numSets := size / assoc / blockSize
  assert (decide (numSets > 1)) "m_cache_num_sets > 1"
  let numSetBits ← floorLog2 numSets
  assert (decide (numSetBits > 0)) "m_cache_num_set_bits > 0"
  return {
    assoc, numSetBits, startIndexBit, blockSizeBits
    cache := fun _ _ => none
    tagIndex := fun _ => none }

variable (c : CacheMemory)

def makeLineAddress (addr : ℕ) : ℕ := mbits addr 63 c.blockSizeBits

def addressToCacheSet (address : ℕ) : Sim ℕ := do
  assert (address == c.makeLineAddress address) "address == makeLineAddress(address)"
  bitsBetween address (c.startIndexBit + c.numSetBits - 1) c.startIndexBit

/-- The way of a line, if it has one and is present there. -/
def findTagInSet (cacheSet tag : ℕ) : Sim (Option ℕ) := do
  assert (tag == c.makeLineAddress tag) "tag == makeLineAddress(tag)"
  match c.tagIndex tag with
  | none => return none
  | some way =>
    match c.cache cacheSet way with
    | none => .error (.undefined "m_cache[cacheSet][it->second]->m_Permission")
    | some entry => return if entry.permission ≠ .notPresent then some way else none

def lookup (address : ℕ) : Sim (Option CacheEntry) := do
  assert (address == c.makeLineAddress address) "address == makeLineAddress(address)"
  let cacheSet ← c.addressToCacheSet address
  match ← c.findTagInSet cacheSet address with
  | none => return none
  | some loc => return c.cache cacheSet loc

def isTagPresent (address : ℕ) : Sim Bool := do return (← c.lookup address).isSome

/-- A slot `allocate` may take. -/
def isOpen (cacheSet way : ℕ) : Bool :=
  match c.cache cacheSet way with
  | none => true
  | some entry => decide (entry.permission = .notPresent)

def cacheAvail (address : ℕ) : Sim Bool := do
  assert (address == c.makeLineAddress address) "address == makeLineAddress(address)"
  let cacheSet ← c.addressToCacheSet address
  return (List.range c.assoc).any fun i =>
    match c.cache cacheSet i with
    | none => true
    | some entry => decide (entry.address = address ∨ entry.permission = .notPresent)

/-- The first slot of a set that is empty or not present. -/
def firstOpen (cacheSet : ℕ) : Option ℕ := (List.range c.assoc).find? (c.isOpen cacheSet)

def place (cacheSet way : ℕ) (entry : CacheEntry) : CacheMemory :=
  { c with
    cache := update c.cache cacheSet (update (c.cache cacheSet) way (some entry))
    tagIndex := update c.tagIndex entry.address (some way) }

def allocate (address : ℕ) : Sim CacheMemory := do
  assert (address == c.makeLineAddress address) "address == makeLineAddress(address)"
  assert (!(← c.isTagPresent address)) "!isTagPresent(address)"
  assert (← c.cacheAvail address) "cacheAvail(address)"
  let cacheSet ← c.addressToCacheSet address
  match c.firstOpen cacheSet with
  | some i => return c.place cacheSet i ⟨address, .invalid, -1, cacheSet, i⟩
  | none => .error (.panic "Allocate didn't find an available entry")

def deallocate (address : ℕ) : Sim CacheMemory := do
  match ← c.lookup address with
  | none => .error (.assertion "entry != nullptr")
  | some entry => return { c with
      cache := update c.cache entry.set
        (update (c.cache entry.set) entry.way none)
      tagIndex := update c.tagIndex address none }

/-- A controller changes the permission of the entry in a slot. -/
def changePermission (cacheSet way : ℕ) (newPerm : AccessPermission) : Sim CacheMemory :=
  match c.cache cacheSet way with
  | none => .error (.undefined "entry->m_Permission")
  | some entry => .ok { c with
      cache := update c.cache cacheSet
        (update (c.cache cacheSet) way (some (entry.changePermission newPerm))) }

inductive Call
  | allocate (address : ℕ)
  | deallocate (address : ℕ)
  | changePermission (cacheSet way : ℕ) (newPerm : AccessPermission)
  deriving DecidableEq, Repr

def step : Call → Sim (Unit × CacheMemory)
  | .allocate address => return ((), ← c.allocate address)
  | .deallocate address => return ((), ← c.deallocate address)
  | .changePermission cacheSet way newPerm =>
    return ((), ← c.changePermission cacheSet way newPerm)

def setOf (address : ℕ) : ℕ := address >>> c.startIndexBit &&& mask c.numSetBits

/-- The index and the slots agree, so that a line is found where it is and nowhere else, and an
allocation that passes its asserts finds a slot. -/
structure Sound (c : CacheMemory) : Prop where
  lookup : ∀ address, address = c.makeLineAddress address →
    ∃ entry, c.lookup address = .ok entry ∧ ∀ e ∈ entry, e.address = address
  unique : ∀ s w s' w' e e', c.cache s w = some e → c.cache s' w' = some e' →
    e.address = e'.address → s = s' ∧ w = w'
  indexed : ∀ s w e, c.cache s w = some e →
    s = c.setOf e.address ∧ c.tagIndex e.address = some w
  stored : ∀ address w, c.tagIndex address = some w →
    ∃ e, c.cache (c.setOf address) w = some e ∧ e.address = address
  no_panic : ∀ address msg, c.allocate address ≠ .error (.panic msg)

/-- An allocation takes an empty slot for a line that has no entry, or the slot of the entry of the
line itself, which is not present. -/
def ReusesOwn : Call → Prop
  | .allocate address => ∀ i ∈ c.firstOpen (c.setOf address),
      (c.cache (c.setOf address) i = none ∧ c.tagIndex address = none) ∨
        c.tagIndex address = some i
  | _ => True

end CacheMemory

end Gem5Nvm
