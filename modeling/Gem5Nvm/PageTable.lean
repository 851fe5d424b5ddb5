import Gem5Nvm.Base

/-!
# Page tables

`EmulationPageTable` of `mem/page_table.cc`.  The hash map from virtual pages to entries is a
function; where the order in which it is enumerated shows, the enumeration is a list (`Enumerates`).
-/

namespace Gem5Nvm

structure Entry where
  paddr : ℕ
  flags : ℕ
  deriving DecidableEq, Repr

namespace MappingFlags

def clobber : ℕ := 1

def uncacheable : ℕ := 4

def readOnly : ℕ := 8

end MappingFlags

structure EmulationPageTable where
  pageSize : ℕ
  pTable : ℕ → Option Entry

namespace EmulationPageTable

def new (pageSize : ℕ) : EmulationPageTable := ⟨pageSize, fun _ => none⟩

def pageOffset (t : EmulationPageTable) (a : ℕ) : ℕ := a % t.pageSize

def pageAlign (t : EmulationPageTable) (a : ℕ) : ℕ := a - a % t.pageSize

def set (t : EmulationPageTable) (vaddr : ℕ) (e : Entry) : EmulationPageTable :=
  { t with pTable := Function.update t.pTable vaddr (some e) }

def erase (t : EmulationPageTable) (vaddr : ℕ) : EmulationPageTable :=
  { t with pTable := Function.update t.pTable vaddr none }

/-- The variables of the loops below. -/
structure Cursor where
  table : EmulationPageTable
  size : ℤ
  vaddr : ℕ
  other : ℕ

def Cursor.next (c : Cursor) (table : EmulationPageTable) : Cursor where
  table := table
  size := c.size - table.pageSize
  vaddr := u64 (c.vaddr + table.pageSize)
  other := u64 (c.other + table.pageSize)

def mapPage (flags : ℕ) (c : Cursor) : Sim Cursor :=
  if (c.table.pTable c.vaddr).isSome ∧ flags &&& MappingFlags.clobber = 0 then
    .error (.panic "EmulationPageTable::allocate: addr %#x already mapped")
  else .ok (c.next (c.table.set c.vaddr ⟨c.other, flags⟩))

def map (t : EmulationPageTable) (vaddr paddr : ℕ) (size : ℤ) (flags : ℕ) :
    Sim EmulationPageTable := do
  assert (t.pageOffset vaddr = 0) "pageOffset(vaddr) == 0"
  let c ← whileSim (fun c : Cursor => 0 < c.size) (mapPage flags) ⟨t, size, vaddr, paddr⟩
  return c.table

def remapPage (c : Cursor) : Sim Cursor :=
  match c.table.pTable c.vaddr, c.table.pTable c.other with
  | some e, none => .ok (c.next ((c.table.set c.other e).erase c.vaddr))
  | _, _ => .error (.assertion "old_it != pTable.end() && new_it == pTable.end()")

def remap (t : EmulationPageTable) (vaddr : ℕ) (size : ℤ) (newVaddr : ℕ) :
    Sim EmulationPageTable := do
  assert (t.pageOffset vaddr = 0) "pageOffset(vaddr) == 0"
  assert (t.pageOffset newVaddr = 0) "pageOffset(new_vaddr) == 0"
  let c ← whileSim (fun c : Cursor => 0 < c.size) remapPage ⟨t, size, vaddr, newVaddr⟩
  return c.table

def unmapPage (c : Cursor) : Sim Cursor := do
  assert (c.table.pTable c.vaddr).isSome "it != pTable.end()"
  return c.next (c.table.erase c.vaddr)

def unmap (t : EmulationPageTable) (vaddr : ℕ) (size : ℤ) : Sim EmulationPageTable := do
  assert (t.pageOffset vaddr = 0) "pageOffset(vaddr) == 0"
  let c ← whileSim (fun c : Cursor => 0 < c.size) unmapPage ⟨t, size, vaddr, 0⟩
  return c.table

/-- Whether no page of the region is mapped.  The loop ends at the first page that is. -/
def isUnmapped (t : EmulationPageTable) (vaddr : ℕ) (size : ℤ) : Sim Bool := do
  assert (t.pageOffset vaddr = 0) "pageOffset(vaddr) == 0"
  let offset ← whileSim
    (fun offset : ℕ => decide ((offset : ℤ) < size) && (t.pTable (u64 (vaddr + offset))).isNone)
    (fun offset => .ok (offset + t.pageSize)) 0
  return !decide ((offset : ℤ) < size)

def lookup (t : EmulationPageTable) (vaddr : ℕ) : Option Entry := t.pTable (t.pageAlign vaddr)

def translate (t : EmulationPageTable) (vaddr : ℕ) : Option ℕ :=
  (t.lookup vaddr).map fun e => u64 (t.pageOffset vaddr + e.paddr)

/-- One of the orders in which the hash map may be enumerated. -/
structure Enumerates (t : EmulationPageTable) (l : List (ℕ × Entry)) : Prop where
  nodup : (l.map Prod.fst).Nodup
  mem : ∀ v e, (v, e) ∈ l ↔ t.pTable v = some e

/-- `getMappings`, over one enumeration. -/
def getMappings (l : List (ℕ × Entry)) : List (ℕ × ℕ) := l.map fun m => (m.1, m.2.paddr)

end EmulationPageTable

end Gem5Nvm
