import Gem5Nvm.Process

/-!
# What a clone is to be

The child of a `clone` without `CLONE_VM` maps the pages of its parent, to frames of its own with
the same bytes, in the same memory space and with the same attributes.
-/

namespace Gem5Nvm

open MappingFlags (uncacheable readOnly)

namespace System

def InWindow (sys : System) (paddr : ℕ) : Prop :=
  nvmStartAddr ≤ paddr ∧ paddr + sys.pageBytes ≤ nvmEndAddr

/-- A frame one of the allocators has moved past. -/
def HandedOut (sys : System) (paddr : ℕ) : Prop :=
  (paddr + sys.pageBytes ≤ sys.pagePtr * sys.pageBytes ∧
      (paddr + sys.pageBytes ≤ nvmStartAddr ∨ nvmEndAddr ≤ paddr)) ∨
    (sys.InWindow paddr ∧
      paddr + sys.pageBytes ≤ nvmStartAddr + sys.pageAddr sys.pageNVMPtr)

/-- The frames that requests for one page at each of these addresses get, in turn. -/
def framesFor : System → List ℕ → Sim (List ℕ)
  | _, [] => .ok []
  | sys, v :: vs => do
    let (paddr, sys) ← sys.allocPagesFor v 1
    return paddr :: (← sys.framesFor vs)

/-- A system between two requests: the window is made of whole pages, the volatile pointer is off
it and within the memory, which does not fill the address space, and to reach the m5ops range is
to run out of memory. -/
structure Ready (sys : System) : Prop where
  shift_le : sys.pageShift ≤ 28
  pagePtr_off : ¬ inNvm (sys.pagePtr * sys.pageBytes)
  pagePtr_le : sys.pagePtr * sys.pageBytes ≤ sys.physmem.totalSize
  size_lt : sys.physmem.totalSize + sys.pageBytes < 2 ^ 64
  m5op : ∀ a, sys.m5opRange.contains a = true →
    sys.physmem.totalSize < sys.pageAddr (0xffffffff >>> sys.pageShift)

end System

namespace World

/-- Process `new` has nothing mapped yet, and process `old` whole pages. -/
structure Cloneable (w : World) (old new : ℕ) : Prop where
  ready : w.system.Ready
  ne : old ≠ new
  parentSize : (w.tables old).pageSize = w.system.pageBytes
  childSize : (w.tables new).pageSize = w.system.pageBytes
  empty : ∀ v, (w.tables new).pTable v = none
  aligned : ∀ v e, (w.tables old).pTable v = some e → v % w.system.pageBytes = 0

/-- In `w'` process `new` is a copy of what process `old` was in `w`. -/
structure Copy (w : World) (old new : ℕ) (w' : World) : Prop where
  parent : w'.tables old = w.tables old
  pages : ∀ v, ((w'.tables new).pTable v).isSome ↔ ((w.tables old).pTable v).isSome
  bytes : ∀ v e e', (w.tables old).pTable v = some e → (w'.tables new).pTable v = some e' →
    frame w'.memory e'.paddr w.system.pageBytes = frame w.memory e.paddr w.system.pageBytes
  spaces : ∀ v e', (w'.tables new).pTable v = some e' →
    (w.system.InWindow e'.paddr ↔ inNvm v = true)
  attributes : ∀ v e e', (w.tables old).pTable v = some e → (w'.tables new).pTable v = some e' →
    e'.flags &&& uncacheable = e.flags &&& uncacheable ∧
      e'.flags &&& readOnly = e.flags &&& readOnly
  isolated : ∀ v e v' e', (w.tables old).pTable v = some e →
    (w'.tables new).pTable v' = some e' →
      Disjoint (Set.Ico e.paddr (e.paddr + w.system.pageBytes))
        (Set.Ico e'.paddr (e'.paddr + w.system.pageBytes))

/-- No page has an attribute that the flags of the new entry drop. -/
def PlainFlags (t : EmulationPageTable) : Prop :=
  ∀ v e, t.pTable v = some e →
    e.flags &&& uncacheable = 0 ∧ e.flags &&& readOnly = 0

/-- The pages of the window among the mappings. -/
def nvmPages (mappings : List (ℕ × ℕ)) : ℕ := mappings.countP fun m => inNvm m.1

/-- What is left of the window is enough for copies of its pages. -/
def NvmRoom (sys : System) (mappings : List (ℕ × ℕ)) : Prop :=
  nvmPages mappings = 0 ∨
    sys.pageAddr sys.pageNVMPtr + nvmPages mappings * sys.pageBytes ≤ nvmEndAddr - nvmStartAddr

/-- No frame of process `old` is among those that a clone is handed for the mappings. -/
def FramesApart (w : World) (old : ℕ) (mappings : List (ℕ × ℕ)) : Prop :=
  ∃ frames, w.system.framesFor (mappings.map Prod.fst) = .ok frames ∧
    ∀ f ∈ frames, ∀ v e, (w.tables old).pTable v = some e →
      Disjoint (Set.Ico e.paddr (e.paddr + w.system.pageBytes))
        (Set.Ico f (f + w.system.pageBytes))

end World

end Gem5Nvm
