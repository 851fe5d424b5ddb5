import Gem5Nvm.AddressSpace

/-!
# The file behind an address space

What an area shows of its host file, address by address (`Vma.hostByte`), and which byte of a file
is behind an address of a list of areas (`backing`).  `Vma.Piece` says that an area is cut out of
another one, wherever it lies now.  `Process.Movable` says between which regions `remapRegion` may
move what it finds.
-/

namespace Gem5Nvm

namespace Vma

/-- The part of the host file that an area shows, from its first address on. -/
def window (v : Vma) : List UInt8 := v.hostBuf.getD []

/-- The byte of the host file behind an address of the area, which `fillMemPages` puts there. -/
def hostByte (v : Vma) (a : ℕ) : Option UInt8 := v.window[a - v.start]?

/-- `w` has been cut out of `v`, where it began at the address `a`: it shows the part of `v`'s file
that was behind `v` from there on. -/
structure Piece (v : Vma) (a : ℕ) (w : Vma) : Prop where
  start_le : v.start ≤ a
  end_le : a + (w.end_ - w.start) ≤ v.end_
  name_eq : w.name = v.name
  window_eq : ∃ n, w.end_ - w.start ≤ n ∧ w.window = (v.window.drop (a - v.start)).take n

end Vma

def region (start length : ℕ) : Set ℕ := Set.Ico start (start + length)

/-- The byte of a host file behind an address: that of the first area `fixupFault` finds. -/
def backing (l : List Vma) (a : ℕ) : Option UInt8 :=
  (l.find? (·.contains a)).bind (·.hostByte a)

namespace Process

/-- An address space in order, of pages of one size. -/
structure Paged (p : Process) : Prop where
  pageSize : p.memState.pageBytes = p.pTable.pageSize
  pos : 0 < p.memState.pageBytes
  vmas : VmasOk p.memState.pageBytes p.memState.vmaList

/-- A region of whole pages, and another one of the same length that nothing is in. -/
structure Movable (p : Process) (start newStart length : ℕ) : Prop where
  start_dvd : p.memState.pageBytes ∣ start
  newStart_dvd : p.memState.pageBytes ∣ newStart
  length_dvd : p.memState.pageBytes ∣ length
  apart : Disjoint (region newStart length) (region start length)
  vmas : Disjoint (region newStart length) (covered p.memState.vmaList)
  pages : ∀ a ∈ region newStart length, p.pTable.lookup a = none

end Process

end Gem5Nvm
