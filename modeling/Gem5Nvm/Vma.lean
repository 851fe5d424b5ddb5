import Gem5Nvm.Process

/-!
# Virtual memory areas

`VMA` of `sim/vma.hh` and `sim/vma.cc`: a range of pages of an address space, with the part of a
host file it shows.  Every operation ends in `sanityCheck`.
-/

namespace Gem5Nvm

/-- A file of the host, behind an open descriptor. -/
structure HostFile where
  name : String
  contents : List UInt8
  deriving DecidableEq, Repr

/-- `VMA::MappedFileBuffer`: the bytes of the file that are mapped.  An offset that is negative as
an `off_t` fails in the host's `mmap`. -/
def mappedFileBuffer (file : HostFile) (length offset : ℕ) : Sim (List UInt8) :=
  if length = 0 then .error (.panic "Tried to mmap file of length zero")
  else if 2 ^ 63 ≤ offset then .error (.panic "Failed to map file into host address space: %s")
  else if file.contents.length < offset then
    .error (.panic "Tried to mmap with offset greater than file size")
  else if ((file.contents.drop offset).take length).isEmpty then
    .error (.panic "Tried to mmap 0 bytes")
  else .ok ((file.contents.drop offset).take length)

/-- A `VMA`; `hostBuf` is what `_hostBuf` and `_hostBufLen` delimit, when there is a host buffer. -/
structure Vma where
  start : ℕ
  end_ : ℕ
  name : String
  hostBuf : Option (List UInt8)
  deriving DecidableEq, Repr

namespace Vma

def sanityCheck (pageBytes : ℕ) (v : Vma) : Sim Vma := do
  assert (v.start ≠ v.end_) "_addrRange.start() != _addrRange.end()"
  assert (v.start < v.end_) "_addrRange.start() < _addrRange.end()"
  assert (v.start % pageBytes = 0) "(_addrRange.start() % _pageBytes) == 0"
  assert (v.end_ % pageBytes = 0) "(_addrRange.end() % _pageBytes) == 0"
  return v

/-- The constructor; without a file the area has no host buffer. -/
def new (pageBytes start end_ : ℕ) (name : String) (file : Option HostFile) (offset : ℕ) :
    Sim Vma := do
  let hostBuf ← (match file with
    | none => .ok none
    | some f => (mappedFileBuffer f (usub end_ start) offset).map some)
  sanityCheck pageBytes ⟨start, end_, name, hostBuf⟩

def remap (pageBytes : ℕ) (v : Vma) (newStart : ℕ) : Sim Vma :=
  sanityCheck pageBytes
    { v with start := newStart, end_ := u64 (newStart + usub v.end_ v.start) }

def hasHostBuf (v : Vma) : Bool := v.hostBuf.isSome

def isStrictSuperset (v : Vma) (start end_ : ℕ) : Bool := decide (start > v.start ∧ end_ < v.end_)

/-- `AddrRange::intersects`, on ranges that are not interleaved. -/
def intersects (v : Vma) (start end_ : ℕ) : Bool := !decide (v.start ≥ end_ ∨ v.end_ ≤ start)

/-- `AddrRange::isSubset`, on ranges that are not interleaved. -/
def isSubset (v : Vma) (start end_ : ℕ) : Bool := decide (v.start ≥ start ∧ v.end_ ≤ end_)

/-- `AddrRange::contains`, on a range that is not interleaved. -/
def contains (v : Vma) (a : ℕ) : Bool := decide (v.start ≤ a ∧ a < v.end_)

def sliceRegionRight (pageBytes : ℕ) (v : Vma) (sliceAddr : ℕ) : Sim Vma :=
  sanityCheck pageBytes
    { v with end_ := sliceAddr, hostBuf := v.hostBuf.map (·.take (usub sliceAddr v.start)) }

def sliceRegionLeft (pageBytes : ℕ) (v : Vma) (sliceAddr : ℕ) : Sim Vma :=
  let overlapLen := usub sliceAddr v.start
  sanityCheck pageBytes
    { v with
      start := sliceAddr
      -- a buffer that ends before the slice is dropped
      hostBuf := v.hostBuf.bind fun buf =>
        if overlapLen ≥ buf.length then none else some (buf.drop overlapLen) }

/-- `fillMemPages`: the page at `start` gets its bytes of the host buffer. -/
def fillMemPages (pageBytes : ℕ) (v : Vma) (t : EmulationPageTable) (mem : PhysBytes)
    (start : ℕ) : Sim PhysBytes :=
  let buf := v.hostBuf.getD []
  let offset := usub start v.start
  if offset < buf.length then
    writeBlob t mem start ((buf.drop offset).take (min (buf.length - offset) pageBytes))
  else .ok mem

end Vma

end Gem5Nvm
