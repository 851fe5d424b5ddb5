import Gem5Nvm.MemInterface

/-!
# The skewed associative indexing policy

`SkewedAssociative` of `mem/cache/tags/indexing_policies/skewed_associative.cc`, with what it takes
from `BaseIndexingPolicy`.  A cache has more than two sets, so `msbShift` is not negative.
-/

namespace Gem5Nvm

structure SkewedAssociative where
  assoc : ℕ
  numSets : ℕ
  setShift : ℕ
  setMask : ℕ
  tagShift : ℕ
  msbShift : ℕ
  deriving DecidableEq, Repr

namespace SkewedAssociative

/-- The constructors of `BaseIndexingPolicy` and `SkewedAssociative`; the size of all entries of a
set is a 32-bit number, and so is the number of sets. -/
def new (size entrySize assoc : ℕ) : Sim SkewedAssociative := do
  let numSets := u32 (← divide size (u32 (entrySize * assoc)))
  let setShift ← floorLog2 entrySize
  let tagShift := setShift + (← floorLog2 numSets)
  fatalIf (!isPowerOf2 numSets) "# of sets must be non-zero and a power of 2"
  fatalIf (decide (assoc = 0)) "associativity must be greater than zero"
  let msbShift := (← floorLog2 numSets) - 1
  panicIf (decide (setShift + 2 * (← floorLog2 numSets) > 64))
    "Unsuported number of bits for the skewing functions."
  fatalIf (decide (numSets ≤ 2)) "The number of sets must be greater than 2"
  return ⟨assoc, numSets, setShift, numSets - 1, tagShift, msbShift⟩

def numSkewingFunctions : ℕ := 8

variable (p : SkewedAssociative)

def hash (addr : ℕ) : Sim ℕ :=
  let lsb := bits addr 0
  let msb := bits addr p.msbShift
  insertBits (addr >>> 1) p.msbShift p.msbShift (msb ^^^ lsb)

def dehash (addr : ℕ) : Sim ℕ :=
  let msb := bits addr (p.msbShift - 1)
  let xorBit := bits addr p.msbShift
  let addrNoMsb := mbits addr (p.msbShift - 1) 0
  insertBits (u64 (addrNoMsb <<< 1)) 0 0 (msb ^^^ xorBit)

/-- `for (i = 0; i < n; i++) addr = f(addr)`. -/
def repeated (f : ℕ → Sim ℕ) : ℕ → ℕ → Sim ℕ
  | 0, addr => .ok addr
  | n + 1, addr => do repeated f n (← f addr)

/-- The set bits and the tag bits that take part. -/
def fields (addr : ℕ) : Sim (ℕ × ℕ) := do
  let addr1 ← bitsBetween addr p.msbShift 0
  let addr2 ← bitsBetween addr (2 * (p.msbShift + 1) - 1) (p.msbShift + 1)
  return (addr1, addr2)

def skewing (addr1 addr2 way : ℕ) : Sim ℕ :=
  match way % numSkewingFunctions with
  | 0 => do pure ((← p.hash addr1) ^^^ (← p.hash addr2) ^^^ addr2)
  | 1 => do pure ((← p.hash addr1) ^^^ (← p.hash addr2) ^^^ addr1)
  | 2 => do pure ((← p.hash addr1) ^^^ (← p.dehash addr2) ^^^ addr2)
  | 3 => do pure ((← p.hash addr1) ^^^ (← p.dehash addr2) ^^^ addr1)
  | 4 => do pure ((← p.dehash addr1) ^^^ (← p.hash addr2) ^^^ addr2)
  | 5 => do pure ((← p.dehash addr1) ^^^ (← p.hash addr2) ^^^ addr1)
  | 6 => do pure ((← p.dehash addr1) ^^^ (← p.dehash addr2) ^^^ addr2)
  | 7 => do pure ((← p.dehash addr1) ^^^ (← p.dehash addr2) ^^^ addr1)
  | _ => .error (.panic "A skewing function has not been implemented for this way.")

def skew (addr way : ℕ) : Sim ℕ := do
  let (addr1, addr2) ← p.fields addr
  let addr1 ← p.skewing addr1 addr2 way
  repeated p.hash (way / numSkewingFunctions) addr1

/-- The inverse of the skewing function of a way. -/
def deskewing (addr1 addr2 way : ℕ) : Sim ℕ :=
  match way % 8 with
  | 0 => do p.dehash (addr1 ^^^ (← p.hash addr2) ^^^ addr2)
  | 1 => do repeated p.hash p.msbShift (addr1 ^^^ (← p.hash addr2))
  | 2 => do p.dehash (addr1 ^^^ (← p.dehash addr2) ^^^ addr2)
  | 3 => do repeated p.hash p.msbShift (addr1 ^^^ (← p.dehash addr2))
  | 4 => do p.hash (addr1 ^^^ (← p.hash addr2) ^^^ addr2)
  | 5 => do repeated p.hash (p.msbShift + 1) (addr1 ^^^ (← p.hash addr2))
  | 6 => do p.hash (addr1 ^^^ (← p.dehash addr2) ^^^ addr2)
  | 7 => do repeated p.hash (p.msbShift + 1) (addr1 ^^^ (← p.dehash addr2))
  | _ => .error (.panic "A skewing function has not been implemented for this way.")

def deskew (addr way : ℕ) : Sim ℕ := do
  let (addr1, addr2) ← p.fields addr
  let addr1 ←
    if way ≥ numSkewingFunctions then repeated p.dehash (way / numSkewingFunctions) addr1
    else .ok addr1
  p.deskewing addr1 addr2 way

def extractTag (addr : ℕ) : ℕ := addr >>> p.tagShift

def extractSet (addr way : ℕ) : Sim ℕ := do
  return u32 ((← p.skew (addr >>> p.setShift) way) &&& p.setMask)

/-- `regenerateAddr`, for the entry at a set and way. -/
def regenerateAddr (tag set way : ℕ) : Sim ℕ := do
  let addrSet := u64 (tag <<< (p.msbShift + 1)) ||| set
  return u64 (tag <<< p.tagShift) ||| u64 (((← p.deskew addrSet way) &&& p.setMask) <<< p.setShift)

end SkewedAssociative

end Gem5Nvm
