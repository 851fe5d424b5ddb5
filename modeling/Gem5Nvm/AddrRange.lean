import Gem5Nvm.Base

/-!
# Address ranges

`AddrRange` of `base/addr_range.hh`: the addresses from `start` up to `end_`, or, when `masks` is
not empty, those of them whose selector bits are `intlvMatch`.
-/

namespace Gem5Nvm

structure AddrRange where
  start : ℕ
  end_ : ℕ
  masks : List ℕ
  intlvMatch : ℕ
  deriving DecidableEq, Repr

namespace AddrRange

/-- `AddrRange(start, end)`. -/
def contiguous (start end_ : ℕ) : AddrRange := ⟨start, end_, [], 0⟩

def rangeSize (start size : ℕ) : AddrRange := contiguous start (u64 (start + size))

def interleaved (r : AddrRange) : Bool := decide (0 < r.masks.length)

def size (r : AddrRange) : ℕ := usub r.end_ r.start >>> r.masks.length

def valid (r : AddrRange) : Bool := decide (r.start ≤ r.end_)

/-- The lowest bit of the masks, which are collected in an `int`. -/
def granularity (r : AddrRange) : ℕ :=
  if r.interleaved then
    let combinedMask := r.masks.foldl (· ||| ·) 0 % 2 ^ 32
    -- back in a `uint64_t`, the `int` is sign extended
    let extended := if combinedMask < 2 ^ 31 then combinedMask else combinedMask + (2 ^ 64 - 2 ^ 32)
    -- a shift by 64 takes its count modulo 64, as x86 does
    2 ^ (ctz64 extended % 64)
  else r.size

def mergesWith (r s : AddrRange) : Bool :=
  decide (s.start = r.start ∧ s.end_ = r.end_ ∧ s.masks = r.masks)

/-- The selector bits of an address: bit `i` is the parity of the bits of mask `i`. -/
def sel (r : AddrRange) (a : ℕ) : ℕ :=
  r.masks.zipIdx.foldl (fun s m => s ||| (popCount (a &&& m.1) % 2) <<< m.2) 0

def contains (r : AddrRange) (a : ℕ) : Bool :=
  decide (r.start ≤ a ∧ a < r.end_ ∧ r.sel a = r.intlvMatch)

def intersects (r s : AddrRange) : Sim Bool :=
  if r.start ≥ s.end_ ∨ r.end_ ≤ s.start then .ok false
  else if ¬ r.interleaved ∧ ¬ s.interleaved then .ok true
  else if s.size = 1 then .ok (r.contains s.start)
  else if r.mergesWith s then .ok (decide (r.intlvMatch = s.intlvMatch))
  else .error (.panic "Cannot test intersection of %s and %s\n")

def isSubset (r s : AddrRange) : Sim Bool :=
  if r.interleaved then .error (.panic "Cannot test subset of interleaved range %s\n")
  else if s.interleaved then
    .ok (s.contains r.start && s.contains (usub r.end_ 1) && decide (r.size ≤ s.granularity))
  else .ok (decide (r.start ≥ s.start ∧ r.end_ ≤ s.end_))

/-- The lowest bit of each mask, sorted. -/
def masksLsb (r : AddrRange) : List ℕ := (r.masks.map ctz64).insertionSort (· ≤ ·)

/-- A round of `removeIntlvBits`, for the `i`-th bit of the sorted ones. -/
def removeIntlvBit (a : ℕ) : ℕ × ℕ → Sim ℕ
  | (intlvBit, i) =>
    if intlvBit > 0 then insertBits (a >>> 1) (intlvBit - i - 1) 0 a
    else .ok (a >>> 1)

def removeIntlvBits (r : AddrRange) (a : ℕ) : Sim ℕ := r.masksLsb.zipIdx.foldlM removeIntlvBit a

/-- A round of the first loop of `addIntlvBits`. -/
def addIntlvBit (a : ℕ) : ℕ × ℕ → Sim ℕ
  | (intlvBit, i) =>
    if intlvBit > 0 then insertBits (u64 (a <<< 1)) (intlvBit + i - 1) 0 a
    else .ok (u64 (a <<< 1))

/-- `~(1 << lsb)` as an `Addr`; the shift is one of an `int`. -/
def notLsb (lsb : ℕ) : Sim ℕ :=
  if lsb ≥ 32 then .error (.undefined "1 << lsb")
  -- the complement of the sign bit is the largest `int`; the other complements are negative
  else if lsb = 31 then .ok (2 ^ 31 - 1)
  else .ok (unot (2 ^ lsb))

/-- A round of the second loop of `addIntlvBits`, for the mask `i`. -/
def setIntlvBit (r : AddrRange) (a : ℕ) : ℕ × ℕ → Sim ℕ
  | (m, i) => do
    let lsb := ctz64 m
    let intlvBit := bits r.intlvMatch i
    let masked := a &&& m &&& (← notLsb lsb)
    insertBits a lsb lsb (intlvBit ^^^ popCount masked)

def addIntlvBits (r : AddrRange) (a : ℕ) : Sim ℕ := do
  let a ← r.masksLsb.zipIdx.foldlM addIntlvBit a
  r.masks.zipIdx.foldlM r.setIntlvBit a

/-- `operator<`. -/
def lt (r s : AddrRange) : Bool :=
  if r.start ≠ s.start then decide (r.start < s.start) else decide (r.intlvMatch < s.intlvMatch)

/-- The check of `AddrRange(ranges)` that `rs` are the members `k`, `k + 1`, ... of the group of
`front`. -/
def checkMembers (front : AddrRange) : ℕ → List AddrRange → Sim Unit
  | _, [] => .ok ()
  | k, r :: rs =>
    if ¬ front.mergesWith r then
      .error (.fatal "Can only merge ranges with the same start, end and interleaving bits, %s %s\n")
    else if r.intlvMatch ≠ k then
      .error (.fatal "Expected interleave match %d but got %d when merging\n")
    else checkMembers front ((k + 1) % 2 ^ 8) rs

/-- `AddrRange(ranges)`, the range a collection of interleaved ranges makes up. -/
def merged : List AddrRange → Sim AddrRange
  | [] => .ok ⟨1, 0, [], 0⟩
  | [front] => .ok front
  | front :: rest =>
    if (front :: rest).length ≠ 2 ^ front.masks.length then
      .error (.fatal "Got %d ranges spanning %d interleaving bits\n")
    else do
      checkMembers front 0 (front :: rest)
      return contiguous front.start front.end_

end AddrRange

end Gem5Nvm
