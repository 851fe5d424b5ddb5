import Gem5Nvm.AddrRange

/-!
# Addresses of a range and addresses within its channel

`removeIntlvBits` takes the addresses that an interleaved range selects to the addresses of its
channel, and `addIntlvBits` is meant to take them back.  `getOffset` counts them from the start of
the range.
-/

namespace Gem5Nvm.AddrRange

/-- An interleaved range whose masks are 64-bit, non-zero and pairwise disjoint. -/
structure MasksDisjoint (r : AddrRange) : Prop where
  interleaved : r.masks ≠ []
  length_le : r.masks.length ≤ 8
  mask_lt : ∀ m ∈ r.masks, m < 2 ^ 64
  mask_ne : ∀ m ∈ r.masks, m ≠ 0
  disjoint : r.masks.Pairwise fun m n => m &&& n = 0
  match_lt : r.intlvMatch < 2 ^ r.masks.length

structure NonEmpty (r : AddrRange) : Prop where
  end_lt : r.end_ < 2 ^ 64
  mask_lt : ∀ m ∈ r.masks, m < 2 ^ 64
  inhabited : ∃ a, r.contains a = true

def Shares (r s : AddrRange) : Prop := ∃ a, r.contains a = true ∧ s.contains a = true

/-- The size of the regions that the masks tell apart: the lowest of their bits. -/
def stripe (r : AddrRange) : ℕ := 2 ^ ctz64 (r.masks.foldl (· ||| ·) 0)

/-- `getOffset`: the place of an address among those of its range. -/
def getOffset (r : AddrRange) (a : ℕ) : Sim ℕ :=
  if r.start ≤ a ∧ a < r.end_ then
    if r.interleaved then do
      return usub (← r.removeIntlvBits a) (← r.removeIntlvBits r.start)
    else .ok (a - r.start)
  else .ok (2 ^ 64 - 1)

/-- The range of the group of `r` whose selector bits are `k`. -/
def member (r : AddrRange) (k : ℕ) : AddrRange := { r with intlvMatch := k }

/-- Start and end are multiples of twice each bit of the masks. -/
structure Aligned (r : AddrRange) : Prop where
  le : r.start ≤ r.end_
  end_lt : r.end_ < 2 ^ 64
  start_dvd : ∀ m ∈ r.masks, ∀ j, m.testBit j = true → 2 ^ (j + 1) ∣ r.start
  end_dvd : ∀ m ∈ r.masks, ∀ j, m.testBit j = true → 2 ^ (j + 1) ∣ r.end_

/-- The ranges of the group share out the addresses from start to end, and each numbers its own
without a gap. -/
structure Striped (r : AddrRange) : Prop where
  partition : ∀ a, r.start ≤ a ∧ a < r.end_ →
    ∃! k, k < 2 ^ r.masks.length ∧ (r.member k).contains a = true
  offset : ∀ k < 2 ^ r.masks.length, ∀ a, (r.member k).contains a = true →
    ∃ o < (r.member k).size, (r.member k).getOffset a = .ok o
  address : ∀ k < 2 ^ r.masks.length, ∀ o < (r.member k).size,
    ∃! a, (r.member k).contains a = true ∧ (r.member k).getOffset a = .ok o

/-- Removing and adding the interleaving bits undo each other. -/
structure RoundTrips (r : AddrRange) : Prop where
  addr : ∀ a < 2 ^ 64, r.sel a = r.intlvMatch → r.removeIntlvBits a >>= r.addIntlvBits = .ok a
  channel : ∀ b < 2 ^ (64 - r.masks.length), ∃ a, r.addIntlvBits b = .ok a ∧
    r.sel a = r.intlvMatch ∧ r.removeIntlvBits a = .ok b

/-- At most two masks; the lowest bit of a mask is below bit 31, or is bit 31 and its only bit;
and the lowest bits are not bits 0 and 1. -/
structure Low (r : AddrRange) : Prop where
  length_le : r.masks.length ≤ 2
  lsb : ∀ m ∈ r.masks, ctz64 m < 31 ∨ m = 2 ^ 31
  apart : ¬ (0 ∈ r.masks.map ctz64 ∧ 1 ∈ r.masks.map ctz64)

end Gem5Nvm.AddrRange
