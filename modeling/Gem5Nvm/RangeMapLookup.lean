import Gem5Nvm.Isolation

/-!
# Lookups of addresses in the interval map

What `contains(a)` should answer, and the states in which it does.
-/

namespace Gem5Nvm

/-- A range as its constructors make it, with an address between its bounds. -/
structure AddrRange.Proper (r : AddrRange) : Prop extends r.WellFormed where
  start_lt : r.start < r.end_

namespace AddrRangeMap

variable {V : Type}

/-- Every cached iterator points to a node. -/
def CacheValid (m : AddrRangeMap V) : Prop := ∀ c ∈ m.cache, ∃ n ∈ m.tree, n.id = c

/-- `contains(a)` returns an entry that contains `a`, or `end()` if there is none. -/
def Finds (m : AddrRangeMap V) (a : ℕ) : Prop :=
  ∃ x m', m.contains a = .ok (x, m') ∧
    (∀ n, x = some n → n ∈ m.tree ∧ n.first.contains a = true) ∧
    (x = none → ∀ n ∈ m.tree, n.first.contains a = false)

/-- The test of an insertion for overlap asks a range of one byte only for its start, so this has
to settle whether the two overlap. -/
def OneByte (r s : AddrRange) : Prop :=
  s.size = 1 → (r.interleaved = true ∨ s.interleaved = true) → s.start < r.end_ →
    r.start < s.end_ → r.mergesWith s = true ∨ r.contains s.start = true

/-- Insertions are of proper ranges, and only the first of the entries that `erase(p, q)` erases is
cached. -/
def Careful (m : AddrRangeMap V) : Op V → Prop
  | .insert r _ => r.Proper ∧ ∀ n ∈ m.tree, OneByte r n.first
  | .eraseRange p q => ∀ n ∈ (m.cut p q).2.1, some n.id ≠ p → n.id ∉ m.cache
  | _ => True

/-- At the start of an interleaved group, the member that holds it is cached or is one of the two
that a lookup looks at. At the last address, the lookup meets no contiguous range: it asks for the
range from there to 0, which is a subset of each. -/
def LookupOk (m : AddrRangeMap V) (a : ℕ) : Prop :=
  if a = 2 ^ 64 - 1 then
    (∀ n ∈ m.tree, n.id ∈ m.cache → n.first.interleaved = true) ∧
      ∀ n ∈ m.tree.getLast?, n.first.interleaved = true
  else
    ∀ n ∈ m.tree, n.first.contains a = true → n.first.start = a → n.id ∉ m.cache →
      ∀ k ∈ m.tree, k.first.start = a →
        k.first.intlvMatch = 0 ∨ n.first.intlvMatch ≤ k.first.intlvMatch

end AddrRangeMap

end Gem5Nvm
