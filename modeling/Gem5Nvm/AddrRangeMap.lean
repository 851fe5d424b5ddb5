import Gem5Nvm.AddrRange

/-!
# The interval map

`AddrRangeMap` of `base/addr_range_map.hh`: a map ordered by `AddrRange::operator<`, and a list of
the iterators looked up last.  An iterator is the identity of the node it points to, so one that
outlives its node is told from one to a later node with the same key.
-/

namespace Gem5Nvm

structure RangeNode (V : Type) where
  id : ℕ
  first : AddrRange
  second : V
  deriving DecidableEq, Repr

structure AddrRangeMap (V : Type) where
  maxCacheSize : ℕ
  tree : List (RangeNode V)
  cache : List ℕ
  nextId : ℕ

namespace AddrRangeMap

variable {V : Type}

/-- An empty map whose cache holds `maxCacheSize` iterators. -/
def empty (maxCacheSize : ℕ) : AddrRangeMap V := ⟨maxCacheSize, [], [], 0⟩

def deref (m : AddrRangeMap V) (it : ℕ) : Sim (RangeNode V) :=
  match m.tree.find? (fun n => n.id = it) with
  | some n => .ok n
  | none => .error (.undefined "dereference of an erased iterator")

def addNewEntryToCache (m : AddrRangeMap V) (it : ℕ) : AddrRangeMap V :=
  if m.maxCacheSize ≠ 0 then
    if m.cache.length ≥ m.maxCacheSize then
      if m.maxCacheSize > 1 then { m with cache := it :: m.cache.dropLast }
      else { m with cache := m.cache.dropLast ++ [it] }
    else { m with cache := it :: m.cache }
  else m

/-- The first cached node that meets the condition. -/
def findCached (m : AddrRangeMap V) (cond : AddrRange → Sim Bool) :
    List ℕ → Sim (Option (RangeNode V))
  | [] => .ok none
  | c :: cs => do
    let it ← m.deref c
    if ← cond it.first then return some it
    findCached m cond cs

/-- The walk back from the last node not after the range, as long as the nodes are members of
one interleaved group. -/
def findBack (cond : AddrRange → Sim Bool) : List (RangeNode V) → Sim (Option (RangeNode V))
  | [] => .ok none
  | [i] => do
    if ← cond i.first then return some i
    return none
  | i :: next :: rest => do
    if ← cond i.first then return some i
    if next.first.mergesWith i.first then findBack cond (next :: rest) else return none

/-- The nodes not after `r`, last first, and the node `upper_bound(r)` returns. -/
def upperBound (m : AddrRangeMap V) (r : AddrRange) :
    List (RangeNode V) × Option (RangeNode V) :=
  let (before, after) := m.tree.span fun n => !r.lt n.first
  (before.reverse, after.head?)

/-- A lookup answers with a node, or `end()`, and leaves its answer in the cache. -/
def find (m : AddrRangeMap V) (r : AddrRange) (cond : AddrRange → Sim Bool) :
    Sim (Option (RangeNode V) × AddrRangeMap V) := do
  if let some it ← m.findCached cond m.cache then
    return (some it, { m with cache := it.id :: m.cache.erase it.id })
  let (before, next) := m.upperBound r
  if let some next := next then
    if ← cond next.first then return (some next, m.addNewEntryToCache next.id)
  match ← findBack cond before with
  | some i => return (some i, m.addNewEntryToCache i.id)
  | none => return (none, m)

def intersects (m : AddrRangeMap V) (r : AddrRange) :
    Sim (Option (RangeNode V) × AddrRangeMap V) :=
  m.find r r.intersects

/-- `contains(r)`, for a range. -/
def containsRange (m : AddrRangeMap V) (r : AddrRange) :
    Sim (Option (RangeNode V) × AddrRangeMap V) :=
  m.find r r.isSubset

/-- `contains(a)`, for an address. -/
def contains (m : AddrRangeMap V) (a : ℕ) : Sim (Option (RangeNode V) × AddrRangeMap V) :=
  m.containsRange (.rangeSize a 1)

/-- `std::map::insert`, which keeps the node already there under an equivalent key. -/
def treeInsert (m : AddrRangeMap V) (r : AddrRange) (d : V) : RangeNode V × AddrRangeMap V :=
  match m.tree.find? (fun n => !r.lt n.first && !n.first.lt r) with
  | some n => (n, m)
  | none =>
    let n : RangeNode V := ⟨m.nextId, r, d⟩
    let (before, after) := m.tree.span fun k => k.first.lt r
    (n, { m with tree := before ++ n :: after, nextId := m.nextId + 1 })

/-- `insert(r, d)`, which returns `end()` when `r` meets a range of the map. -/
def insert (m : AddrRangeMap V) (r : AddrRange) (d : V) :
    Sim (Option (RangeNode V) × AddrRangeMap V) := do
  let (hit, m) ← m.intersects r
  if hit.isSome then return (none, m)
  let (n, m) := m.treeInsert r d
  return (some n, m)

/-- `cache.remove(it)`; `none` is `end()`. -/
def cacheRemove (m : AddrRangeMap V) (it : Option ℕ) : AddrRangeMap V :=
  { m with cache := m.cache.filter fun c => some c ≠ it }

def erase (m : AddrRangeMap V) (p : ℕ) : Sim (AddrRangeMap V) := do
  let n ← m.deref p
  let m := m.cacheRemove (some n.id)
  return { m with tree := m.tree.filter fun k => k.id ≠ n.id }

/-- The nodes before the iterator `p`, those from `p` up to `q`, and those from `q` on. -/
def cut (m : AddrRangeMap V) (p q : Option ℕ) :
    List (RangeNode V) × List (RangeNode V) × List (RangeNode V) :=
  let (before, rest) := m.tree.span fun n => some n.id ≠ p
  (before, rest.span fun n => some n.id ≠ q)

/-- `erase(p, q)`, whose loop removes `p` from the cache in every round. -/
def eraseRange (m : AddrRangeMap V) (p q : Option ℕ) : Sim (AddrRangeMap V) :=
  let (before, erased, after) := m.cut p q
  if (p ≠ none → erased ++ after ≠ []) ∧ (q ≠ none → after ≠ []) then
    let m := erased.foldl (fun m _ => m.cacheRemove p) m
    .ok { m with tree := before ++ after }
  else .error (.undefined "increment of end()")

def clear (m : AddrRangeMap V) : AddrRangeMap V := { m with cache := [], tree := [] }

inductive Op (V : Type)
  | insert (r : AddrRange) (d : V)
  | contains (a : ℕ)
  | containsRange (r : AddrRange)
  | intersects (r : AddrRange)
  | erase (p : ℕ)
  | eraseRange (p q : Option ℕ)
  | clear

/-- One call, with the iterator it returns; `none` is `end()`. -/
def step (m : AddrRangeMap V) : Op V → Sim (Option (RangeNode V) × AddrRangeMap V)
  | .insert r d => m.insert r d
  | .contains a => m.contains a
  | .containsRange r => m.containsRange r
  | .intersects r => m.intersects r
  | .erase p => do return (none, ← m.erase p)
  | .eraseRange p q => do return (none, ← m.eraseRange p q)
  | .clear => .ok (none, m.clear)

end AddrRangeMap

end Gem5Nvm
