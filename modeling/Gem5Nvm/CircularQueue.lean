import Gem5Nvm.Base
import Gem5Nvm.Lib.Run

/-!
# Circular queues

`CircularQueue` of base/circular_queue.hh and `CircleBuf` of base/circlebuf.hh. The indices and the
round are `uint32_t`, the counts that callers give are `size_t`; both are the natural numbers they
denote, with the sums that wrap around in `u32` and `u64`.
-/

namespace Gem5Nvm

/-- A queue; `head` and `tail` are the indices of its first and last element in the store, `round`
counts how often the tail wrapped around. -/
structure CircularQueue (T : Type) where
  capacity : ℕ
  head : ℕ
  tail : ℕ
  empty : Bool
  round : ℕ
  store : ℕ → T

namespace CircularQueue

def i32 (x : ℤ) : ℤ := x.bmod (2 ^ 32)

def moduloAdd (op1 op2 size : ℕ) : ℕ := u32 (op1 + op2) % size

def sub (op1 op2 size : ℕ) : ℤ :=
  if op1 > op2 then i32 ↑((op1 - op2) % size) else i32 (-↑((op2 - op1) % size))

def moduloSub (op1 op2 size : ℕ) : ℕ :=
  let ret := sub op1 op2 size
  if ret ≥ 0 then ret.toNat else ((ret + size) % 2 ^ 32).toNat

structure Iterator where
  idx : ℕ
  round : ℕ
  deriving DecidableEq, Repr

/-- `CircularQueue(size)`. -/
def init {T : Type} [Inhabited T] (size : ℕ) : CircularQueue T :=
  { capacity := size, head := 1, tail := 0, empty := true, round := 0, store := fun _ => default }

variable {T : Type} (q : CircularQueue T)

def increase (v : ℕ) : ℕ := moduloAdd v 1 q.capacity

def decrease (v : ℕ) : ℕ := (if v ≠ 0 then v else q.capacity) - 1

/-- `operator[]` of the vector. -/
def get (idx : ℕ) : Sim T :=
  if idx < q.capacity then .ok (q.store idx) else .error (.undefined "vector::operator[]")

def set (idx : ℕ) (val : T) : Sim (CircularQueue T) :=
  if idx < q.capacity then .ok { q with store := Function.update q.store idx val }
  else .error (.undefined "vector::operator[]")

namespace Iterator

/-- `operator++`. -/
def next (it : Iterator) : Iterator :=
  let idx := q.increase it.idx
  { idx, round := if idx = 0 then u32 (it.round + 1) else it.round }

/-- `operator+=` and `operator+` of a count. -/
def add (it : Iterator) (t : ℕ) : Iterator :=
  { idx := moduloAdd it.idx (u32 t) q.capacity
    round := u32 (it.round + u64 (t + it.idx) / q.capacity) }

/-- `operator+=` and `operator+` of a `difference_type`, which the division by a `size_t` takes as
unsigned. -/
def addInt (it : Iterator) (t : ℤ) : Iterator :=
  { idx := moduloAdd it.idx (t % 2 ^ 32).toNat q.capacity
    round := u32 (it.round + ((t + it.idx) % 2 ^ 64).toNat / q.capacity) }

/-- `operator-=` and `operator-` of a `difference_type`. -/
def subInt (it : Iterator) (t : ℤ) : Iterator :=
  if t ≥ 0 then
    { idx := moduloSub it.idx (t % 2 ^ 32).toNat q.capacity
      round := u32 (it.round + ((-t + it.idx) % 2 ^ 64).toNat / q.capacity) }
  else it.addInt q (-t)

def decrementable (it : Iterator) : Bool :=
  !(it.idx == q.head && (q.empty || (it.idx == 0 && it.round != u32 (q.round + 1)) ||
    (it.idx != 0 && it.round != q.round)))

/-- `operator--`. -/
def prev (it : Iterator) : Sim Iterator := do
  assert (it.decrementable q) "decrementable()"
  return {
    idx := q.decrease it.idx
    round := if it.idx = 0 then u32 (it.round + (2 ^ 32 - 1)) else it.round }

/-- Some decrements one after the other. -/
def prevs : ℕ → Iterator → Sim Iterator
  | 0, it => .ok it
  | n + 1, it => do prevs n (← it.prev q)

/-- `operator-` of two iterators. -/
def diff (it that : Iterator) : ℤ :=
  let ret := sub it.idx that.idx q.capacity
  if it.round ≠ that.round then
    i32 (ret + u32 (it.round + (2 ^ 32 - that.round)) * q.capacity)
  else ret

def lt (it that : Iterator) : Bool :=
  it.round < that.round || (it.round == that.round && it.idx < that.idx)

def le (it that : Iterator) : Bool := !that.lt it

end Iterator

/-- `end()`. -/
def endIt : Iterator :=
  let poi := moduloAdd q.tail 1 q.capacity
  { idx := poi, round := if poi = 0 then u32 (q.round + 1) else q.round }

/-- `begin()`. -/
def beginIt : Iterator :=
  if q.empty then q.endIt
  else if q.head > q.tail then { idx := q.head, round := u32 (q.round + (2 ^ 32 - 1)) }
  else { idx := q.head, round := q.round }

/-- A loop over the elements from `it` to `end()`, of at most `fuel` rounds. -/
def collect : ℕ → Iterator → Sim (List T)
  | fuel, it =>
    if it = q.endIt then .ok []
    else match fuel with
      | 0 => .error .diverges
      | fuel + 1 => do
        let x ← q.get it.idx
        let xs ← collect fuel (it.next q)
        return x :: xs

/-- The elements from `begin()` to `end()`. -/
def elements : Sim (List T) := q.collect (q.capacity + 1) q.beginIt

def flush : CircularQueue T := { q with head := 1, round := 0, tail := 0, empty := true }

def isValidIdx (idx : ℕ) : Bool :=
  !(q.empty || (q.head < q.tail &&
    (q.head < idx && q.tail < idx || q.head > idx && q.tail > idx)) ||
    (q.tail < idx && idx < q.head))

def front : Sim T := q.get q.head

def back : Sim T := q.get q.tail

def size : ℕ :=
  if q.empty then 0
  else if q.head ≤ q.tail then q.tail - q.head + 1
  else u32 (q.capacity - q.head + q.tail + 1)

def full : Bool :=
  !q.empty && (q.tail + 1 == q.head || (q.tail + 1 == q.capacity && q.head == 0))

def popFront (num_elem : ℕ) : Sim (CircularQueue T) :=
  if num_elem = 0 then .ok q
  else do
    let hIt := q.beginIt.add q num_elem
    assert (hIt.le q.endIt) "hIt <= end()"
    return { q with empty := hIt = q.endIt, head := hIt.idx }

def popBack : Sim (CircularQueue T) := do
  assert (!q.empty) "!_empty"
  return { q with
    empty := q.head = q.tail
    round := if q.tail = 0 then u32 (q.round + (2 ^ 32 - 1)) else q.round
    tail := q.decrease q.tail }

def advanceTail : CircularQueue T :=
  let tail := q.increase q.tail
  { q with
    tail
    round := if tail = 0 then u32 (q.round + 1) else q.round
    head := if tail = q.head ∧ !q.empty then q.increase q.head else q.head
    empty := false }

/-- `advance_tail(len)`, whose counter is an `int`. -/
def advanceTailBy (len : ℕ) : Sim (CircularQueue T) :=
  if len < 2 ^ 31 then .ok (advanceTail^[len] q) else .error (.undefined "signed overflow")

def pushBack (val : T) : Sim (CircularQueue T) := q.advanceTail.set q.advanceTail.tail val

def getIterator (idx : ℕ) : Sim Iterator := do
  assert (q.isValidIdx idx || moduloAdd q.tail 1 q.capacity == idx)
    "isValidIdx(idx) || moduloAdd(_tail, 1) == idx"
  if q.empty then return q.endIt
  let round :=
    if idx > q.tail then
      if idx ≥ q.head ∧ q.head > q.tail then u32 (q.round + (2 ^ 32 - 1)) else q.round
    else if idx < q.head ∧ q.tail + 1 = q.capacity then u32 (q.round + 1)
    else q.round
  return { idx := u32 idx, round }

/-- `std::copy` of `n` elements from `it` on. -/
def copyOut : ℕ → Iterator → Sim (List T)
  | 0, _ => .ok []
  | n + 1, it => do
    let x ← q.get it.idx
    let xs ← copyOut n (it.next q)
    return x :: xs

def peek (offset len : ℕ) : Sim (List T) := do
  panicIf (u64 (offset + len) > q.size) "Trying to read past end of circular buffer.\n"
  let first := q.beginIt.add q offset
  q.copyOut ((first.add q len).diff q first).toNat first

def read (len : ℕ) : Sim (List T × CircularQueue T) := do
  let out ← q.peek 0 len
  let q ← q.popFront len
  return (out, q)

end CircularQueue

namespace CircularQueue

variable {T : Type}

/-- `std::copy` of a list to `it`. -/
def copyIn (q : CircularQueue T) : List T → Iterator → Sim (CircularQueue T)
  | [], _ => .ok q
  | x :: xs, it => do
    let q ← q.set it.idx x
    copyIn q xs (it.next q)

def write (q : CircularQueue T) (data : List T) : Sim (CircularQueue T) := do
  let data := if data.length > q.capacity then data.drop (data.length - q.capacity) else data
  let q ← q.copyIn data q.endIt
  q.advanceTailBy data.length

/-- The calls that change a queue or read data from it. -/
inductive Op (T : Type)
  | pushBack (val : T)
  | advanceTail
  | advanceTailBy (len : ℕ)
  | popFront (num_elem : ℕ)
  | popBack
  | flush
  | write (data : List T)
  | peek (offset len : ℕ)
  | read (len : ℕ)

/-- A call, with the data it copies out. -/
def step (q : CircularQueue T) : Op T → Sim (List T × CircularQueue T)
  | .pushBack val => do return ([], ← q.pushBack val)
  | .advanceTail => .ok ([], q.advanceTail)
  | .advanceTailBy len => do return ([], ← q.advanceTailBy len)
  | .popFront num_elem => do return ([], ← q.popFront num_elem)
  | .popBack => do return ([], ← q.popBack)
  | .flush => .ok ([], q.flush)
  | .write data => do return ([], ← q.write data)
  | .peek offset len => do return (← q.peek offset len, q)
  | .read len => q.read len

/-- What a call does to a list of at most `cap` elements, which drops its oldest ones on overflow;
`advance_tail` appends elements that are not specified. -/
inductive ListStep (cap : ℕ) : List T → Op T → List T → List T → Prop
  | pushBack {xs} (val : T) : ListStep cap xs (.pushBack val) [] ((xs ++ [val]).rtake cap)
  | advanceTail {xs} (x : T) : ListStep cap xs .advanceTail [] ((xs ++ [x]).rtake cap)
  | advanceTailBy {xs} (ys : List T) :
    ListStep cap xs (.advanceTailBy ys.length) [] ((xs ++ ys).rtake cap)
  | popFront {xs n} (hn : n ≤ xs.length) : ListStep cap xs (.popFront n) [] (xs.drop n)
  | popBack {xs} (hxs : xs ≠ []) : ListStep cap xs .popBack [] xs.dropLast
  | flush {xs} : ListStep cap xs .flush [] []
  | write {xs} (data : List T) : ListStep cap xs (.write data) [] ((xs ++ data).rtake cap)
  | peek {xs offset len} (hlen : offset + len ≤ xs.length) :
    ListStep cap xs (.peek offset len) ((xs.drop offset).take len) xs
  | read {xs len} (hlen : len ≤ xs.length) : ListStep cap xs (.read len) (xs.take len) (xs.drop len)

inductive ListRun (cap : ℕ) : List T → List (Op T) → List (List T) → List T → Prop
  | nil {xs} : ListRun cap xs [] [] xs
  | cons {xs xs₁ xs' op ops out outs} (hstep : ListStep cap xs op out xs₁)
    (hrun : ListRun cap xs₁ ops outs xs') : ListRun cap xs (op :: ops) (out :: outs) xs'

/-- The iterator of the `k`-th element. -/
def iteratorAt (q : CircularQueue T) (k : ℕ) : Iterator := (Iterator.next q)^[k] q.beginIt

/-- The laws of iterator arithmetic, from an iterator of the queue to another one or to `end()`. -/
structure IteratorLaws (q : CircularQueue T) : Prop where
  add_sub_cancel : ∀ i ≤ q.size, ∀ j ≤ q.size,
    ((q.iteratorAt i).addInt q (j - i)).diff q (q.iteratorAt i) = j - i
  sub_cancel : ∀ i ≤ q.size, ∀ j ≤ q.size,
    ((q.iteratorAt i).addInt q (j - i)).subInt q (j - i) = q.iteratorAt i
  reached_up : ∀ i n, i + n ≤ q.size →
    (q.iteratorAt i).addInt q n = (Iterator.next q)^[n] (q.iteratorAt i)
  reached_down : ∀ i n, n ≤ i → i ≤ q.size →
    (q.iteratorAt i).prevs q n = .ok ((q.iteratorAt i).addInt q (-n))
  lt_iff : ∀ i ≤ q.size, ∀ j ≤ q.size,
    ((q.iteratorAt i).lt (q.iteratorAt j) = true ↔ 0 < (q.iteratorAt j).diff q (q.iteratorAt i))

/-- The capacity is a power of two or the elements do not wrap around in the store, the counts and
indices fit an `int32_t`, and the round has not wrapped around. -/
structure Plain (q : CircularQueue T) : Prop where
  head : q.empty = true ∨ q.head < q.capacity
  capacity : q.capacity ∣ 2 ^ 32 ∨ q.beginIt.round = q.endIt.round
  size : q.size < 2 ^ 31
  idx : q.endIt.idx < 2 ^ 31
  round : q.beginIt.round ≤ q.endIt.round

/-- The queue holds an element at `idx` of its store. -/
def Live (q : CircularQueue T) (xs : List T) (idx : ℕ) : Prop :=
  ∃ k < xs.length, (q.iteratorAt k).idx = idx

/-- What is read from a queue is what the list has, and the index test is right except for a list of
one element, where only the index of that element passes rightly. -/
structure Observes (q : CircularQueue T) (xs : List T) : Prop where
  size : q.size = xs.length
  empty : q.empty = xs.isEmpty
  full : q.full = true ↔ xs.length = q.capacity
  front : ∀ x ∈ xs.head?, q.front = .ok x
  back : ∀ x ∈ xs.getLast?, q.back = .ok x
  elements : q.elements = .ok xs
  peek : ∀ offset len, offset + len ≤ xs.length → q.head + (offset + len) < 2 ^ 32 → len < 2 ^ 31 →
    q.peek offset len = .ok ((xs.drop offset).take len)
  iterator : ∀ k < xs.length, ∃ x ∈ xs[k]?, q.get (q.iteratorAt k).idx = .ok x ∧
    q.getIterator (q.iteratorAt k).idx = .ok (q.iteratorAt k)
  isValidIdx : ∀ idx < q.capacity,
    ((q.isValidIdx idx = true ↔ q.Live xs idx) ↔ (xs.length = 1 → idx = q.head))

/-- A call asks for no more than there is, and its counts fit the integers they are computed in. -/
def Fits (q : CircularQueue T) : Op T → Prop
  | .advanceTailBy len => len < 2 ^ 31
  | .popFront n => n ≤ q.size ∧ q.head + n < 2 ^ 32
  | .write data => min data.length q.capacity < 2 ^ 31
  | .peek offset len => offset + len ≤ q.size ∧ q.head + (offset + len) < 2 ^ 32 ∧ len < 2 ^ 31
  | .read len => len ≤ q.size ∧ q.head + len < 2 ^ 32 ∧ len < 2 ^ 31
  | _ => True

def Op.advances (capacity : ℕ) : Op T → ℕ
  | .pushBack _ => 1
  | .advanceTail => 1
  | .advanceTailBy len => len
  | .write data => min data.length capacity
  | _ => 0

/-- There is an element to pop, and the round does not wrap around. -/
def Counts (q : CircularQueue T) (op : Op T) : Prop :=
  (op = .popBack → q.empty = false) ∧
    q.round + (q.tail + op.advances q.capacity) / q.capacity + 1 < 2 ^ 32

end CircularQueue

end Gem5Nvm
