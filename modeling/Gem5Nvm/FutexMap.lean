import Gem5Nvm.Lib.Run
import Gem5Nvm.Base

/-!
# The futexes of the system

`FutexMap` of `sim/futex_map.cc`.  A thread context is known by a number.  A call answers the
contexts it has activated, in order, and what it returns.  A context that is woken is read through
a reference to the list element that held it; the element has been removed by then, and the model
takes what it held.  `requeue` uses an iterator into the hash table after an insertion that may have
invalidated it, and the model takes the entry it pointed to.
-/

namespace Gem5Nvm

open Function (update)

structure FutexKey where
  addr : ℕ
  tgid : ℕ
  deriving DecidableEq, Repr

structure WaiterState where
  tc : ℕ
  bitmask : BitVec 32
  deriving DecidableEq, Repr

def WaiterState.checkMask (w : WaiterState) (wakeupBitmask : BitVec 32) : Bool :=
  decide (w.bitmask &&& wakeupBitmask ≠ 0)

structure FutexMap where
  lists : FutexKey → Option (List WaiterState)
  waitingTcs : ℕ → Bool

namespace FutexMap

def new : FutexMap := ⟨fun _ => none, fun _ => false⟩

/-- The variables of the loops that wake contexts. -/
structure Waking where
  wokenUp : ℤ
  activated : List ℕ
  waitingTcs : ℕ → Bool

/-- `tc->activate(); woken_up++`. -/
def Waking.activate (r : Waking) (w : WaiterState) : Waking :=
  { r with wokenUp := r.wokenUp + 1, activated := r.activated ++ [w.tc] }

/-- `waitingTcs.erase(tc)`. -/
def Waking.erase (r : Waking) (w : WaiterState) : Waking :=
  { r with waitingTcs := update r.waitingTcs w.tc false }

/-- The loop of `wakeup`. -/
def wakeupLoop (count : ℤ) : List WaiterState → Waking → List WaiterState × Waking
  | [], r => ([], r)
  | w :: ws, r =>
    if r.wokenUp < count then wakeupLoop count ws ((r.activate w).erase w) else (w :: ws, r)

/-- The loop of `wakeup_bitset`. -/
def bitsetLoop (bitmask : BitVec 32) : List WaiterState → Waking → List WaiterState × Waking
  | [], r => ([], r)
  | w :: ws, r =>
    if w.checkMask bitmask then bitsetLoop bitmask ws ((r.activate w).erase w)
    else
      let (rest, r) := bitsetLoop bitmask ws r
      (w :: rest, r)

/-- The first loop of `requeue`. -/
def requeueLoop (count : ℤ) : List WaiterState → Waking → List WaiterState × Waking
  | [], r => ([], r)
  | w :: ws, r => if r.wokenUp < count then requeueLoop count ws (r.activate w) else (w :: ws, r)

/-- The second loop of `requeue`: the waiters left, and those moved with their number. -/
def moveLoop (count2 : ℤ) : List WaiterState → ℤ → List WaiterState →
    List WaiterState × ℤ × List WaiterState
  | [], requeued, tmpList => ([], requeued, tmpList)
  | w :: ws, requeued, tmpList =>
    if requeued < count2 then moveLoop count2 ws (requeued + 1) (tmpList ++ [w])
    else (w :: ws, requeued, tmpList)

/-- The list of the second key with those moved, where `none` is `it2 == end()`. -/
def append (list2 : Option (List WaiterState)) (requeued : ℤ) (tmpList : List WaiterState) :
    Sim (List WaiterState) :=
  match list2 with
  | none => if requeued > 0 then .ok tmpList else .error (.undefined "it2->second")
  | some list2 => .ok (list2 ++ tmpList)

variable (s : FutexMap)

/-- Writes the list of a key; an empty one is erased. -/
def keep (key : FutexKey) (list : List WaiterState) : FutexKey → Option (List WaiterState) :=
  update s.lists key (if list.isEmpty then none else some list)

def suspendBitset (addr tgid tc : ℕ) (bitmask : BitVec 32) : FutexMap :=
  let key : FutexKey := ⟨addr, tgid⟩
  let list := match s.lists key with
    | none => [⟨tc, bitmask⟩]
    | some list => list ++ [⟨tc, bitmask⟩]
  { lists := update s.lists key (some list)
    waitingTcs := update s.waitingTcs tc true }

def suspend (addr tgid tc : ℕ) : FutexMap := s.suspendBitset addr tgid tc 0xffffffff#32

/-- `wakeup` and `wakeup_bitset` with their loop. -/
def wakeWith (loop : List WaiterState → Waking → List WaiterState × Waking) (key : FutexKey) :
    (List ℕ × ℤ) × FutexMap :=
  match s.lists key with
  | none => (([], 0), s)
  | some list =>
    let (list, r) := loop list ⟨0, [], s.waitingTcs⟩
    ((r.activated, r.wokenUp), ⟨s.keep key list, r.waitingTcs⟩)

def wakeup (addr tgid : ℕ) (count : ℤ) : (List ℕ × ℤ) × FutexMap :=
  s.wakeWith (wakeupLoop count) ⟨addr, tgid⟩

def wakeupBitset (addr tgid : ℕ) (bitmask : BitVec 32) : (List ℕ × ℤ) × FutexMap :=
  s.wakeWith (bitsetLoop bitmask) ⟨addr, tgid⟩

def requeue (addr1 tgid : ℕ) (count count2 : ℤ) (addr2 : ℕ) : Sim ((List ℕ × ℤ) × FutexMap) :=
  let key1 : FutexKey := ⟨addr1, tgid⟩
  let key2 : FutexKey := ⟨addr2, tgid⟩
  match s.lists key1 with
  | none => .ok (([], 0), s)
  | some list1 => do
    let (list1, r) := requeueLoop count list1 ⟨0, [], s.waitingTcs⟩
    let (list1, requeued, tmpList) := moveLoop count2 list1 0 []
    let s := { s with lists := update s.lists key1 (some list1) }
    let list2 ← append (s.lists key2) requeued tmpList
    let s := { s with lists := update s.lists key2 (some list2) }
    -- the list of the first key may have grown again
    let list1 := (s.lists key1).getD []
    return ((r.activated, r.wokenUp + requeued), { s with lists := s.keep key1 list1 })

def isWaiting (tc : ℕ) : Bool := s.waitingTcs tc

inductive Call
  | suspend (addr tgid tc : ℕ)
  | suspendBitset (addr tgid tc : ℕ) (bitmask : BitVec 32)
  | wakeup (addr tgid : ℕ) (count : ℤ)
  | wakeupBitset (addr tgid : ℕ) (bitmask : BitVec 32)
  | requeue (addr1 tgid : ℕ) (count count2 : ℤ) (addr2 : ℕ)
  deriving DecidableEq, Repr

def step : Call → Sim ((List ℕ × ℤ) × FutexMap)
  | .suspend addr tgid tc => .ok (([], 0), s.suspend addr tgid tc)
  | .suspendBitset addr tgid tc bitmask => .ok (([], 0), s.suspendBitset addr tgid tc bitmask)
  | .wakeup addr tgid count => .ok (s.wakeup addr tgid count)
  | .wakeupBitset addr tgid bitmask => .ok (s.wakeupBitset addr tgid bitmask)
  | .requeue addr1 tgid count count2 addr2 => s.requeue addr1 tgid count count2 addr2

/-- The waiters of a key, in the order in which they arrived there. -/
def queue (key : FutexKey) : List WaiterState := (s.lists key).getD []

/-- What a call is for: the contexts it wakes, the number it returns and the waiters it leaves. -/
def served : Call → (List ℕ × ℤ) × (FutexKey → List WaiterState)
  | .suspend addr tgid tc =>
    (([], 0), update s.queue ⟨addr, tgid⟩ (s.queue ⟨addr, tgid⟩ ++ [⟨tc, 0xffffffff#32⟩]))
  | .suspendBitset addr tgid tc bitmask =>
    (([], 0), update s.queue ⟨addr, tgid⟩ (s.queue ⟨addr, tgid⟩ ++ [⟨tc, bitmask⟩]))
  | .wakeup addr tgid count =>
    let woken := (s.queue ⟨addr, tgid⟩).take count.toNat
    ((woken.map (·.tc), woken.length),
      update s.queue ⟨addr, tgid⟩ ((s.queue ⟨addr, tgid⟩).drop count.toNat))
  | .wakeupBitset addr tgid bitmask =>
    let woken := (s.queue ⟨addr, tgid⟩).filter (·.checkMask bitmask)
    ((woken.map (·.tc), woken.length), update s.queue ⟨addr, tgid⟩
      ((s.queue ⟨addr, tgid⟩).filter fun w => !w.checkMask bitmask))
  | .requeue addr1 tgid count count2 addr2 =>
    let woken := (s.queue ⟨addr1, tgid⟩).take count.toNat
    let rest := (s.queue ⟨addr1, tgid⟩).drop count.toNat
    let moved := rest.take count2.toNat
    let left := update s.queue ⟨addr1, tgid⟩ (rest.drop count2.toNat)
    ((woken.map (·.tc), woken.length + moved.length),
      update left ⟨addr2, tgid⟩ (left ⟨addr2, tgid⟩ ++ moved))

/-- The contexts that wait for a key. -/
def names (key : FutexKey) : List ℕ := (s.queue key).map (·.tc)

/-- A context is in exactly one list. -/
def InOne (tc : ℕ) : Prop :=
  ∃ key, (s.names key).count tc = 1 ∧ ∀ key', key' ≠ key → tc ∉ s.names key'

/-- A call ends, does what it is for, leaves the set of waiting contexts exact, and no context it
woke in a list. -/
def Exact (call : Call) : Prop :=
  ∃ r s', s.step call = .ok (r, s') ∧ (r, s'.queue) = s.served call ∧
    (∀ tc, s'.isWaiting tc = true ↔ s'.InOne tc) ∧ ∀ tc ∈ r.1, ∀ key, tc ∉ s'.names key

/-- A context that suspends is not waiting already. -/
def Legal : Call → Prop
  | .suspend _ _ tc => ∀ key, tc ∉ s.names key
  | .suspendBitset _ _ tc _ => ∀ key, tc ∉ s.names key
  | _ => True

/-- A requeue finds no waiters, or wakes none and then moves some or has a list to move to. -/
def Moves : Call → Prop
  | .requeue addr1 tgid count count2 addr2 => s.lists ⟨addr1, tgid⟩ = none ∨
      (count ≤ 0 ∧ (0 < count2 ∨ s.lists ⟨addr2, tgid⟩ ≠ none))
  | _ => True

end FutexMap

end Gem5Nvm
