import Gem5Nvm.Mshr

/-!
# The queue of miss status holding registers

`MSHRQueue` of `mem/cache/mshr_queue.cc` over `Queue` of `mem/cache/queue.hh`. An entry is known by
its index in `entries`. The iterator an entry keeps of its place in a list is that place: through
the iterator of an entry that is not on the list the behaviour is undefined.

Draining is left out.
-/

namespace Gem5Nvm

structure MshrQueue where
  numEntries : ℕ
  numReserve : ℕ
  entries : ℕ → Mshr := fun _ => {}
  allocatedList : List ℕ := []
  readyList : List ℕ := []
  freeList : List ℕ
  numInService : ℤ := 0
  allocated : ℤ := 0
  curTick : ℕ := 0

namespace MshrQueue

/-- The queue the constructor leaves. -/
def start (numEntries reserve : ℕ) : MshrQueue :=
  { numEntries := numEntries + reserve, numReserve := reserve
    freeList := List.range (numEntries + reserve) }

def readyTime (q : MshrQueue) (i : ℕ) : ℕ := (q.entries i).readyTime

def setEntry (q : MshrQueue) (i : ℕ) (m : Mshr) : MshrQueue :=
  { q with entries := Function.update q.entries i m }

def isFull (q : MshrQueue) : Bool := decide (q.allocated ≥ q.numEntries - q.numReserve)

/-- The list with an entry erased through its iterator. -/
def eraseEntry (l : List ℕ) (i : ℕ) : Sim (List ℕ) :=
  if i ∈ l then .ok (l.erase i) else .error (.undefined "erase() of an invalid iterator")

def addToReadyList (q : MshrQueue) (entry : ℕ) : Sim (List ℕ) :=
  if q.readyList.getLast?.all fun back => q.readyTime back ≤ q.readyTime entry then
    .ok (q.readyList ++ [entry])
  else
    let (before, later) := q.readyList.span fun i => q.readyTime i ≤ q.readyTime entry
    match later with
    | [] => .error (.panic "Failed to add to ready list.")
    | _ => .ok (before ++ entry :: later)

def getNext (q : MshrQueue) : Option ℕ :=
  match q.readyList with
  | [] => none
  | front :: _ => if q.readyTime front > q.curTick then none else some front

def nextReadyTime (q : MshrQueue) : ℕ :=
  match q.readyList with
  | [] => maxTick
  | front :: _ => q.readyTime front

def takeFree (q : MshrQueue) : Sim (ℕ × MshrQueue) :=
  match q.freeList with
  | [] => .error (.assertion "!freeList.empty()")
  | mshr :: freeList => do
    assert ((q.entries mshr).getNumTargets == 0) "mshr->getNumTargets() == 0"
    return (mshr, { q with freeList })

def allocate (q : MshrQueue) (blkAddr blkSize : ℕ) (pkt : MissPacket) (whenReady order : ℕ)
    (allocOnFill : Bool) : Sim (ℕ × MshrQueue) := do
  let (mshr, q) ← q.takeFree
  let m ← (q.entries mshr).allocate blkAddr blkSize pkt whenReady order allocOnFill
  let q := q.setEntry mshr m
  let readyList ← q.addToReadyList mshr
  return (mshr, { q with
    allocatedList := q.allocatedList ++ [mshr], readyList, allocated := q.allocated + 1 })

/-- The ready list after `delay`: the entry is spliced to before the first one, from itself on,
that is not ready later than it. -/
def spliceDelayed (q : MshrQueue) (mshr : ℕ) : Sim (List ℕ) :=
  let (before, fromMshr) := q.readyList.span (· ≠ mshr)
  match fromMshr with
  | [] => .error (.undefined "find_if() from an invalid iterator")
  | _ =>
    let (skipped, it) := fromMshr.span fun i => !(q.readyTime mshr ≥ q.readyTime i)
    -- splicing an element to before itself leaves the list
    match skipped with
    | [] => .ok q.readyList
    | _ :: passed => .ok (before ++ passed ++ mshr :: it)

def delay (q : MshrQueue) (mshr delayTicks : ℕ) : Sim MshrQueue := do
  let m ← (q.entries mshr).delay q.curTick delayTicks
  let q := q.setEntry mshr m
  let readyList ← q.spliceDelayed mshr
  return { q with readyList }

def markInService (q : MshrQueue) (mshr : ℕ) (pendingModifiedResp : Bool) : Sim MshrQueue := do
  let m ← (q.entries mshr).markInService pendingModifiedResp
  let readyList ← eraseEntry q.readyList mshr
  return { q.setEntry mshr m with readyList, numInService := q.numInService + 1 }

def markPending (q : MshrQueue) (mshr : ℕ) : Sim MshrQueue := do
  assert (q.entries mshr).inService "mshr->inService"
  let q := q.setEntry mshr { q.entries mshr with inService := false }
  let readyList ← q.addToReadyList mshr
  return { q with readyList, numInService := q.numInService - 1 }

/-- What `deallocate` does to the list or the count of the entries that are ready or in service. -/
def leaveService (q : MshrQueue) (entry : ℕ) : Sim MshrQueue :=
  if (q.entries entry).inService then .ok { q with numInService := q.numInService - 1 }
  else do
    let readyList ← eraseEntry q.readyList entry
    return { q with readyList }

def deallocate (q : MshrQueue) (entry : ℕ) : Sim MshrQueue := do
  let allocatedList ← eraseEntry q.allocatedList entry
  let q := { q with
    allocatedList, freeList := entry :: q.freeList, allocated := q.allocated - 1 }
  let q ← q.leaveService entry
  let m ← (q.entries entry).deallocate
  return q.setEntry entry m

/-- What `forceDeallocateTarget` does once the target is off the list. -/
def promoteOrDeallocate (q : MshrQueue) (mshr : ℕ) : Sim MshrQueue :=
  if (q.entries mshr).hasTargets then .ok q
  else do
    let (promoted, m) ← (q.entries mshr).promoteDeferredTargets q.curTick
    if promoted then return q.setEntry mshr m else q.deallocate mshr

def forceDeallocateTarget (q : MshrQueue) (mshr : ℕ) : Sim (Bool × MshrQueue) := do
  let wasFull := q.isFull
  assert (q.entries mshr).hasTargets "mshr->hasTargets()"
  let m ← (q.entries mshr).popTarget
  let q ← (q.setEntry mshr m).promoteOrDeallocate mshr
  return (wasFull && !q.isFull, q)

end MshrQueue

/-- The calls on an entry that the cache makes past the queue. -/
def Mshr.Op.ofCache : Mshr.Op → Bool
  | .allocateTarget .. | .handleSnoop .. | .extractServiceableTargets .. | .promoteReadable
  | .promoteWritable | .promoteDeferredTargets .. | .setForward .. | .setDownstreamPending
  | .clearDownstreamPending => true
  | .allocate .. | .markInService .. | .markPending | .popTarget | .deallocate => false

namespace MshrQueue

/-- A call on the queue, one of the cache on an allocated entry, or the passing of time. -/
inductive Op
  | allocate (blkAddr blkSize : ℕ) (pkt : MissPacket) (whenReady order : ℕ) (allocOnFill : Bool)
  | delay (mshr delayTicks : ℕ)
  | markInService (mshr : ℕ) (pendingModifiedResp : Bool)
  | markPending (mshr : ℕ)
  | deallocate (mshr : ℕ)
  | forceDeallocateTarget (mshr : ℕ)
  | onEntry (mshr : ℕ) (call : { o : Mshr.Op // o.ofCache = true })
  | elapse (ticks : ℕ)

def onEntry (q : MshrQueue) (mshr : ℕ) (call : Mshr.Op) : Sim MshrQueue :=
  if mshr ∈ q.allocatedList then do
    let (_, m) ← (q.entries mshr).step call
    return q.setEntry mshr m
  else .error (.undefined "a call on an entry that is not allocated")

def step (q : MshrQueue) : Op → Sim (Unit × MshrQueue)
  | .allocate blkAddr blkSize pkt whenReady order allocOnFill => do
    let (_, q) ← q.allocate blkAddr blkSize pkt whenReady order allocOnFill
    return ((), q)
  | .delay mshr delayTicks => do
    let q ← q.delay mshr delayTicks
    return ((), q)
  | .markInService mshr pendingModifiedResp => do
    let q ← q.markInService mshr pendingModifiedResp
    return ((), q)
  | .markPending mshr => do
    let q ← q.markPending mshr
    return ((), q)
  | .deallocate mshr => do
    let q ← q.deallocate mshr
    return ((), q)
  | .forceDeallocateTarget mshr => do
    let (_, q) ← q.forceDeallocateTarget mshr
    return ((), q)
  | .onEntry mshr call => do
    let q ← q.onEntry mshr call
    return ((), q)
  | .elapse ticks => .ok ((), { q with curTick := q.curTick + ticks })

/-- The lists and the counts agree with the entries. -/
structure Consistent (q : MshrQueue) : Prop where
  partition : (q.allocatedList ++ q.freeList).Perm (List.range q.numEntries)
  ready_nodup : q.readyList.Nodup
  ready : ∀ i, i ∈ q.readyList ↔ i ∈ q.allocatedList ∧ (q.entries i).inService = false
  allocated : q.allocated = q.allocatedList.length
  numInService : q.numInService = (q.allocatedList.filter fun i => (q.entries i).inService).length

/-- The ready list is in the order of the ready times. -/
def Sorted (q : MshrQueue) : Prop :=
  q.readyList.Pairwise fun i j => q.readyTime i ≤ q.readyTime j

/-- The queue is consistent and its ready list in order, so that the next entry and its time are
the right ones. -/
structure Right (q : MshrQueue) : Prop where
  consistent : q.Consistent
  sorted : q.Sorted
  getNext : q.getNext = none → ∀ i ∈ q.readyList, ¬ q.readyTime i ≤ q.curTick
  nextReadyTime : ∀ i ∈ q.readyList, q.nextReadyTime ≤ q.readyTime i
  nextReadyTime_mem : q.readyList ≠ [] → ∃ i ∈ q.readyList, q.readyTime i = q.nextReadyTime

def RightAfter (q : MshrQueue) (o : Op) : Prop := ∀ r q', q.step o = .ok (r, q') → q'.Right

/-- The place of an entry on the ready list fits the time `t`. -/
def Fits (q : MshrQueue) (mshr t : ℕ) : Prop :=
  (∀ i ∈ q.readyList.takeWhile (· ≠ mshr), q.readyTime i ≤ t) ∧
    ∀ i ∈ (q.readyList.dropWhile (· ≠ mshr)).tail, t ≤ q.readyTime i

end MshrQueue

/-- The ready time `promoteDeferredTargets` gives the entry. -/
def Mshr.promotedTime (m : Mshr) (curTick : ℕ) : ℕ :=
  match m.targets.items ++ m.deferredTargets.items with
  | [] => m.readyTime
  | first :: _ => max curTick first.readyTime

namespace MshrQueue

/-- The condition on a call under which it leaves the ready list in order: an entry that stays on
the list and gets another ready time has its place there already. -/
def StaysInPlace (q : MshrQueue) : Op → Prop
  | .delay mshr delayTicks => q.Fits mshr (u64 (q.curTick + delayTicks))
  | .forceDeallocateTarget mshr =>
    (q.entries mshr).inService = false → (q.entries mshr).targets.items.length = 1 →
      (q.entries mshr).deferredTargets.items ≠ [] →
      q.Fits mshr (max q.curTick
        (((q.entries mshr).deferredTargets.items.head?.map Target.readyTime).getD 0))
  | .onEntry mshr call =>
    ∀ curTick, call.1 = .promoteDeferredTargets curTick → (q.entries mshr).inService = false →
      q.Fits mshr ((q.entries mshr).promotedTime curTick)
  | _ => True

end MshrQueue

end Gem5Nvm
