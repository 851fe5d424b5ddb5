import Gem5Nvm.Lib.Run
import Gem5Nvm.Lib.SortedMap
import Gem5Nvm.Base

/-!
# Message buffers

`MessageBuffer` of `mem/ruby/network/MessageBuffer.cc`.  The heap is the list of its messages in the
order they leave it; the stall map lists its entries by address.  Randomization and warm-up are
settings of the whole system; a random delay is an argument of the call that draws it.

Beside a run, `Cycle` keeps what the visible size of a buffer is meant to be: the messages held when
the current cycle began and those enqueued in it.
-/

namespace Gem5Nvm

/-- What a buffer reads and writes of a message. -/
structure Message where
  lastEnqueueTime : ℕ
  delayedTicks : ℕ
  msgCounter : ℕ
  deriving DecidableEq, Repr

namespace Message

def updateDelayedTicks (m : Message) (curTime : ℕ) : Sim Message := do
  assert (decide (m.lastEnqueueTime ≤ curTime)) "m_LastEnqueueTime <= curTime"
  return { m with delayedTicks := u64 (m.delayedTicks + (curTime - m.lastEnqueueTime)) }

/-- `operator>`: the message leaves the heap later. -/
def gt (l r : Message) : Bool :=
  if l.lastEnqueueTime = r.lastEnqueueTime then decide (l.msgCounter > r.msgCounter)
  else decide (l.lastEnqueueTime > r.lastEnqueueTime)

/-- `push_heap`. -/
def push (m : Message) : List Message → List Message
  | [] => [m]
  | m' :: rest => if m'.gt m then m :: m' :: rest else m' :: push m rest

end Message

/-- `StallMsgMapType`: the stalled messages of each address, in the order they were stalled. -/
abbrev StallMap := List (ℕ × List Message)

namespace StallMap

/-- The messages stalled on an address. -/
def stalledOn (map : StallMap) (addr : ℕ) : List Message := (map.lookup addr).getD []

/-- `map[addr].push_back(m)`. -/
def pushBack (addr : ℕ) (m : Message) (map : StallMap) : StallMap :=
  SortedMap.alter addr (fun stalled => stalled.getD [] ++ [m]) map

/-- The messages stalled on any address. -/
def size (map : StallMap) : ℕ := SortedMap.weight List.length map

end StallMap

structure MessageBuffer where
  maxSize : ℕ
  strictFifo : Bool
  /-- of the buffer or of the system -/
  randomization : Bool
  warmupEnabled : Bool
  blockSizeBits : ℕ
  prioHeap : List Message
  stallMsgMap : StallMap
  stallMapSize : ℤ
  timeLastTimeEnqueue : ℕ
  timeLastTimePop : ℕ
  lastArrivalTime : ℕ
  sizeAtCycleStart : ℕ
  stalledAtCycleStart : ℕ
  msgsThisCycle : ℕ
  msgCounter : ℕ
  deriving DecidableEq, Repr

namespace MessageBuffer

def new (maxSize : ℕ) (ordered randomization warmupEnabled : Bool) (blockSizeBits : ℕ) :
    MessageBuffer :=
  ⟨maxSize, ordered, randomization, warmupEnabled, blockSizeBits, [], [], 0, 0, 0, 0, 0, 0, 0, 0⟩

variable (b : MessageBuffer)

def isReady (currentTime : ℕ) : Bool :=
  match b.prioHeap with
  | [] => false
  | m :: _ => decide (m.lastEnqueueTime ≤ currentTime)

/-- The size the network sees in the current cycle. -/
def visibleSize (currentTime : ℕ) : ℕ :=
  if b.timeLastTimePop < currentTime then
    u32 (u32 b.prioHeap.length + (b.stallMapSize % 2 ^ 32).toNat)
  else
    let currentSize :=
      if b.timeLastTimeEnqueue < currentTime then b.sizeAtCycleStart
      else u32 (b.sizeAtCycleStart + b.msgsThisCycle)
    u32 (currentSize + b.stalledAtCycleStart)

def areNSlotsAvailable (n currentTime : ℕ) : Bool :=
  if b.maxSize = 0 then true
  else decide (u32 (b.visibleSize currentTime + n) ≤ b.maxSize)

def enqueue (message : Message) (currentTime delta randomTime : ℕ) : Sim MessageBuffer := do
  let first := decide (b.timeLastTimeEnqueue < currentTime)
  let msgCounter := u64 (b.msgCounter + 1)
  assert (decide (delta > 0)) "delta > 0"
  let lastArrivalTime :=
    if b.randomization && b.strictFifo && decide (b.lastArrivalTime < currentTime) then currentTime
    else b.lastArrivalTime
  let arrivalTime :=
    if !b.randomization then u64 (currentTime + delta)
    else if b.strictFifo then u64 (lastArrivalTime + randomTime)
    else u64 (currentTime + randomTime)
  assert (decide (arrivalTime > currentTime)) "arrival_time > current_time"
  panicIf (b.strictFifo && decide (arrivalTime < lastArrivalTime))
    ("FIFO ordering violated: %s name: %s current time: %d delta: %d arrival_time: %d " ++
      "last arrival_time: %d\n")
  assert (decide (currentTime ≥ message.lastEnqueueTime))
    "current_time >= msg_ptr->getLastEnqueueTime() && \"ensure we aren't dequeued early\""
  let message ← message.updateDelayedTicks currentTime
  let message := { message with lastEnqueueTime := arrivalTime, msgCounter := msgCounter }
  return { b with
    timeLastTimeEnqueue := if first then currentTime else b.timeLastTimeEnqueue
    msgsThisCycle := u32 ((if first then 0 else b.msgsThisCycle) + 1)
    msgCounter := msgCounter
    lastArrivalTime := if b.warmupEnabled then lastArrivalTime else arrivalTime
    prioHeap := message.push b.prioHeap }

/-- The message that leaves, with its delay. -/
def dequeue (currentTime : ℕ) : Sim (Message × MessageBuffer) := do
  assert (b.isReady currentTime) "isReady(current_time)"
  match b.prioHeap with
  | [] => .error (.undefined "m_prio_heap.front()")
  | message :: rest =>
    let message ← message.updateDelayedTicks currentTime
    -- the sizes before the first pop of the cycle: a pop is not visible until the next one
    let first := decide (b.timeLastTimePop < currentTime)
    return (message, { b with
      sizeAtCycleStart := if first then u32 b.prioHeap.length else b.sizeAtCycleStart
      stalledAtCycleStart :=
        if first then (b.stallMapSize % 2 ^ 32).toNat else b.stalledAtCycleStart
      timeLastTimePop := if first then currentTime else b.timeLastTimePop
      prioHeap := rest })

/-- `reanalyzeList`, on the heap. -/
def reanalyzeList (schdTick : ℕ) : List Message → List Message → Sim (List Message)
  | [], heap => .ok heap
  | m :: lt, heap => do
    assert (decide (m.lastEnqueueTime ≤ schdTick)) "m->getLastEnqueueTime() <= schdTick"
    reanalyzeList schdTick lt (m.push heap)

def reanalyzeMessages (addr currentTime : ℕ) : Sim MessageBuffer := do
  assert (b.stallMsgMap.lookup addr).isSome "m_stall_msg_map.count(addr) > 0"
  let stalled := b.stallMsgMap.stalledOn addr
  let stallMapSize := toInt32 (b.stallMapSize - stalled.length)
  assert (decide (stallMapSize ≥ 0)) "m_stall_map_size >= 0"
  let heap ← reanalyzeList currentTime stalled b.prioHeap
  return { b with
    prioHeap := heap
    stallMapSize := stallMapSize
    stallMsgMap := SortedMap.erase addr b.stallMsgMap }

/-- The loop of `reanalyzeAllMessages`, on `m_stall_map_size` and the heap. -/
def reanalyzeAll (currentTime : ℕ) : StallMap → ℤ → List Message → Sim (ℤ × List Message)
  | [], stallMapSize, heap => .ok (stallMapSize, heap)
  | (_, stalled) :: map, stallMapSize, heap => do
    let stallMapSize := toInt32 (stallMapSize - stalled.length)
    assert (decide (stallMapSize ≥ 0)) "m_stall_map_size >= 0"
    let heap ← reanalyzeList currentTime stalled heap
    reanalyzeAll currentTime map stallMapSize heap

def reanalyzeAllMessages (currentTime : ℕ) : Sim MessageBuffer := do
  let (stallMapSize, heap) ← reanalyzeAll currentTime b.stallMsgMap b.stallMapSize b.prioHeap
  return { b with prioHeap := heap, stallMapSize := stallMapSize, stallMsgMap := [] }

def stallMessage (addr currentTime : ℕ) : Sim MessageBuffer := do
  assert (b.isReady currentTime) "isReady(current_time)"
  assert (decide (addr % 2 ^ b.blockSizeBits = 0)) "getOffset(addr) == 0"
  let (message, b) ← b.dequeue currentTime
  return { b with
    stallMsgMap := b.stallMsgMap.pushBack addr message
    stallMapSize := toInt32 (b.stallMapSize + 1) }

def held : ℕ := b.prioHeap.length + b.stallMsgMap.size

end MessageBuffer

/-- What happened in the current cycle: `early` messages came before its first pop, which is 0 while
there was none, and `granted` says that a slot was found free since the last enqueue. -/
structure Cycle where
  time : ℕ
  held : ℕ
  enqueued : ℕ
  popped : Bool
  early : ℕ
  granted : Bool
  deriving DecidableEq, Repr

namespace Cycle

variable (c : Cycle)

/-- The cycle of `time`, which the last call was in or which is a new one. -/
def advance (b : MessageBuffer) (time : ℕ) : Cycle :=
  if c.time < time then ⟨time, b.held, 0, false, 0, false⟩ else c

def enqueue : Cycle := { c with enqueued := c.enqueued + 1, granted := false }

def pop : Cycle := if c.popped then c else { c with popped := true, early := c.enqueued }

end Cycle

namespace MessageBuffer

inductive Call
  | areNSlotsAvailable (n : ℕ)
  | enqueue (message : Message) (delta randomTime : ℕ)
  | dequeue
  | stallMessage (addr : ℕ)
  | reanalyzeMessages (addr : ℕ)
  | reanalyzeAllMessages
  deriving DecidableEq, Repr

/-- One call at some time, and what it does to the cycle. -/
def step (s : MessageBuffer × Cycle) (x : ℕ × Call) : Sim (Option Bool × MessageBuffer × Cycle) :=
  let (b, c) := s
  let (t, call) := x
  let c := c.advance b t
  match call with
  | .areNSlotsAvailable n =>
    let free := b.areNSlotsAvailable n t
    return (some free, b, { c with granted := c.granted || (free && n == 1) })
  | .enqueue message delta randomTime => do
    return (none, ← b.enqueue message t delta randomTime, c.enqueue)
  | .dequeue => do
    let (_, b) ← b.dequeue t
    return (none, b, c.pop)
  | .stallMessage addr => do return (none, ← b.stallMessage addr t, c.pop)
  | .reanalyzeMessages addr => do return (none, ← b.reanalyzeMessages addr t, c)
  | .reanalyzeAllMessages => do return (none, ← b.reanalyzeAllMessages t, c)

def start : Cycle := ⟨0, 0, 0, false, 0, false⟩

/-- Times do not decrease, and a message is enqueued only after a free slot was found in the same
cycle, one for each message. -/
def Guarded (s : MessageBuffer × Cycle) (x : ℕ × Call) : Prop :=
  s.2.time ≤ x.1 ∧ match x.2 with
    | .enqueue _ _ _ => (s.2.advance s.1 x.1).granted = true
    | _ => True

/-- The first pop of a cycle comes before its first enqueue. -/
def PopsFirst (s : MessageBuffer × Cycle) (x : ℕ × Call) : Prop :=
  match x.2 with
  | .dequeue | .stallMessage _ =>
    (s.2.advance s.1 x.1).popped = true ∨ (s.2.advance s.1 x.1).enqueued = 0
  | _ => True

end MessageBuffer

end Gem5Nvm
