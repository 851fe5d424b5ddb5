import Gem5Nvm.MemInterface

/-!
# The least recently granted queue policy

`LrgQueuePolicy` of `mem/qos/q_policy.cc`, in a controller that queues packets, registers their
requestors and asks for the packet to serve next.  One list of requestors serves all queues of the
controller.  Beside the run, the order in which the requestors came and the grants are kept; what a
grant should be is said on them.
-/

namespace Gem5Nvm

/-- What the policy reads of a `Packet`; `none` is a packet without a request. -/
structure QosPacket where
  req : Option ℕ
  deriving DecidableEq, Repr

namespace LrgQueuePolicy

/-- The second loop of `selectPacket`: the first requestor to serve that has a packet in `track`. -/
def selectTracked (toServe : List ℕ) (track : List (ℕ × ℕ)) : Option ℕ :=
  toServe.findSome? fun id => track.lookup id

/-- `selectPacket` from the packet at `idx` on, with one packet for each requestor seen before: the
packet selected and the list `toServe`. -/
def selectLoop (hasRequestor : ℕ → Bool) (toServe : List ℕ) :
    List QosPacket → ℕ → List (ℕ × ℕ) → Sim (Option ℕ × List ℕ)
  | [], _, track => .ok (selectTracked toServe track, toServe)
  | pkt :: rest, idx, track =>
    match pkt.req with
    | none => .error (.panic "QoSQPolicy::lrg detected packet without request")
    | some id => do
      panicIf (hasRequestor id) "%s: Unrecognized Requestor\n"
      panicIf (decide (toServe.length > 0)) "%s: toServe list is empty\n"
      match toServe with
      | [] => .error (.undefined "toServe.front()")
      | front :: others =>
        if front = id then return (some idx, others ++ [id])
        else
          let track := if (track.lookup id).isNone then track ++ [(id, idx)] else track
          selectLoop hasRequestor (front :: others) rest (idx + 1) track

/-- The place of the packet selected, or `none` for the end of the queue, and the list `toServe`. -/
def selectPacket (hasRequestor : ℕ → Bool) (toServe : List ℕ) (queue : List QosPacket) :
    Sim (Option ℕ × List ℕ) :=
  selectLoop hasRequestor toServe queue 0 []

def enqueuePacket (hasRequestor : ℕ → Bool) (toServe : List ℕ) (pkt : QosPacket) :
    Sim (List ℕ) :=
  match pkt.req with
  | none => .error (.undefined "req->requestorId()")
  | some id => .ok (if hasRequestor id then toServe else toServe ++ [id])

end LrgQueuePolicy

/-- A controller with the policy, the order its requestors came in and the grants so far. -/
structure LrgCtrl where
  toServe : List ℕ
  requestors : List ℕ
  queues : ℕ → List QosPacket
  arrivals : List ℕ
  grants : List ℕ

namespace LrgCtrl

inductive Call
  | enqueue (queue : ℕ) (pkt : QosPacket)
  | register (id : ℕ)
  | select (queue : ℕ)
  deriving DecidableEq, Repr

def start : LrgCtrl := ⟨[], [], fun _ => [], [], []⟩

variable (s : LrgCtrl)

def hasRequestor (id : ℕ) : Bool := decide (id ∈ s.requestors)

/-- A packet is queued and the policy told of it; a requestor is added; the packet selected is taken
out of its queue. -/
def step : Call → Sim (Option ℕ × LrgCtrl)
  | .enqueue queue pkt => do
    let toServe ← LrgQueuePolicy.enqueuePacket s.hasRequestor s.toServe pkt
    return (none, { s with
      toServe := toServe
      queues := Function.update s.queues queue (s.queues queue ++ [pkt])
      arrivals := s.arrivals ++ pkt.req.toList.filter (· ∉ s.arrivals) })
  | .register id => return (none, { s with
      requestors := if id ∈ s.requestors then s.requestors else s.requestors ++ [id] })
  | .select queue => do
    let (place, toServe) ← LrgQueuePolicy.selectPacket s.hasRequestor s.toServe (s.queues queue)
    match place with
    | none => return (none, { s with toServe := toServe })
    | some i =>
      let granted := ((s.queues queue)[i]?).bind QosPacket.req
      return (some i, { s with
        toServe := toServe
        queues := Function.update s.queues queue ((s.queues queue).eraseIdx i)
        grants := s.grants ++ granted.toList })

/-- The number of the last grant of a requestor: 0 if there was none. -/
def lastGrant (id : ℕ) : ℕ := s.grants.length - s.grants.reverse.idxOf id

/-- The requestor `id` was granted less recently than `id'`, or both never and it came first. -/
def Before (id id' : ℕ) : Prop :=
  s.lastGrant id < s.lastGrant id' ∨
    s.lastGrant id = s.lastGrant id' ∧ s.arrivals.idxOf id ≤ s.arrivals.idxOf id'

/-- The packet at `i` is the oldest one of the requestor to be granted next. -/
def Due (queue i : ℕ) : Prop :=
  ∃ id, ((s.queues queue)[i]?).bind QosPacket.req = some id ∧
    (∀ j < i, ((s.queues queue)[j]?).bind QosPacket.req ≠ some id) ∧
    ∀ pkt ∈ s.queues queue, ∀ id', pkt.req = some id' → s.Before id id'

/-- A selection from a queue that is not empty returns the packet that is due. -/
def Fair : Call → Prop
  | .select queue => s.queues queue ≠ [] → ∃ i s', s.step (.select queue) = .ok (some i, s') ∧
      s.Due queue i
  | _ => True

/-- Packets are selected from empty queues only. -/
def Idle : Call → Prop
  | .select queue => s.queues queue = []
  | _ => True

/-- The packets of a queue that one is selected from are of registered requestors. -/
def Known : Call → Prop
  | .select queue => ∀ pkt ∈ s.queues queue, ∃ id ∈ s.requestors, pkt.req = some id
  | _ => True

end LrgCtrl

end Gem5Nvm
