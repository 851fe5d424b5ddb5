import Gem5Nvm.Timing

/-!
# The queue of deferred packets

`PacketQueue` of `mem/packet_queue.cc`. What `sendTiming` does is up to the peer: it refuses the
packet, or accepts it and may call `schedSendTiming` again before it returns.
-/

namespace Gem5Nvm

structure QueuedPacket where
  id : ℕ
  addr : ℕ
  secure : Bool
  expressSnoop : Bool
  deriving DecidableEq, Repr

def QueuedPacket.matchAddr (p q : QueuedPacket) : Bool :=
  decide (p.addr = q.addr ∧ p.secure = q.secure)

structure DeferredPacket where
  tick : ℕ
  pkt : QueuedPacket
  deriving DecidableEq, Repr

structure PacketQueue where
  transmitList : List DeferredPacket
  sendEvent : Timer
  waitingOnRetry : Bool
  disableSanityCheck : Bool
  forceOrder : Bool
  drainState : DrainState
  deriving DecidableEq, Repr

/-- How `sendTiming` returns: false, or true after more packets have been scheduled. -/
inductive Reply
  | refuse
  | accept (scheduled : List DeferredPacket)

namespace PacketQueue

def new (forceOrder disableSanityCheck : Bool) : PacketQueue :=
  ⟨[], none, false, disableSanityCheck, forceOrder, .running⟩

def deferredPacketReady (q : PacketQueue) (curTick : ℕ) : Bool :=
  (q.transmitList.head?.map fun dp => decide (dp.tick ≤ curTick)).getD false

def deferredPacketReadyTime (q : PacketQueue) : ℕ :=
  (q.transmitList.head?.map DeferredPacket.tick).getD maxTick

def schedSendEvent (q : PacketQueue) (curTick when_ : ℕ) : Sim PacketQueue :=
  if q.waitingOnRetry then do
    assert q.sendEvent.isNone "!sendEvent.scheduled()"
    return q
  else if when_ ≠ maxTick then do
    let when_ := max when_ (u64 (curTick + 1))
    let event ← match q.sendEvent with
      | none => q.sendEvent.schedule curTick when_
      | some t => if when_ < t then q.sendEvent.reschedule curTick when_ else .ok q.sendEvent
    return { q with sendEvent := event }
  else if q.drainState = .draining ∧ q.transmitList = [] ∧ q.sendEvent = none then
    -- `signalDrainDone`
    .ok { q with drainState := .drained }
  else .ok q

def schedSendTiming (q : PacketQueue) (curTick : ℕ) (dp : DeferredPacket) : Sim PacketQueue := do
  assert (decide (dp.tick ≥ curTick)) "when >= curTick()"
  assert (!dp.pkt.expressSnoop) "!pkt->isExpressSnoop()"
  if ¬ q.disableSanityCheck ∧ q.transmitList.length > 128 then
    .error (.panic "Packet queue %s has grown beyond 128 packets\n")
  else
    -- searched from the end
    let (later, earlier) := q.transmitList.reverse.span fun d =>
      !((q.forceOrder && d.pkt.matchAddr dp.pkt) || decide (d.tick ≤ dp.tick))
    if earlier ≠ [] then
      .ok { q with transmitList := earlier.reverse ++ dp :: later.reverse }
    else
      schedSendEvent { q with transmitList := dp :: q.transmitList } curTick dp.tick

def sendDeferredPacket (q : PacketQueue) (curTick : ℕ) (reply : Reply) : Sim PacketQueue := do
  assert (!q.waitingOnRetry) "!waitingOnRetry"
  assert (q.deferredPacketReady curTick) "deferredPacketReady()"
  match q.transmitList with
  | [] => .error (.undefined "front of an empty list")
  | dp :: rest =>
    let q := { q with transmitList := rest }
    match reply with
    | .accept scheduled =>
      let q ← scheduled.foldlM (fun q dp => q.schedSendTiming curTick dp) q
      let q := { q with waitingOnRetry := false }
      q.schedSendEvent curTick q.deferredPacketReadyTime
    | .refuse => .ok { q with waitingOnRetry := true, transmitList := dp :: q.transmitList }

/-- `sendEvent`, which is no longer scheduled when it is processed. -/
def processSendEvent (q : PacketQueue) (curTick : ℕ) (reply : Reply) : Sim PacketQueue := do
  let q := { q with sendEvent := none }
  assert (!q.waitingOnRetry) "!waitingOnRetry"
  q.sendDeferredPacket curTick reply

def retry (q : PacketQueue) (curTick : ℕ) (reply : Reply) : Sim PacketQueue := do
  assert q.waitingOnRetry "waitingOnRetry"
  sendDeferredPacket { q with waitingOnRetry := false } curTick reply

/-- `drain()`, whose answer becomes the drain state. -/
def drain (q : PacketQueue) : PacketQueue :=
  { q with drainState := if q.transmitList = [] then .drained else .draining }

def drainResume (q : PacketQueue) : PacketQueue := { q with drainState := .running }

end PacketQueue

end Gem5Nvm
