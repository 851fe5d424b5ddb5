import Gem5Nvm.Lib.Run
import Gem5Nvm.PacketQueue

/-!
# Packets in order

A run of a packet queue with its peer. `scheduled` and `sent` record the packets that
`schedSendTiming` was called with and those that `sendTiming` accepted, in that order; `owed` says
that the peer has refused a packet and not called `retry` since.
-/

namespace Gem5Nvm

/-- The packets a reply schedules are due before `MaxTick`. -/
def Reply.Timely : Reply → Prop
  | .refuse => True
  | .accept scheduled => ∀ dp ∈ scheduled, dp.tick < maxTick

namespace PacketQueue

structure Link where
  queue : PacketQueue
  curTick : ℕ
  owed : Bool
  scheduled : List DeferredPacket
  sent : List DeferredPacket

inductive Op
  | elapse (tick : ℕ)
  | schedSendTiming (dp : DeferredPacket)
  | sendEvent (reply : Reply)
  | retry (reply : Reply)
  | drain
  | drainResume

namespace Link

def start (forceOrder disableSanityCheck : Bool) : Link :=
  ⟨.new forceOrder disableSanityCheck, 0, false, [], []⟩

/-- The packets handed over when `sendTiming` returns. -/
def record (w : Link) (q : PacketQueue) : Reply → Link
  | .refuse => { w with queue := q, owed := true }
  | .accept scheduled =>
    { w with
      queue := q
      owed := false
      scheduled := w.scheduled ++ scheduled
      sent := w.sent ++ w.queue.transmitList.head?.toList }

def step (w : Link) : Op → Sim (Unit × Link)
  | .elapse tick => .ok ((), { w with curTick := tick })
  | .schedSendTiming dp => do
    let q ← w.queue.schedSendTiming w.curTick dp
    return ((), { w with queue := q, scheduled := w.scheduled ++ [dp] })
  | .sendEvent reply => do
    let w := { w with curTick := w.queue.sendEvent.getD w.curTick }
    let q ← w.queue.processSendEvent w.curTick reply
    return ((), w.record q reply)
  | .retry reply => do
    let q ← w.queue.retry w.curTick reply
    return ((), w.record q reply)
  | .drain => .ok ((), { w with queue := w.queue.drain })
  | .drainResume => .ok ((), { w with queue := w.queue.drainResume })

/-- Time goes on and passes no event, an event that is processed is scheduled, and a retry follows a
refusal. -/
def Legal (w : Link) : Op → Prop
  | .elapse tick => w.curTick ≤ tick ∧ tick < 2 ^ 64 ∧ ∀ e ∈ w.queue.sendEvent, tick ≤ e
  | .sendEvent _ => w.queue.sendEvent.isSome = true
  | .retry _ => w.owed = true
  | _ => True

/-- Packets are due, and time stands, before `MaxTick`. -/
def Timely (w : Link) : Op → Prop
  | .elapse tick => tick < maxTick
  | .schedSendTiming dp => dp.tick < maxTick
  | .sendEvent reply => reply.Timely ∧ ∀ e ∈ w.queue.sendEvent, e < maxTick
  | .retry reply => reply.Timely
  | _ => True

structure InOrder (w : Link) : Prop where
  /-- No packet is lost, and none is sent twice. -/
  perm : w.scheduled.Perm (w.sent ++ w.queue.transmitList)
  wake : w.queue.transmitList ≠ [] →
    w.queue.waitingOnRetry = true ∧ w.queue.sendEvent = none ∨ w.queue.sendEvent.isSome = true
  ticks : w.queue.forceOrder = false → (w.sent.map DeferredPacket.tick).Pairwise (· ≤ ·) ∧
    ∀ t, (w.sent.filter fun d => d.tick = t) <+: w.scheduled.filter fun d => d.tick = t
  addrs : w.queue.forceOrder = true → ∀ p : QueuedPacket,
    (w.sent.filter fun d => d.pkt.matchAddr p) <+: w.scheduled.filter fun d => d.pkt.matchAddr p

/-- No assertion fails but those on the arguments of `schedSendTiming`. -/
def AssertsHold (w : Link) (o : Op) : Prop :=
  ∀ msg, w.step o = .error (.assertion msg) →
    msg = "when >= curTick()" ∨ msg = "!pkt->isExpressSnoop()"

end Link

end PacketQueue

end Gem5Nvm
