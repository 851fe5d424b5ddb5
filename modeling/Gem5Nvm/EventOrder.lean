import Gem5Nvm.EventQueue
import Gem5Nvm.Lib.Bins
import Gem5Nvm.Lib.Chain

/-!
# The order of the event queue

What the queue is to hold after a sequence of calls is a log of the events inserted and not yet
taken out, the newest first.  The queue is `Ordered` when its links lead through the bins of this
log.
-/

namespace Gem5Nvm.EventQueue

open Bins Chain

def key (q : EventQueue) (e : EventPtr) : ℕ ×ₗ ℤ :=
  toLex ((q.event e).when_, (q.event e).priority)

/-- The queue holds the events `log`, which are the scheduled ones, each once.  The tops met on the
walk along `nextBin` are in increasing order, and the walk along `nextInBin` from each meets the
events of its key, the newest first.  No event is overdue. -/
structure Ordered (q : EventQueue) (log : List EventPtr) : Prop where
  nodup : log.Nodup
  scheduled : ∀ e, e ∈ log ↔ (q.event e).scheduled = true
  bins : ∃ bins : List (Bin EventPtr), Path q.nextBin q.head (bins.map Prod.fst) none ∧
    (∀ b ∈ bins, Path q.nextInBin (some b.1) (b.1 :: b.2) none) ∧ Binned q.key log bins
  due : ∀ e ∈ log, q.curTick ≤ (q.event e).when_

/-- What the assertions of a call ask for. -/
def CallPre (q : EventQueue) : Call → Prop
  | .schedule e when_ =>
    q.curTick ≤ when_ ∧ (q.event e).scheduled = false ∧ (q.event e).initialized = true
  | .deschedule e => (q.event e).scheduled = true ∧ (q.event e).initialized = true
  | .reschedule e when_ always =>
    q.curTick ≤ when_ ∧ (always = true ∨ (q.event e).scheduled = true) ∧
      (q.event e).initialized = true
  | .squash _ => True

/-- An event is served from a queue that is not empty, and its handler meets the assertions. -/
def OpPre (q : EventQueue) : Op → Prop
  | .call c => q.CallPre c
  | .serviceOne handler => ∃ e, q.head = some e ∧ ((q.event e).squashed = false →
      Run.Along call CallPre (q.dispatch e) handler ∧
        ((q.event e).isExitEvent = true →
          (q.event e).managed = false ∨ (q.event e).isMainQueue = false))

def logCall (log : List EventPtr) : Call → List EventPtr
  | .schedule e _ => e :: log
  | .deschedule e => log.erase e
  | .reschedule e _ _ => e :: log.erase e
  | .squash _ => log

/-- The log after an operation: serving takes out the event at the head. -/
def logOp (q : EventQueue) (log : List EventPtr) : Op → List EventPtr
  | .call c => logCall log c
  | .serviceOne handler =>
    match q.head with
    | none => log
    | some e =>
      if (q.event e).squashed then log.erase e else handler.foldl logCall (log.erase e)

/-- A step of the queue, with the log kept beside it. -/
def loggedStep (s : EventQueue × List EventPtr) (op : Op) :
    Sim (Option EventPtr × EventQueue × List EventPtr) := do
  let (r, q) ← s.1.step op
  return (r, q, logOp s.1 s.2 op)

/-- The operation returns, the time does not go backwards, and an event that is served has the
least key of those scheduled. -/
def InOrder (s : EventQueue × List EventPtr) (op : Op) : Prop :=
  (∃ r q, s.1.step op = .ok (r, q) ∧ q.Ordered (logOp s.1 s.2 op) ∧ s.1.curTick ≤ q.curTick) ∧
    ∀ handler, op = .serviceOne handler → ∃ e, s.1.head = some e ∧
      (s.1.event e).scheduled = true ∧
      ∀ x, (s.1.event x).scheduled = true → s.1.key e ≤ s.1.key x

end Gem5Nvm.EventQueue
