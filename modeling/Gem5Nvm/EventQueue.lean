import Gem5Nvm.Base
import Gem5Nvm.Lib.Run

/-!
# The event queue

`EventQueue` of `sim/eventq.cc` in sequential mode: a list of bins linked by `nextBin`, each a
stack of events of equal time and priority linked by `nextInBin`.  The fields of the events are
maps from their addresses.  A handler is the list of the calls it makes.  Reference counts of
managed events are left out: an event that is deleted is not used again.
-/

namespace Gem5Nvm

abbrev EventPtr := Fin (2 ^ 64)

/-- An `Event`, its links apart.  `queued` says whether its `queue` is the queue at hand. -/
structure Event where
  when_ : ℕ
  priority : ℤ
  queued : Bool
  initialized : Bool
  scheduled : Bool
  squashed : Bool
  managed : Bool
  isExitEvent : Bool
  isMainQueue : Bool
  deriving DecidableEq, Repr

namespace Event

def lt (l r : Event) : Bool :=
  decide (l.when_ < r.when_ ∨ l.when_ = r.when_ ∧ l.priority < r.priority)

def le (l r : Event) : Bool :=
  decide (l.when_ < r.when_ ∨ l.when_ = r.when_ ∧ l.priority ≤ r.priority)

def eq (l r : Event) : Bool := decide (l.when_ = r.when_ ∧ l.priority = r.priority)

end Event

structure EventQueue where
  head : Option EventPtr
  curTick : ℕ
  nextBin : EventPtr → Option EventPtr
  nextInBin : EventPtr → Option EventPtr
  event : EventPtr → Event

namespace EventQueue

def setNextBin (q : EventQueue) (e : EventPtr) (p : Option EventPtr) : EventQueue :=
  { q with nextBin := Function.update q.nextBin e p }

def setNextInBin (q : EventQueue) (e : EventPtr) (p : Option EventPtr) : EventQueue :=
  { q with nextInBin := Function.update q.nextInBin e p }

def modify (q : EventQueue) (e : EventPtr) (f : Event → Event) : EventQueue :=
  { q with event := Function.update q.event e (f (q.event e)) }

/-- `Event::insertBefore`, which returns `event`. -/
def insertBefore (q : EventQueue) (event : EventPtr) : Option EventPtr → EventQueue
  | none => (q.setNextBin event none).setNextInBin event none
  | some curr =>
    if (q.event event).lt (q.event curr) then
      (q.setNextBin event (some curr)).setNextInBin event none
    else (q.setNextBin event (q.nextBin curr)).setNextInBin event (some curr)

/-- The loop of `insert` and `remove` that looks for the bin of `event`: `prev` and `curr`. -/
def seek (q : EventQueue) (event head : EventPtr) : Sim (EventPtr × Option EventPtr) :=
  whileSim
    (fun s => s.2.any fun curr => (q.event curr).lt (q.event event))
    (fun s => match s.2 with
      | some curr => .ok (curr, q.nextBin curr)
      | none => .error (.undefined "curr->nextBin"))
    (head, q.nextBin head)

def insert (q : EventQueue) (event : EventPtr) : Sim EventQueue :=
  match q.head with
  | none => .ok { q.insertBefore event none with head := some event }
  | some head =>
    if (q.event event).le (q.event head) then
      .ok { q.insertBefore event (some head) with head := some event }
    else do
      let (prev, curr) ← q.seek event head
      return (q.insertBefore event curr).setNextBin prev (some event)

/-- The loop of `removeItem` that looks for `event` under the top: `curr` and `next`. -/
def seekInBin (q : EventQueue) (event top : EventPtr) : Sim (EventPtr × Option EventPtr) :=
  whileSim
    (fun s => decide (s.2 ≠ some event))
    (fun s => match s.2 with
      | some next => .ok (next, q.nextInBin next)
      | none => .error (.panic "event not found!"))
    (top, q.nextInBin top)

/-- `Event::removeItem`: the new top, and the queue. -/
def removeItem (q : EventQueue) (event top : EventPtr) : Sim (Option EventPtr × EventQueue) :=
  if event = top then
    match q.nextInBin top with
    | none => .ok (q.nextBin top, q)
    | some next => .ok (some next, q.setNextBin next (q.nextBin top))
  else do
    let (curr, _) ← q.seekInBin event top
    return (some top, q.setNextInBin curr (q.nextInBin event))

def remove (q : EventQueue) (event : EventPtr) : Sim EventQueue :=
  match q.head with
  | none => .error (.panic "event not found!")
  | some head => do
    assert (q.event event).queued "event->queue == this"
    if (q.event head).eq (q.event event) then
      let (top, q) ← q.removeItem event head
      return { q with head := top }
    else
      let (prev, curr) ← q.seek event head
      match curr with
      | none => .error (.panic "event not found!")
      | some curr =>
        if (q.event curr).eq (q.event event) then
          let (top, q) ← q.removeItem event curr
          return q.setNextBin prev top
        else .error (.panic "event not found!")

def setWhen (q : EventQueue) (event : EventPtr) (when_ : ℕ) : EventQueue :=
  q.modify event fun e => { e with when_ := when_, queued := true }

def schedule (q : EventQueue) (event : EventPtr) (when_ : ℕ) : Sim EventQueue := do
  assert (decide (q.curTick ≤ when_)) "when >= getCurTick()"
  assert (!(q.event event).scheduled) "!event->scheduled()"
  assert (q.event event).initialized "event->initialized()"
  let q ← (q.setWhen event when_).insert event
  return q.modify event fun e => { e with scheduled := true }

def deschedule (q : EventQueue) (event : EventPtr) : Sim EventQueue := do
  assert (q.event event).scheduled "event->scheduled()"
  assert (q.event event).initialized "event->initialized()"
  let q ← q.remove event
  return q.modify event fun e => { e with squashed := false, scheduled := false }

def reschedule (q : EventQueue) (event : EventPtr) (when_ : ℕ) (always : Bool) :
    Sim EventQueue := do
  assert (decide (q.curTick ≤ when_)) "when >= getCurTick()"
  assert (always || (q.event event).scheduled) "always || event->scheduled()"
  assert (q.event event).initialized "event->initialized()"
  let q ← (if (q.event event).scheduled then q.remove event else .ok q)
  let q ← (q.setWhen event when_).insert event
  return q.modify event fun e => { e with squashed := false, scheduled := true }

/-- A call to the queue, or to `Event::squash`. -/
inductive Call
  | schedule (event : EventPtr) (when_ : ℕ)
  | deschedule (event : EventPtr)
  | reschedule (event : EventPtr) (when_ : ℕ) (always : Bool)
  | squash (event : EventPtr)

def call (q : EventQueue) : Call → Sim (Unit × EventQueue)
  | .schedule event when_ => do return ((), ← q.schedule event when_)
  | .deschedule event => do return ((), ← q.deschedule event)
  | .reschedule event when_ always => do return ((), ← q.reschedule event when_ always)
  | .squash event => .ok ((), q.modify event fun e => { e with squashed := true })

/-- The first part of `serviceOne`: the event at the head is unlinked, its flag cleared. -/
def pop (q : EventQueue) (event : EventPtr) : EventQueue :=
  let cleared := q.modify event fun e => { e with scheduled := false }
  match q.nextInBin event with
  | some next => { cleared.setNextBin next (q.nextBin event) with head := some next }
  | none => { cleared with head := q.nextBin event }

/-- The state in which the handler of the event at the head starts. -/
def dispatch (q : EventQueue) (event : EventPtr) : EventQueue :=
  { q.pop event with curTick := (q.event event).when_ }

/-- `serviceOne`, with the calls the handler makes; returns the event if it is an exit event. -/
def serviceOne (q : EventQueue) (handler : List Call) : Sim (Option EventPtr × EventQueue) :=
  match q.head with
  | none => .error (.undefined "head->nextInBin")
  | some event =>
    if (q.event event).squashed then
      .ok (none, (q.pop event).modify event fun e => { e with squashed := false })
    else do
      let (_, q') ← Run.run call (q.dispatch event) handler
      if (q.event event).isExitEvent then
        assert (!(q.event event).managed || !(q.event event).isMainQueue)
          "!event->flags.isSet(Event::Managed) || !event->flags.isSet(Event::IsMainQueue)"
        return (some event, q')
      else return (none, q')

inductive Op
  | call (c : Call)
  | serviceOne (handler : List Call)

def step (q : EventQueue) : Op → Sim (Option EventPtr × EventQueue)
  | .call c => do
    let (_, q) ← q.call c
    return (none, q)
  | .serviceOne handler => q.serviceOne handler

end EventQueue

end Gem5Nvm
