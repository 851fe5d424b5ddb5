import Gem5Nvm.Base

/-!
# Ticks, and events seen from their owner

An object keeps its events as the ticks they are scheduled at. `schedule` and `reschedule` are
those of `sim/eventq.hh` without the order among different events.
-/

namespace Gem5Nvm

def maxTick : ℕ := 2 ^ 64 - 1

/-- An event, by the tick it is scheduled at. -/
abbrev Timer := Option ℕ

namespace Timer

def schedule (event : Timer) (curTick when_ : ℕ) : Sim Timer := do
  assert (decide (when_ ≥ curTick)) "when >= getCurTick()"
  assert event.isNone "!event->scheduled()"
  return some when_

def reschedule (event : Timer) (curTick when_ : ℕ) : Sim Timer := do
  assert (decide (when_ ≥ curTick)) "when >= getCurTick()"
  assert event.isSome "always || event->scheduled()"
  return some when_

variable {event event' : Timer} {cur w : ℕ}

theorem schedule_ok (h : cur ≤ w) : schedule none cur w = .ok (some w) := by
  simp [schedule, assert, h]

theorem reschedule_ok {t : ℕ} (h : cur ≤ w) : reschedule (some t) cur w = .ok (some w) := by
  simp [reschedule, assert, h]

end Timer

inductive DrainState
  | running
  | draining
  | drained
  | resuming
  deriving DecidableEq, Repr

end Gem5Nvm
