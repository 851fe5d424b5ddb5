import Gem5Nvm.Base

/-!
# The command bus

The controller counts the commands of each window of `commandWindow` ticks in the multiset
`burstTicks`, here a list, by the tick the window starts at. `verifySingleCmd` and `verifyMultiCmd`
of `mem/mem_ctrl.cc` put a command off to a window with room.
-/

namespace Gem5Nvm.CommandWindow

def pruneBurstTick (curTick : ℕ) (burstTicks : List ℕ) : List ℕ :=
  burstTicks.filter fun t => decide (curTick ≤ t)

def getBurstWindow (commandWindow cmdTick : ℕ) : Sim ℕ :=
  if commandWindow = 0 then .error (.undefined "cmd_tick % commandWindow")
  else .ok (cmdTick - cmdTick % commandWindow)

/-- Where the search for a window stands. -/
structure Slot where
  burstTick : ℕ
  cmdAt : ℕ
  deriving DecidableEq, Repr

def Slot.next (commandWindow : ℕ) (s : Slot) : Slot :=
  let burstTick := u64 (s.burstTick + commandWindow)
  ⟨burstTick, burstTick⟩

/-- The tick of a command, and the commands with it. -/
def verifySingleCmd (commandWindow : ℕ) (burstTicks : List ℕ) (cmdTick maxCmdsPerBurst : ℕ) :
    Sim (ℕ × List ℕ) := do
  let burstTick ← getBurstWindow commandWindow cmdTick
  let s ← whileSim (fun s : Slot => decide (burstTicks.count s.burstTick ≥ maxCmdsPerBurst))
    (fun s => .ok (s.next commandWindow)) ⟨burstTick, cmdTick⟩
  return (s.cmdAt, s.burstTick :: burstTicks)

/-- The search for the windows of two commands. -/
structure SlotPair extends Slot where
  firstCmdTick : ℕ
  firstCanIssue : Bool
  secondCanIssue : Bool
  deriving DecidableEq, Repr

/-- A round of the search of `verifyMultiCmd`. -/
def SlotPair.next (commandWindow : ℕ) (burstTicks : List ℕ) (maxCmdsPerBurst maxMultiCmdSplit : ℕ)
    (s : SlotPair) : SlotPair :=
  let sameBurst := decide (s.burstTick = s.firstCmdTick)
  let firstCmdCount := burstTicks.count s.firstCmdTick
  let secondCmdCount := if sameBurst then firstCmdCount + 1 else burstTicks.count s.burstTick
  let firstCanIssue := decide (firstCmdCount < maxCmdsPerBurst)
  let secondCanIssue := decide (secondCmdCount < maxCmdsPerBurst)
  let slot := if secondCanIssue then s.toSlot else s.toSlot.next commandWindow
  let gapViolated := !sameBurst && decide (usub slot.burstTick s.firstCmdTick > maxMultiCmdSplit)
  let firstCmdTick := if !firstCanIssue || (!secondCanIssue && gapViolated)
    then u64 (s.firstCmdTick + commandWindow) else s.firstCmdTick
  ⟨slot, firstCmdTick, firstCanIssue, secondCanIssue⟩

/-- The tick of the second of two commands, and the commands with both. -/
def verifyMultiCmd (commandWindow : ℕ) (burstTicks : List ℕ)
    (cmdTick maxCmdsPerBurst maxMultiCmdSplit : ℕ) : Sim (ℕ × List ℕ) := do
  let burstTick ← getBurstWindow commandWindow cmdTick
  let firstCmdOffset := cmdTick % commandWindow
  let burstOffset ← whileSim (fun b => decide (maxMultiCmdSplit > u64 (firstCmdOffset + b)))
    (fun b => .ok (u64 (b + commandWindow))) 0
  -- the first command is not put before tick 0
  let firstCmdTick := burstTick - min burstOffset burstTick
  -- as many rounds as there are pairs of ticks
  let s ← Loop.whileLoop .diverges (fun s : SlotPair => !s.firstCanIssue || !s.secondCanIssue)
    (fun s => .ok (s.next commandWindow burstTicks maxCmdsPerBurst maxMultiCmdSplit))
    (maxRounds * maxRounds) ⟨⟨burstTick, cmdTick⟩, firstCmdTick, false, false⟩
  return (s.cmdAt, s.firstCmdTick :: s.burstTick :: burstTicks)

section Spec

variable (commandWindow : ℕ) (burstTicks : List ℕ) (cmdTick maxCmdsPerBurst : ℕ)

/-- No window has more than `maxCmdsPerBurst` commands. -/
def Within : Prop := ∀ t, burstTicks.count t ≤ maxCmdsPerBurst

/-- From that of the command on, a window with room for it starts before the ticks end. -/
def HasRoom : Prop :=
  ∃ k, cmdTick / commandWindow ≤ k ∧ k * commandWindow < 2 ^ 64 ∧
    burstTicks.count (k * commandWindow) < maxCmdsPerBurst

/-- From that of the command on, a window with room for two commands, or two windows in a row with
room for one each, start before the ticks end. -/
def HasRoomForTwo : Prop :=
  ∃ k, cmdTick / commandWindow ≤ k ∧
    (k * commandWindow < 2 ^ 64 ∧ burstTicks.count (k * commandWindow) + 1 < maxCmdsPerBurst ∨
      (k + 1) * commandWindow < 2 ^ 64 ∧ burstTicks.count (k * commandWindow) < maxCmdsPerBurst ∧
        burstTicks.count ((k + 1) * commandWindow) < maxCmdsPerBurst)

/-- Some number of windows reaches as far back as the commands may be apart. -/
def SplitFits (maxMultiCmdSplit : ℕ) : Prop :=
  ∃ k, maxMultiCmdSplit ≤ cmdTick % commandWindow + k * commandWindow ∧
    cmdTick % commandWindow + k * commandWindow < 2 ^ 64

end Spec

end Gem5Nvm.CommandWindow
