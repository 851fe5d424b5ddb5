import Gem5Nvm.Base

/-!
# The indirect branch predictor

`SimpleIndirectPredictor` of `cpu/pred/simple_indirect.cc` for one thread, under the calls that
`BPredUnit` makes. Targets are their instruction addresses; what the other predictors say is an
argument.
-/

namespace Gem5Nvm.IndirectPredictor

structure Params where
  hashGHR : Bool
  hashTargets : Bool
  numSets : ℕ
  numWays : ℕ
  tagBits : ℕ
  pathLength : ℕ
  instShift : ℕ
  ghrNumBits : ℕ

structure HistoryEntry where
  pcAddr : ℕ
  targetAddr : ℕ
  seqNum : ℕ

structure IPredEntry where
  tag : ℕ := 0
  target : ℕ := 0

/-- What `BPredUnit` keeps of a branch: the GHR before it and, for one that was indirect, the set
searched for its target. -/
structure PredictorHistory where
  seqNum : ℕ
  pc : ℕ
  indirectHistory : ℕ
  searched : Option ℕ

def PredictorHistory.wasIndirect (r : PredictorHistory) : Bool := r.searched.isSome

/-- The predictor, and the branches that have not left `BPredUnit`, oldest first. -/
structure Predictor where
  targetCache : ℕ → List IPredEntry
  pathHist : List HistoryEntry := []
  headHistEntry : ℕ := 0
  ghr : ℕ := 0
  predHist : List PredictorHistory := []

variable (p : Params) (s : Predictor)

def Predictor.new : Sim Predictor := do
  panicIf (¬ ∃ k < 32, p.numSets = 2 ^ k) "Indirect predictor requires power of 2 number of sets"
  fatalIf (p.ghrNumBits > 32) "ghr_size is too big"
  return { targetCache := fun _ => List.replicate p.numWays {} }

def getSetIndex (pathHist : List HistoryEntry) (brAddr ghr : ℕ) : Sim ℕ := do
  let hash := brAddr >>> p.instShift
  let hash := if p.hashGHR then hash ^^^ ghr else hash
  if p.hashTargets then
    if p.pathLength = 0 then .error (.undefined "floorLog2(numSets) / pathLength")
    else
      let hashShift := Nat.log2 p.numSets / p.pathLength
      let hash := (pathHist.reverse.take p.pathLength).zipIdx.foldl (fun hash e =>
        hash ^^^ (e.1.targetAddr >>> (p.instShift + e.2 * hashShift))) hash
      return hash &&& (p.numSets - 1)
  else return hash &&& (p.numSets - 1)

def getTag (brAddr : ℕ) : ℕ := (brAddr >>> p.instShift) &&& (2 ^ p.tagBits - 1)

namespace Predictor

def updateDirectionInfo (actuallyTaken : Bool) : Predictor :=
  { s with ghr := (s.ghr <<< 1 ||| actuallyTaken.toNat) &&& (2 ^ p.ghrNumBits - 1) }

def changeDirectionPrediction (previousGhr : ℕ) (actuallyTaken : Bool) : Predictor :=
  { s with ghr := (previousGhr <<< 1 + actuallyTaken.toNat) &&& (2 ^ p.ghrNumBits - 1) }

/-- The set that is searched, and the target found in it. -/
def lookup (brAddr : ℕ) : Sim (ℕ × Option ℕ) := do
  let setIndex ← getSetIndex p s.pathHist brAddr s.ghr
  assert (setIndex < p.numSets) "set_index < numSets"
  return (setIndex, ((s.targetCache setIndex).find? (·.tag = getTag p brAddr)).map (·.target))

def recordIndirect (brAddr tgtAddr seqNum : ℕ) : Predictor :=
  { s with pathHist := s.pathHist ++ [⟨brAddr, tgtAddr, seqNum⟩] }

def commit (seqNum : ℕ) : Predictor :=
  match s.pathHist[s.headHistEntry]? with
  | some e =>
    if e.seqNum ≤ seqNum then
      if s.headHistEntry ≥ p.pathLength then { s with pathHist := s.pathHist.tail }
      else { s with headHistEntry := s.headHistEntry + 1 }
    else s
  | none => s

/-- The set is the one the last branch of the history is filed in; `rand` is what the generator
gives. -/
def recordTarget (ghr target rand : ℕ) : Sim (ℕ × Predictor) :=
  match s.pathHist.getLast? with
  | none => .error (.undefined "*(t_info.pathHist.rbegin())")
  | some e => do
    let setIndex ← getSetIndex p s.pathHist.dropLast e.pcAddr ghr
    let tag := getTag p e.pcAddr
    let s := { s with pathHist := s.pathHist.dropLast ++ [{ e with targetAddr := target }] }
    assert (setIndex < p.numSets) "set_index < numSets"
    let iset := s.targetCache setIndex
    let write way := { s with
      targetCache := Function.update s.targetCache setIndex (iset.set way ⟨tag, target⟩) }
    match iset.findIdx? (·.tag = tag) with
    | some way => return (setIndex, write way)
    | none =>
      if p.numWays = 0 then .error (.undefined "rand() % numWays")
      else return (setIndex, write (rand % p.numWays))

/-- `indirect` for a branch that is neither direct nor a return; `next` is the address after it. -/
def predict (seqNum pc next : ℕ) (predTaken indirect : Bool) : Sim Predictor := do
  let finish (s : Predictor) (searched : Option ℕ) : Predictor :=
    { s.updateDirectionInfo p predTaken with
      predHist := s.predHist ++ [⟨seqNum, pc, s.ghr, searched⟩] }
  if predTaken && indirect then
    let (setIndex, target) ← s.lookup p pc
    return finish (s.recordIndirect pc (target.getD next) seqNum) (some setIndex)
  else return finish s none

def update (doneSn : ℕ) : Predictor :=
  let done := s.predHist.takeWhile (·.seqNum ≤ doneSn)
  { done.foldl (fun s _ => s.commit p doneSn) s with
    predHist := s.predHist.dropWhile (·.seqNum ≤ doneSn) }

/-- Each branch that goes restores the GHR, the youngest first. -/
def squash (squashedSn : ℕ) : Predictor :=
  { s with
    pathHist := s.pathHist.takeWhile (¬ ·.seqNum > squashedSn)
    ghr := (s.predHist.rtakeWhile (·.seqNum > squashedSn)).foldr (fun r _ => r.indirectHistory)
      s.ghr
    predHist := s.predHist.rdropWhile (·.seqNum > squashedSn) }

/-- `squash` of a branch with its target, with the set that `recordTarget` has written. -/
def correct (squashedSn corrTarget : ℕ) (actuallyTaken : Bool) (rand : ℕ) :
    Sim (Option ℕ × Predictor) :=
  let s := s.squash squashedSn
  match s.predHist.getLast? with
  | none => .ok (none, s)
  | some r => do
    assert (r.seqNum = squashedSn) "pred_hist.front().seqNum == squashed_sn"
    let s := s.changeDirectionPrediction p r.indirectHistory actuallyTaken
    if actuallyTaken && r.wasIndirect then
      let (setIndex, s) ← s.recordTarget p r.indirectHistory corrTarget rand
      return (some setIndex, s)
    else return (none, s)

end Predictor

/-- What a sequence of calls leaves, with sequence numbers that grow. -/
inductive Reachable : Predictor → Prop
  | new {s : Predictor} (hok : Predictor.new p = .ok s) : Reachable s
  | predict {s s' : Predictor} {seqNum pc next predTaken indirect} (h : Reachable s)
    (hpath : ∀ e ∈ s.pathHist, e.seqNum < seqNum) (hpred : ∀ r ∈ s.predHist, r.seqNum < seqNum)
    (hok : s.predict p seqNum pc next predTaken indirect = .ok s') : Reachable s'
  | update {s : Predictor} (h : Reachable s) (doneSn : ℕ) : Reachable (s.update p doneSn)
  | squash {s : Predictor} (h : Reachable s) (squashedSn : ℕ) : Reachable (s.squash squashedSn)
  | correct {s s' : Predictor} {squashedSn corrTarget actuallyTaken rand out} (h : Reachable s)
    (hok : s.correct p squashedSn corrTarget actuallyTaken rand = .ok (out, s')) : Reachable s'

end Gem5Nvm.IndirectPredictor
