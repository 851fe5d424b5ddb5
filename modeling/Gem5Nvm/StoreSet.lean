import Gem5Nvm.Lib.Run
import Gem5Nvm.Base

/-!
# The store set predictor

`StoreSet` of `cpu/o3/store_set.cc`.  The SSIT maps the index of a program counter to a store set,
the LFST a store set to the last store fetched in it; `storeList` holds the stores inserted and
neither issued nor squashed, youngest first, each with the set it was inserted in.
-/

namespace Gem5Nvm

open Function (update)

/-- The predictor; a vector is the function of its entries, and each access asserts its bound. -/
structure StoreSet where
  clearPeriod : ℕ
  SSITSize : ℕ
  LFSTSize : ℕ
  SSIT : ℕ → ℕ
  validSSIT : ℕ → Bool
  LFST : ℕ → ℕ
  validLFST : ℕ → Bool
  storeList : List (ℕ × ℕ)
  memOpsPred : ℤ

namespace StoreSet

/-- `init`, which unlike the constructor takes sizes that are no powers of two. -/
def init (clearPeriod SSITSize LFSTSize : ℕ) : StoreSet where
  clearPeriod := clearPeriod
  SSITSize := SSITSize
  LFSTSize := LFSTSize
  SSIT := fun _ => 0
  validSSIT := fun _ => false
  LFST := fun _ => 0
  validLFST := fun _ => false
  storeList := []
  memOpsPred := 0

variable (s : StoreSet)

def calcIndex (pc : ℕ) : ℕ := (pc >>> 2) &&& (s.SSITSize - 1)

def calcSSID (pc : ℕ) : ℕ := (pc ^^^ (pc >>> 10)) % s.LFSTSize

/-- `SSIT[index] = ssid` and `validSSIT[index] = true`. -/
def setSSIT (index ssid : ℕ) : StoreSet :=
  { s with
    SSIT := update s.SSIT index ssid
    validSSIT := update s.validSSIT index true }

/-- Puts the store and the load in one set. -/
def violation (storePC loadPC : ℕ) : Sim StoreSet := do
  let loadIndex := s.calcIndex loadPC
  let storeIndex := s.calcIndex storePC
  assert (decide (loadIndex < s.SSITSize ∧ storeIndex < s.SSITSize))
    "load_index < SSITSize && store_index < SSITSize"
  match s.validSSIT loadIndex, s.validSSIT storeIndex with
  | false, false =>
    let newSet := s.calcSSID loadPC
    assert (decide (newSet < s.LFSTSize)) "new_set < LFSTSize"
    return (s.setSSIT loadIndex newSet).setSSIT storeIndex newSet
  | true, false =>
    let loadSSID := s.SSIT loadIndex
    assert (decide (loadSSID < s.LFSTSize)) "load_SSID < LFSTSize"
    return s.setSSIT storeIndex loadSSID
  | false, true => return s.setSSIT loadIndex (s.SSIT storeIndex)
  | true, true =>
    let loadSSID := s.SSIT loadIndex
    let storeSSID := s.SSIT storeIndex
    assert (decide (loadSSID < s.LFSTSize ∧ storeSSID < s.LFSTSize))
      "load_SSID < LFSTSize && store_SSID < LFSTSize"
    -- the store set with the lower number wins
    if storeSSID > loadSSID then
      return { s with SSIT := update s.SSIT storeIndex loadSSID }
    else
      return { s with SSIT := update s.SSIT loadIndex storeSSID }

/-- Forgets which entries are valid; the stores the LFST names stay in it. -/
def clear : StoreSet :=
  { s with validSSIT := fun _ => false, validLFST := fun _ => false, storeList := [] }

/-- Counts in an `int`, which the comparison takes as a `uint64_t`. -/
def checkClear : StoreSet :=
  let memOpsPred := toInt32 (s.memOpsPred + 1)
  if (memOpsPred % 2 ^ 64).toNat > s.clearPeriod then { s.clear with memOpsPred := 0 }
  else { s with memOpsPred := memOpsPred }

def insertLoad (_loadPC _loadSeqNum : ℕ) : StoreSet := s.checkClear

/-- `storeList[seqNum] = ssid`. -/
def setStore (seqNum ssid : ℕ) : List (ℕ × ℕ) → List (ℕ × ℕ)
  | [] => [(seqNum, ssid)]
  | e :: rest =>
    if e.1 < seqNum then (seqNum, ssid) :: e :: rest
    else if e.1 = seqNum then (seqNum, ssid) :: rest
    else e :: setStore seqNum ssid rest

def insertStore (storePC storeSeqNum : ℕ) : Sim StoreSet := do
  let index := s.calcIndex storePC
  let s := s.checkClear
  assert (decide (index < s.SSITSize)) "index < SSITSize"
  if s.validSSIT index then
    let storeSSID := s.SSIT index
    assert (decide (storeSSID < s.LFSTSize)) "store_SSID < LFSTSize"
    return { s with
      LFST := update s.LFST storeSSID storeSeqNum
      validLFST := update s.validLFST storeSSID true
      storeList := setStore storeSeqNum storeSSID s.storeList }
  else return s

/-- The store the instruction depends on, 0 if there is none. -/
def checkInst (pc : ℕ) : Sim ℕ := do
  let index := s.calcIndex pc
  assert (decide (index < s.SSITSize)) "index < SSITSize"
  if s.validSSIT index then
    let instSSID := s.SSIT index
    assert (decide (instSSID < s.LFSTSize)) "inst_SSID < LFSTSize"
    return if s.validLFST instSSID then s.LFST instSSID else 0
  else return 0

def issued (issuedPC issuedSeqNum : ℕ) (isStore : Bool) : Sim StoreSet :=
  if isStore then do
    let index := s.calcIndex issuedPC
    assert (decide (index < s.SSITSize)) "index < SSITSize"
    let s := { s with storeList := s.storeList.filter fun e => e.1 ≠ issuedSeqNum }
    if s.validSSIT index then
      let storeSSID := s.SSIT index
      assert (decide (storeSSID < s.LFSTSize)) "store_SSID < LFSTSize"
      if s.validLFST storeSSID ∧ s.LFST storeSSID = issuedSeqNum then
        return { s with validLFST := update s.validLFST storeSSID false }
      else return s
    else return s
  else return s

/-- The loop of `squash` on what is left of `storeList` and on `validLFST`. -/
def squashLoop (squashedNum : ℕ) (LFST : ℕ → ℕ) :
    List (ℕ × ℕ) → (ℕ → Bool) → Sim (List (ℕ × ℕ) × (ℕ → Bool))
  | [], validLFST => .ok ([], validLFST)
  | (seqNum, idx) :: rest, validLFST =>
    if seqNum ≤ squashedNum then .ok ((seqNum, idx) :: rest, validLFST)
    else
      let younger := decide (LFST idx > squashedNum)
      if validLFST idx && younger then
        squashLoop squashedNum LFST rest (update validLFST idx false)
      else if !validLFST idx && younger then squashLoop squashedNum LFST rest validLFST
      -- neither the iterator nor the list has changed: all further rounds are the same
      else .error .diverges

def squash (squashedNum : ℕ) : Sim StoreSet := do
  let (storeList, validLFST) ← squashLoop squashedNum s.LFST s.storeList s.validLFST
  return { s with storeList := storeList, validLFST := validLFST }

inductive Call
  | violation (storePC loadPC : ℕ)
  | insertLoad (pc seqNum : ℕ)
  | insertStore (pc seqNum : ℕ)
  | issued (pc seqNum : ℕ) (isStore : Bool)
  | squash (squashedNum : ℕ)
  deriving DecidableEq, Repr

/-- The sequence number of a store that is inserted. -/
def Call.storeSeqNum : Call → Option ℕ
  | .insertStore _ seqNum => some seqNum
  | _ => none

def step : Call → Sim (Unit × StoreSet)
  | .violation storePC loadPC => return ((), ← s.violation storePC loadPC)
  | .insertLoad pc seqNum => return ((), s.insertLoad pc seqNum)
  | .insertStore pc seqNum => return ((), ← s.insertStore pc seqNum)
  | .issued pc seqNum isStore => return ((), ← s.issued pc seqNum isStore)
  | .squash squashedNum => return ((), ← s.squash squashedNum)

/-- Stores are inserted in the order of their sequence numbers. -/
def InOrder (calls : List Call) : Prop := (calls.filterMap Call.storeSeqNum).Pairwise (· < ·)

/-- Every set some program counter is in, and whose last fetched store is younger than `n`, has a
store younger than `n` that is not issued. -/
def Pending (n : ℕ) : Prop :=
  ∀ pc, s.validSSIT (s.calcIndex pc) → s.validLFST (s.SSIT (s.calcIndex pc)) →
    n < s.LFST (s.SSIT (s.calcIndex pc)) →
      ∃ e ∈ s.storeList, e.2 = s.SSIT (s.calcIndex pc) ∧ n < e.1

/-- A store that is issued while it is the last one fetched in a set is still in that set: no
violation has moved its program counter to another one since it was inserted. -/
def OwnSet : Call → Prop
  | .issued pc seqNum true => ∀ i, s.validLFST i → s.LFST i = seqNum →
      s.validSSIT (s.calcIndex pc) ∧ s.SSIT (s.calcIndex pc) = i
  | _ => True

end StoreSet

end Gem5Nvm
