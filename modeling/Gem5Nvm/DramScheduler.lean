import Gem5Nvm.MemInterface

/-!
# The scheduler of the DRAM interface

The parameters of `DRAMInterface` of `mem/mem_interface.cc` that choosing a packet and closing a row
read, its `chooseNextFRFCFS` and `minBankPrep`, and how `doBurstAccess` decides whether to
close the row after a burst.  The queues hold the packets of both media; a `MemPacket*` is the
packet with its address.  The vectors over ranks and banks are functions.
-/

namespace Gem5Nvm

inductive PageManage
  | open_ | openAdaptive | close | closeAdaptive
  deriving DecidableEq, Repr

structure DramInterface extends MemInterface where
  tRCD : ℕ
  tRP : ℕ
  pageMgmt : PageManage
  maxAccessesPerRow : ℕ

/-- A `MemPacket*`. -/
structure MemPacketPtr extends MemPacket where
  ptr : ℕ
  deriving DecidableEq, Repr

/-- What the scheduler reads of a DRAM interface and its controller. -/
structure Dram where
  /-- The banks, by rank and place in the rank. -/
  banks : ℕ → ℕ → Bank
  /-- `inRefIdleState`, by rank. -/
  refIdle : ℕ → Bool
  /-- `inReadBusState(false)` of the controller. -/
  readBus : Bool
  curTick : ℕ

namespace Dram

variable (d : DramInterface) (s : Dram)

def burstReady (pkt : MemPacket) : Bool := s.refIdle pkt.rank

/-- The `bankId` that `decodePacket` gives a packet of this interface. -/
def bankId (pkt : MemPacket) : ℕ := u16 (d.banksPerRank * pkt.rank + pkt.bank)

def gotWaiting (queue : List MemPacketPtr) : ℕ → Bool :=
  queue.foldl (fun waiting p =>
    if p.dram && s.refIdle p.rank then Function.update waiting (bankId d p.toMemPacket) true
    else waiting) fun _ => false

/-- The variables of the search of `minBankPrep`. -/
structure BankPrep where
  minActAt : ℕ
  bankMask : ℕ → ℕ
  foundSeamlessBank : Bool
  hiddenBankPrep : Bool

/-- The search of `minBankPrep` at the bank `j` of the rank `i`. -/
def prepBank (waiting : ℕ → Bool) (minColAt : ℕ) (b : BankPrep) (i j : ℕ) : Sim BankPrep :=
  if waiting (u16 (i * d.banksPerRank + j)) then do
    assert (s.refIdle i) "ranks[i]->inRefIdleState()"
    let bank := s.banks i j
    let actAt := if bank.openRow = Bank.noRow then max bank.actAllowedAt s.curTick
      else u64 (max bank.preAllowedAt s.curTick + d.tRP)
    let colAllowedAt := if s.readBus then bank.rdAllowedAt else bank.wrAllowedAt
    let colAt := max colAllowedAt (u64 (actAt + d.tRCD))
    let newSeamlessBank := decide (colAt ≤ minColAt)
    return if newSeamlessBank || (!b.foundSeamlessBank && decide (actAt ≤ b.minActAt)) then
        let bankMask := if !b.foundSeamlessBank &&
            (newSeamlessBank || decide (actAt < b.minActAt)) then fun _ => 0 else b.bankMask
        { minActAt := actAt
          bankMask := Function.update bankMask i (u32 (bankMask i ||| 1 <<< j))
          foundSeamlessBank := b.foundSeamlessBank || newSeamlessBank
          hiddenBankPrep :=
            decide (actAt ≤ max (usub minColAt d.tRCD) s.curTick) }
      else b
  else .ok b

/-- The banks that may be opened first, and whether that can be hidden. -/
def minBankPrep (queue : List MemPacketPtr) (minColAt : ℕ) : Sim ((ℕ → ℕ) × Bool) := do
  let waiting := s.gotWaiting d queue
  let b ← (List.range d.ranksPerChannel).foldlM (fun b i =>
    (List.range d.banksPerRank).foldlM (fun b j => s.prepBank d waiting minColAt b i j) b)
    ⟨maxTick, fun _ => 0, false, false⟩
  return (b.bankMask, b.hiddenBankPrep)

/-- The variables of `chooseNextFRFCFS`. -/
structure Choice where
  earliestBanks : ℕ → ℕ
  filledEarliestBanks : Bool
  hiddenBankPrep : Bool
  foundHiddenBank : Bool
  foundPreppedPkt : Bool
  foundEarliestPkt : Bool
  selectedColAt : ℕ
  selectedPkt : Option MemPacketPtr

/-- A packet to a row that is not open: `minBankPrep` says whether its bank is among the first. -/
def considerClosed (queue : List MemPacketPtr) (minColAt : ℕ) (pkt : MemPacketPtr)
    (colAllowedAt : ℕ) (c : Choice) : Sim Choice := do
  let (earliestBanks, hiddenBankPrep) ← (if c.filledEarliestBanks
    then .ok (c.earliestBanks, c.hiddenBankPrep) else s.minBankPrep d queue minColAt)
  let c := { c with
    earliestBanks := earliestBanks, hiddenBankPrep := hiddenBankPrep, filledEarliestBanks := true }
  if 32 ≤ pkt.bank then .error (.undefined "val >> last")
  else if bits (c.earliestBanks pkt.rank) pkt.bank ≠ 0 then
    let c := { c with foundEarliestPkt := true, foundHiddenBank := c.hiddenBankPrep }
    return if c.hiddenBankPrep || !c.foundPreppedPkt then
        { c with selectedPkt := some pkt, selectedColAt := colAllowedAt }
      else c
  else return c

/-- What the scan does at a packet, and whether it stops there. -/
def consider (queue : List MemPacketPtr) (minColAt : ℕ) (pkt : MemPacketPtr) (c : Choice) :
    Sim (Bool × Choice) :=
  let bank := s.banks pkt.rank pkt.bank
  let colAllowedAt := if pkt.read then bank.rdAllowedAt else bank.wrAllowedAt
  if pkt.dram && s.burstReady pkt.toMemPacket then
    if bank.openRow = pkt.row then
      if colAllowedAt ≤ minColAt then
        .ok (true, { c with selectedPkt := some pkt, selectedColAt := colAllowedAt })
      else if !c.foundHiddenBank && !c.foundPreppedPkt then
        .ok (false, { c with
          selectedPkt := some pkt, selectedColAt := colAllowedAt, foundPreppedPkt := true })
      else .ok (false, c)
    else if !c.foundEarliestPkt then do
      return (false, ← s.considerClosed d queue minColAt pkt colAllowedAt c)
    else .ok (false, c)
  else .ok (false, c)

/-- The scan of `chooseNextFRFCFS` over the rest of the queue. -/
def chooseLoop (queue : List MemPacketPtr) (minColAt : ℕ) : List MemPacketPtr → Choice → Sim Choice
  | [], c => .ok c
  | pkt :: rest, c => do
    let (stop, c) ← s.consider d queue minColAt pkt c
    if stop then return c else chooseLoop queue minColAt rest c

/-- The packet selected, if there is one, and the tick it is allowed at. -/
def chooseNextFRFCFS (queue : List MemPacketPtr) (minColAt : ℕ) :
    Sim (Option MemPacketPtr × ℕ) := do
  let c ← s.chooseLoop d queue minColAt queue
    ⟨fun _ => 0, false, false, false, false, false, maxTick, none⟩
  return (c.selectedPkt, c.selectedColAt)

/-- A packet whose rank is not refreshing. -/
def ready (p : MemPacketPtr) : Bool := p.dram && s.refIdle p.rank

def rowHit (p : MemPacketPtr) : Bool :=
  s.ready p && decide ((s.banks p.rank p.bank).openRow = p.row)

def rowMiss (p : MemPacketPtr) : Bool :=
  s.ready p && !decide ((s.banks p.rank p.bank).openRow = p.row)

/-- The tick at which the column command of a packet is allowed. -/
def colTime (p : MemPacketPtr) : ℕ :=
  if p.read then (s.banks p.rank p.bank).rdAllowedAt else (s.banks p.rank p.bank).wrAllowedAt

/-- The tick at which a bank can be activated. -/
def actTime (i j : ℕ) : ℕ :=
  if (s.banks i j).openRow = Bank.noRow then max (s.banks i j).actAllowedAt s.curTick
  else max (s.banks i j).preAllowedAt s.curTick + d.tRP

/-- A burst to the bank can follow the last one without a gap, if the bank is activated first. -/
def seamless (minColAt i j : ℕ) : Bool :=
  decide (max (if s.readBus then (s.banks i j).rdAllowedAt else (s.banks i j).wrAllowedAt)
    (s.actTime d i j + d.tRCD) ≤ minColAt)

def waiting (queue : List MemPacketPtr) (i j : ℕ) : Bool :=
  queue.any fun p => s.ready p && (decide (p.rank = i) && decide (p.bank = j))

/-- The waiting banks that can issue seamlessly, or those that can be activated first if there are
none. -/
def bestBank (queue : List MemPacketPtr) (minColAt i j : ℕ) : Bool :=
  s.waiting queue i j && (s.seamless d minColAt i j || queue.all fun q => !s.ready q ||
    (!s.seamless d minColAt q.rank q.bank &&
      decide (s.actTime d i j ≤ s.actTime d q.rank q.bank)))

/-- Some waiting bank can be activated without a delay on the data bus. -/
def hidden (queue : List MemPacketPtr) (minColAt : ℕ) : Bool :=
  queue.any fun p => s.ready p &&
    decide (s.actTime d p.rank p.bank ≤ max (minColAt - d.tRCD) s.curTick)

/-- The packet to select, first come first served within what is preferred. -/
def frfcfs (queue : List MemPacketPtr) (minColAt : ℕ) : Option MemPacketPtr :=
  let hit := queue.find? s.rowHit
  let miss := queue.find? fun p => s.rowMiss p && s.bestBank d queue minColAt p.rank p.bank
  (queue.find? fun p => s.rowHit p && decide (s.colTime p ≤ minColAt)).or
    ((if s.hidden d queue minColAt then miss else none).or (hit.or miss))

/-- The times of the banks and their numbers fit in their types, and the packets go to banks that
exist. -/
structure InRange (queue : List MemPacketPtr) (minColAt : ℕ) : Prop where
  banks : d.banksPerRank ≤ 32
  ids : d.ranksPerChannel * d.banksPerRank ≤ 2 ^ 16
  decoded : ∀ p ∈ queue, p.dram = true → p.rank < d.ranksPerChannel ∧ p.bank < d.banksPerRank
  times : ∀ i j, s.actTime d i j + d.tRCD < 2 ^ 64
  col : d.tRCD ≤ minColAt
  tick : minColAt < 2 ^ 64

/-- The accesses to the row of a packet, once its burst has been counted. -/
def rowAccesses (pkt : MemPacket) : ℕ :=
  let bank := s.banks pkt.rank pkt.bank
  u32 ((if bank.openRow = pkt.row then bank.rowAccesses else 0) + 1)

def sameRankBank (memPkt p : MemPacketPtr) : Bool :=
  decide (memPkt.ptr ≠ p.ptr) && decide (memPkt.rank = p.rank) && decide (memPkt.bank = p.bank)

/-- The scan of `doBurstAccess` over a queue, for packets to the same bank: whether there is one to
the same row, and whether one to another row came before it. -/
def scanQueue (memPkt : MemPacketPtr) : List MemPacketPtr → Bool × Bool → Bool × Bool
  | [], found => found
  | p :: rest, (gotMoreHits, gotBankConflict) =>
    if gotMoreHits then (gotMoreHits, gotBankConflict)
    else
      let same := sameRankBank memPkt p
      let sameRow := decide (memPkt.row = p.row)
      scanQueue memPkt rest (same && sameRow, gotBankConflict || (same && !sameRow))

/-- The scan of `doBurstAccess` over the queues of all priorities. -/
def scanQueues (memPkt : MemPacketPtr) : List (List MemPacketPtr) → Bool × Bool → Bool × Bool
  | [], found => found
  | queue :: queues, found =>
    let found := scanQueue memPkt queue found
    if found.1 then found else scanQueues memPkt queues found

/-- The row is closed after the burst whatever is waiting. -/
def alwaysPrecharged (pkt : MemPacket) : Bool :=
  decide (d.pageMgmt = .close) || decide (s.rowAccesses pkt = d.maxAccessesPerRow)

/-- Whether `doBurstAccess` closes the row of the packet after its burst. -/
def autoPrecharge (memPkt : MemPacketPtr) (queues : List (List MemPacketPtr)) : Bool :=
  if !s.alwaysPrecharged d memPkt.toMemPacket &&
      (decide (d.pageMgmt = .openAdaptive) || decide (d.pageMgmt = .closeAdaptive)) then
    let (gotMoreHits, gotBankConflict) := scanQueues memPkt queues (false, false)
    !gotMoreHits && (gotBankConflict || decide (d.pageMgmt = .closeAdaptive))
  else s.alwaysPrecharged d memPkt.toMemPacket

def ofDram (queue : List MemPacketPtr) : List MemPacketPtr := queue.filter (·.dram)

/-- A packet of one of the queues that meets `p` and goes to the row of `memPkt`. -/
def Hit (memPkt : MemPacketPtr) (queues : List (List MemPacketPtr)) (p : MemPacketPtr → Prop) :
    Prop :=
  ∃ queue ∈ queues, ∃ q ∈ queue, p q ∧ sameRankBank memPkt q ∧ memPkt.row = q.row

/-- A packet of one of the queues that meets `p` and goes to another row of the bank. -/
def Conflict (memPkt : MemPacketPtr) (queues : List (List MemPacketPtr)) (p : MemPacketPtr → Prop) :
    Prop :=
  ∃ queue ∈ queues, ∃ q ∈ queue, p q ∧ sameRankBank memPkt q ∧ memPkt.row ≠ q.row

/-- No packet of the NVM matters for the row of `memPkt`: the queues are not asked, or a packet of
the DRAM keeps the row open, or those of the NVM with the same rank and bank numbers lead to what
those of the DRAM lead to anyway. -/
def Undisturbed (memPkt : MemPacketPtr) (queues : List (List MemPacketPtr)) : Prop :=
  d.pageMgmt = .open_ ∨ s.alwaysPrecharged d memPkt.toMemPacket ∨
    Hit memPkt queues (·.dram) ∨
    (Hit memPkt queues (!·.dram) ∧ d.pageMgmt = .openAdaptive ∧
      ¬ Conflict memPkt queues (·.dram)) ∨
    (¬ Hit memPkt queues (!·.dram) ∧ (Conflict memPkt queues (!·.dram) →
      d.pageMgmt = .closeAdaptive ∨ Conflict memPkt queues (·.dram)))

end Dram

end Gem5Nvm
