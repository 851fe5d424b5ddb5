import Gem5Nvm.MemCmd
import Gem5Nvm.Timing
import Gem5Nvm.Lib.Run

/-!
# Miss status holding registers

`MSHR` of `mem/cache/mshr.hh`: the list of targets a miss serves, the list of targets put off until
after its response, and the flags that sum a list up.

A packet is known by its `id`. The `MSHR` that `findNextSenderState` finds on its stack is one of
a cache above; what this one reads and writes of it is the flag `downstreamPending`, kept in the
packet as `upstream`. The data of a packet are left out.
-/

namespace Gem5Nvm

/-- A packet as an `MSHR` sees it. -/
structure MissPacket where
  id : ℕ
  cmd : MemCmd
  addr : ℕ
  size : ℕ
  isSecure : Bool := false
  req : RequestFlags := {}
  expressSnoop : Bool := false
  cacheResponding : Bool := false
  responderHadWritable : Bool := false
  hasSharers : Bool := false
  satisfied : Bool := false
  upstream : Option Bool := none
  deriving DecidableEq, Repr

namespace MissPacket

def getOffset (pkt : MissPacket) (blkSize : ℕ) : ℕ := pkt.addr &&& (blkSize - 1)

def getBlockAddr (pkt : MissPacket) (blkSize : ℕ) : ℕ := pkt.addr - pkt.getOffset blkSize

def matchBlockAddr (pkt other : MissPacket) (blkSize : ℕ) : Bool :=
  pkt.getBlockAddr blkSize == other.getBlockAddr blkSize && pkt.isSecure == other.isSecure

def needsWritable (pkt : MissPacket) : Sim Bool := do
  assert pkt.cmd.isRequest "isRequest()"
  return pkt.cmd.needsWritable

def hasRespData (pkt : MissPacket) : Bool := pkt.cmd.responseCommand.hasData

def setCacheResponding (pkt : MissPacket) : Sim MissPacket := do
  assert pkt.cmd.isRequest "isRequest()"
  assert (!pkt.cacheResponding) "!flags.isSet(CACHE_RESPONDING)"
  return { pkt with cacheResponding := true }

def setResponderHadWritable (pkt : MissPacket) : Sim MissPacket := do
  assert pkt.cacheResponding "cacheResponding()"
  assert (!pkt.responderHadWritable) "!responderHadWritable()"
  return { pkt with responderHadWritable := true }

def setSatisfied (pkt : MissPacket) : Sim MissPacket := do
  assert pkt.cmd.isClean "cmd.isClean()"
  assert (!pkt.satisfied) "!flags.isSet(SATISFIED)"
  return { pkt with satisfied := true }

/-- `Packet(pkt, true, true)`, the copy with its flags cleared. -/
def copy (pkt : MissPacket) : MissPacket :=
  { pkt with expressSnoop := false, cacheResponding := false, responderHadWritable := false,
             hasSharers := false, satisfied := false }

/-- `Packet(req, cmd, blkSize, id)`, the packet of a whole block. -/
def ofBlock (pkt : MissPacket) (blkSize : ℕ) : MissPacket :=
  { id := pkt.id, cmd := pkt.cmd, addr := pkt.getBlockAddr blkSize, size := blkSize,
    isSecure := pkt.req.secure, req := pkt.req }

/-- The flags that keep a write from being merged with others. -/
def noMergeFlags (pkt : MissPacket) : Bool :=
  pkt.req.uncacheable || pkt.req.strictOrder || pkt.req.privileged || pkt.req.llsc ||
    pkt.req.memSwap || pkt.req.memSwapCond || pkt.req.secure

end MissPacket

inductive Source
  | fromCPU
  | fromSnoop
  | fromPrefetcher
  deriving DecidableEq, Repr

structure Target where
  pkt : MissPacket
  readyTime : ℕ
  order : ℕ
  source : Source
  markedPending : Bool
  allocOnFill : Bool
  deriving DecidableEq, Repr

structure TargetList where
  items : List Target := []
  needsWritable : Bool := false
  hasUpgrade : Bool := false
  allocOnFill : Bool := false
  hasFromCache : Bool := false
  canMergeWrites : Bool := true
  writesBitmap : List Bool := []
  blkAddr : ℕ := 0
  blkSize : ℕ := 0
  deriving DecidableEq, Repr

/-- `pkt->isUpgrade() || pkt->cmd == MemCmd::StoreCondReq`. -/
def MissPacket.isUpgrade (pkt : MissPacket) : Bool :=
  pkt.cmd.isUpgrade || pkt.cmd == .storeCondReq

namespace TargetList

def resetFlags (l : TargetList) : TargetList :=
  { l with canMergeWrites := true, writesBitmap := l.writesBitmap.map fun _ => false,
           needsWritable := false, hasUpgrade := false, allocOnFill := false,
           hasFromCache := false }

def init (l : TargetList) (blkAddr blkSize : ℕ) : TargetList :=
  resetFlags
    { l with blkAddr, blkSize,
             writesBitmap := l.writesBitmap.takeD blkSize false }

def isReset (l : TargetList) : Bool :=
  !l.needsWritable && !l.hasUpgrade && !l.allocOnFill && !l.hasFromCache && l.canMergeWrites

def isWholeLineWrite (l : TargetList) : Bool := l.writesBitmap.all id

/-- `std::fill` of `n` places of the bitmap, from `offset` on. -/
def fill (bitmap : List Bool) (offset n : ℕ) : Sim (List Bool) :=
  if offset + n ≤ bitmap.length then
    .ok (bitmap.take offset ++ List.replicate n true ++ bitmap.drop (offset + n))
  else .error (.undefined "a write past the end of writesBitmap")

def markWrite (l : TargetList) (pkt : MissPacket) : Sim TargetList := do
  let bitmap ← fill l.writesBitmap (pkt.getOffset l.blkSize) pkt.size
  return { l with writesBitmap := bitmap }

def mergeWrite (l : TargetList) (pkt : MissPacket) (compatWrite : Bool) : Sim TargetList :=
  -- the first write is marked even if no other may be merged with it
  if l.items.isEmpty || compatWrite then l.markWrite pkt else .ok l

def updateWriteFlags (l : TargetList) (pkt : MissPacket) : Sim TargetList :=
  if l.isWholeLineWrite then .ok l
  else if l.canMergeWrites then
    if !pkt.cmd.isWrite then .ok { l with canMergeWrites := false }
    else do
      let compatWrite := !pkt.noMergeFlags
      let l ← l.mergeWrite pkt compatWrite
      return { l with canMergeWrites := l.canMergeWrites && compatWrite }
  else .ok l

def updateFlags (l : TargetList) (pkt : MissPacket) (source : Source) (allocOnFill : Bool) :
    Sim TargetList :=
  if source = .fromSnoop then .ok l
  else do
    let needsWritable ← pkt.needsWritable
    let l := { l with needsWritable := l.needsWritable || needsWritable
                      hasUpgrade := l.hasUpgrade || pkt.isUpgrade
                      allocOnFill := l.allocOnFill || allocOnFill }
    if source = .fromPrefetcher then return l
    else
      updateWriteFlags { l with hasFromCache := l.hasFromCache || pkt.cmd.fromCache } pkt

/-- The round of `populateFlags` for one target. -/
def updateFor (l : TargetList) (t : Target) : Sim TargetList :=
  l.updateFlags t.pkt t.source t.allocOnFill

def populateFlags (l : TargetList) : Sim TargetList := l.items.foldlM updateFor l.resetFlags

/-- What `add` does to the `MSHR` above the packet, and whether it is marked. -/
def markUpstream (pkt : MissPacket) (markPending : Bool) : Sim (MissPacket × Bool) :=
  match markPending, pkt.upstream with
  | true, some downstreamPending => do
    assert (!downstreamPending) "!mshr->downstreamPending"
    return ({ pkt with upstream := some true }, true)
  | _, _ => .ok (pkt, false)

def add (l : TargetList) (pkt : MissPacket) (readyTime order : ℕ) (source : Source)
    (markPending allocOnFill : Bool) : Sim TargetList := do
  let l ← l.updateFlags pkt source allocOnFill
  let (pkt, markedPending) ← markUpstream pkt markPending
  let target := { pkt, readyTime, order, source, markedPending, allocOnFill }
  return { l with items := l.items ++ [target] }

def front (l : TargetList) : Sim Target :=
  match l.items with
  | t :: _ => .ok t
  | [] => .error (.undefined "front() of an empty list")

end TargetList

/-- The command `replaceUpgrade` gives a packet. -/
def MemCmd.replaceUpgrade : MemCmd → MemCmd
  | .upgradeReq => .readExReq
  | .scUpgradeReq => .scUpgradeFailReq
  | .storeCondReq => .storeCondFailReq
  | cmd => cmd

def replaceUpgrade (pkt : MissPacket) : Sim MissPacket := do
  let pkt' := { pkt with cmd := pkt.cmd.replaceUpgrade }
  -- a packet without data must not become one that carries some
  assert (pkt.cmd.hasData || pkt.hasRespData || !pkt'.cmd.hasData) "!pkt->hasData()"
  return pkt'

namespace Target

def replaceUpgrade (t : Target) : Sim Target := do
  let pkt ← Gem5Nvm.replaceUpgrade t.pkt
  return { t with pkt }

def clearDownstreamPending (t : Target) : Sim Target :=
  match t.markedPending, t.pkt.upstream with
  | true, some downstreamPending => do
    assert downstreamPending "downstreamPending"
    return { t with pkt := { t.pkt with upstream := some false }, markedPending := false }
  | _, _ => .ok { t with markedPending := false }

end Target

namespace TargetList

def replaceUpgrades (l : TargetList) : Sim TargetList :=
  if !l.hasUpgrade then .ok l
  else do
    let items ← l.items.mapM Target.replaceUpgrade
    return { l with items, hasUpgrade := false }

def clearDownstreamPending (l : TargetList) : Sim TargetList := do
  let items ← l.items.mapM Target.clearDownstreamPending
  return { l with items }

end TargetList

/-- `MSHR`, with the fields of `QueueEntry`. -/
structure Mshr where
  blkAddr : ℕ := 0
  blkSize : ℕ := 0
  isSecure : Bool := false
  readyTime : ℕ := 0
  order : ℕ := 0
  isUncacheable : Bool := false
  inService : Bool := false
  downstreamPending : Bool := false
  pendingModified : Bool := false
  postInvalidate : Bool := false
  postDowngrade : Bool := false
  wasWholeLineWrite : Bool := false
  isForward : Bool := false
  targets : TargetList := {}
  deferredTargets : TargetList := {}
  deriving DecidableEq, Repr

namespace Mshr

def getNumTargets (m : Mshr) : ℕ := m.targets.items.length + m.deferredTargets.items.length

def hasTargets (m : Mshr) : Bool := !m.targets.items.isEmpty

def hasPostInvalidate (m : Mshr) : Sim Bool := do
  assert m.inService "inService"
  return m.postInvalidate

def hasPostDowngrade (m : Mshr) : Sim Bool := do
  assert m.inService "inService"
  return m.postDowngrade

/-- The source `allocate` gives its target. -/
def sourceOf (target : MissPacket) : Source :=
  if target.cmd = .hardPFReq then .fromPrefetcher else .fromCPU

def allocate (m : Mshr) (blkAddr blkSize : ℕ) (target : MissPacket) (whenReady order : ℕ)
    (allocOnFill : Bool) : Sim Mshr := do
  let targets ← (m.targets.init blkAddr blkSize).add target whenReady order (sourceOf target) true
    allocOnFill
  let first ← targets.front
  assert (target.matchBlockAddr first.pkt blkSize)
    "target->matchBlockAddr(targets.front().pkt, blkSize)"
  return { m with
    blkAddr, blkSize, targets
    isSecure := target.isSecure
    readyTime := whenReady
    order := order
    isForward := false
    wasWholeLineWrite := false
    isUncacheable := target.req.uncacheable
    inService := false
    downstreamPending := false
    deferredTargets := m.deferredTargets.init blkAddr blkSize }

def clearDownstreamPending (m : Mshr) : Sim Mshr := do
  assert m.downstreamPending "downstreamPending"
  let targets ← m.targets.clearDownstreamPending
  return { m with downstreamPending := false, targets }

/-- The targets `markInService` leaves. -/
def issuedTargets (m : Mshr) : Sim TargetList :=
  if !m.downstreamPending then m.targets.clearDownstreamPending else .ok m.targets

def markInService (m : Mshr) (pendingModifiedResp : Bool) : Sim Mshr := do
  assert (!m.inService) "!inService"
  let targets ← m.issuedTargets
  return { m with
    inService := true
    pendingModified := m.targets.needsWritable || pendingModifiedResp
    postInvalidate := false
    postDowngrade := false
    targets
    wasWholeLineWrite := targets.isWholeLineWrite }

def deallocate (m : Mshr) : Sim Mshr := do
  assert m.targets.items.isEmpty "targets.empty()"
  assert m.deferredTargets.isReset "deferredTargets.isReset()"
  return { m with targets := m.targets.resetFlags, inService := false }

/-- The condition of `allocateTarget` for putting a target off. -/
def mustDefer (m : Mshr) (tgtPkt pkt : MissPacket) : Sim Bool :=
  if pkt.req.isCacheMaintenance || tgtPkt.req.isCacheMaintenance ||
      !m.deferredTargets.items.isEmpty then .ok true
  else if m.inService then
    if m.postInvalidate then .ok true
    else do
      let needsWritable ← pkt.needsWritable
      return needsWritable && (!m.pendingModified || m.postDowngrade || m.isForward)
  else .ok false

/-- The packet `allocateTarget` puts on the deferred list. -/
def deferredPacket (m : Mshr) (pkt : MissPacket) : Sim MissPacket :=
  if m.inService && m.postInvalidate then replaceUpgrade pkt else .ok pkt

def deferTarget (m : Mshr) (pkt : MissPacket) (whenReady order : ℕ) (allocOnFill : Bool) :
    Sim Mshr := do
  let pkt ← m.deferredPacket pkt
  let deferredTargets ← m.deferredTargets.add pkt whenReady order .fromCPU true allocOnFill
  return { m with deferredTargets }

def appendTarget (m : Mshr) (pkt : MissPacket) (whenReady order : ℕ) (allocOnFill : Bool) :
    Sim Mshr := do
  let targets ← m.targets.add pkt whenReady order .fromCPU (!m.inService) allocOnFill
  return { m with targets }

def allocateTarget (m : Mshr) (pkt : MissPacket) (whenReady order : ℕ) (allocOnFill : Bool) :
    Sim Mshr := do
  assert (pkt.cmd != .hardPFReq) "pkt->cmd != MemCmd::HardPFReq"
  let tgt ← m.targets.front
  if ← m.mustDefer tgt.pkt pkt then m.deferTarget pkt whenReady order allocOnFill
  else m.appendTarget pkt whenReady order allocOnFill

/-- `handleSnoop` on a request that has not been issued. -/
def snoopUnissued (m : Mshr) (invalidating : Bool) : Sim Mshr :=
  if invalidating then do
    let targets ← m.targets.replaceUpgrades
    let deferredTargets ← m.deferredTargets.replaceUpgrades
    return { m with targets, deferredTargets }
  else .ok m

/-- The deferred targets `handleSnoop` leaves on an issued request. -/
def snoopDeferred (m : Mshr) (invalidating : Bool) : Sim Mshr :=
  if invalidating then do
    let deferredTargets ← m.deferredTargets.replaceUpgrades
    return { m with deferredTargets }
  else .ok m

/-- The flags `handleSnoop` sets in the snooping packet when it keeps a copy of it. -/
def snoopAnswer (pendingModified willRespond : Bool) (pkt : MissPacket) : Sim MissPacket :=
  if willRespond then do
    let pkt ← pkt.setCacheResponding
    pkt.setResponderHadWritable
  else if pendingModified && pkt.cmd.isClean then pkt.setSatisfied
  else .ok pkt

/-- `handleSnoop` keeping a copy of the packet among the targets. -/
def saveSnoop (m : Mshr) (pkt : MissPacket) (willRespond needsWritable : Bool)
    (curTick order : ℕ) : Sim (MissPacket × Mshr) :=
  if m.pendingModified || pkt.cmd.isInvalidate then do
    let cpPkt := if willRespond then pkt.copy else pkt.ofBlock m.blkSize
    let pkt ← snoopAnswer m.pendingModified willRespond pkt
    let targets ← m.targets.add cpPkt curTick order .fromSnoop
      (m.downstreamPending && m.targets.needsWritable) false
    return (pkt, { m with
      targets, postInvalidate := m.postInvalidate || needsWritable || pkt.cmd.isInvalidate })
  else .ok (pkt, m)

/-- `handleSnoop` on an issued request, from where it sees its first target. -/
def snoopIssued (m : Mshr) (pkt : MissPacket) (needsWritable : Bool) (curTick order : ℕ) :
    Sim (Bool × MissPacket × Mshr) := do
  let tgt ← m.targets.front
  if m.postInvalidate || tgt.pkt.req.isCacheInvalidate then return (true, pkt, m)
  else
    let willRespond := m.pendingModified && pkt.cmd.needsResponse && !pkt.cmd.isClean
    let (pkt, m) ← m.saveSnoop pkt willRespond needsWritable curTick order
    if !needsWritable && !pkt.req.uncacheable then
      return (willRespond, { pkt with hasSharers := true }, { m with postDowngrade := true })
    else return (willRespond, pkt, m)

def handleSnoop (m : Mshr) (pkt : MissPacket) (curTick order : ℕ) :
    Sim (Bool × MissPacket × Mshr) := do
  let needsWritable ← pkt.needsWritable
  panicIf ((needsWritable != pkt.cmd.isInvalidate) && !pkt.req.isCacheMaintenance)
    "got snoop where needsWritable, does not match isInvalidate"
  let invalidating := needsWritable || pkt.req.isCacheInvalidate
  if !m.inService || (pkt.expressSnoop && m.downstreamPending) then
    let m ← m.snoopUnissued invalidating
    return (false, pkt, m)
  else
    let m ← m.snoopDeferred invalidating
    m.snoopIssued pkt needsWritable curTick order

/-- The loop of `extractServiceableTargets` over the targets after the first: what is ready and
what stays. -/
def takeSnoops : List Target → Sim (List Target × List Target)
  | [] => .ok ([], [])
  | t :: ts =>
    if t.source = .fromCPU then do
      let (ready, left) ← takeSnoops ts
      return (ready, t :: left)
    else do
      assert (t.source == .fromSnoop) "it->source == Target::FromSnoop"
      let (ready, left) ← takeSnoops ts
      return (t :: ready, left)

/-- `extractServiceableTargets` on a `ReadRespWithInvalidate`. -/
def extractFirst (m : Mshr) : Sim (TargetList × Mshr) := do
  let tgt ← m.targets.front
  assert (tgt.source == .fromCPU || tgt.source == .fromPrefetcher)
    "(it->source == Target::FromCPU) || (it->source == Target::FromPrefetcher)"
  let (ready, left) ← takeSnoops m.targets.items.tail
  let readyTargets ← TargetList.populateFlags
    { TargetList.init {} m.blkAddr m.blkSize with items := tgt :: ready }
  let targets ← TargetList.populateFlags { m.targets with items := left }
  return (readyTargets, { m with targets })

/-- `extractServiceableTargets` on any other response. -/
def extractAll (m : Mshr) : Sim (TargetList × Mshr) := do
  let targets ← (TargetList.init {} m.blkAddr m.blkSize).populateFlags
  return (m.targets, { m with targets })

def extractServiceableTargets (m : Mshr) (cmd : MemCmd) : Sim (TargetList × Mshr) :=
  if cmd = .readRespWithInvalidate then m.extractFirst else m.extractAll

def popTarget (m : Mshr) : Sim Mshr :=
  match m.targets.items with
  | [] => .error (.undefined "pop_front() of an empty list")
  | _ :: ts => .ok { m with targets := { m.targets with items := ts } }

/-- Splice the first `n` deferred targets onto the end of the targets. -/
def splice (m : Mshr) (n : ℕ) : Mshr :=
  { m with
    targets := { m.targets with items := m.targets.items ++ m.deferredTargets.items.take n }
    deferredTargets := { m.deferredTargets with items := m.deferredTargets.items.drop n } }

/-- How many deferred targets `promoteDeferredTargets` moves. -/
def promotable (m : Mshr) : ℕ :=
  let before := m.deferredTargets.items.takeWhile fun t => !t.pkt.req.isCacheMaintenance
  -- a cache maintenance request at the front is promoted alone, to an empty list
  if before.isEmpty then if m.targets.items.isEmpty then 1 else 0 else before.length

def promoteDeferredTargets (m : Mshr) (curTick : ℕ) : Sim (Bool × Mshr) :=
  if m.targets.items.isEmpty && m.deferredTargets.items.isEmpty then .ok (false, m)
  else do
    let m := m.splice m.promotable
    let deferredTargets ← m.deferredTargets.populateFlags
    let targets ← m.targets.populateFlags
    let first ← targets.front
    return (true, { m with
      targets, deferredTargets, order := first.order, readyTime := max curTick first.readyTime })

/-- How many targets there are before the first that does not satisfy `pred`. -/
def findIfNot (pred : Target → Sim Bool) : List Target → Sim ℕ
  | [] => .ok 0
  | t :: ts => do
    if ← pred t then
      let n ← findIfNot pred ts
      return n + 1
    else return 0

def promoteIf (m : Mshr) (pred : Target → Sim Bool) : Sim Mshr := do
  assert (!m.downstreamPending) "!downstreamPending"
  let n ← findIfNot pred m.deferredTargets.items
  let before ← (m.deferredTargets.items.take n).mapM Target.clearDownstreamPending
  let m := splice { m with
    deferredTargets := { m.deferredTargets with
      items := before ++ m.deferredTargets.items.drop n } } n
  let deferredTargets ← m.deferredTargets.populateFlags
  return { m with deferredTargets }

/-- The predicate of `promoteReadable`. -/
def readable (t : Target) : Sim Bool := do
  assert (t.source == .fromCPU) "t.source == Target::FromCPU"
  if t.pkt.req.isCacheInvalidate then return false
  else
    let needsWritable ← t.pkt.needsWritable
    return !needsWritable

/-- The predicate of `promoteWritable`. -/
def writable (t : Target) : Sim Bool := do
  assert (t.source == .fromCPU) "t.source == Target::FromCPU"
  return !t.pkt.req.isCacheInvalidate

def promoteReadable (m : Mshr) : Sim Mshr :=
  if m.deferredTargets.items.isEmpty then .ok m
  else do
    let postInvalidate ← m.hasPostInvalidate
    if !postInvalidate then m.promoteIf readable else return m

def promoteWritable (m : Mshr) : Sim Mshr :=
  if m.deferredTargets.needsWritable then do
    let postInvalidate ← m.hasPostInvalidate
    let postDowngrade ← m.hasPostDowngrade
    if postInvalidate || postDowngrade then return m
    else
      let first ← m.deferredTargets.front
      if first.pkt.req.isCacheInvalidate then return m
      else
        assert (!m.targets.needsWritable) "!targets.needsWritable"
        promoteIf { m with targets := { m.targets with needsWritable := true } } writable
  else .ok m

def delay (m : Mshr) (curTick delayTicks : ℕ) : Sim Mshr := do
  assert (decide (m.readyTime ≤ curTick)) "readyTime <= curTick()"
  return { m with readyTime := u64 (curTick + delayTicks) }

end Mshr

/-- What identifies a target from `add` on. -/
structure Tag where
  source : Source
  id : ℕ
  readyTime : ℕ
  order : ℕ
  allocOnFill : Bool
  deriving DecidableEq, Repr

namespace Tag

def isCPU (t : Tag) : Bool := t.source == .fromCPU

end Tag

namespace Target

def tag (t : Target) : Tag :=
  { source := t.source, id := t.pkt.id, readyTime := t.readyTime, order := t.order
    allocOnFill := t.allocOnFill }

end Target

namespace Mshr

/-- A call on one `MSHR`, or what its cache and the caches below do to it. -/
inductive Op
  | allocate (blkAddr blkSize : ℕ) (target : MissPacket) (whenReady order : ℕ)
      (allocOnFill : Bool)
  | allocateTarget (pkt : MissPacket) (whenReady order : ℕ) (allocOnFill : Bool)
  | handleSnoop (pkt : MissPacket) (curTick order : ℕ)
  | markInService (pendingModifiedResp : Bool)
  | markPending
  | extractServiceableTargets (cmd : MemCmd)
  | promoteReadable
  | promoteWritable
  | promoteDeferredTargets (curTick : ℕ)
  | popTarget
  | deallocate
  | setForward (isForward : Bool)
  | setDownstreamPending
  | clearDownstreamPending
  deriving DecidableEq, Repr

/-- The targets a call added and those it returned. -/
structure Answer where
  added : List Tag := []
  returned : List Tag := []
  deriving DecidableEq, Repr

/-- A call that neither adds nor returns targets. -/
def quiet (call : Sim Mshr) : Sim (Answer × Mshr) := do
  let m ← call
  return ({}, m)

/-- The targets `handleSnoop` saved. -/
def saved (m m' : Mshr) : List Tag :=
  (m'.targets.items.drop m.targets.items.length).map Target.tag

def step (m : Mshr) : Op → Sim (Answer × Mshr)
  | .allocate blkAddr blkSize target whenReady order allocOnFill => do
    -- `MSHRQueue::allocate` takes an entry without targets
    assert (m.getNumTargets == 0) "mshr->getNumTargets() == 0"
    let m ← m.allocate blkAddr blkSize target whenReady order allocOnFill
    let tag := { source := sourceOf target, id := target.id, readyTime := whenReady, order
                 allocOnFill }
    return ({ added := [tag] }, m)
  | .allocateTarget pkt whenReady order allocOnFill => do
    let m ← m.allocateTarget pkt whenReady order allocOnFill
    let tag := { source := .fromCPU, id := pkt.id, readyTime := whenReady, order, allocOnFill }
    return ({ added := [tag] }, m)
  | .handleSnoop pkt curTick order => do
    let (_, _, m') ← m.handleSnoop pkt curTick order
    return ({ added := m.saved m' }, m')
  | .markInService pendingModifiedResp => quiet (m.markInService pendingModifiedResp)
  | .markPending => quiet do
    assert m.inService "mshr->inService"
    return { m with inService := false }
  | .extractServiceableTargets cmd => do
    let (ready, m) ← m.extractServiceableTargets cmd
    return ({ returned := ready.items.map Target.tag }, m)
  | .promoteReadable => quiet m.promoteReadable
  | .promoteWritable => quiet m.promoteWritable
  | .promoteDeferredTargets curTick => do
    let (_, m) ← m.promoteDeferredTargets curTick
    return ({}, m)
  | .popTarget => quiet m.popTarget
  | .deallocate => quiet m.deallocate
  | .setForward isForward => .ok ({}, { m with isForward })
  | .setDownstreamPending => quiet do
    assert (!m.downstreamPending) "!mshr->downstreamPending"
    return { m with downstreamPending := true }
  | .clearDownstreamPending => quiet m.clearDownstreamPending

/-- The targets that wait, those put off after the others. -/
def waiting (m : Mshr) : List Tag :=
  (m.targets.items ++ m.deferredTargets.items).map Target.tag

/-- The targets a response serves and those it leaves: after a `ReadRespWithInvalidate` the other
targets of the processor have to ask again. -/
def serviceable (cmd : MemCmd) (ts : List Target) : List Target × List Target :=
  if cmd = .readRespWithInvalidate then
    (ts.take 1 ++ ts.tail.filter (·.source ≠ .fromCPU), ts.tail.filter (·.source = .fromCPU))
  else (ts, [])

/-- What a call has to move: a response returns what it serves, and to an `MSHR` with nothing but
deferred targets the first of them is promoted. -/
def Moves (m : Mshr) (a : Answer) (m' : Mshr) : Op → Prop
  | .extractServiceableTargets cmd =>
    a.returned = (serviceable cmd m.targets.items).1.map Target.tag ∧
      m'.targets.items = (serviceable cmd m.targets.items).2 ∧
      m'.deferredTargets = m.deferredTargets
  | .promoteDeferredTargets _ => m.targets.items = [] →
    m'.targets.items.head? = m.deferredTargets.items.head?
  | _ => True

end Mshr

namespace TargetList

/-- The flags set for every target they are about. -/
def Agree (l : TargetList) : Prop :=
  ∀ t ∈ l.items, t.source ≠ .fromSnoop →
    (t.pkt.cmd.needsWritable = true → l.needsWritable = true) ∧
    (t.pkt.isUpgrade = true → l.hasUpgrade = true) ∧
    (t.allocOnFill = true → l.allocOnFill = true) ∧
    (t.source = .fromCPU → t.pkt.cmd.fromCache = true → l.hasFromCache = true)

/-- Two lists whose flags and whole-line-write status are the same. -/
structure SameFlags (l l' : TargetList) : Prop where
  needsWritable : l.needsWritable = l'.needsWritable
  hasUpgrade : l.hasUpgrade = l'.hasUpgrade
  allocOnFill : l.allocOnFill = l'.allocOnFill
  hasFromCache : l.hasFromCache = l'.hasFromCache
  canMergeWrites : l.canMergeWrites = l'.canMergeWrites
  isWholeLineWrite : l.isWholeLineWrite = l'.isWholeLineWrite

/-- The arguments of one `add`. -/
structure AddArgs where
  pkt : MissPacket
  readyTime : ℕ
  order : ℕ
  source : Source
  markPending : Bool
  allocOnFill : Bool
  deriving DecidableEq, Repr

def addOne (l : TargetList) (a : AddArgs) : Sim TargetList :=
  l.add a.pkt a.readyTime a.order a.source a.markPending a.allocOnFill

/-- The list that `add` calls build from an initialised one. -/
def build (blkAddr blkSize : ℕ) (as : List AddArgs) : Sim TargetList :=
  as.foldlM addOne (init {} blkAddr blkSize)

/-- A write of a processor to the whole line that no other write is merged with. -/
def AddArgs.specialLineWrite (a : AddArgs) (blkSize : ℕ) : Bool :=
  a.source == .fromCPU && a.pkt.cmd.isWrite && a.pkt.noMergeFlags &&
    a.pkt.getOffset blkSize == 0 && a.pkt.size == blkSize && blkSize != 0

end TargetList

namespace Mshr

/-- The flags of the targets agree with them after the call. -/
def AgreeAfter (m : Mshr) (o : Op) : Prop := ∀ a m', m.step o = .ok (a, m') → m'.targets.Agree

/-- The targets a promotion moves to the others leave no flag unset, the flag `needsWritable` that
`promoteWritable` sets apart. -/
def Covered (m : Mshr) (n : ℕ) : Prop :=
  ∀ t ∈ m.deferredTargets.items.take n,
    (t.pkt.isUpgrade = true → m.targets.hasUpgrade = true) ∧
    (t.allocOnFill = true → m.targets.allocOnFill = true) ∧
    (t.pkt.cmd.fromCache = true → m.targets.hasFromCache = true)

instance (m : Mshr) (n : ℕ) : Decidable (m.Covered n) :=
  inferInstanceAs (Decidable (∀ t ∈ m.deferredTargets.items.take n, _))

/-- How many deferred targets `promoteReadable` moves. -/
def readablePrefix (m : Mshr) : ℕ :=
  if m.postInvalidate then 0
  else (m.deferredTargets.items.takeWhile fun t =>
    !t.pkt.req.isCacheInvalidate && !t.pkt.cmd.needsWritable).length

/-- How many deferred targets `promoteWritable` moves. -/
def writablePrefix (m : Mshr) : ℕ :=
  if m.postInvalidate || m.postDowngrade || !m.deferredTargets.needsWritable then 0
  else (m.deferredTargets.items.takeWhile fun t => !t.pkt.req.isCacheInvalidate).length

/-- The condition on a call under which it leaves the flags in agreement. -/
def FlagsCover (m : Mshr) : Op → Prop
  | .promoteReadable => m.Covered m.readablePrefix
  | .promoteWritable => m.Covered m.writablePrefix
  | _ => True

end Mshr

end Gem5Nvm
