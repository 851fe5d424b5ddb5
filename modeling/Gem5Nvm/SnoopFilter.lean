import Gem5Nvm.MemCmd
import Gem5Nvm.Lib.Run

/-!
# The snoop filter

`SnoopFilter` of `mem/snoop_filter.cc`: for each line two masks of CPU-side ports, those with a
request in flight and those that have the line.

A port is known by its identifier, a `SnoopMask` is a set of identifiers. The ports with a cache
behind them, the snooping ones, are those of `cpuSidePorts`. A line is named by its address, the
lowest bit of which tells the secure space apart. The statistics are left out.
-/

namespace Gem5Nvm

/-- A packet as the snoop filter sees it. -/
structure SnoopPacket where
  cmd : MemCmd
  addr : ℕ
  isSecure : Bool := false
  req : RequestFlags := {}
  cacheResponding : Bool := false
  hasSharers : Bool := false
  blockCached : Bool := false
  deriving DecidableEq, Repr

/-- `SnoopFilter::SnoopItem`. -/
@[ext]
structure SnoopItem where
  requested : Finset ℕ := ∅
  holder : Finset ℕ := ∅
  deriving DecidableEq

/-- `(requested | holder).none()`. -/
def SnoopItem.isNull (item : SnoopItem) : Bool := decide (item.requested ∪ item.holder = ∅)

structure SnoopFilter where
  cpuSidePorts : List ℕ
  linesize : ℕ
  lookupLatency : ℕ
  maxEntryCount : ℕ
  /-- The map of the lines, and how many there are. -/
  cachedLocations : ℕ → Option SnoopItem := fun _ => none
  size : ℕ := 0
  /-- The line `reqLookupResult.it` points to, and `reqLookupResult.retryItem`. -/
  lookupResult : Option ℕ := none
  retryItem : SnoopItem := {}

namespace SnoopFilter

/-- The ports that need to be snooped, and the latency of the lookup. -/
abbrev Lookup := List ℕ × ℕ

def isSnooping (f : SnoopFilter) (port : ℕ) : Bool := f.cpuSidePorts.contains port

def portToMask (f : SnoopFilter) (port : ℕ) : Finset ℕ :=
  if !f.isSnooping port then ∅ else {port}

def maskToPortList (f : SnoopFilter) (mask : Finset ℕ) : List ℕ :=
  f.cpuSidePorts.filter fun p => decide ((mask ∩ f.portToMask p).Nonempty)

def snoopSelected (f : SnoopFilter) (ports : List ℕ) : Lookup := (ports, f.lookupLatency)

def snoopDown (f : SnoopFilter) : Lookup := ([], f.lookupLatency)

def lineOf (f : SnoopFilter) (addr : ℕ) (isSecure : Bool) : ℕ :=
  let lineAddr := addr - (addr &&& (f.linesize - 1))
  if isSecure then lineAddr ||| 1 else lineAddr

def lineAddr (f : SnoopFilter) (pkt : SnoopPacket) : ℕ := f.lineOf pkt.addr pkt.isSecure

def setItem (f : SnoopFilter) (line : ℕ) (item : SnoopItem) : SnoopFilter :=
  { f with cachedLocations := Function.update f.cachedLocations line (some item) }

/-- `cachedLocations.emplace(line, SnoopItem())` of a line that has no entry. -/
def emplace (f : SnoopFilter) (line : ℕ) : SnoopFilter :=
  { f.setItem line {} with size := f.size + 1 }

def eraseIfNullEntry (f : SnoopFilter) (line : ℕ) : SnoopFilter :=
  match f.cachedLocations line with
  | some item =>
    if item.isNull then
      { f with cachedLocations := Function.update f.cachedLocations line none, size := f.size - 1 }
    else f
  | none => f

/-- The check whether a packet came from a cache. -/
def allocates (f : SnoopFilter) (pkt : SnoopPacket) (port : ℕ) : Bool :=
  !pkt.req.uncacheable && f.isSnooping port && pkt.cmd.fromCache

/-- The masks of the line after a request of a cache. -/
def requestItem (pkt : SnoopPacket) (reqPort : Finset ℕ) (item : SnoopItem) : Sim SnoopItem :=
  if pkt.cmd.needsResponse then
    if !pkt.cacheResponding then do
      panicIf (decide (item.requested ∩ reqPort).Nonempty) "double request :( SF value"
      return { item with requested := item.requested ∪ reqPort }
    else do
      -- the response will not be seen by this filter
      panicIf (decide (item.holder ∩ reqPort = ∅)) "Need to hold the value!"
      return item
  else do
    assert pkt.cmd.isEviction "cpkt->isEviction()"
    panicIf (decide (item.holder ∩ reqPort = ∅)) "requestor is not a holder :( SF value"
    return if !pkt.blockCached then { item with holder := item.holder \ reqPort } else item

def lookupRequest (f : SnoopFilter) (pkt : SnoopPacket) (port : ℕ) :
    Sim (Lookup × SnoopFilter) :=
  let allocate := f.allocates pkt port
  let line := f.lineAddr pkt
  let reqPort := f.portToMask port
  let hit := f.cachedLocations line
  if hit.isNone && !allocate then
    .ok (f.snoopDown, { f with lookupResult := none })
  else
    let f := if hit.isNone then f.emplace line else f
    let item := hit.getD {}
    let interested := item.holder ∪ item.requested
    let f := { f with lookupResult := some line, retryItem := item }
    let lookup := f.snoopSelected (f.maskToPortList (interested \ reqPort))
    if !allocate then .ok (lookup, f)
    else do
      let item ← requestItem pkt reqPort item
      return (lookup, f.setItem line item)

/-- `finishRequest` at the line the lookup left. -/
def finishAt (f : SnoopFilter) (willRetry : Bool) (line : ℕ) : SnoopFilter :=
  let f := if willRetry then f.setItem line f.retryItem else f
  f.eraseIfNullEntry line

def finishRequest (f : SnoopFilter) (willRetry : Bool) (addr : ℕ) (isSecure : Bool) :
    Sim SnoopFilter :=
  match f.lookupResult with
  | none => .ok f
  | some line => do
    assert (line == f.lineOf addr isSecure) "reqLookupResult.it->first == line_addr"
    return f.finishAt willRetry line

/-- The filter after an invalidating snoop: an early clear of the holders, if no request is going
on. -/
def clearHolders (f : SnoopFilter) (line : ℕ) (item : SnoopItem) (invalidate : Bool) :
    SnoopFilter :=
  if invalidate && decide (item.requested = ∅) then
    (f.setItem line { item with holder := ∅ }).eraseIfNullEntry line
  else f

def lookupSnoop (f : SnoopFilter) (pkt : SnoopPacket) : Sim (Lookup × SnoopFilter) := do
  assert pkt.cmd.isRequest "cpkt->isRequest()"
  let line := f.lineAddr pkt
  match f.cachedLocations line with
  | none =>
    panicIf (decide (f.size ≥ f.maxEntryCount)) "snoop filter exceeded capacity of cache blocks"
    return (f.snoopDown, f)
  | some item =>
    let interested := item.holder ∪ item.requested
    assert (pkt.cmd.isWriteback || pkt.req.uncacheable ||
        (pkt.cmd.isInvalidate == pkt.cmd.needsWritable) || pkt.req.isCacheMaintenance)
      "cpkt->isInvalidate() == cpkt->needsWritable()"
    return (f.snoopSelected (f.maskToPortList interested),
      f.clearHolders line item pkt.cmd.isInvalidate)

def updateSnoopResponse (f : SnoopFilter) (pkt : SnoopPacket) (rspPort reqPort : ℕ) :
    Sim SnoopFilter := do
  assert pkt.cmd.isResponse "cpkt->isResponse()"
  assert pkt.cacheResponding "cpkt->cacheResponding()"
  if pkt.req.uncacheable || !f.isSnooping reqPort then return f
  else
    let line := f.lineAddr pkt
    let rspMask := f.portToMask rspPort
    let reqMask := f.portToMask reqPort
    let item := (f.cachedLocations line).getD {}
    panicIf (decide (item.holder ∩ rspMask = ∅)) "SF value does not have the line"
    panicIf (decide (item.requested ∩ reqMask = ∅)) "SF value missing the original request"
    let holder := if !pkt.hasSharers then ∅ else item.holder
    assert (!pkt.cmd.isWriteback) "!cpkt->isWriteback()"
    let item := { requested := item.requested \ reqMask, holder := holder ∪ reqMask }
    assert (!item.isNull) "(sf_item.requested | sf_item.holder).any()"
    return f.setItem line item

def updateSnoopForward (f : SnoopFilter) (pkt : SnoopPacket) : Sim SnoopFilter := do
  assert pkt.cmd.isResponse "cpkt->isResponse()"
  assert pkt.cacheResponding "cpkt->cacheResponding()"
  let line := f.lineAddr pkt
  match f.cachedLocations line with
  | none => return f
  | some item =>
    if !pkt.hasSharers then
      return (f.setItem line { item with holder := ∅ }).eraseIfNullEntry line
    else return f

/-- The filter after a response, `item` being the masks without the request. -/
def responseItem (f : SnoopFilter) (pkt : SnoopPacket) (line : ℕ) (mask : Finset ℕ)
    (item : SnoopItem) : Sim SnoopFilter :=
  if pkt.req.isCacheMaintenance then
    let holder := if pkt.cmd.isInvalidate then item.holder \ mask else item.holder
    .ok ((f.setItem line { item with holder }).eraseIfNullEntry line)
  else do
    let item := { item with holder := item.holder ∪ mask }
    assert (!item.isNull) "(sf_item.holder | sf_item.requested).any()"
    return f.setItem line item

def updateResponse (f : SnoopFilter) (pkt : SnoopPacket) (port : ℕ) : Sim SnoopFilter := do
  assert pkt.cmd.isResponse "cpkt->isResponse()"
  if pkt.req.uncacheable || !f.isSnooping port then return f
  else
    let line := f.lineAddr pkt
    match f.cachedLocations line with
    | none => return f
    | some item =>
      let mask := f.portToMask port
      panicIf (decide (item.requested ∩ mask = ∅)) "SF value missing request bit"
      f.responseItem pkt line mask { item with requested := item.requested \ mask }

def item (f : SnoopFilter) (line : ℕ) : SnoopItem := (f.cachedLocations line).getD {}

end SnoopFilter

/-- A snoop filter and the caches above it: the ports whose caches have a line, and those with a
request for it of which the response will pass the filter. -/
structure SnoopWorld where
  filter : SnoopFilter
  holds : ℕ → Finset ℕ := fun _ => ∅
  outstanding : ℕ → Finset ℕ := fun _ => ∅

namespace SnoopWorld

/-- What passes the filter, with what the caches above do at that moment. -/
inductive Op
  /-- A request of `port`; `dropped` are the caches that lose the line if it is invalidating and
  they are snooped. -/
  | request (pkt : SnoopPacket) (port : ℕ) (willRetry : Bool) (dropped : Finset ℕ)
  /-- A snoop from below; `kept` are the caches that keep the line though it is invalidating. -/
  | snoop (pkt : SnoopPacket) (kept : Finset ℕ)
  | snoopResponse (pkt : SnoopPacket) (rspPort reqPort : ℕ)
  | snoopForward (pkt : SnoopPacket) (rspPort : ℕ)
  /-- A response to `port`; `keeps` tells whether its cache keeps its copy. -/
  | response (pkt : SnoopPacket) (port : ℕ) (keeps : Bool)

def hold (w : SnoopWorld) (line : ℕ) (ports : Finset ℕ) : SnoopWorld :=
  { w with holds := Function.update w.holds line ports }

def await (w : SnoopWorld) (line : ℕ) (ports : Finset ℕ) : SnoopWorld :=
  { w with outstanding := Function.update w.outstanding line ports }

def holdsAfterRequest (pkt : SnoopPacket) (port : ℕ) (willRetry : Bool) (dropped : Finset ℕ)
    (snooped : List ℕ) (holds : Finset ℕ) : Finset ℕ :=
  let holds := if pkt.cmd.isInvalidate then holds \ (dropped ∩ snooped.toFinset) else holds
  if pkt.cmd.isEviction && !pkt.blockCached && !willRetry then holds.erase port else holds

/-- Whether the response to the request will pass the filter on its way to a cache. -/
def awaits (f : SnoopFilter) (pkt : SnoopPacket) (port : ℕ) (willRetry : Bool) : Bool :=
  f.allocates pkt port && pkt.cmd.needsResponse && !pkt.cacheResponding && !willRetry

def request (w : SnoopWorld) (pkt : SnoopPacket) (port : ℕ) (willRetry : Bool)
    (dropped : Finset ℕ) : Sim (List ℕ × SnoopWorld) := do
  let line := w.filter.lineAddr pkt
  let (lookup, f) ← w.filter.lookupRequest pkt port
  let f ← f.finishRequest willRetry pkt.addr pkt.isSecure
  let holds := holdsAfterRequest pkt port willRetry dropped lookup.1 (w.holds line)
  let outstanding :=
    if awaits w.filter pkt port willRetry then insert port (w.outstanding line)
    else w.outstanding line
  return (lookup.1, ({ w with filter := f }.hold line holds).await line outstanding)

def snoop (w : SnoopWorld) (pkt : SnoopPacket) (kept : Finset ℕ) : Sim (List ℕ × SnoopWorld) := do
  let line := w.filter.lineAddr pkt
  let (lookup, f) ← w.filter.lookupSnoop pkt
  let holds :=
    if pkt.cmd.isInvalidate then w.holds line \ (lookup.1.toFinset \ kept) else w.holds line
  return (lookup.1, { w with filter := f }.hold line holds)

/-- The copies left by a cache that gives up its own, unless the response says there are sharers. -/
def giveUp (pkt : SnoopPacket) (rspPort : ℕ) (holds : Finset ℕ) : Finset ℕ :=
  if !pkt.hasSharers then holds.erase rspPort else holds

def snoopResponse (w : SnoopWorld) (pkt : SnoopPacket) (rspPort reqPort : ℕ) : Sim SnoopWorld := do
  let line := w.filter.lineAddr pkt
  let f ← w.filter.updateSnoopResponse pkt rspPort reqPort
  let holds := giveUp pkt rspPort (w.holds line)
  -- the response fills the cache that asked for the line
  let holds :=
    if !pkt.req.uncacheable && decide (reqPort ∈ w.outstanding line) then insert reqPort holds
    else holds
  let outstanding :=
    if pkt.req.uncacheable then w.outstanding line else (w.outstanding line).erase reqPort
  return ({ w with filter := f }.hold line holds).await line outstanding

def snoopForward (w : SnoopWorld) (pkt : SnoopPacket) (rspPort : ℕ) : Sim SnoopWorld := do
  let line := w.filter.lineAddr pkt
  let f ← w.filter.updateSnoopForward pkt
  return { w with filter := f }.hold line (giveUp pkt rspPort (w.holds line))

/-- The copies after a response to `port`. -/
def holdsAfterResponse (pkt : SnoopPacket) (port : ℕ) (keeps : Bool)
    (holds outstanding : Finset ℕ) : Finset ℕ :=
  if pkt.req.isCacheMaintenance then if keeps then holds else holds.erase port
  else if decide (port ∈ outstanding) then insert port holds else holds

def response (w : SnoopWorld) (pkt : SnoopPacket) (port : ℕ) (keeps : Bool) : Sim SnoopWorld := do
  let line := w.filter.lineAddr pkt
  let f ← w.filter.updateResponse pkt port
  if pkt.req.uncacheable then return { w with filter := f }
  else
    let holds := holdsAfterResponse pkt port keeps (w.holds line) (w.outstanding line)
    return ({ w with filter := f }.hold line holds).await line ((w.outstanding line).erase port)

/-- One event; the answer is the list of ports to snoop. -/
def step (w : SnoopWorld) : Op → Sim (List ℕ × SnoopWorld)
  | .request pkt port willRetry dropped => w.request pkt port willRetry dropped
  | .snoop pkt kept => w.snoop pkt kept
  | .snoopResponse pkt rspPort reqPort => do
    let w ← w.snoopResponse pkt rspPort reqPort
    return ([], w)
  | .snoopForward pkt rspPort => do
    let w ← w.snoopForward pkt rspPort
    return ([], w)
  | .response pkt port keeps => do
    let w ← w.response pkt port keeps
    return ([], w)

/-- What the caches promise: only a cache with a request in flight may keep the line over an
invalidating snoop; a line is given up in a snoop response without sharers only when no other cache
above keeps a copy; a cache drops the line only as listed. -/
def Disciplined (w : SnoopWorld) : Op → Prop
  | .request .. => True
  | .snoop pkt kept => kept ⊆ w.outstanding (w.filter.lineAddr pkt)
  | .snoopResponse pkt rspPort reqPort =>
    pkt.hasSharers = false → w.holds (w.filter.lineAddr pkt) ⊆ {rspPort, reqPort}
  | .snoopForward pkt rspPort =>
    pkt.hasSharers = false → w.holds (w.filter.lineAddr pkt) ⊆ {rspPort}
  | .response _ _ keeps => keeps = true

/-- The same, with caches that also lose the line with an invalidating response to a cache
maintenance request of their own. -/
def DisciplinedClean (w : SnoopWorld) : Op → Prop
  | .response pkt _ keeps => keeps = !(pkt.req.isCacheMaintenance && pkt.cmd.isInvalidate)
  | o => w.Disciplined o

/-- Every cache that has a line is known to the filter. -/
def Tracked (w : SnoopWorld) : Prop :=
  ∀ line, w.holds line ⊆ (w.filter.item line).holder ∪ (w.filter.item line).requested

/-- Every cache that has the line of a packet is snooped, for a request of another port and for a
snoop from below. -/
def Reached (w : SnoopWorld) : Prop :=
  (∀ pkt port lookup f, w.filter.lookupRequest pkt port = .ok (lookup, f) →
    ∀ p ∈ w.holds (w.filter.lineAddr pkt), p ≠ port → p ∈ lookup.1) ∧
  ∀ pkt lookup f, w.filter.lookupSnoop pkt = .ok (lookup, f) →
    ∀ p ∈ w.holds (w.filter.lineAddr pkt), p ∈ lookup.1

/-- A request that will be retried leaves the filter as it was. -/
def Undone (w : SnoopWorld) : Prop :=
  ∀ pkt port lookup f, w.filter.lookupRequest pkt port = .ok (lookup, f) →
    ∃ f', f.finishRequest true pkt.addr pkt.isSecure = .ok f' ∧
      f'.cachedLocations = w.filter.cachedLocations ∧ f'.size = w.filter.size

/-- A filter without entries, under caches without lines. -/
def start (cpuSidePorts : List ℕ) (linesize lookupLatency maxEntryCount : ℕ) : SnoopWorld :=
  { filter := { cpuSidePorts, linesize, lookupLatency, maxEntryCount } }

end SnoopWorld

end Gem5Nvm
