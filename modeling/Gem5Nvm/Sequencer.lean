import Gem5Nvm.Base
import Gem5Nvm.Lib.Run

/-!
# The Ruby sequencer

`mem/ruby/system/Sequencer.cc`: the requests of a core wait in a list per line, of which one is with
the cache controller; a callback of the controller serves as many of them as it can. The monitor of
LL/SC is `m_locked` of the line's entry in the data cache. The block size is `B`.

A packet's address is given as its line and its offset. Latency histograms, the deadlock check,
transactional memory and warm-up are left out.
-/

namespace Gem5Nvm.Ruby

/-- `DataBlock`: the bytes of a line. -/
abbrev DataBlock := ℕ → UInt8

namespace DataBlock

/-- What is read through `getData(offset, len)`. -/
def getData (data : DataBlock) (offset len : ℕ) : List UInt8 :=
  (List.range len).map fun i => data (offset + i)

/-- `setData(bytes, offset, len)`, of all the bytes. -/
def setData (data : DataBlock) (bytes : List UInt8) (offset : ℕ) : DataBlock := fun i =>
  if offset ≤ i ∧ i < offset + bytes.length then bytes.getD (i - offset) 0 else data i

end DataBlock

inductive RubyRequestType
  | LD | ST | IFETCH | ATOMIC | Load_Linked | Store_Conditional | RMW_Read | Locked_RMW_Read
  | Locked_RMW_Write | FLUSH
  deriving DecidableEq, Repr

/-- The part of a packet the sequencer looks at; `storeCheck` is the flag of x86. -/
structure Packet where
  line : ℕ
  offset : ℕ
  data : List UInt8
  /-- `getByteEnable()`, which is empty when no byte is masked. -/
  byteEnable : List Bool := []
  isRead : Bool := false
  isWrite : Bool := false
  isLLSC : Bool := false
  isLockedRMW : Bool := false
  isInstFetch : Bool := false
  isSwap : Bool := false
  isFlush : Bool := false
  storeCheck : Bool := false
  deriving DecidableEq, Repr

namespace Packet

def getSize (pkt : Packet) : ℕ := pkt.data.length

/-- `isMaskedWrite()`; a write that is neither an SC nor a swap is a `WriteReq`. -/
def isMaskedWrite (pkt : Packet) : Bool :=
  pkt.isWrite && !pkt.isLLSC && !pkt.isSwap && pkt.byteEnable.contains false

/-- `writeData(p)`: the bytes at `p` afterwards. -/
def writeData (pkt : Packet) (p : List UInt8) : List UInt8 :=
  if pkt.isMaskedWrite then
    List.zipWith (fun e (x : UInt8 × UInt8) => if e then x.2 else x.1) pkt.byteEnable
      (p.zip pkt.data)
  else pkt.data

end Packet

structure SequencerRequest where
  pkt : Packet
  type : RubyRequestType
  secondType : RubyRequestType
  deriving DecidableEq, Repr

/-- The requests a read callback serves. -/
def RubyRequestType.isLoad (type : RubyRequestType) : Bool :=
  type == .LD || type == .Load_Linked || type == .IFETCH

/-- A call of `hitCallback`: the request, whether it succeeded, and the packet's data when it is
sent back. -/
structure Hit where
  request : SequencerRequest
  success : Bool
  data : List UInt8
  deriving DecidableEq, Repr

/-! ### The monitor -/

/-- `llscLoadLinked`; the monitor is that of an entry, if there is one. -/
def llscLoadLinked (version : ℤ) (monitor : Option ℤ) : Option ℤ := monitor.map fun _ => version

def llscClearMonitor (version : ℤ) (monitor : Option ℤ) : Option ℤ :=
  monitor.map fun locked => if locked = version then -1 else locked

def llscStoreConditional (version : ℤ) : Option ℤ → Bool × Option ℤ
  | none => (false, none)
  | some locked => (decide (locked = version), some (-1))

/-- A request that needs the line exclusively: whether it succeeds, and the monitor. -/
def checkMonitor (version : ℤ) (monitor : Option ℤ) (type : RubyRequestType) : Bool × Option ℤ :=
  if type ≠ .Store_Conditional then (true, llscClearMonitor version monitor)
  else llscStoreConditional version monitor

/-! ### Data -/

/-- The request types whose packet is filled from the block. -/
def RubyRequestType.fetches (type : RubyRequestType) : Bool :=
  type == .LD || type == .IFETCH || type == .RMW_Read || type == .Locked_RMW_Read ||
    type == .Load_Linked

/-- The data part of `hitCallback`: the block and the packet's data. -/
def hitData (r : SequencerRequest) (success : Bool) (data : DataBlock) :
    DataBlock × List UInt8 :=
  if r.pkt.isFlush then (data, r.pkt.data)
  else if r.type.fetches then (data, data.getData r.pkt.offset r.pkt.getSize)
  else if r.pkt.isSwap then
    (data.setData (r.pkt.writeData (List.replicate r.pkt.getSize 0)) r.pkt.offset,
      data.getData r.pkt.offset r.pkt.getSize)
  else if r.type ≠ .Store_Conditional ∨ success then
    (data.setData r.pkt.data r.pkt.offset, r.pkt.data)
  else (data, r.pkt.data)

/-- What a callback works on: the monitor and the block of a line. -/
structure LineData where
  monitor : Option ℤ
  data : DataBlock

/-- `hitCallback`. -/
def hit (version : ℤ) (l : LineData) (r : SequencerRequest) (success : Bool) : LineData × Hit :=
  let monitor := if r.type = .Load_Linked then llscLoadLinked version l.monitor else l.monitor
  let (data, bytes) := hitData r success l.data
  ({ monitor, data }, { request := r, success, data := bytes })

/-- A request served by a read callback. -/
def serveRead (version : ℤ) (l : LineData) (r : SequencerRequest) : LineData × Hit :=
  hit version l r true

/-- A request served by a write callback. -/
def serveWrite (version : ℤ) (l : LineData) (r : SequencerRequest) : LineData × Hit :=
  if r.type.isLoad then hit version l r true
  else
    let (success, monitor) := checkMonitor version l.monitor r.type
    hit version { l with monitor } r success

/-- The requests of a list served one after the other. -/
def serveAll (serve : LineData → SequencerRequest → LineData × Hit) :
    LineData → List SequencerRequest → LineData × List Hit
  | l, [] => (l, [])
  | l, r :: rs =>
    let (l, h) := serve l r
    let (l, hs) := serveAll serve l rs
    (l, h :: hs)

/-! ### The sequencer -/

inductive RequestStatus
  | Ready | Issued | Aliased | BufferFull
  deriving DecidableEq, Repr

/-- The sequencer, the lines its controller is blocked on, and the requests that are with the
controller. -/
structure Sequencer where
  version : ℤ
  maxOutstandingRequests : ℤ
  requestTable : ℕ → List SequencerRequest := fun _ => []
  outstandingCount : ℤ := 0
  blockMap : Finset ℕ := ∅
  /-- The requests issued and not answered: their lines and types. -/
  inFlight : List (ℕ × RubyRequestType) := []

namespace Sequencer

def setRequests (s : Sequencer) (line : ℕ) (reqs : List SequencerRequest) : Sequencer :=
  { s with requestTable := Function.update s.requestTable line reqs }

def insertRequest (s : Sequencer) (pkt : Packet) (primaryType secondaryType : RubyRequestType) :
    RequestStatus × Sequencer :=
  let reqs := s.requestTable pkt.line ++ [⟨pkt, primaryType, secondaryType⟩]
  let s := { s.setRequests pkt.line reqs with outstandingCount := s.outstandingCount + 1 }
  (if 1 < reqs.length then .Aliased else .Ready, s)

def markRemoved (s : Sequencer) : Sequencer := { s with outstandingCount := s.outstandingCount - 1 }

/-- The message of a request goes into the mandatory queue. -/
def enqueue (s : Sequencer) (pkt : Packet) (secondaryType : RubyRequestType) : Sequencer :=
  { s with inFlight := s.inFlight ++ [(pkt.line, secondaryType)] }

/-- The assertion is that of `getPtr`, from which the message has its data. -/
def issueRequest (s : Sequencer) (pkt : Packet) (secondaryType : RubyRequestType) :
    Sim Sequencer := do
  assert (pkt.isFlush || !pkt.isMaskedWrite) "!isMaskedWrite()"
  return s.enqueue pkt secondaryType

/-- The primary and the secondary type of a packet. -/
def requestTypes (pkt : Packet) : Sim (RubyRequestType × RubyRequestType) :=
  if pkt.isLLSC then
    if pkt.isWrite then .ok (.Store_Conditional, .ST)
    else do
      assert pkt.isRead "pkt->isRead()"
      return (.Load_Linked, .LD)
  else if pkt.isLockedRMW then
    if pkt.isWrite then .ok (.Locked_RMW_Write, .ST)
    else do
      assert pkt.isRead "pkt->isRead()"
      return (.Locked_RMW_Read, .ST)
  else if pkt.isWrite then .ok (.ST, .ST)
  else if pkt.isRead then
    if pkt.isInstFetch then .ok (.IFETCH, .IFETCH)
    else if pkt.storeCheck then .ok (.RMW_Read, .ST)
    else .ok (.LD, .LD)
  else if pkt.isFlush then .ok (.FLUSH, .FLUSH)
  else .error (.panic "Unsupported ruby packet type\n")

def makeRequest (s : Sequencer) (pkt : Packet) : Sim (RequestStatus × Sequencer) :=
  if s.outstandingCount ≥ s.maxOutstandingRequests then .ok (.BufferFull, s)
  else do
    let (primaryType, secondaryType) ← requestTypes pkt
    if pkt.line ∈ s.blockMap ∧ primaryType ≠ .Locked_RMW_Write then return (.Aliased, s)
    else
      let (status, s) := s.insertRequest pkt primaryType secondaryType
      if status = .Aliased then return (.Issued, s)
      else return (.Issued, ← s.issueRequest pkt secondaryType)

end Sequencer

/-- What the run of a callback's loop, or a run of the sequencer, can be seen to do. -/
inductive SequencerEvent
  | accepted (pkt : Packet)
  | completed (hit : Hit)
  /-- The protocol gave the line another block, or another monitor. -/
  | changed (line : ℕ) (l : LineData)

/-- The sequencer with the lines of its cache. -/
structure Core where
  seq : Sequencer
  lines : ℕ → LineData

namespace Core

def setLine (s : Core) (line : ℕ) (l : LineData) : Core :=
  { s with lines := Function.update s.lines line l }

/-- `makeRequest` of a packet that arrives. -/
def request (s : Core) (pkt : Packet) : Sim (List SequencerEvent × Core) := do
  let (status, seq) ← s.seq.makeRequest pkt
  return (if status = .Issued then [.accepted pkt] else [], { s with seq })

/-- The packets a port sends again when it is told to retry. -/
def retry (s : Core) : List Packet → Sim (List SequencerEvent × Core)
  | [] => .ok ([], s)
  | pkt :: pkts => do
    let (events, s) ← s.request pkt
    let (events', s) ← s.retry pkts
    return (events ++ events', s)

/-- `getData` and `memcpy` stay within the block. -/
def checkBounds (B : ℕ) (r : SequencerRequest) : Sim Unit :=
  if r.pkt.isFlush || r.pkt.offset + r.pkt.getSize ≤ B then .ok ()
  else if r.type.fetches || r.pkt.isSwap then
    .error (.assertion "offset + len <= RubySystem::getBlockSizeBytes()")
  else .error (.undefined "memcpy")

/-- A loop over the requests of a line: `retries` are the packets that each `hitCallback` makes the
ports send again, `rubyRequest` says that no request was served yet. -/
structure Drain where
  core : Core
  retries : List (List Packet)
  rubyRequest : Bool := true
  reissued : Bool := false
  events : List SequencerEvent := []

namespace Drain

/-- `hitCallback` of the first request, the retries it causes, and `pop_front`. -/
def complete (B line : ℕ) (d : Drain) (r : SequencerRequest)
    (serve : ℤ → LineData → SequencerRequest → LineData × Hit) : Sim Drain := do
  checkBounds B r
  let core := { d.core with seq := d.core.seq.markRemoved }
  let (l, hit) := serve core.seq.version (core.lines line) r
  let (events, core) ← (core.setLine line l).retry (d.retries.headD [])
  return { d with
    core := { core with seq := core.seq.setRequests line (core.seq.requestTable line).tail }
    retries := d.retries.tail
    rubyRequest := false
    events := d.events ++ .completed hit :: events }

/-- A round of the loop of `writeCallback`. -/
def writeRound (B line : ℕ) (d : Drain) : Sim Drain :=
  match d.core.seq.requestTable line with
  | [] => .ok d
  | r :: _ => do
    assert (!d.rubyRequest || !r.type.isLoad) "seq_req.m_type != RubyRequestType_LD"
    let blockMap :=
      if r.type = .Locked_RMW_Read then insert line d.core.seq.blockMap
      else if r.type = .Locked_RMW_Write then d.core.seq.blockMap.erase line
      else d.core.seq.blockMap
    let d := { d with core := { d.core with seq := { d.core.seq with blockMap } } }
    d.complete B line r serveWrite

/-- A round of the loop of `readCallback`: the first write goes to the controller. -/
def readRound (B line : ℕ) (d : Drain) : Sim Drain :=
  match d.core.seq.requestTable line with
  | [] => .ok d
  | r :: _ => do
    assert (!d.rubyRequest || r.type.isLoad) "seq_req.m_type == RubyRequestType_LD"
    if !r.type.isLoad then
      let seq ← d.core.seq.issueRequest r.pkt r.secondType
      return { d with core := { d.core with seq }, reissued := true }
    else d.complete B line r serveRead

/-- The rounds left: each takes a request from the list, and only a retry adds one. -/
def rounds (line : ℕ) (d : Drain) : ℕ :=
  (d.core.seq.requestTable line).length + (d.retries.map List.length).sum

def continues (line : ℕ) (d : Drain) : Bool :=
  !(d.core.seq.requestTable line).isEmpty && !d.reissued

end Drain

def writeCallback (B : ℕ) (s : Core) (line : ℕ) (retries : List (List Packet)) :
    Sim (List SequencerEvent × Core) := do
  assert (!(s.seq.requestTable line).isEmpty) "m_RequestTable.find(address) != m_RequestTable.end()"
  let d : Drain := { core := s, retries }
  let d ← Loop.whileLoop .diverges (Drain.continues line) (Drain.writeRound B line)
    (d.rounds line + 1) d
  return (d.events, d.core)

def readCallback (B : ℕ) (s : Core) (line : ℕ) (retries : List (List Packet)) :
    Sim (List SequencerEvent × Core) := do
  assert (!(s.seq.requestTable line).isEmpty) "m_RequestTable.find(address) != m_RequestTable.end()"
  let d : Drain := { core := s, retries }
  let d ← Loop.whileLoop .diverges (Drain.continues line) (Drain.readRound B line)
    (d.rounds line + 1) d
  return (d.events, d.core)

/-- What can happen: a packet arrives, the controller answers the request that is `i`-th of those it
has, or the protocol changes a line. -/
inductive Op
  | request (pkt : Packet)
  | answer (i : ℕ) (retries : List (List Packet))
  | change (line : ℕ) (l : LineData)

/-- The controller calls back as the type of the request asks for. -/
def answer (B : ℕ) (s : Core) (i : ℕ) (retries : List (List Packet)) :
    Sim (List SequencerEvent × Core) :=
  match s.seq.inFlight[i]? with
  | none => .ok ([], s)
  | some (line, type) =>
    let s := { s with seq := { s.seq with inFlight := s.seq.inFlight.eraseIdx i } }
    if type.isLoad then s.readCallback B line retries else s.writeCallback B line retries

def step (B : ℕ) (s : Core) : Op → Sim (List SequencerEvent × Core)
  | .request pkt => s.request pkt
  | .answer i retries => s.answer B i retries
  | .change line l => .ok ([.changed line l], s.setLine line l)

end Core

/-! ### What a core should see -/

namespace Packet

/-- A load, store, fetch, LL, SC or part of a locked pair within one line. -/
structure Regular (B : ℕ) (pkt : Packet) : Prop where
  access : pkt.isRead = true ∨ pkt.isWrite = true
  notFlush : pkt.isFlush = false
  swap : pkt.isSwap = true → pkt.isLLSC = false
  bounds : pkt.offset + pkt.getSize ≤ B

/-- No byte of the packet is masked out. -/
def Whole (pkt : Packet) : Prop := pkt.isMaskedWrite = false

end Packet

/-- The block after a request has been served: a store writes the bytes its packet enables. -/
def Hit.apply (h : Hit) (data : DataBlock) : DataBlock :=
  if h.request.type.fetches ∨ h.request.type = .Store_Conditional ∧ h.success = false then data
  else data.setData
    (h.request.pkt.writeData (data.getData h.request.pkt.offset h.request.pkt.getSize))
    h.request.pkt.offset

namespace SequencerEvent

def packet? : SequencerEvent → Option Packet
  | .accepted pkt => some pkt
  | _ => none

def hit? : SequencerEvent → Option Hit
  | .completed hit => some hit
  | _ => none

end SequencerEvent

def accepted (log : List SequencerEvent) : List Packet := log.filterMap SequencerEvent.packet?

def completed (log : List SequencerEvent) : List Hit := log.filterMap SequencerEvent.hit?

def acceptedTo (line : ℕ) (log : List SequencerEvent) : List Packet :=
  (accepted log).filter fun pkt => decide (pkt.line = line)

def completedTo (line : ℕ) (log : List SequencerEvent) : List Hit :=
  (completed log).filter fun h => decide (h.request.pkt.line = line)

/-- The contents of a line after an event. -/
def contentsStep (line : ℕ) (data : DataBlock) : SequencerEvent → DataBlock
  | .accepted _ => data
  | .completed h => if h.request.pkt.line = line then h.apply data else data
  | .changed line' l => if line' = line then l.data else data

/-- The contents of a line: what the protocol gave last, with the stores served since. -/
def contents (data : DataBlock) (line : ℕ) (log : List SequencerEvent) : DataBlock :=
  log.foldl (contentsStep line) data

/-- Every request that returns data returns the contents of its line. -/
def Lawful (start : ℕ → DataBlock) (log : List SequencerEvent) : Prop :=
  ∀ pre h post, log = pre ++ .completed h :: post →
    h.request.type.fetches = true ∨ h.request.pkt.isSwap = true →
      h.data = (contents (start h.request.pkt.line) h.request.pkt.line pre).getData
        h.request.pkt.offset h.request.pkt.getSize

/-- The requests of a line that are with the controller. -/
def Sequencer.inFlightTo (s : Sequencer) (line : ℕ) : List RubyRequestType :=
  (s.inFlight.filter fun x => decide (x.1 = line)).map Prod.snd

def Core.Op.packets : Core.Op → List Packet
  | .request pkt => [pkt]
  | .answer _ retries => retries.flatten
  | .change _ _ => []

/-- A sequencer with no requests, over a cache. -/
def Core.start (version maxOutstandingRequests : ℤ) (lines : ℕ → LineData) : Core :=
  { seq := { version, maxOutstandingRequests }, lines }

end Gem5Nvm.Ruby
