import Gem5Nvm.Sequencer

/-!
# The MI_example protocol

The L1 caches, the directory and the DMA controllers of `mem/ruby/protocol/MI_example-*.sm`, for one
line: the tables of their transitions, the actions and the messages in flight. `C` are the caches,
`D` the DMA controllers.

The forward network keeps the order of the messages to a cache. The requests of a cache and of a DMA
controller keep their order too, except that a recycled one goes behind the others. The responses to
a cache may be taken in any order. Lines share buffers, tables and latencies only, so that a line
may be treated as if there were no other; the requests a sequencer has for the line are given with
the step in which it is called. Profiling and evictions told to the processor are left out.
-/

namespace Gem5Nvm.MiExample

open Ruby (DataBlock SequencerRequest Hit RubyRequestType)
open Function (update)

/-! ### States, events and messages -/

namespace L1Cache

inductive State
  | I | II | M | MI | MII | IS | IM
  deriving DecidableEq, Repr

inductive Event
  | Load | Ifetch | Store | Data | Fwd_GETX | Inv | Replacement | Writeback_Ack | Writeback_Nack
  deriving DecidableEq, Repr

/-- A cache entry; `locked` is the monitor, and -1 when there is none. -/
structure Entry where
  cacheState : State := .I
  dataBlk : DataBlock := fun _ => 0
  locked : ℤ := -1

structure TBE where
  tbeState : State := .I
  dataBlk : DataBlock := fun _ => 0

/-- `setState` and `setAccessPermission` of an entry, which loses its monitor with its data. -/
def Entry.setState (entry : Entry) (state : State) : Entry :=
  { entry with cacheState := state, locked := if state = .I then -1 else entry.locked }

end L1Cache

namespace Directory

inductive State
  | I | M | M_DRD | M_DWR | M_DWRI | M_DRDI | IM | MI | ID | ID_W
  deriving DecidableEq, Repr

inductive Event
  | GETX | GETS | PUTX | PUTX_NotOwner | DMA_READ | DMA_WRITE | Memory_Data | Memory_Ack
  deriving DecidableEq, Repr

structure Entry (C : Type) where
  directoryState : State := .I
  sharers : Finset C := ∅
  owner : Finset C := ∅

structure TBE (D : Type) where
  physicalAddress : ℕ := 0
  tbeState : State := .I
  dataBlk : DataBlock := fun _ => 0
  len : ℕ := 0
  dmaRequestor : Option D := none

end Directory

namespace DMA

inductive State
  | READY | BUSY_RD | BUSY_WR
  deriving DecidableEq, Repr

inductive Event
  | ReadRequest | WriteRequest | Data | Ack
  deriving DecidableEq, Repr

structure TBE where
  tbeState : State := .READY
  dataBlk : DataBlock := fun _ => 0

end DMA

inductive CoherenceRequestType
  | GETX | GETS | PUTX | WB_ACK | WB_NACK | INV
  deriving DecidableEq, Repr

/-- A request, or a message on the forward network; the requestor of an invalidation is the
directory. -/
structure RequestMsg (C : Type) where
  type : CoherenceRequestType
  requestor : Option C := none
  dataBlk : DataBlock := fun _ => 0

/-- A response, which is always `DATA`. -/
structure ResponseMsg where
  dataBlk : DataBlock

inductive DMARequestType
  | READ | WRITE
  deriving DecidableEq, Repr

structure DMARequestMsg where
  type : DMARequestType
  physicalAddress : ℕ
  dataBlk : DataBlock
  len : ℕ

inductive SequencerRequestType
  | LD | ST
  deriving DecidableEq, Repr

structure SequencerMsg where
  physicalAddress : ℕ
  type : SequencerRequestType
  dataBlk : DataBlock := fun _ => 0
  len : ℕ

/-- The message of `DMASequencer::makeRequest` for `data`, or room for it, at `paddr`; a request
that goes beyond the line is cut there. -/
def makeRequest (B paddr : ℕ) (write : Bool) (data : List UInt8) : SequencerMsg :=
  let offset := paddr % B
  let len := if offset + data.length ≤ B then data.length else B - offset
  { physicalAddress := paddr
    type := if write then .ST else .LD
    dataBlk := if write then DataBlock.setData (fun _ => 0) (data.take len) offset else fun _ => 0
    len }

inductive DMAResponseType
  | DATA | ACK
  deriving DecidableEq, Repr

structure DMAResponseMsg where
  type : DMAResponseType
  dataBlk : DataBlock := fun _ => 0

inductive MemoryRequestType
  | MEMORY_READ | MEMORY_WB
  deriving DecidableEq, Repr

/-- Who a memory request is made for. -/
inductive Requestor (C D : Type)
  | cache (c : C)
  | dma (d : D)

/-- A request to the memory, or its response. -/
structure MemoryMsg (C D : Type) where
  type : MemoryRequestType
  sender : Requestor C D
  dataBlk : DataBlock := fun _ => 0
  len : ℕ := 0

/-- One line, in all controllers, the memory and the network. -/
structure Line (C D : Type) where
  cacheEntry : C → Option L1Cache.Entry := fun _ => none
  cacheTbe : C → Option L1Cache.TBE := fun _ => none
  entry : Directory.Entry C := {}
  tbe : Option (Directory.TBE D) := none
  dmaTbe : D → Option DMA.TBE := fun _ => none
  memory : DataBlock
  requestToDir : C → List (RequestMsg C) := fun _ => []
  forwardToCache : C → List (RequestMsg C) := fun _ => []
  responseToCache : C → List ResponseMsg := fun _ => []
  dmaRequestToDir : D → List DMARequestMsg := fun _ => []
  dmaResponseFromDir : D → List DMAResponseMsg := fun _ => []
  requestToMemory : List (MemoryMsg C D) := []
  responseFromMemory : List (MemoryMsg C D) := []
  /-- The requests the sequencers have served. -/
  hits : List (C × Hit) := []

variable {C D : Type} [DecidableEq C] [DecidableEq D]

/-- What is read through a pointer, or from a queue, that must not be empty. -/
def need {α : Type} (msg : String) : Option α → Sim α
  | some a => .ok a
  | none => .error (.undefined msg)

/-- `assert(is_valid(x))`. -/
def valid {α : Type} (msg : String) : Option α → Sim α
  | some a => .ok a
  | none => .error (.assertion msg)

/-! ### L1 caches -/

namespace L1Cache

inductive Action
  | aIssueRequest | bIssuePUT | eSendData | eeSendDataFromTBE | iAllocateL1CacheBlock
  | hDeallocateL1CacheBlock | nPopResponseQueue | oPopForwardedRequestQueue | rLoadHit | rxLoadHit
  | sStoreHit | sxStoreHit | uWriteDataToCache | vAllocateTBE | wDeallocateTBE
  | xCopyDataFromCacheToTBE | zStall
  deriving DecidableEq, Repr

/-- The actions of a transition and the next state. -/
def transition : State → Event → Option (List Action × State)
  | .IS, .Load | .IS, .Ifetch | .IS, .Store | .IS, .Replacement => some ([.zStall], .IS)
  | .IM, .Load | .IM, .Ifetch | .IM, .Store | .IM, .Replacement => some ([.zStall], .IM)
  | .MI, .Load | .MI, .Ifetch | .MI, .Store | .MI, .Replacement => some ([.zStall], .MI)
  | .II, .Load | .II, .Ifetch | .II, .Store | .II, .Replacement => some ([.zStall], .II)
  | .MII, .Load | .MII, .Ifetch | .MII, .Store | .MII, .Replacement => some ([.zStall], .MII)
  | .IS, .Fwd_GETX | .IS, .Inv => some ([.zStall], .IS)
  | .IM, .Fwd_GETX | .IM, .Inv => some ([.zStall], .IM)
  | .MI, .Inv => some ([.oPopForwardedRequestQueue], .MI)
  | .M, .Store => some ([.sStoreHit], .M)
  | .M, .Load | .M, .Ifetch => some ([.rLoadHit], .M)
  | .I, .Inv => some ([.oPopForwardedRequestQueue], .I)
  | .I, .Store => some ([.vAllocateTBE, .iAllocateL1CacheBlock, .aIssueRequest], .IM)
  | .I, .Load | .I, .Ifetch =>
    some ([.vAllocateTBE, .iAllocateL1CacheBlock, .aIssueRequest], .IS)
  | .IS, .Data => some ([.uWriteDataToCache, .rxLoadHit, .wDeallocateTBE, .nPopResponseQueue], .M)
  | .IM, .Data => some ([.uWriteDataToCache, .sxStoreHit, .wDeallocateTBE, .nPopResponseQueue], .M)
  | .M, .Fwd_GETX => some ([.eSendData, .oPopForwardedRequestQueue], .I)
  | .I, .Replacement => some ([.hDeallocateL1CacheBlock], .I)
  | .M, .Replacement | .M, .Inv =>
    some ([.vAllocateTBE, .bIssuePUT, .xCopyDataFromCacheToTBE, .hDeallocateL1CacheBlock], .MI)
  | .MI, .Writeback_Ack => some ([.wDeallocateTBE, .oPopForwardedRequestQueue], .I)
  | .MI, .Fwd_GETX => some ([.eeSendDataFromTBE, .oPopForwardedRequestQueue], .II)
  | .MI, .Writeback_Nack => some ([.oPopForwardedRequestQueue], .MII)
  | .MII, .Fwd_GETX =>
    some ([.eeSendDataFromTBE, .wDeallocateTBE, .oPopForwardedRequestQueue], .I)
  | .II, .Writeback_Nack => some ([.wDeallocateTBE, .oPopForwardedRequestQueue], .I)
  | _, _ => none

end L1Cache

namespace Line

def getCacheState (s : Line C D) (c : C) : L1Cache.State :=
  match s.cacheTbe c with
  | some tbe => tbe.tbeState
  | none =>
    match s.cacheEntry c with
    | some entry => entry.cacheState
    | none => .I

def setCacheState (s : Line C D) (c : C) (state : L1Cache.State) : Line C D :=
  { s with
    cacheTbe := update s.cacheTbe c
      ((s.cacheTbe c).map fun tbe => { tbe with tbeState := state })
    cacheEntry := update s.cacheEntry c
      ((s.cacheEntry c).map fun entry => entry.setState state) }

def setRequests (s : Line C D) (c : C) (msgs : List (RequestMsg C)) : Line C D :=
  { s with requestToDir := update s.requestToDir c msgs }

def setForwards (s : Line C D) (c : C) (msgs : List (RequestMsg C)) : Line C D :=
  { s with forwardToCache := update s.forwardToCache c msgs }

def setResponses (s : Line C D) (c : C) (msgs : List ResponseMsg) : Line C D :=
  { s with responseToCache := update s.responseToCache c msgs }

def sendRequest (s : Line C D) (c : C) (msg : RequestMsg C) : Line C D :=
  s.setRequests c (s.requestToDir c ++ [msg])

/-- `DATA` for a cache. -/
def sendData (s : Line C D) (c : C) (block : DataBlock) : Line C D :=
  s.setResponses c (s.responseToCache c ++ [{ dataBlk := block }])

def setCacheEntry (s : Line C D) (c : C) (entry : Option L1Cache.Entry) : Line C D :=
  { s with cacheEntry := update s.cacheEntry c entry }

def setCacheTbe (s : Line C D) (c : C) (tbe : Option L1Cache.TBE) : Line C D :=
  { s with cacheTbe := update s.cacheTbe c tbe }

end Line

/-- The version of a cache's sequencer. A cache has one sequencer, so that only whether an entry is
locked by it matters. -/
def version : ℤ := 0

/-- `readCallback` of a sequencer: the loads in front of its requests are served. -/
def readCallback (entry : L1Cache.Entry) (reqs : List SequencerRequest) :
    L1Cache.Entry × List Hit :=
  let (l, hits) := Ruby.serveAll (Ruby.serveRead version) ⟨some entry.locked, entry.dataBlk⟩
    (reqs.takeWhile fun r => r.type.isLoad)
  ({ entry with dataBlk := l.data, locked := l.monitor.getD (-1) }, hits)

/-- `writeCallback` of a sequencer: all its requests are served. -/
def writeCallback (entry : L1Cache.Entry) (reqs : List SequencerRequest) :
    L1Cache.Entry × List Hit :=
  let (l, hits) := Ruby.serveAll (Ruby.serveWrite version) ⟨some entry.locked, entry.dataBlk⟩ reqs
  ({ entry with dataBlk := l.data, locked := l.monitor.getD (-1) }, hits)

namespace Line

def addHits (s : Line C D) (c : C) (hits : List Hit) : Line C D :=
  { s with hits := s.hits ++ hits.map fun hit => (c, hit) }

/-- The actions of a cache; `i` is the place of the response in the buffer, `reqs` what the sequencer
has for the line. -/
def performCache (c : C) (i : ℕ) (reqs : List SequencerRequest) (s : Line C D) :
    L1Cache.Action → Sim (Line C D)
  | .aIssueRequest => .ok (s.sendRequest c { type := .GETX, requestor := some c })
  | .bIssuePUT => do
    let entry ← valid "is_valid(cache_entry)" (s.cacheEntry c)
    return s.sendRequest c { type := .PUTX, requestor := some c, dataBlk := entry.dataBlk }
  | .eSendData => do
    let msg ← need "peek" (s.forwardToCache c).head?
    let entry ← valid "is_valid(cache_entry)" (s.cacheEntry c)
    let requestor ← need "DATA for the directory" msg.requestor
    return s.sendData requestor entry.dataBlk
  | .eeSendDataFromTBE => do
    let msg ← need "peek" (s.forwardToCache c).head?
    let tbe ← valid "is_valid(tbe)" (s.cacheTbe c)
    let requestor ← need "DATA for the directory" msg.requestor
    return s.sendData requestor tbe.dataBlk
  | .iAllocateL1CacheBlock =>
    match s.cacheEntry c with
    | some _ => .ok s
    | none => .ok (s.setCacheEntry c (some {}))
  | .hDeallocateL1CacheBlock => .ok (s.setCacheEntry c none)
  | .nPopResponseQueue => .ok (s.setResponses c ((s.responseToCache c).eraseIdx i))
  | .oPopForwardedRequestQueue => .ok (s.setForwards c (s.forwardToCache c).tail)
  | .rLoadHit | .rxLoadHit => do
    let entry ← valid "is_valid(cache_entry)" (s.cacheEntry c)
    let (entry, hits) := readCallback entry reqs
    return (s.setCacheEntry c (some entry)).addHits c hits
  | .sStoreHit | .sxStoreHit => do
    let entry ← valid "is_valid(cache_entry)" (s.cacheEntry c)
    let (entry, hits) := writeCallback entry reqs
    return (s.setCacheEntry c (some entry)).addHits c hits
  | .uWriteDataToCache => do
    let msg ← need "peek" (s.responseToCache c)[i]?
    let entry ← valid "is_valid(cache_entry)" (s.cacheEntry c)
    return s.setCacheEntry c (some { entry with dataBlk := msg.dataBlk })
  | .vAllocateTBE => do
    assert (s.cacheTbe c).isNone "!isPresent(address)"
    return s.setCacheTbe c (some {})
  | .wDeallocateTBE => do
    assert (s.cacheTbe c).isSome "isPresent(address)"
    return s.setCacheTbe c none
  | .xCopyDataFromCacheToTBE => do
    let entry ← valid "is_valid(cache_entry)" (s.cacheEntry c)
    let tbe ← valid "is_valid(tbe)" (s.cacheTbe c)
    return s.setCacheTbe c (some { tbe with dataBlk := entry.dataBlk })
  | .zStall => .ok s

/-- `doTransition` of a cache. -/
def triggerCache (s : Line C D) (c : C) (event : L1Cache.Event) (i : ℕ)
    (reqs : List SequencerRequest) : Sim (Line C D) :=
  match L1Cache.transition (s.getCacheState c) event with
  | none => .error (.panic "Invalid transition")
  | some (actions, next) =>
    if L1Cache.Action.zStall ∈ actions then .ok s
    else do
      let s ← actions.foldlM (performCache c i reqs) s
      return s.setCacheState c next

/-- The event of a message on the forward network. -/
def forwardEvent : CoherenceRequestType → Sim L1Cache.Event
  | .GETX => .ok .Fwd_GETX
  | .WB_ACK => .ok .Writeback_Ack
  | .WB_NACK => .ok .Writeback_Nack
  | .INV => .ok .Inv
  | _ => .error (.panic "Unexpected message")

/-- `forwardRequestNetwork_in`. -/
def takeForward (s : Line C D) (c : C) : Sim (Line C D) :=
  match s.forwardToCache c with
  | [] => .ok s
  | msg :: _ => do
    let event ← forwardEvent msg.type
    s.triggerCache c event 0 []

/-- `responseNetwork_in`. -/
def takeResponse (s : Line C D) (c : C) (i : ℕ) (reqs : List SequencerRequest) :
    Sim (Line C D) :=
  if i < (s.responseToCache c).length then s.triggerCache c .Data i reqs else .ok s

end Line

/-! ### Directory -/

namespace Directory

inductive Action
  | lSendWriteBackAck | bSendWriteBackNack | cClearOwner | dSendData | drSendDMAData
  | drpSendDMAData | daSendDMAAck | eOwnerIsRequestor | fForwardRequest | invSendCacheInvalidate
  | iPopIncomingRequestQueue | pPopIncomingDMARequestQueue | vAllocateTBE | rAllocateTbeForDmaRead
  | vAllocateTBEFromRequestNet | wDeallocateTBE | zRecycleRequestQueue | yRecycleDMARequestQueue
  | qfQueueMemoryFetchRequest | qfQueueMemoryFetchRequestDMA | qwQueueMemoryWBRequestPartial
  | qwQueueMemoryWBRequestPartialTBE | lQueueMemoryWBRequest | lPopMemQueue
  deriving DecidableEq, Repr

def transition : State → Event → Option (List Action × State)
  | .M_DRD, .GETX => some ([.zRecycleRequestQueue], .M_DRD)
  | .M_DWR, .GETX => some ([.zRecycleRequestQueue], .M_DWR)
  | .M_DWRI, .GETX => some ([.zRecycleRequestQueue], .M_DWRI)
  | .M_DRDI, .GETX => some ([.zRecycleRequestQueue], .M_DRDI)
  | .IM, .GETX | .IM, .GETS | .IM, .PUTX | .IM, .PUTX_NotOwner =>
    some ([.zRecycleRequestQueue], .IM)
  | .MI, .GETX | .MI, .GETS | .MI, .PUTX | .MI, .PUTX_NotOwner =>
    some ([.zRecycleRequestQueue], .MI)
  | .ID, .GETX | .ID, .GETS | .ID, .PUTX | .ID, .PUTX_NotOwner =>
    some ([.zRecycleRequestQueue], .ID)
  | .ID_W, .GETX | .ID_W, .GETS | .ID_W, .PUTX | .ID_W, .PUTX_NotOwner =>
    some ([.zRecycleRequestQueue], .ID_W)
  | .IM, .DMA_READ | .IM, .DMA_WRITE => some ([.yRecycleDMARequestQueue], .IM)
  | .MI, .DMA_READ | .MI, .DMA_WRITE => some ([.yRecycleDMARequestQueue], .MI)
  | .ID, .DMA_READ | .ID, .DMA_WRITE => some ([.yRecycleDMARequestQueue], .ID)
  | .ID_W, .DMA_READ | .ID_W, .DMA_WRITE => some ([.yRecycleDMARequestQueue], .ID_W)
  | .I, .GETX =>
    some ([.vAllocateTBEFromRequestNet, .qfQueueMemoryFetchRequest, .eOwnerIsRequestor,
      .iPopIncomingRequestQueue], .IM)
  | .IM, .Memory_Data => some ([.dSendData, .wDeallocateTBE, .lPopMemQueue], .M)
  | .I, .DMA_READ =>
    some ([.rAllocateTbeForDmaRead, .qfQueueMemoryFetchRequestDMA, .pPopIncomingDMARequestQueue],
      .ID)
  | .ID, .Memory_Data => some ([.drSendDMAData, .wDeallocateTBE, .lPopMemQueue], .I)
  | .I, .DMA_WRITE =>
    some ([.vAllocateTBE, .qwQueueMemoryWBRequestPartial, .pPopIncomingDMARequestQueue], .ID_W)
  | .ID_W, .Memory_Ack => some ([.daSendDMAAck, .wDeallocateTBE, .lPopMemQueue], .I)
  | .M, .DMA_READ =>
    some ([.vAllocateTBE, .invSendCacheInvalidate, .pPopIncomingDMARequestQueue], .M_DRD)
  | .M_DRD, .PUTX =>
    some ([.drpSendDMAData, .cClearOwner, .lQueueMemoryWBRequest, .iPopIncomingRequestQueue],
      .M_DRDI)
  | .M_DRDI, .Memory_Ack => some ([.lSendWriteBackAck, .wDeallocateTBE, .lPopMemQueue], .I)
  | .M, .DMA_WRITE =>
    some ([.vAllocateTBE, .invSendCacheInvalidate, .pPopIncomingDMARequestQueue], .M_DWR)
  | .M_DWR, .PUTX =>
    some ([.qwQueueMemoryWBRequestPartialTBE, .cClearOwner, .iPopIncomingRequestQueue], .M_DWRI)
  | .M_DWRI, .Memory_Ack =>
    some ([.lSendWriteBackAck, .daSendDMAAck, .wDeallocateTBE, .lPopMemQueue], .I)
  | .M, .GETX => some ([.fForwardRequest, .eOwnerIsRequestor, .iPopIncomingRequestQueue], .M)
  | .M, .PUTX =>
    some ([.cClearOwner, .vAllocateTBEFromRequestNet, .lQueueMemoryWBRequest,
      .iPopIncomingRequestQueue], .MI)
  | .MI, .Memory_Ack => some ([.lSendWriteBackAck, .wDeallocateTBE, .lPopMemQueue], .I)
  | .M, .PUTX_NotOwner => some ([.bSendWriteBackNack, .iPopIncomingRequestQueue], .M)
  | .I, .PUTX_NotOwner => some ([.bSendWriteBackNack, .iPopIncomingRequestQueue], .I)
  | _, _ => none

/-- The port an event comes from: a cache's requests, a DMA controller's, or the memory. -/
inductive Port (C D : Type)
  | request (c : C)
  | dma (d : D)
  | memory

end Directory

namespace Line

def getDirState (s : Line C D) : Directory.State :=
  match s.tbe with
  | some tbe => tbe.tbeState
  | none => s.entry.directoryState

def setDirTbe (s : Line C D) (tbe : Option (Directory.TBE D)) : Line C D := { s with tbe := tbe }

def setDirState (s : Line C D) (state : Directory.State) : Sim (Line C D) := do
  let s := s.setDirTbe (s.tbe.map fun tbe => { tbe with tbeState := state })
  assert (state != .M || s.entry.owner.card == 1) "Owner.count() == 1"
  assert (state != .M || s.entry.sharers.card == 0) "Sharers.count() == 0"
  assert (state != .I || s.entry.owner.card == 0) "Owner.count() == 0"
  assert (state != .I || s.entry.sharers.card == 0) "Sharers.count() == 0"
  return { s with entry := { s.entry with directoryState := state } }

/-- A message on the forward network. -/
def sendForward (s : Line C D) (destination : Finset C) (msg : RequestMsg C) : Line C D :=
  { s with forwardToCache := fun c =>
      if c ∈ destination then s.forwardToCache c ++ [msg] else s.forwardToCache c }

def setDmaResponses (s : Line C D) (d : D) (msgs : List DMAResponseMsg) : Line C D :=
  { s with dmaResponseFromDir := update s.dmaResponseFromDir d msgs }

def sendDmaResponse (s : Line C D) (d : D) (msg : DMAResponseMsg) : Line C D :=
  s.setDmaResponses d (s.dmaResponseFromDir d ++ [msg])

def queueMemory (s : Line C D) (msg : MemoryMsg C D) : Line C D :=
  { s with requestToMemory := s.requestToMemory ++ [msg] }

def setOwner (s : Line C D) (owner : Finset C) : Line C D :=
  { s with entry := { s.entry with owner } }

/-- `TBEs.allocate`. -/
def allocateDirTbe (s : Line C D) (tbe : Directory.TBE D) : Sim (Line C D) := do
  assert s.tbe.isNone "!isPresent(address)"
  return s.setDirTbe (some tbe)

def setDmaRequests (s : Line C D) (d : D) (msgs : List DMARequestMsg) : Line C D :=
  { s with dmaRequestToDir := update s.dmaRequestToDir d msgs }

/-- A recycled message goes behind the others. -/
def recycle {α : Type} (msgs : List α) : List α := msgs.tail ++ msgs.head?.toList

/-- `peek(requestQueue_in)`, with the requestor. -/
def peekRequest (s : Line C D) : Directory.Port C D → Sim (RequestMsg C × C)
  | .request c => do
    let msg ← need "peek" (s.requestToDir c).head?
    let requestor ← need "a request of the directory" msg.requestor
    return (msg, requestor)
  | _ => .error (.undefined "peek")

/-- `peek(dmaRequestQueue_in)`, with the requestor. -/
def peekDma (s : Line C D) : Directory.Port C D → Sim (DMARequestMsg × D)
  | .dma d => do
    let msg ← need "peek" (s.dmaRequestToDir d).head?
    return (msg, d)
  | _ => .error (.undefined "peek")

/-- `peek(memQueue_in)`. -/
def peekMemory (s : Line C D) : Directory.Port C D → Sim (MemoryMsg C D)
  | .memory => need "peek" s.responseFromMemory.head?
  | _ => .error (.undefined "peek")

/-- The cache a memory request was made for. -/
def cacheOf : Requestor C D → Sim C
  | .cache c => .ok c
  | .dma _ => .error (.undefined "a cache's message for a DMA controller")

/-- The DMA controller the TBE is for. -/
def dmaRequestor (s : Line C D) : Sim D := do
  let tbe ← valid "is_valid(tbe)" s.tbe
  need "DmaRequestor" tbe.dmaRequestor

/-- The actions of the directory on an event of the port. -/
def performDir (port : Directory.Port C D) (s : Line C D) : Directory.Action → Sim (Line C D)
  | .lSendWriteBackAck => do
    let msg ← s.peekMemory port
    let c ← cacheOf msg.sender
    return s.sendForward {c} { type := .WB_ACK, requestor := some c }
  | .bSendWriteBackNack => do
    let (_, c) ← s.peekRequest port
    return s.sendForward {c} { type := .WB_NACK, requestor := some c }
  | .cClearOwner => .ok (s.setOwner ∅)
  | .dSendData => do
    let msg ← s.peekMemory port
    let c ← cacheOf msg.sender
    return s.sendData c msg.dataBlk
  | .drSendDMAData => do
    let msg ← s.peekMemory port
    let d ← s.dmaRequestor
    return s.sendDmaResponse d { type := .DATA, dataBlk := msg.dataBlk }
  | .drpSendDMAData => do
    let (msg, _) ← s.peekRequest port
    let d ← s.dmaRequestor
    return s.sendDmaResponse d { type := .DATA, dataBlk := msg.dataBlk }
  | .daSendDMAAck => do
    let d ← s.dmaRequestor
    return s.sendDmaResponse d { type := .ACK }
  | .eOwnerIsRequestor => do
    let (_, c) ← s.peekRequest port
    return s.setOwner {c}
  | .fForwardRequest => do
    let (msg, c) ← s.peekRequest port
    return s.sendForward s.entry.owner { type := msg.type, requestor := some c }
  | .invSendCacheInvalidate => do
    let (_, _) ← s.peekDma port
    return s.sendForward s.entry.owner { type := .INV }
  | .iPopIncomingRequestQueue =>
    match port with
    | .request c => .ok (s.setRequests c (s.requestToDir c).tail)
    | _ => .error (.undefined "dequeue")
  | .pPopIncomingDMARequestQueue =>
    match port with
    | .dma d => .ok (s.setDmaRequests d (s.dmaRequestToDir d).tail)
    | _ => .error (.undefined "dequeue")
  | .vAllocateTBE => do
    let (msg, d) ← s.peekDma port
    s.allocateDirTbe
      { physicalAddress := msg.physicalAddress, dataBlk := msg.dataBlk, len := msg.len
        dmaRequestor := some d }
  | .rAllocateTbeForDmaRead => do
    let (_, d) ← s.peekDma port
    s.allocateDirTbe { dmaRequestor := some d }
  | .vAllocateTBEFromRequestNet => do
    let (msg, _) ← s.peekRequest port
    s.allocateDirTbe { dataBlk := msg.dataBlk }
  | .wDeallocateTBE => do
    assert s.tbe.isSome "isPresent(address)"
    return s.setDirTbe none
  | .zRecycleRequestQueue =>
    match port with
    | .request c => .ok (s.setRequests c (recycle (s.requestToDir c)))
    | _ => .error (.undefined "recycle")
  | .yRecycleDMARequestQueue =>
    match port with
    | .dma d => .ok (s.setDmaRequests d (recycle (s.dmaRequestToDir d)))
    | _ => .error (.undefined "recycle")
  | .qfQueueMemoryFetchRequest => do
    let (_, c) ← s.peekRequest port
    return s.queueMemory { type := .MEMORY_READ, sender := .cache c }
  | .qfQueueMemoryFetchRequestDMA => do
    let (_, d) ← s.peekDma port
    return s.queueMemory { type := .MEMORY_READ, sender := .dma d }
  | .qwQueueMemoryWBRequestPartial => do
    let (msg, d) ← s.peekDma port
    return s.queueMemory
      { type := .MEMORY_WB, sender := .dma d, dataBlk := msg.dataBlk, len := msg.len }
  | .qwQueueMemoryWBRequestPartialTBE => do
    let (_, c) ← s.peekRequest port
    let tbe ← need "tbe" s.tbe
    return s.queueMemory
      { type := .MEMORY_WB, sender := .cache c, dataBlk := tbe.dataBlk, len := tbe.len }
  | .lQueueMemoryWBRequest => do
    let (msg, c) ← s.peekRequest port
    return s.queueMemory { type := .MEMORY_WB, sender := .cache c, dataBlk := msg.dataBlk }
  | .lPopMemQueue => .ok { s with responseFromMemory := s.responseFromMemory.tail }

/-- `doTransition` of the directory. -/
def triggerDir (s : Line C D) (event : Directory.Event) (port : Directory.Port C D) :
    Sim (Line C D) :=
  match Directory.transition s.getDirState event with
  | none => .error (.panic "Invalid transition")
  | some (actions, next) => do
    let s ← actions.foldlM (performDir port) s
    s.setDirState next

/-- The event of a request of a cache. -/
def requestEvent (s : Line C D) (msg : RequestMsg C) : Sim Directory.Event :=
  match msg.type with
  | .GETS => .ok .GETS
  | .GETX => .ok .GETX
  | .PUTX =>
    .ok (if msg.requestor.any fun c => decide (c ∈ s.entry.owner) then .PUTX else .PUTX_NotOwner)
  | _ => .error (.panic "Invalid message")

/-- `requestQueue_in`. -/
def takeRequest (s : Line C D) (c : C) : Sim (Line C D) :=
  match s.requestToDir c with
  | [] => .ok s
  | msg :: _ => do
    let event ← s.requestEvent msg
    s.triggerDir event (.request c)

def dmaEvent : DMARequestType → Directory.Event
  | .READ => .DMA_READ
  | .WRITE => .DMA_WRITE

/-- `dmaRequestQueue_in` of the directory. -/
def takeDmaRequest (s : Line C D) (d : D) : Sim (Line C D) :=
  match s.dmaRequestToDir d with
  | [] => .ok s
  | msg :: _ => s.triggerDir (dmaEvent msg.type) (.dma d)

def memoryEvent : MemoryRequestType → Directory.Event
  | .MEMORY_READ => .Memory_Data
  | .MEMORY_WB => .Memory_Ack

/-- `memQueue_in`. -/
def takeMemory (s : Line C D) : Sim (Line C D) :=
  match s.responseFromMemory with
  | [] => .ok s
  | msg :: _ => s.triggerDir (memoryEvent msg.type) .memory

/-- The memory serves a request: a write of `len` bytes from the start of the line, or of the whole
line when `len` is 0. -/
def serveMemory (s : Line C D) : Line C D :=
  match s.requestToMemory with
  | [] => s
  | msg :: rest =>
    match msg.type with
    | .MEMORY_READ =>
      { s with
        requestToMemory := rest
        responseFromMemory := s.responseFromMemory ++ [{ msg with dataBlk := s.memory }] }
    | .MEMORY_WB =>
      { s with
        requestToMemory := rest
        responseFromMemory := s.responseFromMemory ++ [msg]
        memory := fun i => if msg.len = 0 ∨ i < msg.len then msg.dataBlk i else s.memory i }

end Line

/-! ### DMA controllers -/

namespace DMA

inductive Action
  | sSendReadRequest | sSendWriteRequest | tUpdateTBEData | vAllocateTBE | wDeallocateTBE
  | pPopResponseQueue | zzStallAndWaitRequestQueue
  deriving DecidableEq, Repr

def transition : State → Event → Option (List Action × State)
  | .READY, .ReadRequest => some ([.vAllocateTBE, .sSendReadRequest], .BUSY_RD)
  | .READY, .WriteRequest => some ([.vAllocateTBE, .sSendWriteRequest], .BUSY_WR)
  | .BUSY_RD, .Data => some ([.tUpdateTBEData, .wDeallocateTBE, .pPopResponseQueue], .READY)
  | .BUSY_WR, .Ack => some ([.wDeallocateTBE, .pPopResponseQueue], .READY)
  | .BUSY_RD, .ReadRequest | .BUSY_RD, .WriteRequest =>
    some ([.zzStallAndWaitRequestQueue], .BUSY_RD)
  | .BUSY_WR, .ReadRequest | .BUSY_WR, .WriteRequest =>
    some ([.zzStallAndWaitRequestQueue], .BUSY_WR)
  | _, _ => none

end DMA

namespace Line

def getDmaState (s : Line C D) (d : D) : DMA.State :=
  match s.dmaTbe d with
  | some tbe => tbe.tbeState
  | none => .READY

def setDmaTbe (s : Line C D) (d : D) (tbe : Option DMA.TBE) : Line C D :=
  { s with dmaTbe := update s.dmaTbe d tbe }

def setDmaState (s : Line C D) (d : D) (state : DMA.State) : Line C D :=
  s.setDmaTbe d ((s.dmaTbe d).map fun tbe => { tbe with tbeState := state })

def sendDmaRequest (s : Line C D) (d : D) (msg : DMARequestMsg) : Line C D :=
  s.setDmaRequests d (s.dmaRequestToDir d ++ [msg])

/-- The actions of a DMA controller; `msg` is what the DMA sequencer has for the line. -/
def performDma (d : D) (msg : Option SequencerMsg) (s : Line C D) : DMA.Action → Sim (Line C D)
  | .sSendReadRequest => do
    let msg ← need "peek" msg
    return s.sendDmaRequest d
      { type := .READ, physicalAddress := msg.physicalAddress, dataBlk := msg.dataBlk
        len := msg.len }
  | .sSendWriteRequest => do
    let msg ← need "peek" msg
    return s.sendDmaRequest d
      { type := .WRITE, physicalAddress := msg.physicalAddress, dataBlk := msg.dataBlk
        len := msg.len }
  | .tUpdateTBEData => do
    let tbe ← valid "is_valid(tbe)" (s.dmaTbe d)
    let msg ← need "peek" (s.dmaResponseFromDir d).head?
    return s.setDmaTbe d (some { tbe with dataBlk := msg.dataBlk })
  | .vAllocateTBE => do
    assert (s.dmaTbe d).isNone "!isPresent(address)"
    return s.setDmaTbe d (some {})
  | .wDeallocateTBE => do
    assert (s.dmaTbe d).isSome "isPresent(address)"
    return s.setDmaTbe d none
  | .pPopResponseQueue => .ok (s.setDmaResponses d (s.dmaResponseFromDir d).tail)
  | .zzStallAndWaitRequestQueue => .ok s

/-- `doTransition` of a DMA controller. -/
def triggerDma (s : Line C D) (d : D) (event : DMA.Event) (msg : Option SequencerMsg) :
    Sim (Line C D) :=
  match DMA.transition (s.getDmaState d) event with
  | none => .error (.panic "Invalid transition")
  | some (actions, next) => do
    let s ← actions.foldlM (performDma d msg) s
    return s.setDmaState d next

/-- `dmaResponseQueue_in`. -/
def takeDmaResponse (s : Line C D) (d : D) : Sim (Line C D) :=
  match s.dmaResponseFromDir d with
  | [] => .ok s
  | msg :: _ =>
    match msg.type with
    | .ACK => s.triggerDma d .Ack none
    | .DATA => s.triggerDma d .Data none

end Line

/-! ### Runs -/

/-- The event of a request in a mandatory queue. -/
def mandatoryRequestTypeToEvent : RubyRequestType → Sim L1Cache.Event
  | .LD => .ok .Load
  | .IFETCH => .ok .Ifetch
  | .ST | .ATOMIC => .ok .Store
  | _ => .error (.panic "Invalid RubyRequestType")

/-- The steps: a controller looks at one of its ports, or the memory serves a request. -/
inductive Op (C D : Type)
  | mandatory (c : C) (type : RubyRequestType) (reqs : List SequencerRequest)
  | replacement (c : C)
  | forward (c : C)
  | response (c : C) (i : ℕ) (reqs : List SequencerRequest)
  | request (c : C)
  | memoryResponse
  | memory
  | dmaMandatory (d : D) (msg : SequencerMsg)
  | dmaRequest (d : D)
  | dmaResponse (d : D)

namespace Line

def dmaMandatoryEvent : SequencerRequestType → DMA.Event
  | .LD => .ReadRequest
  | .ST => .WriteRequest

def next (s : Line C D) : Op C D → Sim (Line C D)
  | .mandatory c type reqs => do
    let event ← mandatoryRequestTypeToEvent type
    s.triggerCache c event 0 reqs
  | .replacement c => s.triggerCache c .Replacement 0 []
  | .forward c => s.takeForward c
  | .response c i reqs => s.takeResponse c i reqs
  | .request c => s.takeRequest c
  | .memoryResponse => s.takeMemory
  | .memory => .ok s.serveMemory
  | .dmaMandatory d msg => s.triggerDma d (dmaMandatoryEvent msg.type) (some msg)
  | .dmaRequest d => s.takeDmaRequest d
  | .dmaResponse d => s.takeDmaResponse d

end Line

/-- All lines; a step is one of a line. -/
def step (lines : ℕ → Line C D) (o : ℕ × Op C D) : Sim (Unit × (ℕ → Line C D)) := do
  let line ← (lines o.1).next o.2
  return ((), update lines o.1 line)

/-- The requests a sequencer sends to MI_example. -/
def Op.Offered : Op C D → Prop
  | .mandatory _ type _ => type = .LD ∨ type = .IFETCH ∨ type = .ST ∨ type = .ATOMIC
  | _ => True

def Op.StartsDma : Op C D → Prop
  | .dmaMandatory _ _ => True
  | _ => False

/-- The states of a directory that waits for the owner of the line, or for its block to be in the
memory, on behalf of a DMA controller. -/
def Directory.State.DmaBusy (state : Directory.State) : Prop :=
  state = .M_DRD ∨ state = .M_DWR ∨ state = .M_DRDI ∨ state = .M_DWRI

namespace Line

/-- While the directory is busy for a DMA controller, no write-back of a cache that is no longer the
owner and no further DMA request is at its ports. -/
def Handled (s : Line C D) : Op C D → Prop
  | .request c => s.getDirState.DmaBusy →
    ∀ msg ∈ (s.requestToDir c).head?, msg.type = .PUTX → c ∈ s.entry.owner
  | .dmaRequest d => s.getDirState.DmaBusy → s.dmaRequestToDir d = []
  | _ => True

end Line

/-! ### What the lines hold -/

/-- The copies of the line that count: on the way to a cache, in the entry of a cache that has it, in
the TBE of a cache that writes it back or is to pass it on, and otherwise in the memory; while a
write-back is on its way to the memory, the block is the one of the cache. -/
inductive Line.Current (s : Line C D) : DataBlock → Prop
  | response {c : C} {msg : ResponseMsg} (hmsg : msg ∈ s.responseToCache c) : Current s msg.dataBlk
  | entry {c : C} {entry : L1Cache.Entry} (htbe : s.cacheTbe c = none)
    (hentry : s.cacheEntry c = some entry) (hM : entry.cacheState = .M) : Current s entry.dataBlk
  | tbe {c : C} {tbe : L1Cache.TBE} (htbe : s.cacheTbe c = some tbe) (hMI : tbe.tbeState = .MI)
    (hkept : s.requestToDir c ≠ [] ∨
      ∃ r, { type := .GETX, requestor := some r } ∈ s.forwardToCache c) : Current s tbe.dataBlk
  | writeBack {c : C} {tbe : L1Cache.TBE} {msg : MemoryMsg C D} (hmsg : s.requestToMemory = [msg])
    (htype : msg.type = .MEMORY_WB) (hsender : msg.sender = .cache c)
    (htbe : s.cacheTbe c = some tbe) : Current s tbe.dataBlk
  | memory (hstate : s.entry.directoryState ≠ .M ∧ s.entry.directoryState ≠ .M_DRD ∧
      s.entry.directoryState ≠ .M_DWR)
    (hmsg : ∀ msg ∈ s.requestToMemory, ∀ c, msg.type = .MEMORY_WB → msg.sender ≠ .cache c) :
    Current s s.memory

/-- The memory is about to carry out the write of `data` at `paddr` that a DMA sequencer asked for. -/
def Line.Writing (s : Line C D) (B paddr : ℕ) (data : List UInt8) : Prop :=
  s.requestToMemory ≠ [] ∧ ∃ tbe, s.tbe = some tbe ∧
    (tbe.tbeState = .ID_W ∨ tbe.tbeState = .M_DWRI) ∧
    tbe.physicalAddress = (makeRequest B paddr true data).physicalAddress ∧
    tbe.dataBlk = (makeRequest B paddr true data).dataBlk ∧
    tbe.len = (makeRequest B paddr true data).len

/-- The bytes of a line that a DMA write leaves to chance: it writes as many bytes as it has from
the start of the line, zeros in front of its data, and leaves the others to the memory. -/
def WritesExactly (B paddr : ℕ) (data : List UInt8) (block memory : DataBlock) : Prop :=
  ∀ i < B, if data = [] ∨ i < data.length then (data = [] ∨ i < paddr % B → block i = 0)
    else memory i = block.setData data (paddr % B) i

/-- Whether a completed request stored its packet at the byte `i` of the line. -/
def storedAt (i : ℕ) (hit : Hit) : Bool :=
  let r := hit.request
  !r.pkt.isFlush && !r.type.fetches &&
    (r.type != .Store_Conditional || hit.success || r.pkt.isSwap) &&
    decide (r.pkt.offset ≤ i ∧ i < r.pkt.offset + r.pkt.getSize)

/-- The byte of the last of the completed stores at `i`, or that of the memory. -/
def lastStored (memory : DataBlock) (hits : List (C × Hit)) (i : ℕ) : UInt8 :=
  match hits.reverse.find? (fun x => storedAt i x.2) with
  | some x => x.2.request.pkt.data.getD (i - x.2.request.pkt.offset) 0
  | none => memory i

/-- The block after the completed requests, from what it was. -/
def stored (block : DataBlock) (hits : List (C × Hit)) : DataBlock :=
  hits.foldl (fun block x => (Ruby.hitData x.2.request x.2.success block).1) block

/-- Empty caches and buffers over a memory. -/
def start (memory : ℕ → DataBlock) : ℕ → Line C D := fun addr => { memory := memory addr }

end Gem5Nvm.MiExample
