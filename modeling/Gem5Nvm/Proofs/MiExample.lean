import Gem5Nvm.MiExample

/-!
# MI_example: the messages in flight

What a cache has of a line, with the messages to and from it, is its view. A transition of a cache
changes its own view and may send a block to another cache; a transition of the directory changes
the directory's part and the buffers in some views.
-/

namespace Gem5Nvm.MiExample

open Ruby (DataBlock SequencerRequest Hit RubyRequestType)
open Function (update update_eq_self)

variable {C D : Type}

/-- What a cache has of the line, and its buffers. -/
structure View (C : Type) where
  entry : Option L1Cache.Entry
  tbe : Option L1Cache.TBE
  requests : List (RequestMsg C)
  forwards : List (RequestMsg C)
  responses : List ResponseMsg

namespace Line

def view (s : Line C D) (c : C) : View C :=
  { entry := s.cacheEntry c
    tbe := s.cacheTbe c
    requests := s.requestToDir c
    forwards := s.forwardToCache c
    responses := s.responseToCache c }

variable [DecidableEq C]

def setView (s : Line C D) (c : C) (v : View C) : Line C D :=
  { s with
    cacheEntry := update s.cacheEntry c v.entry
    cacheTbe := update s.cacheTbe c v.tbe
    requestToDir := update s.requestToDir c v.requests
    forwardToCache := update s.forwardToCache c v.forwards
    responseToCache := update s.responseToCache c v.responses }

@[simp] theorem view_setView_self (s : Line C D) (c : C) (v : View C) :
    (s.setView c v).view c = v := by
  simp [view, setView]

@[simp] theorem view_setView_of_ne (s : Line C D) {c c' : C} (v : View C) (h : c' ≠ c) :
    (s.setView c v).view c' = s.view c' := by
  simp [view, setView, h]

end Line

/-- What a DMA controller asks the directory for. -/
def SequencerRequestType.dma : SequencerRequestType → DMARequestType
  | .LD => .READ
  | .ST => .WRITE

def SequencerMsg.request (msg : SequencerMsg) : DMARequestMsg :=
  { type := msg.type.dma
    physicalAddress := msg.physicalAddress
    dataBlk := msg.dataBlk
    len := msg.len }

/-- What the directory keeps of a request of a DMA controller. -/
def DMARequestMsg.tbe (m : DMARequestMsg) (d : D) (state : Directory.State) : Directory.TBE D :=
  { physicalAddress := m.physicalAddress
    tbeState := state
    dataBlk := m.dataBlk
    len := m.len
    dmaRequestor := some d }

def getx (c : C) : RequestMsg C := { type := .GETX, requestor := some c }

def putx (c : C) (block : DataBlock) : RequestMsg C :=
  { type := .PUTX, requestor := some c, dataBlk := block }

def wbAck (c : C) : RequestMsg C := { type := .WB_ACK, requestor := some c }

def wbNack (c : C) : RequestMsg C := { type := .WB_NACK, requestor := some c }

def invalidate : RequestMsg C := { type := .INV }

namespace Line

variable {s : Line C D} {c r : C} {i : ℕ} {reqs : List SequencerRequest}

section

variable [DecidableEq C]

variable {event : L1Cache.Event} {next : L1Cache.State}

theorem trigger_stall
    (htrans : L1Cache.transition (s.getCacheState c) event = some ([.zStall], next)) :
    s.triggerCache c event i reqs = .ok s := by
  simp [triggerCache, htrans]

attribute [local simp] getCacheState performCache valid need assert setCacheTbe setCacheEntry
  sendRequest sendData setRequests setForwards setResponses addHits setCacheState view setView getx
  putx wbAck wbNack invalidate

theorem triggerCache_of (state : L1Cache.State) {actions : List L1Cache.Action}
    (hstate : s.getCacheState c = state)
    (htrans : L1Cache.transition state event = some (actions, next))
    (hstall : L1Cache.Action.zStall ∉ actions) :
    s.triggerCache c event i reqs =
      actions.foldlM (performCache c i reqs) s >>= fun s => pure (s.setCacheState c next) := by
  rw [triggerCache, hstate, htrans]
  exact if_neg hstall

theorem trigger_miss (htrans : L1Cache.transition .I event =
      some ([.vAllocateTBE, .iAllocateL1CacheBlock, .aIssueRequest], next))
    (htbe : s.cacheTbe c = none) (hentry : ∀ e ∈ s.cacheEntry c, e.cacheState = .I) :
    s.triggerCache c event i reqs = .ok (s.setView c { s.view c with
      entry := some (((s.cacheEntry c).getD {}).setState next)
      tbe := some { tbeState := next }
      requests := s.requestToDir c ++ [getx c] }) := by
  cases he : s.cacheEntry c with
  | none =>
    simp [triggerCache, htbe, he, htrans]
  | some e =>
    have hI := hentry e he
    simp [triggerCache, htbe, he, hI, htrans]

variable {e : L1Cache.Entry}

theorem trigger_load (htrans : L1Cache.transition .M event = some ([.rLoadHit], .M))
    (htbe : s.cacheTbe c = none) (hentry : s.cacheEntry c = some e) (he : e.cacheState = .M) :
    s.triggerCache c event i reqs = .ok ((s.setView c { s.view c with
      entry := some ((readCallback e reqs).1.setState .M) }).addHits c (readCallback e reqs).2) := by
  rw [triggerCache_of .M (by simp [htbe, hentry, he]) htrans (by decide)]
  simp [htbe, hentry]

theorem trigger_store (htbe : s.cacheTbe c = none) (hentry : s.cacheEntry c = some e)
    (he : e.cacheState = .M) :
    s.triggerCache c .Store i reqs = .ok ((s.setView c { s.view c with
      entry := some ((writeCallback e reqs).1.setState .M) }).addHits c
        (writeCallback e reqs).2) := by
  rw [triggerCache_of .M (by simp [htbe, hentry, he]) rfl (by decide)]
  simp [htbe, hentry]

variable {t : L1Cache.TBE}

theorem trigger_data_load {m : ResponseMsg} (htbe : s.cacheTbe c = some t) (ht : t.tbeState = .IS)
    (hentry : s.cacheEntry c = some e) (hm : (s.responseToCache c)[i]? = some m) :
    s.triggerCache c .Data i reqs = .ok ((s.setView c { s.view c with
      entry := some ((readCallback { e with dataBlk := m.dataBlk } reqs).1.setState .M)
      tbe := none
      responses := (s.responseToCache c).eraseIdx i }).addHits c
        (readCallback { e with dataBlk := m.dataBlk } reqs).2) := by
  rw [triggerCache_of .IS (by simp [htbe, ht]) rfl (by decide)]
  simp [htbe, hentry, hm]

theorem trigger_data_store {m : ResponseMsg} (htbe : s.cacheTbe c = some t) (ht : t.tbeState = .IM)
    (hentry : s.cacheEntry c = some e) (hm : (s.responseToCache c)[i]? = some m) :
    s.triggerCache c .Data i reqs = .ok ((s.setView c { s.view c with
      entry := some ((writeCallback { e with dataBlk := m.dataBlk } reqs).1.setState .M)
      tbe := none
      responses := (s.responseToCache c).eraseIdx i }).addHits c
        (writeCallback { e with dataBlk := m.dataBlk } reqs).2) := by
  rw [triggerCache_of .IM (by simp [htbe, ht]) rfl (by decide)]
  simp [htbe, hentry, hm]

variable {rest : List (RequestMsg C)}

theorem trigger_forward_M (htbe : s.cacheTbe c = none) (hentry : s.cacheEntry c = some e)
    (he : e.cacheState = .M) (hf : s.forwardToCache c = getx r :: rest) :
    s.triggerCache c .Fwd_GETX i reqs =
      .ok ((s.sendData r e.dataBlk).setView c { (s.sendData r e.dataBlk).view c with
        entry := some (e.setState .I)
        forwards := rest }) := by
  rw [triggerCache_of .M (by simp [htbe, hentry, he]) rfl (by decide)]
  simp [htbe, hentry, hf]

theorem trigger_replacement_I (htbe : s.cacheTbe c = none)
    (hentry : ∀ e ∈ s.cacheEntry c, e.cacheState = .I) :
    s.triggerCache c .Replacement i reqs = .ok (s.setView c { s.view c with entry := none }) := by
  have hstate : s.getCacheState c = .I := by
    cases he : s.cacheEntry c with
    | none => simp [htbe, he]
    | some e => simp [htbe, he, hentry e he]
  rw [triggerCache_of .I hstate rfl (by decide)]
  simp [htbe]

theorem trigger_evict (htrans : L1Cache.transition .M event = some ([.vAllocateTBE, .bIssuePUT,
      .xCopyDataFromCacheToTBE, .hDeallocateL1CacheBlock], .MI)) (htbe : s.cacheTbe c = none)
    (hentry : s.cacheEntry c = some e) (he : e.cacheState = .M) :
    s.triggerCache c event i reqs = .ok (s.setView c { s.view c with
      entry := none
      tbe := some { tbeState := .MI, dataBlk := e.dataBlk }
      requests := s.requestToDir c ++ [putx c e.dataBlk] }) := by
  simp [triggerCache, htbe, hentry, he, htrans]

theorem trigger_inv_MI (htbe : s.cacheTbe c = some t) (ht : t.tbeState = .MI)
    (hentry : s.cacheEntry c = none) :
    s.triggerCache c .Inv i reqs =
      .ok (s.setView c { s.view c with forwards := (s.forwardToCache c).tail }) := by
  have hsame : ({ t with tbeState := .MI } : L1Cache.TBE) = t := by rw [← ht]
  have hupd : update s.cacheTbe c (some t) = s.cacheTbe := by
    rw [← htbe, update_eq_self]
  rw [triggerCache_of .MI (by simp [htbe, ht]) rfl (by decide)]
  simp [htbe, hentry, hsame, hupd]

theorem trigger_forward_MI (htbe : s.cacheTbe c = some t) (ht : t.tbeState = .MI)
    (hentry : s.cacheEntry c = none) (hf : s.forwardToCache c = getx r :: rest) :
    s.triggerCache c .Fwd_GETX i reqs =
      .ok ((s.sendData r t.dataBlk).setView c { (s.sendData r t.dataBlk).view c with
        tbe := some { t with tbeState := .II }
        forwards := rest }) := by
  rw [triggerCache_of .MI (by simp [htbe, ht]) rfl (by decide)]
  simp [htbe, hentry, hf]

theorem trigger_done
    (htrans : L1Cache.transition t.tbeState event =
      some ([.wDeallocateTBE, .oPopForwardedRequestQueue], .I)) (htbe : s.cacheTbe c = some t)
    (hentry : s.cacheEntry c = none) :
    s.triggerCache c event i reqs = .ok (s.setView c { s.view c with
      tbe := none
      forwards := (s.forwardToCache c).tail }) := by
  simp [triggerCache, htbe, hentry, htrans]

/-- The directory's entry, its TBE and its queues to and from the memory. -/
structure DirPart (C D : Type) where
  entry : Directory.Entry C
  tbe : Option (Directory.TBE D)
  toMemory : List (MemoryMsg C D)
  fromMemory : List (MemoryMsg C D)

def dir (s : Line C D) : DirPart C D := ⟨s.entry, s.tbe, s.requestToMemory, s.responseFromMemory⟩

def setDir (s : Line C D) (p : DirPart C D) : Line C D :=
  { s with
    entry := p.entry
    tbe := p.tbe
    requestToMemory := p.toMemory
    responseFromMemory := p.fromMemory }

theorem sendForward_singleton (s : Line C D) (o : C) (msg : RequestMsg C) :
    s.sendForward {o} msg = s.setForwards o (s.forwardToCache o ++ [msg]) := by
  unfold sendForward setForwards
  congr 1
  funext x
  by_cases hx : x = o
  · subst hx
    simp
  · simp [hx]

variable [DecidableEq D]

attribute [local simp] getDirState performDir peekRequest peekMemory peekDma cacheOf dmaRequestor
  allocateDirTbe setDirTbe queueMemory setOwner sendForward_singleton sendDmaResponse setDmaResponses
  setDmaRequests setDirState dir setDir DMARequestMsg.tbe

variable {event : Directory.Event}

variable {next : Directory.State}

theorem triggerDir_of (state : Directory.State) {actions : List Directory.Action}
    {port : Directory.Port C D} (hstate : s.getDirState = state)
    (htrans : Directory.transition state event = some (actions, next)) :
    s.triggerDir event port =
      actions.foldlM (performDir port) s >>= fun s => s.setDirState next := by
  rw [triggerDir, hstate, htrans]

theorem triggerDir_getx_I (hreq : s.requestToDir c = getx c :: rest) (htbe : s.tbe = none)
    (hstate : s.entry.directoryState = .I) :
    s.triggerDir .GETX (.request c) = .ok ((s.setDir
      { s.dir with
        entry := { s.entry with directoryState := .IM, owner := {c} }
        tbe := some { tbeState := .IM }
        toMemory := s.requestToMemory ++ [{ type := .MEMORY_READ, sender := .cache c }] }).setRequests
      c rest) := by
  rw [triggerDir_of .I (by simp [htbe, hstate]) rfl]
  simp [htbe, hstate, hreq]

theorem triggerDir_getx_M {o : C} (hreq : s.requestToDir c = getx c :: rest) (htbe : s.tbe = none)
    (hstate : s.entry.directoryState = .M) (howner : s.entry.owner = {o})
    (hsharers : s.entry.sharers = ∅) :
    s.triggerDir .GETX (.request c) = .ok (((s.setDir
      { s.dir with entry := { s.entry with owner := {c} } }).setForwards o
        (s.forwardToCache o ++ [getx c])).setRequests c rest) := by
  rw [triggerDir_of .M (by simp [htbe, hstate]) rfl]
  simp [htbe, hstate, hreq, howner, hsharers]

variable {block : DataBlock}

theorem triggerDir_putx_M (hreq : s.requestToDir c = putx c block :: rest) (htbe : s.tbe = none)
    (hstate : s.entry.directoryState = .M) :
    s.triggerDir .PUTX (.request c) = .ok ((s.setDir
      { s.dir with
        entry := { s.entry with directoryState := .MI, owner := ∅ }
        tbe := some { tbeState := .MI, dataBlk := block }
        toMemory := s.requestToMemory ++
          [{ type := .MEMORY_WB, sender := .cache c, dataBlk := block }] }).setRequests c rest) := by
  rw [triggerDir_of .M (by simp [htbe, hstate]) rfl]
  simp [htbe, hstate, hreq]

variable {d : D} {t : Directory.TBE D}

section

variable (hreq : s.requestToDir c = putx c block :: rest)
include hreq

theorem triggerDir_putx_M_DRD (htbe : s.tbe = some t) (ht : t.tbeState = .M_DRD)
    (hd : t.dmaRequestor = some d) :
    s.triggerDir .PUTX (.request c) = .ok (((s.setDir
      { s.dir with
        entry := { s.entry with directoryState := .M_DRDI, owner := ∅ }
        tbe := some { t with tbeState := .M_DRDI }
        toMemory := s.requestToMemory ++
          [{ type := .MEMORY_WB, sender := .cache c, dataBlk := block }] }).setRequests c
      rest).sendDmaResponse d { type := .DATA, dataBlk := block }) := by
  rw [triggerDir_of .M_DRD (by simp [htbe, ht]) rfl]
  simp [htbe, hd, hreq]

theorem triggerDir_putx_M_DWR (htbe : s.tbe = some t) (ht : t.tbeState = .M_DWR) :
    s.triggerDir .PUTX (.request c) = .ok ((s.setDir
      { s.dir with
        entry := { s.entry with directoryState := .M_DWRI, owner := ∅ }
        tbe := some { t with tbeState := .M_DWRI }
        toMemory := s.requestToMemory ++
          [{ type := .MEMORY_WB, sender := .cache c, dataBlk := t.dataBlk, len := t.len }]
        }).setRequests c rest) := by
  rw [triggerDir_of .M_DWR (by simp [htbe, ht]) rfl]
  simp [htbe, hreq]

theorem triggerDir_putx_notOwner (htbe : s.tbe = none)
    (hstate : s.entry.directoryState = .M ∧ s.entry.owner.card = 1 ∨
      s.entry.directoryState = .I ∧ s.entry.owner = ∅) (hsharers : s.entry.sharers = ∅) :
    s.triggerDir .PUTX_NotOwner (.request c) =
      .ok ((s.setForwards c (s.forwardToCache c ++ [wbNack c])).setRequests c rest) := by
  rcases hstate with ⟨hstate, howner⟩ | ⟨hstate, howner⟩
  · have hentry : Directory.Entry.mk .M s.entry.sharers s.entry.owner = s.entry := by rw [← hstate]
    rw [hsharers] at hentry
    rw [triggerDir_of .M (by simp [htbe, hstate]) rfl]
    simp [htbe, hreq, hsharers, howner, hentry]
  · have hentry : Directory.Entry.mk .I s.entry.sharers s.entry.owner = s.entry := by rw [← hstate]
    rw [hsharers, howner] at hentry
    rw [triggerDir_of .I (by simp [htbe, hstate]) rfl]
    simp [htbe, hreq, hsharers, howner, hentry]

end

omit [DecidableEq C] [DecidableEq D] in
theorem setDirState_self (htbe : s.tbe = some t) (hstate : s.entry.directoryState = t.tbeState)
    (hbusy : t.tbeState ≠ .M ∧ t.tbeState ≠ .I) : s.setDirState t.tbeState = .ok s := by
  have hentry : Directory.Entry.mk t.tbeState s.entry.sharers s.entry.owner = s.entry := by
    rw [← hstate]
  simp [hbusy, htbe, hentry]
  rw [← htbe]

theorem triggerDir_recycle
    (htrans : Directory.transition t.tbeState event = some ([.zRecycleRequestQueue], t.tbeState))
    (htbe : s.tbe = some t) (hstate : s.entry.directoryState = t.tbeState)
    (hbusy : t.tbeState ≠ .M ∧ t.tbeState ≠ .I) :
    s.triggerDir event (.request c) = .ok (s.setRequests c (recycle (s.requestToDir c))) := by
  rw [triggerDir_of t.tbeState (by simp [htbe]) htrans]
  exact setDirState_self htbe hstate hbusy

variable {m : MemoryMsg C D}

variable {rest : List (MemoryMsg C D)}

theorem triggerDir_data_IM (hmem : s.responseFromMemory = m :: rest) (hm : m.sender = .cache c)
    (htbe : s.tbe = some t) (ht : t.tbeState = .IM) (howner : s.entry.owner.card = 1)
    (hsharers : s.entry.sharers = ∅) :
    s.triggerDir .Memory_Data .memory = .ok ((s.setDir
      { s.dir with
        entry := { s.entry with directoryState := .M }
        tbe := none
        fromMemory := rest }).sendData c m.dataBlk) := by
  rw [triggerDir_of .IM (by simp [htbe, ht]) rfl]
  simp [htbe, hmem, hm, howner, hsharers]

theorem triggerDir_data_ID (hmem : s.responseFromMemory = m :: rest) (htbe : s.tbe = some t)
    (ht : t.tbeState = .ID) (hd : t.dmaRequestor = some d) (howner : s.entry.owner = ∅)
    (hsharers : s.entry.sharers = ∅) :
    s.triggerDir .Memory_Data .memory = .ok ((s.setDir
      { s.dir with
        entry := { s.entry with directoryState := .I }
        tbe := none
        fromMemory := rest }).sendDmaResponse d { type := .DATA, dataBlk := m.dataBlk }) := by
  rw [triggerDir_of .ID (by simp [htbe, ht]) rfl]
  simp [htbe, hd, hmem, howner, hsharers]

theorem triggerDir_ack_ID_W (hmem : s.responseFromMemory = m :: rest) (htbe : s.tbe = some t)
    (ht : t.tbeState = .ID_W) (hd : t.dmaRequestor = some d) (howner : s.entry.owner = ∅)
    (hsharers : s.entry.sharers = ∅) :
    s.triggerDir .Memory_Ack .memory = .ok ((s.setDir
      { s.dir with
        entry := { s.entry with directoryState := .I }
        tbe := none
        fromMemory := rest }).sendDmaResponse d { type := .ACK }) := by
  rw [triggerDir_of .ID_W (by simp [htbe, ht]) rfl]
  simp [htbe, hd, hmem, howner, hsharers]

theorem triggerDir_ack (hmem : s.responseFromMemory = m :: rest) (hm : m.sender = .cache c)
    (htbe : s.tbe = some t) (ht : t.tbeState = .MI ∨ t.tbeState = .M_DRDI)
    (howner : s.entry.owner = ∅) (hsharers : s.entry.sharers = ∅) :
    s.triggerDir .Memory_Ack .memory = .ok ((s.setDir
      { s.dir with
        entry := { s.entry with directoryState := .I }
        tbe := none
        fromMemory := rest }).setForwards c (s.forwardToCache c ++ [wbAck c])) := by
  have htrans : Directory.transition t.tbeState .Memory_Ack =
      some ([.lSendWriteBackAck, .wDeallocateTBE, .lPopMemQueue], .I) := by
    rcases ht with ht | ht <;> rw [ht] <;> rfl
  rw [triggerDir_of t.tbeState (by simp [htbe]) htrans]
  simp [htbe, hmem, hm, howner, hsharers]

theorem triggerDir_ack_M_DWRI (hmem : s.responseFromMemory = m :: rest) (hm : m.sender = .cache c)
    (htbe : s.tbe = some t) (ht : t.tbeState = .M_DWRI) (hd : t.dmaRequestor = some d)
    (howner : s.entry.owner = ∅) (hsharers : s.entry.sharers = ∅) :
    s.triggerDir .Memory_Ack .memory = .ok (((s.setDir
      { s.dir with
        entry := { s.entry with directoryState := .I }
        tbe := none
        fromMemory := rest }).setForwards c (s.forwardToCache c ++ [wbAck c])).sendDmaResponse d
          { type := .ACK }) := by
  rw [triggerDir_of .M_DWRI (by simp [htbe, ht]) rfl]
  simp [htbe, hd, hmem, hm, howner, hsharers]

variable {rest : List DMARequestMsg}

theorem triggerDir_dma_I_read {m : DMARequestMsg} (hreq : s.dmaRequestToDir d = m :: rest)
    (htbe : s.tbe = none) (hstate : s.entry.directoryState = .I) :
    s.triggerDir .DMA_READ (.dma d) = .ok ((s.setDir
      { s.dir with
        entry := { s.entry with directoryState := .ID }
        tbe := some { tbeState := .ID, dmaRequestor := some d }
        toMemory := s.requestToMemory ++ [{ type := .MEMORY_READ, sender := .dma d }]
        }).setDmaRequests d rest) := by
  rw [triggerDir_of .I (by simp [htbe, hstate]) rfl]
  simp [htbe, hreq]

variable {m : DMARequestMsg}

theorem triggerDir_dma_I_write (hreq : s.dmaRequestToDir d = m :: rest) (htbe : s.tbe = none)
    (hstate : s.entry.directoryState = .I) :
    s.triggerDir .DMA_WRITE (.dma d) = .ok ((s.setDir
      { s.dir with
        entry := { s.entry with directoryState := .ID_W }
        tbe := some (m.tbe d .ID_W)
        toMemory := s.requestToMemory ++
          [{ type := .MEMORY_WB, sender := .dma d, dataBlk := m.dataBlk, len := m.len }]
        }).setDmaRequests d rest) := by
  rw [triggerDir_of .I (by simp [htbe, hstate]) rfl]
  simp [htbe, hreq]

theorem triggerDir_dma_M {o : C}
    (htrans : Directory.transition .M event = some ([.vAllocateTBE, .invSendCacheInvalidate,
      .pPopIncomingDMARequestQueue], next)) (hnext : next ≠ .M ∧ next ≠ .I)
    (hreq : s.dmaRequestToDir d = m :: rest) (htbe : s.tbe = none)
    (hstate : s.entry.directoryState = .M) (howner : s.entry.owner = {o}) :
    s.triggerDir event (.dma d) = .ok (((s.setDir
      { s.dir with
        entry := { s.entry with directoryState := next }
        tbe := some (m.tbe d next) }).setForwards o
          (s.forwardToCache o ++ [invalidate])).setDmaRequests d rest) := by
  simp [triggerDir, htbe, hstate, htrans, hreq, howner, hnext]

theorem triggerDir_dma_recycle
    (htrans : Directory.transition t.tbeState event = some ([.yRecycleDMARequestQueue], t.tbeState))
    (htbe : s.tbe = some t) (hstate : s.entry.directoryState = t.tbeState)
    (hbusy : t.tbeState ≠ .M ∧ t.tbeState ≠ .I) :
    s.triggerDir event (.dma d) = .ok (s.setDmaRequests d (recycle (s.dmaRequestToDir d))) := by
  rw [triggerDir_of t.tbeState (by simp [htbe]) htrans]
  exact setDirState_self htbe hstate hbusy

end

variable [DecidableEq D]

attribute [local simp] getDmaState DMA.transition performDma need assert setDmaTbe sendDmaRequest
  setDmaRequests setDmaResponses setDmaState

variable {d : D}

theorem triggerDma_ready {msg : SequencerMsg} (htbe : s.dmaTbe d = none) :
    s.triggerDma d (dmaMandatoryEvent msg.type) (some msg) =
      .ok ((s.setDmaTbe d (some { tbeState := if msg.type = .LD then .BUSY_RD else .BUSY_WR
        })).setDmaRequests d (s.dmaRequestToDir d ++ [msg.request])) := by
  cases htype : msg.type <;>
    simp [triggerDma, htbe, dmaMandatoryEvent, SequencerMsg.request, SequencerRequestType.dma, htype]

variable {msg : SequencerMsg}

theorem triggerDma_stall {t : DMA.TBE} (htbe : s.dmaTbe d = some t) (ht : t.tbeState ≠ .READY) :
    s.triggerDma d (dmaMandatoryEvent msg.type) (some msg) = .ok s := by
  have hupd : update s.dmaTbe d (some t) = s.dmaTbe := by
    rw [← htbe, update_eq_self]
  rcases t with ⟨st, blk⟩
  cases st <;> cases msg.type <;> simp at ht <;>
    simp [triggerDma, htbe, dmaMandatoryEvent, hupd]

variable {t : DMA.TBE}

theorem triggerDma_data {m : DMAResponseMsg} {rest : List DMAResponseMsg}
    (htbe : s.dmaTbe d = some t) (ht : t.tbeState = .BUSY_RD)
    (hm : s.dmaResponseFromDir d = m :: rest) :
    s.triggerDma d .Data none = .ok ((s.setDmaTbe d none).setDmaResponses d rest) := by
  simp [triggerDma, htbe, ht, valid, hm]

theorem triggerDma_ack (htbe : s.dmaTbe d = some t) (ht : t.tbeState = .BUSY_WR) :
    s.triggerDma d .Ack none =
      .ok ((s.setDmaTbe d none).setDmaResponses d (s.dmaResponseFromDir d).tail) := by
  simp [triggerDma, htbe, ht]

end Line

end Gem5Nvm.MiExample
