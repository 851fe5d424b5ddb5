import Gem5Nvm.Proofs.MiInvariant

/-!
# MI_example: the steps

Where the invariant holds, a step is one of the changes listed here, unless the directory takes a
request it has no transition for. Every change keeps the invariant.
-/

namespace Gem5Nvm.MiExample

open Ruby (DataBlock SequencerRequest Hit RubyRequestType)
open Function (update update_self update_of_ne)

variable {C D : Type}

namespace Line

variable (s : Line C D)

def dmaView (d : D) : DmaView := ⟨s.dmaTbe d, s.dmaRequestToDir d, s.dmaResponseFromDir d⟩

@[simp] theorem dir_setDir (p : DirPart C D) : (s.setDir p).dir = p := rfl

@[simp] theorem view_setDir (p : DirPart C D) : (s.setDir p).view = s.view := rfl

@[simp] theorem dmaView_setDir (p : DirPart C D) : (s.setDir p).dmaView = s.dmaView := rfl

@[simp] theorem dir_addHits (c : C) (hits : List Hit) : (s.addHits c hits).dir = s.dir := rfl

@[simp] theorem view_addHits (c : C) (hits : List Hit) : (s.addHits c hits).view = s.view := rfl

@[simp] theorem dmaView_addHits (c : C) (hits : List Hit) :
    (s.addHits c hits).dmaView = s.dmaView := rfl

@[simp] theorem memory_setDir (p : DirPart C D) : (s.setDir p).memory = s.memory := rfl

@[simp] theorem hits_setDir (p : DirPart C D) : (s.setDir p).hits = s.hits := rfl

@[simp] theorem memory_addHits (c : C) (hits : List Hit) : (s.addHits c hits).memory = s.memory :=
  rfl

section

variable [DecidableEq C] (c : C) (v : View C)

@[simp] theorem memory_setView : (s.setView c v).memory = s.memory := rfl

@[simp] theorem hits_setView : (s.setView c v).hits = s.hits := rfl

@[simp] theorem dir_setView : (s.setView c v).dir = s.dir := rfl

@[simp] theorem view_setView : (s.setView c v).view = update s.view c v := by
  funext x
  by_cases hx : x = c
  · subst hx
    simp
  · simp [hx]

@[simp] theorem dmaView_setView : (s.setView c v).dmaView = s.dmaView := rfl

end

variable [DecidableEq D] (d : D) (v : DmaView)

def setDmaView : Line C D :=
  { s with
    dmaTbe := update s.dmaTbe d v.tbe
    dmaRequestToDir := update s.dmaRequestToDir d v.requests
    dmaResponseFromDir := update s.dmaResponseFromDir d v.responses }

@[simp] theorem memory_setDmaView : (s.setDmaView d v).memory = s.memory := rfl

@[simp] theorem hits_setDmaView : (s.setDmaView d v).hits = s.hits := rfl

@[simp] theorem dir_setDmaView : (s.setDmaView d v).dir = s.dir := rfl

@[simp] theorem view_setDmaView : (s.setDmaView d v).view = s.view := rfl

@[simp] theorem dmaView_setDmaView : (s.setDmaView d v).dmaView = update s.dmaView d v := by
  funext x
  by_cases hx : x = d
  · subst hx
    simp [dmaView, setDmaView]
  · simp [dmaView, setDmaView, hx]

def Inv : Prop := MiExample.Inv s.dir s.view s.dmaView

end Line

variable [DecidableEq C] [DecidableEq D]

/-- A sequencer was called with an entry. -/
def Served (e e' : L1Cache.Entry) (hits : List Hit) : Prop :=
  ∃ reqs, readCallback e reqs = (e', hits) ∨ writeCallback e reqs = (e', hits)

inductive Change (s : Line C D) : Op C D → Line C D → Prop
  | stall {op} : Change s op s
  | miss {op} (c : C) {e : Option L1Cache.Entry} {state : L1Cache.State}
    (hv : s.view c = ⟨e, none, [], [], []⟩) (he : ∀ x ∈ e, x.cacheState = .I)
    (hstate : state = .IS ∨ state = .IM) :
    Change s op (s.setView c ⟨some ((e.getD {}).setState state), some { tbeState := state },
      [getx c], [], []⟩)
  | access {op} (c : C) {e e' : L1Cache.Entry} {fw : List (RequestMsg C)} {hits : List Hit}
    (hv : s.view c = ⟨some e, none, [], fw, []⟩) (he : e.cacheState = .M)
    (hserved : Served e e' hits) :
    Change s op ((s.setView c ⟨some (e'.setState .M), none, [], fw, []⟩).addHits c hits)
  | fill {op} (c : C) {e e' : L1Cache.Entry} {t : L1Cache.TBE} {fw : List (RequestMsg C)}
    {m : ResponseMsg} {hits : List Hit} (hv : s.view c = ⟨some e, some t, [], fw, [m]⟩)
    (hserved : Served { e with dataBlk := m.dataBlk } e' hits) :
    Change s op ((s.setView c ⟨some (e'.setState .M), none, [], fw, []⟩).addHits c hits)
  | drop {op} (c : C) {e : Option L1Cache.Entry} (hv : s.view c = ⟨e, none, [], [], []⟩)
    (he : ∀ x ∈ e, x.cacheState = .I) :
    Change s op (s.setView c ⟨none, none, [], [], []⟩)
  | evict {op} (c : C) {e : L1Cache.Entry} {fw : List (RequestMsg C)}
    (hv : s.view c = ⟨some e, none, [], fw, []⟩) (he : e.cacheState = .M) :
    Change s op (s.setView c ⟨none, some ⟨.MI, e.dataBlk⟩, [putx c e.dataBlk], fw, []⟩)
  | popInvalidate {op} (c : C) {t : L1Cache.TBE} {rq fw : List (RequestMsg C)}
    (hv : s.view c = ⟨none, some t, rq, invalidate :: fw, []⟩) (ht : t.tbeState = .MI) :
    Change s op (s.setView c ⟨none, some t, rq, fw, []⟩)
  | passEntry {op} (c r : C) {e : L1Cache.Entry}
    (hv : s.view c = ⟨some e, none, [], [getx r], []⟩) (he : e.cacheState = .M) (hr : r ≠ c) :
    Change s op ((s.setView c ⟨some (e.setState .I), none, [], [], []⟩).setView r
      { s.view r with responses := [⟨e.dataBlk⟩] })
  | passTbe {op} (c r : C) {t : L1Cache.TBE} {rq fw : List (RequestMsg C)}
    (hv : s.view c = ⟨none, some t, rq, getx r :: fw, []⟩) (ht : t.tbeState = .MI) (hr : r ≠ c) :
    Change s op ((s.setView c ⟨none, some { t with tbeState := .II }, rq, fw, []⟩).setView r
      { s.view r with responses := [⟨t.dataBlk⟩] })
  | done {op} (c : C) {t : L1Cache.TBE} {m : RequestMsg C}
    (hv : s.view c = ⟨none, some t, [], [m], []⟩) (hm : m = wbAck c ∨ m = wbNack c) :
    Change s op (s.setView c ⟨none, none, [], [], []⟩)
  | fetch {op} (c : C) {e : L1Cache.Entry} {t : L1Cache.TBE}
    (hdir : s.dir = ⟨⟨.I, ∅, ∅⟩, none, [], []⟩) (hv : s.view c = ⟨some e, some t, [getx c], [], []⟩) :
    Change s op ((s.setDir ⟨⟨.IM, ∅, {c}⟩, some { tbeState := .IM },
      [{ type := .MEMORY_READ, sender := .cache c }], []⟩).setView c ⟨some e, some t, [], [], []⟩)
  | handOver {op} (c o : C) {e : L1Cache.Entry} {t : L1Cache.TBE}
    (hdir : s.dir = ⟨⟨.M, ∅, {o}⟩, none, [], []⟩)
    (hv : s.view c = ⟨some e, some t, [getx c], [], []⟩) (ho : (s.view o).forwards = [])
    (hne : o ≠ c) :
    Change s op (((s.setDir ⟨⟨.M, ∅, {c}⟩, none, [], []⟩).setView o
      { s.view o with forwards := [getx c] }).setView c ⟨some e, some t, [], [], []⟩)
  | writeBack {op} (c : C) {t : L1Cache.TBE} {block : DataBlock}
    (hdir : s.dir = ⟨⟨.M, ∅, {c}⟩, none, [], []⟩)
    (hv : s.view c = ⟨none, some t, [putx c block], [], []⟩) :
    Change s op ((s.setDir ⟨⟨.MI, ∅, ∅⟩, some { tbeState := .MI, dataBlk := block },
      [{ type := .MEMORY_WB, sender := .cache c, dataBlk := block }], []⟩).setView c
      ⟨none, some t, [], [], []⟩)
  | nack {op} (c : C) {t : L1Cache.TBE} {block : DataBlock} {fw : List (RequestMsg C)}
    (hc : c ∉ s.dir.entry.owner) (hv : s.view c = ⟨none, some t, [putx c block], fw, []⟩) :
    Change s op (s.setView c ⟨none, some t, [], fw ++ [wbNack c], []⟩)
  | data {op} (c : C) {t : Directory.TBE D} {m : MemoryMsg C D}
    (hdir : s.dir = ⟨⟨.IM, ∅, {c}⟩, some t, [], [m]⟩) (hd : t.dmaRequestor = none)
    (hm : m.type = .MEMORY_READ) (hsender : m.sender = .cache c)
    (hrs : (s.view c).responses = []) :
    Change s op ((s.setDir ⟨⟨.M, ∅, {c}⟩, none, [], []⟩).setView c
      { s.view c with responses := [⟨m.dataBlk⟩] })
  | ack {op} (c : C) {state : Directory.State} {t : Directory.TBE D} {m : MemoryMsg C D}
    (hdir : s.dir = ⟨⟨state, ∅, ∅⟩, some t, [], [m]⟩) (hstate : state = .MI ∨ state = .M_DRDI)
    (ht : t.tbeState = state) (hm : m.type = .MEMORY_WB) (hsender : m.sender = .cache c) :
    Change s op ((s.setDir ⟨⟨.I, ∅, ∅⟩, none, [], []⟩).setView c
      { s.view c with forwards := (s.view c).forwards ++ [wbAck c] })
  | serve {m : MemoryMsg C D} (hto : s.requestToMemory = [m]) (hfrom : s.responseFromMemory = []) :
    Change s .memory s.serveMemory
  | dmaReadBack {op} (c : C) (d : D) {t : L1Cache.TBE} {block : DataBlock}
    {fw : List (RequestMsg C)} {t' : Directory.TBE D}
    (hdir : s.dir = ⟨⟨.M_DRD, ∅, {c}⟩, some t', [], []⟩)
    (ht' : t'.tbeState = .M_DRD) (hd : t'.dmaRequestor = some d)
    (hv : s.view c = ⟨none, some t, [putx c block], fw, []⟩)
    (hrs : (s.dmaView d).responses = []) :
    Change s op (((s.setDir ⟨⟨.M_DRDI, ∅, ∅⟩, some { t' with tbeState := .M_DRDI },
      [{ type := .MEMORY_WB, sender := .cache c, dataBlk := block }], []⟩).setView c
      ⟨none, some t, [], fw, []⟩).setDmaView d
      { s.dmaView d with responses := [{ type := .DATA, dataBlk := block }] })
  | dmaWriteBack {op} (c : C) (d : D) {t : L1Cache.TBE} {block : DataBlock}
    {fw : List (RequestMsg C)} {t' : Directory.TBE D}
    (hdir : s.dir = ⟨⟨.M_DWR, ∅, {c}⟩, some t', [], []⟩)
    (ht' : t'.tbeState = .M_DWR) (hd : t'.dmaRequestor = some d)
    (hv : s.view c = ⟨none, some t, [putx c block], fw, []⟩) :
    Change s op ((s.setDir ⟨⟨.M_DWRI, ∅, ∅⟩, some { t' with tbeState := .M_DWRI },
      [{ type := .MEMORY_WB, sender := .cache c, dataBlk := t'.dataBlk, len := t'.len }],
      []⟩).setView c ⟨none, some t, [], fw, []⟩)
  | dmaAnswer (d : D) {state : Directory.State} {t : Directory.TBE D} {m : MemoryMsg C D}
    {msg : DMAResponseMsg} {type : DMARequestType}
    (hdir : s.dir = ⟨⟨state, ∅, ∅⟩, some t, [], [m]⟩)
    (hstate : state = .ID ∧ type = .READ ∨ state = .ID_W ∧ type = .WRITE)
    (ht : t.tbeState = state) (hd : t.dmaRequestor = some d) (hsender : m.sender = .dma d)
    (hmsg : msg.type = answer type) (hrs : (s.dmaView d).responses = []) :
    Change s .memoryResponse ((s.setDir ⟨⟨.I, ∅, ∅⟩, none, [], []⟩).setDmaView d
      { s.dmaView d with responses := [msg] })
  | dmaAck (c : C) (d : D) {t : Directory.TBE D} {m : MemoryMsg C D} {msg : DMAResponseMsg}
    (hdir : s.dir = ⟨⟨.M_DWRI, ∅, ∅⟩, some t, [], [m]⟩) (ht : t.tbeState = .M_DWRI)
    (hd : t.dmaRequestor = some d) (hm : m.type = .MEMORY_WB) (hsender : m.sender = .cache c)
    (hmsg : msg.type = .ACK) (hrs : (s.dmaView d).responses = []) :
    Change s .memoryResponse (((s.setDir ⟨⟨.I, ∅, ∅⟩, none, [], []⟩).setView c
      { s.view c with forwards := (s.view c).forwards ++ [wbAck c] }).setDmaView d
      { s.dmaView d with responses := [msg] })
  | dmaRead {op} (d : D) {t : DMA.TBE} {m : DMARequestMsg}
    (hdir : s.dir = ⟨⟨.I, ∅, ∅⟩, none, [], []⟩) (hv : s.dmaView d = ⟨some t, [m], []⟩)
    (hm : m.type = .READ) :
    Change s op ((s.setDir ⟨⟨.ID, ∅, ∅⟩, some { tbeState := .ID, dmaRequestor := some d },
      [{ type := .MEMORY_READ, sender := .dma d }], []⟩).setDmaView d ⟨some t, [], []⟩)
  | dmaWrite {op} (d : D) {t : DMA.TBE} {m : DMARequestMsg}
    (hdir : s.dir = ⟨⟨.I, ∅, ∅⟩, none, [], []⟩) (hv : s.dmaView d = ⟨some t, [m], []⟩)
    (hm : m.type = .WRITE) :
    Change s op ((s.setDir ⟨⟨.ID_W, ∅, ∅⟩, some (m.tbe d .ID_W),
      [{ type := .MEMORY_WB, sender := .dma d, dataBlk := m.dataBlk, len := m.len }],
      []⟩).setDmaView d ⟨some t, [], []⟩)
  | dmaInvalidate {op} (o : C) (d : D) {t : DMA.TBE} {m : DMARequestMsg}
    {state : Directory.State} (hdir : s.dir = ⟨⟨.M, ∅, {o}⟩, none, [], []⟩)
    (hv : s.dmaView d = ⟨some t, [m], []⟩)
    (hstate : m.type = .READ ∧ state = .M_DRD ∨ m.type = .WRITE ∧ state = .M_DWR)
    (ho : (s.view o).forwards = []) :
    Change s op (((s.setDir ⟨⟨state, ∅, {o}⟩, some (m.tbe d state), [], []⟩).setView o
      { s.view o with forwards := [invalidate] }).setDmaView d ⟨some t, [], []⟩)
  | dmaAsk (d : D) (msg : SequencerMsg) (hv : s.dmaView d = ⟨none, [], []⟩) :
    Change s (.dmaMandatory d msg) (s.setDmaView d
      ⟨some { tbeState := busy msg.type.dma }, [msg.request], []⟩)
  | dmaDone {op} (d : D) {t : DMA.TBE} {m : DMAResponseMsg}
    (hv : s.dmaView d = ⟨some t, [], [m]⟩) : Change s op (s.setDmaView d ⟨none, [], []⟩)

/-! ### Changes of a cache -/

section

variable {p : Line.DirPart C D} {view : C → View C} {dma : D → DmaView} {c r : C}
  {e e' : L1Cache.Entry} {t : L1Cache.TBE} {rq fw : List (RequestMsg C)} {block : DataBlock}
  {m : ResponseMsg}

theorem Inv.miss {e : Option L1Cache.Entry} (h : Inv p view dma)
    (hv : view c = ⟨e, none, [], [], []⟩) (he : ∀ x ∈ e, x.cacheState = .I)
    (ht : t.tbeState = .IS ∨ t.tbeState = .IM) :
    Inv p (update view c ⟨some e', some t, [getx c], [], []⟩) dma := by
  have hc := h.cache c
  have hw : ¬ Waiting (view c) := by simp [hv, Waiting]
  rw [hv] at hc
  cases hc with
  | idle _ hown hwb =>
    refine h.setView (.asked ht hown hwb) (by simp) (by simp) (fun x hx _ => h.not_fed hw hx) ?_
    rcases ht with ht | ht <;> simp [HasBlock, ht]
  | modified hM => exact absurd (he _ rfl) (by simp [hM])

theorem Inv.drop {e : Option L1Cache.Entry} (h : Inv p view dma)
    (hv : view c = ⟨e, none, [], [], []⟩) (he : ∀ x ∈ e, x.cacheState = .I) :
    Inv p (update view c ⟨none, none, [], [], []⟩) dma := by
  have hc := h.cache c
  have hw : ¬ Waiting (view c) := by simp [hv, Waiting]
  rw [hv] at hc
  cases hc with
  | idle _ hown hwb =>
    exact h.setView (.idle (by simp) hown hwb) (by simp) (by simp)
      (fun x hx _ => h.not_fed hw hx) (by simp [HasBlock])
  | modified hM => exact absurd (he _ rfl) (by simp [hM])

variable {blocked : Prop}

variable {own wb : Prop}

omit [DecidableEq C] in
theorem CachePhase.of_modified (h : CachePhase c own wb blocked ⟨some e, none, [], fw, []⟩)
    (he : e.cacheState = .M) : Chained own blocked fw ∧ ¬ wb := by
  cases h with
  | idle hI => exact absurd (hI e rfl) (by simp [he])
  | modified _ hfw hwb => exact ⟨hfw, hwb⟩

theorem Inv.access (h : Inv p view dma) (hv : view c = ⟨some e, none, [], fw, []⟩)
    (he : e.cacheState = .M) (he' : e'.cacheState = .M) :
    Inv p (update view c ⟨some e', none, [], fw, []⟩) dma := by
  have hc := h.cache c
  have hw : ¬ Waiting (view c) := by simp [hv, Waiting]
  rw [hv] at hc
  obtain ⟨hfw, hwb⟩ := hc.of_modified he
  exact h.setView (.modified he' hfw hwb) (by simp [hv]) (by simp)
    (fun x hx _ => h.not_fed hw hx) (by simp [hv, HasBlock, he])

theorem Inv.fill (h : Inv p view dma) (hv : view c = ⟨some e, some t, [], fw, [m]⟩)
    (he' : e'.cacheState = .M) : Inv p (update view c ⟨some e', none, [], fw, []⟩) dma := by
  have hc := h.cache c
  rw [hv] at hc
  cases hc with
  | waiting _ hfw hwb =>
    refine h.setView (.modified he' hfw hwb) (by simp [hv]) (by simp) ?_ (by simp [hv, HasBlock])
    -- the block was the only source, and has been taken
    intro x hx hne
    have hresp : x = .response := h.source c x .response hx (by simp [Feeds, hv])
    exact absurd rfl (hne hresp)

theorem Inv.evict (h : Inv p view dma) (hv : view c = ⟨some e, none, [], fw, []⟩)
    (he : e.cacheState = .M) (ht : t.tbeState = .MI) :
    Inv p (update view c ⟨none, some t, [putx c block], fw, []⟩) dma := by
  have hc := h.cache c
  have hw : ¬ Waiting (view c) := by simp [hv, Waiting]
  rw [hv] at hc
  obtain ⟨hfw, hwb⟩ := hc.of_modified he
  exact h.setView (.evicting ht hfw hwb) (by simp [hv]) (by simp)
    (fun x hx _ => h.not_fed hw hx) (by simp [hv, HasBlock, he])

omit [DecidableEq C] in
theorem CachePhase.popInvalidate
    (h : CachePhase c own wb blocked ⟨none, some t, rq, invalidate :: fw, []⟩) :
    CachePhase c own wb blocked ⟨none, some t, rq, fw, []⟩ := by
  cases h with
  | evicting ht hfw hwb =>
    rcases hfw with ⟨hown, hfw | ⟨hfw, _⟩⟩ | ⟨_, r, hfw⟩
    · cases hfw
    · cases hfw
      exact .evicting ht (.inl ⟨hown, .inl rfl⟩) hwb
    · simp [invalidate, getx] at hfw
  | writtenBack ht hfw hown hwb =>
    exact .writtenBack ht (.inl (by simpa using hfw)) hown hwb
  | acked ht hfw hown hwb =>
    exact .acked ht (.inl (by simpa [invalidate, wbAck] using hfw)) hown hwb

theorem Inv.popInvalidate (h : Inv p view dma)
    (hv : view c = ⟨none, some t, rq, invalidate :: fw, []⟩) (ht : t.tbeState = .MI) :
    Inv p (update view c ⟨none, some t, rq, fw, []⟩) dma := by
  have hc := h.cache c
  have hw : ¬ Waiting (view c) := by simp [hv, Waiting, ht]
  rw [hv] at hc
  refine h.setView hc.popInvalidate ?_ (by simp) (fun x hx _ => h.not_fed hw hx) ?_
  · intro r hr
    rw [hv]
    exact List.mem_cons_of_mem _ hr
  · simp only [HasBlock, hv]
    rintro (hr | ⟨ht, _⟩ | ⟨t', ht', hMI, hblock⟩)
    · exact absurd rfl hr
    · cases ht
    · refine .inr (.inr ⟨t', ht', hMI, hblock.imp_right ?_⟩)
      rintro ⟨r, hr⟩
      exact ⟨r, List.mem_cons_of_mem _ hr⟩

theorem Inv.passEntry (h : Inv p view dma) (hv : view c = ⟨some e, none, [], [getx r], []⟩)
    (he : e.cacheState = .M) (he' : e'.cacheState = .I) :
    Inv p (update (update view c ⟨some e', none, [], [], []⟩) r
      { view r with responses := [m] }) dma := by
  have hc := h.cache c
  rw [hv] at hc
  obtain ⟨hfw, hwb⟩ := hc.of_modified he
  have hown : c ∉ p.entry.owner := by
    rcases hfw with ⟨_, hfw | ⟨hfw, _⟩⟩ | ⟨hown, _⟩
    · cases hfw
    · simp [getx, invalidate] at hfw
    · exact hown
  exact h.pass (by simp [hv]) (by simp [hv, HasBlock, he]) (by simp [hv, Waiting])
    (.idle (by simp [he']) hown hwb) (by simp) rfl (by simp [HasBlock, he'])

omit [DecidableEq C] in
theorem CachePhase.passTbe {t' : L1Cache.TBE}
    (h : CachePhase c own wb blocked ⟨none, some t, rq, getx r :: fw, []⟩)
    (ht' : t'.tbeState = .II) :
    CachePhase c own wb blocked ⟨none, some t', rq, fw, []⟩ ∧ ∀ x, getx x ∉ fw := by
  cases h with
  | evicting ht hfw hwb =>
    rcases hfw with ⟨_, hfw | ⟨hfw, _⟩⟩ | ⟨hown, _, hfw⟩
    · cases hfw
    · simp [getx, invalidate] at hfw
    · cases hfw
      exact ⟨.gone ht' hown hwb, by simp⟩
  | writtenBack _ hfw =>
    rcases hfw with hfw | hfw
    · cases hfw
    · simp [getx, invalidate] at hfw
  | acked _ hfw => rcases hfw with hfw | hfw <;> simp [getx, invalidate, wbAck] at hfw
  | nacked _ hown hwb => exact ⟨.goneNacked ht' hown hwb, by simp [getx, wbNack]⟩

theorem Inv.passTbe {t' : L1Cache.TBE} (h : Inv p view dma)
    (hv : view c = ⟨none, some t, rq, getx r :: fw, []⟩) (ht : t.tbeState = .MI)
    (ht' : t'.tbeState = .II) :
    Inv p (update (update view c ⟨none, some t', rq, fw, []⟩) r
      { view r with responses := [m] }) dma := by
  have hc := h.cache c
  rw [hv] at hc
  obtain ⟨hphase, hfw⟩ := hc.passTbe ht'
  refine h.pass (by simp [hv]) ?_ (by simp [hv, Waiting, ht]) hphase hfw rfl
    (by simp [HasBlock, ht'])
  exact .inr (.inr ⟨t, by simp [hv], ht, .inr ⟨r, by simp [hv]⟩⟩)

theorem Inv.done {msg : RequestMsg C} (h : Inv p view dma)
    (hv : view c = ⟨none, some t, [], [msg], []⟩) (hmsg : msg = wbAck c ∨ msg = wbNack c) :
    Inv p (update view c ⟨none, none, [], [], []⟩) dma := by
  have hc := h.cache c
  rw [hv] at hc
  have hphase : c ∉ p.entry.owner ∧ ¬ InMemory .MEMORY_WB (.cache c) p ∧ ¬ Waiting (view c) := by
    cases hc with
    | writtenBack _ hfw => rcases hmsg with rfl | rfl <;> simp [invalidate, wbAck, wbNack] at hfw
    | acked ht _ hown hwb | goneNacked ht hown hwb => exact ⟨hown, hwb, by simp [hv, Waiting, ht]⟩
  obtain ⟨hown, hwb, hw⟩ := hphase
  exact h.setView (.idle (by simp) hown hwb) (by simp) (by simp)
    (fun x hx _ => h.not_fed hw hx) (by simp [HasBlock])

theorem Inv.nack (h : Inv p view dma) (hown : c ∉ p.entry.owner)
    (hv : view c = ⟨none, some t, [putx c block], fw, []⟩) :
    Inv p (update view c ⟨none, some t, [], fw ++ [wbNack c], []⟩) dma := by
  have hc := h.cache c
  have hw : ¬ Waiting (view c) := by simp [hv, Waiting]
  rw [hv] at hc
  have hfw' : ∀ r, getx r ∈ fw ++ [wbNack c] → getx r ∈ (view c).forwards := by
    simp [hv, getx, wbNack]
  cases hc with
  | evicting ht hfw hwb =>
    rcases hfw with ⟨ho, _⟩ | ⟨_, r, rfl⟩
    · exact absurd ho hown
    · exact h.setView (.nacked ht hown hwb) hfw' (by simp) (fun x hx _ => h.not_fed hw hx)
        (by simp [hv, HasBlock, ht])
  | gone ht _ hwb =>
    exact h.setView (.goneNacked ht hown hwb) hfw' (by simp) (fun x hx _ => h.not_fed hw hx)
      (by simp [HasBlock, ht])

end

/-! ### Changes of the directory -/

section

variable {p : Line.DirPart C D} {view : C → View C} {dma : D → DmaView} {c r o : C} {d : D}
  {e : L1Cache.Entry} {t : L1Cache.TBE} {fw : List (RequestMsg C)} {block : DataBlock}
  {t' t'' : Directory.TBE D} {m : MemoryMsg C D}

omit [DecidableEq C] in
theorem Inv.not_hasBlock (h : Inv p view dma) (hmem : Holds p view .memory) (x : C) :
    ¬ HasBlock (view x) := by
  intro hx
  cases h.holder .memory (.cache x) hmem hx

omit [DecidableEq C] in
theorem Inv.no_getx (h : Inv p view dma) (hw : ¬ Waiting (view c)) (x : C) :
    getx c ∉ (view x).forwards := by
  intro hx
  exact hw (h.waiting c (.cache x) hx)

theorem Inv.fetch (h : Inv ⟨⟨.I, ∅, ∅⟩, none, [], []⟩ view dma)
    (hv : view c = ⟨some e, some t, [getx c], [], []⟩) (ht' : t'.tbeState = .IM)
    (hd : t'.dmaRequestor = none) (hm : m.type = .MEMORY_READ) (hsender : m.sender = .cache c) :
    Inv ⟨⟨.IM, ∅, {c}⟩, some t', [m], []⟩
      (update view c ⟨some e, some t, [], [], []⟩) dma := by
  have hc := h.cache c
  have hw : ¬ Waiting (view c) := by simp [hv, Waiting]
  rw [hv] at hc
  cases hc with
  | asked ht hown hwb =>
    refine h.replace (.fetching c rfl rfl ht' hd ⟨m, by simp, hm, hsender⟩) ?_ ?_ ?_ ?_ ?_ ?_ ?_ ?_
      ?_
    · intro d
      simpa [serving, hd] using h.dma d
    · intro x hx
      simp [hx]
    · intro x _
      simp [hm]
    · intro x hx hread
      simp [hsender, Ne.symm hx] at hread
    · intro x _ hown
      simp at hown
    · exact .waiting ht (.inl ⟨by simp, .inl rfl⟩) (by simp [hm]) (by simp)
    · simp
    · refine ⟨.memory, fun y hy => ⟨?_, ⟨t, rfl, ht⟩, rfl⟩⟩
      cases y with
      | response => simp [Feeds] at hy
      | memory => rfl
      | cache x =>
        by_cases hx : x = c
        · subst hx
          simp [Feeds] at hy
        · exact absurd (by simpa [Feeds, hx] using hy) (h.no_getx hw x)
    · refine ⟨.memory, fun y hy => ?_⟩
      cases y with
      | memory => rfl
      | cache x =>
        by_cases hx : x = c
        · subst hx
          simp [Holds, HasBlock] at hy
        · have hold : HasBlock (view x) := by simpa [Holds, hx] using hy
          exact absurd hold (h.not_hasBlock (by simp [Holds]) x)

variable {blocked : Prop}

variable {v : View C}

omit [DecidableEq C] in
theorem CachePhase.handedOver {own wb own' wb' : Prop} (h : CachePhase o own wb blocked v)
    (ho : own) (hown' : ¬ own') (hwb' : ¬ wb') (blocked' : Prop) :
    CachePhase o own' wb' blocked' { v with forwards := [getx c] } ∧
      (HasBlock { v with forwards := [getx c] } → HasBlock v) := by
  have hfw' : Chained own' blocked' [getx c] := .inr ⟨hown', c, rfl⟩
  cases h with
  | waiting ht _ _ hrs =>
    refine ⟨.waiting ht hfw' hwb' hrs, ?_⟩
    rcases ht with ht | ht <;> simp [HasBlock, ht]
  | modified he _ _ => exact ⟨.modified he hfw' hwb', by simp [HasBlock]⟩
  | evicting ht _ _ => exact ⟨.evicting ht hfw' hwb', by simp [HasBlock]⟩
  | idle _ hown _ | asked _ hown _ | writtenBack _ _ hown _ | acked _ _ hown _ | nacked _ hown _
  | gone _ hown _ | goneNacked _ hown _ => exact absurd ho hown

theorem Inv.handOver (h : Inv ⟨⟨.M, ∅, {o}⟩, none, [], []⟩ view dma)
    (hv : view c = ⟨some e, some t, [getx c], [], []⟩) (hne : o ≠ c) :
    Inv ⟨⟨.M, ∅, {c}⟩, none, [], []⟩
      (update (update view o { view o with forwards := [getx c] }) c
        ⟨some e, some t, [], [], []⟩) dma := by
  have hc := h.cache c
  have hw : ¬ Waiting (view c) := by simp [hv, Waiting]
  rw [hv] at hc
  have hnot : o ∉ ({c} : Finset C) := by simpa using hne
  have hp : ¬ InMemory .MEMORY_WB (.cache o)
      (⟨⟨.M, ∅, {c}⟩, none, [], []⟩ : Line.DirPart C D) := not_inMemory
  have hph := (h.cache o).handedOver (c := c) (Finset.mem_singleton_self o) hnot hp
    (Blocked (⟨⟨.M, ∅, {c}⟩, none, [], []⟩ : Line.DirPart C D))
  cases hc with
  | asked ht hown hwb =>
    -- the requests for blocks are the old ones and the one to the old owner
    have hfw : ∀ r x, getx r ∈ (update (update view o
        { view o with forwards := [getx c] }) c ⟨some e, some t, [], [], []⟩ x).forwards →
        getx r ∈ (view x).forwards ∨ r = c ∧ x = o := by
      intro r x hx
      by_cases hxc : x = c
      · subst hxc
        simp at hx
      · by_cases hxo : x = o
        · subst hxo
          exact .inr ⟨by simpa [hxc, getx] using hx, rfl⟩
        · exact .inl (by simpa [hxc, hxo] using hx)
    refine h.frame (fun x => x = c ∨ x = o) (.modified c) ?_ ?_ ?_ ?_ ?_ ?_ ?_
    · intro d
      exact h.dma d
    iterate 2
      intro x hx
      obtain ⟨hxc, hxo⟩ := not_or.1 hx
      simp [hxc, hxo]
    · rintro x (rfl | rfl)
      · rw [update_self]
        exact .waiting ht (.inl ⟨by simp, .inl rfl⟩) not_inMemory (by simp)
      · rw [Function.update_of_ne hne, update_self]
        exact hph.1
    · intro r hr x hx
      obtain ⟨hrc, hro⟩ := not_or.1 hr
      cases x with
      | response => simpa [Feeds, hrc, hro] using hx
      | memory => exact absurd hx not_inMemory
      | cache x =>
        rcases hfw r x hx with hx | ⟨rfl, -⟩
        · exact hx
        · exact absurd rfl hrc
    · rintro r (rfl | rfl)
      · refine ⟨.cache o, fun y hy => ⟨?_, by simpa [Waiting] using ht⟩⟩
        cases y with
        | response => simp [Feeds] at hy
        | memory => exact absurd hy not_inMemory
        | cache x =>
          rcases hfw r x hy with hx | ⟨-, rfl⟩
          · exact absurd hx (h.no_getx hw x)
          · rfl
      · have hold : ∀ y, Feeds (D := D) ⟨⟨.M, ∅, {c}⟩, none, [], []⟩ (update
            (update view r { view r with forwards := [getx c] }) c
            ⟨some e, some t, [], [], []⟩) r y →
            Feeds (D := D) ⟨⟨.M, ∅, {r}⟩, none, [], []⟩ view r y := by
          intro y hy
          cases y with
          | response => simpa [Feeds, hne] using hy
          | memory => exact absurd hy not_inMemory
          | cache x =>
            rcases hfw r x hy with hx | ⟨hrc, -⟩
            · exact hx
            · exact absurd hrc hne
        obtain ⟨x, hx⟩ := exists_forall_eq fun y z hy hz => h.source r y z (hold y hy) (hold z hz)
        refine ⟨x, fun y hy => ⟨hx y hy, ?_⟩⟩
        have hwait := h.waiting r y (hold y hy)
        simpa [Waiting, hne] using hwait
    · refine exists_forall_eq fun y z hy hz => ?_
      have hold : ∀ y, Holds (D := D) ⟨⟨.M, ∅, {c}⟩, none, [], []⟩ (update
          (update view o { view o with forwards := [getx c] }) c
          ⟨some e, some t, [], [], []⟩) y →
          Holds (D := D) ⟨⟨.M, ∅, {o}⟩, none, [], []⟩ view y := by
        intro y hy
        cases y with
        | memory => simp [Holds] at hy
        | cache x =>
          by_cases hxc : x = c
          · subst hxc
            simp [Holds, HasBlock] at hy
          · by_cases hxo : x = o
            · subst hxo
              exact hph.2 (by simpa [Holds, hxc] using hy)
            · simpa [Holds, hxc, hxo] using hy
      exact h.holder y z (hold y hy) (hold z hz)

variable {fw : List (RequestMsg C)}

omit [DecidableEq C] in
theorem HasBlock.of_forwards (h : HasBlock { v with forwards := fw })
    (hfw : ∀ r, getx r ∈ fw → getx r ∈ v.forwards) : HasBlock v := by
  rcases h with h | h | ⟨t, ht, hstate, h | ⟨r, hr⟩⟩
  · exact .inl h
  · exact .inr (.inl h)
  · exact .inr (.inr ⟨t, ht, hstate, .inl h⟩)
  · exact .inr (.inr ⟨t, ht, hstate, .inr ⟨r, hfw r hr⟩⟩)

variable {dma' : D → DmaView} {st : Directory.State}

theorem Inv.giveBack {st' : Directory.State} {tbe : Option (Directory.TBE D)} {b : DataBlock}
    (h : Inv ⟨⟨st, ∅, {c}⟩, tbe, [], []⟩ view dma)
    (hv : view c = ⟨none, some t, [putx c b], fw, []⟩)
    (hdir : DirPhase (⟨⟨st', ∅, ∅⟩, some t', [m], []⟩ : Line.DirPart C D))
    (hdma : ∀ d, DmaPhase (serving ⟨⟨st', ∅, ∅⟩, some t', [m], []⟩ d) (dma' d))
    (hm : m.type = .MEMORY_WB) (hsender : m.sender = .cache c) :
    Inv ⟨⟨st', ∅, ∅⟩, some t', [m], []⟩
      (update view c ⟨none, some t, [], fw, []⟩) dma' := by
  have hc := h.cache c
  rw [hv] at hc
  cases hc with
  | gone _ hown _ => simp at hown
  | evicting ht hfw hwb =>
    have hw : ¬ Waiting (view c) := by simp [hv, Waiting]
    have hblock : HasBlock (view c) := by simp [hv, HasBlock, ht]
    have hfw' : fw = [] ∨ fw = [invalidate] := by
      rcases hfw with ⟨_, hfw⟩ | ⟨hown, _⟩
      · exact hfw.imp_right And.left
      · simp at hown
    refine h.replace hdir hdma ?_ ?_ ?_ ?_ ?_ ?_ ?_ ?_
    · intro x hx
      simp [hx]
    · intro x hx
      simp [hsender, Ne.symm hx]
    · intro x _ hread
      simp [hm] at hread
    · intro x hx hown
      simp [hx] at hown
    · exact .writtenBack ht hfw' (by simp) (by simp [hm, hsender])
    · intro r hr
      simpa [hv] using hr
    · refine ⟨.response, fun y hy => ?_⟩
      cases y with
      | response => simp [Feeds] at hy
      | memory => simp [Feeds, hm] at hy
      | cache x => exact absurd (getx_update (by simp [hv]) hy) (h.no_getx hw x)
    · refine ⟨.memory, fun y hy => ?_⟩
      cases y with
      | memory => rfl
      | cache x =>
        by_cases hx : x = c
        · subst hx
          rcases hfw' with rfl | rfl <;> simp [Holds, HasBlock, getx, invalidate] at hy
        · have hold : HasBlock (view x) := by simpa [Holds, hx] using hy
          exact absurd (h.holder (.cache x) (.cache c) hold hblock) (by simpa using hx)

omit [DecidableEq C] in
/-- A cache whose write-back is in the memory waits for nothing but the answer. -/
theorem CachePhase.of_wb {own wb : Prop} {v : View C} (h : CachePhase c own wb blocked v)
    (hw : wb) : ∃ t fw, v = ⟨none, some t, [], fw, []⟩ ∧ t.tbeState = .MI ∧
      (fw = [] ∨ fw = [invalidate]) := by
  cases h with
  | writtenBack ht hfw _ _ => exact ⟨_, _, rfl, ht, hfw⟩
  | idle _ _ hwb | asked _ _ hwb | waiting _ _ hwb _ | modified _ _ hwb | evicting _ _ hwb
  | acked _ _ _ hwb | nacked _ _ hwb | gone _ _ hwb | goneNacked _ _ hwb => exact absurd hw hwb

omit [DecidableEq C] in
theorem CachePhase.ack {own wb own' wb' : Prop} (h : CachePhase c own wb blocked v) (hw : wb)
    (hown' : ¬ own') (hwb' : ¬ wb') (blocked' : Prop) :
    ¬ Waiting v ∧
      CachePhase c own' wb' blocked' { v with forwards := v.forwards ++ [wbAck c] } := by
  obtain ⟨t, fw, rfl, ht, hfw⟩ := h.of_wb hw
  refine ⟨by simp [Waiting, ht], .acked ht ?_ hown' hwb'⟩
  rcases hfw with rfl | rfl <;> simp

theorem Inv.ack (h : Inv ⟨⟨st, ∅, ∅⟩, some t', [], [m]⟩ view dma)
    (hst : st ≠ .M ∧ st ≠ .M_DRD ∧ st ≠ .M_DWR) (hdma : ∀ d, DmaPhase none (dma' d))
    (hm : m.type = .MEMORY_WB) (hsender : m.sender = .cache c) :
    Inv ⟨⟨.I, ∅, ∅⟩, none, [], []⟩
      (update view c { view c with forwards := (view c).forwards ++ [wbAck c] })
      dma' := by
  have hp : ¬ InMemory .MEMORY_WB (.cache c)
      (⟨⟨.I, ∅, ∅⟩, none, [], []⟩ : Line.DirPart C D) := not_inMemory
  have hwb : InMemory .MEMORY_WB (.cache c)
      (⟨⟨st, ∅, ∅⟩, some t', [], [m]⟩ : Line.DirPart C D) := by simp [hm, hsender]
  obtain ⟨hw, hcache⟩ := (h.cache c).ack hwb (Finset.notMem_empty c) hp
    (Blocked (⟨⟨.I, ∅, ∅⟩, none, [], []⟩ : Line.DirPart C D))
  have hfw : ∀ r, getx r ∈ (view c).forwards ++ [wbAck c] → getx r ∈ (view c).forwards := by
    intro r hr
    simpa [getx, wbAck] using hr
  have hmem : Holds (D := D) ⟨⟨st, ∅, ∅⟩, some t', [], [m]⟩ view .memory := hst
  refine h.replace .invalid hdma (fun _ _ => Iff.rfl) ?_ ?_ ?_ hcache hfw ?_ ?_
  · intro x hx
    simp [hsender, Ne.symm hx]
  · intro x _ hread
    exact absurd hread not_inMemory
  · intro x _ hown
    simp at hown
  · refine ⟨.response, fun y hy => ?_⟩
    cases y with
    | response => exact h.not_fed hw (x := .response) (by simpa [Feeds] using hy)
    | memory => exact absurd hy not_inMemory
    | cache x => exact absurd (getx_update hfw hy) (h.no_getx hw x)
  · refine ⟨.memory, fun y hy => ?_⟩
    cases y with
    | memory => rfl
    | cache x =>
      refine absurd ?_ (h.not_hasBlock hmem x)
      by_cases hx : x = c
      · subst hx
        have hnew : HasBlock { view x with forwards := (view x).forwards ++ [wbAck x] } := by
          simpa [Holds] using hy
        exact hnew.of_forwards hfw
      · simpa [Holds, hx] using hy

theorem Inv.data {msg : ResponseMsg} (h : Inv ⟨⟨.IM, ∅, {c}⟩, some t', [], [m]⟩ view dma)
    (hd : t'.dmaRequestor = none) (hm : m.type = .MEMORY_READ) (hsender : m.sender = .cache c) :
    Inv ⟨⟨.M, ∅, {c}⟩, none, [], []⟩
      (update view c { view c with responses := [msg] }) dma := by
  have hmem : Feeds (D := D) ⟨⟨.IM, ∅, {c}⟩, some t', [], [m]⟩ view c .memory := by
    simp [Feeds, hm, hsender]
  have hw : Waiting (view c) := h.waiting c .memory hmem
  have hheld : Holds (D := D) ⟨⟨.IM, ∅, {c}⟩, some t', [], [m]⟩ view .memory := by simp [Holds]
  refine h.replace (.modified c) ?_ (fun _ _ => Iff.rfl) ?_ ?_ ?_ ?_ (fun _ => id) ?_ ?_
  · intro d
    simpa [serving, hd] using h.dma d
  · intro x hx
    simp [hm]
  · intro x _ hread
    exact absurd hread not_inMemory
  · intro x _ _ hblocked
    simp [Blocked] at hblocked
  · refine ((h.cache c).setResponses hw (by simp)).congr Iff.rfl ?_ ?_
    · simp [hm]
    · intro _ hblocked
      simp [Blocked] at hblocked
  · refine ⟨.response, fun y hy => ⟨?_, hw⟩⟩
    cases y with
    | response => rfl
    | memory => exact absurd hy not_inMemory
    | cache x =>
      have hold : getx c ∈ (view x).forwards :=
        getx_update (c := c) (v := { view c with responses := [msg] }) (fun _ hr => hr) hy
      exact absurd (h.source c (.cache x) .memory hold hmem) (by simp)
  · refine ⟨.cache c, fun y hy => ?_⟩
    cases y with
    | memory => simp [Holds] at hy
    | cache x =>
      by_cases hx : x = c
      · rw [hx]
      · exact absurd (by simpa [Holds, hx] using hy) (h.not_hasBlock hheld x)

omit [DecidableEq C] in
theorem CachePhase.invalidated (h : CachePhase c own wb blocked v) (ho : own)
    (hfw : v.forwards = []) {blocked' : Prop} (hb : blocked') :
    CachePhase c own wb blocked' { v with forwards := [invalidate] } := by
  have hfw' : Chained own blocked' [invalidate (C := C)] := .inl ⟨ho, .inr ⟨rfl, hb⟩⟩
  cases h with
  | waiting ht _ hwb hrs => exact .waiting ht hfw' hwb hrs
  | modified he _ hwb => exact .modified he hfw' hwb
  | evicting ht _ hwb => exact .evicting ht hfw' hwb
  | idle _ hown _ | asked _ hown _ | writtenBack _ _ hown _ | acked _ _ hown _ | nacked _ hown _
  | gone _ hown _ | goneNacked _ hown _ => exact absurd ho hown

theorem Inv.dmaInvalidate (h : Inv ⟨⟨.M, ∅, {o}⟩, none, [], []⟩ view dma)
    (hst : st = .M_DRD ∨ st = .M_DWR)
    (hdir : DirPhase (⟨⟨st, ∅, {o}⟩, some t', [], []⟩ : Line.DirPart C D))
    (hdma : ∀ d, DmaPhase (serving ⟨⟨st, ∅, {o}⟩, some t', [], []⟩ d) (dma' d))
    (ho : (view o).forwards = []) :
    Inv ⟨⟨st, ∅, {o}⟩, some t', [], []⟩
      (update view o { view o with forwards := [invalidate] }) dma' := by
  have hfw : ∀ r, getx r ∈ [invalidate (C := C)] → getx r ∈ (view o).forwards := by
    simp [getx, invalidate]
  have hblocked : Blocked (⟨⟨st, ∅, {o}⟩, some t', [], []⟩ : Line.DirPart C D) := hst
  refine h.replace hdir hdma (fun _ _ => Iff.rfl) ?_ ?_ (fun _ _ _ _ => hblocked) ?_ hfw ?_ ?_
  · intro x _
    simp
  · intro x _ hread
    exact absurd hread not_inMemory
  · exact ((h.cache o).invalidated (Finset.mem_singleton_self o) ho hblocked).congr Iff.rfl
      (by simp) (fun _ => id)
  · have hold : ∀ y, Feeds (D := D) ⟨⟨st, ∅, {o}⟩, some t', [], []⟩ (update view o
        { view o with forwards := [invalidate] }) o y →
        Feeds (D := D) ⟨⟨.M, ∅, {o}⟩, none, [], []⟩ view o y := by
      intro y hy
      cases y with
      | response => simpa [Feeds] using hy
      | memory => exact absurd hy not_inMemory
      | cache x => exact getx_update hfw hy
    obtain ⟨x, hx⟩ := exists_forall_eq fun y z hy hz => h.source o y z (hold y hy) (hold z hz)
    exact ⟨x, fun y hy => ⟨hx y hy, h.waiting o y (hold y hy)⟩⟩
  · have hold : ∀ y, Holds (D := D) ⟨⟨st, ∅, {o}⟩, some t', [], []⟩ (update view o
        { view o with forwards := [invalidate] }) y →
        Holds (D := D) ⟨⟨.M, ∅, {o}⟩, none, [], []⟩ view y := by
      intro y hy
      cases y with
      | memory => rcases hst with rfl | rfl <;> simp [Holds] at hy
      | cache x =>
        by_cases hx : x = o
        · subst hx
          have hnew : HasBlock { view x with forwards := [invalidate] } := by
            simpa [Holds] using hy
          exact hnew.of_forwards hfw
        · simpa [Holds, hx] using hy
    exact exists_forall_eq fun y z hy hz => h.holder y z (hold y hy) (hold z hz)

omit [DecidableEq C] in
theorem Inv.dirOnly {p p' : Line.DirPart C D} (h : Inv p view dma) (hdir : DirPhase p')
    (hdma : ∀ d, DmaPhase (serving p' d) (dma' d)) (howner : p'.entry.owner = p.entry.owner)
    (hmem : ∀ type c, InMemory type (.cache c) p' ↔ InMemory type (.cache c) p)
    (hblocked : Blocked p → Blocked p') (hholds : Holds p' view .memory → Holds p view .memory) :
    Inv p' view dma' := by
  refine h.frame (fun _ => False) hdir hdma (fun _ _ => rfl) ?_ ?_ ?_ ?_ ?_
  · intro c _
    exact ⟨by rw [howner], hmem _ c, fun _ => hblocked⟩
  · intro c hc
    exact hc.elim
  · intro r _ x hx
    cases x with
    | memory => exact (hmem _ r).1 hx
    | _ => exact hx
  · intro r hr
    exact hr.elim
  · have hold : ∀ y, Holds p' view y → Holds p view y := by
      intro y hy
      cases y with
      | memory => exact hholds hy
      | cache x => exact hy
    exact exists_forall_eq fun y z hy hz => h.holder y z (hold y hy) (hold z hz)

end

/-! ### Changes of the DMA controllers -/

omit [DecidableEq C] in
theorem DmaPhase.setView {p q : Line.DirPart C D} {dma : D → DmaView} {d : D} {v : DmaView}
    (h : ∀ x, DmaPhase (serving p x) (dma x)) (hother : ∀ x ≠ d, serving q x = serving p x)
    (hd : DmaPhase (serving q d) v) (x : D) : DmaPhase (serving q x) (update dma d v x) := by
  by_cases hx : x = d
  · subst hx
    simpa using hd
  · rw [update_of_ne hx, hother x hx]
    exact h x

theorem DmaPhase.answer {type : DMARequestType} {v : DmaView} {m : DMAResponseMsg}
    (h : DmaPhase (some type) v) (hm : m.type = MiExample.answer type) :
    DmaPhase none { v with responses := [m] } := by
  rcases h with hs | ⟨_, hs⟩ | ⟨ht, hs⟩ | ⟨_, _, hs⟩ <;> cases hs
  exact .answered ht hm rfl

theorem DmaPhase.take {t : DMA.TBE} {m : DMARequestMsg}
    (h : DmaPhase none ⟨some t, [m], []⟩) : DmaPhase (some m.type) ⟨some t, [], []⟩ := by
  cases h with
  | asked ht _ => exact .served ht rfl

section

variable {view : C → View C} {dma : D → DmaView} {c o : C} {d : D} {t : L1Cache.TBE}
  {t' : Directory.TBE D} {m : MemoryMsg C D} {msg : DMAResponseMsg}

theorem Inv.dmaReadBack {b : DataBlock} (h : Inv ⟨⟨.M_DRD, ∅, {c}⟩, some t', [], []⟩ view dma)
    (ht' : t'.tbeState = .M_DRD) (hd : t'.dmaRequestor = some d)
    (hv : view c = ⟨none, some t, [putx c b], fw, []⟩) (hm : m.type = .MEMORY_WB)
    (hsender : m.sender = .cache c) (hmsg : msg.type = .DATA) :
    Inv ⟨⟨.M_DRDI, ∅, ∅⟩, some { t' with tbeState := .M_DRDI }, [m], []⟩
      (update view c ⟨none, some t, [], fw, []⟩)
      (update dma d { dma d with responses := [msg] }) := by
  refine h.giveBack hv (.dmaReadBack c rfl rfl rfl (by simp [hm, hsender])) ?_ hm hsender
  have hserved : DmaPhase (some .READ) (dma d) := by simpa [serving, hd, ht'] using h.dma d
  refine DmaPhase.setView h.dma ?_ (by simpa [serving] using hserved.answer hmsg)
  intro x hx
  simp [serving, hd, Ne.symm hx]

theorem Inv.dmaWriteBack {b : DataBlock} (h : Inv ⟨⟨.M_DWR, ∅, {c}⟩, some t', [], []⟩ view dma)
    (ht' : t'.tbeState = .M_DWR) (hd : t'.dmaRequestor = some d)
    (hv : view c = ⟨none, some t, [putx c b], fw, []⟩) (hm : m.type = .MEMORY_WB)
    (hsender : m.sender = .cache c) :
    Inv ⟨⟨.M_DWRI, ∅, ∅⟩, some { t' with tbeState := .M_DWRI }, [m], []⟩
      (update view c ⟨none, some t, [], fw, []⟩) dma := by
  refine h.giveBack hv (.dmaWriteBack c d rfl rfl rfl hd (by simp [hm, hsender])) ?_ hm hsender
  intro x
  simpa [serving, ht'] using h.dma x

theorem Inv.dmaAck (h : Inv ⟨⟨.M_DWRI, ∅, ∅⟩, some t', [], [m]⟩ view dma)
    (ht' : t'.tbeState = .M_DWRI) (hd : t'.dmaRequestor = some d) (hm : m.type = .MEMORY_WB)
    (hsender : m.sender = .cache c) (hmsg : msg.type = .ACK) :
    Inv ⟨⟨.I, ∅, ∅⟩, none, [], []⟩
      (update view c { view c with forwards := (view c).forwards ++ [wbAck c] })
      (update dma d { dma d with responses := [msg] }) := by
  refine h.ack (by simp) ?_ hm hsender
  have hserved : DmaPhase (some .WRITE) (dma d) := by simpa [serving, hd, ht'] using h.dma d
  refine DmaPhase.setView (q := ⟨⟨.I, ∅, ∅⟩, none, [], []⟩) h.dma ?_ (hserved.answer hmsg)
  intro x hx
  simp [serving, hd, Ne.symm hx]

variable {st : Directory.State}

omit [DecidableEq C] in
theorem Inv.dmaAnswer {type : DMARequestType} (h : Inv ⟨⟨st, ∅, ∅⟩, some t', [], [m]⟩ view dma)
    (hst : st = .ID ∧ type = .READ ∨ st = .ID_W ∧ type = .WRITE) (ht' : t'.tbeState = st)
    (hd : t'.dmaRequestor = some d) (hsender : m.sender = .dma d) (hmsg : msg.type = answer type) :
    Inv ⟨⟨.I, ∅, ∅⟩, none, [], []⟩ view
      (update dma d { dma d with responses := [msg] }) := by
  have hserved : DmaPhase (some type) (dma d) := by
    rcases hst with ⟨rfl, rfl⟩ | ⟨rfl, rfl⟩ <;> simpa [serving, hd, ht'] using h.dma d
  refine h.dirOnly .invalid ?_ rfl ?_ ?_ ?_
  · refine DmaPhase.setView h.dma ?_ (hserved.answer hmsg)
    intro x hx
    simp [serving, hd, Ne.symm hx]
  · intro type c
    simp [hsender]
  · rcases hst with ⟨rfl, _⟩ | ⟨rfl, _⟩ <;> simp [Blocked]
  · rcases hst with ⟨rfl, _⟩ | ⟨rfl, _⟩ <;> simp [Holds]

omit [DecidableEq C] in
theorem Inv.dmaStart {t : DMA.TBE} {msg : DMARequestMsg}
    (h : Inv ⟨⟨.I, ∅, ∅⟩, none, [], []⟩ view dma) (hv : dma d = ⟨some t, [msg], []⟩)
    (hst : msg.type = .READ ∧ st = .ID ∧ m.type = .MEMORY_READ ∨
      msg.type = .WRITE ∧ st = .ID_W ∧ m.type = .MEMORY_WB) (ht' : t'.tbeState = st)
    (hd : t'.dmaRequestor = some d) (hsender : m.sender = .dma d) :
    Inv ⟨⟨st, ∅, ∅⟩, some t', [m], []⟩ view (update dma d ⟨some t, [], []⟩) := by
  have hasked : DmaPhase none (dma d) := h.dma d
  rw [hv] at hasked
  refine h.dirOnly ?_ ?_ rfl ?_ ?_ ?_
  · rcases hst with ⟨_, rfl, hm⟩ | ⟨_, rfl, hm⟩
    · exact .dmaFetching d rfl rfl ht' hd (by simp [hm, hsender])
    · exact .dmaWriting d rfl rfl ht' hd (by simp [hm, hsender])
  · refine DmaPhase.setView h.dma ?_ ?_
    · intro x hx
      simp [serving, hd, Ne.symm hx]
    · have hserved := hasked.take
      rcases hst with ⟨hmsg, rfl, _⟩ | ⟨hmsg, rfl, _⟩ <;>
        simpa [serving, hd, ht', hmsg] using hserved
  · intro type c
    simp [hsender]
  · simp [Blocked]
  · simp [Holds]

theorem Inv.dmaOwned {t : DMA.TBE} {msg : DMARequestMsg}
    (h : Inv ⟨⟨.M, ∅, {o}⟩, none, [], []⟩ view dma) (hv : dma d = ⟨some t, [msg], []⟩)
    (hst : msg.type = .READ ∧ st = .M_DRD ∨ msg.type = .WRITE ∧ st = .M_DWR)
    (ht' : t'.tbeState = st) (hd : t'.dmaRequestor = some d) (ho : (view o).forwards = []) :
    Inv ⟨⟨st, ∅, {o}⟩, some t', [], []⟩
      (update view o { view o with forwards := [invalidate] })
      (update dma d ⟨some t, [], []⟩) := by
  have hasked : DmaPhase none (dma d) := h.dma d
  rw [hv] at hasked
  refine h.dmaInvalidate (hst.imp And.right And.right) ?_ ?_ ho
  · rcases hst with ⟨_, rfl⟩ | ⟨_, rfl⟩
    · exact .dmaRead o d ht' hd
    · exact .dmaWrite o d ht' hd
  · refine DmaPhase.setView h.dma ?_ ?_
    · intro x hx
      simp [serving, hd, Ne.symm hx]
    · have hserved := hasked.take
      rcases hst with ⟨hmsg, rfl⟩ | ⟨hmsg, rfl⟩ <;> simpa [serving, hd, ht', hmsg] using hserved

omit [DecidableEq C] in
theorem Inv.dmaTurn {p : Line.DirPart C D} {v : DmaView} (h : Inv p view dma)
    (hv : DmaPhase (serving p d) v) : Inv p view (update dma d v) :=
  h.dirOnly h.dir (DmaPhase.setView h.dma (fun _ _ => rfl) hv) rfl (fun _ _ => Iff.rfl) id id

omit [DecidableEq C] in
theorem Inv.serve {e : Directory.Entry C} {m' : MemoryMsg C D} {tbe : Option (Directory.TBE D)}
    (h : Inv ⟨e, tbe, [m], []⟩ view dma) (htype : m'.type = m.type)
    (hsender : m'.sender = m.sender) : Inv ⟨e, tbe, [], [m']⟩ view dma := by
  have hmem : ∀ type r, InMemory type r (⟨e, tbe, [], [m']⟩ : Line.DirPart C D) ↔
      InMemory type r (⟨e, tbe, [m], []⟩ : Line.DirPart C D) := by
    simp [htype, hsender]
  refine h.dirOnly ?_ h.dma rfl (fun type c => hmem type _) id id
  cases h.dir with
  | fetching o he ht htbe hd hm => exact .fetching o he ht htbe hd ((hmem _ _).2 hm)
  | writingBack c he ht htbe hd hm => exact .writingBack c he ht htbe hd ((hmem _ _).2 hm)
  | dmaFetching d he ht htbe hd hm => exact .dmaFetching d he ht htbe hd ((hmem _ _).2 hm)
  | dmaWriting d he ht htbe hd hm => exact .dmaWriting d he ht htbe hd ((hmem _ _).2 hm)
  | dmaReadBack c he ht htbe hm => exact .dmaReadBack c he ht htbe ((hmem _ _).2 hm)
  | dmaWriteBack c d he ht htbe hd hm => exact .dmaWriteBack c d he ht htbe hd ((hmem _ _).2 hm)

end

omit [DecidableEq C] [DecidableEq D] in
theorem Line.serveMemory_dir (s : Line C D) {m : MemoryMsg C D} (hto : s.requestToMemory = [m])
    (hfrom : s.responseFromMemory = []) :
    ∃ m', m'.type = m.type ∧ m'.sender = m.sender ∧
      s.serveMemory.dir = ⟨s.entry, s.tbe, [], [m']⟩ ∧ s.serveMemory.view = s.view ∧
      s.serveMemory.dmaView = s.dmaView := by
  unfold Line.serveMemory
  simp only [hto, hfrom, List.nil_append]
  split
  · exact ⟨{ m with dataBlk := s.memory }, rfl, rfl, rfl, rfl, rfl⟩
  · exact ⟨m, rfl, rfl, rfl, rfl, rfl⟩

/-- Every change keeps the invariant. -/
theorem Change.inv {s s' : Line C D} {op : Op C D} (hc : Change s op s') (h : s.Inv) : s'.Inv := by
  unfold Line.Inv at h ⊢
  cases hc with
  | stall => exact h
  | miss c hv he hstate =>
    simpa using h.miss hv he hstate
  | access c hv he _ =>
    simpa using h.access hv he rfl
  | fill c hv _ => simpa using h.fill hv rfl
  | drop c hv he => simpa using h.drop hv he
  | evict c hv he => simpa using h.evict hv he rfl
  | popInvalidate c hv ht => simpa using h.popInvalidate hv ht
  | passEntry c r hv he _ => simpa using h.passEntry hv he rfl
  | passTbe c r hv ht _ => simpa using h.passTbe hv ht rfl
  | done c hv hm => simpa using h.done hv hm
  | fetch c hdir hv =>
    rw [hdir] at h
    simpa using h.fetch hv rfl rfl rfl rfl
  | handOver c o hdir hv _ hne =>
    rw [hdir] at h
    simpa using h.handOver hv hne
  | writeBack c hdir hv =>
    rw [hdir] at h
    have hdma : ∀ d, DmaPhase none (s.dmaView d) := h.dma
    simpa using h.giveBack hv (.writingBack c rfl rfl rfl rfl (by simp)) (by simpa [serving])
      rfl rfl
  | nack c hc hv => simpa using h.nack hc hv
  | data c hdir hd hm hsender _ =>
    rw [hdir] at h
    simpa using h.data hd hm hsender
  | ack c hdir hstate ht hm hsender =>
    rw [hdir] at h
    have hdma : ∀ d, DmaPhase none (s.dmaView d) := by
      intro d
      rcases hstate with rfl | rfl <;> simpa [serving, ht] using h.dma d
    simpa using h.ack (by rcases hstate with rfl | rfl <;> simp) hdma hm hsender
  | @serve m hto hfrom =>
    have hdir : s.dir = ⟨s.entry, s.tbe, [m], []⟩ := by simp [Line.dir, hto, hfrom]
    obtain ⟨m', htype, hsender, hdir', hview, hdma⟩ := s.serveMemory_dir hto hfrom
    rw [hdir] at h
    rw [hdir', hview, hdma]
    exact h.serve htype hsender
  | dmaReadBack c d hdir ht' hd hv _ =>
    rw [hdir] at h
    simpa using h.dmaReadBack ht' hd hv rfl rfl rfl
  | dmaWriteBack c d hdir ht' hd hv =>
    rw [hdir] at h
    simpa using h.dmaWriteBack ht' hd hv rfl rfl
  | dmaAnswer d hdir hstate ht hd hsender hmsg _ =>
    rw [hdir] at h
    simpa using h.dmaAnswer hstate ht hd hsender hmsg
  | dmaAck c d hdir ht hd hm hsender hmsg _ =>
    rw [hdir] at h
    simpa using h.dmaAck ht hd hm hsender hmsg
  | dmaRead d hdir hv hm =>
    rw [hdir] at h
    simpa using h.dmaStart hv (.inl ⟨hm, rfl, rfl⟩) rfl rfl rfl
  | dmaWrite d hdir hv hm =>
    rw [hdir] at h
    simpa using h.dmaStart hv (.inr ⟨hm, rfl, rfl⟩) rfl rfl rfl
  | dmaInvalidate o d hdir hv hstate ho =>
    rw [hdir] at h
    simpa using h.dmaOwned hv hstate rfl rfl ho
  | dmaAsk d msg hv =>
    have hd := h.dma d
    rw [hv] at hd
    cases hd with
    | ready hs => simpa using h.dmaTurn (.asked rfl hs)
  | dmaDone d hv =>
    have hd := h.dma d
    rw [hv] at hd
    cases hd with
    | answered _ _ hs => simpa using h.dmaTurn (.ready hs)

end Gem5Nvm.MiExample
