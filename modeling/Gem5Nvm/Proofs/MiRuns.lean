import Gem5Nvm.Proofs.MiStep

/-!
# MI_example: runs

A step from a line where the invariant holds is a change, and fails only on a request that the
directory has no transition for.
-/

namespace Gem5Nvm.MiExample

open Ruby (DataBlock SequencerRequest Hit RubyRequestType)
open Change (miss access drop evict fill done fetch nack ack data dmaAnswer dmaDone)

variable {C D : Type}

namespace Line

theorem view_eq {s : Line C D} {c : C} {v : View C} (h : s.view c = v) :
    s.cacheEntry c = v.entry ∧ s.cacheTbe c = v.tbe ∧ s.requestToDir c = v.requests ∧
      s.forwardToCache c = v.forwards ∧ s.responseToCache c = v.responses := by
  subst h
  exact ⟨rfl, rfl, rfl, rfl, rfl⟩

section

variable [DecidableEq C]

@[simp] theorem setView_setView (s : Line C D) (c : C) (v w : View C) :
    (s.setView c v).setView c w = s.setView c w := by
  simp [setView]

theorem setView_comm (s : Line C D) {c r : C} (h : r ≠ c) (v w : View C) :
    (s.setView r v).setView c w = (s.setView c w).setView r v := by
  simp only [setView, Function.update_comm h]

theorem sendData_eq_setView (s : Line C D) (r : C) (b : DataBlock) :
    s.sendData r b =
      s.setView r { s.view r with responses := (s.view r).responses ++ [⟨b⟩] } := by
  simp [sendData, setResponses, setView, view]

theorem setRequests_eq_setView (s : Line C D) (c : C) (rq : List (RequestMsg C)) :
    s.setRequests c rq = s.setView c { s.view c with requests := rq } := by
  simp [setRequests, setView, view]

theorem setForwards_eq_setView (s : Line C D) (c : C) (fw : List (RequestMsg C)) :
    s.setForwards c fw = s.setView c { s.view c with forwards := fw } := by
  simp [setForwards, setView, view]

theorem setView_self (s : Line C D) (c : C) : s.setView c (s.view c) = s := by
  simp [setView, view]

end

theorem dmaView_eq {s : Line C D} {d : D} {v : DmaView} (h : s.dmaView d = v) :
    s.dmaTbe d = v.tbe ∧ s.dmaRequestToDir d = v.requests ∧ s.dmaResponseFromDir d = v.responses := by
  subst h
  exact ⟨rfl, rfl, rfl⟩

section

variable [DecidableEq D]

@[simp] theorem setDmaView_setDmaView (s : Line C D) (d : D) (v w : DmaView) :
    (s.setDmaView d v).setDmaView d w = s.setDmaView d w := by
  simp [setDmaView]

section

variable (s : Line C D) (d : D)
include s d

theorem setDmaView_self : s.setDmaView d (s.dmaView d) = s := by
  simp [setDmaView, dmaView]

theorem setDmaTbe_eq_setDmaView (t : Option DMA.TBE) :
    s.setDmaTbe d t = s.setDmaView d { s.dmaView d with tbe := t } := by
  simp [setDmaTbe, setDmaView, dmaView]

theorem setDmaRequests_eq_setDmaView (rq : List DMARequestMsg) :
    s.setDmaRequests d rq = s.setDmaView d { s.dmaView d with requests := rq } := by
  simp [setDmaRequests, setDmaView, dmaView]

theorem setDmaResponses_eq_setDmaView (rs : List DMAResponseMsg) :
    s.setDmaResponses d rs = s.setDmaView d { s.dmaView d with responses := rs } := by
  simp [setDmaResponses, setDmaView, dmaView]

theorem sendDmaResponse_eq_setDmaView (msg : DMAResponseMsg) :
    s.sendDmaResponse d msg =
      s.setDmaView d { s.dmaView d with responses := (s.dmaView d).responses ++ [msg] } :=
  s.setDmaResponses_eq_setDmaView d _

end

end

theorem getCacheState_of_tbe {s : Line C D} {c : C} {t : L1Cache.TBE}
    (h : s.cacheTbe c = some t) : s.getCacheState c = t.tbeState := by
  simp [getCacheState, h]

end Line

theorem CachePhase.busy {c : C} {own wb blocked : Prop} {v : View C} {t : L1Cache.TBE}
    (h : CachePhase c own wb blocked v) (ht : v.tbe = some t) :
    t.tbeState = .IS ∨ t.tbeState = .IM ∨ t.tbeState = .MI ∨ t.tbeState = .II := by
  cases h with
  | asked hst | waiting hst => cases ht; exact hst.imp_right .inl
  | evicting hst | writtenBack hst | acked hst | nacked hst =>
    cases ht; exact .inr (.inr (.inl hst))
  | gone hst | goneNacked hst => cases ht; exact .inr (.inr (.inr hst))
  | _ => cases ht

theorem DmaPhase.responses_eq_nil {served : Option DMARequestType} {v : DmaView}
    {type : DMARequestType} (h : DmaPhase served v) (hs : served = some type) :
    v.responses = [] := by
  cases h with
  | answered _ _ hnone => simp [hs] at hnone
  | _ => rfl

theorem served_read (e : L1Cache.Entry) (reqs : List SequencerRequest) :
    Served e (readCallback e reqs).1 (readCallback e reqs).2 :=
  ⟨reqs, .inl rfl⟩

theorem served_write (e : L1Cache.Entry) (reqs : List SequencerRequest) :
    Served e (writeCallback e reqs).1 (writeCallback e reqs).2 :=
  ⟨reqs, .inr rfl⟩

variable [DecidableEq C] [DecidableEq D]

section

variable {s : Line C D} {c : C} {i : ℕ} {reqs : List SequencerRequest} {op : Op C D}

/-! ### Steps of a cache -/

variable {t : L1Cache.TBE}

theorem Line.Inv.stall (h : s.Inv) (ht : s.cacheTbe c = some t) {event : L1Cache.Event}
    (hevent : event = .Load ∨ event = .Ifetch ∨ event = .Store ∨ event = .Replacement) :
    s.triggerCache c event i reqs = .ok s := by
  have htrans : L1Cache.transition (s.getCacheState c) event = some ([.zStall], t.tbeState) := by
    rw [Line.getCacheState_of_tbe ht]
    rcases (h.cache c).busy ht with hst | hst | hst | hst <;> rw [hst] <;>
      rcases hevent with rfl | rfl | rfl | rfl <;> rfl
  exact Line.trigger_stall htrans

theorem mandatory_change (h : s.Inv) {event : L1Cache.Event}
    (hevent : event = .Load ∨ event = .Ifetch ∨ event = .Store) :
    ∃ s', s.triggerCache c event i reqs = .ok s' ∧ Change s op s' := by
  have hc := h.cache c
  generalize hv : s.view c = v at hc
  obtain ⟨hentry, htbe, hrq, hfw, hrs⟩ := Line.view_eq hv
  have hwait : ∀ t, v.tbe = some t → ∃ s', s.triggerCache c event i reqs = .ok s' ∧ Change s op s' :=
    fun t ht => ⟨s, h.stall (htbe.trans ht) (by tauto), .stall⟩
  cases hc with
  | idle he _ _ =>
    obtain ⟨next, hnext, htrans⟩ : ∃ next, (next = L1Cache.State.IS ∨ next = .IM) ∧
        L1Cache.transition .I event =
          some ([.vAllocateTBE, .iAllocateL1CacheBlock, .aIssueRequest], next) := by
      rcases hevent with rfl | rfl | rfl
      · exact ⟨.IS, .inl rfl, rfl⟩
      · exact ⟨.IS, .inl rfl, rfl⟩
      · exact ⟨.IM, .inr rfl, rfl⟩
    refine ⟨_, Line.trigger_miss htrans htbe (by simpa [hentry] using he), ?_⟩
    simpa [hv, hentry, hrq] using miss c hv he hnext
  | @modified e fw he _ _ =>
    have hload : ∀ event, L1Cache.transition .M event = some ([.rLoadHit], .M) →
        ∃ s', s.triggerCache c event i reqs = .ok s' ∧ Change s op s' := by
      intro event htrans
      refine ⟨_, Line.trigger_load htrans htbe hentry he, ?_⟩
      simpa [hv] using access c hv he (served_read e reqs)
    rcases hevent with rfl | rfl | rfl
    · exact hload .Load rfl
    · exact hload .Ifetch rfl
    · refine ⟨_, Line.trigger_store htbe hentry he, ?_⟩
      simpa [hv] using access c hv he (served_write e reqs)
  | _ => exact hwait _ rfl

theorem replacement_change (h : s.Inv) :
    ∃ s', s.triggerCache c .Replacement i reqs = .ok s' ∧ Change s op s' := by
  have hc := h.cache c
  generalize hv : s.view c = v at hc
  obtain ⟨hentry, htbe, hrq, -, -⟩ := Line.view_eq hv
  have hwait : ∀ t, v.tbe = some t →
      ∃ s', s.triggerCache c .Replacement i reqs = .ok s' ∧ Change s op s' :=
    fun t ht => ⟨s, h.stall (htbe.trans ht) (by tauto), .stall⟩
  cases hc with
  | idle he _ _ =>
    refine ⟨_, Line.trigger_replacement_I htbe (by simpa [hentry] using he), ?_⟩
    simpa [hv] using drop c hv he
  | modified he _ _ =>
    refine ⟨_, Line.trigger_evict rfl htbe hentry he, ?_⟩
    simpa [hv, hrq] using evict c hv he
  | _ => exact hwait _ rfl

theorem response_change (h : s.Inv) : ∃ s', s.takeResponse c i reqs = .ok s' ∧ Change s op s' := by
  have hc := h.cache c
  generalize hv : s.view c = v at hc
  obtain ⟨hentry, htbe, hrq, hfw, hrs⟩ := Line.view_eq hv
  have hempty : v.responses = [] → ∃ s', s.takeResponse c i reqs = .ok s' ∧ Change s op s' := by
    intro hnil
    exact ⟨s, by simp [Line.takeResponse, hrs, hnil], .stall⟩
  cases hc with
  | @waiting e t fw rs ht hchain hwb hlen =>
    rcases rs with _ | ⟨m, _ | ⟨_, _⟩⟩
    · exact hempty rfl
    · by_cases hi : i = 0
      · subst hi
        have htake : s.takeResponse c 0 reqs = s.triggerCache c .Data 0 reqs := by
          simp [Line.takeResponse, hrs]
        have hm : (s.responseToCache c)[0]? = some m := by simp [hrs]
        rw [htake]
        rcases ht with ht | ht
        · refine ⟨_, Line.trigger_data_load htbe ht hentry hm, ?_⟩
          simpa [hv, hrs] using fill c hv (served_read _ reqs)
        · refine ⟨_, Line.trigger_data_store htbe ht hentry hm, ?_⟩
          simpa [hv, hrs] using fill c hv (served_write _ reqs)
      · exact ⟨s, by simp [Line.takeResponse, hrs, hi], .stall⟩
    · simp at hlen
  | _ => exact hempty rfl

variable {fw : List (RequestMsg C)}

theorem takeForward_invalidate {rq : List (RequestMsg C)}
    (hv : s.view c = ⟨none, some t, rq, invalidate :: fw, []⟩) (ht : t.tbeState = .MI) :
    ∃ s', s.takeForward c = .ok s' ∧ Change s op s' := by
  obtain ⟨hentry, htbe, -, hfw, -⟩ := Line.view_eq hv
  have htake : s.takeForward c = s.triggerCache c .Inv 0 [] := by
    simp [Line.takeForward, hfw, invalidate, Line.forwardEvent]
  rw [htake]
  refine ⟨_, Line.trigger_inv_MI htbe ht hentry, ?_⟩
  simpa [hv, hfw] using Change.popInvalidate c hv ht

variable {r : C}

theorem Line.Inv.sendData_eq (h : s.Inv) (hr : getx r ∈ s.forwardToCache c)
    (hw : ¬ Waiting (s.view c)) (b : DataBlock) (v : View C) :
    r ≠ c ∧ (s.sendData r b).view c = s.view c ∧
      (s.sendData r b).setView c v =
        (s.setView c v).setView r { s.view r with responses := [⟨b⟩] } := by
  have hfeeds : Feeds s.dir s.view r (.cache c) := hr
  have hrc : r ≠ c := by
    rintro rfl
    exact hw (h.waiting r _ hfeeds)
  have hrs : (s.view r).responses = [] := by
    by_contra hne
    have hresp : Feeds s.dir s.view r .response := hne
    exact absurd (h.source r _ _ hresp hfeeds) (by simp)
  refine ⟨hrc, ?_, ?_⟩
  · simp [Line.sendData, Line.setResponses, Line.view, Ne.symm hrc]
  · rw [Line.sendData_eq_setView, hrs, Line.setView_comm _ hrc]
    rfl

theorem takeForward_getx_MI (h : s.Inv) {rq : List (RequestMsg C)}
    (hv : s.view c = ⟨none, some t, rq, getx r :: fw, []⟩) (ht : t.tbeState = .MI) :
    ∃ s', s.takeForward c = .ok s' ∧ Change s op s' := by
  obtain ⟨hentry, htbe, -, hfw, -⟩ := Line.view_eq hv
  have htake : s.takeForward c = s.triggerCache c .Fwd_GETX 0 [] := by
    simp [Line.takeForward, hfw, getx, Line.forwardEvent]
  obtain ⟨hrc, hview, hset⟩ := h.sendData_eq (r := r) (c := c) (by simp [hfw])
    (by simp [hv, Waiting, ht]) t.dataBlk ⟨none, some { t with tbeState := .II }, rq, fw, []⟩
  rw [htake]
  refine ⟨_, Line.trigger_forward_MI htbe ht hentry hfw, ?_⟩
  simpa [hview, hv, hset] using Change.passTbe c r hv ht hrc

variable {e : L1Cache.Entry}

theorem takeForward_getx_M (h : s.Inv) (hv : s.view c = ⟨some e, none, [], [getx r], []⟩)
    (he : e.cacheState = .M) : ∃ s', s.takeForward c = .ok s' ∧ Change s op s' := by
  obtain ⟨hentry, htbe, -, hfw, -⟩ := Line.view_eq hv
  have htake : s.takeForward c = s.triggerCache c .Fwd_GETX 0 [] := by
    simp [Line.takeForward, hfw, getx, Line.forwardEvent]
  obtain ⟨hrc, hview, hset⟩ := h.sendData_eq (r := r) (c := c) (by simp [hfw])
    (by simp [hv, Waiting]) e.dataBlk ⟨some (e.setState .I), none, [], [], []⟩
  rw [htake]
  refine ⟨_, Line.trigger_forward_M htbe hentry he hfw, ?_⟩
  simpa [hview, hv, hset] using Change.passEntry c r hv he hrc

theorem takeForward_done {m : RequestMsg C} (hv : s.view c = ⟨none, some t, [], [m], []⟩)
    (hm : t.tbeState = .MI ∧ m = wbAck c ∨ t.tbeState = .II ∧ m = wbNack c) :
    ∃ s', s.takeForward c = .ok s' ∧ Change s op s' := by
  obtain ⟨hentry, htbe, -, hfw, -⟩ := Line.view_eq hv
  have hdone : ∀ event, s.takeForward c = s.triggerCache c event 0 [] →
      L1Cache.transition t.tbeState event =
        some ([.wDeallocateTBE, .oPopForwardedRequestQueue], .I) →
      ∃ s', s.takeForward c = .ok s' ∧ Change s op s' := by
    intro event htake htrans
    rw [htake]
    refine ⟨_, Line.trigger_done htrans htbe hentry, ?_⟩
    simpa [hv, hfw] using done c hv (hm.imp And.right And.right)
  rcases hm with ⟨ht, rfl⟩ | ⟨ht, rfl⟩
  · refine hdone .Writeback_Ack ?_ (by rw [ht]; rfl)
    simp [Line.takeForward, hfw, wbAck, Line.forwardEvent]
  · refine hdone .Writeback_Nack ?_ (by rw [ht]; rfl)
    simp [Line.takeForward, hfw, wbNack, Line.forwardEvent]

theorem takeForward_waiting {m : RequestMsg C} {rs : List ResponseMsg}
    (hv : s.view c = ⟨some e, some t, [], m :: fw, rs⟩) (ht : t.tbeState = .IS ∨ t.tbeState = .IM)
    (hm : m.type = .INV ∨ m.type = .GETX) : ∃ s', s.takeForward c = .ok s' ∧ Change s op s' := by
  obtain ⟨-, htbe, -, hfw, -⟩ := Line.view_eq hv
  have hstall : ∀ event, event = L1Cache.Event.Inv ∨ event = .Fwd_GETX →
      s.triggerCache c event 0 [] = .ok s := by
    intro event hevent
    have htrans : L1Cache.transition (s.getCacheState c) event = some ([.zStall], t.tbeState) := by
      rw [Line.getCacheState_of_tbe htbe]
      rcases ht with ht | ht <;> rw [ht] <;> rcases hevent with rfl | rfl <;> rfl
    exact Line.trigger_stall htrans
  refine ⟨s, ?_, .stall⟩
  rcases hm with hm | hm
  · simp [Line.takeForward, hfw, hm, Line.forwardEvent, hstall .Inv (.inl rfl)]
  · simp [Line.takeForward, hfw, hm, Line.forwardEvent, hstall .Fwd_GETX (.inr rfl)]

theorem forward_change (h : s.Inv) : ∃ s', s.takeForward c = .ok s' ∧ Change s op s' := by
  have hc := h.cache c
  generalize hv : s.view c = v at hc
  obtain ⟨hentry, htbe, hrq, hfw, -⟩ := Line.view_eq hv
  have hempty : v.forwards = [] → ∃ s', s.takeForward c = .ok s' ∧ Change s op s' := by
    intro hnil
    exact ⟨s, by simp [Line.takeForward, hfw, hnil], .stall⟩
  cases hc with
  | waiting ht hchain =>
    rcases hchain with ⟨_, rfl | ⟨rfl, _⟩⟩ | ⟨_, r, rfl⟩
    · exact hempty rfl
    · exact takeForward_waiting hv ht (.inl rfl)
    · exact takeForward_waiting hv ht (.inr rfl)
  | modified he hchain =>
    rcases hchain with ⟨_, rfl | ⟨rfl, _⟩⟩ | ⟨_, r, rfl⟩
    · exact hempty rfl
    · have htake : s.takeForward c = s.triggerCache c .Inv 0 [] := by
        simp [Line.takeForward, hfw, invalidate, Line.forwardEvent]
      rw [htake]
      refine ⟨_, Line.trigger_evict rfl htbe hentry he, ?_⟩
      simpa [hv, hrq] using evict c hv he
    · exact takeForward_getx_M h hv he
  | evicting ht hchain =>
    rcases hchain with ⟨_, rfl | ⟨rfl, _⟩⟩ | ⟨_, r, rfl⟩
    · exact hempty rfl
    · exact takeForward_invalidate hv ht
    · exact takeForward_getx_MI h hv ht
  | writtenBack ht hchain =>
    rcases hchain with rfl | rfl
    · exact hempty rfl
    · exact takeForward_invalidate hv ht
  | acked ht hchain =>
    rcases hchain with rfl | rfl
    · exact takeForward_done hv (.inl ⟨ht, rfl⟩)
    · exact takeForward_invalidate hv ht
  | nacked ht => exact takeForward_getx_MI h hv ht
  | goneNacked ht => exact takeForward_done hv (.inr ⟨ht, rfl⟩)
  | _ => exact hempty rfl

/-! ### Steps of the directory -/

variable {p : Line.DirPart C D}

omit [DecidableEq C] [DecidableEq D] in
theorem Line.dir_eq (h : s.dir = p) :
    s.entry = p.entry ∧ s.tbe = p.tbe ∧ s.requestToMemory = p.toMemory ∧
      s.responseFromMemory = p.fromMemory := by
  subst h
  exact ⟨rfl, rfl, rfl, rfl⟩

/-- The states of a directory that waits for the memory and puts every request back. -/
def Directory.State.Recycles (state : Directory.State) : Prop :=
  state = .IM ∨ state = .MI ∨ state = .ID ∨ state = .ID_W

omit [DecidableEq C] [DecidableEq D] in
theorem DirPhase.busy {t : Directory.TBE D} (h : DirPhase p) (ht : p.tbe = some t) :
    p.entry.directoryState = t.tbeState ∧ (t.tbeState.Recycles ∨ t.tbeState.DmaBusy) := by
  have hsame : ∀ {t' : Directory.TBE D}, p.tbe = some t' → t' = t := by
    intro t' ht'
    exact Option.some.inj (ht'.symm.trans ht)
  cases h with
  | fetching o he ht' hst _ _ | writingBack c he ht' hst _ _ | dmaFetching d he ht' hst _ _
  | dmaWriting d he ht' hst _ _ =>
    obtain rfl := hsame ht'
    simp [he, hst, Directory.State.Recycles]
  | dmaRead o d hst _ | dmaWrite o d hst _ =>
    obtain rfl := hsame rfl
    simp [hst, Directory.State.DmaBusy]
  | dmaReadBack c he ht' hst _ | dmaWriteBack c d he ht' hst _ _ =>
    obtain rfl := hsame ht'
    simp [he, hst, Directory.State.DmaBusy]
  | _ => cases ht

omit [DecidableEq C] [DecidableEq D] in
theorem DirPhase.idle_or_busy (h : DirPhase p) :
    p = ⟨⟨.I, ∅, ∅⟩, none, [], []⟩ ∨ (∃ o, p = ⟨⟨.M, ∅, {o}⟩, none, [], []⟩) ∨
      ∃ t, p.tbe = some t := by
  cases h with
  | invalid => exact .inl rfl
  | modified o => exact .inr (.inl ⟨o, rfl⟩)
  | fetching _ _ ht | writingBack _ _ ht | dmaFetching _ _ ht | dmaWriting _ _ ht
  | dmaReadBack _ _ ht | dmaWriteBack _ _ _ ht => exact .inr (.inr ⟨_, ht⟩)
  | _ => exact .inr (.inr ⟨_, rfl⟩)

theorem Line.Inv.recycle (h : s.Inv) {t : Directory.TBE D} {event : Directory.Event}
    {msg : RequestMsg C} (ht : s.tbe = some t) (hrq : s.requestToDir c = [msg])
    (htrans : Directory.transition t.tbeState event = some ([.zRecycleRequestQueue], t.tbeState)) :
    s.triggerDir event (.request c) = .ok s := by
  obtain ⟨hstate, hbusy⟩ := h.dir.busy ht
  rw [Line.triggerDir_recycle htrans ht hstate, hrq]
  · have hsame : s.setRequests c (Line.recycle [msg]) = s.setRequests c (s.requestToDir c) := by
      rw [hrq]
      rfl
    rw [hrq] at hsame
    rw [hsame, ← hrq, Line.setRequests_eq_setView]
    exact congrArg _ (s.setView_self c)
  · rcases hbusy with (hst | hst | hst | hst) | (hst | hst | hst | hst) <;> simp [hst]

omit [DecidableEq C] in
theorem CachePhase.forwards_eq_nil {own wb blocked : Prop} {v : View C}
    (h : CachePhase c own wb blocked v) (hown : own) (hblocked : ¬ blocked) : v.forwards = [] := by
  have hchain : ∀ {fw : List (RequestMsg C)}, Chained own blocked fw → fw = [] := by
    intro fw hfw
    rcases hfw with ⟨_, rfl | ⟨_, hb⟩⟩ | ⟨ho, _⟩
    · rfl
    · exact absurd hb hblocked
    · exact absurd hown ho
  cases h with
  | waiting _ hfw | modified _ hfw | evicting _ hfw => exact hchain hfw
  | writtenBack _ _ ho | acked _ _ ho | nacked _ ho | goneNacked _ ho => exact absurd hown ho
  | _ => rfl

theorem takeRequest_getx (h : s.Inv) (hv : s.view c = ⟨some e, some t, [getx c], [], []⟩)
    (hown : c ∉ s.dir.entry.owner) :
    ∃ s', s.takeRequest c = .ok s' ∧ Change s op s' := by
  obtain ⟨-, -, hrq, -, -⟩ := Line.view_eq hv
  have htake : s.takeRequest c = s.triggerDir .GETX (.request c) := by
    simp [Line.takeRequest, hrq, getx, Line.requestEvent]
  rw [htake]
  rcases h.dir.idle_or_busy with hp | ⟨o, hp⟩ | ⟨t', ht'⟩
  · obtain ⟨hentry, htbe, hto, hfrom⟩ := Line.dir_eq hp
    refine ⟨_, Line.triggerDir_getx_I hrq htbe (by rw [hentry]), ?_⟩
    rw [Line.setRequests_eq_setView]
    simpa [hp, hentry, hto, hv] using fetch c hp hv
  · obtain ⟨hentry, htbe, hto, hfrom⟩ := Line.dir_eq hp
    have ho : (s.view o).forwards = [] :=
      (h.cache o).forwards_eq_nil (by simp [hp]) (by simp [hp, Blocked])
    have hne : o ≠ c := by
      rintro rfl
      simp [hp] at hown
    have ho' : s.forwardToCache o = [] := ho
    refine ⟨_, Line.triggerDir_getx_M hrq htbe (by rw [hentry]) (by rw [hentry]) (by rw [hentry]), ?_⟩
    rw [Line.setRequests_eq_setView, Line.setForwards_eq_setView]
    simpa [hp, hentry, ho', hv, Ne.symm hne] using Change.handOver c o hp hv ho hne
  · refine ⟨s, h.recycle ht' hrq ?_, .stall⟩
    rcases (h.dir.busy ht').2 with (hst | hst | hst | hst) | (hst | hst | hst | hst) <;>
      rw [hst] <;> rfl

theorem takeRequest_putx_owner (h : s.Inv) {block : DataBlock}
    (hv : s.view c = ⟨none, some t, [putx c block], fw, []⟩) (hown : c ∈ s.dir.entry.owner) :
    ∃ s', s.takeRequest c = .ok s' ∧ Change s op s' := by
  obtain ⟨-, -, hrq, -, -⟩ := Line.view_eq hv
  have howner : c ∈ s.entry.owner := hown
  have htake : s.takeRequest c = s.triggerDir .PUTX (.request c) := by
    simp [Line.takeRequest, hrq, putx, Line.requestEvent, howner]
  rw [htake]
  have hdir := h.dir
  generalize hp : s.dir = p at hdir
  rw [hp] at hown
  obtain ⟨hentry, htbe, hto, hfrom⟩ := Line.dir_eq hp
  cases hdir with
  | invalid => simp at hown
  | modified o =>
    obtain rfl : c = o := by simpa using hown
    have hfw : fw = [] := by
      have hnil := (h.cache c).forwards_eq_nil (by simp [hp]) (by simp [hp, Blocked])
      simpa [hv] using hnil
    subst hfw
    refine ⟨_, Line.triggerDir_putx_M hrq htbe (by rw [hentry]), ?_⟩
    rw [Line.setRequests_eq_setView]
    simpa [hp, hentry, hto, hv] using Change.writeBack c hp hv
  | fetching o he ht hst =>
    exact ⟨s, h.recycle (htbe.trans ht) hrq (by rw [hst]; rfl), .stall⟩
  | dmaRead o d hst hd =>
    obtain rfl : c = o := by simpa using hown
    have hserving : serving s.dir d = some .READ := by simp [serving, hp, hst, hd]
    have hrs : (s.dmaView d).responses = [] := (h.dma d).responses_eq_nil hserving
    refine ⟨_, Line.triggerDir_putx_M_DRD hrq htbe hst hd, ?_⟩
    rw [Line.setRequests_eq_setView, Line.sendDmaResponse_eq_setDmaView]
    simpa [hp, hentry, hto, hv, hrs] using Change.dmaReadBack c d hp hst hd hv hrs
  | dmaWrite o d hst hd =>
    obtain rfl : c = o := by simpa using hown
    refine ⟨_, Line.triggerDir_putx_M_DWR hrq htbe hst, ?_⟩
    rw [Line.setRequests_eq_setView]
    simpa [hp, hentry, hto, hv] using Change.dmaWriteBack c d hp hst hd hv
  | writingBack _ he | dmaFetching _ he | dmaWriting _ he | dmaReadBack _ he | dmaWriteBack _ _ he =>
    simp [he] at hown

theorem takeRequest_putx_notOwner (h : s.Inv) {block : DataBlock}
    (hv : s.view c = ⟨none, some t, [putx c block], fw, []⟩) (hown : c ∉ s.dir.entry.owner)
    (hfree : ¬ s.getDirState.DmaBusy) : ∃ s', s.takeRequest c = .ok s' ∧ Change s op s' := by
  obtain ⟨-, -, hrq, hfw, -⟩ := Line.view_eq hv
  have howner : c ∉ s.entry.owner := hown
  have htake : s.takeRequest c = s.triggerDir .PUTX_NotOwner (.request c) := by
    simp [Line.takeRequest, hrq, putx, Line.requestEvent, howner]
  rw [htake]
  have hnack : ∀ {o : Finset C} {state : Directory.State},
      (state = .M ∧ o.card = 1 ∨ state = .I ∧ o = ∅) → s.dir = ⟨⟨state, ∅, o⟩, none, [], []⟩ →
      ∃ s', s.triggerDir .PUTX_NotOwner (.request c) = .ok s' ∧ Change s op s' := by
    intro o state hstate hp
    obtain ⟨hentry, htbe, hto, hfrom⟩ := Line.dir_eq hp
    refine ⟨_, Line.triggerDir_putx_notOwner hrq htbe (by simpa [hentry] using hstate)
      (by rw [hentry]), ?_⟩
    rw [Line.setRequests_eq_setView, Line.setForwards_eq_setView]
    simpa [hv, hfw] using nack c hown hv
  rcases h.dir.idle_or_busy with hp | ⟨o, hp⟩ | ⟨t', ht'⟩
  · exact hnack (.inr ⟨rfl, rfl⟩) hp
  · exact hnack (.inl ⟨rfl, by simp⟩) hp
  · refine ⟨s, h.recycle ht' hrq ?_, .stall⟩
    have hstate : s.getDirState = t'.tbeState := by
      have htbe : s.tbe = some t' := ht'
      simp [Line.getDirState, htbe]
    rw [hstate] at hfree
    rcases (h.dir.busy ht').2.resolve_right hfree with hst | hst | hst | hst <;> rw [hst] <;> rfl

theorem request_change (h : s.Inv) (hh : s.Handled (.request c)) :
    ∃ s', s.takeRequest c = .ok s' ∧ Change s op s' := by
  have hc := h.cache c
  generalize hv : s.view c = v at hc
  obtain ⟨-, -, hrq, -, -⟩ := Line.view_eq hv
  have hempty : v.requests = [] → ∃ s', s.takeRequest c = .ok s' ∧ Change s op s' := by
    intro hnil
    exact ⟨s, by simp [Line.takeRequest, hrq, hnil], .stall⟩
  cases hc with
  | asked _ hown => exact takeRequest_getx h hv hown
  | evicting =>
    by_cases hown : c ∈ s.dir.entry.owner
    · exact takeRequest_putx_owner h hv hown
    · refine takeRequest_putx_notOwner h hv hown fun hbusy => hown ?_
      exact hh hbusy (putx c _) (by rw [hrq]; rfl) rfl
  | gone _ hown =>
    refine takeRequest_putx_notOwner h hv hown fun hbusy => hown ?_
    exact hh hbusy (putx c _) (by rw [hrq]; rfl) rfl
  | _ => exact hempty rfl

theorem request_error (h : s.Inv) (hh : ¬ s.Handled (.request c)) :
    ∃ e, s.takeRequest c = .error e := by
  simp only [Line.Handled, not_forall] at hh
  obtain ⟨hbusy, msg, hmsg, htype, hown⟩ := hh
  have hc := h.cache c
  generalize hv : s.view c = v at hc
  obtain ⟨-, -, hrq, -, -⟩ := Line.view_eq hv
  have hput : ∀ {block : DataBlock}, s.requestToDir c = [putx c block] →
      ∃ e, s.takeRequest c = .error e := by
    intro block hrq
    refine ⟨.panic "Invalid transition", ?_⟩
    have htake : s.takeRequest c = s.triggerDir .PUTX_NotOwner (.request c) := by
      simp [Line.takeRequest, hrq, putx, Line.requestEvent, hown]
    rw [htake, Line.triggerDir]
    rcases hbusy with hst | hst | hst | hst <;> rw [hst] <;> rfl
  rw [hrq] at hmsg
  cases hc with
  | evicting => exact hput hrq
  | gone => exact hput hrq
  | asked =>
    obtain rfl : getx c = msg := by simpa using hmsg
    simp [getx] at htype
  | _ => simp at hmsg

omit [DecidableEq C] [DecidableEq D] in
theorem InMemory.cases {type : MemoryRequestType} {sender : Requestor C D} {e : Directory.Entry C}
    {t : Option (Directory.TBE D)} (h : InMemory type sender p) (he : p.entry = e)
    (ht : p.tbe = t) :
    ∃ m : MemoryMsg C D, m.type = type ∧ m.sender = sender ∧
      (p = ⟨e, t, [m], []⟩ ∨ p = ⟨e, t, [], [m]⟩) := by
  obtain ⟨m, hq, htype, hsender⟩ := h
  refine ⟨m, htype, hsender, ?_⟩
  cases p
  subst he ht
  rcases hq with ⟨rfl, rfl⟩ | ⟨rfl, rfl⟩
  · exact .inl rfl
  · exact .inr rfl

/-- An answer of the memory. -/
theorem memoryResponse_change (h : s.Inv) :
    ∃ s', s.takeMemory = .ok s' ∧ Change s .memoryResponse s' := by
  have hempty : s.responseFromMemory = [] →
      ∃ s', s.takeMemory = .ok s' ∧ Change s .memoryResponse s' := by
    intro hnil
    exact ⟨s, by simp [Line.takeMemory, hnil], .stall⟩
  have hread : ∀ {m : MemoryMsg C D}, s.responseFromMemory = [m] → m.type = .MEMORY_READ →
      s.takeMemory = s.triggerDir .Memory_Data .memory := by
    intro m hf hm
    simp [Line.takeMemory, hf, hm, Line.memoryEvent]
  have hwrite : ∀ {m : MemoryMsg C D}, s.responseFromMemory = [m] → m.type = .MEMORY_WB →
      s.takeMemory = s.triggerDir .Memory_Ack .memory := by
    intro m hf hm
    simp [Line.takeMemory, hf, hm, Line.memoryEvent]
  -- the write-back of a cache, for itself or for a DMA read
  have hack : ∀ {c : C} {state : Directory.State} {t : Directory.TBE D} {m : MemoryMsg C D},
      s.dir = ⟨⟨state, ∅, ∅⟩, some t, [], [m]⟩ → (state = .MI ∨ state = .M_DRDI) →
      t.tbeState = state → m.type = .MEMORY_WB → m.sender = .cache c →
      ∃ s', s.takeMemory = .ok s' ∧ Change s .memoryResponse s' := by
    intro c state t m hp hstate ht hm hsender
    obtain ⟨hentry, htbe, hto, hfrom⟩ := Line.dir_eq hp
    rw [hwrite hfrom hm]
    refine ⟨_, Line.triggerDir_ack hfrom hsender htbe (by rwa [ht]) (by rw [hentry])
      (by rw [hentry]), ?_⟩
    have hfw : s.forwardToCache c = (s.view c).forwards := rfl
    rw [Line.setForwards_eq_setView, hfw]
    simpa [hp, hentry, hto] using ack c hp hstate ht hm hsender
  have hdir := h.dir
  generalize hp : s.dir = p at hdir
  cases hdir with
  | fetching c he ht hst hd hm =>
    obtain ⟨m, htype, hsender, rfl | rfl⟩ := hm.cases he ht
    · exact hempty (Line.dir_eq hp).2.2.2
    · obtain ⟨hentry, htbe, hto, hfrom⟩ := Line.dir_eq hp
      have hrs : (s.view c).responses = [] := by
        by_contra hne
        have hmem : Feeds s.dir s.view c .memory := by simp [Feeds, hp, htype, hsender]
        exact absurd (h.source c .response .memory hne hmem) (by simp)
      rw [hread hfrom htype]
      refine ⟨_, Line.triggerDir_data_IM hfrom hsender htbe hst (by simp [hentry])
        (by rw [hentry]), ?_⟩
      rw [Line.sendData_eq_setView]
      simpa [hp, hentry, hto, hrs] using data c hp hd htype hsender hrs
  | writingBack c he ht hst hd hm =>
    obtain ⟨m, htype, hsender, rfl | rfl⟩ := hm.cases he ht
    · exact hempty (Line.dir_eq hp).2.2.2
    · exact hack hp (.inl rfl) hst htype hsender
  | dmaReadBack c he ht hst hm =>
    obtain ⟨m, htype, hsender, rfl | rfl⟩ := hm.cases he ht
    · exact hempty (Line.dir_eq hp).2.2.2
    · exact hack hp (.inr rfl) hst htype hsender
  | dmaFetching d he ht hst hd hm =>
    obtain ⟨m, htype, hsender, rfl | rfl⟩ := hm.cases he ht
    · exact hempty (Line.dir_eq hp).2.2.2
    · obtain ⟨hentry, htbe, hto, hfrom⟩ := Line.dir_eq hp
      have hserving : serving s.dir d = some .READ := by simp [serving, hp, hst, hd]
      have hrs : (s.dmaView d).responses = [] := (h.dma d).responses_eq_nil hserving
      rw [hread hfrom htype]
      refine ⟨_, Line.triggerDir_data_ID hfrom htbe hst hd (by rw [hentry]) (by rw [hentry]), ?_⟩
      rw [Line.sendDmaResponse_eq_setDmaView]
      simpa [hp, hentry, hto, hrs] using
        dmaAnswer d hp (.inl ⟨rfl, rfl⟩) hst hd hsender rfl hrs
  | dmaWriting d he ht hst hd hm =>
    obtain ⟨m, htype, hsender, rfl | rfl⟩ := hm.cases he ht
    · exact hempty (Line.dir_eq hp).2.2.2
    · obtain ⟨hentry, htbe, hto, hfrom⟩ := Line.dir_eq hp
      have hserving : serving s.dir d = some .WRITE := by simp [serving, hp, hst, hd]
      have hrs : (s.dmaView d).responses = [] := (h.dma d).responses_eq_nil hserving
      rw [hwrite hfrom htype]
      refine ⟨_, Line.triggerDir_ack_ID_W hfrom htbe hst hd (by rw [hentry]) (by rw [hentry]), ?_⟩
      rw [Line.sendDmaResponse_eq_setDmaView]
      simpa [hp, hentry, hto, hrs] using
        dmaAnswer d hp (.inr ⟨rfl, rfl⟩) hst hd hsender rfl hrs
  | dmaWriteBack c d he ht hst hd hm =>
    obtain ⟨m, htype, hsender, rfl | rfl⟩ := hm.cases he ht
    · exact hempty (Line.dir_eq hp).2.2.2
    · obtain ⟨hentry, htbe, hto, hfrom⟩ := Line.dir_eq hp
      have hserving : serving s.dir d = some .WRITE := by simp [serving, hp, hst, hd]
      have hrs : (s.dmaView d).responses = [] := (h.dma d).responses_eq_nil hserving
      rw [hwrite hfrom htype]
      refine ⟨_, Line.triggerDir_ack_M_DWRI hfrom hsender htbe hst hd (by rw [hentry])
        (by rw [hentry]), ?_⟩
      have hfw : s.forwardToCache c = (s.view c).forwards := rfl
      rw [Line.sendDmaResponse_eq_setDmaView, Line.setForwards_eq_setView, hfw]
      simpa [hp, hentry, hto, hrs] using Change.dmaAck c d hp hst hd htype hsender rfl hrs
  | _ => exact hempty (Line.dir_eq hp).2.2.2

omit [DecidableEq C] [DecidableEq D] in
theorem DirPhase.memory (h : DirPhase p) :
    p.toMemory = [] ∨ ∃ m, p.toMemory = [m] ∧ p.fromMemory = [] := by
  have hmem : ∀ {type : MemoryRequestType} {sender : Requestor C D}, InMemory type sender p →
      p.toMemory = [] ∨ ∃ m, p.toMemory = [m] ∧ p.fromMemory = [] := by
    rintro type sender ⟨m, hq | hq, -, -⟩
    · exact .inr ⟨m, hq⟩
    · exact .inl hq.1
  cases h with
  | fetching _ _ _ _ _ hm | writingBack _ _ _ _ _ hm | dmaFetching _ _ _ _ _ hm
  | dmaWriting _ _ _ _ _ hm | dmaReadBack _ _ _ _ hm | dmaWriteBack _ _ _ _ _ _ hm => exact hmem hm
  | _ => exact .inl rfl

theorem memory_change (h : s.Inv) : Change s .memory s.serveMemory := by
  rcases h.dir.memory with hto | ⟨m, hto, hfrom⟩
  · have hto' : s.requestToMemory = [] := hto
    have hsame : s.serveMemory = s := by simp [Line.serveMemory, hto']
    rw [hsame]
    exact .stall
  · exact .serve hto hfrom

/-! ### Steps of the DMA controllers -/

variable {d : D}

theorem takeDmaRequest_idle {t : DMA.TBE} {m : DMARequestMsg}
    (hv : s.dmaView d = ⟨some t, [m], []⟩) (hp : s.dir = ⟨⟨.I, ∅, ∅⟩, none, [], []⟩) :
    ∃ s', s.takeDmaRequest d = .ok s' ∧ Change s op s' := by
  obtain ⟨-, hrq, -⟩ := Line.dmaView_eq hv
  obtain ⟨hentry, htbe, hto, hfrom⟩ := Line.dir_eq hp
  have htake : s.takeDmaRequest d = s.triggerDir (Line.dmaEvent m.type) (.dma d) := by
    simp [Line.takeDmaRequest, hrq]
  rw [htake]
  cases htype : m.type with
  | READ =>
    refine ⟨_, Line.triggerDir_dma_I_read hrq htbe (by rw [hentry]), ?_⟩
    rw [Line.setDmaRequests_eq_setDmaView]
    simpa [hp, hentry, hto, hv] using
      Change.dmaRead d hp hv htype
  | WRITE =>
    refine ⟨_, Line.triggerDir_dma_I_write hrq htbe (by rw [hentry]), ?_⟩
    rw [Line.setDmaRequests_eq_setDmaView]
    simpa [hp, hentry, hto, hv] using
      Change.dmaWrite d hp hv htype

theorem takeDmaRequest_owned (h : s.Inv) {t : DMA.TBE} {m : DMARequestMsg} {o : C}
    (hv : s.dmaView d = ⟨some t, [m], []⟩) (hp : s.dir = ⟨⟨.M, ∅, {o}⟩, none, [], []⟩) :
    ∃ s', s.takeDmaRequest d = .ok s' ∧ Change s op s' := by
  obtain ⟨-, hrq, -⟩ := Line.dmaView_eq hv
  obtain ⟨hentry, htbe, hto, hfrom⟩ := Line.dir_eq hp
  have ho : (s.view o).forwards = [] :=
    (h.cache o).forwards_eq_nil (by simp [hp]) (by simp [hp, Blocked])
  have ho' : s.forwardToCache o = [] := ho
  have htake : s.takeDmaRequest d = s.triggerDir (Line.dmaEvent m.type) (.dma d) := by
    simp [Line.takeDmaRequest, hrq]
  have howned : ∀ {event : Directory.Event} {next : Directory.State},
      Directory.transition .M event =
        some ([.vAllocateTBE, .invSendCacheInvalidate, .pPopIncomingDMARequestQueue], next) →
      (m.type = .READ ∧ next = .M_DRD ∨ m.type = .WRITE ∧ next = .M_DWR) →
      ∃ s', s.triggerDir event (.dma d) = .ok s' ∧ Change s op s' := by
    intro event next htrans hnext
    refine ⟨_, Line.triggerDir_dma_M htrans ?_ hrq htbe (by rw [hentry]) (by rw [hentry]), ?_⟩
    · rcases hnext with ⟨_, rfl⟩ | ⟨_, rfl⟩ <;> simp
    · rw [Line.setDmaRequests_eq_setDmaView, Line.setForwards_eq_setView]
      simpa [hp, hentry, hto, hv, ho'] using Change.dmaInvalidate o d hp hv hnext ho
  rw [htake]
  cases htype : m.type with
  | READ => exact howned rfl (.inl ⟨htype, rfl⟩)
  | WRITE => exact howned rfl (.inr ⟨htype, rfl⟩)

theorem dmaRequest_change (h : s.Inv) (hh : s.Handled (.dmaRequest d)) :
    ∃ s', s.takeDmaRequest d = .ok s' ∧ Change s op s' := by
  have hd := h.dma d
  generalize hv : s.dmaView d = v at hd
  obtain ⟨-, hrq, -⟩ := Line.dmaView_eq hv
  have hempty : v.requests = [] → ∃ s', s.takeDmaRequest d = .ok s' ∧ Change s op s' := by
    intro hnil
    exact ⟨s, by simp [Line.takeDmaRequest, hrq, hnil], .stall⟩
  cases hd with
  | @asked t m ht hs =>
    rcases h.dir.idle_or_busy with hp | ⟨o, hp⟩ | ⟨t', ht'⟩
    · exact takeDmaRequest_idle hv hp
    · exact takeDmaRequest_owned h hv hp
    · have htbe : s.tbe = some t' := ht'
      obtain ⟨hstate, hbusy⟩ := h.dir.busy ht'
      have hget : s.getDirState = t'.tbeState := by simp [Line.getDirState, htbe]
      have hrecycles : t'.tbeState.Recycles := by
        refine hbusy.resolve_right fun hb => ?_
        have hnil := hh (by rwa [hget])
        simp [hrq] at hnil
      have htrans : Directory.transition t'.tbeState (Line.dmaEvent m.type) =
          some ([.yRecycleDMARequestQueue], t'.tbeState) := by
        rcases hrecycles with hst | hst | hst | hst <;> rw [hst] <;> cases m.type <;> rfl
      refine ⟨s, ?_, .stall⟩
      have htake : s.takeDmaRequest d = s.triggerDir (Line.dmaEvent m.type) (.dma d) := by
        simp [Line.takeDmaRequest, hrq]
      rw [htake, Line.triggerDir_dma_recycle htrans htbe hstate]
      · have hsame : Line.recycle (s.dmaRequestToDir d) = (s.dmaView d).requests := by
          rw [hrq, hv]
          rfl
        rw [Line.setDmaRequests_eq_setDmaView, hsame]
        exact congrArg _ (s.setDmaView_self d)
      · rcases hrecycles with hst | hst | hst | hst <;> simp [hst]
  | _ => exact hempty rfl

theorem dmaMandatory_change (h : s.Inv) {msg : SequencerMsg} :
    ∃ s', s.triggerDma d (Line.dmaMandatoryEvent msg.type) (some msg) = .ok s' ∧
      Change s (.dmaMandatory d msg) s' := by
  have hd := h.dma d
  generalize hv : s.dmaView d = v at hd
  obtain ⟨htbe, hrq, hrs⟩ := Line.dmaView_eq hv
  have hwait : ∀ {t : DMA.TBE} {type' : DMARequestType}, v.tbe = some t →
      t.tbeState = busy type' →
      ∃ s', s.triggerDma d (Line.dmaMandatoryEvent msg.type) (some msg) = .ok s' ∧
      Change s (.dmaMandatory d msg) s' := by
    intro t type' ht hbusy
    refine ⟨s, Line.triggerDma_stall (htbe.trans ht) ?_, .stall⟩
    rw [hbusy]
    cases type' <;> simp [busy]
  cases hd with
  | ready hs =>
    refine ⟨_, Line.triggerDma_ready htbe, ?_⟩
    have hstate : (if msg.type = .LD then DMA.State.BUSY_RD else .BUSY_WR) = busy msg.type.dma := by
      cases msg.type <;> rfl
    rw [Line.setDmaRequests_eq_setDmaView, Line.setDmaTbe_eq_setDmaView, hrq, hstate]
    simpa [hv] using Change.dmaAsk d msg hv
  | asked ht _ | served ht _ | answered ht _ _ => exact hwait rfl ht

theorem dmaResponse_change (h : s.Inv) : ∃ s', s.takeDmaResponse d = .ok s' ∧ Change s op s' := by
  have hd := h.dma d
  generalize hv : s.dmaView d = v at hd
  obtain ⟨htbe, hrq, hrs⟩ := Line.dmaView_eq hv
  have hempty : v.responses = [] → ∃ s', s.takeDmaResponse d = .ok s' ∧ Change s op s' := by
    intro hnil
    exact ⟨s, by simp [Line.takeDmaResponse, hrs, hnil], .stall⟩
  cases hd with
  | @answered t m type ht hm hs =>
    cases type with
    | READ =>
      have htake : s.takeDmaResponse d = s.triggerDma d .Data none := by
        simp [Line.takeDmaResponse, hrs, hm, answer]
      rw [htake]
      refine ⟨_, Line.triggerDma_data htbe ht hrs, ?_⟩
      rw [Line.setDmaResponses_eq_setDmaView, Line.setDmaTbe_eq_setDmaView]
      simpa [hv] using dmaDone d hv
    | WRITE =>
      have htake : s.takeDmaResponse d = s.triggerDma d .Ack none := by
        simp [Line.takeDmaResponse, hrs, hm, answer]
      rw [htake]
      refine ⟨_, Line.triggerDma_ack htbe ht, ?_⟩
      rw [Line.setDmaResponses_eq_setDmaView, Line.setDmaTbe_eq_setDmaView]
      simpa [hv, hrs] using dmaDone d hv
  | _ => exact hempty rfl

theorem dmaRequest_error (hh : ¬ s.Handled (.dmaRequest d)) :
    ∃ e, s.takeDmaRequest d = .error e := by
  simp only [Line.Handled, not_forall] at hh
  obtain ⟨hbusy, hne⟩ := hh
  obtain ⟨msg, rest, hrq⟩ := List.exists_cons_of_ne_nil hne
  refine ⟨.panic "Invalid transition", ?_⟩
  have htake : s.takeDmaRequest d = s.triggerDir (Line.dmaEvent msg.type) (.dma d) := by
    simp [Line.takeDmaRequest, hrq]
  rw [htake, Line.triggerDir]
  rcases hbusy with hst | hst | hst | hst <;> rw [hst] <;> cases msg.type <;> rfl

/-! ### Steps -/

omit [DecidableEq C] [DecidableEq D] in
theorem mandatoryEvent_of_offered {type : RubyRequestType}
    (h : (Op.mandatory c type reqs : Op C D).Offered) :
    ∃ event, mandatoryRequestTypeToEvent type = .ok event ∧
      (event = .Load ∨ event = .Ifetch ∨ event = .Store) := by
  rcases h with rfl | rfl | rfl | rfl
  · exact ⟨.Load, rfl, by simp⟩
  · exact ⟨.Ifetch, rfl, by simp⟩
  · exact ⟨.Store, rfl, by simp⟩
  · exact ⟨.Store, rfl, by simp⟩

variable {op : Op C D}

theorem next_change (h : s.Inv) (ho : op.Offered) (hh : s.Handled op) :
    ∃ s', s.next op = .ok s' ∧ Change s op s' := by
  cases op with
  | mandatory c type reqs =>
    obtain ⟨event, hevent, hkind⟩ := mandatoryEvent_of_offered ho
    simp only [Line.next, hevent, Sim.ok_bind]
    exact mandatory_change h hkind
  | replacement c => exact replacement_change h
  | forward c => exact forward_change h
  | response c i reqs => exact response_change h
  | request c => exact request_change h hh
  | memoryResponse => exact memoryResponse_change h
  | memory => exact ⟨s.serveMemory, rfl, memory_change h⟩
  | dmaMandatory d msg => exact dmaMandatory_change h
  | dmaRequest d => exact dmaRequest_change h hh
  | dmaResponse d => exact dmaResponse_change h

theorem offered_of_next {s' : Line C D} (h : s.next op = .ok s') : op.Offered := by
  cases op with
  | mandatory c type reqs =>
    cases type with
    | LD => exact .inl rfl
    | IFETCH => exact .inr (.inl rfl)
    | ST => exact .inr (.inr (.inl rfl))
    | ATOMIC => exact .inr (.inr (.inr rfl))
    | _ => cases h
  | _ => trivial

theorem next_error (h : s.Inv) (hh : ¬ s.Handled op) : ∃ e, s.next op = .error e := by
  cases op with
  | request c => exact request_error h hh
  | dmaRequest d => exact dmaRequest_error hh
  | _ => exact absurd trivial hh

end

/-! ### Runs -/

def Sound (lines : ℕ → Line C D) : Prop := ∀ a, (lines a).Inv

omit [DecidableEq C] in
theorem sound_start (memory : ℕ → DataBlock) : Sound (start memory : ℕ → Line C D) := by
  intro a
  change MiExample.Inv ⟨⟨.I, ∅, ∅⟩, none, [], []⟩ (fun _ => ⟨none, none, [], [], []⟩)
    (fun _ => ⟨none, [], []⟩)
  have hfeeds : ∀ r x, ¬ Feeds (D := D) ⟨⟨.I, ∅, ∅⟩, none, [], []⟩
      (fun _ : C => ⟨none, none, [], [], []⟩) r x := by
    rintro r (_ | _ | _) <;> simp [Feeds]
  refine ⟨.invalid, ?_, ?_, ?_, ?_, ?_⟩
  · intro c
    exact .idle (by simp) (by simp) not_inMemory
  · intro r x hx
    exact absurd hx (hfeeds r x)
  · intro r x _ hx
    exact absurd hx (hfeeds r x)
  · rintro (_ | x) (_ | y) hx hy
    · rfl
    all_goals simp [Holds, HasBlock] at hx hy
  · intro d
    exact .ready rfl

variable {o : ℕ × Op C D} {lines : ℕ → Line C D}

theorem step_change (h : Sound lines) (ho : o.2.Offered) (hh : (lines o.1).Handled o.2) :
    ∃ line, step lines o = .ok ((), Function.update lines o.1 line) ∧ Change (lines o.1) o.2 line := by
  obtain ⟨line, hline, hchange⟩ := next_change (h o.1) ho hh
  exact ⟨line, by simp [step, hline], hchange⟩

theorem Sound.update {line : Line C D} (h : Sound lines) {a : ℕ} (hc : Change (lines a) op line) :
    Sound (Function.update lines a line) := by
  intro b
  by_cases hb : b = a
  · subst hb
    simpa using hc.inv (h b)
  · simpa [hb] using h b

theorem step_eq_ok {lines' : ℕ → Line C D} (h : Sound lines) {u : Unit}
    (hstep : step lines o = .ok (u, lines')) :
    (o.2.Offered ∧ (lines o.1).Handled o.2) ∧
      ∃ line, lines' = Function.update lines o.1 line ∧ Change (lines o.1) o.2 line := by
  have hnext : ∃ line, (lines o.1).next o.2 = .ok line := by
    obtain ⟨line, hline, -⟩ := Sim.bind_eq_ok.1 hstep
    exact ⟨line, hline⟩
  obtain ⟨line, hline⟩ := hnext
  have ho : o.2.Offered := offered_of_next hline
  have hh : (lines o.1).Handled o.2 := by
    by_contra hh
    obtain ⟨e, he⟩ := next_error (h o.1) hh
    simp [he] at hline
  obtain ⟨line', hstep', hchange⟩ := step_change h ho hh
  rw [hstep'] at hstep
  cases hstep
  exact ⟨⟨ho, hh⟩, line', rfl, hchange⟩

theorem step_lines {P : Line C D → Prop}
    (hkeep : ∀ {s s' : Line C D} {op : Op C D}, Change s op s' → s.Inv → P s → P s')
    {lines' : ℕ → Line C D} {u : Unit} (h : ∀ a, (lines a).Inv ∧ P (lines a))
    (hstep : step lines o = .ok (u, lines')) : ∀ a, (lines' a).Inv ∧ P (lines' a) := by
  obtain ⟨-, line, rfl, hc⟩ := step_eq_ok (fun a => (h a).1) hstep
  intro a
  by_cases ha : a = o.1
  · subst ha
    rw [Function.update_self]
    exact ⟨hc.inv (h o.1).1, hkeep hc (h o.1).1 (h o.1).2⟩
  · simpa [ha] using h a

theorem run_lines {P : Line C D → Prop}
    (hkeep : ∀ {s s' : Line C D} {op : Op C D}, Change s op s' → s.Inv → P s → P s')
    {memory : ℕ → DataBlock} (hstart : ∀ a, P (start memory a)) {ops : List (ℕ × Op C D)}
    {us : List Unit} (hrun : Run.run step (start memory) ops = .ok (us, lines)) :
    ∀ a, (lines a).Inv ∧ P (lines a) :=
  Run.run_inv (P := fun _ _ => True) (fun _ _ _ _ h _ hstep => step_lines hkeep h hstep)
    (fun a => ⟨sound_start memory a, hstart a⟩) (Run.along_true _ ops) hrun

/-- A run goes on until a sequencer offers a request of another kind or the directory takes one that
it has no transition for. -/
theorem run_ok_iff_handled (memory : ℕ → DataBlock) (ops : List (ℕ × Op C D)) :
    (∃ lines, Run.run step (start memory) ops = .ok lines) ↔
      Run.Along step (fun lines o => o.2.Offered ∧ (lines o.1).Handled o.2) (start memory) ops := by
  constructor
  · rintro ⟨⟨us, lines⟩, hrun⟩
    refine (Run.along_congr_of_run (P := fun _ _ => True) (I := Sound) ?_ (sound_start memory)
      hrun).1 (Run.along_true _ ops)
    intro lines o u lines' h hstep
    obtain ⟨hok, line, rfl, hchange⟩ := step_eq_ok h hstep
    exact ⟨iff_of_true trivial hok, fun _ => h.update hchange⟩
  · intro halong
    obtain ⟨us, lines, hrun, -⟩ := Run.run_total (I := Sound)
      (fun lines o h hok => by
        obtain ⟨line, hstep, hchange⟩ := step_change h hok.1 hok.2
        exact ⟨(), _, hstep, h.update hchange⟩)
      ops (sound_start memory) halong
    exact ⟨(us, lines), hrun⟩

/-- Two DMA controllers ask for a line that a cache owns; and a DMA controller asks for one while a
write-back of the previous owner is on its way. -/
theorem dma_request_unhandled :
    Run.run step (start fun _ _ => 0)
      ([.mandatory () .ST [], .request (), .memory, .memoryResponse, .response () 0 [],
        .dmaMandatory false ⟨0, .LD, fun _ => 0, 8⟩, .dmaMandatory true ⟨0, .LD, fun _ => 0, 8⟩,
        .dmaRequest false, .dmaRequest true].map fun op => (0, op)) =
      .error (.panic "Invalid transition") ∧
    Run.run step (start fun _ _ => 0)
      ([.mandatory false .ST [], .request false, .memory, .memoryResponse, .response false 0 [],
        .mandatory true .ST [], .request true, .replacement false, .forward false,
        .response true 0 [], .dmaMandatory () ⟨0, .LD, fun _ => 0, 8⟩, .dmaRequest (),
        .request false].map fun op => (0, op)) =
      .error (.panic "Invalid transition") := by
  constructor
  · rfl
  · rfl

end Gem5Nvm.MiExample
