import Gem5Nvm.Sequencer

/-!
# The sequencer serves each request once, in order

A line with requests has exactly one of them with the controller, the first. A callback serves
requests from the front of the list; a packet that arrives meanwhile finds the list not empty and
is put behind the others, so that the loop serves it or issues it. The log of what was accepted and
served then carries the order, and the block the controller holds is what the log says it is.
-/

namespace Gem5Nvm.Ruby

open Sequencer (enqueue inFlightTo insertRequest issueRequest makeRequest markRemoved requestTypes
  setRequests)
open List (append_nil cons_append filter_append filter_cons length length_append length_cons
  mem_cons_of_mem mem_cons_self nil_append)
open Function (update update_self)

/-! ### Packets and data -/

variable {pkt : Packet}

theorem writeData_of_whole (h : pkt.Whole) (p : List UInt8) : pkt.writeData p = pkt.data := by
  unfold Packet.Whole at h
  simp [Packet.writeData, h]

theorem requestTypes_cases {x : RubyRequestType × RubyRequestType} (h : requestTypes pkt = .ok x) :
    x = (.Store_Conditional, .ST) ∧ pkt.isLLSC = true ∨
      x ∈ [(.Load_Linked, .LD), (.Locked_RMW_Write, .ST), (.Locked_RMW_Read, .ST), (.ST, .ST),
        (.IFETCH, .IFETCH), (.RMW_Read, .ST), (.LD, .LD), (.FLUSH, .FLUSH)] := by
  unfold requestTypes at h
  cases hl : pkt.isLLSC <;> cases hr : pkt.isLockedRMW <;> cases hw : pkt.isWrite <;>
    cases hd : pkt.isRead <;> cases hi : pkt.isInstFetch <;> cases hc : pkt.storeCheck <;>
    cases hf : pkt.isFlush <;> simp [hl, hr, hw, hd, hi, hc, hf, assert] at h <;> simp [← h]

variable {type second : RubyRequestType}

theorem requestTypes_isLoad (h : requestTypes pkt = .ok (type, second)) :
    type.isLoad = second.isLoad := by
  rcases requestTypes_cases h with ⟨h, -⟩ | h
  · cases h
    rfl
  · revert h
    cases type <;> cases second <;> decide

theorem requestTypes_ok {B : ℕ} (h : pkt.Regular B) :
    ∃ type second, requestTypes pkt = .ok (type, second) := by
  unfold requestTypes
  rcases h.access with hr | hw
  · simp only [hr, assert]
    split_ifs <;> exact ⟨_, _, rfl⟩
  · simp only [hw]
    split_ifs <;> exact ⟨_, _, rfl⟩

/-- A request as it stands in the table. -/
structure Typed (B line : ℕ) (r : SequencerRequest) : Prop where
  line : r.pkt.line = line
  types : requestTypes r.pkt = .ok (r.type, r.secondType)
  regular : r.pkt.Regular B
  whole : r.pkt.Whole

section

variable {B line : ℕ} {r : SequencerRequest} {version : ℤ} {l : LineData} {success : Bool}

theorem Typed.checkBounds (hr : Typed B line r) : Core.checkBounds B r = .ok () := by
  simp [Core.checkBounds, hr.regular.bounds]

theorem hit_apply (hr : Typed B line r) :
    (hit version l r success).1.data = (hit version l r success).2.apply l.data := by
  have hwrite := writeData_of_whole hr.whole
  have hsc : r.pkt.isSwap = true → r.type ≠ .Store_Conditional := by
    intro hswap htype
    have hllsc := hr.regular.swap hswap
    rcases requestTypes_cases hr.types with ⟨-, h⟩ | h
    · simp [h] at hllsc
    · simp [htype] at h
  simp only [hit, hitData, hr.regular.notFlush, Hit.apply]
  by_cases hf : r.type.fetches = true
  · simp [hf]
  · by_cases hs : r.pkt.isSwap = true
    · simp [hf, hs, hsc hs, hwrite]
    · by_cases ht : r.type = .Store_Conditional ∧ success = false
      · simp [hs, ht.1, ht.2, RubyRequestType.fetches]
      · have hdone : r.type ≠ .Store_Conditional ∨ success = true := by
          by_contra hnot
          push Not at hnot
          exact ht ⟨hnot.1, by simpa using hnot.2⟩
        simp [hf, hs, ht, hdone, hwrite]

theorem hit_data (hr : Typed B line r) (hread : r.type.fetches = true ∨ r.pkt.isSwap = true) :
    (hit version l r success).2.data = l.data.getData r.pkt.offset r.pkt.getSize := by
  simp only [hit, hitData, hr.regular.notFlush]
  rcases hread with hf | hs
  · simp [hf]
  · by_cases hf : r.type.fetches = true <;> simp [hf, hs]

end

/-! ### The log -/

section

variable {line : ℕ} {log events : List SequencerEvent} {data : DataBlock}

@[simp] theorem accepted_append : accepted (log ++ events) = accepted log ++ accepted events :=
  List.filterMap_append

@[simp] theorem completed_append : completed (log ++ events) = completed log ++ completed events :=
  List.filterMap_append

@[simp] theorem acceptedTo_append :
    acceptedTo line (log ++ events) = acceptedTo line log ++ acceptedTo line events := by
  simp [acceptedTo]

@[simp] theorem completedTo_append :
    completedTo line (log ++ events) = completedTo line log ++ completedTo line events := by
  simp [completedTo]

theorem accepted_cons_completed (h : Hit) : accepted (.completed h :: events) = accepted events :=
  rfl

theorem accepted_changed (l : LineData) : accepted [.changed line l] = [] := rfl

theorem completed_changed (l : LineData) : completed [.changed line l] = [] := rfl

theorem contents_append :
    contents data line (log ++ events) = contents (contents data line log) line events :=
  List.foldl_append

def Arrivals (events : List SequencerEvent) : Prop := ∀ e ∈ events, ∃ pkt, e = .accepted pkt

theorem Arrivals.completed (h : Arrivals events) : completed events = [] := by
  unfold Ruby.completed
  rw [List.filterMap_eq_nil_iff]
  intro e he
  obtain ⟨pkt, rfl⟩ := h e he
  rfl

theorem Arrivals.contents (h : Arrivals events) : contents data line events = data := by
  induction events generalizing data with
  | nil => rfl
  | cons e events ih =>
    obtain ⟨pkt, rfl⟩ := h e mem_cons_self
    exact ih fun e he => h e (mem_cons_of_mem _ he)

theorem Arrivals.append {events' : List SequencerEvent} (h : Arrivals events)
    (h' : Arrivals events') : Arrivals (events ++ events') := by
  intro e he
  rcases List.mem_append.1 he with he | he
  · exact h e he
  · exact h' e he

variable {start : ℕ → DataBlock}

theorem Lawful.other (hlog : Lawful start log) (he : ∀ e ∈ events, ∀ h, e ≠ .completed h) :
    Lawful start (log ++ events) := by
  intro pre h' post heq hread
  rcases List.append_eq_append_iff.1 heq with ⟨mid, hpre, hpost⟩ | ⟨mid, hlog', hpost⟩
  · have hmem : SequencerEvent.completed h' ∈ events := by
      rw [hpost]
      exact List.mem_append_right _ mem_cons_self
    exact absurd rfl (he _ hmem h')
  · cases mid with
    | nil =>
      have hmem : SequencerEvent.completed h' ∈ events := by
        rw [nil_append] at hpost
        rw [← hpost]
        exact mem_cons_self
      exact absurd rfl (he _ hmem h')
    | cons e mid =>
      rw [cons_append, List.cons.injEq] at hpost
      obtain ⟨rfl, -⟩ := hpost
      exact hlog pre h' mid hlog' hread

theorem Lawful.served {h : Hit} (hlog : Lawful start log)
    (hh : h.request.type.fetches = true ∨ h.request.pkt.isSwap = true → h.data = (contents (start
      h.request.pkt.line) h.request.pkt.line log).getData h.request.pkt.offset
      h.request.pkt.getSize) (he : Arrivals events) :
    Lawful start (log ++ .completed h :: events) := by
  have hone : Lawful start (log ++ [.completed h]) := by
    intro pre h' post heq hread
    rcases List.eq_nil_or_concat post with rfl | ⟨post, e, rfl⟩
    · obtain ⟨rfl, hhit⟩ := List.append_inj' heq rfl
      cases hhit
      exact hh hread
    · have hcut : log ++ [.completed h] = pre ++ .completed h' :: post ++ [e] := by simpa using heq
      exact hlog pre h' post (List.append_inj' hcut rfl).1 hread
  have hlast := hone.other fun e he' h' hc => by
    obtain ⟨pkt, hpkt⟩ := he e he'
    rw [hpkt] at hc
    cases hc
  simpa using hlast

end

/-! ### Arrivals -/

/-- What arriving packets do: they are put behind the requests of their lines, and the first request
of a line is issued. -/
structure Grown (B : ℕ) (events : List SequencerEvent) (s s' : Core) : Prop where
  arrivals : Arrivals events
  lines : s'.lines = s.lines
  version : s'.seq.version = s.seq.version
  table : ∀ line, ∃ new, s'.seq.requestTable line = s.seq.requestTable line ++ new ∧
    new.map SequencerRequest.pkt = acceptedTo line events ∧ ∀ r ∈ new, Typed B line r
  flight : ∀ line, s'.seq.inFlightTo line = if s.seq.requestTable line = [] then
    s.seq.inFlightTo line ++ (s'.seq.requestTable line).head?.toList.map SequencerRequest.secondType
    else s.seq.inFlightTo line
  count : s'.seq.outstandingCount = s.seq.outstandingCount + (accepted events).length

section

variable {B : ℕ} {s s' s'' : Core} {events events' : List SequencerEvent}

theorem Grown.refl_nil (s : Core) : Grown B [] s s where
  arrivals := by simp [Arrivals]
  lines := rfl
  version := rfl
  table line := ⟨[], by simp [acceptedTo, accepted]⟩
  flight line := by
    split_ifs with h
    · simp [h]
    · rfl
  count := by simp [accepted]

theorem Grown.trans (h : Grown B events s s') (h' : Grown B events' s' s'') :
    Grown B (events ++ events') s s'' where
  arrivals := h.arrivals.append h'.arrivals
  lines := h'.lines.trans h.lines
  version := h'.version.trans h.version
  table line := by
    obtain ⟨new, htable, hnew, htyped⟩ := h.table line
    obtain ⟨new', htable', hnew', htyped'⟩ := h'.table line
    refine ⟨new ++ new', by rw [htable', htable, List.append_assoc], by simp [hnew, hnew'], ?_⟩
    intro r hr
    rcases List.mem_append.1 hr with hr | hr
    · exact htyped r hr
    · exact htyped' r hr
  flight line := by
    obtain ⟨new, htable, -⟩ := h.table line
    obtain ⟨new', htable', -⟩ := h'.table line
    rw [h'.flight line, h.flight line]
    by_cases he : s.seq.requestTable line = []
    · -- the first request of the line came with the first packets or with the others
      rw [if_pos he, if_pos he]
      rw [he, nil_append] at htable
      by_cases hn : new = []
      · simp [htable, hn]
      · rw [if_neg (by rw [htable]; exact hn), htable', htable, List.head?_append_of_ne_nil _ hn]
    · have he' : s'.seq.requestTable line ≠ [] := by simp [htable, he]
      rw [if_neg he', if_neg he, if_neg he]
  count := by
    rw [h'.count, h.count, accepted_append, length_append]
    push_cast
    ring

theorem inFlightTo_enqueue (seq : Sequencer) (pkt : Packet) (second : RubyRequestType) (line : ℕ) :
    (seq.enqueue pkt second).inFlightTo line =
      seq.inFlightTo line ++ if pkt.line = line then [second] else [] := by
  by_cases h : pkt.line = line <;>
    simp [inFlightTo, enqueue, filter_append, h]

theorem issueRequest_of_whole (h : pkt.Whole) (seq : Sequencer) (second : RubyRequestType) :
    seq.issueRequest pkt second = .ok (seq.enqueue pkt second) := by
  unfold Packet.Whole at h
  simp [issueRequest, assert, h]

variable {pkt : Packet}

theorem makeRequest_accept {seq : Sequencer} (hwhole : pkt.Whole)
    (hfull : ¬ seq.outstandingCount ≥ seq.maxOutstandingRequests)
    (htypes : requestTypes pkt = .ok (type, second))
    (hblocked : ¬ (pkt.line ∈ seq.blockMap ∧ type ≠ .Locked_RMW_Write)) :
    seq.makeRequest pkt = .ok (.Issued,
      if seq.requestTable pkt.line = [] then
        (seq.insertRequest pkt type second).2.enqueue pkt second
      else (seq.insertRequest pkt type second).2) := by
  unfold makeRequest
  rw [if_neg hfull, htypes]
  cases hq : seq.requestTable pkt.line with
  | _ => simp [hblocked, insertRequest, issueRequest_of_whole hwhole, hq]

theorem insertRequest_grown (htyped : Typed B pkt.line ⟨pkt, type, second⟩) :
    Grown B [.accepted pkt] s
      { s with seq :=
        if s.seq.requestTable pkt.line = [] then
          (s.seq.insertRequest pkt type second).2.enqueue pkt second
        else (s.seq.insertRequest pkt type second).2 } := by
  have hev : ∀ line, acceptedTo line [.accepted pkt] = if pkt.line = line then [pkt] else [] := by
    intro line
    by_cases h : pkt.line = line <;> simp [acceptedTo, accepted, SequencerEvent.packet?, h]
  have htable : ∀ line, (s.seq.insertRequest pkt type second).2.requestTable line =
      s.seq.requestTable line ++ if pkt.line = line then [⟨pkt, type, second⟩] else [] := by
    intro line
    by_cases h : pkt.line = line
    · subst h
      simp [insertRequest, setRequests]
    · simp [insertRequest, setRequests, h, Ne.symm h]
  have hnew : ∀ line, ∃ new,
      (s.seq.insertRequest pkt type second).2.requestTable line = s.seq.requestTable line ++ new ∧
      new.map SequencerRequest.pkt = acceptedTo line [.accepted pkt] ∧
      ∀ r ∈ new, Typed B line r := by
    intro line
    refine ⟨_, htable line, ?_, ?_⟩
    · rw [hev]
      split_ifs <;> rfl
    · split_ifs with h
      · subst h
        simpa using htyped
      · simp
  have hflight : ∀ line, (s.seq.insertRequest pkt type second).2.inFlightTo line =
      s.seq.inFlightTo line := fun _ => rfl
  refine ⟨by simp [Arrivals], rfl, ?_, ?_, ?_, ?_⟩
  · split_ifs <;> rfl
  · intro line
    split_ifs <;> exact hnew line
  · intro line
    by_cases hq : s.seq.requestTable pkt.line = []
    · simp only [if_pos hq, inFlightTo_enqueue, hflight]
      rw [show ((s.seq.insertRequest pkt type second).2.enqueue pkt second).requestTable =
        (s.seq.insertRequest pkt type second).2.requestTable from rfl, htable]
      by_cases h : pkt.line = line
      · subst h
        simp [hq]
      · by_cases he : s.seq.requestTable line = [] <;> simp [h, he]
    · simp only [if_neg hq, hflight, htable]
      by_cases h : pkt.line = line
      · subst h
        simp [hq]
      · by_cases he : s.seq.requestTable line = [] <;> simp [h, he]
  · split_ifs <;> simp [insertRequest, enqueue, accepted,
      SequencerEvent.packet?]

theorem request_grown (hreg : pkt.Regular B) (hwhole : pkt.Whole) :
    ∃ events s', s.request pkt = .ok (events, s') ∧ Grown B events s s' ∧ events.length ≤ 1 := by
  obtain ⟨type, second, htypes⟩ := requestTypes_ok hreg
  unfold Core.request
  by_cases hfull : s.seq.outstandingCount ≥ s.seq.maxOutstandingRequests
  · exact ⟨[], s, by simp [makeRequest, hfull], Grown.refl_nil s, by simp⟩
  by_cases hblocked : pkt.line ∈ s.seq.blockMap ∧ type ≠ .Locked_RMW_Write
  · refine ⟨[], s, ?_, Grown.refl_nil s, by simp⟩
    simp [makeRequest, hfull, htypes, hblocked]
  rw [makeRequest_accept hwhole hfull htypes hblocked]
  exact ⟨_, _, rfl, insertRequest_grown ⟨rfl, htypes, hreg, hwhole⟩, by simp⟩

theorem retry_grown {pkts : List Packet} (hreg : ∀ pkt ∈ pkts, pkt.Regular B ∧ pkt.Whole) :
    ∃ events s', s.retry pkts = .ok (events, s') ∧ Grown B events s s' ∧
      events.length ≤ pkts.length := by
  induction pkts generalizing s with
  | nil => exact ⟨[], s, rfl, Grown.refl_nil s, by simp⟩
  | cons pkt pkts ih =>
    obtain ⟨hpkt, hwhole⟩ := hreg pkt mem_cons_self
    obtain ⟨events, s₁, hreq, hgrown, hlen⟩ := request_grown (s := s) hpkt hwhole
    obtain ⟨events', s₂, hretry, hgrown', hlen'⟩ :=
      ih (s := s₁) fun p hp => hreg p (mem_cons_of_mem _ hp)
    refine ⟨events ++ events', s₂, by simp [Core.retry, hreq, hretry], hgrown.trans hgrown', ?_⟩
    simp only [length_append, length_cons]
    omega

end

/-! ### The invariant -/

/-- The log, the table and the requests with the controller agree. While a callback runs, its line is
the `hole`: none of its requests is with the controller. -/
structure Good (start : ℕ → DataBlock) (B : ℕ) (hole : Option ℕ) (log : List SequencerEvent)
    (s : Core) : Prop where
  order : ∀ line, acceptedTo line log = (completedTo line log).map (fun h => h.request.pkt) ++
    (s.seq.requestTable line).map SequencerRequest.pkt
  typed : ∀ line, ∀ r ∈ s.seq.requestTable line, Typed B line r
  flight : ∀ line, s.seq.inFlightTo line = if hole = some line then []
    else (s.seq.requestTable line).head?.toList.map SequencerRequest.secondType
  count : s.seq.outstandingCount + (completed log).length = (accepted log).length
  data : ∀ line, (s.lines line).data = contents (start line) line log
  law : Lawful start log

section

variable {start : ℕ → DataBlock} {B line : ℕ} {hole : Option ℕ} {log events : List SequencerEvent}
  {s s' : Core} {r : SequencerRequest} {rest : List SequencerRequest}

theorem Grown.head? (h : Grown B events s s') (hne : s.seq.requestTable line ≠ []) :
    (s'.seq.requestTable line).head? = (s.seq.requestTable line).head? := by
  obtain ⟨new, htable, -⟩ := h.table line
  rw [htable, List.head?_append_of_ne_nil _ hne]

theorem Good.grown (h : Good start B none log s) (hg : Grown B events s s') :
    Good start B none (log ++ events) s' where
  order x := by
    obtain ⟨new, htable, hnew, -⟩ := hg.table x
    have hnone : completedTo x events = [] := by simp [completedTo, hg.arrivals.completed]
    rw [acceptedTo_append, completedTo_append, hnone, h.order x, htable, ← hnew]
    simp
  typed x r hr := by
    obtain ⟨new, htable, -, htyped⟩ := hg.table x
    rw [htable] at hr
    rcases List.mem_append.1 hr with hr | hr
    · exact h.typed x r hr
    · exact htyped r hr
  flight x := by
    rw [hg.flight x, h.flight x]
    by_cases he : s.seq.requestTable x = []
    · simp [he]
    · simp [he, hg.head? he]
  count := by
    have := h.count
    rw [hg.count, completed_append, hg.arrivals.completed, accepted_append]
    simp only [append_nil, length_append]
    push_cast
    linarith
  data x := by rw [hg.lines, h.data x, contents_append, hg.arrivals.contents]
  law := by
    refine h.law.other fun e he hit heq => ?_
    obtain ⟨pkt, hpkt⟩ := hg.arrivals e he
    rw [hpkt] at heq
    cases heq

/-- A way to serve a request that serves it as it should. -/
structure Serves (serve : ℤ → LineData → SequencerRequest → LineData × Hit)
    (r : SequencerRequest) : Prop where
  request : ∀ v l, (serve v l r).2.request = r
  apply : ∀ v l, (serve v l r).1.data = (serve v l r).2.apply l.data
  data : ∀ v l, r.type.fetches = true ∨ r.pkt.isSwap = true →
    (serve v l r).2.data = l.data.getData r.pkt.offset r.pkt.getSize

theorem Typed.serveRead (hr : Typed B line r) : Serves serveRead r where
  request _ _ := rfl
  apply _ _ := hit_apply hr
  data _ _ := hit_data hr

theorem Typed.serveWrite (hr : Typed B line r) : Serves serveWrite r where
  request v l := by
    unfold Ruby.serveWrite
    split_ifs <;> rfl
  apply v l := by
    unfold Ruby.serveWrite
    split_ifs
    · exact hit_apply hr
    · exact hit_apply (l := { l with monitor := (checkMonitor v l.monitor r.type).2 }) hr
  data v l hread := by
    unfold Ruby.serveWrite
    split_ifs
    · exact hit_data hr hread
    · exact hit_data (l := { l with monitor := (checkMonitor v l.monitor r.type).2 }) hr hread

/-- The state in which the retries of a `hitCallback` arrive. -/
def Core.served (s : Core) (line : ℕ) (l : LineData) : Core :=
  { s with seq := s.seq.markRemoved }.setLine line l

/-- After the request at the front was served, packets have arrived and it is taken from the list. -/
theorem Good.served {l : LineData} {h : Hit} (hgood : Good start B (some line) log s)
    (hq : s.seq.requestTable line = r :: rest) (hreq : h.request = r)
    (hdata : l.data = h.apply (s.lines line).data)
    (hread : r.type.fetches = true ∨ r.pkt.isSwap = true →
      h.data = (s.lines line).data.getData r.pkt.offset r.pkt.getSize)
    (hg : Grown B events (s.served line l) s') :
    Good start B (some line) (log ++ .completed h :: events)
      { s' with seq := s'.seq.setRequests line (s'.seq.requestTable line).tail } := by
  have hrline : r.pkt.line = line := (hgood.typed line r (by simp [hq])).line
  have htail : ∀ x, x ≠ line → update s'.seq.requestTable line
      (s'.seq.requestTable line).tail x = s'.seq.requestTable x := fun x hx => by simp [hx]
  have hcomp : ∀ x, completedTo x (.completed h :: events) = if line = x then [h] else [] := by
    intro x
    have hnone := hg.arrivals.completed
    unfold completed at hnone
    by_cases hx : line = x <;>
      simp [completedTo, completed, SequencerEvent.hit?, hnone, hreq, hrline, hx]
  have hacc : ∀ x, acceptedTo x (.completed h :: events) = acceptedTo x events := by
    intro x
    rw [acceptedTo, accepted_cons_completed, acceptedTo]
  refine ⟨?_, ?_, ?_, ?_, ?_, ?_⟩
  · intro x
    obtain ⟨new, htable, hnew, -⟩ := hg.table x
    rw [acceptedTo_append, completedTo_append, hcomp, hacc, hgood.order x, ← hnew]
    by_cases hx : x = line
    · subst hx
      simp only [Core.served, Core.setLine, markRemoved, hq] at htable
      simp [setRequests, htable, hq, hreq]
    · simp only [Core.served, Core.setLine, markRemoved] at htable
      simp [setRequests, htail x hx, htable, Ne.symm hx]
  · intro x q hqx
    obtain ⟨new, htable, -, htyped⟩ := hg.table x
    have hmem : q ∈ s'.seq.requestTable x := by
      by_cases hx : x = line
      · subst hx
        simp only [setRequests, update_self] at hqx
        exact List.mem_of_mem_tail hqx
      · simpa [setRequests, hx] using hqx
    rw [htable] at hmem
    rcases List.mem_append.1 hmem with hmem | hmem
    · exact hgood.typed x q hmem
    · exact htyped q hmem
  · intro x
    have hflight := hg.flight x
    have hold := hgood.flight x
    change s'.seq.inFlightTo x = if s.seq.requestTable x = [] then
      s.seq.inFlightTo x ++ (s'.seq.requestTable x).head?.toList.map SequencerRequest.secondType
      else s.seq.inFlightTo x at hflight
    change s'.seq.inFlightTo x = if some line = some x then [] else
      ((update s'.seq.requestTable line (s'.seq.requestTable line).tail) x).head?.toList.map
        SequencerRequest.secondType
    by_cases hx : x = line
    · subst hx
      rw [hflight, hold]
      simp [hq]
    · rw [hflight, hold, htail x hx]
      by_cases he : s.seq.requestTable x = []
      · simp [he, Ne.symm hx]
      · have hhead : (s'.seq.requestTable x).head? = (s.seq.requestTable x).head? := hg.head? he
        simp [he, Ne.symm hx, hhead]
  · have hcount := hgood.count
    have hgrown := hg.count
    change s'.seq.outstandingCount = s.seq.outstandingCount - 1 + (accepted events).length at hgrown
    change s'.seq.outstandingCount + (completed (log ++ .completed h :: events)).length =
      ((accepted (log ++ .completed h :: events)).length : ℤ)
    have hc : completed (.completed h :: events) = [h] := by
      have hnone := hg.arrivals.completed
      unfold completed at hnone
      simp [completed, SequencerEvent.hit?, hnone]
    rw [completed_append, accepted_append, hc, accepted_cons_completed, hgrown]
    simp only [length_append, List.length_singleton]
    push_cast
    linarith
  · intro x
    have hlines : (s'.lines x) = update s.lines line l x := by rw [hg.lines]; rfl
    change (s'.lines x).data = _
    rw [hlines, contents_append]
    simp only [contents, List.foldl_cons]
    rw [show List.foldl (contentsStep x) = fun d e => contents d x e from rfl]
    simp only [hg.arrivals.contents, contentsStep, hreq, hrline]
    by_cases hx : x = line
    · subst hx
      simp only [update_self, if_true]
      rw [hdata, hgood.data x, contents]
    · rw [Function.update_of_ne hx, if_neg (Ne.symm hx), hgood.data x, contents]
  · refine hgood.law.served ?_ hg.arrivals
    rw [hreq, hrline, ← hgood.data line]
    exact hread

/-! ### Callbacks -/

/-- Within a callback: the log so far, and which request comes first if none was served yet. -/
structure Draining (start : ℕ → DataBlock) (B line : ℕ) (log : List SequencerEvent) (load : Bool)
    (d : Core.Drain) : Prop where
  good : Good start B (if d.reissued then none else some line) (log ++ d.events) d.core
  retries : ∀ pkts ∈ d.retries, ∀ pkt ∈ pkts, pkt.Regular B ∧ pkt.Whole
  first : d.rubyRequest = true → ∀ r ∈ (d.core.seq.requestTable line).head?, r.type.isLoad = load

variable {d : Core.Drain} {load : Bool}

variable {serve : ℤ → LineData → SequencerRequest → LineData × Hit}

theorem complete_eq (hr : Typed B line r)
    (hretry : (d.core.served line (serve d.core.seq.version (d.core.lines line) r).1).retry
      (d.retries.headD []) = .ok (events, s')) :
    d.complete B line r serve = .ok { d with
      core := { s' with seq := s'.seq.setRequests line (s'.seq.requestTable line).tail }
      retries := d.retries.tail
      rubyRequest := false
      events := d.events ++
        .completed (serve d.core.seq.version (d.core.lines line) r).2 :: events } := by
  unfold Core.Drain.complete
  rw [hr.checkBounds, Sim.ok_bind]
  exact Sim.bind_eq_ok.2 ⟨_, hretry, rfl⟩

theorem complete_draining (hd : Draining start B line log load d) (hre : d.reissued = false)
    (hq : d.core.seq.requestTable line = r :: rest) (hs : Serves serve r) :
    ∃ d', d.complete B line r serve = .ok d' ∧ Draining start B line log load d' ∧
      d'.reissued = false ∧ d'.rounds line < d.rounds line := by
  have hgood := hd.good
  rw [hre] at hgood
  have htyped : Typed B line r := hgood.typed line r (by simp [hq])
  have hheads : ∀ pkt ∈ d.retries.headD [], pkt.Regular B ∧ pkt.Whole := by
    cases hr : d.retries with
    | nil => simp
    | cons pkts rest => exact hd.retries pkts (by simp [hr])
  obtain ⟨events, s', hretry, hgrown, hlen⟩ := retry_grown
    (s := d.core.served line (serve d.core.seq.version (d.core.lines line) r).1) hheads
  refine ⟨_, complete_eq htyped hretry, ⟨?_, ?_, by simp⟩, hre, ?_⟩
  · simp only [hre, Bool.false_eq_true, if_false, ← List.append_assoc]
    exact hgood.served hq (hs.request _ _) (hs.apply _ _) (hs.data _ _) hgrown
  · intro pkts hpkts
    exact hd.retries pkts (List.mem_of_mem_tail hpkts)
  · -- the request is gone, and the packets that came were among the retries
    obtain ⟨new, htable, hnew, -⟩ := hgrown.table line
    have htable' : s'.seq.requestTable line = (r :: rest) ++ new := by
      rw [htable]
      change d.core.seq.requestTable line ++ new = _
      rw [hq]
    have hnewlen : new.length ≤ (d.retries.headD []).length := by
      calc new.length = (acceptedTo line events).length := by rw [← hnew, List.length_map]
        _ ≤ (accepted events).length := List.length_filter_le _ _
        _ ≤ events.length := List.length_filterMap_le _ _
        _ ≤ _ := hlen
    have hsum : (d.retries.map length).sum =
        (d.retries.headD []).length + (d.retries.tail.map length).sum := by
      cases d.retries <;> simp
    simp only [Core.Drain.rounds, setRequests, update_self, htable', hq, hsum,
      cons_append, List.tail_cons, length_append, length_cons]
    omega

theorem Good.setBlockMap {blockMap : Finset ℕ} (h : Good start B hole log s) :
    Good start B hole log { s with seq := { s.seq with blockMap } } :=
  ⟨h.order, h.typed, h.flight, h.count, h.data, h.law⟩

theorem writeRound_draining (hd : Draining start B line log false d) (hre : d.reissued = false)
    (hne : d.core.seq.requestTable line ≠ []) :
    ∃ d', d.writeRound B line = .ok d' ∧ Draining start B line log false d' ∧
      d'.reissued = false ∧ d'.rounds line < d.rounds line := by
  cases hq : d.core.seq.requestTable line with
  | nil => exact absurd hq hne
  | cons r rest =>
    have htyped : Typed B line r := hd.good.typed line r (by simp [hq])
    have hassert : (!d.rubyRequest || !r.type.isLoad) = true := by
      cases hb : d.rubyRequest with
      | false => rfl
      | true => simp [hd.first hb r (by simp [hq])]
    have hd' : ∀ blockMap : Finset ℕ, Draining start B line log false
        { d with core := { d.core with seq := { d.core.seq with blockMap } } } :=
      fun blockMap => ⟨hd.good.setBlockMap, hd.retries, hd.first⟩
    unfold Core.Drain.writeRound
    rw [hq]
    simp only [assert, hassert, if_true, Sim.ok_bind]
    exact complete_draining (hd' _) hre hq htyped.serveWrite

theorem readRound_draining (hd : Draining start B line log true d) (hre : d.reissued = false)
    (hne : d.core.seq.requestTable line ≠ []) :
    ∃ d', d.readRound B line = .ok d' ∧ Draining start B line log true d' ∧
      (d'.reissued = true ∨ d'.reissued = false ∧ d'.rounds line < d.rounds line) := by
  cases hq : d.core.seq.requestTable line with
  | nil => exact absurd hq hne
  | cons r rest =>
    have htyped : Typed B line r := hd.good.typed line r (by simp [hq])
    have hassert : (!d.rubyRequest || r.type.isLoad) = true := by
      cases hb : d.rubyRequest with
      | false => rfl
      | true => simp [hd.first hb r (by simp [hq])]
    unfold Core.Drain.readRound
    rw [hq]
    simp only [assert, hassert, if_true, Sim.ok_bind]
    cases hload : r.type.isLoad with
    | true =>
      obtain ⟨d', heq, hdrain, hre', hlt⟩ := complete_draining hd hre hq htyped.serveRead
      exact ⟨d', by simpa using heq, hdrain, .inr ⟨hre', hlt⟩⟩
    | false =>
      rw [issueRequest_of_whole htyped.whole]
      refine ⟨_, rfl, ⟨?_, hd.retries, ?_⟩, .inl rfl⟩
      · have hgood := hd.good
        rw [hre] at hgood
        refine ⟨hgood.order, hgood.typed, ?_, hgood.count, hgood.data, hgood.law⟩
        intro x
        change (d.core.seq.enqueue r.pkt r.secondType).inFlightTo x =
          if none = some x then []
          else (d.core.seq.requestTable x).head?.toList.map SequencerRequest.secondType
        rw [inFlightTo_enqueue, hgood.flight x, htyped.line]
        by_cases hx : line = x
        · subst hx
          simp [hq]
        · simp [hx]
      · intro hruby r' hr'
        rw [hruby] at hassert
        rw [hload] at hassert
        cases hassert

theorem Good.callback_start {i : ℕ} {type : RubyRequestType} (h : Good start B none log s)
    (hi : s.seq.inFlight[i]? = some (line, type)) :
    Good start B (some line) log
      { s with seq := { s.seq with inFlight := s.seq.inFlight.eraseIdx i } } ∧
    ∃ r rest, s.seq.requestTable line = r :: rest ∧ r.secondType = type := by
  obtain ⟨hlt, hget⟩ := List.getElem?_eq_some_iff.1 hi
  have hsplit : s.seq.inFlight =
      s.seq.inFlight.take i ++ (line, type) :: s.seq.inFlight.drop (i + 1) := by
    rw [← hget, List.getElem_cons_drop, List.take_append_drop]
  have herase : s.seq.inFlight.eraseIdx i = s.seq.inFlight.take i ++ s.seq.inFlight.drop (i + 1) :=
    List.eraseIdx_eq_take_drop_succ _ _
  -- the line has one request with the controller, this one
  have hone := h.flight line
  rw [if_neg (by simp), inFlightTo, hsplit] at hone
  obtain ⟨r, rest, hq⟩ : ∃ r rest, s.seq.requestTable line = r :: rest := by
    cases hq : s.seq.requestTable line with
    | nil => simp [hq] at hone
    | cons r rest => exact ⟨r, rest, rfl⟩
  have hlen := congrArg length hone
  simp only [filter_append, filter_cons, decide_true, if_true, List.map_append,
    List.map_cons, length_append, length_cons, hq, List.head?_cons, Option.toList_some,
    List.length_map, List.map_nil, List.length_nil] at hlen
  have hpre : (s.seq.inFlight.take i).filter (fun x => decide (x.1 = line)) = [] :=
    List.length_eq_zero_iff.1 (by omega)
  have hpost : (s.seq.inFlight.drop (i + 1)).filter (fun x => decide (x.1 = line)) = [] :=
    List.length_eq_zero_iff.1 (by omega)
  refine ⟨⟨h.order, h.typed, ?_, h.count, h.data, h.law⟩, r, rest, hq, ?_⟩
  · intro x
    change ((s.seq.inFlight.eraseIdx i).filter fun y => decide (y.1 = x)).map Prod.snd =
      if some line = some x then []
      else (s.seq.requestTable x).head?.toList.map SequencerRequest.secondType
    rw [herase, filter_append]
    by_cases hx : line = x
    · subst hx
      simp [hpre, hpost]
    · have hold := h.flight x
      rw [inFlightTo, hsplit, filter_append, filter_cons,
        if_neg (by simpa using hx), if_neg (by simp)] at hold
      rw [hold, if_neg (by simpa using hx)]
  · rw [filter_append, filter_cons, if_pos (by simp), hpre, hpost, hq] at hone
    simpa using hone.symm

theorem Draining.finish (h : Draining start B line log load d) (hend : d.continues line = false) :
    Good start B none (log ++ d.events) d.core := by
  have hgood := h.good
  cases hre : d.reissued with
  | true => simpa [hre] using hgood
  | false =>
    have hempty : d.core.seq.requestTable line = [] := by
      simpa [Core.Drain.continues, hre] using hend
    rw [hre] at hgood
    refine ⟨hgood.order, hgood.typed, ?_, hgood.count, hgood.data, hgood.law⟩
    intro x
    rw [hgood.flight x]
    by_cases hx : line = x
    · subst hx
      simp [hempty]
    · simp [hx]

variable {retries : List (List Packet)}

theorem writeCallback_good (hd : Draining start B line log false { core := s, retries })
    (hne : s.seq.requestTable line ≠ []) :
    ∃ events s', s.writeCallback B line retries = .ok (events, s') ∧
      Good start B none (log ++ events) s' := by
  have hloop : ∃ d', Loop.whileLoop .diverges (Core.Drain.continues line)
      (Core.Drain.writeRound B line)
      (Core.Drain.rounds line { core := s, retries } + 1) { core := s, retries } = .ok d' ∧
      (Draining start B line log false d' ∧ d'.reissued = false) ∧ d'.continues line = false := by
    refine Loop.whileLoop_total (V := Core.Drain.rounds line) ?_ _ ⟨hd, rfl⟩ (by omega)
    rintro d ⟨hd, hre⟩ hc
    have hq : d.core.seq.requestTable line ≠ [] := by
      simpa [Core.Drain.continues, hre] using hc
    obtain ⟨d', hround, hd', hre', hlt⟩ := writeRound_draining hd hre hq
    exact ⟨d', hround, ⟨hd', hre'⟩, hlt⟩
  obtain ⟨d, hloop, ⟨hd, -⟩, hend⟩ := hloop
  refine ⟨d.events, d.core, ?_, hd.finish hend⟩
  simp [Core.writeCallback, assert, hne, hloop]

theorem readCallback_good (hd : Draining start B line log true { core := s, retries })
    (hne : s.seq.requestTable line ≠ []) :
    ∃ events s', s.readCallback B line retries = .ok (events, s') ∧
      Good start B none (log ++ events) s' := by
  have hloop : ∃ d', Loop.whileLoop .diverges (Core.Drain.continues line)
      (Core.Drain.readRound B line)
      (Core.Drain.rounds line { core := s, retries } + 1) { core := s, retries } = .ok d' ∧
      Draining start B line log true d' ∧ d'.continues line = false := by
    refine Loop.whileLoop_total (V := fun d => if d.reissued then 0 else d.rounds line) ?_ _ hd
      (by simp)
    intro d hd hc
    have hre : d.reissued = false := by
      simp only [Core.Drain.continues, Bool.and_eq_true, Bool.not_eq_true'] at hc
      exact hc.2
    have hq : d.core.seq.requestTable line ≠ [] := by
      simpa [Core.Drain.continues, hre] using hc
    have hpos : 0 < d.rounds line := by
      have := List.length_pos_iff.2 hq
      unfold Core.Drain.rounds
      omega
    obtain ⟨d', hround, hd', hre' | ⟨hre', hlt⟩⟩ := readRound_draining hd hre hq
    · exact ⟨d', hround, hd', by simpa [hre, hre'] using hpos⟩
    · exact ⟨d', hround, hd', by simpa [hre, hre'] using hlt⟩
  obtain ⟨d, hloop, hd, hend⟩ := hloop
  refine ⟨d.events, d.core, ?_, hd.finish hend⟩
  simp [Core.readCallback, assert, hne, hloop]

theorem answer_good {i : ℕ} (h : Good start B none log s)
    (hretries : ∀ pkts ∈ retries, ∀ pkt ∈ pkts, pkt.Regular B ∧ pkt.Whole) :
    ∃ events s', s.answer B i retries = .ok (events, s') ∧
      Good start B none (log ++ events) s' := by
  unfold Core.answer
  cases hi : s.seq.inFlight[i]? with
  | none => exact ⟨[], s, rfl, by simpa using h⟩
  | some x =>
    obtain ⟨line, type⟩ := x
    obtain ⟨hgood, r, rest, hq, rfl⟩ := h.callback_start hi
    have hkind : r.type.isLoad = r.secondType.isLoad :=
      requestTypes_isLoad (h.typed line r (by simp [hq])).types
    have hstart : Draining start B line log r.secondType.isLoad
        { core := { s with seq := { s.seq with inFlight := s.seq.inFlight.eraseIdx i } }
          retries } :=
      ⟨by simpa using hgood, hretries, by simp [hq, hkind]⟩
    have hne : s.seq.requestTable line ≠ [] := by simp [hq]
    cases hload : r.secondType.isLoad with
    | true =>
      rw [hload] at hstart
      simpa [hload] using readCallback_good hstart hne
    | false =>
      rw [hload] at hstart
      simpa [hload] using writeCallback_good hstart hne

@[simp] theorem setLine_seq (l : LineData) : (s.setLine line l).seq = s.seq := rfl

theorem step_good {op : Core.Op} (h : Good start B none log s)
    (hop : ∀ pkt ∈ op.packets, pkt.Regular B ∧ pkt.Whole) :
    ∃ events s', s.step B op = .ok (events, s') ∧ Good start B none (log ++ events) s' := by
  cases op with
  | request pkt =>
    obtain ⟨hreg, hwhole⟩ := hop pkt (by simp [Core.Op.packets])
    obtain ⟨events, s', hreq, hgrown, -⟩ := request_grown (s := s) hreg hwhole
    exact ⟨events, s', hreq, h.grown hgrown⟩
  | answer i retries =>
    exact answer_good h fun pkts hpkts pkt hpkt =>
      hop pkt (List.mem_flatten.2 ⟨pkts, hpkts, hpkt⟩)
  | change line l =>
    refine ⟨_, _, rfl, ⟨?_, h.typed, h.flight, ?_, ?_, ?_⟩⟩
    · intro x
      rw [acceptedTo_append, completedTo_append]
      simpa [acceptedTo, completedTo, accepted_changed, completed_changed] using h.order x
    · rw [accepted_append, completed_append, accepted_changed, completed_changed]
      simpa using h.count
    · intro x
      rw [contents_append]
      by_cases hx : x = line
      · subst hx
        simp [contents, contentsStep, Core.setLine]
      · simp [contents, contentsStep, Core.setLine, hx, Ne.symm hx, h.data x]
    · refine h.law.other fun e he hit heq => ?_
      rw [List.mem_singleton.1 he] at heq
      cases heq

theorem start_good (version maxOutstandingRequests : ℤ) (lines : ℕ → LineData) :
    Good (fun line => (lines line).data) B none [] (.start version maxOutstandingRequests lines) where
  order _ := rfl
  typed _ r hr := by cases hr
  flight _ := rfl
  count := rfl
  data _ := rfl
  law pre h post heq := by simp at heq

theorem sum_length_filter {α : Type} (f : α → ℕ) (S : Finset ℕ) :
    ∀ l : List α, (∀ a ∈ l, f a ∈ S) →
      ∑ x ∈ S, ((l.filter fun a => decide (f a = x)).length : ℤ) = l.length
  | [], _ => by simp
  | a :: l, h => by
    have ih := sum_length_filter f S l fun b hb => h b (mem_cons_of_mem _ hb)
    have hone : ∀ x, (((a :: l).filter fun b => decide (f b = x)).length : ℤ) =
        (l.filter fun b => decide (f b = x)).length + if f a = x then 1 else 0 := by
      intro x
      by_cases hx : f a = x <;> simp [hx]
    simp only [hone, Finset.sum_add_distrib, ih, Finset.sum_ite_eq, h a mem_cons_self, if_true,
      length_cons]
    push_cast
    rfl

theorem Good.outstanding (h : Good start B hole log s) :
    s.seq.outstandingCount =
      ∑ line ∈ ((accepted log).map Packet.line).toFinset,
        ((s.seq.requestTable line).length : ℤ) := by
  have hacc : ∀ pkt ∈ accepted log, pkt.line ∈ ((accepted log).map Packet.line).toFinset :=
    fun pkt hpkt => List.mem_toFinset.2 (List.mem_map_of_mem hpkt)
  -- a served request had been accepted
  have hcomp : ∀ hit ∈ completed log,
      hit.request.pkt.line ∈ ((accepted log).map Packet.line).toFinset := by
    intro hit hhit
    have hmem : hit.request.pkt ∈ acceptedTo hit.request.pkt.line log := by
      rw [h.order]
      refine List.mem_append_left _ (List.mem_map.2 ⟨hit, ?_, rfl⟩)
      exact List.mem_filter.2 ⟨hhit, by simp⟩
    exact hacc _ (List.mem_filter.1 hmem).1
  have hlen : ∀ line, ((s.seq.requestTable line).length : ℤ) =
      (acceptedTo line log).length - (completedTo line log).length := by
    intro line
    rw [h.order line]
    simp
  simp only [hlen, Finset.sum_sub_distrib]
  have ha := sum_length_filter Packet.line _ (accepted log) hacc
  have hc := sum_length_filter (fun hit : Hit => hit.request.pkt.line) _ (completed log) hcomp
  unfold acceptedTo completedTo
  rw [ha, hc]
  linarith [h.count]

/-! ### Runs -/

/-- What the sequencer promises, of the log of a run and the state it ends in. -/
structure Sound (start : ℕ → DataBlock) (log : List SequencerEvent) (s : Core) : Prop where
  inFlight : ∀ line, (s.seq.inFlightTo line).length =
    if s.seq.requestTable line = [] then 0 else 1
  inOrder : ∀ line, acceptedTo line log = (completedTo line log).map (fun h => h.request.pkt) ++
    (s.seq.requestTable line).map SequencerRequest.pkt
  outstanding : s.seq.outstandingCount =
    ∑ line ∈ ((accepted log).map Packet.line).toFinset, ((s.seq.requestTable line).length : ℤ)
  lawful : Lawful start log

theorem Good.sound (h : Good start B none log s) : Sound start log s where
  inFlight line := by
    rw [h.flight line, if_neg (by simp)]
    cases s.seq.requestTable line <;> simp
  inOrder := h.order
  outstanding := h.outstanding
  lawful := h.law

end

/-! ### A masked store -/

def plainStore : Packet := { line := 0, offset := 0, data := [0xAA, 0xBB], isWrite := true }

/-- A store of two bytes of which the second is masked out. -/
def maskedStore : Packet :=
  { line := 0, offset := 0, data := [0xCC, 0xDD], byteEnable := [true, false], isWrite := true }

def twoByteLoad : Packet := { line := 0, offset := 0, data := [0, 0], isRead := true }

def zeroLines : ℕ → LineData := fun _ => { monitor := none, data := fun _ => 0 }

/-- The log of a store, a masked store behind it and a load that sees both bytes of the latter. -/
def seesMasked : List SequencerEvent → Bool
  | [.accepted _, .accepted _, .accepted _, .completed h₁, .completed h₂, .completed h₃] =>
    decide (h₁.request = ⟨plainStore, .ST, .ST⟩ ∧ h₂.request = ⟨maskedStore, .ST, .ST⟩ ∧
      h₃ = ⟨⟨twoByteLoad, .LD, .LD⟩, true, [0xCC, 0xDD]⟩)
  | _ => false

end Gem5Nvm.Ruby
