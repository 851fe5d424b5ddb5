import Gem5Nvm.Proofs.EventQueue

/-!
# The event queue stays in order

Every call adds an event to the log or takes one out, and the links follow (`Core.insert`,
`Core.remove`).  What `serviceOne` takes out is the newest event of the least key, so the time it
sets is not before the time of any event left.
-/

namespace Gem5Nvm

open List (mem_cons mem_of_mem_erase mem_cons_self)

namespace EventQueue

open Bins Chain

variable {q : EventQueue} {e t : EventPtr} {log : List EventPtr}

/-- The part of the invariant that does not look at the flags. -/
structure Core (q : EventQueue) (log : List EventPtr) : Prop where
  nodup : log.Nodup
  bins : ∃ bins, Holds q bins ∧ Binned q.key log bins
  due : ∀ x ∈ log, q.curTick ≤ (q.event x).when_
  queued : ∀ x ∈ log, (q.event x).queued = true

section

variable (h : Core q log)
include h

theorem Core.congr {ev : EventPtr → Event}
    (hev : ∀ x ∈ log, (ev x).when_ = (q.event x).when_ ∧ (ev x).priority = (q.event x).priority ∧
      (ev x).queued = (q.event x).queued) : Core { q with event := ev } log := by
  obtain ⟨bins, hH, hB⟩ := h.bins
  refine ⟨h.nodup, ⟨bins, ⟨hH.tops, hH.inBin⟩, hB.congr fun x hx => ?_⟩, fun x hx => ?_,
    fun x hx => ?_⟩
  · obtain ⟨h1, h2, -⟩ := hev x hx
    simp only [key, h1, h2]
  · rw [(hev x hx).1]
    exact h.due x hx
  · rw [(hev x hx).2.2]
    exact h.queued x hx

variable {f : Event → Event}

theorem Core.modify_off (he : e ∉ log) : Core (q.modify e f) log :=
  h.congr fun x hx => by
    rw [Function.update_of_ne (show x ≠ e from fun hxe => he (hxe ▸ hx))]
    exact ⟨rfl, rfl, rfl⟩

theorem Core.modify_flags
    (hf : ∀ x, (f x).when_ = x.when_ ∧ (f x).priority = x.priority ∧ (f x).queued = x.queued) :
    Core (q.modify e f) log :=
  h.congr fun x _ => by
    rcases eq_or_ne x e with rfl | hne
    · rw [Function.update_self]
      exact hf _
    · rw [Function.update_of_ne hne]
      exact ⟨rfl, rfl, rfl⟩

theorem Core.insert (he : e ∉ log) (hdue : q.curTick ≤ (q.event e).when_)
    (hq : (q.event e).queued = true) :
    ∃ q', q.insert e = .ok q' ∧ Core q' (e :: log) ∧ q'.event = q.event ∧
      q'.curTick = q.curTick := by
  obtain ⟨bins, hH, hB⟩ := h.bins
  obtain ⟨head, nb, nib, bins', hok, hH', hB'⟩ := insert_spec hH hB he
  refine ⟨_, hok, ⟨List.nodup_cons.2 ⟨he, h.nodup⟩, ⟨bins', hH', hB'⟩, fun x hx => ?_,
    fun x hx => ?_⟩, rfl, rfl⟩
  · rcases mem_cons.1 hx with rfl | hx
    · exact hdue
    · exact h.due x hx
  · rcases mem_cons.1 hx with rfl | hx
    · exact hq
    · exact h.queued x hx

theorem Core.remove (he : e ∈ log) :
    ∃ q', q.remove e = .ok q' ∧ Core q' (log.erase e) ∧ q'.event = q.event ∧
      q'.curTick = q.curTick := by
  obtain ⟨bins, hH, hB⟩ := h.bins
  obtain ⟨head, nb, nib, bins', hok, hH', hB'⟩ := remove_spec h.nodup hH hB he (h.queued e he)
  exact ⟨_, hok, ⟨h.nodup.erase e, ⟨bins', hH', hB'⟩, fun x hx => h.due x (mem_of_mem_erase hx),
    fun x hx => h.queued x (mem_of_mem_erase hx)⟩, rfl, rfl⟩

variable {when_ : ℕ}

theorem Core.setWhen_insert (he : e ∉ log) (hw : q.curTick ≤ when_) :
    ∃ q', (q.setWhen e when_).insert e = .ok q' ∧ Core q' (e :: log) ∧
      q'.event = (q.setWhen e when_).event ∧ q'.curTick = q.curTick :=
  Core.insert (h.modify_off he) he (by simpa [setWhen, modify] using hw)
    (by simp [setWhen, modify])

end

/-- The links, and the flags that go with them. -/
structure Inv (q : EventQueue) (log : List EventPtr) : Prop extends Core q log where
  scheduled : ∀ x, x ∈ log ↔ (q.event x).scheduled = true

theorem Inv.ordered (h : Inv q log) : q.Ordered log := by
  obtain ⟨bins, hH, hB⟩ := h.bins
  exact ⟨h.nodup, h.scheduled, ⟨bins, hH.tops, hH.inBin, hB⟩, h.due⟩

theorem scheduled_modify (x : EventPtr) :
    ((q.modify e f).event x).scheduled
      = if x = e then (f (q.event e)).scheduled else (q.event x).scheduled := by
  rcases eq_or_ne x e with rfl | hne
  · simp only [modify, Function.update_self, if_true]
  · simp only [modify, Function.update_of_ne hne, if_neg hne]

theorem schedule_spec (h : Inv q log) (hpre : q.CallPre (.schedule e when_)) :
    ∃ q', q.schedule e when_ = .ok q' ∧ Inv q' (e :: log) ∧ q'.curTick = q.curTick := by
  obtain ⟨hw, hs, hi⟩ := hpre
  have he : e ∉ log := by simp [h.scheduled, hs]
  obtain ⟨q₁, hok, hcore, hev, htick⟩ := h.setWhen_insert he hw
  refine ⟨q₁.modify e fun x => { x with scheduled := true }, ?_, ⟨?_, fun x => ?_⟩, htick⟩
  · unfold schedule
    rw [assert_eq_ok.2 (decide_eq_true hw), assert_eq_ok.2 (by rw [hs]; rfl), assert_eq_ok.2 hi]
    simp only [Sim.ok_bind, hok]
    rfl
  · exact hcore.modify_flags fun x => ⟨rfl, rfl, rfl⟩
  · rw [scheduled_modify, mem_cons, hev, setWhen, scheduled_modify, h.scheduled]
    split_ifs with hx <;> simp [hx]

theorem deschedule_spec (h : Inv q log) (hpre : q.CallPre (.deschedule e)) :
    ∃ q', q.deschedule e = .ok q' ∧ Inv q' (log.erase e) ∧ q'.curTick = q.curTick := by
  obtain ⟨hs, hi⟩ := hpre
  obtain ⟨q₁, hok, hcore, hev, htick⟩ := h.remove ((h.scheduled e).2 hs)
  refine ⟨q₁.modify e fun x => { x with squashed := false, scheduled := false }, ?_,
    ⟨?_, fun x => ?_⟩, htick⟩
  · unfold deschedule
    rw [assert_eq_ok.2 hs, assert_eq_ok.2 hi]
    simp only [Sim.ok_bind, hok]
    rfl
  · exact hcore.modify_flags fun x => ⟨rfl, rfl, rfl⟩
  · rw [scheduled_modify, h.nodup.mem_erase_iff, hev, h.scheduled]
    split_ifs with hx <;> simp [hx]

theorem reschedule_spec (h : Inv q log) {always : Bool}
    (hpre : q.CallPre (.reschedule e when_ always)) :
    ∃ q', q.reschedule e when_ always = .ok q' ∧ Inv q' (e :: log.erase e) ∧
      q'.curTick = q.curTick := by
  obtain ⟨hw, hs, hi⟩ := hpre
  -- the event is taken out if it is in the queue
  have hout : ∃ q₁, (if (q.event e).scheduled then q.remove e else .ok q) = .ok q₁ ∧
      Core q₁ (log.erase e) ∧ q₁.event = q.event ∧ q₁.curTick = q.curTick := by
    by_cases hsch : (q.event e).scheduled = true
    · rw [if_pos hsch]
      exact h.remove ((h.scheduled e).2 hsch)
    · have he : e ∉ log := fun he => hsch ((h.scheduled e).1 he)
      rw [if_neg hsch, List.erase_of_not_mem he]
      exact ⟨q, rfl, h.toCore, rfl, rfl⟩
  obtain ⟨q₁, hok₁, hcore₁, hev₁, htick₁⟩ := hout
  obtain ⟨q₂, hok₂, hcore₂, hev₂, htick₂⟩ := hcore₁.setWhen_insert (e := e)
    (h.nodup.not_mem_erase) (htick₁ ▸ hw)
  refine ⟨q₂.modify e fun x => { x with squashed := false, scheduled := true }, ?_,
    ⟨?_, fun x => ?_⟩, htick₂.trans htick₁⟩
  · unfold reschedule
    rw [assert_eq_ok.2 (decide_eq_true hw), assert_eq_ok.2 (by simpa using hs), assert_eq_ok.2 hi]
    simp only [Sim.ok_bind, hok₁, hok₂]
    rfl
  · exact hcore₂.modify_flags fun x => ⟨rfl, rfl, rfl⟩
  · rw [scheduled_modify, mem_cons, h.nodup.mem_erase_iff, hev₂, setWhen, scheduled_modify,
      hev₁, h.scheduled]
    split_ifs with hx <;> simp [hx]

theorem call_spec (h : Inv q log) {c : Call} (hpre : q.CallPre c) :
    ∃ q', q.call c = .ok ((), q') ∧ Inv q' (logCall log c) ∧ q'.curTick = q.curTick := by
  cases c with
  | schedule e when_ =>
    obtain ⟨q', hok, hinv, htick⟩ := schedule_spec h hpre
    exact ⟨q', by simp [call, hok], hinv, htick⟩
  | deschedule e =>
    obtain ⟨q', hok, hinv, htick⟩ := deschedule_spec h hpre
    exact ⟨q', by simp [call, hok], hinv, htick⟩
  | reschedule e when_ always =>
    obtain ⟨q', hok, hinv, htick⟩ := reschedule_spec h hpre
    exact ⟨q', by simp [call, hok], hinv, htick⟩
  | squash e =>
    refine ⟨_, rfl, ⟨h.toCore.modify_flags fun x => ⟨rfl, rfl, rfl⟩, fun x => ?_⟩, rfl⟩
    rw [scheduled_modify, logCall, h.scheduled]
    split_ifs with hx <;> simp [hx]

theorem handler_spec : ∀ (handler : List Call) {q : EventQueue} {log : List EventPtr}, Inv q log →
    Run.Along call CallPre q handler → ∃ rs q', Run.run call q handler = .ok (rs, q') ∧
      Inv q' (handler.foldl logCall log) ∧ q'.curTick = q.curTick
  | [], q, _, h, _ => ⟨[], q, rfl, h, rfl⟩
  | c :: handler, q, log, h, hpre => by
    obtain ⟨q₁, hok, hinv, htick⟩ := call_spec h hpre.1
    obtain ⟨rs, q', hrun, hinv', htick'⟩ := handler_spec handler hinv (hpre.2 () q₁ hok)
    exact ⟨() :: rs, q', Run.run_cons_eq_ok.2 ⟨(), q₁, rs, hok, hrun, rfl⟩, hinv',
      htick'.trans htick⟩

theorem pop_eq {top : Option EventPtr} {q' : EventQueue} (h : q.removeItem t t = .ok (top, q')) :
    q.pop t = { q' with head := top
                        event := (q.modify t fun x => { x with scheduled := false }).event } := by
  unfold removeItem at h
  rw [if_pos rfl] at h
  unfold pop
  cases hnext : q.nextInBin t with
  | _ =>
    rw [hnext] at h
    simp only [Except.ok.injEq, Prod.mk.injEq] at h
    obtain ⟨rfl, rfl⟩ := h
    rfl

theorem pop_spec (h : Inv q log) (hhead : q.head = some t) :
    t ∈ log ∧ (∀ x ∈ log, q.key t ≤ q.key x) ∧ Inv (q.pop t) (log.erase t) ∧
      (q.pop t).curTick = q.curTick := by
  obtain ⟨bins, hH, hB⟩ := h.bins
  cases bins with
  | nil => cases hhead.symm.trans hH.tops
  | cons b bs =>
    obtain rfl : b.1 = t := Option.some.inj (hH.tops.1.symm.trans hhead)
    have ht : b.1 ∈ log := (hB.mem_log mem_cons_self mem_cons_self).1
    have hB' : Binned q.key log ([] ++ b :: bs) := hB
    have hpath : Path q.nextBin (some b.1) ((b :: bs).map Prod.fst) none := hhead ▸ hH.tops
    obtain ⟨top, nb, nib, mid, hitem, hlen, hmid, htops, hin, -, hnib⟩ := removeItem_spec h.nodup hB'
      hpath (hH.inBin b mem_cons_self) mem_cons_self
    have hcore : Core { q with head := top, nextBin := nb, nextInBin := nib } (log.erase b.1) := by
      refine ⟨h.nodup.erase _, ⟨mid ++ bs, ⟨htops, fun c hc => ?_⟩, hB'.erase h.nodup rfl hlen hmid⟩,
        fun x hx => h.due x (mem_of_mem_erase hx),
        fun x hx => h.queued x (mem_of_mem_erase hx)⟩
      rcases List.mem_append.1 hc with hc | hc
      · exact hin c hc
      · refine (path_congr fun x hx => hnib x ?_).2 (hH.inBin c (List.mem_cons_of_mem _ hc))
        exact hB.disjoint (List.mem_cons_of_mem _ hc) mem_cons_self
          (hB'.around.2 c hc).ne' hx
    have hflags := hcore.modify_flags (e := b.1) (f := fun x => { x with scheduled := false })
      fun x => ⟨rfl, rfl, rfl⟩
    refine ⟨ht, fun x hx => hB.least hx, ?_, by rw [pop_eq hitem]⟩
    rw [pop_eq hitem]
    refine ⟨hflags, fun x => ?_⟩
    change _ ↔ ((q.modify b.1 fun x => { x with scheduled := false }).event x).scheduled = true
    rw [scheduled_modify, h.nodup.mem_erase_iff, h.scheduled]
    split_ifs with hx <;> simp [hx]

theorem when_le {a b : EventPtr} (h : q.key a ≤ q.key b) :
    (q.event a).when_ ≤ (q.event b).when_ := by
  rw [key, key, Prod.Lex.toLex_le_toLex] at h
  rcases h with h | ⟨h, -⟩
  · exact h.le
  · exact h.le

theorem dispatch_spec (h : Inv q log) (hhead : q.head = some t) :
    Inv (q.dispatch t) (log.erase t) ∧ q.curTick ≤ (q.dispatch t).curTick := by
  obtain ⟨ht, hmin, hinv, -⟩ := pop_spec h hhead
  obtain ⟨bins, hH, hB⟩ := hinv.bins
  refine ⟨⟨⟨hinv.nodup, ⟨bins, ⟨hH.tops, hH.inBin⟩, hB⟩, fun x hx => ?_, hinv.queued⟩,
    hinv.scheduled⟩, h.due t ht⟩
  have hx' := mem_of_mem_erase hx
  have hwhen : ((q.dispatch t).event x).when_ = (q.event x).when_ := by
    have hne : x ≠ t := ((h.nodup.mem_erase_iff).1 hx).1
    unfold dispatch pop
    cases q.nextInBin t <;> simp [modify, setNextBin, Function.update_of_ne hne]
  rw [hwhen]
  exact when_le (hmin x hx')

theorem serviceOne_spec (h : Inv q log) {handler : List Call}
    (hpre : q.OpPre (.serviceOne handler)) :
    ∃ r q', q.serviceOne handler = .ok (r, q') ∧ Inv q' (logOp q log (.serviceOne handler)) ∧
      q.curTick ≤ q'.curTick := by
  obtain ⟨t, hhead, hrun⟩ := hpre
  cases hsq : (q.event t).squashed with
  | true =>
    obtain ⟨ht, -, hinv, htick⟩ := pop_spec h hhead
    refine ⟨none, (q.pop t).modify t fun x => { x with squashed := false }, ?_, ⟨?_, fun x => ?_⟩,
      htick.ge⟩
    · simp only [serviceOne, hhead, hsq, if_true]
    · simp only [logOp, hhead, hsq, if_true]
      exact hinv.toCore.modify_flags fun x => ⟨rfl, rfl, rfl⟩
    · simp only [logOp, hhead, hsq, if_true]
      rw [scheduled_modify, hinv.scheduled]
      split_ifs with hx <;> simp [hx]
  | false =>
    obtain ⟨halong, hexit⟩ := hrun hsq
    obtain ⟨hinv, htick⟩ := dispatch_spec h hhead
    obtain ⟨rs, q', hok, hinv', htick'⟩ := handler_spec handler hinv halong
    have hlog : logOp q log (.serviceOne handler) = handler.foldl logCall (log.erase t) := by
      simp [logOp, hhead, hsq]
    have hserve : ∃ r, q.serviceOne handler = .ok (r, q') := by
      cases hx : (q.event t).isExitEvent with
      | false => exact ⟨none, by simp [serviceOne, hhead, hsq, hok, hx]⟩
      | true =>
        have hassert : (!(q.event t).managed || !(q.event t).isMainQueue) = true := by
          simpa using hexit hx
        exact ⟨some t, by simp [serviceOne, hhead, hsq, hok, hx, assert_eq_ok.2 hassert]⟩
    obtain ⟨r, hr⟩ := hserve
    exact ⟨r, q', hr, hlog ▸ hinv', htick'.symm ▸ htick⟩

theorem step_spec (h : Inv q log) {op : Op} (hpre : q.OpPre op) :
    ∃ r q', q.step op = .ok (r, q') ∧ Inv q' (logOp q log op) ∧ q.curTick ≤ q'.curTick := by
  cases op with
  | call c =>
    obtain ⟨q', hok, hinv, htick⟩ := call_spec h hpre
    exact ⟨none, q', by simp [step, hok], hinv, htick.ge⟩
  | serviceOne handler => exact serviceOne_spec h hpre

theorem step_inOrder (h : Inv q log) {op : Op} (hpre : q.OpPre op) : InOrder (q, log) op := by
  obtain ⟨r, q', hok, hinv, htick⟩ := step_spec h hpre
  refine ⟨⟨r, q', hok, hinv.ordered, htick⟩, ?_⟩
  rintro handler rfl
  obtain ⟨t, hhead, -⟩ := hpre
  obtain ⟨ht, hmin, -⟩ := pop_spec h hhead
  exact ⟨t, hhead, (h.scheduled t).1 ht, fun x hx => hmin x ((h.scheduled x).2 hx)⟩

theorem empty_inv (hhead : q.head = none) (hnone : ∀ x, (q.event x).scheduled = false) : Inv q [] :=
  ⟨⟨List.nodup_nil, ⟨[], ⟨hhead, by simp⟩, binned_nil⟩, by simp, by simp⟩, by simp [hnone]⟩

end EventQueue

/-- From an empty queue every sequence of operations that meet the assertions returns, with the
queue in order after each operation: it holds the scheduled events, bins in increasing order, each
with its events from the newest to the oldest.  An event that is served has the least key, and the
time does not go backwards. -/
theorem event_queue_in_order {q : EventQueue} (hhead : q.head = none)
    (hnone : ∀ x, (q.event x).scheduled = false) {ops : List EventQueue.Op}
    (hpre : Run.Along EventQueue.loggedStep (fun s op => s.1.OpPre op) (q, []) ops) :
    Run.Along EventQueue.loggedStep EventQueue.InOrder (q, []) ops ∧
      ∃ rs q' log, Run.run EventQueue.loggedStep (q, []) ops = .ok (rs, q', log) ∧
        q'.Ordered log := by
  have hstep : ∀ (s : EventQueue × List EventPtr) (op : EventQueue.Op), s.1.Inv s.2 →
      s.1.OpPre op → ∃ r s', EventQueue.loggedStep s op = .ok (r, s') ∧ s'.1.Inv s'.2 := by
    intro s op hinv hop
    obtain ⟨r, q', hok, hinv', -⟩ := EventQueue.step_spec hinv hop
    exact ⟨r, (q', EventQueue.logOp s.1 s.2 op), by simp [EventQueue.loggedStep, hok], hinv'⟩
  have h0 := EventQueue.empty_inv hhead hnone
  refine ⟨Run.along_imp (I := fun s => s.1.Inv s.2) (fun s op hinv hop => ?_) ops h0 hpre, ?_⟩
  · refine ⟨EventQueue.step_inOrder hinv hop, fun r s' hok => ?_⟩
    obtain ⟨r', s'', hok', hinv'⟩ := hstep s op hinv hop
    cases hok.symm.trans hok'
    exact hinv'
  · obtain ⟨rs, ⟨q', log⟩, hrun, hinv⟩ :=
      Run.run_total (I := fun s => s.1.Inv s.2) hstep ops h0 hpre
    exact ⟨rs, q', log, hrun, hinv.ordered⟩

/-- A queue in which nothing is scheduled. -/
def idleQueue : EventQueue where
  head := none
  curTick := 0
  nextBin := fun _ => none
  nextInBin := fun _ => none
  event := fun _ =>
    { when_ := 0, priority := 0, queued := false, initialized := true, scheduled := false,
      squashed := false, managed := false, isExitEvent := false, isMainQueue := false }

/-- Two events of one tick and one of a later tick; the first is taken out, the last is moved, and
the handler of the other schedules the first again. -/
def threeEvents : List EventQueue.Op :=
  [.call (.schedule 1 5), .call (.schedule 2 5), .call (.schedule 3 9), .call (.deschedule 1),
    .call (.reschedule 3 7 false), .serviceOne [.schedule 1 7]]

theorem event_queue_in_order_threeEvents : ∃ rs q,
    Run.run EventQueue.loggedStep (idleQueue, []) threeEvents = .ok (rs, q, [1, 3]) ∧
      q.Ordered [1, 3] := by
  have hpre : Run.Along EventQueue.loggedStep (fun s op => s.1.OpPre op) (idleQueue, [])
      threeEvents := by
    refine (Run.along_cons rfl).2 ⟨⟨by decide, rfl, rfl⟩, ?_⟩
    refine (Run.along_cons rfl).2 ⟨⟨by decide, rfl, rfl⟩, ?_⟩
    refine (Run.along_cons rfl).2 ⟨⟨by decide, rfl, rfl⟩, ?_⟩
    refine (Run.along_cons rfl).2 ⟨⟨rfl, rfl⟩, ?_⟩
    refine (Run.along_cons rfl).2 ⟨⟨by decide, .inr rfl, rfl⟩, ?_⟩
    refine ⟨⟨2, rfl, fun _ => ⟨⟨⟨by decide, rfl, rfl⟩, fun _ _ _ => trivial⟩, ?_⟩⟩,
      fun _ _ _ => trivial⟩
    exact fun _ => .inl rfl
  obtain ⟨rs, q, log, hrun, hord⟩ := (event_queue_in_order rfl (fun _ => rfl) hpre).2
  obtain ⟨rs', q', hlog⟩ : ∃ rs q, Run.run EventQueue.loggedStep (idleQueue, []) threeEvents =
      .ok (rs, q, [1, 3]) := ⟨_, _, rfl⟩
  cases hrun.symm.trans hlog
  exact ⟨rs, q, hrun, hord⟩

end Gem5Nvm
