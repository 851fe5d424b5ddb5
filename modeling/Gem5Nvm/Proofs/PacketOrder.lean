import Gem5Nvm.PacketOrder

/-!
# A packet queue sends its packets in order and is always woken

A packet goes behind those it may not overtake (`schedSendTiming_cases`), so packets with one tick,
or with one address where the order is forced, stand in the order they were scheduled in (`Books`).
While the queue does not wait for a retry, its event is scheduled no earlier than the front packet
is due (`Timed`).
-/

namespace Gem5Nvm

open List (nil_append filter_append append_assoc mem_append mem_cons pairwise_append)

namespace PacketQueue

variable {q q' : PacketQueue} {cur w : ℕ} {d dp : DeferredPacket}

/-- When an event that may be scheduled already is to be processed by `w`. -/
def earliest (e : Timer) (w : ℕ) : ℕ := e.elim w (min w)

theorem schedSendEvent_waiting (hw : q.waitingOnRetry = true) (he : q.sendEvent = none) :
    q.schedSendEvent cur w = .ok q := by
  simp [schedSendEvent, hw, he, assert]

theorem schedSendEvent_ok (hw : q.waitingOnRetry = false) (hcur : cur < maxTick)
    (hlt : w < maxTick) :
    q.schedSendEvent cur w =
      .ok { q with sendEvent := some (earliest q.sendEvent (max w (cur + 1))) } := by
  have hnext : u64 (cur + 1) = cur + 1 := u64_of_lt (by unfold maxTick at hcur; omega)
  have hle : cur ≤ max w (cur + 1) := by omega
  unfold schedSendEvent
  rw [hw, if_neg Bool.false_ne_true, if_pos hlt.ne, hnext]
  cases hq : q.sendEvent with
  | none => simp [Timer.schedule_ok hle, earliest]
  | some t =>
    by_cases hlt' : max w (cur + 1) < t
    · simp [hlt', Timer.reschedule_ok hle, earliest, min_eq_left hlt'.le]
    · simp [hlt', earliest, min_eq_right (not_lt.1 hlt')]

theorem schedSendEvent_idle (hw : q.waitingOnRetry = false) :
    ∃ s, q.schedSendEvent cur maxTick = .ok { q with drainState := s } := by
  unfold schedSendEvent
  rw [if_neg (by rw [hw]; exact Bool.false_ne_true), if_neg (by simp)]
  split_ifs
  · exact ⟨_, rfl⟩
  · exact ⟨q.drainState, rfl⟩

/-- A scheduled event finds the front packet ready. -/
def Timed (q : PacketQueue) (cur : ℕ) : Prop :=
  ∀ e ∈ q.sendEvent, cur ≤ e ∧ ∃ dp ∈ q.transmitList.head?, dp.tick ≤ e

/-- Whether `d` keeps a new packet `dp` behind it. -/
def Holds (q : PacketQueue) (dp d : DeferredPacket) : Prop :=
  q.forceOrder = true ∧ d.pkt.matchAddr dp.pkt = true ∨ d.tick ≤ dp.tick

theorem split_last {α : Type} (p : α → Bool) (l : List α) : ∃ earlier later,
    l.reverse.span p = (later, earlier) ∧ l = earlier.reverse ++ later.reverse ∧
      (∀ d ∈ later, p d = true) ∧ ∀ d ∈ earlier.head?, p d = false := by
  refine ⟨_, _, List.span_eq_takeWhile_dropWhile p _, ?_, fun d hd => List.mem_takeWhile_imp hd,
    fun d hd => ?_⟩
  · rw [← List.reverse_append, List.takeWhile_append_dropWhile, List.reverse_reverse]
  · have := List.head?_dropWhile_not p l.reverse
    simp_all

theorem schedSendTiming_cases (hcur : cur < maxTick) (hdp : dp.tick < maxTick)
    (hwait : q.waitingOnRetry = true → q.sendEvent = none) :
    q.schedSendTiming cur dp = .error (.assertion "when >= curTick()") ∨
    q.schedSendTiming cur dp = .error (.assertion "!pkt->isExpressSnoop()") ∨
    q.schedSendTiming cur dp =
      .error (.panic "Packet queue %s has grown beyond 128 packets\n") ∨
    cur ≤ dp.tick ∧ ∃ front back, q.transmitList = front ++ back ∧
      (∀ d ∈ back, ¬ q.Holds dp d) ∧ (∀ d ∈ front.getLast?, q.Holds dp d) ∧
      q.schedSendTiming cur dp = .ok { q with
        transmitList := front ++ dp :: back
        sendEvent := if front = [] ∧ q.waitingOnRetry = false
          then some (earliest q.sendEvent (max dp.tick (cur + 1))) else q.sendEvent } := by
  unfold schedSendTiming
  by_cases hle : dp.tick ≥ cur
  swap
  · exact .inl (by simp [assert, hle])
  right
  cases hsnoop : dp.pkt.expressSnoop with
  | true => exact .inl (by simp [assert, hle])
  | false =>
    right
    by_cases hfull : ¬ q.disableSanityCheck = true ∧ q.transmitList.length > 128
    · exact .inl (by simp [assert, hle, hfull])
    refine .inr ⟨hle, ?_⟩
    obtain ⟨earlier, later, hspan, hlist, hlater, hearlier⟩ := split_last
      (fun d => !((q.forceOrder && d.pkt.matchAddr dp.pkt) || decide (d.tick ≤ dp.tick)))
      q.transmitList
    refine ⟨earlier.reverse, later.reverse, hlist, fun d hd => ?_, fun d hd => ?_, ?_⟩
    · have := hlater d (List.mem_reverse.1 hd)
      simp only [Bool.not_eq_true', Bool.or_eq_false_iff, Bool.and_eq_false_iff,
        decide_eq_false_iff_not] at this
      rintro (⟨hf, hm⟩ | ht)
      · rcases this.1 with h | h
        · simp [h] at hf
        · simp [h] at hm
      · exact this.2 ht
    · rw [List.getLast?_reverse] at hd
      have := hearlier d hd
      simp only [Bool.not_eq_false', Bool.or_eq_true, Bool.and_eq_true, decide_eq_true_eq] at this
      exact this
    · simp only [assert, hle, decide_true, if_true, Bool.not_false, Sim.ok_bind, if_neg hfull, hspan]
      by_cases hnil : earlier = []
      · have hfront : later.reverse = q.transmitList := by simp [hlist, hnil]
        rw [if_neg (by simp [hnil]), hnil, hfront, List.reverse_nil, nil_append]
        by_cases hw : q.waitingOnRetry = true
        · rw [schedSendEvent_waiting (q := { q with transmitList := dp :: q.transmitList }) hw
            (hwait hw)]
          simp [hw]
        · rw [Bool.not_eq_true] at hw
          rw [schedSendEvent_ok (q := { q with transmitList := dp :: q.transmitList }) hw hcur hdp]
          simp [hw]
      · rw [if_pos hnil]
        simp [hnil]

/-- Which packets are scheduled, sent and waiting, and in what order they stand. -/
structure Books (forceOrder : Bool) (cur : ℕ) (scheduled sent list : List DeferredPacket) :
    Prop where
  perm : scheduled.Perm (sent ++ list)
  due : ∀ d ∈ list, d.tick < maxTick
  sorted : forceOrder = false → (sent ++ list).Pairwise fun d d' => d.tick ≤ d'.tick
  past : forceOrder = false → ∀ d ∈ sent, d.tick ≤ cur
  ticks : forceOrder = false → ∀ t,
    ((sent ++ list).filter fun d => d.tick = t) = scheduled.filter fun d => d.tick = t
  addrs : forceOrder = true → ∀ p : QueuedPacket,
    ((sent ++ list).filter fun d => d.pkt.matchAddr p) = scheduled.filter fun d => d.pkt.matchAddr p

theorem filter_insert {α : Type} {f : α → Bool} {a : α} (l front : List α) {back : List α}
    (h : f a = true → ∀ d ∈ back, f d = false) :
    ((l ++ (front ++ a :: back)).filter f) = (l ++ (front ++ back)).filter f ++ [a].filter f := by
  simp only [filter_append, List.filter_cons, List.filter_nil, append_assoc]
  cases ha : f a with
  | false => simp
  | true =>
    have hback : back.filter f = [] := List.filter_eq_nil_iff.2 fun d hd => by simp [h ha d hd]
    simp [hback]

namespace Books

variable {force : Bool} {scheduled sent list front back rest : List DeferredPacket}

theorem nil (force : Bool) (cur : ℕ) : Books force cur [] [] [] :=
  ⟨.nil, by simp, fun _ => .nil, by simp, by simp, by simp⟩

theorem insert (h : Books force cur scheduled sent (front ++ back)) (hcur : cur ≤ dp.tick)
    (hdp : dp.tick < maxTick)
    (hback : ∀ d ∈ back, ¬ (force = true ∧ d.pkt.matchAddr dp.pkt = true ∨ d.tick ≤ dp.tick))
    (hfront : ∀ d ∈ front.getLast?,
      force = true ∧ d.pkt.matchAddr dp.pkt = true ∨ d.tick ≤ dp.tick) :
    Books force cur (scheduled ++ [dp]) sent (front ++ dp :: back) := by
  constructor
  · have hmid : (sent ++ (front ++ dp :: back)).Perm (dp :: (sent ++ (front ++ back))) := by
      rw [← append_assoc, ← append_assoc]
      exact List.perm_middle
    exact (List.perm_append_singleton dp scheduled).trans ((h.perm.cons dp).trans hmid.symm)
  · intro d hd
    rcases mem_append.1 hd with hd | hd
    · exact h.due d (List.mem_append_left _ hd)
    · rcases mem_cons.1 hd with rfl | hd
      · exact hdp
      · exact h.due d (List.mem_append_right _ hd)
  · intro hf
    have hsorted := h.sorted hf
    rw [← append_assoc, pairwise_append] at hsorted ⊢
    have hlast : ∀ d ∈ front, d.tick ≤ dp.tick := by
      intro d hd
      rcases List.eq_nil_or_concat front with rfl | ⟨pre, last, rfl⟩
      · simp at hd
      rw [List.concat_eq_append] at *
      have hle : last.tick ≤ dp.tick := by
        rcases hfront last (by simp) with ⟨hf', -⟩ | hle
        · simp [hf] at hf'
        · exact hle
      rcases mem_append.1 hd with hd | hd
      · have hpre := pairwise_append.1 (pairwise_append.1 hsorted.1).2.1
        exact (hpre.2.2 d hd last (by simp)).trans hle
      · rw [List.mem_singleton.1 hd]
        exact hle
    refine ⟨hsorted.1, List.pairwise_cons.2 ⟨fun d hd => ?_, hsorted.2.1⟩, fun d hd e he => ?_⟩
    · have := hback d hd
      omega
    · rcases mem_cons.1 he with rfl | he
      · rcases mem_append.1 hd with hd | hd
        · exact (h.past hf d hd).trans hcur
        · exact hlast d hd
      · exact hsorted.2.2 d hd e he
  · exact h.past
  · intro hf t
    rw [filter_insert, h.ticks hf t, filter_append]
    intro hdt d hd
    have := hback d hd
    simp only [decide_eq_true_eq, decide_eq_false_iff_not] at hdt ⊢
    omega
  · intro hf p
    rw [filter_insert, h.addrs hf p, filter_append]
    intro hdt d hd
    by_contra hdp'
    refine hback d hd (.inl ⟨hf, ?_⟩)
    simp only [QueuedPacket.matchAddr, Bool.not_eq_false, decide_eq_true_eq] at *
    exact ⟨hdp'.1.trans hdt.1.symm, hdp'.2.trans hdt.2.symm⟩

theorem send (h : Books force cur scheduled sent (dp :: rest)) (hcur : dp.tick ≤ cur) :
    Books force cur scheduled (sent ++ [dp]) rest := by
  have heq : sent ++ [dp] ++ rest = sent ++ dp :: rest := by simp
  refine ⟨heq ▸ h.perm, fun d hd => h.due d (List.mem_cons_of_mem _ hd), ?_, ?_, ?_, ?_⟩
  · rw [heq]
    exact h.sorted
  · intro hf d hd
    rcases mem_append.1 hd with hd | hd
    · exact h.past hf d hd
    · rw [List.mem_singleton.1 hd]
      exact hcur
  · rw [heq]
    exact h.ticks
  · rw [heq]
    exact h.addrs

theorem later {cur' : ℕ} (h : Books force cur scheduled sent list) (hle : cur ≤ cur') :
    Books force cur' scheduled sent list :=
  ⟨h.perm, h.due, h.sorted, fun hf d hd => (h.past hf d hd).trans hle, h.ticks, h.addrs⟩

end Books

/-- The packets, and an event that finds the front one ready. -/
structure Kept (q : PacketQueue) (cur : ℕ) (scheduled sent : List DeferredPacket) : Prop where
  books : Books q.forceOrder cur scheduled sent q.transmitList
  timed : q.Timed cur

section Send

variable {scheduled sent : List DeferredPacket}

/-- How a call other than on wrong arguments fails. -/
def Refused (x : Sim PacketQueue) : Prop :=
  x = .error (.assertion "when >= curTick()") ∨
  x = .error (.assertion "!pkt->isExpressSnoop()") ∨
  x = .error (.panic "Packet queue %s has grown beyond 128 packets\n")

theorem Timed.insert {front back : List DeferredPacket} (ht : q.Timed cur)
    (hlist : q.transmitList = front ++ back) (hback : ∀ d ∈ back, ¬ q.Holds dp d) :
    Timed { q with
      transmitList := front ++ dp :: back
      sendEvent := if front = [] ∧ q.waitingOnRetry = false
        then some (earliest q.sendEvent (max dp.tick (cur + 1))) else q.sendEvent } cur := by
  by_cases hnil : front = []
  · subst hnil
    rw [nil_append] at hlist
    -- the packets behind are due later, and the event no earlier than they are
    have hlater : ∀ e ∈ q.sendEvent, cur ≤ e ∧ dp.tick ≤ e := by
      intro e he
      obtain ⟨hcur, d, hd, hle⟩ := ht e he
      have hlt := hback d (hlist ▸ List.mem_of_mem_head? hd)
      unfold Holds at hlt
      omega
    intro e he
    refine ⟨?_, dp, rfl, ?_⟩
    all_goals
      simp only [true_and] at he
      split_ifs at he with hw
      · cases he
        unfold earliest
        cases hq : q.sendEvent with
        | none => simp only [Option.elim_none]; omega
        | some t =>
          have := hlater t hq
          simp only [Option.elim_some]
          omega
      · have := hlater e he
        omega
  · intro e he
    simp only [hnil, false_and, if_false] at he
    obtain ⟨hcur, d, hd, hle⟩ := ht e he
    refine ⟨hcur, d, ?_, hle⟩
    rw [hlist, List.head?_append_of_ne_nil _ hnil] at hd
    rw [List.head?_append_of_ne_nil _ hnil]
    exact hd

theorem Kept.schedSendTiming (h : q.Kept cur scheduled sent) (hcur : cur < maxTick)
    (hdp : dp.tick < maxTick) (hwait : q.waitingOnRetry = true → q.sendEvent = none) :
    Refused (q.schedSendTiming cur dp) ∨
    ∃ front back e, q.transmitList = front ++ back ∧
      (∀ d ∈ front.getLast?, q.Holds dp d) ∧ (∀ d ∈ back, ¬ q.Holds dp d) ∧ cur ≤ dp.tick ∧
      (front = [] ∧ q.waitingOnRetry = false → e ≠ none) ∧
      (¬ (front = [] ∧ q.waitingOnRetry = false) → e = q.sendEvent) ∧
      q.schedSendTiming cur dp =
        .ok { q with transmitList := front ++ dp :: back, sendEvent := e } ∧
      Kept { q with transmitList := front ++ dp :: back, sendEvent := e } cur
        (scheduled ++ [dp]) sent := by
  rcases schedSendTiming_cases hcur hdp hwait with hx | hx | hx |
    ⟨hle, front, back, hlist, hback, hfront, hx⟩
  · exact .inl (.inl hx)
  · exact .inl (.inr (.inl hx))
  · exact .inl (.inr (.inr hx))
  · refine .inr ⟨front, back, _, hlist, hfront, hback, hle, fun hc => ?_, fun hc => ?_, hx, ?_,
      h.timed.insert hlist hback⟩
    · rw [if_pos hc]
      simp
    · rw [if_neg hc]
    · have hbooks := h.books
      rw [hlist] at hbooks
      exact hbooks.insert hle hdp hback hfront

theorem Kept.reentrant : ∀ {l : List DeferredPacket} {q : PacketQueue}
    {scheduled : List DeferredPacket}, q.Kept cur scheduled sent → cur < maxTick →
    (∀ d ∈ l, d.tick < maxTick) → q.waitingOnRetry = false →
    Refused (l.foldlM (fun q dp => q.schedSendTiming cur dp) q) ∨
    ∃ q', l.foldlM (fun q dp => q.schedSendTiming cur dp) q = .ok q' ∧
      q'.waitingOnRetry = false ∧ q'.Kept cur (scheduled ++ l) sent
  | [], q, scheduled, h, _, _, hw => .inr ⟨q, rfl, hw, by rwa [List.append_nil]⟩
  | dp :: l, q, scheduled, h, hcur, hl, hw => by
    rw [List.forall_mem_cons] at hl
    rw [List.foldlM_cons]
    rcases h.schedSendTiming hcur hl.1 (by simp [hw]) with
      hx | ⟨front, back, e, -, -, -, -, -, -, hx, hkept⟩
    · left
      rcases hx with hx | hx | hx <;> rw [hx] <;> simp [Refused]
    · rw [hx, Sim.ok_bind]
      have ih := hkept.reentrant hcur hl.2 hw
      rwa [append_assoc, List.singleton_append] at ih

theorem Kept.schedNext (h : q.Kept cur scheduled sent) (hcur : cur < maxTick)
    (hw : q.waitingOnRetry = false) :
    ∃ q', q.schedSendEvent cur q.deferredPacketReadyTime = .ok q' ∧ q'.waitingOnRetry = false ∧
      q'.Kept cur scheduled sent ∧ (q'.transmitList ≠ [] → q'.sendEvent.isSome = true) := by
  cases hlist : q.transmitList with
  | nil =>
    have htime : q.deferredPacketReadyTime = maxTick := by simp [deferredPacketReadyTime, hlist]
    obtain ⟨s, hs⟩ : ∃ s, q.schedSendEvent cur maxTick = .ok { q with drainState := s } :=
      schedSendEvent_idle hw
    rw [htime]
    exact ⟨_, hs, hw, ⟨h.books, h.timed⟩, fun hne => absurd hlist hne⟩
  | cons d rest =>
    have hd : d.tick < maxTick := h.books.due d (by simp [hlist])
    have htime : q.deferredPacketReadyTime = d.tick := by simp [deferredPacketReadyTime, hlist]
    rw [htime]
    refine ⟨_, schedSendEvent_ok hw hcur hd, hw, ⟨h.books, ?_⟩, fun _ => rfl⟩
    rintro e ⟨⟩
    unfold earliest
    cases hq : q.sendEvent with
    | none =>
      refine ⟨?_, d, by simp [hlist], ?_⟩ <;> simp only [Option.elim_none] <;> omega
    | some t =>
      obtain ⟨hct, d', hd', hle⟩ := h.timed t hq
      rw [hlist] at hd'
      cases hd'
      refine ⟨?_, d, by simp [hlist], ?_⟩ <;> simp only [Option.elim_some] <;> omega

variable {rest : List DeferredPacket}

theorem deferredPacketReady_iff (h : q.transmitList = dp :: rest) :
    q.deferredPacketReady cur = decide (dp.tick ≤ cur) := by
  simp [deferredPacketReady, h]

theorem sendDeferredPacket_refuse (hw : q.waitingOnRetry = false)
    (hlist : q.transmitList = dp :: rest) (hdp : dp.tick ≤ cur) :
    q.sendDeferredPacket cur .refuse = .ok { q with waitingOnRetry := true } := by
  simp [sendDeferredPacket, assert, hw, deferredPacketReady_iff hlist, hdp, hlist]

theorem Kept.sendDeferredPacket_accept {rest l : List DeferredPacket}
    (h : q.Kept cur scheduled sent) (hcur : cur < maxTick) (hw : q.waitingOnRetry = false)
    (hlist : q.transmitList = dp :: rest) (hdp : dp.tick ≤ cur) (he : q.sendEvent = none)
    (hl : ∀ d ∈ l, d.tick < maxTick) :
    Refused (q.sendDeferredPacket cur (.accept l)) ∨
    ∃ q', q.sendDeferredPacket cur (.accept l) = .ok q' ∧ q'.waitingOnRetry = false ∧
      q'.Kept cur (scheduled ++ l) (sent ++ [dp]) ∧
      (q'.transmitList ≠ [] → q'.sendEvent.isSome = true) := by
  have hbooks := h.books
  rw [hlist] at hbooks
  have hpop : Kept { q with transmitList := rest } cur scheduled (sent ++ [dp]) :=
    ⟨hbooks.send hdp, by simp [Timed, he]⟩
  have heval : q.sendDeferredPacket cur (.accept l) = (do
      let q ← l.foldlM (fun q dp => q.schedSendTiming cur dp) { q with transmitList := rest }
      schedSendEvent { q with waitingOnRetry := false } cur
        (deferredPacketReadyTime { q with waitingOnRetry := false })) := by
    simp [sendDeferredPacket, assert, hw, deferredPacketReady_iff hlist, hdp, hlist]
  rw [heval]
  rcases hpop.reentrant hcur hl hw with hx | ⟨q₁, hx, hw₁, hkept⟩
  · left
    rcases hx with hx | hx | hx <;> rw [hx] <;> simp [Refused]
  · have hset : { q₁ with waitingOnRetry := false } = q₁ := by
      rw [← hw₁]
    rw [hx, Sim.ok_bind, hset]
    obtain ⟨q', hq', hw', hkept', hawake⟩ := hkept.schedNext hcur hw₁
    exact .inr ⟨q', hq', hw', hkept', hawake⟩

end Send

namespace Link

variable {w w' : Link} {o : Op}

structure Inv (w : Link) : Prop where
  cur_lt : w.curTick < maxTick
  kept : w.queue.Kept w.curTick w.scheduled w.sent
  owed : w.owed = w.queue.waitingOnRetry
  waiting : w.queue.waitingOnRetry = true → w.queue.sendEvent = none ∧
    ∃ dp ∈ w.queue.transmitList.head?, dp.tick ≤ w.curTick
  awake : w.queue.waitingOnRetry = false → w.queue.transmitList ≠ [] →
    w.queue.sendEvent.isSome = true

theorem Inv.start (forceOrder disableSanityCheck : Bool) :
    (start forceOrder disableSanityCheck).Inv :=
  ⟨show 0 < maxTick by decide, ⟨.nil _ _, by simp [Timed, Link.start, new]⟩, rfl,
    by simp [Link.start, new],
    by simp [Link.start, new]⟩

theorem Inv.inOrder (h : w.Inv) : w.InOrder := by
  have hbooks := h.kept.books
  refine ⟨hbooks.perm, fun hne => ?_, fun hf => ⟨?_, fun t => ?_⟩, fun hf p => ?_⟩
  · cases hw : w.queue.waitingOnRetry with
    | true => exact .inl ⟨rfl, (h.waiting hw).1⟩
    | false => exact .inr (h.awake hw hne)
  · exact List.pairwise_map.2 (pairwise_append.1 (hbooks.sorted hf)).1
  · rw [← hbooks.ticks hf t, filter_append]
    exact List.prefix_append _ _
  · rw [← hbooks.addrs hf p, filter_append]
    exact List.prefix_append _ _

/-- What a step keeps, and how it may fail. -/
def Kept (w : Link) (o : Op) : Prop :=
  (∀ x w', w.step o = .ok (x, w') → w'.Inv) ∧ w.AssertsHold o

/-- A step that ends with a call `x` keeps what the call keeps, and fails as it does. -/
theorem Kept.of_call {o : Op} {x : Sim PacketQueue} {f : PacketQueue → Link}
    (heval : w.step o = (do let q ← x; return ((), f q)))
    (hspec : (∀ q, x = .ok q → (f q).Inv) ∧ ∀ msg, x = .error (.assertion msg) →
      msg = "when >= curTick()" ∨ msg = "!pkt->isExpressSnoop()") : w.Kept o := by
  unfold Kept AssertsHold
  rw [heval]
  refine ⟨fun _ w' hs => ?_, fun msg hmsg => hspec.2 msg ?_⟩
  · obtain ⟨q, hq, hs⟩ := Sim.bind_eq_ok.1 hs
    cases hs
    exact hspec.1 q hq
  · cases hx : x with
    | error err => simpa [hx] using hmsg
    | ok q => simp [hx] at hmsg

theorem Inv.congr_drain (h : w.Inv) (s : DrainState) :
    Inv { w with queue := { w.queue with drainState := s } } :=
  ⟨h.cur_lt, ⟨h.kept.books, h.kept.timed⟩, h.owed, h.waiting, h.awake⟩

theorem Inv.send {dp : DeferredPacket} {reply : Reply} {q : PacketQueue} {x : Sim PacketQueue}
    (hcur : w.curTick < maxTick) (h : q.Kept w.curTick w.scheduled w.sent)
    (hw : q.waitingOnRetry = false) (hlist : q.transmitList = dp :: rest)
    (hsame : w.queue.transmitList = q.transmitList) (hdp : dp.tick ≤ w.curTick)
    (he : q.sendEvent = none) (hr : reply.Timely) (hx : x = q.sendDeferredPacket w.curTick reply) :
    (∀ q', x = .ok q' → (w.record q' reply).Inv) ∧ ∀ msg, x = .error (.assertion msg) →
      msg = "when >= curTick()" ∨ msg = "!pkt->isExpressSnoop()" := by
  subst hx
  cases reply with
  | refuse =>
    rw [sendDeferredPacket_refuse hw hlist hdp]
    refine ⟨?_, by simp⟩
    rintro q' ⟨⟩
    exact ⟨hcur, ⟨h.books, h.timed⟩, rfl, fun _ => ⟨he, dp, by simp [record, hlist], hdp⟩,
      by simp [record]⟩
  | accept l =>
    rcases h.sendDeferredPacket_accept hcur hw hlist hdp he hr with hx | ⟨q', hx, hw', hkept, hawake⟩
    · refine ⟨fun q' hq' => ?_, fun msg hmsg => ?_⟩
      · rcases hx with hx | hx | hx <;> rw [hx] at hq' <;> cases hq'
      · rcases hx with hx | hx | hx <;> rw [hx] at hmsg <;> cases hmsg
        · exact .inl rfl
        · exact .inr rfl
    · rw [hx]
      refine ⟨?_, by simp⟩
      rintro q'' ⟨⟩
      have hsent : (w.record q' (.accept l)).sent = w.sent ++ [dp] := by
        simp [record, hsame, hlist]
      refine ⟨hcur, ?_, hw'.symm, by simp [record, hw'], fun _ => hawake⟩
      rw [hsent]
      exact hkept

theorem Inv.step (h : w.Inv) (hl : w.Legal o) (ht : w.Timely o) : w.Kept o := by
  cases o with
  | elapse tick =>
    obtain ⟨hle, -, he⟩ := hl
    refine ⟨?_, by simp [AssertsHold, Link.step]⟩
    rintro _ _ ⟨⟩
    refine ⟨ht, ⟨h.kept.books.later hle, fun e hmem => ⟨he e hmem, (h.kept.timed e hmem).2⟩⟩,
      h.owed, fun hw => ?_, h.awake⟩
    obtain ⟨hnone, dp, hdp, hle'⟩ := h.waiting hw
    exact ⟨hnone, dp, hdp, hle'.trans hle⟩
  | schedSendTiming dp =>
    have hspec := h.kept.schedSendTiming h.cur_lt ht fun hw => (h.waiting hw).1
    constructor
    · intro x w' hs
      obtain ⟨q', hq', hs⟩ := Sim.bind_eq_ok.1 hs
      cases hs
      rcases hspec with hx | ⟨front, back, e, hlist, hfront, hback, hle, hnew, hsame, hx, hkept⟩
      · rcases hx with hx | hx | hx <;> rw [hx] at hq' <;> cases hq'
      rw [hx] at hq'
      cases hq'
      refine ⟨h.cur_lt, hkept, h.owed, fun hw => ?_, fun hw _ => ?_⟩
      · obtain ⟨hnone, d, hd, hdle⟩ := h.waiting hw
        have hne : front ≠ [] := by
          -- the packet that waits is due, so it keeps the new one behind
          rintro rfl
          rw [nil_append] at hlist
          refine hback d (hlist ▸ List.mem_of_mem_head? hd) (.inr ?_)
          exact hdle.trans hle
        refine ⟨(hsame fun hc => hne hc.1).trans hnone, d, ?_, hdle⟩
        rw [hlist, List.head?_append_of_ne_nil _ hne] at hd
        rw [List.head?_append_of_ne_nil _ hne]
        exact hd
      · by_cases hnil : front = []
        · exact Option.isSome_iff_ne_none.2 (hnew ⟨hnil, hw⟩)
        · show e.isSome = true
          rw [hsame fun hc => hnil hc.1]
          exact h.awake hw (by simp [hlist, hnil])
    · intro msg hmsg
      rcases hspec with hx | ⟨_, _, _, -, -, -, -, -, -, hx, -⟩
      · rcases hx with hx | hx | hx <;> simp only [Link.step, hx, Sim.error_bind] at hmsg <;>
          cases hmsg
        · exact .inl rfl
        · exact .inr rfl
      · simp [Link.step, hx] at hmsg
  | sendEvent reply =>
    obtain ⟨e, he⟩ := Option.isSome_iff_exists.1 hl
    have hw : w.queue.waitingOnRetry = false := by
      by_contra hw
      rw [(h.waiting (by simpa using hw)).1] at he
      cases he
    obtain ⟨hle, dp, hdp, hready⟩ := h.kept.timed e he
    obtain ⟨rest, hlist⟩ := List.head?_eq_some_iff.1 hdp
    have hspec := Inv.send (w := { w with curTick := e })
      (q := { w.queue with sendEvent := none }) (ht.2 e he)
      ⟨h.kept.books.later hle, by simp [Timed]⟩ hw hlist rfl hready rfl ht.1 rfl
    have heval : w.step (.sendEvent reply) = (do
        let q ← sendDeferredPacket { w.queue with sendEvent := none } e reply
        return ((), record { w with curTick := e } q reply)) := by
      simp [Link.step, he, processSendEvent, assert, hw]
    exact .of_call heval hspec
  | retry reply =>
    have hw : w.queue.waitingOnRetry = true := h.owed ▸ hl
    obtain ⟨hnone, dp, hdp, hready⟩ := h.waiting hw
    obtain ⟨rest, hlist⟩ := List.head?_eq_some_iff.1 hdp
    have hspec := Inv.send (w := w) (q := { w.queue with waitingOnRetry := false }) h.cur_lt
      ⟨h.kept.books, h.kept.timed⟩ rfl hlist rfl hready hnone ht rfl
    have heval : w.step (.retry reply) = (do
        let q ← sendDeferredPacket { w.queue with waitingOnRetry := false } w.curTick reply
        return ((), w.record q reply)) := by
      simp [Link.step, PacketQueue.retry, assert, hw]
    exact .of_call heval hspec
  | _ =>
    refine ⟨?_, by simp [AssertsHold, Link.step]⟩
    rintro _ _ ⟨⟩
    exact h.congr_drain _

end Link

end PacketQueue

open PacketQueue

/-- Over legal calls in time no packet is lost, sent twice or sent out of order, the queue is woken
while it has packets, and only the checks of the arguments of `schedSendTiming` can fail. -/
theorem packet_queue_in_order (forceOrder disableSanityCheck : Bool) (os : List PacketQueue.Op)
    (w : Link) (xs : List Unit)
    (hl : Run.Along Link.step (fun w o => w.Legal o ∧ w.Timely o)
      (Link.start forceOrder disableSanityCheck) os)
    (hw : Run.run Link.step (Link.start forceOrder disableSanityCheck) os = .ok (xs, w)) :
    w.InOrder ∧ ∀ o, w.Legal o → w.Timely o → w.AssertsHold o := by
  have h : w.Inv := Run.run_inv (fun _ _ x w' h hl hs => (h.step hl.1 hl.2).1 x w' hs)
    (Link.Inv.start forceOrder disableSanityCheck) hl hw
  exact ⟨h.inOrder, fun o hl ht => (h.step hl ht).2⟩

/-- A packet for the first byte of memory. -/
def somePacket : QueuedPacket := ⟨0, 0, false, false⟩

/-- Two packets, the first refused and sent again; while it is taken, a third is scheduled before
the second. -/
def refusedOps : List PacketQueue.Op :=
  [.schedSendTiming ⟨5, somePacket⟩, .schedSendTiming ⟨8, somePacket⟩, .sendEvent .refuse,
    .elapse 6, .retry (.accept [⟨7, somePacket⟩]), .sendEvent (.accept [])]

theorem packet_queue_in_order_refused : ∃ xs w,
    Run.run Link.step (Link.start false false) refusedOps = .ok (xs, w) ∧ w.InOrder ∧
      w.sent = [⟨5, somePacket⟩, ⟨7, somePacket⟩] := by
  refine ⟨_, _, rfl, (packet_queue_in_order false false refusedOps _ _ ?_ rfl).1, rfl⟩
  refine (Run.along_cons rfl).2 ⟨⟨trivial, show 5 < maxTick by decide⟩, ?_⟩
  refine (Run.along_cons rfl).2 ⟨⟨trivial, show 8 < maxTick by decide⟩, ?_⟩
  refine (Run.along_cons rfl).2 ⟨⟨rfl, trivial, by decide⟩, ?_⟩
  refine (Run.along_cons rfl).2
    ⟨⟨⟨by decide, by decide, by decide⟩, show 6 < maxTick by decide⟩, ?_⟩
  refine (Run.along_cons rfl).2 ⟨⟨rfl, List.forall_mem_singleton.2 (by decide)⟩, ?_⟩
  exact (Run.along_cons rfl).2 ⟨⟨rfl, by simp [Reply.Timely], by decide⟩, trivial⟩

/-- A packet that is never due waits without an event. -/
theorem packet_queue_never_due : ∃ w,
    Run.run Link.step (Link.start false false) [.schedSendTiming ⟨maxTick, somePacket⟩] =
      .ok ([()], w) ∧
      ¬ w.InOrder := by
  refine ⟨_, rfl, fun h => ?_⟩
  rcases h.wake (by decide) with ⟨hw, -⟩ | he
  · exact absurd hw (by decide)
  · exact absurd he (by decide)

end Gem5Nvm
