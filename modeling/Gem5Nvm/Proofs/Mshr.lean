import Gem5Nvm.Mshr

/-!
# The targets of a miss

Every call moves targets between the two lists without making or losing one, and keeps the order of
those of the processor over both lists (`targets_returned_in_order`).

The flags that sum up a list are right after `add` and `populateFlags`. A promotion moves deferred
targets to the others without looking at what they say, so that the flags agree with the targets
exactly when those moved need no flag that is not set (`flags_agree_iff`).
-/

namespace Gem5Nvm

open Sim (bind_eq_ok bind₂_eq_ok)
open List (append_assoc append_nil foldlM_cons map_append map_singleton mem_map nil_append
  not_mem_nil replicate mem_append mem_singleton mem_cons)

theorem MissPacket.needsWritable_eq_ok {pkt : MissPacket} {b : Bool}
    (h : pkt.needsWritable = .ok b) : pkt.cmd.isRequest = true ∧ b = pkt.cmd.needsWritable := by
  unfold MissPacket.needsWritable at h
  obtain ⟨_, ha, h⟩ := bind_eq_ok.1 h
  cases h
  exact ⟨assert_eq_ok.1 ha, rfl⟩

namespace MemCmd

variable (cmd : MemCmd)

theorem needsWritable_replaceUpgrade : cmd.replaceUpgrade.needsWritable = cmd.needsWritable := by
  cases cmd <;> rfl

theorem fromCache_replaceUpgrade : cmd.replaceUpgrade.fromCache = cmd.fromCache := by
  cases cmd <;> rfl

theorem isRequest_replaceUpgrade : cmd.replaceUpgrade.isRequest = cmd.isRequest := by
  cases cmd <;> rfl

theorem isUpgrade_replaceUpgrade (h : cmd.isRequest = true) :
    (cmd.replaceUpgrade.isUpgrade || cmd.replaceUpgrade == .storeCondReq) = false := by
  revert h
  cases cmd <;> decide

theorem hasData_replaceUpgrade :
    (cmd.hasData || cmd.responseCommand.hasData || !cmd.replaceUpgrade.hasData) = true := by
  cases cmd <;> rfl

end MemCmd

theorem replaceUpgrade_eq (pkt : MissPacket) :
    replaceUpgrade pkt = .ok { pkt with cmd := pkt.cmd.replaceUpgrade } := by
  unfold replaceUpgrade
  have h : assert (pkt.cmd.hasData || pkt.hasRespData || !pkt.cmd.replaceUpgrade.hasData)
      "!pkt->hasData()" = .ok () := assert_eq_ok.2 pkt.cmd.hasData_replaceUpgrade
  simp [h]

namespace Target

theorem replaceUpgrade_eq (t : Target) :
    t.replaceUpgrade = .ok { t with pkt := { t.pkt with cmd := t.pkt.cmd.replaceUpgrade } } := by
  simp [replaceUpgrade, Gem5Nvm.replaceUpgrade_eq]

/-- What the flags of a list read of a target. -/
def asks (t : Target) : Source × Bool × MemCmd := (t.source, t.allocOnFill, t.pkt.cmd)

theorem clearDownstreamPending_ok {t t' : Target} (h : t.clearDownstreamPending = .ok t') :
    t'.tag = t.tag ∧ t'.asks = t.asks := by
  unfold clearDownstreamPending at h
  split at h
  · obtain ⟨-, -, h⟩ := bind_eq_ok.1 h
    cases h
    exact ⟨rfl, rfl⟩
  · cases h
    exact ⟨rfl, rfl⟩

end Target

namespace TargetList

variable {l l' : TargetList} {pkt : MissPacket} {source : Source} {a : Bool}

/-! ### The flags -/

theorem fill_length {bitmap bitmap' : List Bool} {offset n : ℕ}
    (h : fill bitmap offset n = .ok bitmap') : bitmap'.length = bitmap.length := by
  unfold fill at h
  split_ifs at h with hle
  cases h
  simp only [List.length_append, List.length_take, List.length_replicate, List.length_drop]
  omega

theorem markWrite_ok (h : l.markWrite pkt = .ok l') :
    ∃ bitmap, bitmap.length = l.writesBitmap.length ∧ l' = { l with writesBitmap := bitmap } := by
  unfold markWrite at h
  obtain ⟨bitmap, hb, h⟩ := bind_eq_ok.1 h
  cases h
  exact ⟨bitmap, fill_length hb, rfl⟩

theorem mergeWrite_ok {c : Bool} (h : l.mergeWrite pkt c = .ok l') :
    ∃ bitmap, bitmap.length = l.writesBitmap.length ∧ l' = { l with writesBitmap := bitmap } := by
  unfold mergeWrite at h
  split_ifs at h
  · exact markWrite_ok h
  · cases h
    exact ⟨l.writesBitmap, rfl, rfl⟩

theorem updateWriteFlags_ok (h : l.updateWriteFlags pkt = .ok l') :
    ∃ c bitmap, bitmap.length = l.writesBitmap.length ∧
      l' = { l with canMergeWrites := c, writesBitmap := bitmap } := by
  unfold updateWriteFlags at h
  split_ifs at h
  · cases h
    exact ⟨l.canMergeWrites, l.writesBitmap, rfl, rfl⟩
  · cases h
    exact ⟨false, l.writesBitmap, rfl, rfl⟩
  · obtain ⟨l₁, h₁, h⟩ := bind_eq_ok.1 h
    obtain ⟨bitmap, hb, rfl⟩ := mergeWrite_ok h₁
    cases h
    exact ⟨_, bitmap, hb, rfl⟩
  · cases h
    exact ⟨l.canMergeWrites, l.writesBitmap, rfl, rfl⟩

/-- What `updateFlags` does to a list, the write flags apart. -/
structure Updated (l l' : TargetList) (pkt : MissPacket) (source : Source) (a : Bool) : Prop where
  items : l'.items = l.items
  needsWritable : l'.needsWritable = (l.needsWritable || (source != .fromSnoop &&
    pkt.cmd.needsWritable))
  hasUpgrade : l'.hasUpgrade = (l.hasUpgrade || (source != .fromSnoop && pkt.isUpgrade))
  allocOnFill : l'.allocOnFill = (l.allocOnFill || (source != .fromSnoop && a))
  hasFromCache : l'.hasFromCache = (l.hasFromCache || (source == .fromCPU && pkt.cmd.fromCache))
  request : source ≠ .fromSnoop → pkt.cmd.isRequest = true
  shape : l'.blkAddr = l.blkAddr ∧ l'.blkSize = l.blkSize ∧
    l'.writesBitmap.length = l.writesBitmap.length

theorem updateFlags_ok (h : l.updateFlags pkt source a = .ok l') : Updated l l' pkt source a := by
  unfold updateFlags at h
  split_ifs at h with hs hp
  · cases h
    constructor <;> simp [hs]
  · obtain ⟨nw, hnw, h⟩ := bind_eq_ok.1 h
    obtain ⟨hreq, rfl⟩ := MissPacket.needsWritable_eq_ok hnw
    cases h
    subst hp
    exact ⟨rfl, rfl, rfl, rfl, (Bool.or_false _).symm, fun _ => hreq, rfl, rfl, rfl⟩
  · obtain ⟨nw, hnw, h⟩ := bind_eq_ok.1 h
    obtain ⟨hreq, rfl⟩ := MissPacket.needsWritable_eq_ok hnw
    have hcpu : source = .fromCPU := by
      cases source
      · rfl
      · exact absurd rfl hs
      · exact absurd rfl hp
    obtain ⟨c, bitmap, hlen, rfl⟩ := updateWriteFlags_ok h
    subst hcpu
    exact ⟨rfl, rfl, rfl, rfl, rfl, fun _ => hreq, rfl, rfl, hlen⟩

variable {t : Target}

theorem Updated.agree (h : Updated l l' t.pkt t.source t.allocOnFill) (hl : l.Agree) :
    ({ l' with items := l.items ++ [t] } : TargetList).Agree := by
  intro u hu hs
  rcases mem_append.1 hu with hu | hu
  · obtain ⟨h1, h2, h3, h4⟩ := hl u hu hs
    refine ⟨fun hb => ?_, fun hb => ?_, fun hb => ?_, fun hc hb => ?_⟩
    · simp [h.needsWritable, h1 hb]
    · simp [h.hasUpgrade, h2 hb]
    · simp [h.allocOnFill, h3 hb]
    · simp [h.hasFromCache, h4 hc hb]
  · rw [mem_singleton] at hu
    subst hu
    have hs' : (u.source != .fromSnoop) = true := by simpa using hs
    refine ⟨fun hb => ?_, fun hb => ?_, fun hb => ?_, fun hc hb => ?_⟩
    · simp [h.needsWritable, hs', hb]
    · simp [h.hasUpgrade, hs', hb]
    · simp [h.allocOnFill, hs', hb]
    · simp [h.hasFromCache, hc, hb]

/-- The targets that ask for something are requests. -/
def Requests (l : TargetList) : Prop :=
  ∀ t ∈ l.items, t.source ≠ .fromSnoop → t.pkt.cmd.isRequest = true

variable {order readyTime : ℕ} {mark : Bool}

theorem add_ok (h : l.add pkt readyTime order source mark a = .ok l') :
    ∃ (l₁ : TargetList) (t : Target), Updated l l₁ t.pkt t.source t.allocOnFill ∧
      l' = { l₁ with items := l.items ++ [t] } ∧ t.source = source ∧
      t.tag = { source, id := pkt.id, readyTime, order, allocOnFill := a } := by
  unfold add at h
  obtain ⟨l₁, h₁, ⟨pkt', marked⟩, hm, h⟩ := bind₂_eq_ok.1 h
  have hu := updateFlags_ok h₁
  have hpkt : pkt'.cmd = pkt.cmd ∧ pkt'.id = pkt.id := by
    unfold markUpstream at hm
    split at hm
    · obtain ⟨-, -, hm⟩ := bind_eq_ok.1 hm
      cases hm
      exact ⟨rfl, rfl⟩
    · cases hm
      exact ⟨rfl, rfl⟩
  cases h
  refine ⟨l₁, { pkt := pkt', readyTime, order, source, markedPending := marked, allocOnFill := a },
    ?_, by rw [hu.items], rfl, by simp [Target.tag, hpkt.2]⟩
  have hup : pkt'.isUpgrade = pkt.isUpgrade := by simp [MissPacket.isUpgrade, hpkt.1]
  exact ⟨hu.items, by rw [hpkt.1, hu.needsWritable], by rw [hup, hu.hasUpgrade], hu.allocOnFill,
    by rw [hpkt.1, hu.hasFromCache], by rw [hpkt.1]; exact hu.request, hu.shape⟩

theorem add_agree (hl : l.Agree) (h : l.add pkt readyTime order source mark a = .ok l') :
    l'.Agree := by
  obtain ⟨l₁, t, hu, rfl, -⟩ := add_ok h
  exact hu.agree hl

theorem add_requests (hl : l.Requests) (h : l.add pkt readyTime order source mark a = .ok l') :
    l'.Requests := by
  obtain ⟨l₁, t, hu, rfl, -⟩ := add_ok h
  intro u hmem hs
  rcases mem_append.1 hmem with hmem | hmem
  · exact hl u hmem hs
  · rw [mem_singleton] at hmem
    subst hmem
    exact hu.request hs

theorem populateFlags_ok (h : l.populateFlags = .ok l') : l'.items = l.items ∧ l'.Agree := by
  -- of the targets behind the loop, the flags so far are right
  have hinv := Loop.foldlM_inv
    (l := l.items)
    (I := fun pre s => s.items = l.items ∧ ({ s with items := pre } : TargetList).Agree)
    (fun pre t rest s s' _ hI hs => by
      have hu := updateFlags_ok hs
      refine ⟨hu.items.trans hI.1, ?_⟩
      have hu' : Updated { s with items := pre } { s' with items := pre } t.pkt t.source
          t.allocOnFill :=
        ⟨rfl, hu.needsWritable, hu.hasUpgrade, hu.allocOnFill, hu.hasFromCache, hu.request,
          hu.shape⟩
      exact hu'.agree hI.2)
    l.items [] (by simp) ⟨rfl, fun t ht => absurd ht not_mem_nil⟩ h
  refine ⟨hinv.1, ?_⟩
  have hag := hinv.2
  rw [← hinv.1] at hag
  exact hag

theorem replaceUpgrades_ok (h : l.replaceUpgrades = .ok l') :
    l' = l ∨ l' = { l with
      items := l.items.map fun t => { t with pkt := { t.pkt with cmd := t.pkt.cmd.replaceUpgrade } }
      hasUpgrade := false } := by
  unfold replaceUpgrades at h
  split_ifs at h
  · cases h
    exact .inl rfl
  · obtain ⟨items, hi, h⟩ := bind_eq_ok.1 h
    cases h
    right
    have hall := Loop.mapM_map_eq (q := id)
      (p := fun t => { t with pkt := { t.pkt with cmd := t.pkt.cmd.replaceUpgrade } })
      (fun t t' ht => by
        rw [Target.replaceUpgrade_eq] at ht
        cases ht
        rfl) hi
    rw [List.map_id] at hall
    rw [hall]

theorem replaceUpgrades_tags (h : l.replaceUpgrades = .ok l') :
    l'.items.map Target.tag = l.items.map Target.tag := by
  rcases replaceUpgrades_ok h with rfl | rfl
  · rfl
  · simp only [List.map_map]
    rfl

theorem replaceUpgrades_requests (hr : l.Requests) (h : l.replaceUpgrades = .ok l') :
    l'.Requests := by
  rcases replaceUpgrades_ok h with rfl | rfl
  · exact hr
  · intro t ht hs
    obtain ⟨u, hu, rfl⟩ := mem_map.1 ht
    simpa only [MemCmd.isRequest_replaceUpgrade] using hr u hu hs

theorem replaceUpgrades_agree (hr : l.Requests) (hl : l.Agree) (h : l.replaceUpgrades = .ok l') :
    l'.Agree := by
  rcases replaceUpgrades_ok h with rfl | rfl
  · exact hl
  · intro t ht hs
    obtain ⟨u, hu, rfl⟩ := mem_map.1 ht
    obtain ⟨h1, -, h3, h4⟩ := hl u hu hs
    refine ⟨?_, ?_, h3, ?_⟩
    · simpa only [MemCmd.needsWritable_replaceUpgrade] using h1
    · intro hup
      have hno := u.pkt.cmd.isUpgrade_replaceUpgrade (hr u hu hs)
      simp only [MissPacket.isUpgrade, hno] at hup
      cases hup
    · simpa only [MemCmd.fromCache_replaceUpgrade] using h4

variable {items : List Target}

theorem exists_asks {t' : Target} (h : items.map Target.asks = l.items.map Target.asks)
    (ht' : t' ∈ items) : ∃ t ∈ l.items, t.source = t'.source ∧
      t.allocOnFill = t'.allocOnFill ∧ t.pkt.cmd = t'.pkt.cmd := by
  obtain ⟨t, ht, hask⟩ : ∃ t ∈ l.items, t.asks = t'.asks := by
    rw [← mem_map, ← h]
    exact List.mem_map_of_mem ht'
  simp only [Target.asks, Prod.mk.injEq] at hask
  exact ⟨t, ht, hask⟩

theorem Agree.of_asks (hl : l.Agree) (h : items.map Target.asks = l.items.map Target.asks) :
    ({ l with items } : TargetList).Agree := by
  intro t' ht' hs
  obtain ⟨t, ht, hsrc, halloc, hcmd⟩ := exists_asks h ht'
  have := hl t ht (by rwa [hsrc])
  simpa only [MissPacket.isUpgrade, hcmd, halloc, hsrc] using this

theorem Requests.of_asks (hl : l.Requests) (h : items.map Target.asks = l.items.map Target.asks) :
    ({ l with items } : TargetList).Requests := by
  intro t' ht' hs
  obtain ⟨t, ht, hsrc, -, hcmd⟩ := exists_asks h ht'
  have := hl t ht (by rwa [hsrc])
  rwa [hcmd] at this

theorem clearDownstreamPending_ok (h : l.clearDownstreamPending = .ok l') :
    ∃ items, l' = { l with items } ∧ items.map Target.tag = l.items.map Target.tag ∧
      items.map Target.asks = l.items.map Target.asks := by
  unfold clearDownstreamPending at h
  obtain ⟨items, hi, h⟩ := bind_eq_ok.1 h
  cases h
  exact ⟨items, rfl,
    Loop.mapM_map_eq (fun t t' ht => (Target.clearDownstreamPending_ok ht).1) hi,
    Loop.mapM_map_eq (fun t t' ht => (Target.clearDownstreamPending_ok ht).2) hi⟩

theorem front_ok (h : l.front = .ok t) : ∃ ts, l.items = t :: ts := by
  unfold front at h
  split at h
  · rename_i t' ts hl
    cases h
    exact ⟨ts, hl⟩
  · cases h

theorem agree_nil (h : l.items = []) : l.Agree := fun t ht => by
  rw [h] at ht
  exact absurd ht not_mem_nil

theorem requests_nil (h : l.items = []) : l.Requests := fun t ht => by
  rw [h] at ht
  exact absurd ht not_mem_nil

theorem Agree.subset (hl : l.Agree) (h : ∀ t ∈ items, t ∈ l.items) :
    ({ l with items } : TargetList).Agree := fun t ht => hl t (h t ht)

end TargetList

namespace Mshr

open TargetList

variable {m m' : Mshr} {pkt : MissPacket}

/-! ### What each call does to the two lists -/

theorem waiting_congr (ht : m'.targets.items.map Target.tag = m.targets.items.map Target.tag)
    (hd : m'.deferredTargets.items.map Target.tag = m.deferredTargets.items.map Target.tag) :
    m'.waiting = m.waiting := by
  simp only [waiting, map_append, ht, hd]

/-- The targets of both lists that ask for something are requests. -/
def AllRequests (m : Mshr) : Prop := m.targets.Requests ∧ m.deferredTargets.Requests

variable {curTick order whenReady : ℕ} {allocOnFill b : Bool}

theorem allocate_ok {blkAddr blkSize : ℕ} (hn : m.getNumTargets = 0)
    (h : m.allocate blkAddr blkSize pkt whenReady order allocOnFill = .ok m') :
    m'.waiting = [⟨sourceOf pkt, pkt.id, whenReady, order, allocOnFill⟩] ∧ m'.targets.Agree ∧
      m'.AllRequests := by
  have hnil : m.targets.items = [] ∧ m.deferredTargets.items = [] := by
    unfold getNumTargets at hn
    exact ⟨List.length_eq_zero_iff.1 (by omega), List.length_eq_zero_iff.1 (by omega)⟩
  unfold allocate at h
  obtain ⟨targets, hadd, first, -, h⟩ := bind₂_eq_ok.1 h
  obtain ⟨-, -, h⟩ := bind_eq_ok.1 h
  have hinit : (m.targets.init blkAddr blkSize).items = [] := hnil.1
  obtain ⟨l₁, t, -, ht, -, htag⟩ := add_ok hadd
  cases h
  refine ⟨?_, add_agree (agree_nil hinit) hadd, add_requests (requests_nil hinit) hadd,
    requests_nil hnil.2⟩
  have hd : (m.deferredTargets.init blkAddr blkSize).items = [] := hnil.2
  simp only [waiting, ht, hinit, hd, nil_append, append_nil, map_singleton, htag]

theorem deferTarget_ok (h : m.deferTarget pkt whenReady order allocOnFill = .ok m') :
    m'.waiting = m.waiting ++ [⟨.fromCPU, pkt.id, whenReady, order, allocOnFill⟩] ∧
      m'.targets = m.targets ∧ (m.AllRequests → m'.AllRequests) := by
  unfold deferTarget at h
  obtain ⟨pkt', hpkt, deferredTargets, hadd, h⟩ := bind₂_eq_ok.1 h
  have hid : pkt'.id = pkt.id := by
    unfold deferredPacket at hpkt
    split_ifs at hpkt
    · rw [replaceUpgrade_eq] at hpkt
      cases hpkt
      rfl
    · cases hpkt
      rfl
  obtain ⟨l₁, t, -, ht, -, htag⟩ := add_ok hadd
  cases h
  refine ⟨?_, rfl, fun hr => ⟨hr.1, add_requests hr.2 hadd⟩⟩
  simp only [waiting, ht, map_append, map_singleton, htag, hid, append_assoc]

theorem appendTarget_ok (hd : m.deferredTargets.items = [])
    (h : m.appendTarget pkt whenReady order allocOnFill = .ok m') :
    m'.waiting = m.waiting ++ [⟨.fromCPU, pkt.id, whenReady, order, allocOnFill⟩] ∧
      (m.targets.Agree → m'.targets.Agree) ∧ (m.AllRequests → m'.AllRequests) := by
  unfold appendTarget at h
  obtain ⟨targets, hadd, h⟩ := bind_eq_ok.1 h
  obtain ⟨l₁, t, -, ht, -, htag⟩ := add_ok hadd
  cases h
  refine ⟨?_, fun ha => add_agree ha hadd, fun hr => ⟨add_requests hr.1 hadd, hr.2⟩⟩
  simp only [waiting, ht, hd, map_append, map_singleton, append_nil, htag]

theorem mustDefer_false {tgtPkt : MissPacket} (h : m.mustDefer tgtPkt pkt = .ok false) :
    m.deferredTargets.items = [] := by
  unfold mustDefer at h
  split_ifs at h with hd
  · cases h
  all_goals
    simp only [Bool.or_eq_true, Bool.not_eq_true', List.isEmpty_eq_false_iff, not_or, not_not,
      ne_eq] at hd
    exact hd.2

theorem allocateTarget_ok (h : m.allocateTarget pkt whenReady order allocOnFill = .ok m') :
    m'.waiting = m.waiting ++ [⟨.fromCPU, pkt.id, whenReady, order, allocOnFill⟩] ∧
      (m.targets.Agree → m'.targets.Agree) ∧ (m.AllRequests → m'.AllRequests) := by
  unfold allocateTarget at h
  obtain ⟨-, -, tgt, -, h⟩ := bind₂_eq_ok.1 h
  obtain ⟨b, hb, h⟩ := bind_eq_ok.1 h
  split_ifs at h with hdefer
  · obtain ⟨hw, ht, hr⟩ := deferTarget_ok h
    exact ⟨hw, by rw [ht]; exact id, hr⟩
  · obtain rfl : b = false := by simpa using hdefer
    exact appendTarget_ok (mustDefer_false hb) h

/-- What a snoop does: it appends at most copies of itself to the targets. -/
structure Snooped (m m' : Mshr) : Prop where
  targets : ∃ saved : List Tag, (∀ t ∈ saved, t.source = .fromSnoop) ∧
    m'.targets.items.map Target.tag = m.targets.items.map Target.tag ++ saved
  deferred : m'.deferredTargets.items.map Target.tag = m.deferredTargets.items.map Target.tag
  agree : m.AllRequests → m.targets.Agree → m'.targets.Agree
  requests : m.AllRequests → m'.AllRequests

namespace Snooped

theorem refl (m : Mshr) : Snooped m m :=
  ⟨⟨[], by simp, by simp⟩, rfl, fun _ h => h, id⟩

theorem trans {m₁ m₂ m₃ : Mshr} (h : Snooped m₁ m₂) (h' : Snooped m₂ m₃) : Snooped m₁ m₃ := by
  obtain ⟨s, hs, ht⟩ := h.targets
  obtain ⟨s', hs', ht'⟩ := h'.targets
  refine ⟨⟨s ++ s', fun t hmem => ?_, by rw [ht', ht, append_assoc]⟩,
    h'.deferred.trans h.deferred, fun hr ha => h'.agree (h.requests hr) (h.agree hr ha),
    fun hr => h'.requests (h.requests hr)⟩
  exact (mem_append.1 hmem).elim (hs t) (hs' t)

end Snooped

variable {invalidating : Bool}

theorem snoopUnissued_snooped (h : m.snoopUnissued invalidating = .ok m') : Snooped m m' := by
  unfold snoopUnissued at h
  split_ifs at h
  · obtain ⟨targets, ht, deferredTargets, hd, h⟩ := bind₂_eq_ok.1 h
    cases h
    exact ⟨⟨[], by simp, by simpa using replaceUpgrades_tags ht⟩, replaceUpgrades_tags hd,
      fun hr ha => replaceUpgrades_agree hr.1 ha ht,
      fun hr => ⟨replaceUpgrades_requests hr.1 ht, replaceUpgrades_requests hr.2 hd⟩⟩
  · cases h
    exact .refl m

theorem snoopDeferred_snooped (h : m.snoopDeferred invalidating = .ok m') : Snooped m m' := by
  unfold snoopDeferred at h
  split_ifs at h
  · obtain ⟨deferredTargets, hd, h⟩ := bind_eq_ok.1 h
    cases h
    exact ⟨⟨[], by simp, by simp⟩, replaceUpgrades_tags hd, fun _ ha => ha,
      fun hr => ⟨hr.1, replaceUpgrades_requests hr.2 hd⟩⟩
  · cases h
    exact .refl m

variable {pkt' : MissPacket}

theorem saveSnoop_snooped {willRespond needsWritable : Bool}
    (h : m.saveSnoop pkt willRespond needsWritable curTick order = .ok (pkt', m')) :
    Snooped m m' := by
  unfold saveSnoop at h
  split_ifs at h
  all_goals try
    obtain ⟨pkt₁, -, targets, hadd, h⟩ := bind₂_eq_ok.1 h
    obtain ⟨l₁, t, -, ht, hsrc, htag⟩ := add_ok hadd
    cases h
    refine ⟨⟨[t.tag], fun u hu => ?_, by simp [ht]⟩, rfl, fun _ ha => add_agree ha hadd,
      fun hr => ⟨add_requests hr.1 hadd, hr.2⟩⟩
    rw [mem_singleton.1 hu, htag]
  cases h
  exact .refl m

theorem snoopIssued_snooped {needsWritable : Bool}
    (h : m.snoopIssued pkt needsWritable curTick order = .ok (b, pkt', m')) : Snooped m m' := by
  unfold snoopIssued at h
  obtain ⟨tgt, -, h⟩ := bind_eq_ok.1 h
  split_ifs at h
  · cases h
    exact .refl m
  · obtain ⟨⟨pkt₁, m₁⟩, hsave, h⟩ := bind_eq_ok.1 h
    have hs := saveSnoop_snooped hsave
    dsimp only at h
    split_ifs at h
    · cases h
      exact ⟨hs.targets, hs.deferred, hs.agree, hs.requests⟩
    · cases h
      exact hs

theorem handleSnoop_snooped (h : m.handleSnoop pkt curTick order = .ok (b, pkt', m')) :
    Snooped m m' := by
  unfold handleSnoop at h
  obtain ⟨needsWritable, -, -, -, h⟩ := bind₂_eq_ok.1 h
  dsimp only at h
  split_ifs at h
  · obtain ⟨m₁, hm₁, h⟩ := bind_eq_ok.1 h
    cases h
    exact snoopUnissued_snooped hm₁
  · obtain ⟨m₁, hm₁, h⟩ := bind_eq_ok.1 h
    exact (snoopDeferred_snooped hm₁).trans (snoopIssued_snooped h)

theorem takeSnoops_ok :
    ∀ {ts ready left : List Target}, takeSnoops ts = .ok (ready, left) →
      left = ts.filter (·.source = .fromCPU) ∧ ready = ts.filter (·.source ≠ .fromCPU) ∧
        (∀ t ∈ ready, t.source = .fromSnoop) ∧ ts.Perm (ready ++ left)
  | [], ready, left, h => by
    cases h
    exact ⟨rfl, rfl, by simp, .refl _⟩
  | t :: ts, ready, left, h => by
    unfold takeSnoops at h
    split_ifs at h with hcpu
    · obtain ⟨⟨ready', left'⟩, hts, h⟩ := bind_eq_ok.1 h
      obtain ⟨hl, hf, hr, hp⟩ := takeSnoops_ok hts
      cases h
      exact ⟨by simp [hcpu, hl], by simp [hcpu, hf], hr, (hp.cons t).trans List.perm_middle.symm⟩
    · obtain ⟨_, hsnoop, ⟨ready', left'⟩, hts, h⟩ := bind₂_eq_ok.1 h
      obtain ⟨hl, hf, hr, hp⟩ := takeSnoops_ok hts
      cases h
      have hsrc : t.source = .fromSnoop := by simpa using assert_eq_ok.1 hsnoop
      refine ⟨by simp [hcpu, hl], by simp [hcpu, hf], fun u hu => ?_, hp.cons t⟩
      rcases mem_cons.1 hu with rfl | hu
      · exact hsrc
      · exact hr u hu

/-- The targets of the processor among some. -/
def cpu (l : List Tag) : List Tag := l.filter Tag.isCPU

theorem cpu_append (l l' : List Tag) : cpu (l ++ l') = cpu l ++ cpu l' := List.filter_append ..

theorem cpu_of_snoops {l : List Tag} (h : ∀ t ∈ l, t.source = .fromSnoop) : cpu l = [] := by
  refine List.filter_eq_nil_iff.2 fun t ht => ?_
  simp [Tag.isCPU, h t ht]

theorem cpu_map_filter (ts : List Target) :
    cpu ((ts.filter (·.source = .fromCPU)).map Target.tag) = cpu (ts.map Target.tag) := by
  have hfun : (Tag.isCPU ∘ Target.tag) = fun t : Target => decide (t.source = .fromCPU) := by
    funext t
    simp [Tag.isCPU, Target.tag, beq_eq_decide]
  simp only [cpu, List.filter_map, hfun, List.filter_filter, Bool.and_self]

/-- What a call returned and what still waits are what waited before and what it added, those of
the processor in the order they came. -/
structure Serves (m m' : Mshr) (a : Answer) : Prop where
  perm : (m.waiting ++ a.added).Perm (a.returned ++ m'.waiting)
  order : cpu (m.waiting ++ a.added) = cpu (a.returned ++ m'.waiting)

variable {a : Answer}

theorem Serves.of_waiting (hr : a.returned = []) (h : m'.waiting = m.waiting ++ a.added) :
    Serves m m' a := by
  constructor <;> rw [hr, h, nil_append]

variable {ready : TargetList}

theorem extractFirst_ok (h : m.extractFirst = .ok (ready, m')) :
    Serves m m' { returned := ready.items.map Target.tag } ∧ m'.targets.Agree ∧
      (m.AllRequests → m'.AllRequests) := by
  unfold extractFirst at h
  obtain ⟨tgt, htgt, -, -, h⟩ := bind₂_eq_ok.1 h
  obtain ⟨⟨rs, left⟩, hts, readyTargets, hready, h⟩ := bind₂_eq_ok.1 h
  obtain ⟨targets, htargets, h⟩ := bind_eq_ok.1 h
  cases h
  obtain ⟨ts, hitems⟩ := front_ok htgt
  rw [hitems, List.tail_cons] at hts
  obtain ⟨hl, -, hr, hp⟩ := takeSnoops_ok hts
  obtain ⟨hri, -⟩ := populateFlags_ok hready
  obtain ⟨hti, hagree⟩ := populateFlags_ok htargets
  refine ⟨⟨?_, ?_⟩, hagree, fun hreq => ⟨fun t ht hs => ?_, hreq.2⟩⟩
  · simp only [waiting, hri, hti, hitems, append_nil, map_append, List.map_cons,
      List.cons_append, ← append_assoc]
    exact (((hp.map Target.tag).trans (by rw [map_append])).append_right _).cons _
  · have hnone : cpu (rs.map Target.tag) = [] := cpu_of_snoops fun t ht => by
      obtain ⟨u, hu, rfl⟩ := mem_map.1 ht
      exact hr u hu
    have hcons : ∀ l : List Target, tgt :: l = [tgt] ++ l := fun l => rfl
    simp only [waiting, hri, hti, hitems, append_nil, map_append, cpu_append,
      hcons ts, hcons rs, hnone, hl, cpu_map_filter, append_assoc, nil_append]
  · rw [hti] at ht
    refine hreq.1 t ?_ hs
    rw [hitems]
    exact List.mem_cons_of_mem _ (hp.mem_iff.2 (List.mem_append_right _ ht))

theorem extractAll_ok (h : m.extractAll = .ok (ready, m')) :
    Serves m m' { returned := ready.items.map Target.tag } ∧ m'.targets.Agree ∧
      (m.AllRequests → m'.AllRequests) := by
  unfold extractAll at h
  obtain ⟨targets, htargets, h⟩ := bind_eq_ok.1 h
  cases h
  obtain ⟨hti, hagree⟩ := populateFlags_ok htargets
  have hnil : targets.items = [] := hti
  have hw : m.waiting = m.targets.items.map Target.tag ++
      ({ m with targets } : Mshr).waiting := by
    simp [waiting, hnil]
  refine ⟨⟨?_, ?_⟩, hagree, fun hreq => ⟨requests_nil hnil, hreq.2⟩⟩
  · rw [append_nil, hw]
  · rw [append_nil, hw]

theorem waiting_splice (m : Mshr) (n : ℕ) : (m.splice n).waiting = m.waiting := by
  simp [waiting, splice]

theorem promoteDeferredTargets_ok (h : m.promoteDeferredTargets curTick = .ok (b, m')) :
    m'.waiting = m.waiting ∧ (m.targets.Agree → m'.targets.Agree) ∧
      (m.AllRequests → m'.AllRequests) := by
  unfold promoteDeferredTargets at h
  split_ifs at h
  · cases h
    exact ⟨rfl, id, id⟩
  · obtain ⟨deferredTargets, hd, targets, ht, h⟩ := bind₂_eq_ok.1 h
    obtain ⟨first, -, h⟩ := bind_eq_ok.1 h
    cases h
    obtain ⟨hdi, -⟩ := populateFlags_ok hd
    obtain ⟨hti, hagree⟩ := populateFlags_ok ht
    refine ⟨?_, fun _ => hagree, fun hreq => ⟨fun t hmem hs => ?_, fun t hmem hs => ?_⟩⟩
    · rw [← waiting_splice m m.promotable]
      exact waiting_congr (by rw [hti]) (by rw [hdi])
    · rw [hti] at hmem
      rcases mem_append.1 hmem with hmem | hmem
      · exact hreq.1 t hmem hs
      · exact hreq.2 t (List.mem_of_mem_take hmem) hs
    · rw [hdi] at hmem
      exact hreq.2 t (List.mem_of_mem_drop hmem) hs

variable {pred : Target → Sim Bool}

theorem findIfNot_ok {p : Target → Bool}
    (hpred : ∀ t b, pred t = .ok b → t.source = .fromCPU ∧ b = p t) :
    ∀ {ts : List Target} {n : ℕ}, findIfNot pred ts = .ok n →
      n = (ts.takeWhile p).length ∧ ∀ t ∈ ts.take n, t.source = .fromCPU ∧ p t = true
  | [], n, h => by
    cases h
    exact ⟨rfl, by simp⟩
  | t :: ts, n, h => by
    unfold findIfNot at h
    obtain ⟨b, hb, h⟩ := bind_eq_ok.1 h
    obtain ⟨hsrc, rfl⟩ := hpred t b hb
    split_ifs at h with hp
    · obtain ⟨k, hk, h⟩ := bind_eq_ok.1 h
      obtain ⟨hlen, hall⟩ := findIfNot_ok hpred hk
      cases h
      refine ⟨by simp [hp, hlen], fun u hu => ?_⟩
      rw [List.take_succ_cons] at hu
      rcases mem_cons.1 hu with rfl | hu
      · exact ⟨hsrc, hp⟩
      · exact hall u hu
    · cases h
      exact ⟨by simp [hp], by simp⟩

/-- What a promotion moves: targets that ask for the same as the first `n` deferred ones. -/
structure Promoted (m m' : Mshr) (n : ℕ) : Prop where
  targets : ∃ moved, m'.targets = { m.targets with items := m.targets.items ++ moved } ∧
    moved.map Target.asks = (m.deferredTargets.items.take n).map Target.asks
  waiting : m'.waiting = m.waiting
  requests : m.AllRequests → m'.AllRequests

variable {p : Target → Bool}

theorem promoteIf_ok (hpred : ∀ t b, pred t = .ok b → t.source = .fromCPU ∧ b = p t)
    (h : m.promoteIf pred = .ok m') :
    Promoted m m' (m.deferredTargets.items.takeWhile p).length ∧
      ∀ t ∈ m.deferredTargets.items.take (m.deferredTargets.items.takeWhile p).length,
        t.source = .fromCPU ∧ p t = true := by
  unfold promoteIf at h
  obtain ⟨-, -, n, hn, h⟩ := bind₂_eq_ok.1 h
  obtain ⟨before, hb, deferredTargets, hd, h⟩ := bind₂_eq_ok.1 h
  cases h
  obtain ⟨hlen, hall⟩ := findIfNot_ok hpred hn
  obtain ⟨hdi, -⟩ := populateFlags_ok hd
  have htags : before.map Target.tag = (m.deferredTargets.items.take n).map Target.tag :=
    Loop.mapM_map_eq (fun t t' ht => (Target.clearDownstreamPending_ok ht).1) hb
  have hasks : before.map Target.asks = (m.deferredTargets.items.take n).map Target.asks :=
    Loop.mapM_map_eq (fun t t' ht => (Target.clearDownstreamPending_ok ht).2) hb
  have hnb : before.length = n := by
    have := congrArg List.length hasks
    have hle : n ≤ m.deferredTargets.items.length := by
      rw [hlen]
      exact (List.takeWhile_sublist p).length_le
    simpa [hle] using this
  -- the splice takes exactly the targets whose marks were cleared
  have htake : (before ++ m.deferredTargets.items.drop n).take n = before := by
    rw [← hnb, List.take_left']
    rfl
  have hdrop : (before ++ m.deferredTargets.items.drop n).drop n =
      m.deferredTargets.items.drop n := by
    rw [List.drop_left' hnb]
  simp only [splice, htake, hdrop] at hdi ⊢
  rw [← hlen]
  refine ⟨⟨⟨before, rfl, hasks⟩, ?_, fun hreq => ⟨?_, fun t hmem hs => ?_⟩⟩, hall⟩
  · simp only [Mshr.waiting, hdi, map_append, htags, append_assoc]
    rw [← map_append, List.take_append_drop]
  · intro t hmem hs
    rcases mem_append.1 hmem with hmem | hmem
    · exact hreq.1 t hmem hs
    · have hsub : ({ m.deferredTargets with
          items := m.deferredTargets.items.take n } : TargetList).Requests :=
        fun u hu => hreq.2 u (List.mem_of_mem_take hu)
      exact Requests.of_asks hsub hasks t hmem hs
  · rw [hdi] at hmem
    exact hreq.2 t (List.mem_of_mem_drop hmem) hs

theorem readable_ok (h : readable t = .ok b) :
    t.source = .fromCPU ∧ b = (!t.pkt.req.isCacheInvalidate && !t.pkt.cmd.needsWritable) := by
  unfold readable at h
  obtain ⟨_, ha, h⟩ := bind_eq_ok.1 h
  refine ⟨by simpa using assert_eq_ok.1 ha, ?_⟩
  split_ifs at h with hi
  · cases h
    simp [hi]
  · obtain ⟨nw, hnw, h⟩ := bind_eq_ok.1 h
    cases h
    simp [hi, (MissPacket.needsWritable_eq_ok hnw).2]

theorem writable_ok (h : writable t = .ok b) :
    t.source = .fromCPU ∧ b = !t.pkt.req.isCacheInvalidate := by
  unfold writable at h
  obtain ⟨_, ha, h⟩ := bind_eq_ok.1 h
  cases h
  exact ⟨by simpa using assert_eq_ok.1 ha, rfl⟩

theorem Promoted.none (m : Mshr) : Promoted m m 0 :=
  ⟨⟨[], by simp, by simp⟩, rfl, id⟩

theorem Promoted.agree_iff {n : ℕ} (h : Promoted m m' n) (ha : m.targets.Agree)
    (hcpu : ∀ t ∈ m.deferredTargets.items.take n, t.source = .fromCPU)
    (hnw : ∀ t ∈ m.deferredTargets.items.take n, t.pkt.cmd.needsWritable = true →
      m.targets.needsWritable = true) : m'.targets.Agree ↔ m.Covered n := by
  obtain ⟨moved, ht, hasks⟩ := h.targets
  rw [ht]
  -- what holds of the deferred targets holds of those they became
  have hiff : ∀ P : Source × Bool × MemCmd → Prop,
      (∀ t ∈ moved, P t.asks) ↔ ∀ t ∈ m.deferredTargets.items.take n, P t.asks := by
    intro P
    rw [← List.forall_mem_map (f := Target.asks), hasks, List.forall_mem_map]
  constructor
  · intro hagree
    have hmoved := (hiff fun x => x.1 ≠ .fromSnoop →
        ((x.2.2.isUpgrade || x.2.2 == .storeCondReq) = true → m.targets.hasUpgrade = true) ∧
        (x.2.1 = true → m.targets.allocOnFill = true) ∧
        (x.1 = .fromCPU → x.2.2.fromCache = true → m.targets.hasFromCache = true)).1
      fun t hmem hs => (hagree t (List.mem_append_right _ hmem) hs).2
    intro t hmem
    have hsrc := hcpu t hmem
    obtain ⟨h2, h3, h4⟩ := hmoved t hmem (by simp [Target.asks, hsrc])
    exact ⟨h2, h3, h4 hsrc⟩
  · intro hcov t hmem hs
    rcases mem_append.1 hmem with hmem | hmem
    · exact ha t hmem hs
    · exact (hiff fun x =>
        (x.2.2.needsWritable = true → m.targets.needsWritable = true) ∧
        ((x.2.2.isUpgrade || x.2.2 == .storeCondReq) = true → m.targets.hasUpgrade = true) ∧
        (x.2.1 = true → m.targets.allocOnFill = true) ∧
        (x.1 = .fromCPU → x.2.2.fromCache = true → m.targets.hasFromCache = true)).2
        (fun u hu => ⟨hnw u hu, (hcov u hu).1, (hcov u hu).2.1, fun _ => (hcov u hu).2.2⟩) t hmem

theorem promoteReadable_ok (h : m.promoteReadable = .ok m') :
    Promoted m m' m.readablePrefix ∧
      (m.targets.Agree → (m'.targets.Agree ↔ m.Covered m.readablePrefix)) := by
  unfold promoteReadable at h
  split_ifs at h with hd
  · cases h
    have hnil : m.deferredTargets.items = [] := by simpa using hd
    have hz : m.readablePrefix = 0 := by
      unfold readablePrefix
      split_ifs <;> simp [hnil]
    rw [hz]
    exact ⟨.none m, fun ha => Promoted.agree_iff (.none m) ha (by simp) (by simp)⟩
  · obtain ⟨b, hb, h⟩ := bind_eq_ok.1 h
    obtain ⟨-, -, hb⟩ := bind_eq_ok.1 hb
    cases hb
    split_ifs at h with hpost
    · have hpost' : m.postInvalidate = false := by simpa using hpost
      obtain ⟨hprom, hall⟩ := promoteIf_ok (fun t b => readable_ok) h
      have hn : m.readablePrefix = (m.deferredTargets.items.takeWhile fun t =>
          !t.pkt.req.isCacheInvalidate && !t.pkt.cmd.needsWritable).length := by
        simp [readablePrefix, hpost']
      rw [hn]
      refine ⟨hprom, fun ha => hprom.agree_iff ha (fun t ht => (hall t ht).1) fun t ht hw => ?_⟩
      have := (hall t ht).2
      simp [hw] at this
    · cases h
      have hz : m.readablePrefix = 0 := by
        have : m.postInvalidate = true := by simpa using hpost
        simp [readablePrefix, this]
      rw [hz]
      exact ⟨.none m, fun ha => Promoted.agree_iff (.none m) ha (by simp) (by simp)⟩

theorem promoteWritable_ok (h : m.promoteWritable = .ok m') :
    ∃ b : Bool, Promoted { m with targets := { m.targets with needsWritable := b } } m'
        m.writablePrefix ∧
      (m.targets.Agree → (m'.targets.Agree ↔ m.Covered m.writablePrefix)) := by
  have hstay : m.writablePrefix = 0 → m' = m → ∃ b : Bool,
      Promoted { m with targets := { m.targets with needsWritable := b } } m' m.writablePrefix ∧
        (m.targets.Agree → (m'.targets.Agree ↔ m.Covered m.writablePrefix)) := by
    rintro hz rfl
    rw [hz]
    exact ⟨m'.targets.needsWritable, .none m',
      fun ha => Promoted.agree_iff (.none m') ha (by simp) (by simp)⟩
  unfold promoteWritable at h
  split_ifs at h with hw
  · obtain ⟨pi, hpi, h⟩ := bind_eq_ok.1 h
    obtain ⟨-, -, hpi⟩ := bind_eq_ok.1 hpi
    cases hpi
    obtain ⟨pd, hpd, h⟩ := bind_eq_ok.1 h
    obtain ⟨-, -, hpd⟩ := bind_eq_ok.1 hpd
    cases hpd
    split_ifs at h with hpost
    · cases h
      exact hstay (by simp [writablePrefix, hpost]) rfl
    · obtain ⟨first, hfirst, h⟩ := bind_eq_ok.1 h
      obtain ⟨ts, hitems⟩ := front_ok hfirst
      have hn : m.writablePrefix =
          (m.deferredTargets.items.takeWhile fun t => !t.pkt.req.isCacheInvalidate).length := by
        simp only [writablePrefix, hw, Bool.not_true, Bool.or_false]
        rw [if_neg hpost]
      split_ifs at h with hinv
      · cases h
        exact hstay (by simp [hn, hitems, hinv]) rfl
      · obtain ⟨-, -, h⟩ := bind_eq_ok.1 h
        obtain ⟨hprom, hall⟩ := promoteIf_ok (fun t b => writable_ok) h
        rw [hn]
        refine ⟨true, hprom, fun ha => ?_⟩
        have ha' : ({ m.targets with needsWritable := true } : TargetList).Agree :=
          fun t ht hs => ⟨fun _ => rfl, (ha t ht hs).2⟩
        exact hprom.agree_iff ha' (fun t ht => (hall t ht).1) fun _ _ _ => rfl
  · cases h
    exact hstay (by simp [writablePrefix, hw]) rfl

/-! ### Calls and runs -/

theorem quiet_ok {call : Sim Mshr} (h : quiet call = .ok (a, m')) : call = .ok m' ∧ a = {} := by
  unfold quiet at h
  obtain ⟨m₁, hm₁, h⟩ := bind_eq_ok.1 h
  cases h
  exact ⟨hm₁, rfl⟩

structure Stepped (m m' : Mshr) (o : Op) (a : Answer) : Prop where
  serves : o ≠ .popTarget → Serves m m' a
  requests : m.AllRequests → m'.AllRequests
  agree : m.AllRequests → m.targets.Agree → (m'.targets.Agree ↔ m.FlagsCover o)

variable {o : Op}

theorem Stepped.of_eq (ht : m'.targets = m.targets) (hd : m'.deferredTargets = m.deferredTargets)
    (hc : m.FlagsCover o) : Stepped m m' o {} := by
  refine ⟨fun _ => .of_waiting rfl ?_, fun hr => ?_, fun _ ha => ?_⟩
  · simp [waiting, ht, hd]
  · rwa [AllRequests, ht, hd]
  · rw [ht]
    exact iff_of_true ha hc

theorem Stepped.of_cleared {targets : TargetList}
    (hclear : m.targets.clearDownstreamPending = .ok targets) (ht : m'.targets = targets)
    (hd : m'.deferredTargets = m.deferredTargets) (hc : m.FlagsCover o) : Stepped m m' o {} := by
  obtain ⟨items, rfl, htag, hask⟩ := TargetList.clearDownstreamPending_ok hclear
  refine ⟨fun _ => .of_waiting rfl ?_, fun hr => ?_, fun _ ha => ?_⟩
  · simpa using waiting_congr (by rw [ht, htag]) (by rw [hd])
  · rw [AllRequests, ht, hd]
    exact ⟨hr.1.of_asks hask, hr.2⟩
  · rw [ht]
    exact iff_of_true (ha.of_asks hask) hc

theorem step_ok (h : m.step o = .ok (a, m')) : Stepped m m' o a := by
  cases o with
  | allocate blkAddr blkSize target whenReady order allocOnFill =>
    obtain ⟨_, hn, m₁, hm₁, h⟩ := bind₂_eq_ok.1 h
    cases h
    have hn' : m.getNumTargets = 0 := by simpa using assert_eq_ok.1 hn
    obtain ⟨hw, hagree, hreq⟩ := allocate_ok hn' hm₁
    have hnil : m.waiting = [] := by
      unfold getNumTargets at hn'
      rw [← List.length_eq_zero_iff]
      simpa [waiting] using hn'
    exact ⟨fun _ => .of_waiting rfl (by rw [hw, hnil, nil_append]), fun _ => hreq,
      fun _ _ => iff_of_true hagree trivial⟩
  | allocateTarget pkt whenReady order allocOnFill =>
    obtain ⟨m₁, hm₁, h⟩ := bind_eq_ok.1 h
    cases h
    obtain ⟨hw, hagree, hreq⟩ := allocateTarget_ok hm₁
    exact ⟨fun _ => .of_waiting rfl hw, hreq, fun _ ha => iff_of_true (hagree ha) trivial⟩
  | handleSnoop pkt curTick order =>
    obtain ⟨⟨b, pkt', m₁⟩, hm₁, h⟩ := bind_eq_ok.1 h
    cases h
    have hs := handleSnoop_snooped hm₁
    obtain ⟨extra, hextra, ht⟩ := hs.targets
    have hsaved : m.saved m' = extra := by
      rw [saved, List.map_drop, ht]
      exact List.drop_left' (by simp)
    refine ⟨fun _ => ⟨?_, ?_⟩, hs.requests, fun hr ha => iff_of_true (hs.agree hr ha) trivial⟩
    · simp only [waiting, map_append, ht, hs.deferred, hsaved, nil_append,
        append_assoc]
      exact List.perm_append_comm.append_left _
    · simp only [waiting, map_append, ht, hs.deferred, hsaved, nil_append, cpu_append,
        cpu_of_snoops hextra, append_nil]
  | markInService pendingModifiedResp =>
    obtain ⟨hq, rfl⟩ := quiet_ok h
    obtain ⟨-, -, targets, ht, hq⟩ := bind₂_eq_ok.1 hq
    cases hq
    unfold issuedTargets at ht
    split_ifs at ht
    · exact .of_cleared ht rfl rfl trivial
    · cases ht
      exact .of_eq rfl rfl trivial
  | extractServiceableTargets cmd =>
    obtain ⟨⟨ready, m₁⟩, hm₁, h⟩ := bind_eq_ok.1 h
    cases h
    have hex : Serves m m' { returned := ready.items.map Target.tag } ∧ m'.targets.Agree ∧
        (m.AllRequests → m'.AllRequests) := by
      unfold extractServiceableTargets at hm₁
      split_ifs at hm₁
      · exact extractFirst_ok hm₁
      · exact extractAll_ok hm₁
    exact ⟨fun _ => hex.1, hex.2.2, fun _ _ => iff_of_true hex.2.1 trivial⟩
  | promoteReadable =>
    obtain ⟨hq, rfl⟩ := quiet_ok h
    obtain ⟨hprom, hagree⟩ := promoteReadable_ok hq
    exact ⟨fun _ => .of_waiting rfl (by simpa using hprom.waiting), hprom.requests,
      fun _ ha => hagree ha⟩
  | promoteWritable =>
    obtain ⟨hq, rfl⟩ := quiet_ok h
    obtain ⟨b, hprom, hagree⟩ := promoteWritable_ok hq
    have hw : m'.waiting = m.waiting := hprom.waiting
    exact ⟨fun _ => .of_waiting rfl (by simpa using hw), hprom.requests, fun _ ha => hagree ha⟩
  | promoteDeferredTargets curTick =>
    obtain ⟨⟨b, m₁⟩, hm₁, h⟩ := bind_eq_ok.1 h
    cases h
    obtain ⟨hw, hagree, hreq⟩ := promoteDeferredTargets_ok hm₁
    exact ⟨fun _ => .of_waiting rfl (by simpa using hw), hreq,
      fun _ ha => iff_of_true (hagree ha) trivial⟩
  | popTarget =>
    obtain ⟨hq, rfl⟩ := quiet_ok h
    unfold popTarget at hq
    split at hq
    · cases hq
    · rename_i t ts hts
      cases hq
      have hsub : ∀ u ∈ ts, u ∈ m.targets.items := fun u hu => by
        rw [hts]
        exact List.mem_cons_of_mem _ hu
      exact ⟨fun hne => absurd rfl hne, fun hr => ⟨fun u hu => hr.1 u (hsub u hu), hr.2⟩,
        fun _ ha => iff_of_true (ha.subset hsub) trivial⟩
  | deallocate =>
    obtain ⟨hq, rfl⟩ := quiet_ok h
    obtain ⟨_, hempty, -, -, hq⟩ := bind₂_eq_ok.1 hq
    cases hq
    have hnil : m.targets.items = [] := by simpa using assert_eq_ok.1 hempty
    exact ⟨fun _ => .of_waiting rfl (by simp [waiting, resetFlags]),
      fun hr => ⟨requests_nil hnil, hr.2⟩, fun _ _ => iff_of_true (agree_nil hnil) trivial⟩
  | setForward isForward =>
    cases h
    exact .of_eq rfl rfl trivial
  | clearDownstreamPending =>
    obtain ⟨hq, rfl⟩ := quiet_ok h
    obtain ⟨-, -, targets, ht, hq⟩ := bind₂_eq_ok.1 hq
    cases hq
    exact .of_cleared ht rfl rfl trivial
  | _ =>
    obtain ⟨hq, rfl⟩ := quiet_ok h
    obtain ⟨-, -, hq⟩ := bind_eq_ok.1 hq
    cases hq
    exact .of_eq rfl rfl trivial

theorem extractServiceableTargets_moves {cmd : MemCmd}
    (h : m.extractServiceableTargets cmd = .ok (ready, m')) :
    ready.items = (serviceable cmd m.targets.items).1 ∧
      m'.targets.items = (serviceable cmd m.targets.items).2 ∧
      m'.deferredTargets = m.deferredTargets := by
  unfold extractServiceableTargets at h
  unfold serviceable
  split_ifs at h ⊢
  · unfold extractFirst at h
    obtain ⟨tgt, htgt, -, -, h⟩ := bind₂_eq_ok.1 h
    obtain ⟨⟨rs, left⟩, hts, readyTargets, hready, h⟩ := bind₂_eq_ok.1 h
    obtain ⟨targets, htargets, h⟩ := bind_eq_ok.1 h
    cases h
    obtain ⟨ts, hitems⟩ := front_ok htgt
    obtain ⟨rfl, rfl, -, -⟩ := takeSnoops_ok hts
    exact ⟨by rw [(populateFlags_ok hready).1, hitems]; rfl, (populateFlags_ok htargets).1, rfl⟩
  · unfold extractAll at h
    obtain ⟨targets, htargets, h⟩ := bind_eq_ok.1 h
    cases h
    exact ⟨rfl, (populateFlags_ok htargets).1, rfl⟩

theorem promoteDeferredTargets_moves (h : m.promoteDeferredTargets curTick = .ok (b, m'))
    (hnil : m.targets.items = []) : m'.targets.items.head? = m.deferredTargets.items.head? := by
  unfold promoteDeferredTargets at h
  split_ifs at h with hempty
  · cases h
    simp_all
  · obtain ⟨deferredTargets, -, targets, ht, h⟩ := bind₂_eq_ok.1 h
    obtain ⟨first, -, h⟩ := bind_eq_ok.1 h
    cases h
    -- a list that is not empty has at least one target to promote
    have hpos : 0 < m.promotable := by
      unfold promotable
      simp only [hnil, List.isEmpty_nil, if_true]
      split_ifs with hbefore
      · exact Nat.one_pos
      · exact List.length_pos_iff.2 (by simpa using hbefore)
    rw [(populateFlags_ok ht).1]
    simp [splice, hnil, List.head?_take, hpos.ne']

theorem step_moves (h : m.step o = .ok (a, m')) : Moves m a m' o := by
  cases o with
  | extractServiceableTargets cmd =>
    obtain ⟨⟨ready, m₁⟩, hm₁, h⟩ := bind_eq_ok.1 h
    cases h
    obtain ⟨hready, hleft⟩ := extractServiceableTargets_moves hm₁
    exact ⟨by rw [hready], hleft⟩
  | promoteDeferredTargets curTick =>
    obtain ⟨⟨b, m₁⟩, hm₁, h⟩ := bind_eq_ok.1 h
    cases h
    exact promoteDeferredTargets_moves hm₁
  | _ => trivial

/-- Over every run of calls on an `MSHR`, the targets added are those returned and those that wait,
each once, and none waits when the `MSHR` has no targets; every response returns all targets but
those that have to ask again. The targets of the processor are returned in the order in which they
were added, those put off after the others. -/
theorem targets_returned_in_order {ops : List Op} {as : List Answer} {m : Mshr}
    (hops : ∀ o ∈ ops, o ≠ .popTarget) (h : Run.run step {} ops = .ok (as, m)) :
    (as.flatMap Answer.added).Perm (as.flatMap Answer.returned ++ m.waiting) ∧
      (m.getNumTargets = 0 → (as.flatMap Answer.added).Perm (as.flatMap Answer.returned)) ∧
      Run.Along step (fun m o => ∀ a m', m.step o = .ok (a, m') → Moves m a m' o) {} ops ∧
      cpu (as.flatMap Answer.added) = cpu (as.flatMap Answer.returned) ++
        cpu (m.targets.items.map Target.tag) ++ cpu (m.deferredTargets.items.map Target.tag) := by
  have halong : Run.Along step (fun _ o => o ≠ .popTarget) {} ops := Run.along_of_forall hops _
  have hinv := Run.run_inv_answers
    (I := fun as m => (as.flatMap Answer.added).Perm (as.flatMap Answer.returned ++ m.waiting) ∧
      cpu (as.flatMap Answer.added) = cpu (as.flatMap Answer.returned ++ m.waiting))
    (fun as m o a m' hI ho hs => by
      have hserves := (step_ok hs).serves ho
      simp only [List.flatMap_append, List.flatMap_singleton]
      constructor
      · calc as.flatMap Answer.added ++ a.added
            _ |>.Perm (as.flatMap Answer.returned ++ m.waiting ++ a.added) := hI.1.append_right _
            _ |>.Perm (as.flatMap Answer.returned ++ (a.returned ++ m'.waiting)) := by
              rw [append_assoc]
              exact hserves.perm.append_left _
            _ |>.Perm (as.flatMap Answer.returned ++ a.returned ++ m'.waiting) := by
              rw [append_assoc]
      · rw [cpu_append, hI.2, cpu_append, append_assoc, ← cpu_append, hserves.order,
          ← cpu_append, append_assoc])
    ops [] ⟨.refl _, rfl⟩ halong h
  refine ⟨hinv.1, fun hnone => ?_, ?_, ?_⟩
  · have hnil : m.waiting = [] :=
      List.eq_nil_of_length_eq_zero (by simpa [waiting, getNumTargets] using hnone)
    simpa [hnil] using hinv.1
  · exact Run.along_imp (I := fun _ => True)
      (fun _ _ _ _ => ⟨fun _ _ hs => step_moves hs, fun _ _ _ => trivial⟩) ops trivial halong
  · rw [append_assoc, ← cpu_append, ← map_append, ← cpu_append]
    exact hinv.2

/-- A clean of the line with a read and a write put off behind it: the read is promoted with the
response, the write asks for the line again. Then two reads, of which the second has to ask again
when the response comes with an invalidation. -/
def cleanThenReads : List Op :=
  [.allocate 0x40 64
      { id := 1, cmd := .cleanSharedReq, addr := 0x40, size := 64, req := { clean := true } }
      10 1 false,
    .allocateTarget { id := 2, cmd := .readReq, addr := 0x48, size := 8 } 20 2 true,
    .allocateTarget { id := 3, cmd := .writeReq, addr := 0x50, size := 8 } 30 3 true,
    .markInService false, .promoteReadable, .extractServiceableTargets .cleanSharedResp,
    .promoteDeferredTargets 50, .markPending, .markInService false,
    .extractServiceableTargets .readExResp, .deallocate,
    .allocate 0x40 64 { id := 4, cmd := .readReq, addr := 0x48, size := 8 } 60 4 true,
    .allocateTarget { id := 5, cmd := .readReq, addr := 0x50, size := 8 } 70 5 true,
    .markInService false, .extractServiceableTargets .readRespWithInvalidate,
    .promoteDeferredTargets 80, .markPending, .markInService false,
    .extractServiceableTargets .readResp]

theorem cleanThenReads_returned :
    ∃ as m, Run.run step {} cleanThenReads = .ok (as, m) ∧
      (as.flatMap Answer.returned).map Tag.id = [1, 2, 3, 4, 5] ∧
      (as.flatMap Answer.added).Perm (as.flatMap Answer.returned) := by
  have hops : ∀ o ∈ cleanThenReads, o ≠ .popTarget := by decide
  exact ⟨_, _, rfl, rfl, (targets_returned_in_order hops rfl).2.1 rfl⟩

end Mshr

namespace TargetList

variable {l l' p : TargetList} {pkt : MissPacket} {source : Source} {a : Bool}

/-! ### Flags computed one target at a time and all at once -/

/-- The list with other targets and another bitmap. -/
def withItems (l : TargetList) (items : List Target) (bitmap : List Bool) : TargetList :=
  { l with items, writesBitmap := bitmap }

/-- Whether the whole-line-write statuses agree. -/
def SameStatus (l p : TargetList) : Prop := l.isWholeLineWrite = p.isWholeLineWrite

theorem updateWriteFlags_closed (h : l.canMergeWrites = false) :
    l.updateWriteFlags pkt = .ok l := by
  unfold updateWriteFlags
  split_ifs <;> simp_all

variable {items : List Target}

theorem updateWriteFlags_items (hl : l.items ≠ []) (hi : items ≠ [])
    (h : l.updateWriteFlags pkt = .ok l') :
    (l.withItems items l.writesBitmap).updateWriteFlags pkt =
      .ok (l'.withItems items l'.writesBitmap) := by
  have hle : l.items.isEmpty = false := by simpa using hl
  have hie : items.isEmpty = false := by simpa using hi
  have hw : (l.withItems items l.writesBitmap).isWholeLineWrite = l.isWholeLineWrite := rfl
  have hc : (l.withItems items l.writesBitmap).canMergeWrites = l.canMergeWrites := rfl
  unfold updateWriteFlags at h ⊢
  rw [hw, hc]
  split_ifs at h ⊢ with h1 h2 h3
  · cases h
    rfl
  · cases h
    rfl
  · simp only [mergeWrite, hle, withItems, hie, Bool.false_or, markWrite] at h ⊢
    split_ifs at h ⊢ with h4
    · obtain ⟨l₁, hl₁, h⟩ := bind_eq_ok.1 h
      obtain ⟨bitmap, hb, hl₁⟩ := bind_eq_ok.1 hl₁
      cases hl₁
      cases h
      rw [hb]
      rfl
    · cases h
      rfl
  · cases h
    rfl

/-- Two lists with the same flags, the second of which has all its targets already: their bitmaps
differ only where no more writes are merged. -/
def Near (l p : TargetList) : Prop :=
  ∃ items bitmap, items ≠ [] ∧ p = l.withItems items bitmap ∧
    (bitmap = l.writesBitmap ∨ l.canMergeWrites = false)

theorem Near.sameFlags_iff (h : Near l p) : SameFlags l p ↔ SameStatus l p := by
  obtain ⟨items, bitmap, -, rfl, -⟩ := h
  exact ⟨fun hs => hs.isWholeLineWrite, fun hs => ⟨rfl, rfl, rfl, rfl, rfl, hs⟩⟩

theorem updateWriteFlags_near (hl : l.items ≠ []) (h : Near l p)
    (hu : l.updateWriteFlags pkt = .ok l') :
    ∃ p', p.updateWriteFlags pkt = .ok p' ∧ Near l' p' ∧ (SameStatus l' p' ↔ SameStatus l p) := by
  obtain ⟨items, bitmap, hi, rfl, rfl | hc⟩ := h
  · exact ⟨_, updateWriteFlags_items hl hi hu, ⟨items, _, hi, rfl, .inl rfl⟩,
      iff_of_true rfl rfl⟩
  · rw [updateWriteFlags_closed hc] at hu
    cases hu
    exact ⟨_, updateWriteFlags_closed hc, ⟨items, bitmap, hi, rfl, .inr hc⟩, Iff.rfl⟩

/-- The flags raised for a target of the processor. -/
def raised (l : TargetList) (pkt : MissPacket) (needsWritable a : Bool) : TargetList :=
  { l with needsWritable := l.needsWritable || needsWritable
           hasUpgrade := l.hasUpgrade || pkt.isUpgrade
           allocOnFill := l.allocOnFill || a
           hasFromCache := l.hasFromCache || pkt.cmd.fromCache }

theorem updateFlags_near (hl : l.items ≠ []) (h : Near l p)
    (hu : l.updateFlags pkt source a = .ok l') :
    ∃ p', p.updateFlags pkt source a = .ok p' ∧ Near l' p' ∧
      (SameStatus l' p' ↔ SameStatus l p) := by
  unfold updateFlags at hu ⊢
  split_ifs at hu ⊢ with hs hp
  · cases hu
    exact ⟨p, rfl, h, Iff.rfl⟩
  · obtain ⟨nw, hnw, hu⟩ := bind_eq_ok.1 hu
    obtain ⟨items, bitmap, hi, rfl, hb⟩ := h
    cases hu
    rw [hnw]
    exact ⟨_, rfl, ⟨items, bitmap, hi, rfl, hb⟩, Iff.rfl⟩
  · obtain ⟨nw, hnw, hu⟩ := bind_eq_ok.1 hu
    obtain ⟨items, bitmap, hi, rfl, hb⟩ := h
    rw [hnw]
    have hn : Near (l.raised pkt nw a) ((l.raised pkt nw a).withItems items bitmap) :=
      ⟨items, bitmap, hi, rfl, hb⟩
    have hli : (l.raised pkt nw a).items ≠ [] := hl
    obtain ⟨p', hp', hn', hs'⟩ := updateWriteFlags_near hli hn hu
    exact ⟨p', hp', hn', hs'⟩

theorem addOne_ok {x : AddArgs} (h : l.addOne x = .ok l') :
    ∃ l₁ t, l.updateFlags x.pkt x.source x.allocOnFill = .ok l₁ ∧
      l' = { l₁ with items := l.items ++ [t] } ∧
      ∀ p : TargetList, p.updateFor t = p.updateFlags x.pkt x.source x.allocOnFill := by
  unfold addOne add at h
  obtain ⟨l₁, h₁, ⟨pkt', marked⟩, hm, h⟩ := bind₂_eq_ok.1 h
  have hpkt : ∃ u, pkt' = { x.pkt with upstream := u } := by
    unfold markUpstream at hm
    split at hm
    · obtain ⟨-, -, hm⟩ := bind_eq_ok.1 hm
      cases hm
      exact ⟨some true, rfl⟩
    · cases hm
      exact ⟨x.pkt.upstream, rfl⟩
  obtain ⟨u, rfl⟩ := hpkt
  cases h
  exact ⟨l₁, _, h₁, by rw [(updateFlags_ok h₁).items], fun p => rfl⟩

theorem foldlM_near :
    ∀ {xs : List AddArgs} {l l' p : TargetList}, l.items ≠ [] → Near l p →
      xs.foldlM addOne l = .ok l' →
        ∃ ts p', l'.items = l.items ++ ts ∧ ts.foldlM updateFor p = .ok p' ∧ Near l' p' ∧
          (SameStatus l' p' ↔ SameStatus l p)
  | [], l, l', p, _, hn, h => by
    cases h
    exact ⟨[], p, by simp, rfl, hn, Iff.rfl⟩
  | x :: xs, l, l', p, hl, hn, h => by
    rw [foldlM_cons] at h
    obtain ⟨l₂, hadd, h⟩ := bind_eq_ok.1 h
    obtain ⟨l₁, t, hu, rfl, hfor⟩ := addOne_ok hadd
    obtain ⟨p₁, hp₁, hn₁, hs₁⟩ := updateFlags_near hl hn hu
    have hn₂ : Near { l₁ with items := l.items ++ [t] } p₁ := hn₁
    obtain ⟨ts, p', hi, hp', hn', hs'⟩ := foldlM_near (by simp) hn₂ h
    refine ⟨t :: ts, p', by simpa using hi, ?_, hn', hs'.trans hs₁⟩
    rw [foldlM_cons, hfor, hp₁]
    exact hp'

theorem fill_all {n offset size : ℕ} {bitmap : List Bool}
    (h : fill (replicate n false) offset size = .ok bitmap) :
    bitmap.all id = true ↔ offset = 0 ∧ size = n := by
  unfold fill at h
  split_ifs at h with hle
  cases h
  rw [List.length_replicate] at hle
  have hiff : (List.take offset (replicate n false) ++ replicate size true ++
      List.drop (offset + size) (replicate n false)).all id = true ↔
        (min offset n = 0 ∧ n - (offset + size) = 0) := by
    simp [List.all_append, List.take_replicate, List.drop_replicate]
  rw [hiff]
  omega

theorem init_bitmap (blkAddr blkSize : ℕ) :
    (init {} blkAddr blkSize).writesBitmap = replicate blkSize false := by
  simp [init, resetFlags]

theorem updateWriteFlags_first (hi : items ≠ []) (hl : l.items = []) (hc : l.canMergeWrites = true)
    (hb : l.writesBitmap = replicate l.blkSize false) (h : l.updateWriteFlags pkt = .ok l') :
    ∃ p, (l.withItems items l.writesBitmap).updateWriteFlags pkt = .ok p ∧ Near l' p ∧
      (SameStatus l' p ↔ ¬ (pkt.cmd.isWrite = true ∧ pkt.noMergeFlags = true ∧
        pkt.getOffset l.blkSize = 0 ∧ pkt.size = l.blkSize ∧ l.blkSize ≠ 0)) := by
  have hie : items.isEmpty = false := by simpa using hi
  have hle : l.items.isEmpty = true := by simp [hl]
  have hwhole : l.isWholeLineWrite = true ↔ l.blkSize = 0 := by
    simp [isWholeLineWrite, hb]
  have hpw : (l.withItems items l.writesBitmap).isWholeLineWrite = l.isWholeLineWrite := rfl
  have hpc : (l.withItems items l.writesBitmap).canMergeWrites = true := hc
  unfold updateWriteFlags at h ⊢
  rw [hpw]
  rw [if_pos hpc]
  rw [if_pos hc] at h
  split_ifs at h ⊢ with h1 h2
  · cases h
    exact ⟨_, rfl, ⟨items, _, hi, rfl, .inl rfl⟩,
      iff_of_true rfl fun hspec => hspec.2.2.2.2 (hwhole.1 h1)⟩
  · cases h
    refine ⟨_, rfl, ⟨items, _, hi, rfl, .inl rfl⟩, iff_of_true rfl fun hspec => ?_⟩
    simp [hspec.1] at h2
  · have hw : pkt.cmd.isWrite = true := by simpa using h2
    obtain ⟨l₁, hl₁, h⟩ := bind_eq_ok.1 h
    simp only [mergeWrite, hle, Bool.true_or, if_true, markWrite] at hl₁
    obtain ⟨bitmap, hbit, hl₁⟩ := bind_eq_ok.1 hl₁
    cases hl₁
    cases h
    by_cases hspec : pkt.noMergeFlags = true
    · -- only the list that was empty marks the write
      refine ⟨{ l.withItems items l.writesBitmap with canMergeWrites := false }, ?_,
        ⟨items, l.writesBitmap, hi, ?_, .inr (by simp [hspec])⟩, ?_⟩
      · simp [mergeWrite, withItems, hie, hspec]
      · simp [withItems, hspec]
      · have hp : ({ l.withItems items l.writesBitmap with canMergeWrites := false } :
            TargetList).isWholeLineWrite = false := by
          rw [← Bool.not_eq_true]
          exact h1
        rw [SameStatus, hp]
        rw [hb] at hbit
        have hall := fill_all hbit
        rw [isWholeLineWrite, Bool.eq_false_iff]
        have hz : l.blkSize ≠ 0 := mt hwhole.2 h1
        rw [Ne, hall]
        simp [hw, hspec, hz]
    · have hspec' : pkt.noMergeFlags = false := by simpa using hspec
      refine ⟨_, ?_, ⟨items, bitmap, hi, rfl, .inl rfl⟩,
        iff_of_true rfl fun hs => hspec hs.2.1⟩
      simp [mergeWrite, markWrite, withItems, hspec', hbit]

variable {blkAddr blkSize : ℕ}

theorem updateFlags_first {x : AddArgs} (hi : items ≠ [])
    (h : (init {} blkAddr blkSize).updateFlags x.pkt x.source x.allocOnFill = .ok l) :
    ∃ p, ((init {} blkAddr blkSize).withItems items
        (init {} blkAddr blkSize).writesBitmap).updateFlags x.pkt x.source x.allocOnFill = .ok p ∧
      Near l p ∧ (SameStatus l p ↔ x.specialLineWrite blkSize = false) := by
  unfold updateFlags at h ⊢
  split_ifs at h ⊢ with hs hp
  · cases h
    exact ⟨_, rfl, ⟨items, _, hi, rfl, .inl rfl⟩,
      iff_of_true rfl (by simp [AddArgs.specialLineWrite, hs])⟩
  · obtain ⟨nw, hnw, h⟩ := bind_eq_ok.1 h
    cases h
    rw [hnw]
    exact ⟨_, rfl, ⟨items, _, hi, rfl, .inl rfl⟩,
      iff_of_true rfl (by simp [AddArgs.specialLineWrite, hp])⟩
  · obtain ⟨nw, hnw, h⟩ := bind_eq_ok.1 h
    rw [hnw]
    have hcpu : x.source = .fromCPU := by
      cases hsrc : x.source
      · rfl
      · exact absurd hsrc hs
      · exact absurd hsrc hp
    have hnil : ((init {} blkAddr blkSize).raised x.pkt nw x.allocOnFill).items = [] := rfl
    obtain ⟨p, hp', hn, hst⟩ := updateWriteFlags_first hi hnil rfl (init_bitmap blkAddr blkSize) h
    refine ⟨p, hp', hn, hst.trans ?_⟩
    have hsize : ((init {} blkAddr blkSize).raised x.pkt nw x.allocOnFill).blkSize = blkSize := rfl
    rw [hsize]
    simp only [AddArgs.specialLineWrite, hcpu, beq_self_eq_true, Bool.true_and]
    rw [← Bool.not_eq_true]
    simp [and_assoc]

variable {xs : List AddArgs}

theorem resetFlags_of_foldlM (h : xs.foldlM addOne (init {} blkAddr blkSize) = .ok l) :
    l.resetFlags =
      (init {} blkAddr blkSize).withItems l.items (init {} blkAddr blkSize).writesBitmap := by
  have hinv := Loop.foldlM_inv (l := xs)
    (I := fun _ s => s.blkAddr = blkAddr ∧ s.blkSize = blkSize ∧ s.writesBitmap.length = blkSize)
    (fun pre x rest s s' _ hI hs => by
      obtain ⟨l₁, t, hu, rfl, -⟩ := addOne_ok hs
      obtain ⟨h1, h2, h3⟩ := (updateFlags_ok hu).shape
      exact ⟨h1.trans hI.1, h2.trans hI.2.1, h3.trans hI.2.2⟩)
    xs [] (by simp) ⟨rfl, rfl, by simp [init_bitmap]⟩ h
  obtain ⟨h1, h2, h3⟩ := hinv
  have hmap : l.writesBitmap.map (fun _ => false) = replicate blkSize false := by
    rw [← h3, List.map_const']
  rw [init_bitmap]
  simp [resetFlags, withItems, hmap, h1, h2, init]

theorem populateFlags_build (h : build blkAddr blkSize xs = .ok l) :
    ∃ p, l.populateFlags = .ok p ∧
      (SameFlags l p ↔ ∀ x ∈ xs.head?, x.specialLineWrite blkSize = false) := by
  have hreset := resetFlags_of_foldlM h
  unfold build at h
  cases xs with
  | nil =>
    cases h
    exact ⟨_, rfl, iff_of_true ⟨rfl, rfl, rfl, rfl, rfl, by simp [isWholeLineWrite, resetFlags,
      init]⟩ (by simp)⟩
  | cons x xs =>
    rw [foldlM_cons] at h
    obtain ⟨l₂, hadd, h⟩ := bind_eq_ok.1 h
    obtain ⟨l₁, t, hu, rfl, hfor⟩ := addOne_ok hadd
    -- the targets of the list are not none, whatever `populateFlags` starts from
    have hne : l.items ≠ [] := by
      have hself : Near { l₁ with items := [t] } { l₁ with items := [t] } :=
        ⟨[t], l₁.writesBitmap, by simp, rfl, .inl rfl⟩
      obtain ⟨ts, -, hi, -⟩ := foldlM_near (by simp) hself h
      simp [hi]
    obtain ⟨p₁, hp₁, hn₁, hs₁⟩ := updateFlags_first hne hu
    have hn₂ : Near { l₁ with items := [t] } p₁ := hn₁
    obtain ⟨ts, p, hi, hp, hn, hs⟩ := foldlM_near (by simp) hn₂ h
    refine ⟨p, ?_, ?_⟩
    · have hitems : l.items = t :: ts := hi
      unfold populateFlags
      rw [hreset, hitems, foldlM_cons, hfor, ← hitems, hp₁]
      exact hp
    · have hs₂ : SameStatus { l₁ with items := [t] } p₁ ↔ x.specialLineWrite blkSize = false := hs₁
      rw [hn.sameFlags_iff, hs]
      simpa using hs₂

end TargetList

namespace Mshr

/-- The flags of the targets agree with them in every state of a run exactly when no promotion
moves a target that needs a flag which is not set; and `populateFlags` gives the flags that `add`
computed, exactly when the first target added is not a special write to the whole line. -/
theorem flags_agree_iff (ops : List Op) (blkAddr blkSize : ℕ) (xs : List TargetList.AddArgs) :
    (∀ {as : List Answer} {m : Mshr}, Run.run step {} ops = .ok (as, m) →
      (Run.Along step AgreeAfter {} ops ↔ Run.Along step FlagsCover {} ops)) ∧
    ∀ {l : TargetList}, TargetList.build blkAddr blkSize xs = .ok l →
      ∃ p, l.populateFlags = .ok p ∧
        (TargetList.SameFlags l p ↔ ∀ x ∈ xs.head?, x.specialLineWrite blkSize = false) := by
  refine ⟨fun h => ?_, TargetList.populateFlags_build⟩
  refine Run.along_congr_of_run (I := fun m : Mshr => m.AllRequests ∧ m.targets.Agree)
    (fun m o a m' hI hs => ?_)
    ⟨⟨TargetList.requests_nil rfl, TargetList.requests_nil rfl⟩, TargetList.agree_nil rfl⟩ h
  have hstep := step_ok hs
  have hafter : m.AgreeAfter o ↔ m'.targets.Agree := by
    constructor
    · exact fun hA => hA a m' hs
    · intro hA a₁ m₁ h₁
      rw [hs] at h₁
      cases h₁
      exact hA
  rw [hafter]
  exact ⟨hstep.agree hI.1 hI.2, fun hA => ⟨hstep.requests hI.1, hA⟩⟩

/-- A read of a device in service, and a read for ownership of a cache above put off. The response
turns out to be writable. -/
def readThenReadEx : List Op :=
  [.allocate 0x40 64 { id := 1, cmd := .readReq, addr := 0x40, size := 8 } 10 1 true,
    .markInService false,
    .allocateTarget { id := 2, cmd := .readExReq, addr := 0x40, size := 64 } 20 2 true,
    .promoteWritable]

/-- A secure write to a whole line, as the first target. -/
def secureLineWrite : TargetList.AddArgs :=
  { pkt := { id := 1, cmd := .writeReq, addr := 0x40, size := 8, req := { secure := true } }
    readyTime := 10, order := 1, source := .fromCPU, markPending := true, allocOnFill := true }

/-- The promoted read comes from a cache and the flag does not say so; and the whole-line write is
lost once the flags are computed again. -/
theorem readThenReadEx_disagree :
    (∃ as m, Run.run step {} readThenReadEx = .ok (as, m) ∧ ¬ m.targets.Agree) ∧
      ∃ l p, TargetList.build 0x40 8 [secureLineWrite] = .ok l ∧ l.populateFlags = .ok p ∧
        l.isWholeLineWrite = true ∧ p.isWholeLineWrite = false := by
  refine ⟨⟨_, _, rfl, fun h => ?_⟩, _, _, rfl, rfl, rfl, rfl⟩
  have hcache := (h _ (.tail _ (.head _)) (by decide)).2.2.2 rfl rfl
  cases hcache

/-- The same read for ownership behind a read of a cache. -/
def readSharedThenReadEx : List Op :=
  [.allocate 0x40 64 { id := 1, cmd := .readSharedReq, addr := 0x40, size := 64 } 10 1 true,
    .markInService false,
    .allocateTarget { id := 2, cmd := .readExReq, addr := 0x40, size := 64 } 20 2 true,
    .promoteWritable]

/-- A write to a whole line that may be merged with others, as the first target. -/
def mergeableLineWrite : TargetList.AddArgs :=
  { secureLineWrite with pkt := { id := 1, cmd := .writeReq, addr := 0x40, size := 8 } }

theorem readSharedThenReadEx_agree :
    (∃ r, Run.run step {} readSharedThenReadEx = .ok r) ∧
      Run.Along step AgreeAfter {} readSharedThenReadEx ∧
      ∃ l p, TargetList.build 0x40 8 [mergeableLineWrite] = .ok l ∧ l.populateFlags = .ok p ∧
        TargetList.SameFlags l p := by
  have hrun : Run.run step {} readSharedThenReadEx = .ok _ := rfl
  have hbuild : TargetList.build 0x40 8 [mergeableLineWrite] = .ok _ := rfl
  have hiff := flags_agree_iff readSharedThenReadEx 0x40 8 [mergeableLineWrite]
  refine ⟨⟨_, hrun⟩, (hiff.1 hrun).2 ?_, ?_⟩
  · refine (Run.along_cons rfl).2 ⟨trivial, (Run.along_cons rfl).2 ⟨trivial,
      (Run.along_cons rfl).2 ⟨trivial, (Run.along_cons rfl).2 ⟨?_, trivial⟩⟩⟩⟩
    change Covered _ _
    decide
  · obtain ⟨p, hp, hsame⟩ := hiff.2 hbuild
    exact ⟨_, p, rfl, hp, hsame.2 (by simp [TargetList.AddArgs.specialLineWrite, mergeableLineWrite,
      MissPacket.noMergeFlags])⟩

end Mshr

end Gem5Nvm
