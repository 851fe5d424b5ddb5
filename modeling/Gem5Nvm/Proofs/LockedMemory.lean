import Gem5Nvm.LockedMemory

/-!
# Lock records are reservations

As long as every write that reaches a granule with a lock record starts in it, and no swap or atomic
reaches one, the records of a memory are the reservations of the history: a context has a record of
the granule of its latest load-locked until a byte of it is written.
-/

namespace Gem5Nvm.LockedMemory

open List (mem_map mem_range mem_singleton mem_cons mem_cons_self)

variable {s s' : LockedMemory} {pkt : AccessPacket} {e : Event} {c g : ℕ}

/-- What an access of each kind does to the records and writes. -/
inductive Effect (s : LockedMemory) (pkt : AccessPacket) : Event → LockedMemory → Prop
  | loadLocked {response : AccessPacket} {c : ℕ} (hcmd : pkt.cmd = .loadLockedReq)
    (hc : pkt.contextId = some c) :
    Effect s pkt { pkt, response } { s with
      lockedAddrList := if s.lockedAddrList.any fun r => r.contextId = c then
          moveRecord (LockedAddr.mask pkt.addr) c s.lockedAddrList
        else ⟨LockedAddr.mask pkt.addr, c⟩ :: s.lockedAddrList }
  | fails {response : AccessPacket} (hwrite : pkt.cmd.isWrite = true) (hswap : pkt.cmd ≠ .swapReq)
    (hallow : s.allowStore pkt = false) : Effect s pkt { pkt, response } s
  | writes {response : AccessPacket} {stores : List (ℕ × UInt8)} (hwrite : pkt.cmd.isWrite = true)
    (hswap : pkt.cmd ≠ .swapReq) (hallow : s.allowStore pkt = true)
    (hstores : ∀ a, (∃ w ∈ stores, w.1 = a) ↔
      ∃ i < pkt.getSize, pkt.enabled i = true ∧ pkt.addr + i = a) :
    Effect s pkt { pkt, response, performed := true, stores }
      (store { s with
        lockedAddrList := s.lockedAddrList.filter fun r => r.addr ≠ LockedAddr.mask pkt.addr }
        stores)
  | swaps {response : AccessPacket} {performed : Bool} {stores : List (ℕ × UInt8)}
    (hcmd : pkt.cmd = .swapReq)
    (hstores : ∀ w ∈ stores, (pkt.atomicOp.isSome = true ∨ s.overwriteMem pkt = .ok true) ∧
      ∃ i < pkt.getSize, pkt.addr + i = w.1) :
    Effect s pkt { pkt, response, performed, stores } (s.store stores)

theorem writeData_eq (h : ∀ enable ∈ pkt.byteEnable, enable.length = pkt.getSize) :
    ∃ stores, pkt.writeData = .ok stores ∧ ∀ a, (∃ w ∈ stores, w.1 = a) ↔
      ∃ i < pkt.getSize, pkt.enabled i = true ∧ pkt.addr + i = a := by
  refine ⟨((List.range pkt.getSize).filter pkt.enabled).map fun i =>
    (pkt.addr + i, pkt.data.getD i 0), ?_, ?_⟩
  · have hall : (pkt.byteEnable.all fun enable => enable.length = pkt.getSize) = true := by
      cases hb : pkt.byteEnable with
      | none => rfl
      | some enable => simpa using h enable (by simp [hb])
    simp [AccessPacket.writeData, hall, assert]
  · intro a
    constructor
    · rintro ⟨w, hw, rfl⟩
      obtain ⟨i, hi, rfl⟩ := mem_map.1 hw
      obtain ⟨hlt, hen⟩ := List.mem_filter.1 hi
      exact ⟨i, mem_range.1 hlt, hen, rfl⟩
    · rintro ⟨i, hlt, hen, rfl⟩
      exact ⟨_, List.mem_map_of_mem (List.mem_filter.2 ⟨mem_range.2 hlt, hen⟩), rfl⟩

theorem load_effect (hcmd : pkt.cmd = .loadLockedReq) (hc : pkt.contextId = some c) :
    ∃ e s', s.load pkt = .ok (e, s') ∧ ∀ response, Effect s pkt { e with response } s' := by
  refine ⟨{ pkt, response := { pkt with data := s.read pkt.addr pkt.getSize } }, _, ?_,
    fun response => .loadLocked hcmd hc⟩
  have htrack : s.trackLoadLocked pkt = .ok { s with
      lockedAddrList := if s.lockedAddrList.any fun r => r.contextId = c then
          moveRecord (LockedAddr.mask pkt.addr) c s.lockedAddrList
        else ⟨LockedAddr.mask pkt.addr, c⟩ :: s.lockedAddrList } := by
    simp only [trackLoadLocked, hc]
    split_ifs <;> rfl
  simp only [load, hcmd, htrack]
  rfl

theorem writeOK_eq (hc : pkt.cmd.isLLSC = true → pkt.contextId.isSome = true) :
    s.writeOK pkt = .ok (s.allowStore pkt, if s.allowStore pkt = true then
      { s with lockedAddrList := s.lockedAddrList.filter fun r => r.addr ≠ LockedAddr.mask pkt.addr }
      else s) := by
  unfold writeOK
  by_cases hnil : s.lockedAddrList = []
  · by_cases hll : pkt.cmd.isLLSC = true
    · simp [hnil, allowStore, hll]
    · have hs : { s with lockedAddrList := [] } = s := by rw [← hnil]
      simp [hnil, allowStore, hll, hs]
  · rw [if_neg (by simpa using hnil), checkLockedAddrList]
    by_cases hll : pkt.cmd.isLLSC = true
    · obtain ⟨c, hc⟩ := Option.isSome_iff_exists.1 (hc hll)
      have hallow : s.matchesRecord pkt = .ok (s.allowStore pkt) := by
        simp [matchesRecord, allowStore, hll, hc]
      rw [if_pos hll, hallow, Sim.ok_bind]
      cases s.allowStore pkt <;> rfl
    · rw [if_neg hll, Sim.ok_bind]
      simp [allowStore, hll]

theorem write_effect (hwrite : pkt.cmd.isWrite = true) (hswap : pkt.cmd ≠ .swapReq)
    (hc : pkt.cmd.isLLSC = true → pkt.contextId.isSome = true) (hfetch : pkt.isInstFetch = false)
    (henable : ∀ enable ∈ pkt.byteEnable, enable.length = pkt.getSize) :
    ∃ e s', s.write pkt = .ok (e, s') ∧ ∀ response, Effect s pkt { e with response } s' := by
  obtain ⟨stores, hdata, hstores⟩ := writeData_eq henable
  rw [write, writeOK_eq hc, Sim.ok_bind]
  cases hallow : s.allowStore pkt with
  | false => exact ⟨_, s, rfl, fun response => .fails hwrite hswap hallow⟩
  | true =>
    simp only [if_true, hdata, Sim.ok_bind, hfetch, assert, Bool.not_false, Sim.pure_eq]
    exact ⟨_, _, rfl, fun response => .writes hwrite hswap hallow hstores⟩

theorem mem_storesAt {addr size : ℕ} {bytes : List UInt8} {w : ℕ × UInt8}
    (h : w ∈ storesAt addr size bytes) : ∃ i < size, addr + i = w.1 := by
  obtain ⟨i, hi, rfl⟩ := mem_map.1 h
  exact ⟨i, mem_range.1 hi, rfl⟩

theorem swap_effect (hcmd : pkt.cmd = .swapReq) (hfetch : pkt.isInstFetch = false)
    (henable : ∀ enable ∈ pkt.byteEnable, enable.length = pkt.getSize)
    (hsize : pkt.atomicOp = none → pkt.isCondSwap = true → pkt.getSize = 4 ∨ pkt.getSize = 8) :
    ∃ e s', s.swap pkt = .ok (e, s') ∧ ∀ response, Effect s pkt { e with response } s' := by
  unfold swap
  cases hop : pkt.atomicOp with
  | some op =>
    exact ⟨_, _, rfl, fun response => .swaps hcmd fun w hw => ⟨.inl (by rw [hop]; rfl), mem_storesAt hw⟩⟩
  | none =>
    obtain ⟨written, hdata, -⟩ := writeData_eq henable
    obtain ⟨overwrite, hover⟩ : ∃ overwrite, s.overwriteMem pkt = .ok overwrite := by
      unfold overwriteMem
      by_cases hcond : pkt.isCondSwap = true
      · rcases hsize hop hcond with h4 | h8
        · exact ⟨_, by rw [if_pos hcond, if_neg (by omega), if_pos h4]⟩
        · exact ⟨_, by rw [if_pos hcond, if_pos h8]⟩
      · exact ⟨true, by rw [if_neg hcond]⟩
    simp only [hdata, Sim.ok_bind, hover, hfetch, assert, Bool.not_false, if_true, Sim.pure_eq]
    refine ⟨_, _, rfl, fun response => .swaps hcmd fun w hw => ?_⟩
    cases overwrite with
    | false => simp at hw
    | true => exact ⟨.inr hover, mem_storesAt hw⟩

theorem access_effect (h : Regular s.range pkt) : ∃ e s', s.access pkt = .ok (e, s') ∧
    Effect s pkt e s' := by
  obtain ⟨hcache, hfetch, hin, henable, hkind⟩ := h
  have hskip : ¬ (pkt.cacheResponding = true ∨ pkt.cmd = .cleanEvict ∨ pkt.cmd = .writebackClean) := by
    rcases hkind with ⟨h | h, -⟩ | (h | h | h | h) | ⟨h, -⟩ <;> simp [hcache, h]
  suffices hbranch : ∃ e s', s.dispatch pkt = .ok (e, s') ∧
      ∀ response, Effect s pkt { e with response } s' by
    obtain ⟨e, s', hok, heffect⟩ := hbranch
    refine ⟨_, s', ?_, heffect e.response.makeResponse⟩
    rw [access, if_neg hskip, hin, hok]
    rfl
  unfold dispatch
  rcases hkind with ⟨h | h, hsome⟩ | h | ⟨h, hsize⟩
  · obtain ⟨c, hc⟩ := Option.isSome_iff_exists.1 hsome
    rw [if_neg (by simp [h]), if_pos (by rw [h]; rfl)]
    exact load_effect h hc
  · rw [if_neg (by simp [h]), if_neg (by rw [h]; decide), if_neg (by rw [h]; decide),
      if_pos (by rw [h]; rfl)]
    exact write_effect (by rw [h]; rfl) (by simp [h]) (fun _ => hsome) hfetch henable
  · have hplain : pkt.cmd.isWrite = true ∧ pkt.cmd ≠ .swapReq ∧ pkt.cmd.isLLSC = false ∧
        pkt.cmd.isRead = false ∧ (pkt.cmd.isInvalidate || pkt.cmd.isClean) = false := by
      rcases h with h | h | h | h <;> rw [h] <;> decide
    obtain ⟨hwrite, hswap, hll, hread, hclean⟩ := hplain
    rw [if_neg hswap, if_neg (by simp [hread]), if_neg (by simp [hclean]), if_pos hwrite]
    exact write_effect hwrite hswap (by simp [hll]) hfetch henable
  · rw [if_pos h]
    exact swap_effect h hfetch henable hsize

variable {history : List Event}

theorem reserved_concat :
    Reserved c g (history ++ [e]) ↔ e.LoadLocked c ∧ e.pkt.addr / 16 = g ∨
      ¬ e.LoadLocked c ∧ Reserved c g history ∧ ∀ w ∈ e.stores, w.1 / 16 ≠ g := by
  constructor
  · rintro ⟨pre, x, post, heq, hx, hg, hlatest, hwritten⟩
    rcases List.eq_nil_or_concat post with rfl | ⟨post', y, rfl⟩
    · obtain ⟨-, hlast⟩ := List.append_inj' heq rfl
      cases hlast
      exact .inl ⟨hx, hg⟩
    · have heq' : history ++ [e] = (pre ++ x :: post') ++ [y] := by simpa using heq
      obtain ⟨hinit, hlast⟩ := List.append_inj' heq' rfl
      cases hlast
      refine .inr ⟨hlatest e (by simp), ⟨pre, x, post', hinit, hx, hg, ?_, ?_⟩, hwritten e (by simp)⟩
      · exact fun z hz => hlatest z (by simp [hz])
      · exact fun z hz => hwritten z (by simp [hz])
  · rintro (⟨he, hg⟩ | ⟨he, ⟨pre, x, post, rfl, hx, hg, hlatest, hwritten⟩, hstores⟩)
    · exact ⟨history, e, [], rfl, he, hg, by simp, by simp⟩
    · refine ⟨pre, x, post ++ [e], by simp, hx, hg, ?_, ?_⟩
      · intro z hz
        rcases List.mem_append.1 hz with hz | hz
        · exact hlatest z hz
        · rwa [mem_singleton.1 hz]
      · intro z hz
        rcases List.mem_append.1 hz with hz | hz
        · exact hwritten z hz
        · rwa [mem_singleton.1 hz]

/-- The records are the reservations of the history. -/
structure Records (list : List LockedAddr) (history : List Event) : Prop where
  nodup : (list.map LockedAddr.contextId).Nodup
  aligned : ∀ r ∈ list, r.addr = LockedAddr.mask r.addr
  reserved : ∀ c g, (⟨g * 16, c⟩ : LockedAddr) ∈ list ↔ Reserved c g history

theorem mask_mask (a : ℕ) : LockedAddr.mask a = LockedAddr.mask (LockedAddr.mask a) := by
  unfold LockedAddr.mask
  omega

theorem mask_eq_iff {a : ℕ} : LockedAddr.mask a = g * 16 ↔ a / 16 = g := by
  unfold LockedAddr.mask
  omega

variable {list : List LockedAddr}

theorem mem_moveRecord {paddr : ℕ} (hnodup : (list.map LockedAddr.contextId).Nodup)
    (hc : (list.any fun r => r.contextId = c) = true) {r : LockedAddr} :
    r ∈ moveRecord paddr c list ↔ r = ⟨paddr, c⟩ ∨ r.contextId ≠ c ∧ r ∈ list := by
  induction list with
  | nil => simp at hc
  | cons x list ih =>
    obtain ⟨hx, hrest⟩ := List.nodup_cons.1 hnodup
    by_cases hxc : x.contextId = c
    · have hother : ∀ y ∈ list, y.contextId ≠ c := by
        intro y hy hyc
        exact hx (mem_map.2 ⟨y, hy, hyc.trans hxc.symm⟩)
      rw [moveRecord, if_pos hxc, mem_cons, mem_cons, ← hxc]
      constructor
      · rintro (rfl | hr)
        · exact .inl rfl
        · exact .inr ⟨hxc.symm ▸ hother r hr, .inr hr⟩
      · rintro (rfl | ⟨hne, rfl | hr⟩)
        · exact .inl rfl
        · exact absurd rfl hne
        · exact .inr hr
    · have hany : (list.any fun r => r.contextId = c) = true := by simpa [hxc] using hc
      rw [moveRecord, if_neg hxc, mem_cons, mem_cons, ih hrest hany]
      constructor
      · rintro (rfl | rfl | ⟨hne, hr⟩)
        · exact .inr ⟨hxc, .inl rfl⟩
        · exact .inl rfl
        · exact .inr ⟨hne, .inr hr⟩
      · rintro (rfl | ⟨hne, rfl | hr⟩)
        · exact .inr (.inl rfl)
        · exact .inl rfl
        · exact .inr (.inr ⟨hne, hr⟩)

theorem map_moveRecord (paddr c : ℕ) (list : List LockedAddr) :
    (moveRecord paddr c list).map LockedAddr.contextId = list.map LockedAddr.contextId := by
  induction list with
  | nil => rfl
  | cons x list ih =>
    unfold moveRecord
    split_ifs <;> simp [ih]

theorem Records.loadLocked (h : Records list history) (he : e.LoadLocked c)
    (hstores : e.stores = []) :
    Records (if list.any fun r => r.contextId = c then
        moveRecord (LockedAddr.mask e.pkt.addr) c list
      else ⟨LockedAddr.mask e.pkt.addr, c⟩ :: list) (history ++ [e]) := by
  -- the new record replaces the one of the context
  have hmem : ∀ r : LockedAddr, (r ∈ if list.any fun r => r.contextId = c then
      moveRecord (LockedAddr.mask e.pkt.addr) c list
      else ⟨LockedAddr.mask e.pkt.addr, c⟩ :: list) ↔
      r = ⟨LockedAddr.mask e.pkt.addr, c⟩ ∨ r.contextId ≠ c ∧ r ∈ list := by
    intro r
    split_ifs with hc
    · exact mem_moveRecord h.nodup hc
    · have hother : ∀ r ∈ list, r.contextId ≠ c := by simpa using hc
      rw [mem_cons]
      exact or_congr_right ⟨fun hr => ⟨hother r hr, hr⟩, And.right⟩
  refine ⟨?_, fun r hr => ?_, fun c' g => ?_⟩
  · split_ifs with hc
    · rw [map_moveRecord]
      exact h.nodup
    · have hother : c ∉ list.map LockedAddr.contextId := by simpa using hc
      exact List.nodup_cons.2 ⟨hother, h.nodup⟩
  · rcases (hmem r).1 hr with rfl | ⟨-, hr⟩
    · exact mask_mask _
    · exact h.aligned r hr
  · rw [hmem, reserved_concat, h.reserved]
    by_cases hc : c' = c
    · subst hc
      simp [he, eq_comm (a := g * 16), mask_eq_iff]
    · have hnot : ¬ e.LoadLocked c' := by
        rintro ⟨-, hctx⟩
        exact hc (Option.some.inj (hctx.symm.trans he.2))
      simp [hnot, hc, hstores]

theorem Records.filter {list' : List LockedAddr} (h : Records list history)
    (he : ∀ c, ¬ e.LoadLocked c) (hsub : list'.Sublist list)
    (hmem : ∀ r ∈ list, r ∈ list' ↔ ∀ w ∈ e.stores, LockedAddr.mask w.1 ≠ r.addr) :
    Records list' (history ++ [e]) := by
  refine ⟨h.nodup.sublist (hsub.map _), fun r hr => h.aligned r (hsub.subset hr), fun c g => ?_⟩
  rw [reserved_concat, ← h.reserved]
  constructor
  · intro hr
    refine .inr ⟨he c, hsub.subset hr, fun w hw hg => ?_⟩
    exact (hmem _ (hsub.subset hr)).1 hr w hw (mask_eq_iff.2 hg)
  · rintro (⟨hll, -⟩ | ⟨-, hr, hstores⟩)
    · exact absurd hll (he c)
    · exact (hmem _ hr).2 fun w hw hg => hstores w hw (mask_eq_iff.1 hg)

section

variable (heffect : Effect s pkt e s')
include heffect

theorem Effect.records (h : Records s.lockedAddrList history) (htracked : s.Tracked pkt) :
    Records s'.lockedAddrList (history ++ [e]) := by
  have hno : ∀ {response : AccessPacket} {performed : Bool} {stores : List (ℕ × UInt8)},
      pkt.cmd.isWrite = true → ∀ c, ¬ Event.LoadLocked c { pkt, response, performed, stores } := by
    rintro _ _ _ hwrite c ⟨hll, -⟩
    rw [show pkt.cmd = .loadLockedReq from hll] at hwrite
    cases hwrite
  cases heffect with
  | @loadLocked response c hcmd hc => exact h.loadLocked (e := { pkt, response }) ⟨hcmd, hc⟩ rfl
  | fails hwrite => exact h.filter (hno hwrite) (List.Sublist.refl _) (by simp)
  | @writes _ stores hwrite hswap hallow hstores =>
    refine h.filter (hno hwrite) List.filter_sublist fun r hr => ?_
    have hr' := htracked r hr
    rw [if_neg hswap] at hr'
    have hstart := hr' ⟨hwrite, hallow⟩
    have hkept : r ∈ s.lockedAddrList.filter (fun r => r.addr ≠ LockedAddr.mask pkt.addr) ↔
        ¬ LockedAddr.mask pkt.addr = r.addr := by
      simp [hr, eq_comm (a := r.addr)]
    refine hkept.trans ?_
    rw [← hstart]
    constructor
    · rintro hnone w hw heq
      obtain ⟨i, hi, hen, hw'⟩ := (hstores w.1).1 ⟨w, hw, rfl⟩
      exact hnone ⟨i, hi, hen, by rw [hw', heq]⟩
    · rintro hnone ⟨i, hi, hen, heq⟩
      obtain ⟨w, hw, hw'⟩ := (hstores (pkt.addr + i)).2 ⟨i, hi, hen, rfl⟩
      exact hnone w hw (by rw [hw', heq])
  | @swaps _ _ stores hcmd hstores =>
    refine h.filter (hno (by rw [hcmd]; rfl)) (List.Sublist.refl _) fun r hr => ?_
    have hr' := htracked r hr
    rw [if_pos hcmd] at hr'
    refine iff_of_true hr fun w hw => ?_
    obtain ⟨hover, i, hi, hw'⟩ := hstores w hw
    rw [← hw']
    exact hr' hover i hi

theorem Effect.performed_iff (h : Records s.lockedAddrList history)
    (hcmd : e.pkt.cmd = .storeCondReq) (hc : e.pkt.contextId = some c) :
    e.performed = true ↔ Reserved c (e.pkt.addr / 16) history := by
  have hallow : ∀ {pkt : AccessPacket}, pkt.cmd = .storeCondReq → pkt.contextId = some c →
      (s.allowStore pkt = true ↔ Reserved c (pkt.addr / 16) history) := by
    intro pkt hcmd hc
    rw [← h.reserved]
    have hll : pkt.cmd.isLLSC = true := by rw [hcmd]; rfl
    simp only [allowStore, hll, hc, Bool.not_true, Bool.false_or, List.any_eq_true,
      Bool.and_eq_true, decide_eq_true_eq, Option.some.injEq]
    constructor
    · rintro ⟨r, hr, haddr, rfl⟩
      obtain ⟨addr, c⟩ := r
      subst haddr
      exact hr
    · exact fun hr => ⟨_, hr, rfl, rfl⟩
  cases heffect with
  | loadLocked hll => simp [hll] at hcmd
  | fails _ _ hno => simp [← hallow hcmd hc, hno]
  | writes _ _ hyes => simp [← hallow hcmd hc, hyes]
  | swaps hswap => simp [hswap] at hcmd

theorem Effect.fails_frame (hcmd : pkt.cmd = .storeCondReq) (hfails : e.performed = false) :
    s' = s := by
  cases heffect with
  | loadLocked hll => simp [hll] at hcmd
  | fails => rfl
  | writes => cases hfails
  | swaps hswap => simp [hswap] at hcmd

theorem Effect.range_eq : s'.range = s.range := by
  cases heffect <;> rfl

end

theorem run_reserved {pkts : List AccessPacket} (history : List Event)
    (hpkts : ∀ pkt ∈ pkts, Regular s.range pkt) :
    ∃ events s', Run.run access s pkts = .ok (events, s') ∧
      (Records s.lockedAddrList history → Run.Along access Tracked s pkts →
        ∀ pre e post, events = pre ++ e :: post → e.pkt.cmd = .storeCondReq →
          ∀ c, e.pkt.contextId = some c →
            (e.performed = true ↔ Reserved c (e.pkt.addr / 16) (history ++ pre))) := by
  induction pkts generalizing s history with
  | nil =>
    refine ⟨[], s, rfl, fun _ _ pre e post heq => ?_⟩
    simp at heq
  | cons pkt pkts ih =>
    obtain ⟨e, s₁, hok, heffect⟩ := access_effect (hpkts pkt mem_cons_self)
    obtain ⟨events, s', hrun, hright⟩ := ih (s := s₁) (history ++ [e]) fun x hx => by
      rw [heffect.range_eq]
      exact hpkts x (List.mem_cons_of_mem _ hx)
    refine ⟨e :: events, s', Run.run_cons hok hrun, fun hrecords htracked => ?_⟩
    obtain ⟨hfirst, hrest⟩ := (Run.along_cons hok).1 htracked
    intro pre x post heq hcmd c hc
    cases pre with
    | nil =>
      cases heq
      rw [List.append_nil]
      exact heffect.performed_iff hrecords hcmd hc
    | cons y pre =>
      obtain ⟨rfl, htail⟩ := List.cons.inj heq
      have := hright (heffect.records hrecords hfirst) hrest pre x post htail hcmd c hc
      rwa [List.append_assoc] at this

theorem not_reserved_of_store {l : List Event} {w : ℕ × UInt8} (hw : w ∈ e.stores)
    (he : ¬ e.LoadLocked c) : ¬ Reserved c (w.1 / 16) (l ++ [e]) := by
  rw [reserved_concat]
  rintro (⟨hll, -⟩ | ⟨-, -, hnone⟩)
  · exact he hll
  · exact hnone w hw rfl

end Gem5Nvm.LockedMemory
