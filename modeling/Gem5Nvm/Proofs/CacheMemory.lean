import Gem5Nvm.CacheMemory

/-!
# The tag index of a cache memory and its slots

An entry that is not present counts as free where a slot is looked for, but its line stays in the
index.  Once the slot is taken by another line, the index leads to a wrong entry.
-/

namespace Gem5Nvm.CacheMemory

open Sim (bind_eq_ok bind₂_eq_ok ok_bind pure_eq)

variable {c c' : CacheMemory} {address : ℕ}

/-- The index and the slots agree in both directions. -/
structure Agrees (c : CacheMemory) : Prop where
  indexed : ∀ s w e, c.cache s w = some e →
    s = c.setOf e.address ∧ c.tagIndex e.address = some w
  stored : ∀ address w, c.tagIndex address = some w →
    ∃ e, c.cache (c.setOf address) w = some e ∧ e.address = address

/-- Every entry knows its slot, and there is more than one set. -/
structure Placed (c : CacheMemory) : Prop where
  bits : 0 < c.numSetBits
  slot : ∀ s w e, c.cache s w = some e → e.set = s ∧ e.way = w

theorem addressToCacheSet_eq (hb : 0 < c.numSetBits) (h : address = c.makeLineAddress address) :
    c.addressToCacheSet address = .ok (c.setOf address) := by
  have hle : c.startIndexBit ≤ c.startIndexBit + c.numSetBits - 1 := by omega
  have hwidth : c.startIndexBit + c.numSetBits - 1 - c.startIndexBit + 1 = c.numSetBits := by omega
  simp only [addressToCacheSet, assert, beq_iff_eq.2 h, if_true, ok_bind, bitsBetween, ge_iff_le,
    hle, decide_true, hwidth, pure_eq, setOf]

theorem Agrees.lookup_eq (hc : c.Agrees) (hb : 0 < c.numSetBits)
    (h : address = c.makeLineAddress address) :
    (c.lookup address = .ok none ∧ ∀ w e, c.tagIndex address = some w →
      c.cache (c.setOf address) w = some e → e.permission = .notPresent) ∨
    ∃ w e, c.lookup address = .ok (some e) ∧ c.tagIndex address = some w ∧
      c.cache (c.setOf address) w = some e ∧ e.address = address := by
  simp only [lookup, assert, beq_iff_eq.2 h, if_true, ok_bind, addressToCacheSet_eq hb h,
    findTagInSet]
  rcases hidx : c.tagIndex address with _ | w
  · left
    simp
  · obtain ⟨e, he, haddr⟩ := hc.stored address w hidx
    simp only [he, pure_eq, ok_bind]
    by_cases hp : e.permission = .notPresent
    · left
      refine ⟨by simp [hp], fun w' e' hw' he' => ?_⟩
      cases hw'
      rw [he] at he'
      cases he'
      exact hp
    · right
      exact ⟨w, e, by simp [hp, he], rfl, he, haddr⟩

theorem Agrees.unique (hc : c.Agrees) {s w s' w' : ℕ} {e e' : CacheEntry} (h : c.cache s w = some e)
    (h' : c.cache s' w' = some e') (ha : e.address = e'.address) : s = s' ∧ w = w' := by
  obtain ⟨hs, hw⟩ := hc.indexed s w e h
  obtain ⟨hs', hw'⟩ := hc.indexed s' w' e' h'
  rw [ha] at hs hw
  exact ⟨hs.trans hs'.symm, Option.some.inj (hw.symm.trans hw')⟩

theorem allocate_spec (hb : 0 < c.numSetBits) (h : c.allocate address = .ok c') :
    address = c.makeLineAddress address ∧ c.lookup address = .ok none ∧
      ∃ i ∈ c.firstOpen (c.setOf address),
        c' = c.place (c.setOf address) i ⟨address, .invalid, -1, c.setOf address, i⟩ := by
  obtain ⟨⟨⟩, hline, h⟩ := bind_eq_ok.1 h
  rw [assert_eq_ok, beq_iff_eq] at hline
  obtain ⟨present, hpresent, ⟨⟩, habsent, h⟩ := bind₂_eq_ok.1 h
  obtain ⟨avail, -, h⟩ := bind_eq_ok.1 h
  obtain ⟨-, -, hplace⟩ := bind_eq_ok.1 h
  rw [addressToCacheSet_eq hb hline, ok_bind] at hplace
  rw [assert_eq_ok] at habsent
  obtain ⟨entry, hentry, hpresent⟩ := bind_eq_ok.1 hpresent
  cases hpresent
  obtain rfl : entry = none := by simpa using habsent
  refine ⟨hline, hentry, ?_⟩
  split at hplace
  next i hopen =>
    cases hplace
    exact ⟨i, hopen, rfl⟩
  next => cases hplace

theorem Agrees.no_panic (hc : c.Agrees) (hb : 0 < c.numSetBits) (address : ℕ) (msg : String) :
    c.allocate address ≠ .error (.panic msg) := by
  unfold allocate
  by_cases hline : address = c.makeLineAddress address
  · simp only [assert, beq_iff_eq.2 hline, if_true, ok_bind, isTagPresent, cacheAvail,
      addressToCacheSet_eq hb hline]
    rcases hc.lookup_eq hb hline with ⟨hnone, habsent⟩ | ⟨w, e, hsome, -⟩
    · simp only [hnone, ok_bind, pure_eq, Option.isSome_none, Bool.not_false, if_true]
      split_ifs with havail
      · rw [ok_bind]
        rcases hopen : c.firstOpen (c.setOf address) with _ | i
        · exfalso
          obtain ⟨i, hi, hslot⟩ := List.any_eq_true.1 havail
          have hclosed := List.find?_eq_none.1 hopen i hi
          unfold isOpen at hclosed
          rcases hentry : c.cache (c.setOf address) i with _ | e <;>
            simp only [hentry, decide_eq_true_eq] at hslot hclosed
          · exact hclosed trivial
          · obtain rfl := hslot.resolve_right hclosed
            exact hclosed (habsent i e (hc.indexed _ i e hentry).2 hentry)
        · simp
      · simp
    · simp [hsome]
  · simp [assert, hline]

theorem Agrees.sound (hc : c.Agrees) (hb : 0 < c.numSetBits) : c.Sound where
  lookup := by
    intro address h
    rcases hc.lookup_eq hb h with ⟨hnone, -⟩ | ⟨w, e, hsome, -, -, haddr⟩
    · exact ⟨none, hnone, by simp⟩
    · exact ⟨some e, hsome, by simpa using haddr⟩
  unique := fun _ _ _ _ _ _ => hc.unique
  indexed := hc.indexed
  stored := hc.stored
  no_panic := hc.no_panic hb

theorem write_slot (f : ℕ → ℕ → Option CacheEntry) (s w : ℕ) (v : Option CacheEntry) (s' w' : ℕ) :
    Function.update f s (Function.update (f s) w v) s' w' =
      if s' = s ∧ w' = w then v else f s' w' := by
  by_cases hs : s' = s
  · subst hs
    simp [Function.update_apply]
  · simp [hs]

theorem place_cache (c : CacheMemory) (s w : ℕ) (e : CacheEntry) (s' w' : ℕ) :
    (c.place s w e).cache s' w' = if s' = s ∧ w' = w then some e else c.cache s' w' :=
  write_slot c.cache s w (some e) s' w'

theorem place_tagIndex (c : CacheMemory) (s w : ℕ) (e : CacheEntry) (a : ℕ) :
    (c.place s w e).tagIndex a = if a = e.address then some w else c.tagIndex a := by
  simp only [place, Function.update_apply]

/-- After an allocation index and slots agree exactly if it took an empty slot for a line without
entry, or the line's own. -/
theorem allocate_agrees_iff (hc : c.Agrees) (hb : 0 < c.numSetBits)
    (h : c.allocate address = .ok c') : c'.Agrees ↔ c.ReusesOwn (.allocate address) := by
  obtain ⟨-, -, i, hi, rfl⟩ := allocate_spec hb h
  have hset : ∀ s w e a, (c.place s w e).setOf a = c.setOf a := fun _ _ _ _ => rfl
  constructor
  · rintro ⟨hindexed, hstored⟩ j hj
    obtain rfl : i = j := Option.mem_unique hi hj
    simp only [hset, place_cache, place_tagIndex] at hindexed hstored
    rcases hold : c.cache (c.setOf address) i with _ | e
    · refine .inl ⟨rfl, ?_⟩
      -- another slot of the line would not be indexed any more
      by_contra hne
      obtain ⟨k, hk⟩ := Option.ne_none_iff_exists'.1 hne
      obtain ⟨e, he, haddr⟩ := hc.stored address k hk
      have hki : k ≠ i := by
        rintro rfl
        simp [hold] at he
      have := (hindexed (c.setOf address) k e (by rw [if_neg (by simp [hki]), he])).2
      rw [haddr, if_pos rfl] at this
      exact hki (Option.some.inj this).symm
    · obtain ⟨hs, hw⟩ := hc.indexed _ i e hold
      by_cases haddr : e.address = address
      · rw [haddr] at hw
        exact .inr hw
      · -- the line that was there is still indexed
        obtain ⟨e', he', haddr'⟩ := hstored e.address i (by rw [if_neg haddr, hw])
        rw [if_pos ⟨hs.symm, rfl⟩] at he'
        cases he'
        exact absurd haddr'.symm haddr
  · intro hown
    have hown := hown i hi
    have hslot : ∀ e, c.cache (c.setOf address) i = some e → e.address = address := by
      intro e he
      rcases hown with ⟨hnone, -⟩ | hidx
      · simp [hnone] at he
      · obtain ⟨e', he', haddr⟩ := hc.stored address i hidx
        rw [he] at he'
        cases he'
        exact haddr
    have hidx : ∀ w, c.tagIndex address = some w → w = i := by
      intro w hw
      rcases hown with ⟨-, hnone⟩ | hidx
      · simp [hnone] at hw
      · rw [hidx] at hw
        exact (Option.some.inj hw).symm
    refine ⟨fun s w e he => ?_, fun a w ha => ?_⟩
    · simp only [hset, place_cache, place_tagIndex] at he ⊢
      split_ifs at he with hsw
      · cases he
        simp [hsw]
      · obtain ⟨hs, hw⟩ := hc.indexed s w e he
        refine ⟨hs, ?_⟩
        rw [if_neg, hw]
        intro haddr
        rw [haddr] at hs hw
        exact hsw ⟨hs, hidx w hw⟩
    · simp only [hset, place_cache, place_tagIndex] at ha ⊢
      split_ifs at ha with haddr
      · cases ha
        exact ⟨_, by rw [if_pos ⟨by rw [haddr], rfl⟩], haddr.symm⟩
      · obtain ⟨e, he, hea⟩ := hc.stored a w ha
        refine ⟨e, ?_, hea⟩
        rw [if_neg, he]
        rintro ⟨hs, rfl⟩
        rw [hs] at he
        exact haddr (hea ▸ hslot e he)

theorem deallocate_agrees (hc : c.Agrees) (hp : c.Placed) (h : c.deallocate address = .ok c') :
    c'.Agrees ∧ c'.Placed := by
  obtain ⟨entry, hlook, h⟩ := bind_eq_ok.1 h
  have hline : address = c.makeLineAddress address := by
    by_contra hne
    simp [lookup, assert, hne] at hlook
  rcases entry with _ | e
  · cases h
  cases h
  rcases hc.lookup_eq hp.bits hline with ⟨hnone, -⟩ | ⟨w, e', hsome, hidx, he, haddr⟩
  · rw [hnone] at hlook
    cases hlook
  rw [hsome] at hlook
  cases hlook
  obtain ⟨hs, hw⟩ := hp.slot _ _ _ he
  rw [hs, hw]
  refine ⟨⟨fun s' w' e' he' => ?_, fun a w' ha => ?_⟩, hp.bits, fun s' w' e' he' => ?_⟩ <;>
    simp only [write_slot, Function.update_apply] at *
  · split_ifs at he' with hsw
    obtain ⟨hs', hw'⟩ := hc.indexed s' w' e' he'
    refine ⟨hs', ?_⟩
    rw [if_neg, hw']
    intro ha
    rw [ha] at hs' hw'
    rw [hidx] at hw'
    exact hsw ⟨hs', (Option.some.inj hw').symm⟩
  · split_ifs at ha with haddr'
    obtain ⟨e', he', hea⟩ := hc.stored a w' ha
    refine ⟨e', ?_, hea⟩
    change (if c.setOf a = c.setOf address ∧ w' = w then none else _) = _
    rw [if_neg]
    · exact he'
    rintro ⟨hset, rfl⟩
    rw [hset, he] at he'
    cases he'
    exact haddr' (hea.symm.trans haddr)
  · split_ifs at he'
    exact hp.slot s' w' e' he'

theorem changePermission_agrees (hc : c.Agrees) (hp : c.Placed) {s w : ℕ} {perm : AccessPermission}
    (h : c.changePermission s w perm = .ok c') : c'.Agrees ∧ c'.Placed := by
  unfold changePermission at h
  rcases hslot : c.cache s w with _ | e <;> simp only [hslot] at h
  · cases h
  cases h
  refine ⟨⟨fun s' w' e' he' => ?_, fun a w' ha => ?_⟩, hp.bits, fun s' w' e' he' => ?_⟩ <;>
    simp only [write_slot] at *
  · split_ifs at he' with hsw
    · obtain ⟨rfl, rfl⟩ := hsw
      cases he'
      exact hc.indexed s' w' e hslot
    · exact hc.indexed s' w' e' he'
  · obtain ⟨e', he', hea⟩ := hc.stored a w' ha
    change ∃ e₀, (if c.setOf a = s ∧ w' = w then some (e.changePermission perm) else _)
      = some e₀ ∧ _
    split_ifs with hsw
    · obtain ⟨rfl, rfl⟩ := hsw
      rw [hslot] at he'
      cases he'
      exact ⟨_, rfl, hea⟩
    · exact ⟨e', he', hea⟩
  · split_ifs at he' with hsw
    · obtain ⟨rfl, rfl⟩ := hsw
      cases he'
      exact hp.slot s' w' e hslot
    · exact hp.slot s' w' e' he'

theorem step_agrees (hc : c.Agrees) (hp : c.Placed) {call : Call} {u : Unit}
    (h : c.step call = .ok (u, c')) : c'.Placed ∧ (c'.Agrees ↔ c.ReusesOwn call) := by
  cases call with
  | allocate address =>
    obtain ⟨c₁, hc₁, h⟩ := bind_eq_ok.1 h
    cases h
    refine ⟨?_, allocate_agrees_iff hc hp.bits hc₁⟩
    obtain ⟨-, -, i, -, rfl⟩ := allocate_spec hp.bits hc₁
    refine ⟨hp.bits, fun s w e he => ?_⟩
    rw [place_cache] at he
    split_ifs at he with hsw
    · cases he
      simp [hsw]
    · exact hp.slot s w e he
  | deallocate address =>
    obtain ⟨c₁, hc₁, h⟩ := bind_eq_ok.1 h
    cases h
    obtain ⟨ha, hp'⟩ := deallocate_agrees hc hp hc₁
    exact ⟨hp', iff_of_true ha trivial⟩
  | changePermission s w perm =>
    obtain ⟨c₁, hc₁, h⟩ := bind_eq_ok.1 h
    cases h
    obtain ⟨ha, hp'⟩ := changePermission_agrees hc hp hc₁
    exact ⟨hp', iff_of_true ha trivial⟩

theorem init_agrees {size assoc blockSize startIndexBit blockSizeBits : ℕ}
    (h : init size assoc blockSize startIndexBit blockSizeBits = .ok c) : c.Agrees ∧ c.Placed := by
  obtain ⟨-, -, bits, -, h⟩ := bind₂_eq_ok.1 h
  obtain ⟨⟨⟩, hbits, h⟩ := bind_eq_ok.1 h
  rw [assert_eq_ok, decide_eq_true_eq] at hbits
  cases h
  exact ⟨⟨by simp, by simp⟩, hbits, by simp⟩

/-- A cache is sound after every call exactly if every allocation takes an empty slot for a line
without entry, or the slot of the line's own entry, which is not present. -/
theorem sound_iff_reusesOwn {size assoc blockSize startIndexBit blockSizeBits : ℕ}
    (hinit : init size assoc blockSize startIndexBit blockSizeBits = .ok c) {calls : List Call}
    {us : List Unit} (hrun : Run.run step c calls = .ok (us, c')) :
    Run.Along step (fun c call => ∀ u c', c.step call = .ok (u, c') → c'.Sound) c calls ↔
      Run.Along step ReusesOwn c calls := by
  refine Run.along_congr_of_run (I := fun c => c.Agrees ∧ c.Placed) ?_ (init_agrees hinit) hrun
  intro c call u c' hI hs
  obtain ⟨hp, hiff⟩ := step_agrees hI.1 hI.2 hs
  constructor
  · rw [← hiff]
    constructor
    · intro h
      have hsound := h u c' hs
      exact ⟨hsound.indexed, hsound.stored⟩
    · intro h u₁ c₁ hc₁
      rw [hs] at hc₁
      cases hc₁
      exact h.sound hp.bits
  · intro h
    have hsound := h u c' hs
    exact ⟨⟨hsound.indexed, hsound.stored⟩, hp⟩

def fourLines : CacheMemory := ⟨2, 1, 6, 6, fun _ _ => none, fun _ => none⟩

/-- Two lines of a set are allocated, and the first one again after it left. -/
theorem sound_iff_reusesOwn_again : ∃ calls us c', init 256 2 64 6 6 = .ok fourLines ∧
    calls.length = 4 ∧ Run.run step fourLines calls = .ok (us, c') ∧
    Run.Along step ReusesOwn fourLines calls ∧
    Run.Along step (fun c call => ∀ u c', c.step call = .ok (u, c') → c'.Sound)
      fourLines calls := by
  have hown : Run.Along step ReusesOwn fourLines
      [.allocate 0, .allocate 128, .changePermission 0 0 .notPresent, .allocate 0] := by
    refine (Run.along_cons rfl).2 ⟨?_, (Run.along_cons rfl).2 ⟨?_, (Run.along_cons rfl).2
      ⟨trivial, (Run.along_cons rfl).2 ⟨?_, trivial⟩⟩⟩⟩
    all_goals
      rintro i hi
      cases hi
    · exact .inl ⟨rfl, rfl⟩
    · exact .inl ⟨rfl, rfl⟩
    · exact .inr rfl
  have hinit : init 256 2 64 6 6 = .ok fourLines := rfl
  exact ⟨_, _, _, hinit, rfl, rfl, hown, (sound_iff_reusesOwn hinit rfl).2 hown⟩

/-- A line that is set to not present and whose slot is taken by another line of the set is found
again: as the other one. -/
theorem reused_slot_found_by_old_line : ∃ calls us c' e, init 256 2 64 6 6 = .ok fourLines ∧
    Run.run step fourLines calls = .ok (us, c') ∧ c'.lookup 0 = .ok (some e) ∧ e.address = 128 :=
  ⟨[.allocate 0, .changePermission 0 0 .notPresent, .allocate 128], _, _, _, rfl, rfl, rfl, rfl⟩

end Gem5Nvm.CacheMemory
