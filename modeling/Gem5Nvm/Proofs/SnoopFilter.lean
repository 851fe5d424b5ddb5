import Gem5Nvm.SnoopFilter

/-!
# What the snoop filter knows of the caches above it

A cache that has a line is in `holder` (`Inv.holds`), and the ports in `requested` are those whose
response will pass the filter (`Inv.requested`): the early clear of the holders happens when no
cache may keep the line over the snoop. An invalidating response to a cache maintenance request
takes the port out of `holder`, so that the cache must have lost the line by then.
-/

namespace Gem5Nvm

open Sim (bind_eq_ok bind₂_eq_ok)
open Finset
open Function (update_of_ne update update_eq_self)

namespace SnoopItem

variable {it : SnoopItem}

theorem isNull_iff : it.isNull = true ↔ it = {} := by
  simp only [isNull, decide_eq_true_eq, union_eq_empty]
  constructor
  · rintro ⟨h1, h2⟩
    ext1
    · exact h1
    · exact h2
  · rintro rfl
    exact ⟨rfl, rfl⟩

end SnoopItem

namespace SnoopFilter

variable {f f' : SnoopFilter} {pkt : SnoopPacket} {port line : ℕ} {it : SnoopItem}

theorem mem_maskToPortList {mask : Finset ℕ} {p : ℕ} :
    p ∈ f.maskToPortList mask ↔ p ∈ f.cpuSidePorts ∧ p ∈ mask := by
  unfold maskToPortList
  rw [List.mem_filter]
  refine and_congr_right fun hp => ?_
  have hs : f.isSnooping p = true := by simpa [isSnooping] using hp
  simp [portToMask, hs, Finset.Nonempty]

theorem portToMask_of_snooping (h : f.isSnooping port = true) : f.portToMask port = {port} := by
  simp [portToMask, h]

@[simp] theorem item_setItem_self : (f.setItem line it).item line = it := by
  simp [item, setItem]

theorem item_setItem_of_ne {l : ℕ} (h : l ≠ line) : (f.setItem line it).item l = f.item l := by
  simp [item, setItem, h]

@[simp] theorem item_eraseIfNullEntry (l : ℕ) : (f.eraseIfNullEntry line).item l = f.item l := by
  unfold eraseIfNullEntry
  split
  · rename_i it hit
    split_ifs with hnull
    · by_cases hl : l = line
      · subst hl
        rw [SnoopItem.isNull_iff] at hnull
        simp [item, hit, hnull]
      · simp [item, hl]
    · rfl
  · rfl

def NoNull (f : SnoopFilter) : Prop :=
  ∀ line it, f.cachedLocations line = some it → it.isNull = false

/-- The entries other than those of one line have ports. -/
def NoNullBut (f : SnoopFilter) (line : ℕ) : Prop :=
  ∀ l it, l ≠ line → f.cachedLocations l = some it → it.isNull = false

theorem NoNull.but (h : f.NoNull) (line : ℕ) : f.NoNullBut line := fun l it _ => h l it

theorem NoNullBut.setItem (h : f.NoNullBut line) (it : SnoopItem) :
    (f.setItem line it).NoNullBut line := by
  intro l it' hl hit
  rw [SnoopFilter.setItem] at hit
  simp only [update_of_ne hl] at hit
  exact h l it' hl hit

theorem NoNullBut.eraseIfNullEntry (h : f.NoNullBut line) : (f.eraseIfNullEntry line).NoNull := by
  intro l it hit
  unfold SnoopFilter.eraseIfNullEntry at hit
  by_cases hl : l = line
  · subst hl
    split at hit
    · rename_i it' hit'
      split_ifs at hit with hnull
      · simp at hit
      · rw [hit'] at hit
        cases hit
        simpa using hnull
    · rename_i hnone
      rw [hnone] at hit
      cases hit
  · split at hit
    · split_ifs at hit
      · simp only [update_of_ne hl] at hit
        exact h l it hl hit
      · exact h l it hl hit
    · exact h l it hl hit

theorem NoNullBut.setItem_noNull (h : f.NoNullBut line) (hit : it.isNull = false) :
    (f.setItem line it).NoNull := by
  intro l it' hl
  by_cases hne : l = line
  · subst hne
    simp only [SnoopFilter.setItem, Function.update_self, Option.some.injEq] at hl
    rw [← hl, hit]
  · exact h.setItem it l it' hne hl

def SameParams (f f' : SnoopFilter) : Prop :=
  f'.cpuSidePorts = f.cpuSidePorts ∧ f'.linesize = f.linesize

theorem SameParams.lineAddr (h : SameParams f f') (pkt : SnoopPacket) :
    f'.lineAddr pkt = f.lineAddr pkt := by
  simp [SnoopFilter.lineAddr, lineOf, h.2]

theorem sameParams_eraseIfNullEntry (f : SnoopFilter) (line : ℕ) :
    SameParams f (f.eraseIfNullEntry line) := by
  unfold eraseIfNullEntry
  split
  · split_ifs
    · exact ⟨rfl, rfl⟩
    · exact ⟨rfl, rfl⟩
  · exact ⟨rfl, rfl⟩

/-- What `lookupRequest` answers and leaves. -/
structure LookedUp (f f' : SnoopFilter) (pkt : SnoopPacket) (port : ℕ) (lookup : Lookup) :
    Prop where
  list : lookup.1 = f.maskToPortList
    (((f.item (f.lineAddr pkt)).holder ∪ (f.item (f.lineAddr pkt)).requested) \ f.portToMask port)
  params : SameParams f f'
  item : if f.allocates pkt port then
      requestItem pkt (f.portToMask port) (f.item (f.lineAddr pkt)) =
        .ok (f'.item (f.lineAddr pkt))
    else f'.item (f.lineAddr pkt) = f.item (f.lineAddr pkt)
  others : ∀ l, l ≠ f.lineAddr pkt → f'.cachedLocations l = f.cachedLocations l
  result : (f'.lookupResult = none ∧ f'.cachedLocations = f.cachedLocations ∧ f'.size = f.size) ∨
    (f'.lookupResult = some (f.lineAddr pkt) ∧
      (f.cachedLocations (f.lineAddr pkt) = none ∧ f'.size = f.size + 1 ∧ f'.retryItem = {} ∨
        f.cachedLocations (f.lineAddr pkt) = some f'.retryItem ∧ f'.size = f.size) ∧
      (f'.cachedLocations (f.lineAddr pkt)).isSome)

variable {lookup : Lookup}

theorem lookupRequest_ok (h : f.lookupRequest pkt port = .ok (lookup, f')) :
    LookedUp f f' pkt port lookup := by
  unfold lookupRequest at h
  dsimp only at h
  cases hhit : f.cachedLocations (f.lineAddr pkt) with
  | none =>
    have hitem : f.item (f.lineAddr pkt) = {} := by simp [item, hhit]
    cases halloc : f.allocates pkt port with
    | false =>
      simp only [hhit, halloc, Option.isNone_none, Bool.not_false, Bool.and_self, if_true] at h
      cases h
      refine ⟨?_, ⟨rfl, rfl⟩, by simp [halloc, item], fun _ _ => rfl, .inl ⟨rfl, rfl, rfl⟩⟩
      simp [hitem, snoopDown, maskToPortList]
    | true =>
      simp only [hhit, halloc, Option.isNone_none, Bool.not_true, Bool.and_false,
        Bool.false_eq_true, if_false, if_true, Option.getD_none] at h
      obtain ⟨it, hit, h⟩ := bind_eq_ok.1 h
      cases h
      refine ⟨?_, ⟨rfl, rfl⟩, ?_, fun l hl => ?_, .inr ⟨rfl, .inl ⟨hhit, rfl, rfl⟩, ?_⟩⟩
      · rw [hitem]
        rfl
      · simpa [halloc, hitem] using hit
      · simp [setItem, emplace, hl]
      · simp [setItem]
  | some it₀ =>
    have hitem : f.item (f.lineAddr pkt) = it₀ := by simp [item, hhit]
    cases halloc : f.allocates pkt port with
    | false =>
      simp only [hhit, halloc, Option.isNone_some, Bool.false_and, Bool.false_eq_true, if_false,
        Bool.not_false, if_true, Option.getD_some] at h
      cases h
      refine ⟨?_, ⟨rfl, rfl⟩, by simp [halloc, item], fun _ _ => rfl,
        .inr ⟨rfl, .inr ⟨hhit, rfl⟩, by simp [hhit]⟩⟩
      rw [hitem]
      rfl
    | true =>
      simp only [hhit, halloc, Option.isNone_some, Bool.false_and, Bool.false_eq_true, if_false,
        Bool.not_true, Option.getD_some] at h
      obtain ⟨it, hit, h⟩ := bind_eq_ok.1 h
      cases h
      refine ⟨?_, ⟨rfl, rfl⟩, ?_, fun l hl => ?_, .inr ⟨rfl, .inr ⟨hhit, rfl⟩, ?_⟩⟩
      · rw [hitem]
        rfl
      · simpa [halloc, hitem] using hit
      · simp [setItem, hl]
      · simp [setItem]

theorem finishRequest_false (h : LookedUp f f' pkt port lookup) :
    ∃ f₁, f'.finishRequest false pkt.addr pkt.isSecure = .ok f₁ ∧ SameParams f f₁ ∧
      (∀ l, f₁.item l = f'.item l) ∧ (f.NoNull → f₁.NoNull) := by
  have hline : f'.lineOf pkt.addr pkt.isSecure = f.lineAddr pkt := h.params.lineAddr pkt
  unfold finishRequest
  rcases h.result with ⟨hr, hc, -⟩ | ⟨hr, -, -⟩
  · rw [hr]
    refine ⟨f', rfl, h.params, fun _ => rfl, fun hn l it hit => ?_⟩
    rw [hc] at hit
    exact hn l it hit
  · rw [hr]
    refine ⟨f'.finishAt false (f.lineAddr pkt), by simp [hline, assert], ?_, fun l => ?_,
      fun hn => ?_⟩
    · obtain ⟨h1, h2⟩ := sameParams_eraseIfNullEntry f' (f.lineAddr pkt)
      exact ⟨h1.trans h.params.1, h2.trans h.params.2⟩
    · simp [finishAt]
    · have hbut : f'.NoNullBut (f.lineAddr pkt) := fun l it hl hit => by
        rw [h.others l hl] at hit
        exact hn l it hit
      exact hbut.eraseIfNullEntry

theorem finishRequest_true (hn : f.NoNull) (h : LookedUp f f' pkt port lookup) :
    ∃ f₁, f'.finishRequest true pkt.addr pkt.isSecure = .ok f₁ ∧ SameParams f f₁ ∧
      f₁.cachedLocations = f.cachedLocations ∧ f₁.size = f.size := by
  have hline : f'.lineOf pkt.addr pkt.isSecure = f.lineAddr pkt := h.params.lineAddr pkt
  unfold finishRequest
  rcases h.result with ⟨hr, hc, hsize⟩ | ⟨hr, hretry, -⟩
  · rw [hr]
    exact ⟨f', rfl, h.params, hc, hsize⟩
  · rw [hr]
    refine ⟨f'.finishAt true (f.lineAddr pkt), by simp [hline, assert], ?_, ?_⟩
    · obtain ⟨h1, h2⟩ := sameParams_eraseIfNullEntry
        (f'.setItem (f.lineAddr pkt) f'.retryItem) (f.lineAddr pkt)
      exact ⟨h1.trans h.params.1, h2.trans h.params.2⟩
    · have hmap : ∀ x, update (update f'.cachedLocations (f.lineAddr pkt)
          (some f'.retryItem)) (f.lineAddr pkt) x = update f.cachedLocations
            (f.lineAddr pkt) x := by
        intro x
        funext l
        by_cases hl : l = f.lineAddr pkt
        · simp [hl]
        · simp [hl, h.others l hl]
      rcases hretry with ⟨hnone, hsize, hitem⟩ | ⟨hsome, hsize⟩
      · -- the entry that was made for the lookup goes again
        have hnull : (f'.retryItem).isNull = true := by
          rw [hitem]
          decide
        have herase : f'.finishAt true (f.lineAddr pkt) =
            { f'.setItem (f.lineAddr pkt) f'.retryItem with
            cachedLocations := update (update f'.cachedLocations (f.lineAddr pkt)
              (some f'.retryItem)) (f.lineAddr pkt) none
            size := f'.size - 1 } := by
          simp [finishAt, eraseIfNullEntry, setItem, hnull]
        rw [herase]
        refine ⟨?_, by simp [hsize]⟩
        exact (hmap none).trans (by rw [← hnone, update_eq_self])
      · have hnull := hn _ _ hsome
        have hkeep : f'.finishAt true (f.lineAddr pkt) =
            f'.setItem (f.lineAddr pkt) f'.retryItem := by
          simp [finishAt, eraseIfNullEntry, setItem, hnull]
        rw [hkeep]
        refine ⟨?_, hsize⟩
        have hsame := hmap (some f'.retryItem)
        rw [Function.update_idem] at hsame
        exact hsame.trans (by rw [← hsome, update_eq_self])

/-- What an update of one line leaves. -/
structure Edited (f f' : SnoopFilter) (line : ℕ) (it : SnoopItem) : Prop where
  params : SameParams f f'
  item : f'.item line = it
  others : ∀ l, l ≠ line → f'.item l = f.item l
  noNull : f.NoNull → f'.NoNull

theorem Edited.refl (f : SnoopFilter) (line : ℕ) : Edited f f line (f.item line) :=
  ⟨⟨rfl, rfl⟩, rfl, fun _ _ => rfl, id⟩

theorem edited_erase (f : SnoopFilter) (line : ℕ) (it : SnoopItem) :
    Edited f ((f.setItem line it).eraseIfNullEntry line) line it := by
  obtain ⟨h1, h2⟩ := sameParams_eraseIfNullEntry (f.setItem line it) line
  refine ⟨⟨h1, h2⟩, by simp, fun l hl => ?_, fun hn => ((hn.but line).setItem it).eraseIfNullEntry⟩
  rw [item_eraseIfNullEntry, item_setItem_of_ne hl]

theorem edited_set (f : SnoopFilter) (line : ℕ) (hit : it.isNull = false) :
    Edited f (f.setItem line it) line it :=
  ⟨⟨rfl, rfl⟩, by simp, fun _ hl => item_setItem_of_ne hl,
    fun hn => (hn.but line).setItem_noNull hit⟩

theorem lookupSnoop_ok (h : f.lookupSnoop pkt = .ok (lookup, f')) :
    lookup.1 = f.maskToPortList
        ((f.item (f.lineAddr pkt)).holder ∪ (f.item (f.lineAddr pkt)).requested) ∧
      Edited f f' (f.lineAddr pkt)
        (if pkt.cmd.isInvalidate && decide ((f.item (f.lineAddr pkt)).requested = ∅) then
          { f.item (f.lineAddr pkt) with holder := ∅ } else f.item (f.lineAddr pkt)) := by
  unfold lookupSnoop at h
  obtain ⟨_, -, h⟩ := bind_eq_ok.1 h
  dsimp only at h
  split at h
  · rename_i hnone
    have hitem : f.item (f.lineAddr pkt) = {} := by simp [item, hnone]
    obtain ⟨_, -, h⟩ := bind_eq_ok.1 h
    cases h
    refine ⟨by simp [hitem, snoopDown, maskToPortList], ?_⟩
    have hself := Edited.refl f (f.lineAddr pkt)
    rw [hitem] at hself ⊢
    simpa using hself
  · rename_i it₀ hsome
    have hitem : f.item (f.lineAddr pkt) = it₀ := by simp [item, hsome]
    obtain ⟨_, -, h⟩ := bind_eq_ok.1 h
    cases h
    rw [hitem]
    refine ⟨rfl, ?_⟩
    unfold clearHolders
    split_ifs
    · exact edited_erase f _ _
    · have hself := Edited.refl f (f.lineAddr pkt)
      rwa [hitem] at hself

variable {rspPort reqPort : ℕ}

theorem updateSnoopResponse_ok (h : f.updateSnoopResponse pkt rspPort reqPort = .ok f') :
    (f' = f ∧ (pkt.req.uncacheable = true ∨ f.isSnooping reqPort = false)) ∨
      (pkt.req.uncacheable = false ∧ f.isSnooping reqPort = true ∧
        Edited f f' (f.lineAddr pkt)
          { requested := (f.item (f.lineAddr pkt)).requested.erase reqPort
            holder := (if !pkt.hasSharers then ∅ else (f.item (f.lineAddr pkt)).holder) ∪
              {reqPort} }) := by
  unfold updateSnoopResponse at h
  obtain ⟨_, -, _, -, h⟩ := bind₂_eq_ok.1 h
  by_cases hout : (pkt.req.uncacheable || !f.isSnooping reqPort) = true
  · rw [if_pos hout] at h
    cases h
    exact .inl ⟨rfl, by simpa using hout⟩
  · rw [if_neg hout] at h
    simp only [Bool.or_eq_true, Bool.not_eq_true', not_or, Bool.not_eq_true,
      Bool.not_eq_false] at hout
    obtain ⟨_, -, _, -, h⟩ := bind₂_eq_ok.1 h
    obtain ⟨_, -, _, hnull, h⟩ := bind₂_eq_ok.1 h
    cases h
    refine .inr ⟨hout.1, hout.2, ?_⟩
    have hnull' := assert_eq_ok.1 hnull
    rw [Bool.not_eq_true'] at hnull'
    have hset := edited_set f (f.lineAddr pkt) hnull'
    simp only [portToMask_of_snooping hout.2, sdiff_singleton_eq_erase] at hset ⊢
    exact hset

theorem updateSnoopForward_ok (h : f.updateSnoopForward pkt = .ok f') :
    Edited f f' (f.lineAddr pkt)
      { f.item (f.lineAddr pkt) with
        holder := if !pkt.hasSharers then ∅ else (f.item (f.lineAddr pkt)).holder } := by
  unfold updateSnoopForward at h
  obtain ⟨_, -, _, -, h⟩ := bind₂_eq_ok.1 h
  have hself := Edited.refl f (f.lineAddr pkt)
  dsimp only at h
  split at h
  · rename_i hnone
    have hitem : f.item (f.lineAddr pkt) = {} := by simp [item, hnone]
    cases h
    rw [hitem] at hself ⊢
    simpa using hself
  · rename_i it₀ hsome
    have hitem : f.item (f.lineAddr pkt) = it₀ := by simp [item, hsome]
    rw [hitem] at hself ⊢
    split_ifs at h ⊢
    · cases h
      exact edited_erase f _ _
    · cases h
      exact hself

theorem updateResponse_ok (h : f.updateResponse pkt port = .ok f') :
    (f' = f ∧ (pkt.req.uncacheable = true ∨ f.isSnooping port = false ∨
        f.cachedLocations (f.lineAddr pkt) = none)) ∨
      (pkt.req.uncacheable = false ∧ f.isSnooping port = true ∧
        Edited f f' (f.lineAddr pkt)
          { requested := (f.item (f.lineAddr pkt)).requested.erase port
            holder := if pkt.req.isCacheMaintenance then
              if pkt.cmd.isInvalidate then (f.item (f.lineAddr pkt)).holder.erase port
              else (f.item (f.lineAddr pkt)).holder
            else (f.item (f.lineAddr pkt)).holder ∪ {port} }) := by
  unfold updateResponse at h
  obtain ⟨_, -, h⟩ := bind_eq_ok.1 h
  split_ifs at h with hout
  · cases h
    left
    refine ⟨rfl, ?_⟩
    have : pkt.req.uncacheable = true ∨ f.isSnooping port = false := by simpa using hout
    tauto
  · simp only [Bool.or_eq_true, Bool.not_eq_true', not_or, Bool.not_eq_true,
      Bool.not_eq_false] at hout
    dsimp only at h
    split at h
    · rename_i hnone
      cases h
      exact .inl ⟨rfl, .inr (.inr hnone)⟩
    · rename_i it₀ hsome
      have hitem : f.item (f.lineAddr pkt) = it₀ := by simp [item, hsome]
      obtain ⟨_, -, h⟩ := bind_eq_ok.1 h
      refine .inr ⟨hout.1, hout.2, ?_⟩
      rw [hitem]
      unfold responseItem at h
      rw [portToMask_of_snooping hout.2] at h
      simp only [sdiff_singleton_eq_erase] at h
      split_ifs at h ⊢
      · cases h
        exact edited_erase f _ _
      · cases h
        exact edited_erase f _ _
      · obtain ⟨_, hnull, h⟩ := bind_eq_ok.1 h
        cases h
        exact edited_set f _ (by simpa using assert_eq_ok.1 hnull)

end SnoopFilter

namespace SnoopWorld

open SnoopFilter

variable {w w' : SnoopWorld} {pkt : SnoopPacket} {port : ℕ}

/-- What the filter knows: the requests whose response it will see, and every cache that has a
line as a holder of it. -/
structure Inv (w : SnoopWorld) : Prop where
  requested : ∀ line, (w.filter.item line).requested = w.outstanding line
  holds : ∀ line, w.holds line ⊆ (w.filter.item line).holder
  ports : ∀ line, ∀ p ∈ w.holds line ∪ w.outstanding line, p ∈ w.filter.cpuSidePorts
  noNull : w.filter.NoNull

theorem Inv.tracked (h : w.Inv) : w.Tracked :=
  fun line => (h.holds line).trans subset_union_left

theorem Inv.reached (h : w.Inv) : w.Reached := by
  constructor
  · intro pkt port lookup f hl p hp hne
    rw [(lookupRequest_ok hl).list, mem_maskToPortList]
    refine ⟨h.ports _ p (mem_union_left _ hp), mem_sdiff.2
      ⟨mem_union_left _ (h.holds _ hp), ?_⟩⟩
    unfold portToMask
    split_ifs <;> simp [hne]
  · intro pkt lookup f hl p hp
    rw [(lookupSnoop_ok hl).1, mem_maskToPortList]
    exact ⟨h.ports _ p (mem_union_left _ hp), mem_union_left _ (h.holds _ hp)⟩

theorem Inv.undone (h : w.Inv) : w.Undone := by
  intro pkt port lookup f hl
  obtain ⟨f₁, hf₁, -, hmap, hsize⟩ := finishRequest_true h.noNull (lookupRequest_ok hl)
  exact ⟨f₁, hf₁, hmap, hsize⟩

variable {holds : Finset ℕ}

variable {f : SnoopFilter}

theorem Inv.edit {line : ℕ} {outstanding : Finset ℕ} (h : w.Inv) (he : Edited w.filter f line it)
    (hreq : it.requested = outstanding) (hhold : holds ⊆ it.holder)
    (hports : ∀ p ∈ holds ∪ outstanding, p ∈ w.filter.cpuSidePorts) :
    (({ w with filter := f }.hold line holds).await line outstanding).Inv := by
  refine ⟨fun l => ?_, fun l => ?_, fun l p hp => ?_, he.noNull h.noNull⟩
  · by_cases hl : l = line
    · subst hl
      simpa [hold, await, he.item] using hreq
    · simpa [hold, await, hl, he.others l hl] using h.requested l
  · by_cases hl : l = line
    · subst hl
      simpa [hold, await, he.item] using hhold
    · simpa [hold, await, hl, he.others l hl] using h.holds l
  · have hcpu : f.cpuSidePorts = w.filter.cpuSidePorts := he.params.1
    change p ∈ f.cpuSidePorts
    rw [hcpu]
    by_cases hl : l = line
    · subst hl
      exact hports p (by simpa [hold, await] using hp)
    · exact h.ports l p (by simpa [hold, await, hl] using hp)

theorem Inv.editHolds {line : ℕ} (h : w.Inv) (he : Edited w.filter f line it)
    (hreq : it.requested = (w.filter.item line).requested) (hhold : holds ⊆ it.holder)
    (hsub : holds ⊆ w.holds line) : ({ w with filter := f }.hold line holds).Inv := by
  have hall := h.edit he (hreq.trans (h.requested line)) hhold fun p hp =>
    h.ports line p (union_subset_union_left hsub hp)
  have hsame : ({ w with filter := f }.hold line holds).await line (w.outstanding line) =
      { w with filter := f }.hold line holds := by
    simp [await, hold]
  rwa [hsame] at hall

theorem holdsAfterRequest_subset (pkt : SnoopPacket) (port : ℕ) (willRetry : Bool)
    (dropped : Finset ℕ) (snooped : List ℕ) (holds : Finset ℕ) :
    holdsAfterRequest pkt port willRetry dropped snooped holds ⊆ holds := by
  have hfirst : (if pkt.cmd.isInvalidate then holds \ (dropped ∩ snooped.toFinset) else holds) ⊆
      holds := by
    split_ifs
    · exact sdiff_subset
    · exact Subset.refl _
  unfold holdsAfterRequest
  dsimp only
  by_cases hev : (pkt.cmd.isEviction && !pkt.blockCached && !willRetry) = true
  · rw [if_pos hev]
    exact (erase_subset _ _).trans hfirst
  · rw [if_neg hev]
    exact hfirst

theorem requestItem_ok {it it' : SnoopItem} (dropped : Finset ℕ) (snooped : List ℕ)
    (h : requestItem pkt {port} it = .ok it') (hh : holds ⊆ it.holder) :
    it'.requested = (if pkt.cmd.needsResponse && !pkt.cacheResponding then
        insert port it.requested else it.requested) ∧
      holdsAfterRequest pkt port false dropped snooped holds ⊆ it'.holder := by
  unfold requestItem at h
  have hsub := (holdsAfterRequest_subset pkt port false dropped snooped holds).trans hh
  split_ifs at h with hneed hresp hcached
  · obtain ⟨_, -, h⟩ := bind_eq_ok.1 h
    cases h
    refine ⟨?_, hsub⟩
    simp only [hneed, hresp, Bool.and_self, if_true]
    rw [union_comm, singleton_union]
  · obtain ⟨_, -, h⟩ := bind_eq_ok.1 h
    cases h
    exact ⟨by simp_all, hsub⟩
  · obtain ⟨_, hev, _, -, h⟩ := bind₂_eq_ok.1 h
    cases h
    refine ⟨by simp [hneed], ?_⟩
    -- the sender has lost the line
    have hev' : pkt.cmd.isEviction = true := assert_eq_ok.1 hev
    have hgone : port ∉ holdsAfterRequest pkt port false dropped snooped holds := by
      simp [holdsAfterRequest, hev', hcached]
    intro p hp
    rw [mem_sdiff, mem_singleton]
    exact ⟨hsub hp, fun hpp => hgone (hpp ▸ hp)⟩
  · obtain ⟨_, -, _, -, h⟩ := bind₂_eq_ok.1 h
    cases h
    exact ⟨by simp [hneed], hsub⟩

theorem allocates_snooping (h : f.allocates pkt port = true) :
    f.isSnooping port = true ∧ port ∈ f.cpuSidePorts := by
  simp only [allocates, Bool.and_eq_true] at h
  exact ⟨h.1.2, by simpa [isSnooping] using h.1.2⟩

variable {snooped : List ℕ}

theorem request_inv {willRetry : Bool} {dropped : Finset ℕ} (hI : w.Inv)
    (h : w.request pkt port willRetry dropped = .ok (snooped, w')) : w'.Inv := by
  unfold request at h
  obtain ⟨⟨lookup, f⟩, hl, f₁, hf₁, h⟩ := bind₂_eq_ok.1 h
  cases h
  have hlook := lookupRequest_ok hl
  have hsub := holdsAfterRequest_subset pkt port willRetry dropped lookup.1
    (w.holds (w.filter.lineAddr pkt))
  have hports : ∀ (outstanding : Finset ℕ),
      (∀ p ∈ outstanding, p ∈ w.filter.cpuSidePorts) →
      ∀ p ∈ holdsAfterRequest pkt port willRetry dropped lookup.1
        (w.holds (w.filter.lineAddr pkt)) ∪ outstanding, p ∈ w.filter.cpuSidePorts := by
    intro outstanding hout p hp
    rcases mem_union.1 hp with hp | hp
    · exact hI.ports _ p (mem_union_left _ (hsub hp))
    · exact hout p hp
  have hold : ∀ p ∈ w.outstanding (w.filter.lineAddr pkt), p ∈ w.filter.cpuSidePorts :=
    fun p hp => hI.ports _ p (mem_union_right _ hp)
  cases willRetry with
  | true =>
    obtain ⟨f₂, hf₂, hparams, hmap, -⟩ := finishRequest_true hI.noNull hlook
    rw [hf₁] at hf₂
    cases hf₂
    have hitem : ∀ l, f₁.item l = w.filter.item l := fun l => by simp [item, hmap]
    have he : Edited w.filter f₁ (w.filter.lineAddr pkt) (w.filter.item (w.filter.lineAddr pkt)) :=
      ⟨hparams, hitem _, fun l _ => hitem l, fun hn l it hit => hn l it (by rwa [hmap] at hit)⟩
    have haw : awaits w.filter pkt port true = false := by simp [awaits]
    simp only [haw, Bool.false_eq_true, if_false]
    exact hI.edit he (hI.requested _) (hsub.trans (hI.holds _)) (hports _ hold)
  | false =>
    obtain ⟨f₂, hf₂, hparams, hitem, hnn⟩ := finishRequest_false hlook
    rw [hf₁] at hf₂
    cases hf₂
    have he : Edited w.filter f₁ (w.filter.lineAddr pkt) (f.item (w.filter.lineAddr pkt)) :=
      ⟨hparams, hitem _, fun l hl => by rw [hitem, item, hlook.others l hl, item], hnn⟩
    have hit := hlook.item
    cases halloc : w.filter.allocates pkt port with
    | false =>
      rw [halloc, if_neg Bool.false_ne_true] at hit
      have haw : awaits w.filter pkt port false = false := by simp [awaits, halloc]
      simp only [haw, Bool.false_eq_true, if_false]
      rw [hit] at he
      exact hI.edit he (hI.requested _) (hsub.trans (hI.holds _)) (hports _ hold)
    | true =>
      obtain ⟨hsnoop, hmem⟩ := allocates_snooping halloc
      rw [halloc, if_pos rfl, portToMask_of_snooping hsnoop] at hit
      obtain ⟨hreq, hhold⟩ := requestItem_ok dropped lookup.1 hit (hI.holds _)
      have haw : awaits w.filter pkt port false =
          (pkt.cmd.needsResponse && !pkt.cacheResponding) := by
        simp [awaits, halloc]
      rw [haw]
      rw [hI.requested] at hreq
      refine hI.edit he hreq hhold (hports _ fun p hp => ?_)
      split_ifs at hp
      · rcases mem_insert.1 hp with rfl | hp
        · exact hmem
        · exact hold p hp
      · exact hold p hp

theorem snoop_inv {kept : Finset ℕ} (hI : w.Inv) (hd : w.Disciplined (.snoop pkt kept))
    (h : w.snoop pkt kept = .ok (snooped, w')) : w'.Inv := by
  unfold snoop at h
  obtain ⟨⟨lookup, f⟩, hl, h⟩ := bind_eq_ok.1 h
  cases h
  obtain ⟨-, he⟩ := lookupSnoop_ok hl
  have hreach := hI.reached.2 pkt lookup f hl
  have hsub : (if pkt.cmd.isInvalidate then
      w.holds (w.filter.lineAddr pkt) \ (lookup.1.toFinset \ kept)
      else w.holds (w.filter.lineAddr pkt)) ⊆ w.holds (w.filter.lineAddr pkt) := by
    split_ifs
    · exact sdiff_subset
    · exact Subset.refl _
  refine hI.editHolds he (by split_ifs <;> rfl) ?_ hsub
  by_cases hclear : (pkt.cmd.isInvalidate &&
      decide ((w.filter.item (w.filter.lineAddr pkt)).requested = ∅)) = true
  · -- no cache has a request in flight, so that none keeps the line
    rw [if_pos hclear]
    simp only [Bool.and_eq_true, decide_eq_true_eq] at hclear
    have hkept : kept = ∅ := by
      have hsubset : kept ⊆ w.outstanding (w.filter.lineAddr pkt) := hd
      rw [← hI.requested, hclear.2] at hsubset
      exact subset_empty.1 hsubset
    rw [if_pos hclear.1, hkept]
    intro p hp
    simp only [sdiff_empty, mem_sdiff, List.mem_toFinset] at hp
    exact absurd (hreach p hp.1) hp.2
  · rw [if_neg hclear]
    exact hsub.trans (hI.holds _)

theorem giveUp_subset (pkt : SnoopPacket) (rspPort : ℕ) (holds : Finset ℕ) :
    giveUp pkt rspPort holds ⊆ holds := by
  unfold giveUp
  split_ifs
  · exact erase_subset _ _
  · exact Subset.refl _

theorem snoopForward_inv {rspPort : ℕ} (hI : w.Inv) (hd : w.Disciplined (.snoopForward pkt rspPort))
    (h : w.snoopForward pkt rspPort = .ok w') : w'.Inv := by
  unfold snoopForward at h
  obtain ⟨f, hf, h⟩ := bind_eq_ok.1 h
  cases h
  refine hI.editHolds (updateSnoopForward_ok hf) rfl ?_ (giveUp_subset _ _ _)
  dsimp only
  cases hs : pkt.hasSharers with
  | false =>
    have honly : w.holds (w.filter.lineAddr pkt) ⊆ {rspPort} := hd hs
    simp only [giveUp, hs, Bool.not_false, if_true]
    rw [subset_empty, eq_empty_iff_forall_notMem]
    intro p hp
    obtain ⟨hne, hp⟩ := mem_erase.1 hp
    exact hne (mem_singleton.1 (honly hp))
  | true =>
    simpa [giveUp, hs] using hI.holds (w.filter.lineAddr pkt)

theorem Inv.not_outstanding (hI : w.Inv) {line p : ℕ} (h : w.filter.isSnooping p = false) :
    p ∉ w.outstanding line := by
  intro hp
  have := hI.ports line p (mem_union_right _ hp)
  simp [isSnooping, this] at h

theorem snoopResponse_inv (hI : w.Inv) (hd : w.Disciplined (.snoopResponse pkt rspPort reqPort))
    (h : w.snoopResponse pkt rspPort reqPort = .ok w') : w'.Inv := by
  unfold snoopResponse at h
  obtain ⟨f, hf, h⟩ := bind_eq_ok.1 h
  cases h
  have hgive := giveUp_subset pkt rspPort (w.holds (w.filter.lineAddr pkt))
  rcases updateSnoopResponse_ok hf with ⟨rfl, hout⟩ | ⟨hcache, hsnoop, he⟩
  · -- the response does not fill a cache
    have hnofill : (!pkt.req.uncacheable &&
        decide (reqPort ∈ w.outstanding (w.filter.lineAddr pkt))) = false := by
      rcases hout with hout | hout
      · simp [hout]
      · simp [hI.not_outstanding hout]
    have hsame : (if pkt.req.uncacheable then w.outstanding (w.filter.lineAddr pkt)
        else (w.outstanding (w.filter.lineAddr pkt)).erase reqPort) =
          w.outstanding (w.filter.lineAddr pkt) := by
      split_ifs with hu
      · rfl
      · have hno : w.filter.isSnooping reqPort = false := hout.resolve_left hu
        exact erase_eq_of_notMem (hI.not_outstanding hno)
    simp only [hnofill, Bool.false_eq_true, if_false]
    rw [hsame]
    exact hI.edit (Edited.refl _ _) (hI.requested _) (hgive.trans (hI.holds _)) fun p hp =>
      hI.ports _ p (union_subset_union_left hgive hp)
  · have hmem : reqPort ∈ w.filter.cpuSidePorts := by simpa [isSnooping] using hsnoop
    simp only [hcache, Bool.not_false, Bool.true_and, decide_eq_true_eq, Bool.false_eq_true,
      if_false]
    have hbase : giveUp pkt rspPort (w.holds (w.filter.lineAddr pkt)) ⊆
        (if !pkt.hasSharers then ∅ else (w.filter.item (w.filter.lineAddr pkt)).holder) ∪
          {reqPort} := by
      cases hs : pkt.hasSharers with
      | false =>
        have honly : w.holds (w.filter.lineAddr pkt) ⊆ {rspPort, reqPort} := hd hs
        intro p hp
        simp only [giveUp, hs, Bool.not_false, if_true] at hp
        obtain ⟨hne, hp⟩ := mem_erase.1 hp
        have hor := honly hp
        simp only [mem_insert, mem_singleton] at hor
        simp [hor.resolve_left hne]
      | true =>
        rw [Bool.not_true, if_neg Bool.false_ne_true]
        exact (hgive.trans (hI.holds _)).trans subset_union_left
    refine hI.edit he (by rw [hI.requested]) ?_ fun p hp => ?_
    · by_cases hin : reqPort ∈ w.outstanding (w.filter.lineAddr pkt)
      · rw [if_pos hin]
        exact insert_subset (by simp) hbase
      · rw [if_neg hin]
        exact hbase
    · rcases mem_union.1 hp with hp | hp
      · split_ifs at hp
        · rcases mem_insert.1 hp with rfl | hp
          · exact hmem
          · exact hI.ports _ p (mem_union_left _ (hgive hp))
        · exact hI.ports _ p (mem_union_left _ (hgive hp))
      · exact hI.ports _ p (mem_union_right _ (mem_of_mem_erase hp))

theorem response_inv {keeps : Bool} (hI : w.Inv)
    (hd : w.DisciplinedClean (.response pkt port keeps)) (h : w.response pkt port keeps = .ok w') :
    w'.Inv := by
  unfold response at h
  obtain ⟨f, hf, h⟩ := bind_eq_ok.1 h
  rcases updateResponse_ok hf with ⟨rfl, hout⟩ | ⟨hcache, hsnoop, he⟩
  · split_ifs at h with hu
    · cases h
      exact hI
    · cases h
      -- the port has no request in flight
      have hno : port ∉ w.outstanding (w.filter.lineAddr pkt) := by
        rcases hout.resolve_left hu with hs | hnone
        · exact hI.not_outstanding hs
        · rw [← hI.requested]
          simp [item, hnone]
      have hsub : holdsAfterResponse pkt port keeps (w.holds (w.filter.lineAddr pkt))
          (w.outstanding (w.filter.lineAddr pkt)) ⊆ w.holds (w.filter.lineAddr pkt) := by
        unfold holdsAfterResponse
        split_ifs with h1 h2 h3
        · exact Subset.refl _
        · exact erase_subset _ _
        · exact absurd (by simpa using h3) hno
        · exact Subset.refl _
      refine hI.edit (Edited.refl _ _) ?_ (hsub.trans (hI.holds _)) fun p hp => ?_
      · rw [hI.requested, erase_eq_of_notMem hno]
      · rw [erase_eq_of_notMem hno] at hp
        exact hI.ports _ p (union_subset_union_left hsub hp)
  · rw [hcache, if_neg Bool.false_ne_true] at h
    cases h
    have hmem : port ∈ w.filter.cpuSidePorts := by simpa [isSnooping] using hsnoop
    have hkeeps : keeps = !(pkt.req.isCacheMaintenance && pkt.cmd.isInvalidate) := hd
    refine hI.edit he (by rw [hI.requested]) ?_ fun p hp => ?_
    · unfold holdsAfterResponse
      rw [hkeeps]
      cases hm : pkt.req.isCacheMaintenance with
      | false =>
        simp only [Bool.false_eq_true, if_false]
        have hunion : w.holds (w.filter.lineAddr pkt) ⊆
            (w.filter.item (w.filter.lineAddr pkt)).holder ∪ {port} :=
          (hI.holds _).trans subset_union_left
        split_ifs
        · exact insert_subset (by simp) hunion
        · exact hunion
      | true =>
        cases hi : pkt.cmd.isInvalidate with
        | false => simpa using hI.holds (w.filter.lineAddr pkt)
        | true => simpa using erase_subset_erase port (hI.holds (w.filter.lineAddr pkt))
    · rcases mem_union.1 hp with hp | hp
      · unfold holdsAfterResponse at hp
        split_ifs at hp
        · exact hI.ports _ p (mem_union_left _ hp)
        · exact hI.ports _ p (mem_union_left _ (mem_of_mem_erase hp))
        · rcases mem_insert.1 hp with rfl | hp
          · exact hmem
          · exact hI.ports _ p (mem_union_left _ hp)
        · exact hI.ports _ p (mem_union_left _ hp)
      · exact hI.ports _ p (mem_union_right _ (mem_of_mem_erase hp))

theorem step_inv {o : Op} (hI : w.Inv) (hd : w.DisciplinedClean o)
    (h : w.step o = .ok (snooped, w')) : w'.Inv := by
  cases o with
  | request pkt port willRetry dropped => exact request_inv hI h
  | snoop pkt kept => exact snoop_inv hI hd h
  | snoopResponse pkt rspPort reqPort =>
    obtain ⟨w₁, hw₁, h⟩ := bind_eq_ok.1 h
    cases h
    exact snoopResponse_inv hI hd hw₁
  | snoopForward pkt rspPort =>
    obtain ⟨w₁, hw₁, h⟩ := bind_eq_ok.1 h
    cases h
    exact snoopForward_inv hI hd hw₁
  | response pkt port keeps =>
    obtain ⟨w₁, hw₁, h⟩ := bind_eq_ok.1 h
    cases h
    exact response_inv hI hd hw₁

theorem start_inv (cpuSidePorts : List ℕ) (linesize lookupLatency maxEntryCount : ℕ) :
    (start cpuSidePorts linesize lookupLatency maxEntryCount).Inv :=
  ⟨fun _ => rfl, fun _ => Subset.refl _, fun _ _ hp => by simp [start] at hp,
    fun _ _ hit => by cases hit⟩

/-- Over every run of events in which the caches keep their promises, every cache that has a line
is known to the filter and is snooped when it has to be, and a request that will be retried leaves
the filter as it was. -/
theorem filter_tracks {cpuSidePorts : List ℕ} {linesize lookupLatency maxEntryCount : ℕ}
    {ops : List Op} {answers : List (List ℕ)} {w : SnoopWorld}
    (hd : Run.Along step DisciplinedClean
      (start cpuSidePorts linesize lookupLatency maxEntryCount) ops)
    (h : Run.run step (start cpuSidePorts linesize lookupLatency maxEntryCount) ops =
      .ok (answers, w)) : w.Tracked ∧ w.Reached ∧ w.Undone := by
  have hinv := Run.run_inv (I := Inv) (fun _ _ _ _ hI hd hs => step_inv hI hd hs)
    (start_inv cpuSidePorts linesize lookupLatency maxEntryCount) hd h
  exact ⟨hinv.tracked, hinv.reached, hinv.undone⟩

/-- A read of port 1, an exclusive read of port 2 over it, and a clean-invalidate of port 2. -/
def cleanInvalidRun : List Op :=
  let clean : RequestFlags := { clean := true, invalidate := true }
  [.request { cmd := .readSharedReq, addr := 64 } 1 false ∅,
    .response { cmd := .readResp, addr := 64 } 1 true,
    .request { cmd := .readExReq, addr := 72 } 2 true ∅,
    .request { cmd := .readExReq, addr := 72 } 2 false {1},
    .response { cmd := .readExResp, addr := 72 } 2 true,
    .request { cmd := .cleanInvalidReq, addr := 64, req := clean } 2 false ∅,
    .response { cmd := .cleanInvalidResp, addr := 64, req := clean } 2 false]

theorem filter_tracks_cleanInvalidRun : ∃ answers w,
    Run.run step (start [1, 2] 64 0 16) cleanInvalidRun = .ok (answers, w) ∧
      w.Tracked ∧ w.Reached ∧ w.Undone := by
  have hd : Run.Along step DisciplinedClean (start [1, 2] 64 0 16) cleanInvalidRun :=
    ⟨trivial, fun _ _ _ => ⟨rfl, fun _ _ _ => ⟨trivial, fun _ _ _ => ⟨trivial, fun _ _ _ =>
      ⟨rfl, fun _ _ _ => ⟨trivial, fun _ _ _ => ⟨rfl, fun _ _ _ => trivial⟩⟩⟩⟩⟩⟩⟩
  have hok : (Run.run step (start [1, 2] 64 0 16) cleanInvalidRun).toBool = true := by
    decide +kernel
  cases hrun : Run.run step (start [1, 2] 64 0 16) cleanInvalidRun with
  | error e =>
    rw [hrun] at hok
    cases hok
  | ok r => exact ⟨r.1, r.2, rfl, filter_tracks hd hrun⟩

/-- A cache that keeps its copy over the response to its own clean-invalidate. -/
def keptCopyRun : List Op :=
  let clean : RequestFlags := { clean := true, invalidate := true }
  [.request { cmd := .readSharedReq, addr := 64 } 1 false ∅,
    .response { cmd := .readResp, addr := 64 } 1 true,
    .request { cmd := .cleanInvalidReq, addr := 64, req := clean } 1 false ∅,
    .response { cmd := .cleanInvalidResp, addr := 64, req := clean } 1 true]

/-- The filter forgets such a cache. -/
theorem keptCopy_forgotten : Run.Along step Disciplined (start [1] 64 0 16) keptCopyRun ∧
    ∃ answers w, Run.run step (start [1] 64 0 16) keptCopyRun = .ok (answers, w) ∧
      ¬ w.Tracked := by
  refine ⟨⟨trivial, fun _ _ _ => ⟨rfl, fun _ _ _ => ⟨trivial, fun _ _ _ =>
    ⟨rfl, fun _ _ _ => trivial⟩⟩⟩⟩, ?_⟩
  have hlost : (Run.run step (start [1] 64 0 16) keptCopyRun).toOption.any (fun r =>
      decide (1 ∈ r.2.holds 64 ∧
        1 ∉ (r.2.filter.item 64).holder ∪ (r.2.filter.item 64).requested)) = true := by
    decide +kernel
  cases hrun : Run.run step (start [1] 64 0 16) keptCopyRun with
  | error e =>
    rw [hrun] at hlost
    cases hlost
  | ok r =>
    rw [hrun] at hlost
    simp only [Except.toOption, Option.any_some, decide_eq_true_eq] at hlost
    exact ⟨r.1, r.2, rfl, fun h => hlost.2 (h 64 hlost.1)⟩

end SnoopWorld

end Gem5Nvm
