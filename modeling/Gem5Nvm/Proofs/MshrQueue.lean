import Gem5Nvm.MshrQueue
import Gem5Nvm.Proofs.Mshr

/-!
# The lists of the queue of miss status holding registers

The lists and the counts agree with the entries whatever is called. The ready list stays in order
except where an entry on it gets another ready time: `delay` looks for the entry's new place from
the entry itself on, and finds the entry, and `forceDeallocateTarget` does not look for one. So the
list is in order over a run exactly when every such entry has its place already (`readyList_right_iff`).
-/

namespace Gem5Nvm

open Sim (bind_eq_ok bind₂_eq_ok)
open Function (update update_self update_of_ne update_idem)
open List (mem_append pairwise_append mem_singleton pairwise_cons mem_cons mem_cons_self
  nodup_append filter_congr filter_cons)

namespace Mshr

variable {m m' : Mshr}

/-- What the lists of the queue read of an entry. -/
def Frame (m m' : Mshr) : Prop := m'.inService = m.inService ∧ m'.readyTime = m.readyTime

variable {curTick order : ℕ} {pkt pkt' : MissPacket}

variable {allocOnFill : Bool}

theorem allocateTarget_frame {whenReady : ℕ}
    (h : m.allocateTarget pkt whenReady order allocOnFill = .ok m') : Frame m m' := by
  unfold allocateTarget at h
  obtain ⟨_, -, tgt, -, h⟩ := bind₂_eq_ok.1 h
  obtain ⟨b, -, h⟩ := bind_eq_ok.1 h
  split_ifs at h
  · obtain ⟨_, -, _, -, h⟩ := bind₂_eq_ok.1 h
    cases h
    exact ⟨rfl, rfl⟩
  · obtain ⟨_, -, h⟩ := bind_eq_ok.1 h
    cases h
    exact ⟨rfl, rfl⟩

theorem saveSnoop_frame {willRespond needsWritable : Bool}
    (h : m.saveSnoop pkt willRespond needsWritable curTick order = .ok (pkt', m')) :
    Frame m m' := by
  unfold saveSnoop at h
  split_ifs at h
  all_goals try
    obtain ⟨_, -, _, -, h⟩ := bind₂_eq_ok.1 h
    cases h
    exact ⟨rfl, rfl⟩
  cases h
  exact ⟨rfl, rfl⟩

variable {b : Bool}

theorem snoopIssued_frame {needsWritable : Bool}
    (h : m.snoopIssued pkt needsWritable curTick order = .ok (b, pkt', m')) : Frame m m' := by
  unfold snoopIssued at h
  obtain ⟨tgt, -, h⟩ := bind_eq_ok.1 h
  split_ifs at h
  · cases h
    exact ⟨rfl, rfl⟩
  · obtain ⟨⟨pkt₁, m₁⟩, hsave, h⟩ := bind_eq_ok.1 h
    have hf := saveSnoop_frame hsave
    dsimp only at h
    split_ifs at h
    · cases h
      exact hf
    · cases h
      exact hf

theorem handleSnoop_frame (h : m.handleSnoop pkt curTick order = .ok (b, pkt', m')) :
    Frame m m' := by
  unfold handleSnoop at h
  obtain ⟨needsWritable, -, _, -, h⟩ := bind₂_eq_ok.1 h
  dsimp only at h
  split_ifs at h
  · obtain ⟨m₁, hm₁, h⟩ := bind_eq_ok.1 h
    cases h
    unfold snoopUnissued at hm₁
    split_ifs at hm₁
    · obtain ⟨_, -, _, -, hm₁⟩ := bind₂_eq_ok.1 hm₁
      cases hm₁
      exact ⟨rfl, rfl⟩
    · cases hm₁
      exact ⟨rfl, rfl⟩
  · obtain ⟨m₁, hm₁, h⟩ := bind_eq_ok.1 h
    have hf := snoopIssued_frame h
    unfold snoopDeferred at hm₁
    split_ifs at hm₁
    · obtain ⟨_, -, hm₁⟩ := bind_eq_ok.1 hm₁
      cases hm₁
      exact hf
    · cases hm₁
      exact hf

theorem extractServiceableTargets_frame {cmd : MemCmd} {ready : TargetList}
    (h : m.extractServiceableTargets cmd = .ok (ready, m')) : Frame m m' := by
  unfold extractServiceableTargets at h
  split_ifs at h
  · obtain ⟨_, -, _, -, h⟩ := bind₂_eq_ok.1 h
    obtain ⟨_, -, _, -, h⟩ := bind₂_eq_ok.1 h
    obtain ⟨_, -, h⟩ := bind_eq_ok.1 h
    cases h
    exact ⟨rfl, rfl⟩
  · obtain ⟨_, -, h⟩ := bind_eq_ok.1 h
    cases h
    exact ⟨rfl, rfl⟩

theorem promoteIf_frame {pred : Target → Sim Bool} (h : m.promoteIf pred = .ok m') :
    Frame m m' := by
  unfold promoteIf at h
  obtain ⟨_, -, _, -, h⟩ := bind₂_eq_ok.1 h
  obtain ⟨_, -, _, -, h⟩ := bind₂_eq_ok.1 h
  cases h
  exact ⟨rfl, rfl⟩

theorem promoteReadable_frame (h : m.promoteReadable = .ok m') : Frame m m' := by
  unfold promoteReadable at h
  split_ifs at h
  · cases h
    exact ⟨rfl, rfl⟩
  · obtain ⟨b, -, h⟩ := bind_eq_ok.1 h
    split_ifs at h
    · exact promoteIf_frame h
    · cases h
      exact ⟨rfl, rfl⟩

theorem promoteWritable_frame (h : m.promoteWritable = .ok m') : Frame m m' := by
  unfold promoteWritable at h
  split_ifs at h
  · obtain ⟨pi, -, pd, -, h⟩ := bind₂_eq_ok.1 h
    split_ifs at h
    · cases h
      exact ⟨rfl, rfl⟩
    · obtain ⟨first, -, h⟩ := bind_eq_ok.1 h
      split_ifs at h
      · cases h
        exact ⟨rfl, rfl⟩
      · obtain ⟨_, -, h⟩ := bind_eq_ok.1 h
        have hf := promoteIf_frame h
        exact hf
  · cases h
    exact ⟨rfl, rfl⟩

theorem promoteDeferredTargets_frame (h : m.promoteDeferredTargets curTick = .ok (b, m')) :
    m'.inService = m.inService ∧ m'.readyTime = m.promotedTime curTick ∧ (b = false → m' = m) ∧
      (b = false ↔ m.waiting = []) := by
  unfold promoteDeferredTargets at h
  split_ifs at h with hnone
  · cases h
    simp only [Bool.and_eq_true, List.isEmpty_iff] at hnone
    simp [promotedTime, waiting, hnone.1, hnone.2]
  · obtain ⟨deferredTargets, hd, targets, ht, h⟩ := bind₂_eq_ok.1 h
    obtain ⟨first, hfirst, h⟩ := bind_eq_ok.1 h
    cases h
    obtain ⟨hti, -⟩ := TargetList.populateFlags_ok ht
    obtain ⟨ts, hts⟩ := TargetList.front_ok hfirst
    -- the first target is the first of both lists
    have hhead : m.targets.items ++ m.deferredTargets.items =
        first :: (ts ++ m.deferredTargets.items.drop m.promotable) := by
      rw [← List.cons_append, ← hts, hti, splice, List.append_assoc, List.take_append_drop]
    refine ⟨rfl, ?_, by simp, ?_⟩
    · rw [promotedTime, hhead]
    · simp [waiting, hhead]

theorem step_frame {o : Op} {a : Answer} (ho : o.ofCache = true) (h : m.step o = .ok (a, m')) :
    m'.inService = m.inService ∧
      (((∀ curTick, o ≠ .promoteDeferredTargets curTick) ∧ m'.readyTime = m.readyTime) ∨
        ∃ curTick, o = .promoteDeferredTargets curTick ∧
          m'.readyTime = m.promotedTime curTick) := by
  have hframe : Frame m m' → (∀ curTick, o ≠ .promoteDeferredTargets curTick) →
      m'.inService = m.inService ∧
        (((∀ curTick, o ≠ .promoteDeferredTargets curTick) ∧ m'.readyTime = m.readyTime) ∨
          ∃ curTick, o = .promoteDeferredTargets curTick ∧
            m'.readyTime = m.promotedTime curTick) := fun hf hne => ⟨hf.1, .inl ⟨hne, hf.2⟩⟩
  cases o with
  | allocateTarget pkt whenReady order allocOnFill =>
    obtain ⟨m₁, hm₁, h⟩ := bind_eq_ok.1 h
    cases h
    exact hframe (allocateTarget_frame hm₁) (by simp)
  | handleSnoop pkt curTick order =>
    obtain ⟨⟨b, pkt', m₁⟩, hm₁, h⟩ := bind_eq_ok.1 h
    cases h
    exact hframe (handleSnoop_frame hm₁) (by simp)
  | extractServiceableTargets cmd =>
    obtain ⟨⟨ready, m₁⟩, hm₁, h⟩ := bind_eq_ok.1 h
    cases h
    exact hframe (extractServiceableTargets_frame hm₁) (by simp)
  | promoteReadable => exact hframe (promoteReadable_frame (quiet_ok h).1) (by simp)
  | promoteWritable => exact hframe (promoteWritable_frame (quiet_ok h).1) (by simp)
  | promoteDeferredTargets curTick =>
    obtain ⟨⟨b, m₁⟩, hm₁, h⟩ := bind_eq_ok.1 h
    cases h
    obtain ⟨hs, hr, -⟩ := promoteDeferredTargets_frame hm₁
    exact ⟨hs, .inr ⟨curTick, rfl, hr⟩⟩
  | setForward isForward =>
    cases h
    exact hframe ⟨rfl, rfl⟩ (by simp)
  | setDownstreamPending =>
    obtain ⟨hq, -⟩ := quiet_ok h
    obtain ⟨_, -, hq⟩ := bind_eq_ok.1 hq
    cases hq
    exact hframe ⟨rfl, rfl⟩ (by simp)
  | clearDownstreamPending =>
    obtain ⟨hq, -⟩ := quiet_ok h
    obtain ⟨_, -, _, -, hq⟩ := bind₂_eq_ok.1 hq
    cases hq
    exact hframe ⟨rfl, rfl⟩ (by simp)
  | allocate | markInService | markPending | popTarget | deallocate => cases ho

end Mshr

namespace MshrQueue

variable {q q' : MshrQueue} {i : ℕ} {m : Mshr}

@[simp] theorem setEntry_self : (q.setEntry i m).entries i = m := update_self ..

variable {j : ℕ}

theorem setEntry_of_ne (h : j ≠ i) : (q.setEntry i m).entries j = q.entries j :=
  update_of_ne h ..

theorem readyTime_setEntry_of_ne (h : j ≠ i) : (q.setEntry i m).readyTime j = q.readyTime j := by
  rw [readyTime, setEntry_of_ne h, readyTime]

variable {l : List ℕ}

theorem eraseEntry_ok {l' : List ℕ} (h : eraseEntry l i = .ok l') : i ∈ l ∧ l' = l.erase i := by
  unfold eraseEntry at h
  split_ifs at h with hi
  cases h
  exact ⟨hi, rfl⟩

theorem split_of_mem (h : i ∈ l) : l = l.takeWhile (· ≠ i) ++ i :: (l.dropWhile (· ≠ i)).tail := by
  have hne : l.dropWhile (· ≠ i) ≠ [] := by
    intro hnil
    rw [List.dropWhile_eq_nil_iff] at hnil
    simpa using hnil i h
  obtain ⟨j, js, hj⟩ := List.exists_cons_of_ne_nil hne
  have hhead := List.head_dropWhile_not (p := (· ≠ i)) (l := l) hne
  simp only [hj, List.head_cons] at hhead
  obtain rfl : j = i := by simpa using hhead
  conv_lhs => rw [← List.takeWhile_append_dropWhile (p := (· ≠ j)) (l := l)]
  rw [hj, List.tail_cons]

theorem spliceDelayed_ok (h : q.spliceDelayed i = .ok l) : i ∈ q.readyList ∧ l = q.readyList := by
  have hspan : q.readyList.span (fun j => decide (j ≠ i)) =
      (q.readyList.takeWhile (· ≠ i), q.readyList.dropWhile (· ≠ i)) :=
    List.span_eq_takeWhile_dropWhile ..
  simp only [spliceDelayed, hspan] at h
  by_cases hi : i ∈ q.readyList
  · refine ⟨hi, ?_⟩
    have hdrop : q.readyList.dropWhile (· ≠ i) = i :: (q.readyList.dropWhile (· ≠ i)).tail := by
      have := split_of_mem hi
      nth_rewrite 1 [← List.takeWhile_append_dropWhile (p := (· ≠ i)) (l := q.readyList)] at this
      exact List.append_cancel_left this
    rw [hdrop] at h
    simp only [List.span_eq_takeWhile_dropWhile, List.takeWhile_cons, ge_iff_le, le_refl,
      decide_true, Bool.not_true, Bool.false_eq_true, if_false] at h
    cases h
    rfl
  · have hnil : q.readyList.dropWhile (· ≠ i) = [] := by
      rw [List.dropWhile_eq_nil_iff]
      intro j hj
      simpa using fun hji : j = i => hi (hji ▸ hj)
    rw [hnil] at h
    cases h

theorem addToReadyList_ok (h : q.addToReadyList i = .ok l) :
    ∃ before later, q.readyList = before ++ later ∧ l = before ++ i :: later ∧
      (q.Sorted → (∀ j ∈ before, q.readyTime j ≤ q.readyTime i) ∧
        ∀ j ∈ later, q.readyTime i ≤ q.readyTime j) := by
  unfold addToReadyList at h
  split_ifs at h with hback
  · cases h
    refine ⟨q.readyList, [], by simp, rfl, fun hs => ⟨fun j hj => ?_, by simp⟩⟩
    -- the last entry bounds all others
    have hne := List.ne_nil_of_mem hj
    rw [List.getLast?_eq_some_getLast hne] at hback
    have hlast : q.readyTime (q.readyList.getLast hne) ≤ q.readyTime i := by simpa using hback
    have hle : j = q.readyList.getLast hne ∨
        q.readyTime j ≤ q.readyTime (q.readyList.getLast hne) := by
      have hsplit := List.dropLast_append_getLast hne
      rw [← hsplit] at hj
      rcases mem_append.1 hj with hj | hj
      · right
        have hs' := hs
        unfold Sorted at hs'
        rw [← hsplit, pairwise_append] at hs'
        exact hs'.2.2 j hj _ (by simp)
      · exact .inl (mem_singleton.1 hj)
    rcases hle with rfl | hle
    · exact hlast
    · exact hle.trans hlast
  · rw [List.span_eq_takeWhile_dropWhile] at h
    dsimp only at h
    have happ := List.takeWhile_append_dropWhile (p := fun j => decide (q.readyTime j ≤ q.readyTime i))
      (l := q.readyList)
    split at h
    · cases h
    · cases h
      rename_i hlater
      refine ⟨_, _, happ.symm, rfl, fun hs => ⟨fun j hj => ?_, fun j hj => ?_⟩⟩
      · simpa using List.mem_takeWhile_imp hj
      · -- the first later entry is not ready before the new one, and the others follow it
        obtain ⟨k, ks, hk⟩ := List.exists_cons_of_ne_nil hlater
        have hhead := List.head_dropWhile_not
          (p := fun j => decide (q.readyTime j ≤ q.readyTime i)) (l := q.readyList) hlater
        simp only [hk, List.head_cons, decide_eq_false_iff_not, not_le] at hhead
        have hs' := hs
        unfold Sorted at hs'
        rw [← happ, hk, pairwise_append, pairwise_cons] at hs'
        rw [hk] at hj
        rcases mem_cons.1 hj with rfl | hj
        · exact hhead.le
        · exact hhead.le.trans (hs'.2.1.1 j hj)

theorem sorted_insert_iff {l' : List ℕ} {f : ℕ → ℕ} (hl : (l ++ l').Pairwise fun j k => f j ≤ f k) :
    (l ++ i :: l').Pairwise (fun j k => f j ≤ f k) ↔
      (∀ j ∈ l, f j ≤ f i) ∧ ∀ j ∈ l', f i ≤ f j := by
  rw [pairwise_append] at hl
  rw [pairwise_append, pairwise_cons]
  constructor
  · rintro ⟨-, ⟨hafter, -⟩, hbefore⟩
    exact ⟨fun j hj => hbefore j hj i mem_cons_self, hafter⟩
  · rintro ⟨hbefore, hafter⟩
    refine ⟨hl.1, ⟨hafter, hl.2.1⟩, fun j hj k hk => ?_⟩
    rcases mem_cons.1 hk with rfl | hk
    · exact hbefore j hj
    · exact hl.2.2 j hj k hk

theorem sorted_setEntry_iff (hn : q.readyList.Nodup) (hs : q.Sorted) (hi : i ∈ q.readyList) :
    (q.setEntry i m).Sorted ↔ q.Fits i m.readyTime := by
  have hsplit := split_of_mem hi
  set before := q.readyList.takeWhile (· ≠ i) with hb
  set after := (q.readyList.dropWhile (· ≠ i)).tail with ha
  have hnd := hn
  rw [hsplit] at hnd
  have hbi : ∀ j ∈ before, j ≠ i := fun j hj hji =>
    (nodup_append.1 hnd).2.2 j hj i mem_cons_self hji
  have hai : ∀ j ∈ after, j ≠ i := fun j hj hji => by
    have := (List.nodup_cons.1 (nodup_append.1 hnd).2.1).1
    exact this (hji ▸ hj)
  have hrest : (before ++ after).Pairwise fun j k =>
      (q.setEntry i m).readyTime j ≤ (q.setEntry i m).readyTime k := by
    have hsub : (before ++ after).Pairwise fun j k => q.readyTime j ≤ q.readyTime k := by
      refine List.Pairwise.sublist ?_ hs
      rw [hsplit]
      exact (List.sublist_cons_self i after).append_left before
    refine hsub.imp_of_mem fun {j k} hj hk hjk => ?_
    have hj' : j ≠ i := (mem_append.1 hj).elim (hbi j) (hai j)
    have hk' : k ≠ i := (mem_append.1 hk).elim (hbi k) (hai k)
    rwa [readyTime_setEntry_of_ne hj', readyTime_setEntry_of_ne hk']
  have hself : (q.setEntry i m).readyTime i = m.readyTime := by rw [readyTime, setEntry_self]
  have hlist : (q.setEntry i m).readyList = before ++ i :: after := hsplit
  unfold Sorted
  rw [hlist, sorted_insert_iff hrest, hself, Fits, ← hb, ← ha]
  constructor
  · rintro ⟨h1, h2⟩
    exact ⟨fun j hj => by rw [← readyTime_setEntry_of_ne (hbi j hj)]; exact h1 j hj,
      fun j hj => by rw [← readyTime_setEntry_of_ne (hai j hj)]; exact h2 j hj⟩
  · rintro ⟨h1, h2⟩
    exact ⟨fun j hj => by rw [readyTime_setEntry_of_ne (hbi j hj)]; exact h1 j hj,
      fun j hj => by rw [readyTime_setEntry_of_ne (hai j hj)]; exact h2 j hj⟩

theorem right_of_sorted (hc : q.Consistent) (hs : q.Sorted) : q.Right := by
  refine ⟨hc, hs, ?_, ?_, ?_⟩ <;> rcases hl : q.readyList with _ | ⟨front, rest⟩
  · simp
  · intro hnone i hi
    unfold Sorted at hs
    rw [hl, pairwise_cons] at hs
    have hfront : q.curTick < q.readyTime front := by
      by_contra hle
      simp [getNext, hl, hle] at hnone
    rcases mem_cons.1 hi with rfl | hi
    · omega
    · have := hs.1 i hi
      omega
  · simp
  · intro i hi
    unfold Sorted at hs
    rw [hl, pairwise_cons] at hs
    rw [nextReadyTime, hl]
    rcases mem_cons.1 hi with rfl | hi
    · exact le_rfl
    · exact hs.1 i hi
  · exact fun h => absurd rfl h
  · exact fun _ => ⟨front, mem_cons_self, by rw [nextReadyTime, hl]⟩

/-- The queue is consistent, and the entries that are not allocated are not in service and have no
targets. -/
structure Inv (q : MshrQueue) : Prop extends q.Consistent where
  idle : ∀ j, j ∉ q.allocatedList →
    (q.entries j).inService = false ∧ (q.entries j).targets.items = []

theorem Consistent.nodup (h : q.Consistent) :
    q.allocatedList.Nodup ∧ ∀ j ∈ q.freeList, j ∉ q.allocatedList := by
  have hnd := h.partition.nodup_iff.2 List.nodup_range
  rw [nodup_append] at hnd
  exact ⟨hnd.1, fun j hj hja => hnd.2.2 j hja j hj rfl⟩

theorem length_filter_update {f g : ℕ → Bool} (hn : l.Nodup) (hi : i ∈ l)
    (hfg : ∀ j, j ≠ i → g j = f j) :
    ((l.filter g).length : ℤ) = (l.filter f).length + (g i).toNat - (f i).toNat := by
  have hperm := List.perm_cons_erase hi
  have hrest : (l.erase i).filter g = (l.erase i).filter f :=
    filter_congr fun j hj => hfg j fun hji => (hn.mem_erase_iff.1 hj).1 hji
  rw [(hperm.filter g).length_eq, (hperm.filter f).length_eq, filter_cons, filter_cons,
    hrest]
  cases g i <;> cases f i <;> simp

theorem Inv.setEntry (h : q.Inv) (hi : i ∈ q.allocatedList)
    (hm : m.inService = (q.entries i).inService) : (q.setEntry i m).Inv := by
  have hs : ∀ j, ((q.setEntry i m).entries j).inService = (q.entries j).inService := by
    intro j
    by_cases hji : j = i
    · rw [hji, setEntry_self, hm]
    · rw [setEntry_of_ne hji]
  refine ⟨⟨h.partition, h.ready_nodup, fun j => ?_, h.allocated, ?_⟩, fun j hj => ?_⟩
  · rw [hs]
    exact h.ready j
  · simp only [hs]
    exact h.numInService
  · have hji : j ≠ i := fun h => hj (h ▸ hi)
    rw [setEntry_of_ne hji]
    exact h.idle j hj

variable {before later : List ℕ}

theorem nodup_insert (hn : (before ++ later).Nodup) (hi : i ∉ before ++ later) :
    (before ++ i :: later).Nodup :=
  List.nodup_middle.2 (List.nodup_cons.2 ⟨hi, hn⟩)

theorem mem_insert_iff : j ∈ before ++ i :: later ↔ j = i ∨ j ∈ before ++ later := by
  simp only [mem_append, mem_cons]
  tauto

theorem sorted_setEntry (hs : q.Sorted) (hi : i ∉ q.readyList) : (q.setEntry i m).Sorted := by
  refine List.Pairwise.imp_of_mem (fun {j k} hj hk hjk => ?_) hs
  have hj' : j ≠ i := fun h => hi (h ▸ hj)
  have hk' : k ≠ i := fun h => hi (h ▸ hk)
  rwa [readyTime_setEntry_of_ne hj', readyTime_setEntry_of_ne hk']

variable {blkAddr blkSize whenReady order : ℕ}

theorem not_inService_of_allocate {m m' : Mshr} {pkt : MissPacket}
    (h : m.allocate blkAddr blkSize pkt whenReady order allocOnFill = .ok m') :
    m'.inService = false := by
  unfold Mshr.allocate at h
  obtain ⟨_, -, _, -, h⟩ := bind₂_eq_ok.1 h
  obtain ⟨_, -, h⟩ := bind_eq_ok.1 h
  cases h
  rfl

theorem allocate_ok {pkt : MissPacket} (hI : q.Inv)
    (h : q.allocate blkAddr blkSize pkt whenReady order allocOnFill = .ok (j, q')) :
    q'.Inv ∧ (q.Sorted → q'.Sorted) := by
  unfold allocate takeFree at h
  obtain ⟨⟨i, q₁⟩, hfree, h⟩ := bind_eq_ok.1 h
  obtain ⟨m, hm, l, hl, h⟩ := bind₂_eq_ok.1 h
  split at hfree
  · cases hfree
  rename_i i' freeList hfl
  obtain ⟨_, -, hfree⟩ := bind_eq_ok.1 hfree
  cases hfree
  cases h
  obtain ⟨hnd, hdisj⟩ := hI.toConsistent.nodup
  have hia : j ∉ q.allocatedList := hdisj j (by rw [hfl]; exact mem_cons_self)
  have hir : j ∉ q.readyList := fun hmem => hia ((hI.ready j).1 hmem).1
  have hserv := not_inService_of_allocate hm
  set q₂ := ({ q with freeList } : MshrQueue).setEntry j m with hq₂
  have hready : q₂.readyList = q.readyList := rfl
  obtain ⟨before, later, hsplit, rfl, hplace⟩ := addToReadyList_ok hl
  rw [hready] at hsplit
  have hentry : ∀ k, k ≠ j → (q₂.entries k).inService = (q.entries k).inService := fun k hk => by
    rw [hq₂, setEntry_of_ne hk]
  have hself : (q₂.entries j).inService = false := by rw [hq₂, setEntry_self, hserv]
  refine ⟨⟨⟨?_, ?_, fun k => ?_, ?_, ?_⟩, fun k hk => ?_⟩, fun hs => ?_⟩
  · have hp := hI.partition
    rw [hfl] at hp
    simpa [q₂, setEntry] using hp
  · exact nodup_insert (hsplit ▸ hI.ready_nodup) (hsplit ▸ hir)
  · change k ∈ before ++ j :: later ↔ k ∈ q.allocatedList ++ [j] ∧ (q₂.entries k).inService = false
    rw [mem_insert_iff, ← hsplit, mem_append, mem_singleton]
    by_cases hk : k = j
    · simp [hk, hself]
    · simp [hk, hentry k hk, hI.ready k]
  · change q.allocated + 1 = ((q.allocatedList ++ [j]).length : ℤ)
    simp [hI.allocated]
  · change q.numInService = (((q.allocatedList ++ [j]).filter fun k =>
      (q₂.entries k).inService).length : ℤ)
    rw [List.filter_append, List.length_append, hI.numInService,
      filter_congr fun k hk => hentry k fun hki => hia (hki ▸ hk)]
    simp [hself]
  · change k ∉ q.allocatedList ++ [j] at hk
    simp only [mem_append, mem_singleton, not_or] at hk
    change (q₂.entries k).inService = false ∧ (q₂.entries k).targets.items = []
    rw [hq₂, setEntry_of_ne hk.2]
    exact hI.idle k hk.1
  · have hs₂ : q₂.Sorted := sorted_setEntry (q := { q with freeList }) hs hir
    have hs₃ : (before ++ later).Pairwise fun x y => q₂.readyTime x ≤ q₂.readyTime y :=
      hsplit ▸ hs₂
    exact (sorted_insert_iff hs₃).2 (hplace hs₂)

theorem delay_ok {d : ℕ} (hI : q.Inv) (h : q.delay i d = .ok q') :
    q'.Inv ∧ (q.Sorted → (q'.Sorted ↔ q.Fits i (u64 (q.curTick + d)))) := by
  unfold delay at h
  obtain ⟨m, hm, l, hl, h⟩ := bind₂_eq_ok.1 h
  obtain ⟨hi, rfl⟩ := spliceDelayed_ok hl
  cases h
  obtain ⟨_, -, hm⟩ := bind_eq_ok.1 hm
  cases hm
  exact ⟨hI.setEntry ((hI.ready i).1 hi).1 rfl,
    fun hs => sorted_setEntry_iff hI.ready_nodup hs hi⟩

theorem markInService_ok {b : Bool} (hI : q.Inv) (h : q.markInService i b = .ok q') :
    q'.Inv ∧ (q.Sorted → q'.Sorted) := by
  unfold markInService at h
  obtain ⟨m, hm, l, hl, h⟩ := bind₂_eq_ok.1 h
  cases h
  obtain ⟨hi, rfl⟩ := eraseEntry_ok hl
  obtain ⟨hia, hserv⟩ := (hI.ready i).1 hi
  have hm' : m.inService = true := by
    unfold Mshr.markInService at hm
    obtain ⟨_, -, _, -, hm⟩ := bind₂_eq_ok.1 hm
    cases hm
    rfl
  obtain ⟨hnd, -⟩ := hI.toConsistent.nodup
  have hentry : ∀ k, k ≠ i → ((q.setEntry i m).entries k).inService = (q.entries k).inService :=
    fun k hk => by rw [setEntry_of_ne hk]
  have hself : ((q.setEntry i m).entries i).inService = true := by rw [setEntry_self, hm']
  refine ⟨⟨⟨hI.partition, hI.ready_nodup.erase i, fun k => ?_, hI.allocated, ?_⟩, fun k hk => ?_⟩,
    fun hs => ?_⟩
  · change k ∈ q.readyList.erase i ↔ k ∈ q.allocatedList ∧
      ((q.setEntry i m).entries k).inService = false
    rw [hI.ready_nodup.mem_erase_iff, hI.ready k]
    by_cases hk : k = i
    · simp [hk, hm']
    · simp [hk, hentry k hk]
  · change q.numInService + 1 = ((q.allocatedList.filter fun k =>
      ((q.setEntry i m).entries k).inService).length : ℤ)
    rw [length_filter_update (f := fun k => (q.entries k).inService) hnd hia hentry, hself, hserv,
      hI.numInService]
    simp
  · have hk' : k ∉ q.allocatedList := hk
    have hki : k ≠ i := fun h => hk' (h ▸ hia)
    change ((q.setEntry i m).entries k).inService = false ∧
      ((q.setEntry i m).entries k).targets.items = []
    rw [setEntry_of_ne hki]
    exact hI.idle k hk'
  · have hsub : (q.readyList.erase i).Pairwise fun j k => q.readyTime j ≤ q.readyTime k :=
      hs.sublist List.erase_sublist
    refine List.Pairwise.imp_of_mem (fun {j k} hj hk hjk => ?_) hsub
    have hj' : j ≠ i := (hI.ready_nodup.mem_erase_iff.1 hj).1
    have hk' : k ≠ i := (hI.ready_nodup.mem_erase_iff.1 hk).1
    change (q.setEntry i m).readyTime j ≤ (q.setEntry i m).readyTime k
    rwa [readyTime_setEntry_of_ne hj', readyTime_setEntry_of_ne hk']

theorem markPending_ok (hI : q.Inv) (h : q.markPending i = .ok q') :
    q'.Inv ∧ (q.Sorted → q'.Sorted) := by
  unfold markPending at h
  obtain ⟨_, hserv, l, hl, h⟩ := bind₂_eq_ok.1 h
  cases h
  have hserv' : (q.entries i).inService = true := assert_eq_ok.1 hserv
  have hia : i ∈ q.allocatedList := by
    by_contra hia
    rw [(hI.idle i hia).1] at hserv'
    cases hserv'
  have hir : i ∉ q.readyList := fun hmem => by
    rw [((hI.ready i).1 hmem).2] at hserv'
    cases hserv'
  set q₁ := q.setEntry i { q.entries i with inService := false } with hq₁
  obtain ⟨before, later, hsplit, rfl, hplace⟩ := addToReadyList_ok hl
  have hready : q₁.readyList = q.readyList := rfl
  rw [hready] at hsplit
  obtain ⟨hnd, -⟩ := hI.toConsistent.nodup
  have hentry : ∀ k, k ≠ i → (q₁.entries k).inService = (q.entries k).inService := fun k hk => by
    rw [hq₁, setEntry_of_ne hk]
  have hself : (q₁.entries i).inService = false := by rw [hq₁, setEntry_self]
  refine ⟨⟨⟨hI.partition, ?_, fun k => ?_, hI.allocated, ?_⟩, fun k hk => ?_⟩, fun hs => ?_⟩
  · exact nodup_insert (hsplit ▸ hI.ready_nodup) (hsplit ▸ hir)
  · change k ∈ before ++ i :: later ↔ k ∈ q.allocatedList ∧ (q₁.entries k).inService = false
    rw [mem_insert_iff, ← hsplit, hI.ready k]
    by_cases hk : k = i
    · simp [hk, hself, hia]
    · simp [hk, hentry k hk]
  · change q.numInService - 1 = ((q.allocatedList.filter fun k =>
      (q₁.entries k).inService).length : ℤ)
    rw [length_filter_update (f := fun k => (q.entries k).inService) hnd hia hentry, hself, hserv',
      hI.numInService]
    simp
  · have hk' : k ∉ q.allocatedList := hk
    have hki : k ≠ i := fun h => hk' (h ▸ hia)
    change (q₁.entries k).inService = false ∧ (q₁.entries k).targets.items = []
    rw [hq₁, setEntry_of_ne hki]
    exact hI.idle k hk'
  · have hs₁ : q₁.Sorted := sorted_setEntry hs hir
    have hs₂ : (before ++ later).Pairwise fun j k => q₁.readyTime j ≤ q₁.readyTime k :=
      hsplit ▸ hs₁
    exact (sorted_insert_iff hs₂).2 (hplace hs₁)

theorem leaveService_ok (hi : (q.entries i).inService = true → i ∉ q.readyList)
    (h : q.leaveService i = .ok q') :
    q' = { q with
      readyList := q.readyList.erase i
      numInService := q.numInService - ((q.entries i).inService.toNat : ℤ) } := by
  unfold leaveService at h
  split_ifs at h with hserv
  · cases h
    rw [List.erase_of_not_mem (hi hserv), hserv]
    rfl
  · obtain ⟨l, hl, h⟩ := bind_eq_ok.1 h
    obtain ⟨-, rfl⟩ := eraseEntry_ok hl
    cases h
    have hserv' : (q.entries i).inService = false := by simpa using hserv
    simp [hserv']

theorem deallocate_ok (hI : q.Inv) (h : q.deallocate i = .ok q') :
    q'.Inv ∧ (q.Sorted → q'.Sorted) := by
  unfold deallocate at h
  obtain ⟨l, hl, q₁, hq₁, h⟩ := bind₂_eq_ok.1 h
  obtain ⟨m, hm, h⟩ := bind_eq_ok.1 h
  obtain ⟨hia, rfl⟩ := eraseEntry_ok hl
  have hir : (q.entries i).inService = true → i ∉ q.readyList := fun hserv hmem => by
    rw [((hI.ready i).1 hmem).2] at hserv
    cases hserv
  have hq₁' := leaveService_ok (by exact hir) hq₁
  subst hq₁'
  cases h
  have hm' : m.inService = false ∧ m.targets.items = [] := by
    unfold Mshr.deallocate at hm
    obtain ⟨_, hempty, _, -, hm⟩ := bind₂_eq_ok.1 hm
    cases hm
    have hnil : (q.entries i).targets.items = [] := by simpa using assert_eq_ok.1 hempty
    exact ⟨rfl, hnil⟩
  obtain ⟨hnd, hdisj⟩ := hI.toConsistent.nodup
  have hentry : ∀ k, k ≠ i → (update q.entries i m k) = q.entries k :=
    fun k hk => update_of_ne hk ..
  have hself : update q.entries i m i = m := update_self ..
  refine ⟨⟨⟨?_, hI.ready_nodup.erase i, fun k => ?_, ?_, ?_⟩, fun k hk => ?_⟩, fun hs => ?_⟩
  · change (q.allocatedList.erase i ++ i :: q.freeList).Perm (List.range q.numEntries)
    exact (List.perm_middle.trans ((List.perm_cons_erase hia).symm.append_right _)).trans
      hI.partition
  · change k ∈ q.readyList.erase i ↔ k ∈ q.allocatedList.erase i ∧
      (update q.entries i m k).inService = false
    rw [hI.ready_nodup.mem_erase_iff, hnd.mem_erase_iff, hI.ready k]
    by_cases hk : k = i
    · simp [hk]
    · simp [hk]
  · change q.allocated - 1 = ((q.allocatedList.erase i).length : ℤ)
    have hpos : 0 < q.allocatedList.length := List.length_pos_of_mem hia
    rw [hI.allocated, List.length_erase_of_mem hia]
    omega
  · change q.numInService - ((q.entries i).inService.toNat : ℤ) =
      (((q.allocatedList.erase i).filter fun k =>
        (update q.entries i m k).inService).length : ℤ)
    have hcongr : (q.allocatedList.erase i).filter (fun k =>
        (update q.entries i m k).inService) =
          (q.allocatedList.erase i).filter fun k => (q.entries k).inService :=
      filter_congr fun k hk => by rw [hentry k (hnd.mem_erase_iff.1 hk).1]
    have hlen := ((List.perm_cons_erase hia).filter fun k => (q.entries k).inService).length_eq
    rw [hcongr, hI.numInService, hlen, filter_cons]
    cases (q.entries i).inService <;> simp
  · change k ∉ q.allocatedList.erase i at hk
    change (update q.entries i m k).inService = false ∧
      (update q.entries i m k).targets.items = []
    by_cases hki : k = i
    · rw [hki, hself]
      exact hm'
    · rw [hentry k hki]
      exact hI.idle k fun hmem => hk (hnd.mem_erase_iff.2 ⟨hki, hmem⟩)
  · have hsub : (q.readyList.erase i).Pairwise fun j k => q.readyTime j ≤ q.readyTime k :=
      hs.sublist List.erase_sublist
    refine List.Pairwise.imp_of_mem (fun {j k} hj hk hjk => ?_) hsub
    change (update q.entries i m j).readyTime ≤ (update q.entries i m k).readyTime
    rw [hentry j (hI.ready_nodup.mem_erase_iff.1 hj).1,
      hentry k (hI.ready_nodup.mem_erase_iff.1 hk).1]
    exact hjk

theorem sorted_setEntry_same (hm : m.readyTime = q.readyTime i) :
    (q.setEntry i m).Sorted ↔ q.Sorted := by
  have htime : (q.setEntry i m).readyTime = q.readyTime := by
    funext j
    by_cases hj : j = i
    · rw [hj, ← hm, readyTime, setEntry_self]
    · rw [readyTime_setEntry_of_ne hj]
  unfold Sorted
  rw [htime]
  rfl

theorem sorted_setEntry_cases (hI : q.Inv) (hs : q.Sorted) (hi : i ∈ q.allocatedList) :
    (q.setEntry i m).Sorted ↔ ((q.entries i).inService = false → q.Fits i m.readyTime) := by
  cases hserv : (q.entries i).inService with
  | true =>
    have hir : i ∉ q.readyList := fun hmem => by
      rw [((hI.ready i).1 hmem).2] at hserv
      cases hserv
    simp [sorted_setEntry hs hir]
  | false =>
    simpa using sorted_setEntry_iff hI.ready_nodup hs ((hI.ready i).2 ⟨hi, hserv⟩)

theorem forceDeallocateTarget_ok {b : Bool} (hI : q.Inv)
    (h : q.forceDeallocateTarget i = .ok (b, q')) :
    q'.Inv ∧ (q.Sorted → (q'.Sorted ↔ q.StaysInPlace (.forceDeallocateTarget i))) := by
  unfold forceDeallocateTarget at h
  obtain ⟨_, hhas, m, hm, h⟩ := bind₂_eq_ok.1 h
  obtain ⟨q₁, hq₁, h⟩ := bind_eq_ok.1 h
  cases h
  have hia : i ∈ q.allocatedList := by
    by_contra hia
    have := assert_eq_ok.1 hhas
    simp [Mshr.hasTargets, (hI.idle i hia).2] at this
  -- the entry without its first target
  obtain ⟨t, ts, hts, rfl⟩ : ∃ t ts, (q.entries i).targets.items = t :: ts ∧
      m = { q.entries i with targets := { (q.entries i).targets with items := ts } } := by
    unfold Mshr.popTarget at hm
    split at hm
    · cases hm
    · rename_i t ts hts
      cases hm
      exact ⟨t, ts, hts, rfl⟩
  set m := { q.entries i with targets := { (q.entries i).targets with items := ts } } with hmdef
  have hI₁ : (q.setEntry i m).Inv := hI.setEntry hia rfl
  have hs₁ : (q.setEntry i m).Sorted ↔ q.Sorted := sorted_setEntry_same rfl
  unfold promoteOrDeallocate at hq₁
  rw [setEntry_self] at hq₁
  split_ifs at hq₁ with hmore
  · cases hq₁
    refine ⟨hI₁, fun hs => iff_of_true (hs₁.2 hs) fun _ hone => ?_⟩
    rw [hts] at hone
    simp only [List.length_cons, Nat.add_eq_right, List.length_eq_zero_iff] at hone
    simp [Mshr.hasTargets, hmdef, hone] at hmore
  · have hnil : ts = [] := by simpa [Mshr.hasTargets, hmdef] using hmore
    obtain ⟨⟨promoted, m₁⟩, hm₁, hq₁⟩ := bind_eq_ok.1 hq₁
    obtain ⟨hserv, htime, -, hnone⟩ := Mshr.promoteDeferredTargets_frame hm₁
    dsimp only at hq₁
    split_ifs at hq₁ with hprom
    · cases hq₁
      have hset : (q.setEntry i m).setEntry i m₁ = q.setEntry i m₁ := by
        simp [setEntry, update_idem]
      have hdef : (q.entries i).deferredTargets.items ≠ [] := by
        intro hd
        have := hnone.2 (by simp [Mshr.waiting, hmdef, hnil, hd])
        rw [hprom] at this
        cases this
      rw [hset]
      refine ⟨hI.setEntry hia hserv, fun hs => (sorted_setEntry_cases hI hs hia).trans ?_⟩
      have hval : m₁.readyTime = max q.curTick
          (((q.entries i).deferredTargets.items.head?.map Target.readyTime).getD 0) := by
        obtain ⟨d, ds, hd⟩ := List.exists_cons_of_ne_nil hdef
        rw [htime]
        simp [Mshr.promotedTime, hmdef, hnil, hd, setEntry]
      rw [hval]
      simp [StaysInPlace, hts, hnil, hdef]
    · obtain ⟨hI', hs'⟩ := deallocate_ok hI₁ hq₁
      refine ⟨hI', fun hs => iff_of_true (hs' (hs₁.2 hs)) fun _ _ hd => ?_⟩
      have := hnone.1 (by simpa using hprom)
      simp [Mshr.waiting, hmdef, hnil] at this
      exact absurd this hd

theorem onEntry_ok {call : { o : Mshr.Op // o.ofCache = true }} (hI : q.Inv)
    (h : q.onEntry i call = .ok q') :
    q'.Inv ∧ (q.Sorted → (q'.Sorted ↔ q.StaysInPlace (.onEntry i call))) := by
  unfold onEntry at h
  split_ifs at h with hia
  obtain ⟨⟨a, m⟩, hm, h⟩ := bind_eq_ok.1 h
  cases h
  obtain ⟨hserv, htime⟩ := Mshr.step_frame call.2 hm
  refine ⟨hI.setEntry hia hserv, fun hs => ?_⟩
  rcases htime with ⟨hcall, htime⟩ | ⟨curTick, hcall, htime⟩
  · rw [sorted_setEntry_same htime]
    exact iff_of_true hs fun curTick hc => absurd hc (hcall curTick)
  · rw [sorted_setEntry_cases hI hs hia, htime]
    simp only [StaysInPlace, hcall, Mshr.Op.promoteDeferredTargets.injEq, forall_eq']

theorem step_ok {o : Op} {r : Unit} (hI : q.Inv) (h : q.step o = .ok (r, q')) :
    q'.Inv ∧ (q.Sorted → (q'.Sorted ↔ q.StaysInPlace o)) := by
  have hkeeps : q'.Inv ∧ (q.Sorted → q'.Sorted) → q.StaysInPlace o →
      q'.Inv ∧ (q.Sorted → (q'.Sorted ↔ q.StaysInPlace o)) :=
    fun hk hc => ⟨hk.1, fun hs => iff_of_true (hk.2 hs) hc⟩
  cases o with
  | allocate blkAddr blkSize pkt whenReady order allocOnFill =>
    obtain ⟨⟨j, q₁⟩, hq₁, h⟩ := bind_eq_ok.1 h
    cases h
    exact hkeeps (allocate_ok hI hq₁) trivial
  | delay mshr delayTicks =>
    obtain ⟨q₁, hq₁, h⟩ := bind_eq_ok.1 h
    cases h
    exact delay_ok hI hq₁
  | markInService mshr pendingModifiedResp =>
    obtain ⟨q₁, hq₁, h⟩ := bind_eq_ok.1 h
    cases h
    exact hkeeps (markInService_ok hI hq₁) trivial
  | markPending mshr =>
    obtain ⟨q₁, hq₁, h⟩ := bind_eq_ok.1 h
    cases h
    exact hkeeps (markPending_ok hI hq₁) trivial
  | deallocate mshr =>
    obtain ⟨q₁, hq₁, h⟩ := bind_eq_ok.1 h
    cases h
    exact hkeeps (deallocate_ok hI hq₁) trivial
  | forceDeallocateTarget mshr =>
    obtain ⟨⟨b, q₁⟩, hq₁, h⟩ := bind_eq_ok.1 h
    cases h
    exact forceDeallocateTarget_ok hI hq₁
  | onEntry mshr call =>
    obtain ⟨q₁, hq₁, h⟩ := bind_eq_ok.1 h
    cases h
    exact onEntry_ok hI hq₁
  | elapse ticks =>
    cases h
    exact hkeeps ⟨⟨⟨hI.partition, hI.ready_nodup, hI.ready, hI.allocated, hI.numInService⟩,
      hI.idle⟩, id⟩ trivial

theorem start_inv (numEntries reserve : ℕ) : (start numEntries reserve).Inv := by
  refine ⟨⟨.refl _, List.nodup_nil, fun i => ?_, rfl, rfl⟩, fun j _ => ⟨rfl, rfl⟩⟩
  simp [start]

theorem start_sorted (numEntries reserve : ℕ) : (start numEntries reserve).Sorted :=
  List.Pairwise.nil

/-- Over every run of calls on the queue the lists and the counts agree with the entries; and the
ready list is in order in every state, with the next entry and its time the right ones, exactly
when every entry on it that gets another ready time has its place there already. -/
theorem readyList_right_iff {numEntries reserve : ℕ} {ops : List Op} {rs : List Unit} {q : MshrQueue}
    (h : Run.run step (start numEntries reserve) ops = .ok (rs, q)) :
    q.Consistent ∧ (Run.Along step RightAfter (start numEntries reserve) ops ↔
      Run.Along step StaysInPlace (start numEntries reserve) ops) := by
  constructor
  · have hinv := Run.run_inv (I := Inv) (fun s o r s' hI _ hs => (step_ok hI hs).1)
      (start_inv numEntries reserve) (Run.along_true _ ops) h
    exact hinv.toConsistent
  · refine Run.along_congr_of_run (I := fun q : MshrQueue => q.Inv ∧ q.Sorted)
      (fun q o r q' hI hs => ?_) ⟨start_inv _ _, start_sorted _ _⟩ h
    obtain ⟨hI', hsorted⟩ := step_ok hI.1 hs
    have hafter : q.RightAfter o ↔ q'.Sorted := by
      constructor
      · exact fun hR => (hR r q' hs).sorted
      · intro hS r₁ q₁ h₁
        rw [hs] at h₁
        cases h₁
        exact right_of_sorted hI'.toConsistent hS
    rw [hafter]
    exact ⟨hsorted hI.2, fun hS => ⟨hI', hS⟩⟩

/-- Two misses ready at once, the first of which is held back. -/
def delayFirst : List Op :=
  [.allocate 0x40 64 { id := 1, cmd := .writeReq, addr := 0x40, size := 8 } 10 1 true,
    .allocate 0x80 64 { id := 2, cmd := .readReq, addr := 0x80, size := 8 } 10 2 true,
    .elapse 10, .delay 0 100]

/-- The second miss is ready, but the one held back is still before it on the list. -/
theorem delayFirst_blocks :
    ∃ rs q, Run.run step (start 4 0) delayFirst = .ok (rs, q) ∧ q.getNext = none ∧
      1 ∈ q.readyList ∧ q.readyTime 1 ≤ q.curTick ∧ q.readyTime 1 < q.nextReadyTime :=
  ⟨_, _, rfl, rfl, by decide, by decide, by decide⟩

/-- Of the same misses the second is held back. -/
def delaySecond : List Op :=
  [.allocate 0x40 64 { id := 1, cmd := .writeReq, addr := 0x40, size := 8 } 10 1 true,
    .allocate 0x80 64 { id := 2, cmd := .readReq, addr := 0x80, size := 8 } 10 2 true,
    .elapse 10, .delay 1 100]

theorem delaySecond_right :
    ∃ rs q, Run.run step (start 4 0) delaySecond = .ok (rs, q) ∧ q.Consistent ∧
      Run.Along step RightAfter (start 4 0) delaySecond := by
  have hrun : Run.run step (start 4 0) delaySecond = .ok _ := rfl
  refine ⟨_, _, hrun, (readyList_right_iff hrun).1, (readyList_right_iff hrun).2.2 ?_⟩
  refine (Run.along_cons rfl).2 ⟨trivial, (Run.along_cons rfl).2 ⟨trivial,
    (Run.along_cons rfl).2 ⟨trivial, (Run.along_cons rfl).2 ⟨?_, trivial⟩⟩⟩⟩
  change Fits _ _ _
  unfold Fits
  decide

end MshrQueue

end Gem5Nvm
