import Gem5Nvm.Proofs.AddrRange

/-!
# Building the physical memory

The first loop of the constructor sorts the memories of the address map into the tree
(`addMemory_ok`) and the second turns each maximal run of one interleaved group into a store: at
every point the ranges it keeps are the members of one group seen so far (`pending`).
-/

namespace Gem5Nvm.PhysicalMemory

open AbstractMemory
open List (mem_append mem_map mem_cons map_append map_cons)

variable {ms : List AbstractMemory} {sb : String} {pm pm' : PhysicalMemory}

/-- The stores of `pm` are those of the memories `done`. -/
structure Stores (pm : PhysicalMemory) (done : List AbstractMemory) : Prop where
  backed : pm.backed.map Prod.fst = done
  entry : ∀ b ∈ pm.backed, ∃ e ∈ pm.backingStore, e.pmem = b.2 ∧
    e.range = .contiguous b.1.range.start b.1.range.end_ ∧
    b.2.length = b.1.range.end_ - b.1.range.start
  own : pm.sharedBackstore = "" → ∀ b ∈ pm.backed,
    ∃ i < pm.backingStore.length, b.2.object = .private_ i
  shared : pm.sharedBackstore ≠ "" → ∀ b ∈ pm.backed, b.2.object = .shared
  aliases : pm.sharedBackstore = "" → ∀ b ∈ pm.backed, ∀ c ∈ pm.backed,
    b.2.object = c.2.object → b.1.range.mergesWith c.1.range = true
  shmSize_pos : pm.sharedBackstore ≠ "" → pm.backed ≠ [] → 0 < pm.shmSize

theorem size_contiguous {start end_ : ℕ} (h : start ≤ end_) (hend : end_ < 2 ^ 64) :
    (AddrRange.contiguous start end_).size = end_ - start := by
  simp only [AddrRange.size, AddrRange.contiguous, usub, List.length_nil, Nat.shiftRight_zero]
  omega

/-- A store for memories with the bounds of a plain range. -/
theorem createBackingStore_ok (new : List AbstractMemory) {done : List AbstractMemory}
    {start end_ : ℕ} {c i k : Bool} (h : pm.Stores done) (hlt : start < end_) (hend : end_ < 2 ^ 64)
    (hnew : ∀ m ∈ new, m.range.start = start ∧ m.range.end_ = end_)
    (hmerge : ∀ m ∈ new, ∀ m' ∈ new, m.range.mergesWith m'.range = true) :
    ∃ pm', pm.createBackingStore (.contiguous start end_) new c i k = .ok pm' ∧
      pm'.Stores (done ++ new) ∧ pm'.addrMap = pm.addrMap ∧ pm'.size = pm.size ∧
      pm'.sharedBackstore = pm.sharedBackstore := by
  have hsize := size_contiguous hlt.le hend
  refine ⟨_, rfl, ⟨?_, ?_, ?_, ?_, ?_, ?_⟩, rfl, rfl, rfl⟩
  · simp [h.backed, List.map_map, Function.comp_def]
  · intro b hb
    rcases mem_append.1 hb with hb | hb
    · obtain ⟨e, he, h1, h2⟩ := h.entry b hb
      exact ⟨e, List.mem_append_left _ he, h1, h2⟩
    · obtain ⟨m, hm, rfl⟩ := mem_map.1 hb
      obtain ⟨h1, h2⟩ := hnew m hm
      refine ⟨_, List.mem_append_right _ (List.mem_singleton.2 rfl), rfl, ?_, ?_⟩
      · simp [h1, h2]
      · simp [h1, h2, hsize]
  · intro hs b hb
    change pm.sharedBackstore = "" at hs
    rcases mem_append.1 hb with hb | hb
    · obtain ⟨j, hj, ho⟩ := h.own hs b hb
      exact ⟨j, by simp only [List.length_append]; omega, ho⟩
    · obtain ⟨m, hm, rfl⟩ := mem_map.1 hb
      exact ⟨pm.backingStore.length, by simp, by simp [hs]⟩
  · intro hs b hb
    change pm.sharedBackstore ≠ "" at hs
    rcases mem_append.1 hb with hb | hb
    · exact h.shared hs b hb
    · obtain ⟨m, hm, rfl⟩ := mem_map.1 hb
      simp [hs]
  · intro hs b hb c hc hobj
    change pm.sharedBackstore = "" at hs
    have hold : ∀ b ∈ pm.backed, b.2.object ≠ .private_ pm.backingStore.length := by
      intro b hb heq
      obtain ⟨j, hj, ho⟩ := h.own hs b hb
      rw [ho] at heq
      cases heq
      omega
    rcases mem_append.1 hb with hb | hb <;> rcases mem_append.1 hc with hc | hc
    · exact h.aliases hs b hb c hc hobj
    · obtain ⟨m, hm, rfl⟩ := mem_map.1 hc
      exact absurd (by simpa [hs] using hobj) (hold b hb)
    · obtain ⟨m, hm, rfl⟩ := mem_map.1 hb
      exact absurd (by simpa [hs] using hobj.symm) (hold c hc)
    · obtain ⟨m, hm, rfl⟩ := mem_map.1 hb
      obtain ⟨m', hm', rfl⟩ := mem_map.1 hc
      exact hmerge m hm m' hm'
  · intro hs _
    change pm.sharedBackstore ≠ "" at hs
    simp [hs, hsize, hlt]

section FirstLoop

/-- The memories `pre` are in the address map, or have their stores. -/
structure Mapped (sb : String) (pre : List AbstractMemory) (pm : PhysicalMemory) : Prop where
  sorted : pm.addrMap.Sorted
  cache : pm.addrMap.cache = []
  first : ∀ n ∈ pm.addrMap.tree, n.first = n.second.range
  perm : (pm.addrMap.tree.map RangeNode.second).Perm (pre.filter fun m => m.inAddrMap)
  shared : pm.sharedBackstore = sb
  size : pm.size = u64 ((pre.filter fun m => m.inAddrMap).map fun m => m.range.size).sum
  stores : pm.Stores (pre.filter fun m => !m.inAddrMap)

variable {n : RangeNode AbstractMemory}

theorem Mapped.mem (h : Mapped sb ms pm) (hn : n ∈ pm.addrMap.tree) :
    n.second ∈ ms ∧ n.second.inAddrMap = true := by
  have hmem := h.perm.subset (mem_map.2 ⟨n, hn, rfl⟩)
  simpa using hmem

variable {pre rest : List AbstractMemory} {m : AbstractMemory}

section

variable (hms : Acceptable ms) (hsplit : ms = pre ++ m :: rest) (h : Mapped sb pre pm)
include hms hsplit h

theorem Mapped.earlier (hn : n ∈ pm.addrMap.tree) :
    n.second ∈ pre ∧ n.second ∈ ms ∧ n.second.inAddrMap = true ∧ m ≠ n.second := by
  obtain ⟨hp, hi⟩ := h.mem hn
  refine ⟨hp, by simp [hsplit, hp], hi, ?_⟩
  rintro rfl
  have hnodup := hms.nodup
  rw [hsplit, List.nodup_append] at hnodup
  exact hnodup.2.2 _ hp _ (by simp) rfl

theorem Mapped.insert (hmap : m.inAddrMap = true) (hone : ∀ k ∈ pre, MayPrecede k m) :
    ∃ before after, pm.addrMap.tree = before ++ after ∧
      (∀ n ∈ before, n.first.lt m.range = true) ∧ (∀ n ∈ after, m.range.lt n.first = true) ∧
      pm.addrMap.insert m.range m = .ok (some ⟨pm.addrMap.nextId, m.range, m⟩, { pm.addrMap with
        tree := before ++ ⟨pm.addrMap.nextId, m.range, m⟩ :: after
        nextId := pm.addrMap.nextId + 1 }) := by
  have hm : m ∈ ms := by simp [hsplit]
  refine AddrRangeMap.insert_fresh h.sorted (by simp [AddrRangeMap.CacheValid, h.cache])
    (fun n hn => ?_) (fun n hn => ?_)
  · obtain ⟨hp, hk, hi, hne⟩ := h.earlier hms hsplit hn
    rw [h.first n hn]
    refine AddrRange.intersects_separate (hms.separate hm hk hmap hi hne)
      (hms.interleaved_of_separate hm hk hmap hi hne) fun hmerge hs => ?_
    obtain ⟨e1, e2, e3⟩ := AddrRange.mergesWith_iff.1 hmerge
    have hsize : m.range.size = n.second.range.size := by simp [AddrRange.size, e1, e2, e3]
    rw [e1]
    exact hone n.second hp hi hmap (hms.interleaved_of_separate hm hk hmap hi hne hmerge)
      hmerge (hsize.trans hs)
  · obtain ⟨-, hk, hi, hne⟩ := h.earlier hms hsplit hn
    rw [h.first n hn]
    exact (hms.separate hm hk hmap hi hne).lt_or_lt (hms.start_lt_end hm) (hms.start_lt_end hk)

theorem addMemory_ok (hun : m.inAddrMap = false → m.range.interleaved = false)
    (hone : ∀ k ∈ pre, MayPrecede k m) :
    ∃ pm', pm.addMemory m = .ok pm' ∧ Mapped sb (pre ++ [m]) pm' := by
  have hm : m ∈ ms := by simp [hsplit]
  have hlt := hms.start_lt_end hm
  cases hmap : m.inAddrMap with
  | false =>
    have hplain := hun hmap
    obtain ⟨pm', hc, hstores, hA, hsize, hsb⟩ := createBackingStore_ok [m]
      (c := m.confTableReported) (i := false) (k := m.kvmMap) h.stores hlt
      (hms.wellFormed m hm).end_lt (by simp) (by simp [AddrRange.mergesWith_refl])
    rw [← hms.eq_contiguous hm hplain] at hc
    refine ⟨pm', by simp [addMemory, hmap, hplain, hc], ?_⟩
    refine ⟨hA ▸ h.sorted, hA ▸ h.cache, hA ▸ h.first, ?_, hsb.trans h.shared, ?_, ?_⟩
    · simpa [hA, hmap] using h.perm
    · simpa [hsize, hmap] using h.size
    · simpa [hmap] using hstores
  | true =>
    obtain ⟨before, after, htree, hbefore, hafter, hins⟩ := h.insert hms hsplit hmap hone
    refine ⟨_, by simp only [addMemory, hmap, if_true, hins, Sim.ok_bind]; rfl, ?_⟩
    have hsorted := h.sorted
    unfold AddrRangeMap.Sorted at hsorted
    rw [htree, List.pairwise_append] at hsorted
    refine ⟨?_, h.cache, ?_, ?_, h.shared, ?_, ?_⟩
    · refine List.pairwise_append.2 ⟨hsorted.1, List.pairwise_cons.2 ⟨hafter, hsorted.2.1⟩, ?_⟩
      intro a ha b hb
      rcases mem_cons.1 hb with rfl | hb
      · exact hbefore a ha
      · exact hsorted.2.2 a ha b hb
    · intro n hn
      rcases mem_append.1 hn with hn | hn
      · exact h.first n (by simp [htree, hn])
      · rcases mem_cons.1 hn with rfl | hn
        · rfl
        · exact h.first n (by simp [htree, hn])
    · have hp := h.perm
      rw [htree, map_append] at hp
      simp only [map_append, map_cons, List.filter_append, List.filter_cons, hmap,
        if_true, List.filter_nil]
      exact (List.perm_middle.trans (hp.cons m)).trans (List.perm_append_singleton _ _).symm
    · simp only [h.size, List.filter_append, List.filter_cons, hmap, if_true, List.filter_nil,
        map_append, map_cons, List.map_nil, List.sum_append, List.sum_cons, List.sum_nil,
        u64, Nat.add_zero, Nat.mod_add_mod]
    · have hdone : ((pre ++ [m]).filter fun m => !m.inAddrMap) = pre.filter fun m => !m.inAddrMap := by
        simp [hmap]
      rw [hdone]
      exact ⟨h.stores.backed, h.stores.entry, h.stores.own, h.stores.shared, h.stores.aliases,
        h.stores.shmSize_pos⟩

theorem addMemory_fine (hadd : pm.addMemory m = .ok pm') :
    (m.inAddrMap = false → m.range.interleaved = false) ∧ ∀ k ∈ pre, MayPrecede k m := by
  have hm : m ∈ ms := by simp [hsplit]
  refine ⟨fun hmap => ?_, fun k hk hkmap hmap hil hmerge hsize => ?_⟩
  · by_contra hil
    rw [Bool.not_eq_false] at hil
    simp [addMemory, hmap, hil] at hadd
  · by_contra hstart
    rw [Bool.not_eq_false] at hstart
    -- every member of the group then seems to intersect `m`
    have htrue : ∀ n ∈ pm.addrMap.tree, n.first.start = m.range.start →
        m.range.intersects n.first = .ok true := by
      intro n hn heq
      obtain ⟨-, hn', hi, -⟩ := h.earlier hms hsplit hn
      rw [h.first n hn] at heq ⊢
      have hmn := hms.mergesWith_of_start hm hn' hmap hi heq.symm
      obtain ⟨e1, e2, e3⟩ := AddrRange.mergesWith_iff.1 hmn
      have hs : n.second.range.size = 1 := by rw [← hsize]; simp [AddrRange.size, e1, e2, e3]
      rw [AddrRange.intersects_oneByte (hms.start_lt_end hm) hil hmn hs, e1, hstart]
    have hfalse : ∀ n ∈ pm.addrMap.tree, n.first.start ≠ m.range.start →
        m.range.intersects n.first = .ok false := by
      intro n hn hne
      obtain ⟨-, hn', hi, hmn⟩ := h.earlier hms hsplit hn
      rw [h.first n hn] at hne ⊢
      have hno : ¬ m.range.mergesWith n.second.range = true := fun hmerge =>
        hne (AddrRange.mergesWith_iff.1 hmerge).1
      exact AddrRange.intersects_separate (hms.separate hm hn' hmap hi hmn)
        (fun h => absurd h hno) (fun h => absurd h hno)
    obtain ⟨n, hn, rfl⟩ : ∃ n ∈ pm.addrMap.tree, n.second = k := by
      have hmem : k ∈ pm.addrMap.tree.map RangeNode.second :=
        h.perm.symm.subset (List.mem_filter.2 ⟨hk, hkmap⟩)
      simpa using hmem
    obtain ⟨n', m', hfind⟩ := AddrRangeMap.find_sameStart h.sorted h.cache htrue hfalse
      ⟨n, hn, by rw [h.first n hn]; exact (AddrRange.mergesWith_iff.1 hmerge).1⟩
    simp [addMemory, hmap, AddrRangeMap.insert, AddrRangeMap.intersects, hfind] at hadd

end

end FirstLoop

end Gem5Nvm.PhysicalMemory
