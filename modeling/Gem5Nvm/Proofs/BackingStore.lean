import Gem5Nvm.Proofs.PhysicalMemory

/-!
# The stores of interleaved groups

The second loop of the constructor walks the sorted memories and keeps the interleaved ones back
until a member of another group comes.  What it keeps at any point is `pending`, the members of the
last group seen so far; it becomes a store exactly when the group is there as a whole
(`mergeStore_ok`, `mergeStore_full`).
-/

namespace Gem5Nvm.PhysicalMemory

open AbstractMemory
open AddrRange (interleaved_of_mergesWith mergesWith_comm mergesWith_iff mergesWith_right
  mergesWith_trans lt_iff merged mergesWith_refl)
open List (append_assoc append_nil map_cons mem_cons_self mem_range ne_nil_of_mem pairwise_append
  range mem_map mem_filter mem_append mem_singleton)
open RangeNode (second)

variable {ms : List AbstractMemory} {sb : String} {pm pm' : PhysicalMemory}

section Merge

theorem eq_range_of_ascending {l : List ℕ} {n : ℕ} (hs : l.Pairwise (· < ·))
    (hlt : ∀ x ∈ l, x < n) (hlen : l.length = n) : l = range n := by
  have hsub : l.Subperm (range n) :=
    List.subperm_of_subset (hs.imp fun h => h.ne) fun x hx => List.mem_range.2 (hlt x hx)
  have hperm := hsub.perm_of_length_le (by simp [hlen])
  exact hperm.eq_of_sortedLE hs.sortedLT.sortedLE (List.sortedLT_range n).sortedLE

theorem length_of_ascending {l : List ℕ} {n : ℕ} (hs : l.Pairwise (· < ·))
    (hmem : ∀ x, x ∈ l ↔ x < n) : l.length = n := by
  have hperm : l.Perm (range n) :=
    (List.perm_ext_iff_of_nodup (hs.imp fun h => h.ne) List.nodup_range).2 fun x => by
      rw [hmem, mem_range]
  rw [hperm.length_eq, List.length_range]

theorem checkMembers_ok (front : AddrRange) : ∀ (rs : List AddrRange) (k : ℕ),
    (∀ r ∈ rs, front.mergesWith r = true) →
      rs.map AddrRange.intlvMatch = List.range' k rs.length → k + rs.length ≤ 2 ^ 8 →
        front.checkMembers k rs = .ok ()
  | [], _, _, _, _ => rfl
  | r :: rs, k, hmerge, hmatch, hk => by
    simp only [map_cons, List.length_cons, List.range'_succ, List.cons.injEq] at hmatch hk
    simp only [AddrRange.checkMembers, hmerge r mem_cons_self, hmatch.1, not_true, if_false,
      ne_eq]
    rcases rs with _ | ⟨r', rs⟩
    · rfl
    · have hmod : (k + 1) % 2 ^ 8 = k + 1 := Nat.mod_eq_of_lt (by simp at hk; omega)
      rw [hmod]
      exact checkMembers_ok front _ (k + 1) (fun r hr => hmerge r (List.mem_cons_of_mem _ hr))
        hmatch.2 (by simp at hk ⊢; omega)

/-- Members of one interleaved group, in the order of the tree. -/
structure Members (ms L : List AbstractMemory) (g : AddrRange) : Prop where
  mem : ∀ m ∈ L, m ∈ ms ∧ m.inAddrMap = true ∧ g.mergesWith m.range = true
  interleaved : g.interleaved = true
  sorted : L.Pairwise fun m k => m.range.lt k.range = true

variable {L : List AbstractMemory} {g : AddrRange}

theorem Members.ascending (h : Members ms L g) :
    (L.map fun m => m.range.intlvMatch).Pairwise (· < ·) := by
  rw [List.pairwise_map]
  refine h.sorted.imp_of_mem fun {m k} hm hk hlt => ?_
  have h1 := (mergesWith_iff.1 (h.mem m hm).2.2).1
  have h2 := (mergesWith_iff.1 (h.mem k hk).2.2).1
  rw [lt_iff] at hlt
  omega

theorem Members.match_lt (hms : Acceptable ms) (h : Members ms L g) :
    ∀ x ∈ L.map fun m => m.range.intlvMatch, x < 2 ^ g.masks.length := by
  intro x hx
  obtain ⟨m, hm, rfl⟩ := mem_map.1 hx
  obtain ⟨hmem, -, hmerge⟩ := h.mem m hm
  rw [← (mergesWith_iff.1 hmerge).2.2]
  exact (hms.wellFormed m hmem).match_lt

theorem Members.two_le (h : Members ms L g) : 2 ≤ 2 ^ g.masks.length := by
  have hpos : 0 < g.masks.length := List.length_pos_iff.2 (AddrRange.interleaved_iff.1 h.interleaved)
  calc 2 = 2 ^ 1 := rfl
    _ ≤ 2 ^ g.masks.length := Nat.pow_le_pow_right two_pos hpos

def Full (L : List AbstractMemory) : Prop := ∀ m ∈ L, L.length = 2 ^ m.range.masks.length

theorem Members.full (h : Members ms L g) (hlen : L.length = 2 ^ g.masks.length) : Full L :=
  fun m hm => by rw [hlen, (mergesWith_iff.1 (h.mem m hm).2.2).2.2]

theorem Members.length (h : Members ms L g) (hfull : Full L) (hne : L ≠ []) :
    L.length = 2 ^ g.masks.length := by
  obtain ⟨m, hm⟩ := List.exists_mem_of_ne_nil L hne
  rw [hfull m hm, (mergesWith_iff.1 (h.mem m hm).2.2).2.2]

theorem Members.group_subset (hms : Acceptable ms) (h : Members ms L g) (hfull : Full L)
    {m k : AbstractMemory} (hm : m ∈ L) (hk : k ∈ m.group ms) : k ∈ L := by
  obtain ⟨hmem, hmap, hgm⟩ := h.mem m hm
  obtain ⟨hkmem, hkmap, hmk⟩ := mem_group.1 hk
  have hil : m.range.interleaved = true :=
    (interleaved_of_mergesWith hgm).trans h.interleaved
  have hrange := eq_range_of_ascending h.ascending (h.match_lt hms)
    (by simpa using h.length hfull (ne_nil_of_mem hm))
  have hlt : k.range.intlvMatch < 2 ^ m.range.masks.length := by
    rw [← (mergesWith_iff.1 hmk).2.2]
    exact (hms.wellFormed k hkmem).match_lt
  have hin : k.range.intlvMatch ∈ L.map fun m => m.range.intlvMatch := by
    rw [hrange, mem_range, ← (mergesWith_iff.1 hgm).2.2]
    exact hlt
  obtain ⟨k', hk', hmatch⟩ := mem_map.1 hin
  have hk'g : k' ∈ m.group ms := mem_group.2 ⟨(h.mem k' hk').1, (h.mem k' hk').2.1,
    mergesWith_trans (mergesWith_comm ▸ hgm) (h.mem k' hk').2.2⟩
  rwa [(hms.complete m hmem hmap hil _ hlt).unique ⟨hk, rfl⟩ ⟨hk'g, hmatch⟩]

theorem mergeStore_full (h : Members ms L g) (hne : L ≠ [])
    (hmerge : pm.mergeStore (L.map fun m => m.range) L = .ok pm') :
    L.length = 2 ^ g.masks.length := by
  rcases L with _ | ⟨f, rest⟩
  · exact absurd rfl hne
  have hf := (h.mem f mem_cons_self).2.2
  obtain ⟨r, hr, hmerge⟩ := Sim.bind_eq_ok.1 hmerge
  rcases rest with _ | ⟨f', rest⟩
  · -- a single member keeps its masks, and no store is made for it
    cases hr
    have hil := interleaved_of_mergesWith hf
    rw [h.interleaved] at hil
    simp [createBackingStore, hil] at hmerge
  · simp only [map_cons, merged] at hr
    split_ifs at hr with hlen
    rw [not_not, (mergesWith_iff.1 hf).2.2] at hlen
    simpa using hlen

variable {done : List AbstractMemory}

theorem mergeStore_ok (hms : Acceptable ms) (h : Members ms L g)
    (hfull : L.length = 2 ^ g.masks.length) (hstores : pm.Stores done) :
    ∃ pm', pm.mergeStore (L.map fun m => m.range) L = .ok pm' ∧ pm'.Stores (done ++ L) ∧
      pm'.addrMap = pm.addrMap ∧ pm'.size = pm.size ∧
      pm'.sharedBackstore = pm.sharedBackstore := by
  have htwo := h.two_le
  have hrange := eq_range_of_ascending h.ascending (h.match_lt hms) (by simpa using hfull)
  have hbyte : L.length ≤ 2 ^ 8 := by
    rcases Nat.eq_zero_or_pos L.length with h0 | h0
    · omega
    have hlast : L.length - 1 ∈ L.map fun m => m.range.intlvMatch := by
      rw [hrange, mem_range]
      omega
    obtain ⟨m, hm, hmatch⟩ := mem_map.1 hlast
    have := (hms.wellFormed m (h.mem m hm).1).match_byte
    omega
  rcases L with _ | ⟨f, _ | ⟨f', rest⟩⟩
  · simp only [List.length_nil] at hfull
    omega
  · simp only [List.length_singleton] at hfull
    omega
  obtain ⟨hf, hfmap, hfg⟩ := h.mem f mem_cons_self
  have hall : ∀ m ∈ f :: f' :: rest, f.range.mergesWith m.range = true := fun m hm =>
    mergesWith_trans (mergesWith_comm ▸ hfg) (h.mem m hm).2.2
  have hil : f.range.interleaved = true :=
    (interleaved_of_mergesWith hfg).trans h.interleaved
  have hcheck : f.range.checkMembers 0 ((f :: f' :: rest).map fun m => m.range) = .ok () := by
    refine checkMembers_ok f.range _ 0 (fun r hr => ?_) ?_ (by simpa using hbyte)
    · obtain ⟨m, hm, rfl⟩ := mem_map.1 hr
      exact hall m hm
    · rw [List.map_map, List.length_map, hfull, ← List.range_eq_range', ← hrange]
      rfl
  have hmerged : merged ((f :: f' :: rest).map fun m => m.range)
      = .ok (.contiguous f.range.start f.range.end_) := by
    have hlen : (f.range :: f'.range :: rest.map fun m => m.range).length
        = 2 ^ f.range.masks.length := by
      rw [(mergesWith_iff.1 hfg).2.2, ← hfull]
      simp
    simp only [map_cons] at hcheck
    simp only [map_cons, merged, hlen, ne_eq, not_true, if_false, hcheck,
      Sim.ok_bind, Sim.pure_eq]
  have hflags : ((f :: f' :: rest).any fun c => f.confTableReported != c.confTableReported ||
      f.inAddrMap != c.inAddrMap || f.kvmMap != c.kvmMap) = false := by
    rw [List.any_eq_false]
    intro m hm
    obtain ⟨hmem, hmap, -⟩ := h.mem m hm
    obtain ⟨h1, h2⟩ := hms.flags f hf m (mem_group.2 ⟨hmem, hmap, hall m hm⟩) hfmap hil
    simp [h1, h2, hmap, hfmap]
  obtain ⟨pm', hc, hrest⟩ := createBackingStore_ok (f :: f' :: rest)
    (c := f.confTableReported) (i := f.inAddrMap) (k := f.kvmMap) hstores (hms.start_lt_end hf)
    (hms.wellFormed f hf).end_lt
    (fun m hm => ⟨(mergesWith_iff.1 (hall m hm)).1,
      (mergesWith_iff.1 (hall m hm)).2.1⟩)
    (fun m hm k hk => mergesWith_trans (mergesWith_comm ▸ hall m hm) (hall k hk))
  refine ⟨pm', ?_, hrest⟩
  simp only [mergeStore, hmerged, Sim.ok_bind, hflags, Bool.false_eq_true, if_false, hc]

end Merge

section SecondLoop

/-- The members seen so far of the last interleaved group of `l`. -/
def pending (l : List AbstractMemory) : List AbstractMemory :=
  match (l.filter fun m => m.range.interleaved).getLast? with
  | none => []
  | some g => l.filter fun m => g.range.mergesWith m.range

variable {l : List AbstractMemory} {m : AbstractMemory}

theorem pending_plain (h : m.range.interleaved = false) : pending (l ++ [m]) = pending l := by
  unfold pending
  simp only [List.filter_append, List.filter_cons, h, Bool.false_eq_true, if_false,
    List.filter_nil, append_nil]
  split
  · rfl
  · next g hg =>
    have hgi : g.range.interleaved = true := (mem_filter.1 (List.mem_of_getLast? hg)).2
    have hno : g.range.mergesWith m.range = false := by
      by_contra hmerge
      rw [Bool.not_eq_false] at hmerge
      simp [interleaved_of_mergesWith hmerge, hgi] at h
    simp [hno]

theorem pending_interleaved (h : m.range.interleaved = true) :
    pending (l ++ [m]) = (l.filter fun k => m.range.mergesWith k.range) ++ [m] := by
  unfold pending
  simp [List.filter_append, h, mergesWith_refl]

theorem mem_pending {k : AbstractMemory} (h : k ∈ pending l) : k ∈ l ∧ ∃ g ∈ l,
    g.range.interleaved = true ∧ pending l = l.filter fun m => g.range.mergesWith m.range := by
  unfold pending at h ⊢
  split at h
  · simp at h
  · next g hg =>
    have hmem := mem_filter.1 (List.mem_of_getLast? hg)
    exact ⟨(mem_filter.1 h).1, g, hmem.1, hmem.2, rfl⟩

theorem pending_same {g : AbstractMemory} (hg : g ∈ pending l)
    (hmerge : g.range.mergesWith m.range = true) :
    (l.filter fun k => m.range.mergesWith k.range) = pending l := by
  obtain ⟨-, g₀, -, -, hp⟩ := mem_pending hg
  have hg₀ : g₀.range.mergesWith g.range = true := by
    rw [hp] at hg
    exact (mem_filter.1 hg).2
  rw [hp]
  refine List.filter_congr fun k _ => ?_
  rw [← mergesWith_right (mergesWith_trans hg₀ hmerge)]

theorem pending_other (hms : Acceptable ms) (hl : ∀ k ∈ l ++ [m], k ∈ ms ∧ k.inAddrMap = true)
    (hsorted : (l ++ [m]).Pairwise fun k k' => k.range.lt k'.range = true)
    (hi : m.range.interleaved = true)
    (hother : ∀ g ∈ pending l, g.range.mergesWith m.range = false) :
    (l.filter fun k => m.range.mergesWith k.range) = [] := by
  rw [List.filter_eq_nil_iff]
  intro k hk hmerge
  rw [pairwise_append] at hsorted
  obtain ⟨hm, hmmap⟩ := hl m (by simp)
  have hstart := (mergesWith_iff.1 hmerge).1
  have hki : k ∈ l.filter fun m => m.range.interleaved :=
    mem_filter.2 ⟨hk, (interleaved_of_mergesWith hmerge).trans hi⟩
  rcases List.eq_nil_or_concat (l.filter fun m => m.range.interleaved) with hnil | ⟨front, g, hg⟩
  · simp [hnil] at hki
  rw [List.concat_eq_append] at hg
  have hgl : g ∈ l := (mem_filter.1 (hg ▸ List.mem_append_right front mem_cons_self)).1
  have hgp : g ∈ pending l := by
    unfold pending
    rw [hg, List.getLast?_append, List.getLast?_singleton]
    exact mem_filter.2 ⟨hgl, g.range.mergesWith_refl⟩
  -- `g` stands between `k` and `m`, which start at one address
  have hgstart : g.range.start = m.range.start := by
    have hgm := hsorted.2.2 g hgl m (by simp)
    rw [lt_iff] at hgm
    rw [hg] at hki
    rcases mem_append.1 hki with hf | hf
    · have hfilter := hsorted.1.filter fun m => m.range.interleaved
      rw [hg, pairwise_append] at hfilter
      have hkg := hfilter.2.2 k hf g (by simp)
      rw [lt_iff] at hkg
      omega
    · rw [← mem_singleton.1 hf, hstart]
  obtain ⟨hgm, hgmap⟩ := hl g (by simp [hgl])
  have := hms.mergesWith_of_start hgm hm hgmap hmmap hgstart
  simp [hother g hgp] at this

def nonNull (l : List AbstractMemory) : List AbstractMemory := l.filter fun m => !m.null

/-- One node of the second loop, for the memory it holds. -/
def storeMemory (p : Pending) (m : AbstractMemory) : Sim Pending := storeNode p ⟨0, m.range, m⟩

theorem foldlM_storeNode : ∀ (ns : List (RangeNode AbstractMemory)) (p : Pending),
    (∀ n ∈ ns, n.first = n.second.range) →
      ns.foldlM storeNode p = (ns.map second).foldlM storeMemory p
  | [], _, _ => rfl
  | n :: ns, p, h => by
    have hn : storeNode p n = storeMemory p n.second := by
      unfold storeMemory storeNode
      rw [h n mem_cons_self]
    rw [List.foldlM_cons, map_cons, List.foldlM_cons, hn]
    refine congrArg _ (funext fun p' => ?_)
    exact foldlM_storeNode ns p' fun n' hn' => h n' (List.mem_cons_of_mem _ hn')

/-- The memories of the address map, in its order. -/
structure InOrder (ms T : List AbstractMemory) : Prop where
  sorted : T.Pairwise fun m k => m.range.lt k.range = true
  mem : ∀ m, m ∈ T ↔ m ∈ ms ∧ m.inAddrMap = true

/-- The loop has walked `pre`, starting from `pm₀` with stores for `outs`. -/
structure Storing (ms : List AbstractMemory) (pm₀ : PhysicalMemory)
    (outs pre : List AbstractMemory) (p : Pending) : Prop where
  addrMap : p.pm.addrMap = pm₀.addrMap
  size : p.pm.size = pm₀.size
  shared : p.pm.sharedBackstore = pm₀.sharedBackstore
  curr : p.currMemories = pending (nonNull pre)
  ranges : p.intlvRanges = p.currMemories.map fun m => m.range
  stores : ∃ done, p.pm.Stores done ∧ (done ++ p.currMemories).Perm (outs ++ nonNull pre) ∧
    ∀ m ∈ done, m.inAddrMap = true → m.range.interleaved = true → ∀ k ∈ m.group ms, k.null = false

variable {pm₀ : PhysicalMemory} {T outs pre rest : List AbstractMemory} {p p' : Pending}

theorem nonNull_sublist (pre rest : List AbstractMemory) : (nonNull pre).Sublist (pre ++ rest) :=
  List.filter_sublist.trans (List.sublist_append_left _ _)

theorem Storing.members (hT : InOrder ms T) (hsplit : T = pre ++ rest)
    (h : Storing ms pm₀ outs pre p) (hne : p.currMemories ≠ []) :
    ∃ g, Members ms p.currMemories g := by
  obtain ⟨m, hm⟩ := List.exists_mem_of_ne_nil _ hne
  rw [h.curr] at hm ⊢
  obtain ⟨-, g, -, hgi, hp⟩ := mem_pending hm
  have hsub : (pending (nonNull pre)).Sublist T := by
    rw [hp, hsplit]
    exact List.filter_sublist.trans (nonNull_sublist pre rest)
  refine ⟨g.range, fun k hk => ?_, hgi, hT.sorted.sublist hsub⟩
  obtain ⟨h1, h2⟩ := (hT.mem k).1 (hsub.subset hk)
  refine ⟨h1, h2, ?_⟩
  rw [hp] at hk
  exact (mem_filter.1 hk).2

theorem Storing.merge (hms : Acceptable ms) (hT : InOrder ms T) (hsplit : T = pre ++ rest)
    (h : Storing ms pm₀ outs pre p) (hne : p.currMemories ≠ []) (hfull : Full p.currMemories) :
    ∃ pm' done, p.pm.mergeStore p.intlvRanges p.currMemories = .ok pm' ∧
      pm'.addrMap = pm₀.addrMap ∧ pm'.size = pm₀.size ∧
      pm'.sharedBackstore = pm₀.sharedBackstore ∧ pm'.Stores done ∧
      done.Perm (outs ++ nonNull pre) ∧
      ∀ m ∈ done, m.inAddrMap = true → m.range.interleaved = true →
        ∀ k ∈ m.group ms, k.null = false := by
  obtain ⟨g, hg⟩ := h.members hT hsplit hne
  obtain ⟨done, hstores, hperm, hdone⟩ := h.stores
  obtain ⟨pm', hmerge, hstores', hA, hsize, hsb⟩ :=
    mergeStore_ok hms hg (hg.length hfull hne) hstores
  refine ⟨pm', _, h.ranges ▸ hmerge, hA.trans h.addrMap, hsize.trans h.size, hsb.trans h.shared,
    hstores', hperm, fun m hm hmap hil k hk => ?_⟩
  rcases mem_append.1 hm with hm | hm
  · exact hdone m hm hmap hil k hk
  · have hkc := hg.group_subset hms hfull hm hk
    rw [h.curr] at hkc
    simpa [nonNull] using (mem_filter.1 (mem_pending hkc).1).2

/-- The node of `m` makes the loop merge what is kept back. -/
def Merges (p : Pending) (m : AbstractMemory) : Prop :=
  m.null = false ∧ m.range.interleaved = true ∧
    ∃ g ∈ p.currMemories, g.range.mergesWith m.range = false

theorem storeMemory_null (h : Storing ms pm₀ outs pre p) (hnull : m.null = true) :
    storeMemory p m = .ok p ∧ Storing ms pm₀ outs (pre ++ [m]) p := by
  have hpre : nonNull (pre ++ [m]) = nonNull pre := by simp [nonNull, hnull]
  refine ⟨by simp [storeMemory, storeNode, hnull], ?_⟩
  exact ⟨h.addrMap, h.size, h.shared, hpre ▸ h.curr, h.ranges, hpre ▸ h.stores⟩

theorem storeMemory_plain (hms : Acceptable ms) (hm : m ∈ ms) (h : Storing ms pm₀ outs pre p)
    (hnull : m.null = false) (hplain : m.range.interleaved = false) :
    ∃ p', storeMemory p m = .ok p' ∧ Storing ms pm₀ outs (pre ++ [m]) p' := by
  have hpre : nonNull (pre ++ [m]) = nonNull pre ++ [m] := by simp [nonNull, hnull]
  obtain ⟨done, hstores, hperm, hdone⟩ := h.stores
  obtain ⟨pm', hc, hstores', hA, hsize, hsb⟩ := createBackingStore_ok [m]
    (c := m.confTableReported) (i := m.inAddrMap) (k := m.kvmMap) hstores (hms.start_lt_end hm)
    (hms.wellFormed m hm).end_lt (by simp) (by simp [mergesWith_refl])
  rw [← hms.eq_contiguous hm hplain] at hc
  refine ⟨{ p with pm := pm' }, by simp [storeMemory, storeNode, hnull, hplain, hc],
    hA.trans h.addrMap, hsize.trans h.size, hsb.trans h.shared, ?_, h.ranges, _, hstores', ?_, ?_⟩
  · rw [hpre, pending_plain hplain]
    exact h.curr
  · rw [hpre, ← append_assoc]
    refine List.Perm.trans ?_ (hperm.append_right [m])
    rw [append_assoc, append_assoc]
    exact List.Perm.append_left _ List.perm_append_comm
  · intro k hk hmap hil
    rcases mem_append.1 hk with hk | hk
    · exact hdone k hk hmap hil
    · rw [mem_singleton.1 hk, hplain] at hil
      cases hil

/-- All that is kept back is of another group than a memory that makes it merge. -/
theorem Storing.other_of_merges (hT : InOrder ms T) (hsplit : T = pre ++ m :: rest)
    (h : Storing ms pm₀ outs pre p) (hmerges : Merges p m) :
    (∀ k ∈ p.currMemories, k.range.mergesWith m.range = false) ∧
      ∃ back, p.intlvRanges.getLast? = some back ∧ back.mergesWith m.range = false := by
  obtain ⟨-, -, k₀, hk₀, hno⟩ := hmerges
  obtain ⟨g, hg⟩ := h.members hT hsplit (ne_nil_of_mem hk₀)
  have hother : ∀ k ∈ p.currMemories, k.range.mergesWith m.range = false := fun k hk => by
    rw [← mergesWith_right (hg.mem k hk).2.2,
      mergesWith_right (hg.mem k₀ hk₀).2.2, hno]
  refine ⟨hother, (p.currMemories.getLast (ne_nil_of_mem hk₀)).range, ?_,
    hother _ (List.getLast_mem _)⟩
  rw [h.ranges, List.getLast?_map, List.getLast?_eq_getLast_of_ne_nil (ne_nil_of_mem hk₀)]
  rfl

section

variable (hms : Acceptable ms) (hT : InOrder ms T) (hsplit : T = pre ++ m :: rest)
  (h : Storing ms pm₀ outs pre p)
include hms hT hsplit h

theorem storeMemory_interleaved (hnull : m.null = false) (hil : m.range.interleaved = true)
    (hfull : Merges p m → Full p.currMemories) :
    ∃ p', storeMemory p m = .ok p' ∧ Storing ms pm₀ outs (pre ++ [m]) p' := by
  have hpre : nonNull (pre ++ [m]) = nonNull pre ++ [m] := by simp [nonNull, hnull]
  have hsub : (nonNull pre ++ [m]).Sublist T := by
    rw [hsplit]
    exact List.filter_sublist.append (by simp)
  have hmem : ∀ k ∈ nonNull pre ++ [m], k ∈ ms ∧ k.inAddrMap = true := fun k hk =>
    (hT.mem k).1 (hsub.subset hk)
  by_cases hmerges : Merges p m
  · have hne : p.currMemories ≠ [] := ne_nil_of_mem hmerges.2.2.choose_spec.1
    obtain ⟨hother, back, hback, hbackm⟩ := h.other_of_merges hT hsplit hmerges
    obtain ⟨pm', done, hmerge, hA, hsize, hsb, hstores, hperm, hdone⟩ :=
      h.merge hms hT hsplit hne (hfull hmerges)
    refine ⟨⟨pm', [m.range], [m]⟩, ?_, hA, hsize, hsb, ?_, rfl, done, hstores, ?_, hdone⟩
    · simp [storeMemory, storeNode, hnull, hil, hback, hbackm, hmerge]
    · rw [hpre, pending_interleaved hil,
        pending_other hms hmem (hT.sorted.sublist hsub) hil (h.curr ▸ hother), List.nil_append]
    · rw [hpre, ← append_assoc]
      exact hperm.append_right [m]
  · have hsame : ∀ k ∈ p.currMemories, k.range.mergesWith m.range = true := by
      intro k hk
      by_contra hno
      exact hmerges ⟨hnull, hil, k, hk, by simpa using hno⟩
    have hkept : (nonNull pre).filter (fun k => m.range.mergesWith k.range) = p.currMemories := by
      rcases hnil : p.currMemories with _ | ⟨k, ks⟩
      · refine pending_other hms hmem (hT.sorted.sublist hsub) hil ?_
        rw [← h.curr, hnil]
        simp
      · rw [← hnil, h.curr]
        exact pending_same (h.curr ▸ hnil ▸ mem_cons_self) (hsame k (by simp [hnil]))
    obtain ⟨done, hstores, hperm, hdone⟩ := h.stores
    refine ⟨⟨p.pm, p.intlvRanges ++ [m.range], p.currMemories ++ [m]⟩, ?_, h.addrMap, h.size,
      h.shared, ?_, by simp [h.ranges], done, hstores, ?_, hdone⟩
    · rcases hback : p.intlvRanges.getLast? with _ | back
      · simp [storeMemory, storeNode, hnull, hil, hback]
      · have hbackm : back.mergesWith m.range = true := by
          have hin := List.mem_of_getLast? hback
          rw [h.ranges] at hin
          obtain ⟨k, hk, rfl⟩ := mem_map.1 hin
          exact hsame k hk
        simp [storeMemory, storeNode, hnull, hil, hback, hbackm]
    · rw [hpre, pending_interleaved hil, hkept]
    · rw [hpre, ← append_assoc, ← append_assoc]
      exact hperm.append_right [m]

theorem storeMemory_ok (hfull : Merges p m → Full p.currMemories) :
    ∃ p', storeMemory p m = .ok p' ∧ Storing ms pm₀ outs (pre ++ [m]) p' := by
  have hm : m ∈ ms := ((hT.mem m).1 (by simp [hsplit])).1
  cases hnull : m.null with
  | true => exact ⟨p, storeMemory_null h hnull⟩
  | false =>
    cases hil : m.range.interleaved with
    | false => exact storeMemory_plain hms hm h hnull hil
    | true => exact storeMemory_interleaved hms hT hsplit h hnull hil hfull

end

theorem storeMemory_full (hT : InOrder ms T) (hsplit : T = pre ++ m :: rest)
    (h : Storing ms pm₀ outs pre p) (hstore : storeMemory p m = .ok p') (hmerges : Merges p m) :
    Full p.currMemories := by
  obtain ⟨-, back, hback, hbackm⟩ := h.other_of_merges hT hsplit hmerges
  obtain ⟨hnull, hil, k, hk, -⟩ := hmerges
  have hne : p.currMemories ≠ [] := ne_nil_of_mem hk
  obtain ⟨g, hg⟩ := h.members hT hsplit hne
  rcases hms' : p.pm.mergeStore p.intlvRanges p.currMemories with e | pm'
  · simp [storeMemory, storeNode, hnull, hil, hback, hbackm, hms'] at hstore
  · exact hg.full (mergeStore_full hg hne (h.ranges ▸ hms'))

theorem Storing.full (hms : Acceptable ms) (hT : InOrder ms T) (hsplit : T = pre ++ rest)
    (h : Storing ms pm₀ outs pre p)
    (hnull : ∀ m ∈ ms, m.inAddrMap = true → m.range.interleaved = true → ∀ k ∈ m.group ms,
      k.null = m.null) (hrest : ∀ g ∈ p.currMemories, ∀ k ∈ rest, g.range.mergesWith k.range = false) :
    Full p.currMemories := by
  intro m hm
  have hne := ne_nil_of_mem hm
  obtain ⟨g, hg⟩ := h.members hT hsplit hne
  obtain ⟨hmem, hmap, hgm⟩ := hg.mem m hm
  have hil : m.range.interleaved = true :=
    (interleaved_of_mergesWith hgm).trans hg.interleaved
  have hmasks := (mergesWith_iff.1 hgm).2.2
  have hmp := hm
  rw [h.curr] at hmp
  obtain ⟨hmpre, g₀, -, -, hp⟩ := mem_pending hmp
  rw [← List.length_map (f := fun m : AbstractMemory => m.range.intlvMatch)]
  refine length_of_ascending hg.ascending fun j => ⟨fun hj => ?_, fun hj => ?_⟩
  · exact hmasks ▸ hg.match_lt hms j hj
  · obtain ⟨k, ⟨hk, hkj⟩, -⟩ := hms.complete m hmem hmap hil j hj
    obtain ⟨hkmem, hkmap, hmk⟩ := mem_group.1 hk
    have hkT : k ∈ pre ++ rest := hsplit ▸ (hT.mem k).2 ⟨hkmem, hkmap⟩
    have hkpre : k ∈ pre := (mem_append.1 hkT).resolve_right fun hkr => by
      simp [hrest m hm k hkr] at hmk
    have hknull : k.null = false := by
      rw [hnull m hmem hmap hil k hk]
      simpa [nonNull] using (mem_filter.1 hmpre).2
    refine mem_map.2 ⟨k, ?_, hkj⟩
    rw [h.curr, hp]
    refine mem_filter.2 ⟨mem_filter.2 ⟨hkpre, by simp [hknull]⟩, ?_⟩
    rw [hp] at hmp
    exact mergesWith_trans (mem_filter.1 hmp).2 hmk

theorem Storing.full_of_merges (hms : Acceptable ms) (hT : InOrder ms T)
    (hsplit : T = pre ++ m :: rest) (h : Storing ms pm₀ outs pre p)
    (hnull : ∀ m ∈ ms, m.inAddrMap = true → m.range.interleaved = true → ∀ k ∈ m.group ms,
      k.null = m.null) (hmerges : Merges p m) : Full p.currMemories := by
  obtain ⟨-, -, k₀, hk₀, hno⟩ := hmerges
  obtain ⟨g₀, hg₀⟩ := h.members hT hsplit (ne_nil_of_mem hk₀)
  refine h.full hms hT hsplit hnull fun g hg k hk => ?_
  have hgm : g.range.mergesWith m.range = false := by
    rw [← mergesWith_right (hg₀.mem g hg).2.2,
      mergesWith_right (hg₀.mem k₀ hk₀).2.2, hno]
  rcases List.mem_cons.1 hk with rfl | hk
  · exact hgm
  · by_contra hgk
    rw [Bool.not_eq_false] at hgk
    have hgpre : g ∈ pre := by
      rw [h.curr] at hg
      exact (mem_filter.1 (mem_pending hg).1).1
    have hsorted := hT.sorted
    rw [hsplit, pairwise_append, List.pairwise_cons] at hsorted
    have h1 := hsorted.2.2 g hgpre m (by simp)
    have h2 := hsorted.2.1.1 k hk
    have h3 := (mergesWith_iff.1 hgk).1
    rw [lt_iff] at h1 h2
    obtain ⟨hm, hmap⟩ := (hT.mem m).1 (by simp [hsplit])
    have := hms.mergesWith_of_start (hg₀.mem g hg).1 hm (hg₀.mem g hg).2.1 hmap (by omega)
    simp [hgm] at this

end SecondLoop

section Constructor

/-- What the constructor leaves: the memories of the map in order, and a store for each memory that
needs one. -/
structure Built (ms : List AbstractMemory) (sb : String) (pm : PhysicalMemory) : Prop where
  sorted : pm.addrMap.Sorted
  cache : pm.addrMap.cache = []
  first : ∀ n ∈ pm.addrMap.tree, n.first = n.second.range
  perm : (pm.addrMap.tree.map second).Perm (ms.filter fun m => m.inAddrMap)
  shared : pm.sharedBackstore = sb
  size : pm.size = u64 ((ms.filter fun m => m.inAddrMap).map fun m => m.range.size).sum
  stores : ∃ done, pm.Stores done ∧ done.Nodup ∧
    ∀ m, m ∈ done ↔ m ∈ ms ∧ (m.inAddrMap = true → m.null = false)

variable {pm₀ : PhysicalMemory}

theorem Mapped.inOrder (h : Mapped sb ms pm₀) : InOrder ms (pm₀.addrMap.tree.map second) := by
  refine ⟨?_, fun m => ?_⟩
  · rw [List.pairwise_map]
    refine h.sorted.imp_of_mem fun {a b} ha hb hab => ?_
    rwa [h.first a ha, h.first b hb] at hab
  · rw [h.perm.mem_iff, mem_filter]

theorem Mapped.storing (h : Mapped sb ms pm₀) :
    Storing ms pm₀ (ms.filter fun m => !m.inAddrMap) [] ⟨pm₀, [], []⟩ := by
  refine ⟨rfl, rfl, rfl, rfl, rfl, _, h.stores, by simp [nonNull], fun m hm hmap => ?_⟩
  simp [hmap] at hm

theorem Mapped.built (hms : Acceptable ms) (h : Mapped sb ms pm₀) (hA : pm.addrMap = pm₀.addrMap)
    (hsize : pm.size = pm₀.size) (hsb : pm.sharedBackstore = pm₀.sharedBackstore)
    (hstores : pm.Stores done)
    (hperm : done.Perm ((ms.filter fun m => !m.inAddrMap) ++ nonNull (pm₀.addrMap.tree.map
      second))) : Built ms sb pm := by
  have hmapped : (nonNull (pm₀.addrMap.tree.map second)).Perm
      (nonNull (ms.filter fun m => m.inAddrMap)) := h.perm.filter _
  have hdone := hperm.trans (hmapped.append_left _)
  refine ⟨hA ▸ h.sorted, hA ▸ h.cache, hA ▸ h.first, hA ▸ h.perm, hsb.trans h.shared,
    hsize.trans h.size, done, hstores, ?_, fun m => ?_⟩
  · rw [hdone.nodup_iff, List.nodup_append]
    refine ⟨hms.nodup.filter _, (hms.nodup.filter _).filter _, fun a ha b hb hab => ?_⟩
    subst hab
    have h1 := (mem_filter.1 ha).2
    have h2 := (mem_filter.1 (mem_filter.1 hb).1).2
    simp [h2] at h1
  · rw [hdone.mem_iff, mem_append]
    cases hmap : m.inAddrMap <;> simp [nonNull, hmap]

theorem mapped_nil (sb : String) : Mapped sb [] ⟨.empty 1, [], 0, sb, [], [], 0⟩ := by
  refine ⟨List.Pairwise.nil, rfl, by simp [AddrRangeMap.empty], List.Perm.nil, rfl, rfl, rfl, ?_,
    ?_, ?_, ?_, ?_⟩ <;> simp

theorem Storing.finish (hms : Acceptable ms) (h : Mapped sb ms pm₀) {p : Pending}
    (hp : Storing ms pm₀ (ms.filter fun m => !m.inAddrMap) (pm₀.addrMap.tree.map second) p)
    (hfull : Full p.currMemories) :
    ∃ pm done, (if p.intlvRanges ≠ [] then p.pm.mergeStore p.intlvRanges p.currMemories
        else return p.pm) = .ok pm ∧ Built ms sb pm ∧ pm.Stores done ∧
      ∀ m ∈ done, m.inAddrMap = true → m.range.interleaved = true →
        ∀ k ∈ m.group ms, k.null = false := by
  by_cases hne : p.currMemories = []
  · obtain ⟨done, hstores, hperm, hdone⟩ := hp.stores
    rw [hne, append_nil] at hperm
    refine ⟨p.pm, done, by simp [hp.ranges, hne], ?_, hstores, hdone⟩
    exact h.built hms hp.addrMap hp.size hp.shared hstores hperm
  · obtain ⟨pm', done, hmerge, hA, hsize, hsb, hstores, hperm, hdone⟩ :=
      hp.merge hms h.inOrder (append_nil _).symm hne hfull
    refine ⟨pm', done, by simpa [hp.ranges, hne] using hmerge, ?_, hstores, hdone⟩
    exact h.built hms hA hsize hsb hstores hperm

theorem new_ok (hms : Acceptable ms) (hb : Buildable ms) (sb : String) :
    ∃ pm, new ms sb = .ok pm ∧ Built ms sb pm := by
  obtain ⟨pm₀, hfold₀, h₀⟩ := Loop.foldlM_total (f := addMemory) (I := Mapped sb) (l := ms)
    (fun pre m rest pm hsplit h => by
      have hord := hb.order
      rw [hsplit, pairwise_append] at hord
      exact addMemory_ok hms hsplit h (hb.unmapped m (by simp [hsplit]))
        fun k hk => hord.2.2 k hk m (by simp)) ms [] rfl (mapped_nil sb)
  have hT := h₀.inOrder
  obtain ⟨p, hfold, hp⟩ := Loop.foldlM_total (f := storeMemory)
    (I := Storing ms pm₀ (ms.filter fun m => !m.inAddrMap))
    (l := pm₀.addrMap.tree.map second)
    (fun pre m rest p hsplit h => storeMemory_ok hms hT hsplit h
      (h.full_of_merges hms hT hsplit hb.null)) _ [] rfl h₀.storing
  have hfull : Full p.currMemories :=
    hp.full hms hT (append_nil _).symm hb.null (by simp)
  obtain ⟨pm, -, hlast, hbuilt, -, -⟩ := hp.finish hms h₀ hfull
  refine ⟨pm, ?_, hbuilt⟩
  unfold new
  rw [hfold₀, Sim.ok_bind, foldlM_storeNode _ _ h₀.first, hfold, Sim.ok_bind]
  exact hlast

theorem new_fine (hms : Acceptable ms) (hnew : new ms sb = .ok pm) :
    Built ms sb pm ∧ Buildable ms := by
  obtain ⟨pm₀, hfold₀, hnew⟩ := Sim.bind_eq_ok.1 hnew
  obtain ⟨p, hfold, hlast⟩ := Sim.bind_eq_ok.1 hnew
  obtain ⟨h₀, hun, hord⟩ := Loop.foldlM_inv (f := addMemory)
    (I := fun pre pm => Mapped sb pre pm ∧
      (∀ m ∈ pre, m.inAddrMap = false → m.range.interleaved = false) ∧ pre.Pairwise MayPrecede)
    (fun pre m rest pm pm' hsplit h hadd => by
      obtain ⟨hmapped, hun, hord⟩ := h
      obtain ⟨hm, hpre⟩ := addMemory_fine hms hsplit hmapped hadd
      obtain ⟨pm'', hadd', hmapped'⟩ := addMemory_ok hms hsplit hmapped hm hpre
      rw [hadd] at hadd'
      cases hadd'
      refine ⟨hmapped', fun k hk => ?_, ?_⟩
      · rcases mem_append.1 hk with hk | hk
        · exact hun k hk
        · rw [mem_singleton.1 hk]
          exact hm
      · rw [pairwise_append]
        exact ⟨hord, List.pairwise_singleton _ _, fun k hk k' hk' => by
          rw [mem_singleton.1 hk']
          exact hpre k hk⟩)
    ms [] rfl ⟨mapped_nil sb, by simp, List.Pairwise.nil⟩ hfold₀
  rw [foldlM_storeNode _ _ h₀.first] at hfold
  have hT := h₀.inOrder
  have hp := Loop.foldlM_inv (f := storeMemory)
    (I := Storing ms pm₀ (ms.filter fun m => !m.inAddrMap))
    (fun pre m rest p p' hsplit h hstore => by
      obtain ⟨p'', hstore', h'⟩ := storeMemory_ok hms hT hsplit h
        (storeMemory_full hT hsplit h hstore)
      rw [hstore] at hstore'
      cases hstore'
      exact h') _ [] rfl h₀.storing hfold
  have hfull : Full p.currMemories := by
    by_cases hne : p.currMemories = []
    · intro m hm
      simp [hne] at hm
    · obtain ⟨g, hg⟩ := hp.members hT (append_nil _).symm hne
      have hr : p.intlvRanges ≠ [] := by simpa [hp.ranges] using hne
      rw [if_pos hr, hp.ranges] at hlast
      exact hg.full (mergeStore_full hg hne hlast)
  obtain ⟨pm', done, hlast', hbuilt, hstores, hdone⟩ := hp.finish hms h₀ hfull
  rw [hlast] at hlast'
  cases hlast'
  refine ⟨hbuilt, hun, fun m hm hmap hil k hk => ?_, hord⟩
  obtain ⟨done', hstores', -, hmem⟩ := hbuilt.stores
  obtain rfl : done = done' := hstores.backed.symm.trans hstores'.backed
  obtain ⟨hkm, hkmap, hmk⟩ := mem_group.1 hk
  -- a group with a member that is not null has been merged as a whole
  cases hmn : m.null with
  | false => exact hdone m ((hmem m).2 ⟨hm, fun _ => hmn⟩) hmap hil k hk
  | true =>
    by_contra hkn
    have hkd : k ∈ done := (hmem k).2 ⟨hkm, fun _ => by simpa using hkn⟩
    have := hdone k hkd hkmap ((interleaved_of_mergesWith hmk).trans hil) m
      (mem_group.2 ⟨hm, hmap, mergesWith_comm ▸ hmk⟩)
    simp [hmn] at this

end Constructor

end Gem5Nvm.PhysicalMemory
