import Gem5Nvm.Proofs.BackingStore

/-!
# When physical memory is isolated

A memory reaches the bytes of its store at the distance of an address from the start of its range.
Two memories with one store are members of one group, which start at the same address, so different
addresses are different bytes; that fails only when several stores show one shared object.
-/

namespace Gem5Nvm

namespace PhysicalMemory

open AbstractMemory

variable {ms : List AbstractMemory} {sb : String} {pm : PhysicalMemory} {m k : AbstractMemory}
  {host host' : HostBytes}

section Subset

theorem isSubset_start {r s : AddrRange} (h : r.isSubset s = .ok true) : s.start ≤ r.start := by
  unfold AddrRange.isSubset at h
  split_ifs at h with h1 h2
  · simp only [Except.ok.injEq, Bool.and_eq_true, AddrRange.contains_iff] at h
    exact h.1.1.1
  · simp only [ge_iff_le, Except.ok.injEq, decide_eq_true_eq] at h
    exact h.1

theorem contains_of_isSubset (hms : Acceptable ms) (hm : m ∈ ms) {a n : ℕ} (hn : 0 < n)
    (ha : a + n < 2 ^ 64) (h : (AddrRange.rangeSize a n).isSubset m.range = .ok true) :
    m.range.contains a = true := by
  have hr : (AddrRange.rangeSize a n).interleaved = false := rfl
  have hend : (AddrRange.rangeSize a n).end_ = a + n := Nat.mod_eq_of_lt ha
  unfold AddrRange.isSubset at h
  rw [if_neg (by simp [hr])] at h
  split_ifs at h with hil
  · simp only [Except.ok.injEq, Bool.and_eq_true] at h
    exact h.1.1
  · simp only [ge_iff_le, Except.ok.injEq, decide_eq_true_eq, hend] at h
    exact hms.contains_of_plain hm (by simpa using hil) h.1 (by omega)

theorem isSubset_byte (hms : Acceptable ms) (hm : m ∈ ms) {a : ℕ}
    (h : m.range.contains a = true) : (AddrRange.rangeSize a 1).isSubset m.range = .ok true := by
  have hwf := hms.wellFormed m hm
  have ha := (AddrRange.contains_iff.1 h).2.1
  rw [hwf.isSubset_byte (by have := hwf.end_lt; omega), h]

end Subset

section Access

variable {map : HostMapping}

theorem toHostAddr_some {a off : ℕ} (h : pm.toHostAddr m a = some (map, off)) :
    (m, map) ∈ pm.backed ∧ off = usub a m.range.start := by
  obtain ⟨b, hb, heq⟩ := Option.map_eq_some_iff.1 h
  simp only [Prod.mk.injEq] at heq
  obtain ⟨rfl, rfl⟩ := heq
  have hm : b.1 = m := by simpa using List.find?_some hb
  subst hm
  exact ⟨List.mem_reverse.1 (List.mem_of_find?_eq_some hb), rfl⟩

theorem toHostAddr_isSome (h : m ∈ pm.backed.map Prod.fst) (a : ℕ) :
    ∃ map, (m, map) ∈ pm.backed ∧ pm.toHostAddr m a = some (map, usub a m.range.start) := by
  obtain ⟨b, hb, rfl⟩ := List.mem_map.1 h
  have hsome : (pm.backed.reverse.find? fun c => c.1 = b.1).isSome := by
    rw [List.find?_isSome]
    exact ⟨b, List.mem_reverse.2 hb, by simp⟩
  obtain ⟨c, hc⟩ := Option.isSome_iff_exists.1 hsome
  have heq : pm.toHostAddr b.1 a = some (c.2, usub a b.1.range.start) := by
    simp [toHostAddr, hc]
  exact ⟨c.2, (toHostAddr_some heq).1, heq⟩

theorem inStore_iff {off size : ℕ} : pm.inStore map off size = true ↔
    off + size ≤ map.length ∧ (map.object = .shared → off + size ≤ pm.shmSize) := by
  unfold inStore
  exact decide_eq_true_iff

variable {pkt : Packet}

theorem memoryAccess_cases {x : Option (List UInt8) × HostBytes}
    (h : pm.memoryAccess m host pkt = .ok x) :
    pkt.getAddrRange.isSubset m.range = .ok true ∧
      (pm.toHostAddr m pkt.getAddr = none ∧ x = (none, host) ∨
        ∃ map off, pm.toHostAddr m pkt.getAddr = some (map, off) ∧
          pm.inStore map off pkt.getSize = true ∧ x = hostAccess map off host pkt) := by
  obtain ⟨inside, hin, h⟩ := Sim.bind_eq_ok.1 h
  cases inside with
  | false => cases h
  | true =>
    refine ⟨hin, ?_⟩
    simp only [assert, if_true, Sim.ok_bind] at h
    split at h
    · next hh =>
      cases h
      exact .inl ⟨hh, rfl⟩
    · next map off hh =>
      split_ifs at h with hb
      cases h
      exact .inr ⟨map, off, hh, hb, rfl⟩

theorem memoryAccess_ok {off : ℕ} (hin : pkt.getAddrRange.isSubset m.range = .ok true)
    (hh : pm.toHostAddr m pkt.getAddr = some (map, off))
    (hb : pm.inStore map off pkt.getSize = true) :
    pm.memoryAccess m host pkt = .ok (hostAccess map off host pkt) := by
  simp [memoryAccess, hin, assert, hh, hb]

theorem memoryAccess_read_congr {a n : ℕ}
    (h : ∀ map off, pm.toHostAddr k a = some (map, off) → k.range.start ≤ a →
      off + n ≤ map.length → ∀ i < n, host' map.object (off + i) = host map.object (off + i)) :
    (pm.memoryAccess k host' (.read a n)).map Prod.fst
      = (pm.memoryAccess k host (.read a n)).map Prod.fst := by
  unfold memoryAccess
  rcases hin : (Packet.read a n).getAddrRange.isSubset k.range with e | b
  · rfl
  cases b with
  | false => rfl
  | true =>
    have hstart : k.range.start ≤ a := isSubset_start hin
    simp only [Sim.ok_bind, assert, if_true]
    split
    · rfl
    · next map off hh =>
      split_ifs with hb
      · have hlen : off + n ≤ map.length := (inStore_iff.1 hb).1
        have hbytes : ((List.range n).map fun i => host' map.object (off + i))
            = (List.range n).map fun i => host map.object (off + i) :=
          List.map_congr_left fun i hi => h map off hh hstart hlen i (List.mem_range.1 hi)
        simp [hostAccess, hbytes, Except.map]
      · rfl

end Access

section Isolated

theorem Built.mem_backed (h : Built ms sb pm) (hb : (m, map) ∈ pm.backed)
    (hmap : m.inAddrMap = true) : m.null = false := by
  obtain ⟨done, hstores, -, hmem⟩ := h.stores
  exact ((hmem m).1 (hstores.backed ▸ List.mem_map.2 ⟨_, hb, rfl⟩)).2 hmap

theorem filter_fst_of_nodup {α β : Type} [DecidableEq α] {a : α} : ∀ {l : List (α × β)},
    (l.map Prod.fst).Nodup → a ∈ l.map Prod.fst → ∃ b, (l.filter fun x => x.1 = a) = [(a, b)]
  | [], _, h => by simp at h
  | (a', b) :: l, hn, h => by
    rw [List.map_cons, List.nodup_cons] at hn
    by_cases heq : a' = a
    · subst heq
      refine ⟨b, ?_⟩
      rw [List.filter_cons_of_pos (by simp), List.filter_eq_nil_iff.2]
      intro x hx hxa
      exact hn.1 (List.mem_map.2 ⟨x, hx, by simpa using hxa⟩)
    · rw [List.filter_cons_of_neg (by simpa using heq)]
      refine filter_fst_of_nodup hn.2 ?_
      rw [List.map_cons, List.mem_cons] at h
      exact h.resolve_left fun h => heq h.symm

theorem Built.backed (h : Built ms sb pm) : pm.Backed ms := by
  intro m hm hnull
  obtain ⟨done, hstores, hnodup, hmem⟩ := h.stores
  have hmd : m ∈ pm.backed.map Prod.fst := hstores.backed ▸ (hmem m).2 ⟨hm, fun _ => hnull⟩
  obtain ⟨map, hfilter⟩ := filter_fst_of_nodup (hstores.backed ▸ hnodup) hmd
  have hb : (m, map) ∈ pm.backed :=
    (List.mem_filter.1 (hfilter ▸ List.mem_singleton.2 rfl)).1
  obtain ⟨e, he, hpmem, hrange, hlen⟩ := hstores.entry _ hb
  refine ⟨map, hfilter, e, he, hpmem, fun a ha => ?_⟩
  obtain ⟨h1, h2, -⟩ := AddrRange.contains_iff.1 ha
  rw [hrange]
  refine ⟨AddrRange.contains_iff.2 ⟨h1, h2, rfl⟩, ?_⟩
  simp only at hlen
  omega

theorem Built.same_start (h : Built ms sb pm) (hh : Handled ms sb) (hm : m ∈ ms) (hk : k ∈ ms)
    (hmap : m.inAddrMap = true) (hkmap : k.inAddrMap = true) {map map' : HostMapping}
    (hb : (m, map) ∈ pm.backed) (hb' : (k, map') ∈ pm.backed) (hobj : map.object = map'.object) :
    k.range.start = m.range.start := by
  obtain ⟨done, hstores, -, -⟩ := h.stores
  by_cases hsb : sb = ""
  · exact (AddrRange.mergesWith_iff.1
      (hstores.aliases (h.shared.trans hsb) _ hb _ hb' hobj)).1
  · exact (AddrRange.mergesWith_iff.1 (hh.shared hsb m hm k hk hmap hkmap (h.mem_backed hb hmap)
      (h.mem_backed hb' hkmap))).1

theorem Built.memoriesIsolated (h : Built ms sb pm) (hh : Handled ms sb) :
    pm.MemoriesIsolated ms := by
  intro m hm k hk hmap hkmap host a data host' ha hwrite b n hb hdisj
  obtain ⟨hin, ⟨-, heq⟩ | ⟨map, off, hhost, -, heq⟩⟩ := memoryAccess_cases hwrite
  · cases heq
    rfl
  · simp only [hostAccess, Prod.mk.injEq, true_and] at heq
    subst heq
    obtain ⟨hback, hoff⟩ := toHostAddr_some hhost
    have hstart : m.range.start ≤ a := isSubset_start hin
    refine memoryAccess_read_congr fun map' off' hhost' hstart' _ i hi => ?_
    obtain ⟨hback', hoff'⟩ := toHostAddr_some hhost'
    refine if_neg ?_
    rintro ⟨hobj, hlo, hhi⟩
    have hsame := h.same_start hh hm hk hmap hkmap hback hback' hobj.symm
    rw [show off = a - m.range.start by rw [hoff]; exact usub_of_le hstart ha] at hlo hhi
    rw [show off' = b - k.range.start by rw [hoff']; exact usub_of_le hstart' hb] at hlo hhi
    exact hdisj (b + i) (by omega) (by omega) ⟨by omega, by omega⟩

/-- Accesses change the bytes and the cache of the address map only. -/
structure SameMemory (pm pm' : PhysicalMemory) : Prop where
  tree : pm'.addrMap.tree = pm.addrMap.tree
  backed : pm'.backed = pm.backed
  shmSize : pm'.shmSize = pm.shmSize

theorem SameMemory.memoryAccess {pm' : PhysicalMemory} (h : pm.SameMemory pm') (m : AbstractMemory)
    (host : HostBytes) (pkt : Packet) :
    pm'.memoryAccess m host pkt = pm.memoryAccess m host pkt := by
  have hhost : pm'.toHostAddr m pkt.getAddr = pm.toHostAddr m pkt.getAddr := by
    simp only [toHostAddr, h.backed]
  have hstore : pm'.inStore = pm.inStore := by
    funext map off size
    rw [Bool.eq_iff_iff, inStore_iff, inStore_iff, h.shmSize]
  unfold PhysicalMemory.memoryAccess
  rw [hhost, hstore]

theorem accessStep_cases {s t : PhysicalMemory × HostBytes} {x : Option (List UInt8)}
    (hs : pm.SameMemory s.1) (h : accessStep s pkt = .ok (x, t)) :
    pm.SameMemory t.1 ∧ ∃ n ∈ pm.addrMap.tree, pm.memoryAccess n.second s.2 pkt = .ok (x, t.2) := by
  obtain ⟨⟨data, host₁, pm₁⟩, hacc, h⟩ := Sim.bind_eq_ok.1 h
  cases h
  obtain ⟨⟨it, addrMap⟩, hfind, hacc⟩ := Sim.bind_eq_ok.1 hacc
  obtain ⟨htree, hit⟩ := AddrRangeMap.find_cases hfind
  rcases it with _ | n
  · cases hacc
  obtain ⟨⟨data', host₂⟩, hmem, hacc⟩ := Sim.bind_eq_ok.1 hacc
  cases hacc
  refine ⟨⟨htree.trans hs.tree, hs.backed, hs.shmSize⟩, n, hs.tree ▸ (hit n rfl).1, ?_⟩
  rw [← hs.memoryAccess]
  exact hmem

theorem sameMemory_of_reachable {start : HostBytes} {s : PhysicalMemory × HostBytes}
    (h : Run.Reachable accessStep (pm, start) s) : pm.SameMemory s.1 :=
  h.inv (I := fun s => pm.SameMemory s.1) ⟨rfl, rfl, rfl⟩ fun _ _ _ _ hs hstep =>
    (accessStep_cases hs hstep).1

theorem Built.mem_tree (h : Built ms sb pm) {n : RangeNode AbstractMemory}
    (hn : n ∈ pm.addrMap.tree) : n.second ∈ ms ∧ n.second.inAddrMap = true := by
  simpa using h.perm.subset (List.mem_map.2 ⟨n, hn, rfl⟩)

section

variable (hms : Acceptable ms)
include hms

theorem Built.read_store (h : Built ms sb pm) (hm : m ∈ ms) {b n : ℕ} (hn : 0 < n) (hb : b < 2 ^ 64)
    {v : List UInt8} (hread : pm.memoryAccess m host (.read b n) = .ok (some v, host')) :
    m.range.contains b = true ∧ b + n < 2 ^ 64 := by
  obtain ⟨hin, ⟨-, heq⟩ | ⟨map, off, hhost, hstore, -⟩⟩ := memoryAccess_cases hread
  · cases heq
  · obtain ⟨hback, hoff⟩ := toHostAddr_some hhost
    obtain ⟨done, hstores, -, -⟩ := h.stores
    obtain ⟨-, -, -, -, hlen⟩ := hstores.entry _ hback
    have hstart : m.range.start ≤ b := isSubset_start hin
    have hend := (hms.wellFormed m hm).end_lt
    have hle := (inStore_iff.1 hstore).1
    rw [hoff, usub_of_le (a := (Packet.read b n).getAddr) hstart hb] at hle
    simp only [Packet.getAddr, Packet.getSize] at hle hlen
    have hlt : b + n < 2 ^ 64 := by omega
    exact ⟨contains_of_isSubset hms hm hn hlt hin, hlt⟩

theorem Built.read_unique (h : Built ms sb pm) (hm : m ∈ ms) (hk : k ∈ ms)
    (hmap : m.inAddrMap = true) (hkmap : k.inAddrMap = true) {b n : ℕ} (hn : 0 < n)
    (hb : b < 2 ^ 64) {host₁ host₂ : HostBytes} {v w : Option (List UInt8)}
    (hv : pm.memoryAccess m host (.read b n) = .ok (v, host₁))
    (hw : pm.memoryAccess k host' (.read b n) = .ok (w, host₂)) : m = k ∨ v = none ∧ w = none := by
  by_cases hne : m = k
  · exact .inl hne
  · right
    -- a read that returns bytes leaves no room for another memory at `b`
    rcases v with _ | v
    · rcases w with _ | w
      · exact ⟨rfl, rfl⟩
      · obtain ⟨hc, hlt⟩ := h.read_store hms hk hn hb hw
        have hc' := contains_of_isSubset hms hm hn hlt (memoryAccess_cases hv).1
        exact absurd ⟨hc', hc⟩ (hms.apart m hm k hk hmap hkmap hne b)
    · obtain ⟨hc, hlt⟩ := h.read_store hms hm hn hb hv
      have hc' := contains_of_isSubset hms hk hn hlt (memoryAccess_cases hw).1
      exact absurd ⟨hc, hc'⟩ (hms.apart m hm k hk hmap hkmap hne b)

theorem Built.accessIsolated (h : Built ms sb pm) (hh : Handled ms sb) : pm.AccessIsolated := by
  intro start s hs a data x s' ha hwrite b n hb hn hdisj v t v' t' hread hread'
  have hsame := sameMemory_of_reachable hs
  obtain ⟨hsame', nw, hnw, hw⟩ := accessStep_cases hsame hwrite
  obtain ⟨-, n₁, hn₁, h₁⟩ := accessStep_cases hsame hread
  obtain ⟨-, n₂, hn₂, h₂⟩ := accessStep_cases hsame' hread'
  obtain ⟨hm₁, hmap₁⟩ := h.mem_tree hn₁
  obtain ⟨hm₂, hmap₂⟩ := h.mem_tree hn₂
  rcases h.read_unique hms hm₁ hm₂ hmap₁ hmap₂ hn hb h₁ h₂ with heq | ⟨rfl, rfl⟩
  · rw [← heq] at h₂
    have hx : x = none := by
      obtain ⟨-, ⟨-, hx⟩ | ⟨_, _, -, -, hx⟩⟩ := memoryAccess_cases hw <;> exact congrArg Prod.fst hx
    rw [hx] at hw
    obtain ⟨hmw, hmapw⟩ := h.mem_tree hnw
    have := h.memoriesIsolated hh _ hmw _ hm₁ hmapw hmap₁ _ _ _ _ ha hw b n hb hdisj
    rw [h₁, h₂] at this
    simpa [Except.map] using this
  · rfl

theorem first_owner (hb : Buildable ms) (hm : m ∈ ms) (hmap : m.inAddrMap = true)
    (hnull : m.null = false) :
    ∃ o ∈ ms, o.inAddrMap = true ∧ o.null = false ∧ o.range.start = m.range.start ∧
      o.range.contains m.range.start = true := by
  obtain ⟨o, ho, hc⟩ := hms.owner hm hmap (a := m.range.start) le_rfl (hms.start_lt_end hm)
  obtain ⟨hom, homap, hmerge⟩ := mem_group.1 ho
  refine ⟨o, hom, homap, ?_, (AddrRange.mergesWith_iff.1 hmerge).1, hc⟩
  by_cases hne : m = o
  · rw [← hne]
    exact hnull
  · rw [hb.null m hm hmap (hms.interleaved_of_separate hm hom hmap homap hne hmerge) o ho]
    exact hnull

theorem Built.shared_access (h : Built ms sb pm) (hsb : sb ≠ "") (hm : m ∈ ms)
    (hnull : m.null = false) (hc : m.range.contains m.range.start = true) (pkt : Packet)
    (haddr : pkt.getAddr = m.range.start) (hsize : pkt.getSize = 1) (host : HostBytes) :
    ∃ map, map.object = .shared ∧ pm.memoryAccess m host pkt = .ok (hostAccess map 0 host pkt) := by
  obtain ⟨done, hstores, -, hmem⟩ := h.stores
  have hmd : m ∈ pm.backed.map Prod.fst := hstores.backed ▸ (hmem m).2 ⟨hm, fun _ => hnull⟩
  obtain ⟨map, hback, hhost⟩ := toHostAddr_isSome hmd m.range.start
  obtain ⟨-, -, -, -, hlen⟩ := hstores.entry _ hback
  have hlt := hms.start_lt_end hm
  have hend := (hms.wellFormed m hm).end_lt
  have hshared : map.object = .shared := hstores.shared (h.shared ▸ hsb) _ hback
  have hshm := hstores.shmSize_pos (h.shared ▸ hsb) (List.ne_nil_of_mem hback)
  rw [usub_of_le le_rfl (by omega), Nat.sub_self] at hhost
  refine ⟨map, hshared, memoryAccess_ok ?_ (haddr ▸ hhost) (inStore_iff.2 ?_)⟩
  · rw [Packet.getAddrRange, haddr, hsize]
    exact isSubset_byte hms hm hc
  · simp only at hlen
    exact ⟨by omega, fun _ => by omega⟩

theorem handled_of_isolated (h : Isolated ms sb) : Handled ms sb := by
  obtain ⟨pm, hnew, -, hiso, -⟩ := h
  obtain ⟨hbuilt, hb⟩ := new_fine hms hnew
  refine ⟨hb, fun hsb m hm k hk hmap hkmap hnull hknull => ?_⟩
  by_contra hno
  have hne : m.range.start ≠ k.range.start := fun heq =>
    hno (hms.mergesWith_of_start hm hk hmap hkmap heq)
  -- a byte written at the start of one store is read at the start of the other
  obtain ⟨o, ho, homap, honull, hostart, hoc⟩ := first_owner hms hb hm hmap hnull
  obtain ⟨u, hu, humap, hunull, hustart, huc⟩ := first_owner hms hb hk hkmap hknull
  obtain ⟨map, hobj, hwrite⟩ := hbuilt.shared_access hms hsb ho honull (hostart ▸ hoc)
    (.write o.range.start [1]) rfl rfl fun _ _ => 0
  have hread : ∀ host : HostBytes, (pm.memoryAccess u host (.read u.range.start 1)).map Prod.fst
      = .ok (some [host .shared 0]) := by
    intro host
    obtain ⟨map', hobj', hread⟩ := hbuilt.shared_access hms hsb hu hunull (hustart ▸ huc)
      (.read u.range.start 1) rfl rfl host
    simp [hread, hostAccess, Except.map, hobj', List.range_succ]
  have hlt := (hms.start_lt_end ho).trans (hms.wellFormed o ho).end_lt
  have hlt' := (hms.start_lt_end hu).trans (hms.wellFormed u hu).end_lt
  have hsame := hiso o ho u hu homap humap _ _ _ _ hlt hwrite u.range.start 1 hlt'
    (by simp only [List.length_singleton]; omega)
  rw [hread, hread] at hsame
  simp [hobj] at hsame

theorem isolated_of_handled (h : Handled ms sb) : Isolated ms sb := by
  obtain ⟨pm, hnew, hbuilt⟩ := new_ok hms h.toBuildable sb
  exact ⟨pm, hnew, hbuilt.backed, hbuilt.memoriesIsolated h, hbuilt.accessIsolated hms h⟩

end

end Isolated

end PhysicalMemory

open PhysicalMemory AbstractMemory

/-- Physical memory built from a list without overlaps is isolated exactly when the constructor
handles the list. -/
theorem physical_memory_isolated_iff {ms : List AbstractMemory} (hms : Acceptable ms)
    (sharedBackstore : String) : Isolated ms sharedBackstore ↔ Handled ms sharedBackstore :=
  ⟨handled_of_isolated hms, isolated_of_handled hms⟩

/-- One of two volatile memories interleaved at bit six. -/
def channel (name : String) (i : ℕ) : AbstractMemory :=
  ⟨name, ⟨0, 0x20000000, [64], i⟩, false, true, true, true, by
    simp [AddrRange.valid, AddrRange.size, usub]⟩

/-- Two channels of volatile memory, and the NVM. -/
def channels : List AbstractMemory :=
  [channel "mem_ctrls0" 0, channel "mem_ctrls1" 1, .nvmCtrl]

theorem mem_channels {m : AbstractMemory} (h : m ∈ channels) :
    m = channel "mem_ctrls0" 0 ∨ m = channel "mem_ctrls1" 1 ∨
      m = .nvmCtrl := by
  simpa [channels] using h

theorem group_channel (name : String) (i : ℕ) : (channel name i).group channels
    = [channel "mem_ctrls0" 0, channel "mem_ctrls1" 1] := by
  simp [group, channels, channel, AbstractMemory.nvmCtrl, AbstractMemory.over,
    AddrRange.mergesWith, AddrRange.contiguous]

theorem channels_acceptable : Acceptable channels := by
  refine ⟨by simp [channels, channel, AbstractMemory.nvmCtrl, AbstractMemory.over], ?_, ?_, ?_, ?_⟩
  · intro m hm
    rcases mem_channels hm with rfl | rfl | rfl <;> constructor <;> decide
  · intro m hm k hk _ _ hne a
    rw [AddrRange.contains_iff, AddrRange.contains_iff]
    -- the channels have one selector, which cannot have both values
    have hsel : (channel "mem_ctrls0" 0).range.sel a = (channel "mem_ctrls1" 1).range.sel a := rfl
    rcases mem_channels hm with rfl | rfl | rfl <;> rcases mem_channels hk with rfl | rfl | rfl <;>
      simp [channel, AbstractMemory.nvmCtrl, AbstractMemory.over,
        AddrRange.contiguous] at hne hsel ⊢ <;>
      omega
  · intro m hm _ hil j hj
    have hex : ∀ name i, ∀ j < 2, ∃! k, k ∈ (channel name i).group channels ∧
        k.range.intlvMatch = j := by
      intro name i j hj
      rw [group_channel]
      interval_cases j
      · exact ⟨_, ⟨List.mem_cons_self, rfl⟩, by simp [channel]⟩
      · exact ⟨_, ⟨List.mem_cons_of_mem _ List.mem_cons_self, rfl⟩, by simp [channel]⟩
    rcases mem_channels hm with rfl | rfl | rfl
    · exact hex _ _ j hj
    · exact hex _ _ j hj
    · cases hil
  · intro m hm k hk _ hil
    rcases mem_channels hm with rfl | rfl | rfl
    iterate 2
      rw [group_channel] at hk
      rcases mem_channels (List.mem_append_left [_] hk) with rfl | rfl | rfl <;> exact ⟨rfl, rfl⟩
    · cases hil

theorem channels_buildable : Buildable channels := by
  refine ⟨?_, ?_, ?_⟩
  · intro m hm hmap
    rcases mem_channels hm with rfl | rfl | rfl <;> cases hmap
  · intro m hm _ hil k hk
    have hnull : ∀ m ∈ channels, m.null = false := fun m hm => by
      rcases mem_channels hm with rfl | rfl | rfl <;> rfl
    rw [hnull m hm, hnull k (mem_group.1 hk).1]
  · simp only [channels, List.pairwise_cons, List.mem_cons, List.not_mem_nil, or_false]
    have hsize : ∀ name i, (channel name i).range.size ≠ 1 := fun name i => by
      simp [channel, AddrRange.size, usub]
    refine ⟨?_, ?_, by simp, List.Pairwise.nil⟩
    · rintro k (rfl | rfl) _ _ hil _ hone
      · exact absurd hone (hsize _ _)
      · cases hil
    · rintro k rfl _ _ hil
      cases hil

/-- With private mappings, the channels and the NVM are isolated. -/
theorem physical_memory_isolated_iff_channels : Acceptable channels ∧ Isolated channels "" :=
  ⟨channels_acceptable, (physical_memory_isolated_iff channels_acceptable "").2
    ⟨channels_buildable, fun h => absurd rfl h⟩⟩

/-- With a shared object behind them, they are not: its first byte is the first byte of both
stores. -/
theorem shared_stores_alias : Acceptable channels ∧ ¬ Isolated channels "/gem5" := by
  refine ⟨channels_acceptable, fun h => ?_⟩
  have hmerge := (handled_of_isolated channels_acceptable h).shared (by decide)
    (channel "mem_ctrls0" 0) (by simp [channels]) .nvmCtrl
    (by simp [channels]) rfl rfl rfl rfl
  cases hmerge

end Gem5Nvm
