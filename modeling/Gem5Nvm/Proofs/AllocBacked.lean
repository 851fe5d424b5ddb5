import Gem5Nvm.Layout
import Gem5Nvm.Proofs.Alloc
import Gem5Nvm.Proofs.Isolation

/-!
# Pages without memory behind them

In the layout of the configuration the volatile allocator compares its pointer with the size of
both memories together, and the NVM allocator compares its own with nothing.  At every point of a
run a call ends in `fatal` or returns memory of the right kind exactly when its exhaustion is
`Noticed`.
-/

namespace Gem5Nvm

open AddrRange (contains_iff contiguous isSubset lt_iff rangeSize)

namespace PhysicalMemory

open AbstractMemory

variable {ms : List AbstractMemory} {sb : String} {pm : PhysicalMemory} {m : AbstractMemory}

theorem isSubset_plain {a : ℕ} (ha : a + 1 < 2 ^ 64) {r : AddrRange} (hr : r.interleaved = false) :
    (rangeSize a 1).isSubset r = .ok (decide (r.start ≤ a ∧ a < r.end_)) := by
  have hp : (rangeSize a 1).interleaved = false := rfl
  have hstart : (rangeSize a 1).start = a := rfl
  have hend : (rangeSize a 1).end_ = a + 1 := Nat.mod_eq_of_lt ha
  unfold isSubset
  rw [if_neg (by simp [hp]), if_neg (by simp [hr]), hstart, hend]
  rfl

section

variable (hms : Acceptable ms) (h : Built ms sb pm)
  (hplain : ∀ k ∈ ms, k.inAddrMap = true → k.range.interleaved = false)
include hms h hplain

theorem Built.below_or_above {n k : RangeNode AbstractMemory} (hn : n ∈ pm.addrMap.tree)
    (hk : k ∈ pm.addrMap.tree) (hne : k ≠ n) :
    n.first.end_ ≤ k.first.start ∨ k.first.end_ ≤ n.first.start := by
  obtain ⟨hnm, hnmap⟩ := h.mem_tree hn
  obtain ⟨hkm, hkmap⟩ := h.mem_tree hk
  have hne' : n.second ≠ k.second := by
    intro heq
    have hnodup : (pm.addrMap.tree.map RangeNode.second).Nodup :=
      (h.perm.nodup_iff).2 (hms.nodup.filter _)
    exact hne (List.inj_on_of_nodup_map hnodup hk hn heq.symm)
  rw [h.first k hk, h.first n hn]
  rcases hms.separate hnm hkm hnmap hkmap hne' with hs | hs | ⟨hs, -⟩
  · exact .inl hs
  · exact .inr hs
  · have := hms.interleaved_of_separate hnm hkm hnmap hkmap hne' hs
    rw [hplain _ hnm hnmap] at this
    cases this

theorem Built.contains_plain (hm : m ∈ ms) (hmap : m.inAddrMap = true) {a : ℕ}
    (ha : a + 1 < 2 ^ 64) :
    (∃ node addrMap, pm.addrMap.contains a = .ok (some node, addrMap) ∧ node.second = m) ↔
      m.range.start ≤ a ∧ a < m.range.end_ := by
  constructor
  · rintro ⟨node, addrMap, hfind, rfl⟩
    obtain ⟨hn, hc⟩ := (AddrRangeMap.find_cases hfind).2 node rfl
    rw [h.first node hn, isSubset_plain ha (hplain _ hm hmap)] at hc
    simpa using hc
  · intro hin
    obtain ⟨n, hn, rfl⟩ : ∃ n ∈ pm.addrMap.tree, n.second = m := by
      have hmem := h.perm.symm.subset (List.mem_filter.2 ⟨hm, hmap⟩)
      simpa using hmem
    have hcond : ∀ k ∈ pm.addrMap.tree, (rangeSize a 1).isSubset k.first
        = .ok (decide (k.first.start ≤ a ∧ a < k.first.end_)) := by
      intro k hk
      rw [h.first k hk]
      exact isSubset_plain ha (hplain _ (h.mem_tree hk).1 (h.mem_tree hk).2)
    have hstart : (rangeSize a 1).start = a := rfl
    have hmatch : (rangeSize a 1).intlvMatch = 0 := rfl
    have h0 := (hms.wellFormed _ hm).intlvMatch_eq_zero (hplain _ hm hmap)
    rw [← h.first n hn] at hin h0
    have hfind : ∃ addrMap, pm.addrMap.find (.rangeSize a 1) (rangeSize a 1).isSubset
        = .ok (some n, addrMap) := by
      refine AddrRangeMap.find_last h.sorted (by simp [AddrRangeMap.CacheValid, h.cache]) hn
        ?_ (fun k hk hne => ?_) ?_ fun k hk hlt => ?_
      · rw [hcond n hn]
        simpa using hin
      · have hsep := h.below_or_above hms hplain hn hk hne
        rw [hcond k hk]
        simp only [Except.ok.injEq, decide_eq_false_iff_not]
        omega
      · rw [← Bool.not_eq_true, lt_iff]
        omega
      · have hne : k ≠ n := by
          rintro rfl
          rw [lt_iff] at hlt
          omega
        have hsep := h.below_or_above hms hplain hn hk hne
        have hltk := hms.start_lt_end (h.mem_tree hk).1
        rw [← h.first k hk] at hltk
        rw [lt_iff] at hlt ⊢
        omega
    obtain ⟨addrMap, hfind⟩ := hfind
    exact ⟨n, addrMap, hfind, rfl⟩

end

end PhysicalMemory

namespace Layout

open AbstractMemory PhysicalMemory

variable {L : Layout} {ms : List AbstractMemory}

/-- The memories of a layout, in the order of the configuration or not. -/
def Of (L : Layout) (ms : List AbstractMemory) : Prop :=
  ms = [L.dram, L.nvm] ∨ ms = [L.nvm, L.dram]

variable {m : AbstractMemory}

theorem Of.mem (h : L.Of ms) : m ∈ ms ↔ m = L.dram ∨ m = L.nvm := by
  rcases h with rfl | rfl <;> simp [or_comm]

theorem Of.plain (h : L.Of ms) : ∀ m ∈ ms, m.range.interleaved = false := by
  intro m hm
  rcases h.mem.1 hm with rfl | rfl
  · rw [L.dram_range]
    rfl
  · rw [L.nvm_range]
    rfl

theorem Of.acceptable (h : L.Of ms) : Acceptable ms := by
  have hstart : nvmStartAddr = 0x30000000 := rfl
  have hend : nvmEndAddr = 0x50000000 := rfl
  have htop := L.top_le
  have hdram : ∀ a, L.dram.range.contains a = true ↔ 0 ≤ a ∧ a < L.top ∧ _ := fun a => by
    rw [L.dram_range]
    exact contains_iff
  have hnvm : ∀ a, L.nvm.range.contains a = true ↔ nvmStartAddr ≤ a ∧ a < nvmEndAddr ∧ _ :=
    fun a => by
      rw [L.nvm_range]
      exact contains_iff
  refine ⟨?_, ?_, ?_, ?_, ?_⟩
  · have hne : L.dram ≠ L.nvm := fun heq => by
      have := L.dram_range.symm.trans ((congrArg _ heq).trans L.nvm_range)
      simp only [contiguous, AddrRange.mk.injEq] at this
      omega
    rcases h with rfl | rfl
    · simp [hne]
    · simp [hne.symm]
  · intro m hm
    rcases h.mem.1 hm with rfl | rfl
    · rw [L.dram_range]
      exact ⟨by simp only [contiguous]; omega, by simp [contiguous],
        by simp [contiguous]⟩
    · rw [L.nvm_range]
      exact ⟨by decide, by decide, by decide⟩
  · intro m hm k hk _ _ hne a
    rcases h.mem.1 hm with rfl | rfl <;> rcases h.mem.1 hk with rfl | rfl
    · exact absurd rfl hne
    · rw [hdram, hnvm]
      omega
    · rw [hdram, hnvm]
      omega
    · exact absurd rfl hne
  · intro m hm _ hil
    rw [h.plain m hm] at hil
    cases hil
  · intro m hm k _ _ hil
    rw [h.plain m hm] at hil
    cases hil

theorem Of.buildable (h : L.Of ms) : Buildable ms := by
  refine ⟨fun m hm _ => h.plain m hm, fun m hm _ hil => ?_, ?_⟩
  · rw [h.plain m hm] at hil
    cases hil
  · refine List.pairwise_of_forall_mem_list fun m _ k hk _ _ hil => ?_
    rw [h.plain k hk] at hil
    cases hil

/-- What every state of a run over the layout has. -/
structure Reached (L : Layout) (sys : System) : Prop where
  shift_pos : 0 < sys.pageShift
  shift_lt : sys.pageShift < 32
  lookup : ∀ m, m = L.dram ∨ m = L.nvm → ∀ a, a + 1 < 2 ^ 64 →
    ((∃ node addrMap, sys.physmem.addrMap.contains a = .ok (some node, addrMap) ∧
      node.second = m) ↔ m.range.start ≤ a ∧ a < m.range.end_)
  totalSize : sys.physmem.totalSize = L.top + (nvmEndAddr - nvmStartAddr)
  below : sys.pagePtr * sys.pageBytes < nvmStartAddr

theorem Of.new {p : SystemParams} (h : L.Of p.memories) (hpos : 0 < p.pageShift)
    (hlt : p.pageShift < 32) : ∃ sys, System.new p = .ok sys ∧ L.Reached sys := by
  have hstart : nvmStartAddr = 0x30000000 := rfl
  have hend : nvmEndAddr = 0x50000000 := rfl
  have htop := L.top_le
  have hms := h.acceptable
  have hmapped : ∀ m ∈ p.memories, m.inAddrMap = true := fun m hm => by
    rcases h.mem.1 hm with rfl | rfl
    · exact L.dram_mapped
    · exact L.nvm_mapped
  obtain ⟨pm, hnew, hbuilt⟩ := new_ok hms h.buildable p.sharedBackstore
  refine ⟨_, by rw [System.new, hnew]; rfl, hpos, hlt, fun m hm a ha => ?_, ?_, ?_⟩
  · exact hbuilt.contains_plain hms (fun k hk _ => h.plain k hk) (h.mem.2 hm)
      (hmapped m (h.mem.2 hm)) ha
  · have hdram : L.dram.range.size = L.top := by
      rw [L.dram_range, size_contiguous (Nat.zero_le _) (by omega), Nat.sub_zero]
    have hnvm : L.nvm.range.size = nvmEndAddr - nvmStartAddr := by
      rw [L.nvm_range, size_contiguous (by omega) (by omega)]
    have hsum : ((p.memories.filter fun m => m.inAddrMap).map fun m => m.range.size).sum
        = L.top + (nvmEndAddr - nvmStartAddr) := by
      rw [List.filter_eq_self.2 hmapped]
      rcases h with h | h <;> rw [h] <;> simp [hdram, hnvm, Nat.add_comm]
    change pm.size = _
    rw [hbuilt.size, hsum]
    exact Nat.mod_eq_of_lt (by omega)
  · simp [hstart]

end Layout

namespace System

variable {sys : System}

variable {n : ℤ}

theorem allocPhysPages_off (hlo : ¬ inNvm (sys.pageAddr sys.pagePtr))
    (hhi : ¬ inNvm (sys.pageAddr (advance sys.pagePtr n)))
    (hm5 : sys.physmem.totalSize < sys.pageAddr (0xffffffff >>> sys.pageShift)) :
    sys.allocPhysPages n =
      if sys.m5opRange.contains (sys.pageAddr (advance sys.pagePtr n)) = true ∨
          sys.physmem.totalSize < sys.pageAddr (advance sys.pagePtr n) then
        .error (.fatal "Out of memory, please increase size of physical memory.")
      else .ok (sys.pageAddr sys.pagePtr, { sys with pagePtr := advance sys.pagePtr n }) := by
  unfold allocPhysPages
  rw [skipNvm_stop hlo hhi]
  simp only [Sim.ok_bind]
  by_cases hc : sys.m5opRange.contains (sys.pageAddr (advance sys.pagePtr n)) = true
  · simp [hc, hm5]
  · simp [hc]

theorem allocPhysPages_window {k : ℕ} (hlo : nvmStartAddr ≤ (sys.pagePtr + k) * sys.pageBytes)
    (hhi : (sys.pagePtr + k) * sys.pageBytes ≤ nvmEndAddr) (hlt : sys.pageShift < 32)
    (hsize : sys.physmem.totalSize ≤ nvmEndAddr) : sys.allocPhysPages k
      = .error (.fatal "Out of memory, please increase size of physical memory.") := by
  have hnvm := nvm_window
  have hP : sys.pageBytes ≤ 2 ^ 31 := Nat.pow_le_pow_right two_pos (by omega)
  have hpos : 0 < sys.pagePtr + k := by
    rcases Nat.eq_zero_or_pos (sys.pagePtr + k) with h0 | h0
    · rw [h0] at hlo
      omega
    · exact h0
  have hbytes : sys.pageBytes ≤ nvmEndAddr :=
    (Nat.le_mul_of_pos_left _ hpos).trans hhi
  have hle := sys.le_mul_pageBytes (sys.pagePtr + k)
  have hm5 := m5_pageAddr hlt
  obtain ⟨q, hq, -, hqlo, hqhi⟩ := skipNvm_window sys (sys.pageAddr sys.pagePtr) (sys.pagePtr + k)
    hlo (.inl hhi) hbytes
  have hq1 : (q + 1) * sys.pageBytes = q * sys.pageBytes + sys.pageBytes := by ring
  have hnext : sys.pageAddr (q + 1) = (q + 1) * sys.pageBytes := pageAddr_eq (by omega)
  unfold allocPhysPages
  rw [advance_natCast (by omega), hq]
  simp only [Sim.ok_bind]
  rw [if_pos]
  split_ifs
  · change _ < sys.pageAddr (0xffffffff >>> sys.pageShift)
    omega
  · rw [hnext]
    omega

theorem pageAddr_advance_neg (hneg : sys.pagePtr + n < 0) (hn : -2 ^ 31 ≤ n)
    (hlt : sys.pageShift < 32) : 2 ^ 63 ≤ sys.pageAddr (advance sys.pagePtr n) := by
  obtain ⟨k, hk⟩ : ∃ k : ℕ, (k : ℤ) = -(sys.pagePtr + n) := ⟨_, Int.toNat_of_nonneg (by omega)⟩
  have hadv : advance sys.pagePtr n = 2 ^ 64 - k := by
    unfold advance
    omega
  have hP : 2 ^ sys.pageShift ≤ 2 ^ 31 := Nat.pow_le_pow_right two_pos (by omega)
  have hpos : 0 < 2 ^ sys.pageShift := Nat.two_pow_pos _
  have hkP : k * 2 ^ sys.pageShift ≤ 2 ^ 31 * 2 ^ 31 := Nat.mul_le_mul (by omega) hP
  have hkpos : 0 < k * 2 ^ sys.pageShift := Nat.mul_pos (by omega) hpos
  have hsum : (2 ^ 64 - k) * 2 ^ sys.pageShift + k * 2 ^ sys.pageShift
      = 2 ^ 64 * 2 ^ sys.pageShift := by
    rw [← Nat.add_mul, Nat.sub_add_cancel (by omega)]
  rw [hadv, pageAddr, u64, Nat.shiftLeft_eq]
  omega

end System

namespace Layout

variable {L : Layout} {sys : System}

/-- What every volatile request from a state of a run does. -/
theorem Reached.phys_cases (h : L.Reached sys) (hn : -2 ^ 31 ≤ n ∧ n < 2 ^ 31) :
    (∃ msg, sys.allocStep (.phys n) = .error (.fatal msg) ∧ L.Noticed sys (.phys n)) ∨
      ∃ p : ℕ, (p : ℤ) = sys.pagePtr + n ∧ p * sys.pageBytes < nvmStartAddr ∧
        p * sys.pageBytes ≤ L.top + (nvmEndAddr - nvmStartAddr) ∧
        sys.m5opRange.contains (p * sys.pageBytes) = false ∧
        sys.allocStep (.phys n) = .ok (sys.block (sys.pagePtr * sys.pageBytes) n,
          { sys with pagePtr := p }) := by
  have hnvm := nvm_window
  have htop := L.top_le
  have hsize := h.totalSize
  have hbelow := h.below
  have hle := sys.le_mul_pageBytes sys.pagePtr
  have hm5 := System.m5_pageAddr h.shift_lt
  have hret : sys.pageAddr sys.pagePtr = sys.pagePtr * sys.pageBytes :=
    System.pageAddr_eq (by omega)
  have hlo : ¬ inNvm (sys.pageAddr sys.pagePtr) = true := by
    rw [hret, System.inNvm_iff]
    omega
  by_cases hneg : sys.pagePtr + n < 0
  · have hfar := System.pageAddr_advance_neg hneg hn.1 h.shift_lt
    refine .inl ⟨"Out of memory, please increase size of physical memory.", ?_, .inl (by omega)⟩
    rw [System.allocStep, System.allocPhysPages_off hlo (by rw [System.inNvm_iff]; omega)
      (by omega), if_pos (.inr (by omega))]
    rfl
  obtain ⟨p, hp⟩ : ∃ p : ℕ, (p : ℤ) = sys.pagePtr + n := ⟨_, Int.toNat_of_nonneg (by omega)⟩
  have hP : sys.pageBytes ≤ 2 ^ 31 := Nat.pow_le_pow_right two_pos (by have := h.shift_lt; omega)
  have hpP : p * sys.pageBytes < 2 ^ 64 := by
    have h1 : p * sys.pageBytes ≤ (sys.pagePtr + 2 ^ 31) * sys.pageBytes :=
      Nat.mul_le_mul_right _ (by omega)
    rw [Nat.add_mul] at h1
    omega
  have hlep := sys.le_mul_pageBytes p
  have hadv : System.advance sys.pagePtr n = p := by
    unfold System.advance
    omega
  have hnext : sys.pageAddr p = p * sys.pageBytes := System.pageAddr_eq hpP
  have hnat : ∀ hpos : 0 < n, sys.pagePtr + n.toNat = p := fun _ => by omega
  by_cases hwin : nvmStartAddr ≤ p * sys.pageBytes ∧ p * sys.pageBytes ≤ nvmEndAddr
  · have hpos : 0 < n := by
      by_contra hle
      have := Nat.mul_le_mul_right sys.pageBytes (show p ≤ sys.pagePtr by omega)
      omega
    have hk := hnat hpos
    refine .inl ⟨"Out of memory, please increase size of physical memory.", ?_, ?_⟩
    · rw [← Int.toNat_of_nonneg hpos.le, System.allocStep, System.allocPhysPages_window
        (by rw [hk]; exact hwin.1) (by rw [hk]; exact hwin.2) h.shift_lt (by omega)]
      rfl
    · simp only [Noticed, hk]
      exact .inr (.inr (.inl hwin.1))
  · have heq := System.allocPhysPages_off (n := n) hlo
      (by rw [hadv, hnext, System.inNvm_iff]; exact hwin) (by omega)
    rw [hadv, hnext, hret] at heq
    by_cases hc : sys.m5opRange.contains (p * sys.pageBytes) = true ∨
        sys.physmem.totalSize < p * sys.pageBytes
    · rw [if_pos hc] at heq
      refine .inl ⟨_, by rw [System.allocStep, heq]; rfl, ?_⟩
      by_cases hpos : 0 < n
      · simp only [Noticed, hnat hpos]
        rcases hc with hc | hc
        · exact .inr (.inr (.inr (.inr hc)))
        · exact .inr (.inr (.inr (.inl (by omega))))
      · exact .inl (by omega)
    · rw [if_neg hc] at heq
      push Not at hc
      refine .inr ⟨p, hp, by omega, by omega, by simpa using hc.1, ?_⟩
      rw [System.allocStep, heq]
      rfl

theorem Reached.backedBy_iff (h : L.Reached sys) (hm : m = L.dram ∨ m = L.nvm) {b : Block}
    (hb : b.addr + b.length < 2 ^ 64) :
    BackedBy sys b m ↔
      b.length = 0 ∨ m.range.start ≤ b.addr ∧ b.addr + b.length ≤ m.range.end_ := by
  have hbytes : ∀ a, a ∈ b.bytes ↔ b.addr ≤ a ∧ a < b.addr + b.length := fun a => Set.mem_Ico
  have hlook : ∀ a ∈ b.bytes, ((∃ node addrMap, sys.physmem.addrMap.contains a
      = .ok (some node, addrMap) ∧ node.second = m) ↔ m.range.start ≤ a ∧ a < m.range.end_) :=
    fun a ha => h.lookup m hm a (by have := (hbytes a).1 ha; omega)
  rw [BackedBy, forall₂_congr hlook]
  constructor
  · intro hall
    rcases Nat.eq_zero_or_pos b.length with h0 | h0
    · exact .inl h0
    · have hfirst := hall b.addr ((hbytes _).2 (by omega))
      have hlast := hall (b.addr + b.length - 1) ((hbytes _).2 (by omega))
      omega
  · rintro (h0 | hin) a ha <;> rw [hbytes] at ha <;> omega

theorem fatalOrBacked_iff {op : AllocOp} {b : Block} {sys' : System}
    (h : sys.allocStep op = .ok (b, sys')) :
    L.FatalOrBacked sys op ↔ BackedBy sys b (L.memory op) := by
  constructor
  · rintro (⟨msg, hfatal⟩ | ⟨b', sys'', hok, hb⟩)
    · rw [h] at hfatal
      cases hfatal
    · rw [h] at hok
      cases hok
      exact hb
  · exact fun hb => .inr ⟨b, sys', h, hb⟩

theorem Reached.phys (h : L.Reached sys) (hn : -2 ^ 31 ≤ n ∧ n < 2 ^ 31) :
    (L.FatalOrBacked sys (.phys n) ↔ L.Noticed sys (.phys n)) ∧
      ∀ b sys', sys.allocStep (.phys n) = .ok (b, sys') → L.Reached sys' := by
  have hnvm := nvm_window
  have hbelow := h.below
  rcases h.phys_cases hn with ⟨msg, hfatal, hnot⟩ | ⟨p, hp, hlt, hsize, hm5, hok⟩
  · refine ⟨iff_of_true (.inl ⟨msg, hfatal⟩) hnot, fun b sys' hok => ?_⟩
    rw [hfatal] at hok
    cases hok
  · refine ⟨?_, fun b sys' hok' => ?_⟩
    · have hmul : n.toNat * sys.pageBytes ≤ p * sys.pageBytes :=
        Nat.mul_le_mul_right _ (by omega)
      rw [fatalOrBacked_iff hok, memory, h.backedBy_iff (.inl rfl)
        (by simp only [System.block]; omega), L.dram_range]
      simp only [System.block, contiguous, Noticed]
      by_cases hpos : 0 < n
      · have hk : sys.pagePtr + n.toNat = p := by omega
        have hkP : sys.pagePtr * sys.pageBytes + n.toNat * sys.pageBytes = p * sys.pageBytes := by
          rw [← Nat.add_mul, hk]
        have hne : 0 < n.toNat * sys.pageBytes := Nat.mul_pos (by omega) sys.pageBytes_pos
        simp only [hk, hkP, hm5, Bool.false_eq_true, or_false]
        omega
      · have h0 : n.toNat = 0 := by omega
        rw [h0, Nat.zero_mul]
        exact iff_of_true (.inl rfl) (.inl (by omega))
    · rw [hok] at hok'
      cases hok'
      exact ⟨h.shift_pos, h.shift_lt, h.lookup, h.totalSize, hlt⟩

theorem Reached.nvm_addr_lt (h : L.Reached sys) :
    u64 (sys.pageAddr sys.pageNVMPtr + nvmStartAddr) + 1 < 2 ^ 64 := by
  have hnvm := nvm_window
  have heven : sys.pageAddr sys.pageNVMPtr % 2 = 0 := by
    obtain ⟨s, hs⟩ : ∃ s, sys.pageShift = s + 1 :=
      ⟨sys.pageShift - 1, by have := h.shift_pos; omega⟩
    unfold System.pageAddr u64
    rw [Nat.shiftLeft_eq, hs, pow_succ, ← Nat.mul_assoc]
    omega
  unfold u64
  omega

theorem Reached.nvm (h : L.Reached sys) (hn : n < 2 ^ 31) :
    (L.FatalOrBacked sys (.nvm n) ↔ L.Noticed sys (.nvm n)) ∧
      ∀ b sys', sys.allocStep (.nvm n) = .ok (b, sys') → L.Reached sys' := by
  have hnvm := nvm_window
  refine ⟨?_, fun b sys' hok => ?_⟩
  · have hok : sys.allocStep (.nvm n) = .ok (sys.block
        (u64 (sys.pageAddr sys.pageNVMPtr + nvmStartAddr)) n,
        { sys with pageNVMPtr := System.advance sys.pageNVMPtr n }) := rfl
    have hq : sys.pageAddr sys.pageNVMPtr < 2 ^ 64 := Nat.mod_lt _ (by norm_num)
    have hret := h.nvm_addr_lt
    have hP : sys.pageBytes ≤ 2 ^ 31 :=
      Nat.pow_le_pow_right two_pos (by have := h.shift_lt; omega)
    have hlen : n.toNat * sys.pageBytes ≤ 2 ^ 31 * 2 ^ 31 := Nat.mul_le_mul (by omega) hP
    have hpos : 0 < n → 0 < n.toNat * sys.pageBytes := fun hn =>
      Nat.mul_pos (by omega) sys.pageBytes_pos
    rw [fatalOrBacked_iff hok, memory]
    simp only [Noticed]
    by_cases hfit : u64 (sys.pageAddr sys.pageNVMPtr + nvmStartAddr) + n.toNat * sys.pageBytes
        < 2 ^ 64
    · rw [h.backedBy_iff (.inr rfl) (by simpa [System.block] using hfit), L.nvm_range]
      simp only [System.block, contiguous]
      rcases lt_or_ge 0 n with hn0 | hn0
      · have := hpos hn0
        unfold u64
        omega
      · have h0 : n.toNat = 0 := by omega
        rw [h0, Nat.zero_mul]
        exact iff_of_true (.inl rfl) (.inl hn0)
    · -- the block runs past the last address, far from the window
      refine iff_of_false (fun hb => ?_) ?_
      · have hfirst := hb (u64 (sys.pageAddr sys.pageNVMPtr + nvmStartAddr)) (by
          simp only [Block.bytes, System.block, Set.mem_Ico]
          omega)
        rw [h.lookup _ (.inr rfl) _ hret, L.nvm_range] at hfirst
        simp only [contiguous] at hfirst
        omega
      · unfold u64 at hfit hret
        rcases lt_or_ge 0 n with hn0 | hn0
        · have := hpos hn0
          omega
        · have h0 : n.toNat = 0 := by omega
          rw [h0, Nat.zero_mul] at hfit
          omega
  · simp only [System.allocStep, System.allocNVMPhysPages, Except.ok.injEq, Prod.mk.injEq] at hok
    obtain ⟨-, rfl⟩ := hok
    exact ⟨h.shift_pos, h.shift_lt, h.lookup, h.totalSize, h.below⟩

end Layout

/-- In a system with the layout of the configuration, every call of a run ends in `fatal` or returns
memory of the right kind exactly when the exhaustion of every call is noticed. -/
theorem alloc_backed_iff {L : Layout} {p : SystemParams} (hL : L.Of p.memories)
    (hshift : 0 < p.pageShift ∧ p.pageShift < 32) : ∃ sys, System.new p = .ok sys ∧
    ∀ ops : List AllocOp, (∀ op ∈ ops, -2 ^ 31 ≤ op.npages ∧ op.npages < 2 ^ 31) →
      (Run.Along System.allocStep L.FatalOrBacked sys ops
        ↔ Run.Along System.allocStep L.Noticed sys ops) := by
  obtain ⟨sys, hnew, hreach⟩ := hL.new hshift.1 hshift.2
  refine ⟨sys, hnew, fun ops hops => ?_⟩
  refine Run.along_congr (D := fun op => -2 ^ 31 ≤ op.npages ∧ op.npages < 2 ^ 31)
    (fun s op hs hop => ?_) ops hreach hops
  cases op with
  | phys n => exact (hs.phys hop).imp_right fun h _ => h
  | nvm n => exact (hs.nvm hop.2).imp_right fun h _ => h

/-- Half a gigabyte of volatile memory, and the NVM. -/
def smallLayout : Layout where
  dram := .over "mem_ctrl" 0 0x20000000
  nvm := .nvmCtrl
  top := 0x20000000
  dram_range := rfl
  nvm_range := rfl
  dram_mapped := rfl
  nvm_mapped := rfl
  top_le := by decide

def smallParams : SystemParams where
  pageShift := 12
  memories := [smallLayout.dram, smallLayout.nvm]
  sharedBackstore := ""
  m5opsBase := 0

/-- A memory of 1 GiB. -/
def small (pm : PhysicalMemory) : PhysicalMemory := { pm with size := 0x40000000 }

theorem new_smallParams : ∃ pm, System.new smallParams = .ok (sysAt (small pm) 0 0) ∧
    (small pm).isMemAddr 0x20000000 = .ok (false, small pm) := by
  obtain ⟨pm, hsize, hnew⟩ : ∃ pm, pm.size = 0x40000000 ∧
      System.new smallParams = .ok (sysAt pm 0 0) ∧
      pm.isMemAddr 0x20000000 = .ok (false, pm) := ⟨_, rfl, rfl, rfl⟩
  have hpm : small pm = pm := by rw [small, ← hsize]
  exact ⟨pm, by rwa [hpm]⟩

/-- A volatile page and an NVM page of a fresh system have memory behind them. -/
theorem alloc_backed_iff_small : ∃ sys, System.new smallParams = .ok sys ∧
    Run.Along System.allocStep smallLayout.FatalOrBacked sys [.phys 1, .nvm 1] := by
  obtain ⟨sys, hnew, h⟩ := alloc_backed_iff (L := smallLayout) (p := smallParams) (.inl rfl)
    (by decide)
  refine ⟨sys, hnew, (h [.phys 1, .nvm 1] (by decide)).2 ?_⟩
  obtain ⟨pm, hnew', -⟩ := new_smallParams
  rw [hnew] at hnew'
  cases hnew'
  have h1 : (sysAt (small pm) 0 0).allocStep (.phys 1) =
      .ok (⟨0, 0x1000⟩, sysAt (small pm) 1 0) := by
    cbv
  have h2 : (sysAt (small pm) 1 0).allocStep (.nvm 1) =
      .ok (⟨0x30000000, 0x1000⟩, sysAt (small pm) 1 1) := by
    cbv
  rw [Run.along_cons h1, Run.along_cons h2]
  exact ⟨.inr (.inl (show (0 + 1) * 2 ^ 12 ≤ 0x20000000 by decide)),
    .inr (show 0 + 1 * 2 ^ 12 ≤ 0x50000000 - 0x30000000 by decide), trivial⟩

/-- The page after the last of the volatile memory is handed out, with no memory behind it. -/
theorem alloc_unbacked : ∃ pm, System.new smallParams = .ok (sysAt pm 0 0) ∧
    Run.run System.allocStep (sysAt pm 0 0) [.phys 0x20000, .phys 1]
      = .ok ([⟨0, 0x20000000⟩, ⟨0x20000000, 0x1000⟩], sysAt pm 0x20001 0) ∧
    pm.isMemAddr 0x20000000 = .ok (false, pm) := by
  obtain ⟨pm, hnew, hmem⟩ := new_smallParams
  exact ⟨_, hnew, by cbv, hmem⟩

end Gem5Nvm
