import Gem5Nvm.Proofs.AddrRangeMap

/-!
# Ranges that do not overlap

The ranges of a list of complete groups leave no address between their bounds without an owner.
-/

namespace Gem5Nvm

namespace AddrRange

variable {r s t : AddrRange}

theorem mergesWith_refl (r : AddrRange) : r.mergesWith r = true := by simp [mergesWith]

theorem mergesWith_comm : r.mergesWith s = s.mergesWith r := by
  rw [Bool.eq_iff_iff, mergesWith_iff, mergesWith_iff]
  constructor <;> rintro ⟨h1, h2, h3⟩ <;> exact ⟨h1.symm, h2.symm, h3.symm⟩

theorem mergesWith_trans (h : r.mergesWith s = true) (h' : s.mergesWith t = true) :
    r.mergesWith t = true := by
  rw [mergesWith_iff] at *
  exact ⟨h'.1.trans h.1, h'.2.1.trans h.2.1, h'.2.2.trans h.2.2⟩

theorem mergesWith_right (h : r.mergesWith s = true) : r.mergesWith t = s.mergesWith t := by
  rw [mergesWith_iff] at h
  simp [mergesWith, h]

theorem interleaved_of_mergesWith (h : r.mergesWith s = true) : s.interleaved = r.interleaved := by
  rw [mergesWith_iff] at h
  simp [interleaved, h.2.2]

theorem or_bit_lt {k acc b : ℕ} (h : acc < 2 ^ k) : acc ||| (b % 2) <<< k < 2 ^ (k + 1) := by
  refine Nat.or_lt_two_pow (h.trans (Nat.pow_lt_pow_right one_lt_two (Nat.lt_succ_self k))) ?_
  rw [Nat.shiftLeft_eq, pow_succ', ]
  exact Nat.mul_lt_mul_of_pos_right (Nat.mod_lt _ two_pos) (Nat.two_pow_pos k)

theorem foldl_sel_lt (a : ℕ) : ∀ (masks : List ℕ) (k acc : ℕ), acc < 2 ^ k →
    (masks.zipIdx k).foldl (fun s m => s ||| (popCount (a &&& m.1) % 2) <<< m.2) acc
      < 2 ^ (k + masks.length)
  | [], k, acc, h => by simpa using h
  | m :: masks, k, acc, h => by
    have ih := foldl_sel_lt a masks (k + 1) _ (or_bit_lt (b := popCount (a &&& m)) h)
    rw [List.zipIdx_cons, List.foldl_cons, List.length_cons,
      show k + (masks.length + 1) = k + 1 + masks.length by omega]
    exact ih

theorem sel_lt (r : AddrRange) (a : ℕ) : r.sel a < 2 ^ r.masks.length := by
  simpa [sel] using foldl_sel_lt a r.masks 0 0 (by simp)

theorem sel_congr (h : r.masks = s.masks) (a : ℕ) : r.sel a = s.sel a := by
  simp [sel, h]

/-- Ranges that lie apart, or are different members of one group. -/
def Separate (r s : AddrRange) : Prop :=
  r.end_ ≤ s.start ∨ s.end_ ≤ r.start ∨ r.mergesWith s = true ∧ r.intlvMatch ≠ s.intlvMatch

theorem Separate.symm (h : r.Separate s) : s.Separate r := by
  rcases h with h | h | ⟨h, h'⟩
  · exact .inr (.inl h)
  · exact .inl h
  · exact .inr (.inr ⟨mergesWith_comm ▸ h, h'.symm⟩)

theorem intersects_separate (h : r.Separate s) (hil : r.mergesWith s = true → r.interleaved = true)
    (hone : r.mergesWith s = true → s.size = 1 → r.contains s.start = false) :
    r.intersects s = .ok false := by
  unfold intersects
  rcases h with h | h | ⟨h, hne⟩
  · rw [if_pos (.inr h)]
  · rw [if_pos (.inl h)]
  · split_ifs with h1 h2 h3
    · rfl
    · simp [hil h] at h2
    · rw [hone h h3]
    · simp [hne]

theorem intersects_oneByte (hlt : r.start < r.end_) (hil : r.interleaved = true)
    (h : r.mergesWith s = true) (hs : s.size = 1) : r.intersects s = .ok (r.contains s.start) := by
  obtain ⟨h1, h2, -⟩ := mergesWith_iff.1 h
  unfold intersects
  rw [if_neg (by omega), if_neg (by simp [hil]), if_pos hs]

theorem Separate.lt_or_lt (h : r.Separate s) (hr : r.start < r.end_) (hs : s.start < s.end_) :
    r.lt s = true ∨ s.lt r = true := by
  rw [lt_iff, lt_iff]
  rcases h with h | h | ⟨h, hne⟩
  · omega
  · omega
  · rw [mergesWith_iff] at h
    omega

theorem start_lt_end (h : r.valid = true ∧ r.size ≠ 0) (hend : r.end_ < 2 ^ 64) :
    r.start < r.end_ := by
  obtain ⟨hv, hs⟩ := h
  simp only [valid, decide_eq_true_eq] at hv
  rcases hv.lt_or_eq with hlt | heq
  · exact hlt
  · exfalso
    apply hs
    have h0 : usub r.end_ r.start = 0 := by
      unfold usub
      omega
    simp [size, h0]

theorem granularity_pos (h : r.interleaved = true) : 1 ≤ r.granularity := by
  unfold granularity
  rw [if_pos h]
  exact Nat.one_le_two_pow

theorem masks_eq_nil (h : r.interleaved = false) : r.masks = [] := by
  simpa [interleaved] using h

namespace WellFormed

theorem intlvMatch_eq_zero (h : r.WellFormed) (hplain : r.interleaved = false) :
    r.intlvMatch = 0 := by
  simpa [masks_eq_nil hplain] using h.match_lt

theorem contains_plain (h : r.WellFormed) (hplain : r.interleaved = false) (a : ℕ) :
    r.contains a = decide (r.start ≤ a ∧ a < r.end_) := by
  have hsel : r.sel a = 0 := by simp [sel, masks_eq_nil hplain]
  simp [contains, hsel, h.intlvMatch_eq_zero hplain]

variable {a : ℕ}

theorem isSubset_byte (h : r.WellFormed) (ha : a + 1 < 2 ^ 64) :
    (rangeSize a 1).isSubset r = .ok (r.contains a) := by
  have hend : (rangeSize a 1).end_ = a + 1 := Nat.mod_eq_of_lt ha
  have hsize : (rangeSize a 1).size = 1 := by
    simp only [size, rangeSize, contiguous, List.length_nil, Nat.shiftRight_zero]
    rw [u64_of_lt ha, usub_of_le (by omega) ha, Nat.add_sub_cancel_left]
  unfold isSubset
  rw [if_neg (show ¬ (rangeSize a 1).interleaved = true from Bool.false_ne_true), hend, hsize,
    show (rangeSize a 1).start = a from rfl, usub_of_le (by omega) ha, Nat.add_sub_cancel]
  split_ifs with hil
  · simp [granularity_pos hil]
  · rw [h.contains_plain (by simpa using hil)]
    simp

end WellFormed

end AddrRange

namespace AbstractMemory

variable {ms : List AbstractMemory} {m k : AbstractMemory}

theorem mem_group : k ∈ m.group ms ↔
    k ∈ ms ∧ k.inAddrMap = true ∧ m.range.mergesWith k.range = true := by
  simp [group]

namespace Acceptable

section

variable (h : Acceptable ms) (hm : m ∈ ms)
include h hm

theorem start_lt_end : m.range.start < m.range.end_ :=
  AddrRange.start_lt_end m.valid_range (h.wellFormed m hm).end_lt

theorem eq_contiguous (hplain : m.range.interleaved = false) :
    m.range = .contiguous m.range.start m.range.end_ := by
  have h0 := (h.wellFormed m hm).intlvMatch_eq_zero hplain
  have hnil := AddrRange.masks_eq_nil hplain
  rcases hr : m.range with ⟨start, end_, masks, intlvMatch⟩
  rw [hr] at h0 hnil
  simp_all [AddrRange.contiguous]

theorem contains_of_plain (hplain : m.range.interleaved = false) (hlo : m.range.start ≤ a)
    (hhi : a < m.range.end_) : m.range.contains a = true := by
  rw [(h.wellFormed m hm).contains_plain hplain]
  exact decide_eq_true ⟨hlo, hhi⟩

/-- An address between the bounds of a range is that of a member of its group. -/
theorem owner (hmap : m.inAddrMap = true) (hlo : m.range.start ≤ a) (hhi : a < m.range.end_) :
    ∃ k ∈ m.group ms, k.range.contains a = true := by
  cases hi : m.range.interleaved with
  | false =>
    exact ⟨m, mem_group.2 ⟨hm, hmap, m.range.mergesWith_refl⟩, h.contains_of_plain hm hi hlo hhi⟩
  | true =>
    obtain ⟨k, ⟨hk, hj⟩, -⟩ := h.complete m hm hmap hi _ (m.range.sel_lt a)
    refine ⟨k, hk, ?_⟩
    obtain ⟨h1, h2, h3⟩ := AddrRange.mergesWith_iff.1 (mem_group.1 hk).2.2
    rw [AddrRange.contains_iff, h1, h2, AddrRange.sel_congr h3, hj]
    exact ⟨hlo, hhi, rfl⟩

section

variable (hk : k ∈ ms) (hmap : m.inAddrMap = true) (hmap' : k.inAddrMap = true)
include hk hmap hmap'

/-- Two ranges of the list lie apart, or are members of one group. -/
theorem separate (hne : m ≠ k) : m.range.Separate k.range := by
  by_contra hsep
  unfold AddrRange.Separate at hsep
  push Not at hsep
  obtain ⟨h1, h2, h3⟩ := hsep
  have hlt := h.start_lt_end hm
  have hlt' := h.start_lt_end hk
  -- the two share an address, whose owners are one and the same
  obtain ⟨o, ho, hoc⟩ := h.owner hm hmap (a := max m.range.start k.range.start) (by omega) (by omega)
  obtain ⟨o', ho', hoc'⟩ :=
    h.owner hk hmap' (a := max m.range.start k.range.start) (by omega) (by omega)
  rw [mem_group] at ho ho'
  have heq : o = o' := by
    by_contra hoo
    exact h.apart o ho.1 o' ho'.1 ho.2.1 ho'.2.1 hoo _ ⟨hoc, hoc'⟩
  subst heq
  have hmerge : m.range.mergesWith k.range = true :=
    AddrRange.mergesWith_trans ho.2.2 (AddrRange.mergesWith_comm ▸ ho'.2.2)
  have hmatch := h3 hmerge
  cases hi : m.range.interleaved with
  | false =>
    have hi' : k.range.interleaved = false := AddrRange.interleaved_of_mergesWith hmerge ▸ hi
    exact h.apart m hm k hk hmap hmap' hne (max m.range.start k.range.start)
      ⟨h.contains_of_plain hm hi (by omega) (by omega),
        h.contains_of_plain hk hi' (by omega) (by omega)⟩
  | true =>
    refine hne ((h.complete m hm hmap hi _ (h.wellFormed m hm).match_lt).unique ?_ ?_)
    · exact ⟨mem_group.2 ⟨hm, hmap, m.range.mergesWith_refl⟩, rfl⟩
    · exact ⟨mem_group.2 ⟨hk, hmap', hmerge⟩, hmatch.symm⟩

theorem interleaved_of_separate (hne : m ≠ k) (hmerge : m.range.mergesWith k.range = true) :
    m.range.interleaved = true := by
  by_contra hplain
  rw [Bool.not_eq_true] at hplain
  have hplain' := AddrRange.interleaved_of_mergesWith hmerge ▸ hplain
  have h1 := (h.wellFormed m hm).intlvMatch_eq_zero hplain
  have h2 := (h.wellFormed k hk).intlvMatch_eq_zero hplain'
  obtain ⟨h3, h4, -⟩ := AddrRange.mergesWith_iff.1 hmerge
  have hlt := h.start_lt_end hm
  rcases h.separate hm hk hmap hmap' hne with hs | hs | hs
  · omega
  · omega
  · exact hs.2 (by omega)

theorem mergesWith_of_start (hstart : m.range.start = k.range.start) :
    m.range.mergesWith k.range = true := by
  by_cases hne : m = k
  · rw [hne]
    exact k.range.mergesWith_refl
  · have hlt := h.start_lt_end hm
    have hlt' := h.start_lt_end hk
    rcases h.separate hm hk hmap hmap' hne with hs | hs | hs
    · omega
    · omega
    · exact hs.1

end

end

end Acceptable

end AbstractMemory

end Gem5Nvm
