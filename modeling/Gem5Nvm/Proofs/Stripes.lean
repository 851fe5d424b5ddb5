import Gem5Nvm.MemInterface
import Gem5Nvm.Proofs.Interleaving

/-!
# How a group of ranges shares out its addresses

The selector bits of an address say which range of the group has it.  Within a range the bits that
`removeIntlvBits` keeps determine an address and may be anything (`MasksDisjoint.exists_addr`), so
the offsets have no gap; but it does not return where bits 0 and 1 are both to go
(`interleaved_striped_iff`).
-/

namespace Gem5Nvm

open Squeeze

namespace AddrRange

variable {r : AddrRange} {a b k : ℕ}

theorem member_contains : (r.member k).contains a = true ↔
    (r.start ≤ a ∧ a < r.end_) ∧ r.sel a = k := by
  rw [contains, decide_eq_true_iff, and_assoc]
  exact Iff.rfl

namespace MasksDisjoint

theorem member (h : r.MasksDisjoint) (hk : k < 2 ^ r.masks.length) : (r.member k).MasksDisjoint :=
  ⟨h.interleaved, h.length_le, h.mask_lt, h.mask_ne, h.disjoint, hk⟩

theorem nodup (h : r.MasksDisjoint) : r.masks.Nodup := by
  refine h.disjoint.imp_of_mem fun {m n} hm _ hmn heq => h.mask_ne m hm ?_
  rwa [← heq, Nat.and_self] at hmn

theorem index_unique (h : r.MasksDisjoint) {mi ni : ℕ × ℕ} (hm : mi ∈ r.masks.zipIdx)
    (hn : ni ∈ r.masks.zipIdx) (heq : ctz64 mi.1 = ctz64 ni.1) : mi = ni := by
  have hmem := List.fst_mem_of_mem_zipIdx hm
  have hmem' := List.fst_mem_of_mem_zipIdx hn
  have hmask : mi.1 = ni.1 :=
    h.eq_of_testBit hmem hmem' (heq ▸ (h.lsb hmem).2.1) (h.lsb hmem').2.1
  obtain ⟨hi, him⟩ := List.getElem?_eq_some_iff.1 (List.mem_zipIdx_iff_getElem?.1 hm)
  obtain ⟨hj, hjm⟩ := List.getElem?_eq_some_iff.1 (List.mem_zipIdx_iff_getElem?.1 hn)
  exact Prod.ext hmask ((h.nodup.getElem_inj_iff).1 (him.trans (hmask.trans hjm.symm)))

open scoped Classical in
theorem exists_addr (h : r.MasksDisjoint) (b : ℕ) :
    ∃ a, Squeezed r.masksLsb.toFinset a b ∧ r.sel a = r.intlvMatch := by
  obtain ⟨z, hz, hclear⟩ := exists_squeezed r.masksLsb.toFinset b fun _ => false
  -- the bit that makes up for the parity of the rest of its mask
  obtain ⟨a, ha, hset⟩ := exists_squeezed r.masksLsb.toFinset b fun p =>
    decide (∃ mi ∈ r.masks.zipIdx, ctz64 mi.1 = p ∧
      (r.intlvMatch.testBit mi.2 ^^ (popCount (z &&& mi.1)).testBit 0) = true)
  refine ⟨a, ha, (sel_eq_iff h.match_lt).2 fun mi hmi => ?_⟩
  have hm := List.fst_mem_of_mem_zipIdx hmi
  obtain ⟨h64, hbit, -⟩ := h.lsb hm
  have hlsb : ctz64 mi.1 ∈ r.masksLsb.toFinset := mem_masksLsb.2 ⟨mi.1, hm, rfl⟩
  have hchosen : a.testBit (ctz64 mi.1)
      = (r.intlvMatch.testBit mi.2 ^^ (popCount (z &&& mi.1)).testBit 0) := by
    rw [hset _ hlsb, Bool.eq_iff_iff, decide_eq_true_iff]
    constructor
    · rintro ⟨ni, hni, heq, hpar⟩
      rwa [← h.index_unique hni hmi heq]
    · exact fun hpar => ⟨mi, hmi, rfl, hpar⟩
  have hsplit := parity_split (a := a) (y := z &&& mi.1) h64 hbit
    (by rw [Nat.testBit_and, hclear _ hlsb, Bool.false_and]) fun j _ hne => by
      rw [Nat.testBit_and, Nat.testBit_and]
      rcases hmj : mi.1.testBit j
      · simp
      · have hout := h.notMem_lsb hm hmj hne
        rw [ha j hout, hz j hout]
  rw [hsplit, hchosen, Bool.xor_comm, Bool.xor_assoc, Bool.xor_self, Bool.xor_false]

theorem remove_error (h : r.MasksDisjoint) (h0 : 0 ∈ r.masks.map ctz64)
    (h1 : 1 ∈ r.masks.map ctz64) (b : ℕ) : r.removeIntlvBits a ≠ .ok b := by
  intro hb
  obtain ⟨rest, hrest⟩ := h.masksLsb_eq h0 h1
  rw [removeIntlvBits, hrest, List.zipIdx_cons, List.foldlM_cons, List.zipIdx_cons,
    Sim.bind_eq_ok] at hb
  obtain ⟨x, -, hx⟩ := hb
  rw [List.foldlM_cons, removeIntlvBit_error (by omega) (by omega)] at hx
  cases hx

theorem exists_remove (h : r.MasksDisjoint)
    (h01 : ¬ (0 ∈ r.masks.map ctz64 ∧ 1 ∈ r.masks.map ctz64)) (ha : a < 2 ^ 64) :
    ∃ b, r.removeIntlvBits a = .ok b := by
  refine removeFold_total h.above ha fun hmem => h01 ?_
  simpa only [Finset.empty_union, mem_masksLsb, List.mem_map] using hmem

end MasksDisjoint

theorem aligned_of_lt {t : ℕ} (hle : r.start ≤ r.end_) (hend : r.end_ < 2 ^ 64)
    (hm : ∀ m ∈ r.masks, m < 2 ^ t) (hs : 2 ^ t ∣ r.start) (he : 2 ^ t ∣ r.end_) : r.Aligned := by
  have hdvd : ∀ m ∈ r.masks, ∀ j, m.testBit j = true → 2 ^ (j + 1) ∣ 2 ^ t := by
    intro m hmem j hj
    have hjt : j < t := by
      by_contra hcon
      have hlt := (hm m hmem).trans_le (Nat.pow_le_pow_right two_pos (not_lt.1 hcon))
      rw [Nat.testBit_eq_false_of_lt hlt] at hj
      exact Bool.false_ne_true hj
    exact pow_dvd_pow 2 hjt
  exact ⟨hle, hend, fun m hmem j hj => (hdvd m hmem j hj).trans hs,
    fun m hmem j hj => (hdvd m hmem j hj).trans he⟩

theorem Aligned.exists_top (h : r.Aligned) (hm : r.MasksDisjoint) :
    ∃ t, (∀ p ∈ r.masksLsb.toFinset, p < t) ∧ 2 ^ t ∣ r.start ∧ 2 ^ t ∣ r.end_ := by
  obtain ⟨m₀, hm₀⟩ := List.exists_mem_of_ne_nil _ hm.interleaved
  -- the highest of the lowest bits will do
  have hne : r.masksLsb.toFinset.Nonempty := ⟨_, mem_masksLsb.2 ⟨m₀, hm₀, rfl⟩⟩
  obtain ⟨p, hp, hmax⟩ := r.masksLsb.toFinset.exists_max_image id hne
  obtain ⟨m, hmem, rfl⟩ := mem_masksLsb.1 hp
  have hbit := (hm.lsb hmem).2.1
  exact ⟨ctz64 m + 1, fun q hq => Nat.lt_succ_of_le (hmax q hq), h.start_dvd m hmem _ hbit,
    h.end_dvd m hmem _ hbit⟩

section Offset

variable {t s e : ℕ}

theorem range_iff (hs : r.start = 2 ^ t * s) (he : r.end_ = 2 ^ t * e) :
    (r.start ≤ a ∧ a < r.end_) ↔ s ≤ a / 2 ^ t ∧ a / 2 ^ t < e := by
  rw [hs, he, Nat.le_div_iff_mul_le (Nat.two_pow_pos t), Nat.div_lt_iff_lt_mul (Nat.two_pow_pos t),
    Nat.mul_comm s, Nat.mul_comm e]

section

variable (h : r.MasksDisjoint)
include h

theorem member_size (hal : r.Aligned) (ht : ∀ p ∈ r.masksLsb.toFinset, p < t)
    (hs : r.start = 2 ^ t * s) (he : r.end_ = 2 ^ t * e) :
    (r.member k).size = 2 ^ (t - r.masks.length) * (e - s) := by
  have hcard : r.masks.length ≤ t := by
    rw [← h.card_lsb]
    simpa using Finset.card_le_card (fun q hq => Finset.mem_range.2 (ht q hq))
  have hpow : 2 ^ t = 2 ^ r.masks.length * 2 ^ (t - r.masks.length) := by
    rw [← pow_add, Nat.add_sub_cancel' hcard]
  show usub r.end_ r.start >>> r.masks.length = _
  rw [usub_of_le hal.le hal.end_lt, Nat.shiftRight_eq_div_pow, hs, he, ← Nat.mul_sub, hpow,
    Nat.mul_assoc, Nat.mul_div_cancel_left _ (Nat.two_pow_pos _)]

theorem start_squeezed (ht : ∀ p ∈ r.masksLsb.toFinset, p < t) (hs : r.start = 2 ^ t * s)
    (hb : Squeezed r.masksLsb.toFinset r.start b) : b = 2 ^ (t - r.masks.length) * s := by
  have hdiv := hb.div ht
  obtain ⟨c, hc⟩ := hb.low ht ⟨s, hs⟩
  rw [h.card_lsb] at hdiv hc
  rw [hc, Nat.mul_div_cancel_left _ (Nat.two_pow_pos _), hs,
    Nat.mul_div_cancel_left _ (Nat.two_pow_pos _)] at hdiv
  rw [hc, hdiv]

theorem offset_iff (ht : ∀ p ∈ r.masksLsb.toFinset, p < t) (hs : r.start = 2 ^ t * s)
    (he : r.end_ = 2 ^ t * e) (hb : Squeezed r.masksLsb.toFinset a b) : (r.start ≤ a ∧ a < r.end_) ↔
      2 ^ (t - r.masks.length) * s ≤ b ∧
        b < 2 ^ (t - r.masks.length) * s + 2 ^ (t - r.masks.length) * (e - s) := by
  have hdiv := hb.div ht
  rw [h.card_lsb] at hdiv
  have hpos := Nat.two_pow_pos (t - r.masks.length)
  rw [range_iff hs he, ← hdiv, Nat.le_div_iff_mul_le hpos, Nat.div_lt_iff_lt_mul hpos,
    Nat.mul_comm s, Nat.mul_comm e]
  refine and_congr_right fun hle => ?_
  rcases Nat.le_total s e with hse | hes
  · rw [← Nat.mul_add, Nat.add_sub_cancel' hse]
  · have hes' := Nat.mul_le_mul_left (2 ^ (t - r.masks.length)) hes
    rw [Nat.sub_eq_zero_of_le hes]
    omega

theorem getOffset_member (ha : r.start ≤ a ∧ a < r.end_) :
    (r.member k).getOffset a = (do
      return usub (← r.removeIntlvBits a) (← r.removeIntlvBits r.start)) :=
  (if_pos ha).trans (if_pos (decide_eq_true (List.length_pos_of_ne_nil h.interleaved)))

theorem getOffset_eq (hend : r.end_ < 2 ^ 64) {c : ℕ} (ha : r.start ≤ a ∧ a < r.end_)
    (hb : r.removeIntlvBits a = .ok b) (hc : r.removeIntlvBits r.start = .ok c) (hle : c ≤ b) :
    (r.member k).getOffset a = .ok (b - c) := by
  have hlt : b < 2 ^ 64 := by
    have hsq := (h.remove_squeezed (ha.2.trans hend) hb).lt h.lsb_lt (ha.2.trans hend)
    exact hsq.trans_le (Nat.pow_le_pow_right two_pos (Nat.sub_le _ _))
  rw [getOffset_member h ha, hb, Sim.ok_bind, hc, Sim.ok_bind, Sim.pure_eq, usub_of_le hle hlt]

end

end Offset

theorem MasksDisjoint.striped (h : r.MasksDisjoint) (hal : r.Aligned)
    (h01 : ¬ (0 ∈ r.masks.map ctz64 ∧ 1 ∈ r.masks.map ctz64)) : r.Striped := by
  obtain ⟨t, ht, ⟨s, hs⟩, e, he⟩ := hal.exists_top h
  have hstart : r.start < 2 ^ 64 := hal.le.trans_lt hal.end_lt
  obtain ⟨c, hc⟩ := h.exists_remove h01 hstart
  obtain rfl := start_squeezed h ht hs (h.remove_squeezed hstart hc)
  have hsize : ∀ k, (r.member k).size = 2 ^ (t - r.masks.length) * (e - s) := fun k =>
    member_size h hal ht hs he
  refine ⟨fun a ha => ⟨r.sel a, ⟨r.sel_lt a, member_contains.2 ⟨ha, rfl⟩⟩, ?_⟩, ?_, ?_⟩
  · rintro k ⟨-, hk⟩
    exact (member_contains.1 hk).2.symm
  · intro k hk a ha
    obtain ⟨hin, -⟩ := member_contains.1 ha
    obtain ⟨b, hb⟩ := h.exists_remove h01 (hin.2.trans hal.end_lt)
    have hsq := h.remove_squeezed (hin.2.trans hal.end_lt) hb
    obtain ⟨hle, hlt⟩ := (offset_iff h ht hs he hsq).1 hin
    exact ⟨_, by rw [hsize]; omega, getOffset_eq h hal.end_lt hin hb hc hle⟩
  · intro k hk o ho
    rw [hsize] at ho
    obtain ⟨a, hsq, hsel⟩ := (h.member hk).exists_addr (2 ^ (t - r.masks.length) * s + o)
    have hin : r.start ≤ a ∧ a < r.end_ := (offset_iff h ht hs he hsq).2 ⟨by omega, by omega⟩
    have halt := hin.2.trans hal.end_lt
    obtain ⟨b, hb⟩ := h.exists_remove h01 halt
    obtain rfl := (h.remove_squeezed halt hb).right_unique hsq
    refine ⟨a, ⟨member_contains.2 ⟨hin, hsel⟩, ?_⟩, ?_⟩
    · rw [getOffset_eq h hal.end_lt hin hb hc (by omega), Nat.add_sub_cancel_left]
    · -- another address with the offset keeps the same bits, and has the same selector bits
      rintro a' ⟨ha', hoff⟩
      obtain ⟨hin', hsel'⟩ := member_contains.1 ha'
      have halt' := hin'.2.trans hal.end_lt
      obtain ⟨b', hb'⟩ := h.exists_remove h01 halt'
      have hsq' := h.remove_squeezed halt' hb'
      obtain ⟨hle', -⟩ := (offset_iff h ht hs he hsq').1 hin'
      rw [getOffset_eq h hal.end_lt hin' hb' hc hle', Except.ok.injEq] at hoff
      obtain rfl : b' = 2 ^ (t - r.masks.length) * s + o := by omega
      exact h.addr_unique hsq' hsq (hsel'.trans hsel.symm)

/-- A group whose bounds are multiples of twice each bit of its masks shares out the addresses, and
each of its ranges numbers its own without a gap, unless there are addresses and bits 0 and 1 are
both the lowest of a mask. -/
theorem interleaved_striped_iff (r : AddrRange) (h : r.MasksDisjoint) (hal : r.Aligned) :
    r.Striped ↔ r.start = r.end_ ∨ ¬ (0 ∈ r.masks.map ctz64 ∧ 1 ∈ r.masks.map ctz64) := by
  constructor
  · intro hst
    by_contra hcon
    rw [not_or, not_not] at hcon
    obtain ⟨hne, h0, h1⟩ := hcon
    have hin : r.start ≤ r.start ∧ r.start < r.end_ := ⟨le_rfl, lt_of_le_of_ne hal.le hne⟩
    obtain ⟨o, -, ho⟩ := hst.offset _ (r.sel_lt r.start) _ (member_contains.2 ⟨hin, rfl⟩)
    rw [getOffset_member h hin] at ho
    obtain ⟨b, hb, -⟩ := Sim.bind_eq_ok.1 ho
    exact h.remove_error h0 h1 b hb
  · rintro (heq | h01)
    · -- there are no addresses, and the ranges have no size
      have hsize : ∀ k, (r.member k).size = 0 := by
        intro k
        show usub r.end_ r.start >>> r.masks.length = 0
        rw [heq, usub_of_le le_rfl hal.end_lt, Nat.sub_self, Nat.zero_shiftRight]
      refine ⟨fun a ha => by omega, fun k _ a ha => ?_, fun k _ o ho => ?_⟩
      · have := (member_contains.1 ha).1
        omega
      · rw [hsize] at ho
        omega
    · exact h.striped hal h01

/-- Eight channels of a memory of a megabyte share out its addresses. -/
theorem interleaved_striped_iff_eightChannels :
    (⟨0, 0x100000, [0x100, 0x1200, 0x400], 5⟩ : AddrRange).Striped :=
  (interleaved_striped_iff _ ⟨by decide, by decide, by decide, by decide, by decide, by decide⟩
    (aligned_of_lt (t := 13) (by decide) (by decide) (by decide) (by decide) (by decide))).2
    (.inr (by decide))

/-- Four ranges that take turns byte by byte: an offset is an assertion that fails. -/
theorem byteStripes_fail :
    (⟨0, 0x100, [1, 2], 0⟩ : AddrRange).MasksDisjoint ∧
      (⟨0, 0x100, [1, 2], 0⟩ : AddrRange).Aligned ∧
      (⟨0, 0x100, [1, 2], 0⟩ : AddrRange).contains 4 = true ∧
      (⟨0, 0x100, [1, 2], 0⟩ : AddrRange).getOffset 4
        = .error (.assertion "(first - last) >= 0") :=
  ⟨⟨by decide, by decide, by decide, by decide, by decide, by decide⟩,
    aligned_of_lt (t := 2) (by decide) (by decide) (by decide) (by decide) (by decide),
    by decide, by decide⟩

end AddrRange

end Gem5Nvm
