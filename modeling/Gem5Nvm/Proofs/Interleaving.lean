import Gem5Nvm.Interleaving
import Gem5Nvm.Lib.Squeeze
import Gem5Nvm.Proofs.AddrRange

/-!
# When the interleaving bits of an address can be removed and added again

The rounds of `removeIntlvBits` delete the lowest bit of each mask (`removeFold_squeezed`). The
first loop of `addIntlvBits` makes room for the `i`-th of them `i` positions too high: for the
second mask this puts the same bits in place, from the third on it does not. The second loop gives
each mask the parity of its selector bit unless `~(1 << lsb)` has lost the upper half of the
address.
-/

namespace Gem5Nvm

open Squeeze
open List (foldlM_cons forall_mem_cons length_cons mem_map zipIdx_cons)
open Nat (testBit_or testBit_and testBit_shiftLeft testBit_eq_false_of_lt testBit_two_pow_of_ne
  testBit_zero)
open Finset (mem_range mem_insert mem_filter empty_union)

theorem testBit_u64 (x j : ℕ) : (u64 x).testBit j = (decide (j < 64) && x.testBit j) :=
  Nat.testBit_mod_two_pow x 64 j

theorem testBit_mask (n j : ℕ) : (mask n).testBit j = (decide (j < 64) && decide (j < n)) := by
  unfold mask
  split_ifs with h
  · rw [Nat.testBit_two_pow_sub_one]
    by_cases hj : j < 64
    · simp [hj, hj.trans_le h]
    · simp [hj]
  · rw [Nat.testBit_two_pow_sub_one]
    by_cases hj : j < n
    · simp [hj, hj.trans (not_le.1 h)]
    · simp [hj]

theorem testBit_unot {x : ℕ} (h : x < 2 ^ 64) (j : ℕ) :
    (unot x).testBit j = (decide (j < 64) && !x.testBit j) := by
  unfold unot
  rw [Nat.sub_sub, Nat.add_comm, Nat.testBit_two_pow_sub_succ h]

theorem insertBits_ok (val bitVal : ℕ) {first last : ℕ} (h : last ≤ first) :
    ∃ x, insertBits val first last bitVal = .ok x ∧ ∀ j, x.testBit j =
      (decide (j < 64) &&
        if last ≤ j ∧ j ≤ first then bitVal.testBit (j - last) else val.testBit j) := by
  have hassert : assert (decide ((first : ℤ) - last ≥ 0)) "(first - last) >= 0" = .ok () := by
    rw [assert_eq_ok]
    simpa using h
  have hn : ((first : ℤ) - last + 1).toNat = first - last + 1 := by omega
  unfold insertBits
  rw [hassert]
  refine ⟨_, rfl, fun j => ?_⟩
  rw [hn, Int.toNat_natCast, testBit_or, testBit_and, testBit_and,
    testBit_unot (u64_lt _), testBit_u64, testBit_u64, testBit_shiftLeft,
    testBit_shiftLeft, testBit_mask]
  by_cases hj : j < 64
  · by_cases h1 : last ≤ j
    · have h2 : j - last < 64 := by omega
      by_cases h3 : j ≤ first
      · have h4 : j - last < first - last + 1 := by omega
        simp [hj, h1, h2, h3, h4]
      · have h4 : ¬ j - last < first - last + 1 := by omega
        simp [hj, h1, h3, h4]
    · simp [hj, h1]
  · simp [hj]

theorem insertBits_error {val bitVal : ℕ} {first last : ℤ} (h : first < last) :
    insertBits val first last bitVal = .error (.assertion "(first - last) >= 0") := by
  have hneg : ¬ first - last ≥ 0 := by omega
  unfold insertBits assert
  rw [decide_eq_false hneg]
  rfl

section PopCount

variable {x y l : ℕ}

theorem popCount_eq_card (x : ℕ) :
    popCount x = ((Finset.range 64).filter fun i => x.testBit i = true).card := by
  unfold popCount
  rw [← List.toFinset_range, ← List.toFinset_filter, List.toFinset_card_of_nodup]
  exact List.nodup_range.filter _

theorem popCount_congr (h : ∀ i < 64, x.testBit i = y.testBit i) : popCount x = popCount y := by
  rw [popCount_eq_card, popCount_eq_card]
  congr 1
  apply Finset.filter_congr
  intro i hi
  rw [h i (mem_range.1 hi)]

theorem popCount_split (hl : l < 64) (hy : y.testBit l = false)
    (h : ∀ i < 64, i ≠ l → x.testBit i = y.testBit i) :
    popCount x = popCount y + (x.testBit l).toNat := by
  rw [popCount_eq_card, popCount_eq_card]
  cases hx : x.testBit l with
  | false =>
    rw [← popCount_eq_card, ← popCount_eq_card]
    refine popCount_congr fun i hi => ?_
    by_cases hil : i = l
    · rw [hil, hx, hy]
    · exact h i hi hil
  | true =>
    have hins : (Finset.range 64).filter (fun i => x.testBit i = true) =
        insert l ((Finset.range 64).filter fun i => y.testBit i = true) := by
      ext i
      rw [mem_insert, mem_filter, mem_filter, mem_range]
      by_cases hil : i = l
      · simp [hil, hx, hl]
      · simp only [hil, false_or]
        refine and_congr_right fun hi => ?_
        rw [h i hi hil]
    rw [hins, Finset.card_insert_of_notMem (by simp [hy])]
    rfl

theorem popCount_zero : popCount 0 = 0 := by simp [popCount]

end PopCount

variable {m : ℕ}

theorem ctz64_spec (hlt : m < 2 ^ 64) (hne : m ≠ 0) :
    ctz64 m < 64 ∧ m.testBit (ctz64 m) = true ∧ ∀ j < ctz64 m, m.testBit j = false := by
  obtain ⟨i, hi⟩ := Nat.exists_testBit_of_ne_zero hne
  have hi64 : i < 64 := by
    by_contra h
    rw [testBit_eq_false_of_lt (hlt.trans_le (Nat.pow_le_pow_right two_pos (not_lt.1 h)))] at hi
    cases hi
  cases hfind : (List.range 64).find? fun i => m.testBit i with
  | none =>
    rw [List.find?_eq_none] at hfind
    exact absurd hi (hfind i (List.mem_range.2 hi64))
  | some k =>
    have hk : ctz64 m = k := by simp [ctz64, hfind]
    rw [List.find?_range_eq_some] at hfind
    rw [hk]
    refine ⟨List.mem_range.1 hfind.2.1, hfind.1, fun j hj => ?_⟩
    simpa using hfind.2.2 j hj

namespace AddrRange

section Remove

variable {a p i : ℕ} {P : Finset ℕ} {ps : List ℕ}

theorem removeIntlvBit_ok (ha : a < 2 ^ 64) (h : p = 0 ∨ i < p) :
    ∃ x, removeIntlvBit a (p, i) = .ok x ∧ x < 2 ^ 64 ∧
      ∀ j, x.testBit j = a.testBit (if j < p - i then j else j + 1) := by
  have hhigh : ∀ k, 64 ≤ k → a.testBit k = false := fun k hk =>
    testBit_eq_false_of_lt (ha.trans_le (Nat.pow_le_pow_right two_pos hk))
  rcases Nat.eq_zero_or_pos p with rfl | hp
  · refine ⟨a >>> 1, rfl, (Nat.shiftRight_le a 1).trans_lt ha, fun j => ?_⟩
    rw [Nat.testBit_shiftRight, if_neg (by omega), Nat.add_comm]
  · have hi : i < p := by omega
    have hcast : (p : ℤ) - i - 1 = ((p - i - 1 : ℕ) : ℤ) := by omega
    obtain ⟨x, hx, hbit⟩ := insertBits_ok (a >>> 1) a (Nat.zero_le (p - i - 1))
    refine ⟨x, ?_, Nat.lt_pow_two_of_testBit _ fun j hj => ?_, fun j => ?_⟩
    · rw [removeIntlvBit, if_pos hp, hcast]
      exact hx
    · rw [hbit, decide_eq_false (by omega), Bool.false_and]
    · rw [hbit, Nat.testBit_shiftRight, Nat.sub_zero, Nat.add_comm 1 j]
      by_cases hj : j < 64
      · by_cases hlow : j < p - i
        · simp [hj, hlow, show j ≤ p - i - 1 by omega]
        · simp [hj, hlow, show ¬ j ≤ p - i - 1 by omega]
      · split_ifs <;> simp [hj, hhigh j (by omega), hhigh (j + 1) (by omega)]

theorem removeIntlvBit_error (hp : 0 < p) (hi : p ≤ i) :
    removeIntlvBit a (p, i) = .error (.assertion "(first - last) >= 0") := by
  rw [removeIntlvBit, if_pos hp, insertBits_error (by omega)]

theorem card_lt_of_below (h : ∀ q ∈ P, q < p) (h01 : ¬ (0 ∈ insert p P ∧ 1 ∈ insert p P)) :
    p = 0 ∨ P.card < p := by
  by_contra hcon
  rw [not_or, not_lt] at hcon
  have hsub : P ⊆ Finset.range p := fun q hq => mem_range.2 (h q hq)
  have heq : P = Finset.range p := Finset.eq_of_subset_of_card_le hsub (by simpa using hcon.2)
  apply h01
  rw [heq, mem_insert, mem_insert, mem_range, mem_range]
  omega

/-- The bits `ps` are to be deleted, in ascending order, after the bits `P`. -/
structure Above (P : Finset ℕ) (ps : List ℕ) : Prop where
  above : ∀ q ∈ P, ∀ p ∈ ps, q < p
  sorted : ps.Pairwise (· < ·)

theorem Above.lt_head (h : Above P (p :: ps)) : ∀ q ∈ P, q < p :=
  fun q hq => h.above q hq p List.mem_cons_self

theorem Above.next (h : Above P (p :: ps)) : Above (insert p P) ps := by
  refine ⟨fun q hq k hk => ?_, h.sorted.of_cons⟩
  rcases mem_insert.1 hq with rfl | hq
  · exact List.rel_of_pairwise_cons h.sorted hk
  · exact h.above q hq k (List.mem_cons_of_mem _ hk)

theorem Above.card_insert (h : Above P (p :: ps)) : (insert p P).card = P.card + 1 :=
  Finset.card_insert_of_notMem fun hmem => (h.lt_head p hmem).false

theorem insert_union_toFinset : insert p P ∪ ps.toFinset = P ∪ (p :: ps).toFinset := by
  rw [List.toFinset_cons, Finset.insert_union, Finset.union_insert]

theorem removeFold_squeezed : ∀ {ps : List ℕ} {P : Finset ℕ} {b b' : ℕ}, Above P ps →
    Squeezed P a b → b < 2 ^ 64 → (ps.zipIdx P.card).foldlM removeIntlvBit b = .ok b' →
    Squeezed (P ∪ ps.toFinset) a b'
  | [], P, b, b', _, hsq, _, h => by
    simp only [List.zipIdx_nil, List.foldlM_nil, Sim.pure_eq, Except.ok.injEq] at h
    simpa [← h] using hsq
  | p :: ps, P, b, b', habove, hsq, hb, h => by
    rw [zipIdx_cons, foldlM_cons, Sim.bind_eq_ok] at h
    obtain ⟨c, hc, hrest⟩ := h
    by_cases hp : p = 0 ∨ P.card < p
    · obtain ⟨x, hx, hlt, hbit⟩ := removeIntlvBit_ok hb hp
      obtain rfl : x = c := Except.ok.inj (hx.symm.trans hc)
      rw [← habove.card_insert] at hrest
      rw [← insert_union_toFinset]
      exact removeFold_squeezed habove.next (hsq.remove habove.lt_head hbit) hlt hrest
    · rw [not_or, not_lt] at hp
      rw [removeIntlvBit_error (Nat.pos_of_ne_zero hp.1) hp.2] at hc
      cases hc

theorem removeFold_total : ∀ {ps : List ℕ} {P : Finset ℕ} {b : ℕ}, Above P ps → b < 2 ^ 64 →
    ¬ (0 ∈ P ∪ ps.toFinset ∧ 1 ∈ P ∪ ps.toFinset) →
    ∃ b', (ps.zipIdx P.card).foldlM removeIntlvBit b = .ok b'
  | [], P, b, _, _, _ => ⟨b, rfl⟩
  | p :: ps, P, b, habove, hb, h01 => by
    rw [← insert_union_toFinset] at h01
    have hp : p = 0 ∨ P.card < p := card_lt_of_below habove.lt_head fun h =>
      h01 ⟨Finset.mem_union_left _ h.1, Finset.mem_union_left _ h.2⟩
    obtain ⟨x, hx, hlt, -⟩ := removeIntlvBit_ok hb hp
    obtain ⟨b', hb'⟩ := removeFold_total habove.next hlt h01
    refine ⟨b', ?_⟩
    rw [zipIdx_cons, foldlM_cons, hx, Sim.ok_bind, ← habove.card_insert]
    exact hb'

end Remove

section Add

variable {a b p i k : ℕ} {P : Finset ℕ}

theorem addIntlvBit_ok (ha : a < 2 ^ k) (hk : k < 64) :
    ∃ x, addIntlvBit a (p, i) = .ok x ∧ x < 2 ^ (k + 1) ∧
      ∀ j, x.testBit j =
        if j < (if p = 0 then 0 else p + i) then a.testBit j
        else decide (0 < j) && a.testBit (j - 1) := by
  have hhigh : ∀ j, k ≤ j → a.testBit j = false := fun j hj =>
    testBit_eq_false_of_lt (ha.trans_le (Nat.pow_le_pow_right two_pos hj))
  have hshift : ∀ j, (u64 (a <<< 1)).testBit j = (decide (0 < j) && a.testBit (j - 1)) := by
    intro j
    rw [testBit_u64, testBit_shiftLeft]
    by_cases hj : j < 64
    · simp [hj, Nat.one_le_iff_ne_zero, Nat.pos_iff_ne_zero]
    · simp [hj, hhigh (j - 1) (by omega)]
  suffices hbits : ∃ x, addIntlvBit a (p, i) = .ok x ∧ ∀ j, x.testBit j =
      if j < (if p = 0 then 0 else p + i) then a.testBit j
      else decide (0 < j) && a.testBit (j - 1) by
    obtain ⟨x, hx, hbit⟩ := hbits
    refine ⟨x, hx, Nat.lt_pow_two_of_testBit _ fun j hj => ?_, hbit⟩
    rw [hbit, hhigh j (by omega), hhigh (j - 1) (by omega), Bool.and_false, ite_self]
  rcases Nat.eq_zero_or_pos p with rfl | hp
  · exact ⟨u64 (a <<< 1), rfl, fun j => by simp [hshift]⟩
  · have hcast : (p : ℤ) + i - 1 = ((p + i - 1 : ℕ) : ℤ) := by omega
    obtain ⟨x, hx, hbit⟩ := insertBits_ok (u64 (a <<< 1)) a (Nat.zero_le (p + i - 1))
    refine ⟨x, ?_, fun j => ?_⟩
    · rw [addIntlvBit, if_pos hp, hcast]
      exact hx
    · rw [hbit, hshift, if_neg hp.ne', Nat.sub_zero]
      by_cases hj : j < 64
      · by_cases hlow : j < p + i
        · simp [hj, hlow, show j ≤ p + i - 1 by omega]
        · simp [hj, hlow, show ¬ j ≤ p + i - 1 by omega]
      · simp [hj, hhigh j (by omega), hhigh (j - 1) (by omega)]

theorem addFold_lt : ∀ (ps : List ℕ) (n : ℕ) {k a : ℕ}, a < 2 ^ k → k + ps.length ≤ 64 →
    ∃ x, (ps.zipIdx n).foldlM addIntlvBit a = .ok x ∧ x < 2 ^ (k + ps.length)
  | [], _, k, a, ha, _ => ⟨a, rfl, ha⟩
  | p :: ps, n, k, a, ha, hk => by
    rw [length_cons] at hk
    obtain ⟨x, hx, hlt, -⟩ := addIntlvBit_ok (p := p) (i := n) ha (by omega)
    obtain ⟨y, hy, hylt⟩ := addFold_lt ps (n + 1) hlt (by omega)
    refine ⟨y, ?_, ?_⟩
    · rw [zipIdx_cons, foldlM_cons, hx, Sim.ok_bind, hy]
    · rwa [length_cons, Nat.add_comm ps.length, ← Nat.add_assoc]

theorem addFold_squeezed : ∀ {ps : List ℕ} {P : Finset ℕ} {k a : ℕ}, Above P ps →
    Squeezed P a b → P.card + ps.length ≤ 2 → a < 2 ^ k → k + ps.length ≤ 64 →
    ∃ x, (ps.zipIdx P.card).foldlM addIntlvBit a = .ok x ∧ Squeezed (P ∪ ps.toFinset) x b
  | [], P, k, a, _, hsq, _, _, _ => ⟨a, rfl, by simpa using hsq⟩
  | p :: ps, P, k, a, habove, hsq, hcard, ha, hk => by
    rw [length_cons] at hk hcard
    obtain ⟨x, hx, hlt, hbit⟩ := addIntlvBit_ok (p := p) (i := P.card) ha (by omega)
    have hplace : (if p = 0 then 0 else p + P.card) = p ∨
        (if p = 0 then 0 else p + P.card) = p + 1 := by
      split_ifs <;> omega
    obtain ⟨y, hy, hsq'⟩ := addFold_squeezed habove.next (hsq.widen habove.lt_head hplace hbit)
      (by rw [habove.card_insert]; omega) hlt (by omega)
    refine ⟨y, ?_, ?_⟩
    · rw [zipIdx_cons, foldlM_cons, hx, Sim.ok_bind, ← habove.card_insert, hy]
    · rwa [← insert_union_toFinset]

theorem addFold_stuck {ps : List ℕ} {d x : ℕ} (hps : 2 ≤ ps.length) (hp : p < 63)
    (hd : d + ps.length = p) (h : ((ps ++ [p]).zipIdx).foldlM addIntlvBit (2 ^ d) = .ok x) :
    x.testBit (p + 1) = false := by
  obtain ⟨y, hy, hlt⟩ := addFold_lt ps 0 (k := d + 1)
    (Nat.pow_lt_pow_right one_lt_two (Nat.lt_succ_self d)) (by omega)
  rw [show d + 1 + ps.length = p + 1 by omega] at hlt
  obtain ⟨z, hz, -, hbit⟩ := addIntlvBit_ok (p := p) (i := ps.length) hlt (by omega)
  rw [List.zipIdx_append, List.foldlM_append, hy, Sim.ok_bind, zipIdx_cons, List.zipIdx_nil,
    Nat.zero_add, foldlM_cons, hz] at h
  obtain rfl : z = x := by simpa using h
  rw [hbit, if_pos (by rw [if_neg (by omega)]; omega)]
  exact testBit_eq_false_of_lt hlt

end Add

section Set

variable {r : AddrRange} {a a' m i c : ℕ}

theorem notLsb_testBit (hl : i < 32) :
    ∃ c, notLsb i = .ok c ∧ c.testBit i = false ∧
      ∀ j < 64, j ≠ i → c.testBit j = (decide (i < 31) || decide (j < 31)) := by
  unfold notLsb
  rw [if_neg (by omega)]
  split_ifs with h31
  · refine ⟨_, rfl, ?_, fun j _ _ => ?_⟩
    · rw [Nat.testBit_two_pow_sub_one, h31, decide_eq_false (by omega)]
    · rw [Nat.testBit_two_pow_sub_one]
      simp [h31]
  · have hlt : 2 ^ i < 2 ^ 64 := Nat.pow_lt_pow_right one_lt_two (by omega)
    refine ⟨_, rfl, ?_, fun j hj hne => ?_⟩
    · rw [testBit_unot hlt, Nat.testBit_two_pow_self, Bool.not_true, Bool.and_false]
    · rw [testBit_unot hlt, testBit_two_pow_of_ne hne.symm, decide_eq_true hj,
        decide_eq_true (by omega)]
      rfl

/-- The lowest bit of the mask `m` is what the second loop of `addIntlvBits` makes it. -/
def Settled (r : AddrRange) (a : ℕ) : ℕ × ℕ → Prop
  | (m, i) => ∃ c, notLsb (ctz64 m) = .ok c ∧
    a.testBit (ctz64 m) = (r.intlvMatch.testBit i ^^ (popCount (a &&& m &&& c)).testBit 0)

theorem Settled.congr (h : r.Settled a (m, i)) (hm : m.testBit (ctz64 m) = true)
    (ha : ∀ j, m.testBit j = true → a'.testBit j = a.testBit j) : r.Settled a' (m, i) := by
  obtain ⟨c, hc, hbit⟩ := h
  refine ⟨c, hc, ?_⟩
  have hpop : popCount (a' &&& m &&& c) = popCount (a &&& m &&& c) := by
    refine popCount_congr fun j _ => ?_
    simp only [testBit_and]
    cases hmj : m.testBit j with
    | false => simp
    | true => rw [ha j hmj]
  rw [ha _ hm, hbit, hpop]

theorem testBit_bits (x i : ℕ) : (bits x i).testBit 0 = x.testBit i := by
  rw [bits, testBit_and, Nat.testBit_shiftRight, testBit_mask]
  simp

theorem setIntlvBit_ok (ha : a < 2 ^ 64) (hl : ctz64 m < 32) :
    ∃ x, r.setIntlvBit a (m, i) = .ok x ∧ x < 2 ^ 64 ∧ r.Settled x (m, i) ∧
      ∀ j, j ≠ ctz64 m → x.testBit j = a.testBit j := by
  obtain ⟨c, hc, hclear, -⟩ := notLsb_testBit hl
  obtain ⟨x, hx, hbit⟩ := insertBits_ok a (bits r.intlvMatch i ^^^ popCount (a &&& m &&& c))
    (le_refl (ctz64 m))
  have hoff : ∀ j, j ≠ ctz64 m → x.testBit j = a.testBit j := by
    intro j hj
    rw [hbit, if_neg (by omega)]
    by_cases h64 : j < 64
    · simp [h64]
    · simp [h64, testBit_eq_false_of_lt
        (ha.trans_le (Nat.pow_le_pow_right two_pos (not_lt.1 h64)))]
  have hpop : popCount (x &&& m &&& c) = popCount (a &&& m &&& c) := by
    refine popCount_congr fun j _ => ?_
    simp only [testBit_and]
    by_cases hj : j = ctz64 m
    · rw [hj, hclear, Bool.and_false, Bool.and_false]
    · rw [hoff j hj]
  refine ⟨x, ?_, Nat.lt_pow_two_of_testBit _ fun j hj => ?_, ⟨c, hc, ?_⟩, hoff⟩
  · rw [setIntlvBit, hc]
    exact hx
  · rw [hbit, decide_eq_false (by omega), Bool.false_and]
  · rw [hbit, if_pos ⟨le_rfl, le_rfl⟩, Nat.sub_self, Nat.testBit_xor, testBit_bits, hpop,
      decide_eq_true (by omega), Bool.true_and]

theorem setIntlvBit_error (hl : 32 ≤ ctz64 m) :
    r.setIntlvBit a (m, i) = .error (.undefined "1 << lsb") := by
  rw [setIntlvBit, notLsb, if_pos hl]
  rfl

variable {ms : List ℕ} {k : ℕ}

theorem setFold_total : ∀ {ms : List ℕ} {k a : ℕ}, (∀ m ∈ ms, ctz64 m < 32) → a < 2 ^ 64 →
    ∃ a', (ms.zipIdx k).foldlM r.setIntlvBit a = .ok a'
  | [], _, a, _, _ => ⟨a, rfl⟩
  | m :: ms, k, a, hms, ha => by
    rw [forall_mem_cons] at hms
    obtain ⟨x, hx, hlt, -, -⟩ := setIntlvBit_ok (r := r) (i := k) ha hms.1
    obtain ⟨a', h⟩ := setFold_total (k := k + 1) hms.2 hlt
    exact ⟨a', by rw [zipIdx_cons, foldlM_cons, hx, Sim.ok_bind, h]⟩

/-- What the second loop leaves: a bit that is not the lowest of a mask is as before. -/
structure SetAll (r : AddrRange) (ms : List ℕ) (k a a' : ℕ) : Prop where
  lsb_lt : ∀ m ∈ ms, ctz64 m < 32
  lt : a' < 2 ^ 64
  off : ∀ j, (∀ m ∈ ms, j ≠ ctz64 m) → a'.testBit j = a.testBit j
  settled : ∀ mi ∈ ms.zipIdx k, r.Settled a' mi

theorem setFold_setAll : ∀ {ms : List ℕ} {k a a' : ℕ},
    (∀ m ∈ ms, m.testBit (ctz64 m) = true) → ms.Pairwise (fun m n => m &&& n = 0) →
    a < 2 ^ 64 → (ms.zipIdx k).foldlM r.setIntlvBit a = .ok a' → r.SetAll ms k a a'
  | [], k, a, a', _, _, ha, h => by
    obtain rfl : a = a' := by simpa using h
    exact ⟨by simp, ha, fun _ _ => rfl, by simp⟩
  | m :: ms, k, a, a', hms, hdis, ha, h => by
    rw [forall_mem_cons] at hms
    rw [zipIdx_cons, foldlM_cons, Sim.bind_eq_ok] at h
    obtain ⟨x, hx, hrest⟩ := h
    have hl : ctz64 m < 32 := by
      by_contra hl
      rw [setIntlvBit_error (not_lt.1 hl)] at hx
      cases hx
    obtain ⟨y, hy, hlt, hset, hoff⟩ := setIntlvBit_ok (r := r) (i := k) ha hl
    obtain rfl : y = x := Except.ok.inj (hy.symm.trans hx)
    have ih := setFold_setAll hms.2 hdis.of_cons hlt hrest
    -- the masks to come are disjoint from `m`, so the bits of `m` stay
    have hkeep : ∀ j, m.testBit j = true → a'.testBit j = y.testBit j := by
      intro j hj
      refine ih.off j fun n hn hjn => ?_
      have hzero := congrArg (Nat.testBit · j) (List.rel_of_pairwise_cons hdis hn)
      rw [hjn] at hj
      simp [hjn, hj, hms.2 n hn] at hzero
    refine ⟨?_, ih.lt, fun j hj => ?_, ?_⟩
    · rw [forall_mem_cons]
      exact ⟨hl, ih.lsb_lt⟩
    · rw [forall_mem_cons] at hj
      rw [ih.off j hj.2, hoff j hj.1]
    · rw [zipIdx_cons, forall_mem_cons]
      exact ⟨hset.congr hms.1 hkeep, ih.settled⟩

end Set

section Sel

variable {r : AddrRange} {a a' m i : ℕ}

theorem foldl_sel_low (a : ℕ) : ∀ {masks : List ℕ} {k acc j : ℕ}, j < k →
    ((masks.zipIdx k).foldl (fun s m => s ||| (popCount (a &&& m.1) % 2) <<< m.2) acc).testBit j =
      acc.testBit j
  | [], _, _, _, _ => rfl
  | m :: masks, k, acc, j, hj => by
    rw [zipIdx_cons, List.foldl_cons, foldl_sel_low a (by omega), testBit_or,
      testBit_shiftLeft, decide_eq_false (by omega), Bool.false_and, Bool.or_false]

theorem foldl_sel_testBit (a : ℕ) : ∀ {masks : List ℕ} {k acc : ℕ}, acc < 2 ^ k →
    ∀ mi ∈ masks.zipIdx k,
      ((masks.zipIdx k).foldl (fun s m => s ||| (popCount (a &&& m.1) % 2) <<< m.2) acc).testBit
        mi.2 = (popCount (a &&& mi.1)).testBit 0
  | [], _, _, _ => by simp
  | m :: masks, k, acc, hacc => by
    rw [zipIdx_cons, forall_mem_cons, List.foldl_cons]
    refine ⟨?_, foldl_sel_testBit a (or_bit_lt hacc)⟩
    rw [foldl_sel_low a (Nat.lt_succ_self k), testBit_or, testBit_eq_false_of_lt hacc,
      testBit_shiftLeft, decide_eq_true le_rfl, Nat.sub_self, Bool.false_or, Bool.true_and,
      testBit_zero, testBit_zero, Nat.mod_mod]

theorem testBit_sel (r : AddrRange) (a : ℕ) {mi : ℕ × ℕ} (h : mi ∈ r.masks.zipIdx) :
    (r.sel a).testBit mi.2 = (popCount (a &&& mi.1)).testBit 0 :=
  foldl_sel_testBit a (by simp) mi h

theorem sel_eq_iff (hr : r.intlvMatch < 2 ^ r.masks.length) :
    r.sel a = r.intlvMatch ↔
      ∀ mi ∈ r.masks.zipIdx, (popCount (a &&& mi.1)).testBit 0 = r.intlvMatch.testBit mi.2 := by
  refine ⟨fun h mi hmi => by rw [← testBit_sel r a hmi, h], fun h => ?_⟩
  apply Nat.eq_of_testBit_eq
  intro i
  by_cases hi : i < r.masks.length
  · have hmem : (r.masks[i], i) ∈ r.masks.zipIdx := by
      rw [List.mem_zipIdx_iff_getElem?]
      exact List.getElem?_eq_getElem hi
    rw [testBit_sel r a hmem, h _ hmem]
  · have hpow := Nat.pow_le_pow_right two_pos (not_lt.1 hi)
    rw [testBit_eq_false_of_lt ((r.sel_lt a).trans_le hpow),
      testBit_eq_false_of_lt (hr.trans_le hpow)]

theorem testBit_zero_add (n : ℕ) (b : Bool) : (n + b.toNat).testBit 0 = (n.testBit 0 ^^ b) := by
  rw [testBit_zero, testBit_zero]
  cases b <;> rcases Nat.mod_two_eq_zero_or_one n with h | h <;> simp [Nat.add_mod, h]

theorem parity_split {y : ℕ} (hl : i < 64) (hm : m.testBit i = true) (hy : y.testBit i = false)
    (h : ∀ j < 64, j ≠ i → (a &&& m).testBit j = y.testBit j) :
    (popCount (a &&& m)).testBit 0 = ((popCount y).testBit 0 ^^ a.testBit i) := by
  rw [popCount_split hl hy h, testBit_zero_add, testBit_and, hm, Bool.and_true]

theorem Settled.parity (h : r.Settled a (m, i)) (hlt : m < 2 ^ 64) (hne : m ≠ 0)
    (hlow : ctz64 m < 31 ∨ m = 2 ^ 31) :
    (popCount (a &&& m)).testBit 0 = r.intlvMatch.testBit i := by
  obtain ⟨h64, hbit, hbelow⟩ := ctz64_spec hlt hne
  have hl : ctz64 m < 32 := by
    rcases hlow with hlow | hlow
    · omega
    · rw [hlow]
      decide
  obtain ⟨c, hc, hset⟩ := h
  obtain ⟨c', hc', hclear, hkeep⟩ := notLsb_testBit hl
  obtain rfl : c = c' := Except.ok.inj (hc.symm.trans hc')
  rw [parity_split h64 hbit (y := a &&& m &&& c) (by rw [testBit_and, hclear, Bool.and_false])
    fun j hj hji => ?_, hset]
  · cases r.intlvMatch.testBit i <;> cases (popCount (a &&& m &&& c)).testBit 0 <;> rfl
  · rw [testBit_and (a &&& m), hkeep j hj hji]
    rcases hlow with hlow | hlow
    · simp [hlow]
    · have hself : ctz64 m = 31 := by
        rw [hlow]
        decide
      have hone : m.testBit j = false := by
        rw [hlow, testBit_two_pow_of_ne]
        omega
      simp [hone]

theorem Settled.sign (h : r.Settled a (m, i)) (h31 : ctz64 m = 31)
    (hbelow : ∀ j < 31, m.testBit j = false) : a.testBit 31 = r.intlvMatch.testBit i := by
  obtain ⟨c, hc, hset⟩ := h
  rw [h31] at hc hset
  obtain ⟨c', hc', hclear, hkeep⟩ := notLsb_testBit (i := 31) (by decide)
  obtain rfl : c = c' := Except.ok.inj (hc.symm.trans hc')
  have hzero : popCount (a &&& m &&& c) = popCount 0 := by
    refine popCount_congr fun j hj => ?_
    rw [testBit_and, testBit_and, Nat.zero_testBit]
    by_cases hj31 : j = 31
    · rw [hj31, hclear, Bool.and_false]
    · rw [hkeep j hj hj31]
      by_cases hlow : j < 31
      · simp [hbelow j hlow]
      · simp [hlow]
  rw [hset, hzero, popCount_zero]
  simp

end Sel

section RoundTrip

variable {r : AddrRange} {a b : ℕ}

theorem mem_masksLsb {p : ℕ} : p ∈ r.masksLsb.toFinset ↔ ∃ m ∈ r.masks, ctz64 m = p := by
  rw [masksLsb, List.mem_toFinset, (List.perm_insertionSort _ _).mem_iff, mem_map]

theorem length_masksLsb : r.masksLsb.length = r.masks.length := by
  rw [masksLsb, List.length_insertionSort, List.length_map]

theorem sorted_zero_one : ∀ {l : List ℕ}, l.Pairwise (· < ·) → 0 ∈ l → 1 ∈ l →
    ∃ rest, l = 0 :: 1 :: rest
  | [], _, h, _ => by simp at h
  | [p], _, h0, h1 => by
    rw [List.mem_singleton] at h0 h1
    omega
  | p :: q :: rest, hl, h0, h1 => by
    have hpq : p < q := List.rel_of_pairwise_cons hl List.mem_cons_self
    have hrest : ∀ k ∈ rest, q < k := fun k hk => List.rel_of_pairwise_cons hl.of_cons hk
    have hp : p = 0 := by
      rcases List.mem_cons.1 h0 with h | h
      · exact h.symm
      · rcases List.mem_cons.1 h with h | h
        · omega
        · have := hrest 0 h
          omega
    have hq : q = 1 := by
      rcases List.mem_cons.1 h1 with h | h
      · omega
      · rcases List.mem_cons.1 h with h | h
        · exact h.symm
        · have := hrest 1 h
          omega
    exact ⟨rest, by rw [hp, hq]⟩

theorem popCount_two_pow {j : ℕ} (hj : j < 64) : popCount (2 ^ j) = 1 := by
  rw [popCount_split hj (Nat.zero_testBit j) fun i _ hi => by
    rw [testBit_two_pow_of_ne hi.symm, Nat.zero_testBit], popCount_zero,
    Nat.testBit_two_pow_self]
  rfl

namespace MasksDisjoint

section

variable (h : r.MasksDisjoint)
include h

theorem lsb (hm : m ∈ r.masks) :
    ctz64 m < 64 ∧ m.testBit (ctz64 m) = true ∧ ∀ j < ctz64 m, m.testBit j = false :=
  ctz64_spec (h.mask_lt m hm) (h.mask_ne m hm)

theorem eq_of_testBit {m n j : ℕ} (hm : m ∈ r.masks) (hn : n ∈ r.masks) (hmj : m.testBit j = true)
    (hnj : n.testBit j = true) : m = n := by
  by_contra hne
  have hsymm : Std.Symm fun m n : ℕ => m &&& n = 0 := ⟨fun x y hxy => by rwa [Nat.and_comm]⟩
  have hzero : m &&& n = 0 := h.disjoint.forall hm hn hne
  have hbit := congrArg (Nat.testBit · j) hzero
  simp [hmj, hnj] at hbit

theorem notMem_lsb {m j : ℕ} (hm : m ∈ r.masks) (hmj : m.testBit j = true) (hj : j ≠ ctz64 m) :
    j ∉ r.masksLsb.toFinset := by
  intro hmem
  obtain ⟨n, hn, rfl⟩ := mem_masksLsb.1 hmem
  exact hj (by rw [h.eq_of_testBit hm hn hmj (h.lsb hn).2.1])

theorem above : Above ∅ r.masksLsb := by
  have hnodup : (r.masks.map ctz64).Nodup := by
    refine List.pairwise_map.2 (h.disjoint.imp_of_mem fun {m n} hm hn hmn heq => ?_)
    have hbit := congrArg (Nat.testBit · (ctz64 n)) hmn
    rw [show (m &&& n).testBit (ctz64 n) = (m.testBit (ctz64 m) && n.testBit (ctz64 n)) by
      rw [testBit_and, heq], (h.lsb hm).2.1, (h.lsb hn).2.1, Nat.zero_testBit] at hbit
    cases hbit
  refine ⟨by simp, ?_⟩
  have hne : r.masksLsb.Nodup := (List.perm_insertionSort _ _).nodup_iff.2 hnodup
  exact ((List.pairwise_insertionSort (· ≤ ·) _).and hne).imp fun hpq => lt_of_le_of_ne hpq.1 hpq.2

theorem card_lsb : r.masksLsb.toFinset.card = r.masks.length := by
  rw [List.toFinset_card_of_nodup (h.above.sorted.imp ne_of_lt), length_masksLsb]

theorem lsb_lt : ∀ p ∈ r.masksLsb.toFinset, p < 64 := by
  intro p hp
  obtain ⟨m, hm, rfl⟩ := mem_masksLsb.1 hp
  exact (h.lsb hm).1

theorem length_le_64 : r.masks.length ≤ 64 := by
  rw [← h.card_lsb]
  simpa using Finset.card_le_card fun p hp => mem_range.2 (h.lsb_lt p hp)

theorem remove_squeezed (ha : a < 2 ^ 64) (hb : r.removeIntlvBits a = .ok b) :
    Squeezed r.masksLsb.toFinset a b := by
  simpa using removeFold_squeezed h.above (squeezed_empty a) ha hb

theorem add_setAll (hb : b < 2 ^ (64 - r.masks.length)) (ha : r.addIntlvBits b = .ok a) :
    ∃ c, r.masksLsb.zipIdx.foldlM addIntlvBit b = .ok c ∧ r.SetAll r.masks 0 c a := by
  have hlen := h.length_le_64
  unfold addIntlvBits at ha
  rw [Sim.bind_eq_ok] at ha
  obtain ⟨c, hc, hset⟩ := ha
  obtain ⟨x, hx, hlt⟩ := addFold_lt r.masksLsb 0 hb
    (by rw [length_masksLsb]; omega)
  obtain rfl : x = c := Except.ok.inj (hx.symm.trans hc)
  refine ⟨x, hx, setFold_setAll (fun m hm => (h.lsb hm).2.1) h.disjoint (hlt.trans_le ?_) hset⟩
  rw [length_masksLsb]
  exact Nat.pow_le_pow_right two_pos (by omega)

end

theorem setAll_off {c : ℕ} (hset : r.SetAll r.masks 0 c a) :
    ∀ j ∉ r.masksLsb.toFinset, a.testBit j = c.testBit j := by
  intro j hj
  refine hset.off j fun m hm hjm => hj ?_
  exact mem_masksLsb.2 ⟨m, hm, hjm.symm⟩

section

variable (h : r.MasksDisjoint)
include h

theorem add_squeezed (hfew : r.masks.length ≤ 2) (hb : b < 2 ^ (64 - r.masks.length))
    (ha : r.addIntlvBits b = .ok a) : Squeezed r.masksLsb.toFinset a b := by
  obtain ⟨c, hc, hset⟩ := h.add_setAll hb ha
  obtain ⟨x, hx, hsq⟩ := addFold_squeezed h.above (squeezed_empty b)
    (by rwa [Finset.card_empty, length_masksLsb, Nat.zero_add]) hb (by rw [length_masksLsb]; omega)
  obtain rfl : x = c := Except.ok.inj (hx.symm.trans hc)
  rw [empty_union] at hsq
  exact hsq.congr (setAll_off hset)

theorem exists_add (hlow : ∀ m ∈ r.masks, ctz64 m < 32) (hb : b < 2 ^ (64 - r.masks.length)) :
    ∃ a, r.addIntlvBits b = .ok a := by
  have hlen := h.length_le_64
  obtain ⟨c, hc, hlt⟩ := addFold_lt r.masksLsb 0 hb
    (by rw [length_masksLsb]; omega)
  obtain ⟨a, ha⟩ := setFold_total (r := r) (k := 0) hlow (a := c)
    (hlt.trans_le (Nat.pow_le_pow_right two_pos (by rw [length_masksLsb]; omega)))
  exact ⟨a, by rw [addIntlvBits, hc]; exact ha⟩

theorem addr_unique {a' : ℕ} (ha : Squeezed r.masksLsb.toFinset a b)
    (ha' : Squeezed r.masksLsb.toFinset a' b) (hsel : r.sel a = r.sel a') : a = a' := by
  refine ha.left_unique ha' fun p hp => ?_
  obtain ⟨m, hm, rfl⟩ := mem_masksLsb.1 hp
  obtain ⟨h64, hbit, -⟩ := h.lsb hm
  obtain ⟨i, hi, rfl⟩ := List.getElem_of_mem hm
  have hmem : (r.masks[i], i) ∈ r.masks.zipIdx :=
    List.mem_zipIdx_iff_getElem?.2 (List.getElem?_eq_getElem hi)
  have hpar : (popCount (a &&& r.masks[i])).testBit 0 =
      (popCount (a' &&& r.masks[i])).testBit 0 := by
    rw [← testBit_sel r a hmem, ← testBit_sel r a' hmem, hsel]
  have hclear := testBit_unot
    (Nat.pow_lt_pow_right one_lt_two h64 : 2 ^ ctz64 r.masks[i] < 2 ^ 64)
  -- the rest of the mask is the same in both
  have hrest : ∀ x, Squeezed r.masksLsb.toFinset x b → ∀ j < 64, j ≠ ctz64 r.masks[i] →
      (x &&& r.masks[i]).testBit j =
        (a &&& r.masks[i] &&& unot (2 ^ ctz64 r.masks[i])).testBit j := by
    intro x hx j hj hne
    rw [testBit_and, testBit_and, testBit_and, hclear,
      testBit_two_pow_of_ne hne.symm, decide_eq_true hj]
    cases hmj : r.masks[i].testBit j with
    | false => simp
    | true =>
      have hnot := h.notMem_lsb hm hmj hne
      rw [hx j hnot, ha j hnot]
      simp
  have hlsb : (a &&& r.masks[i] &&& unot (2 ^ ctz64 r.masks[i])).testBit (ctz64 r.masks[i]) =
      false := by
    rw [testBit_and, hclear, Nat.testBit_two_pow_self]
    simp
  rw [parity_split h64 hbit hlsb (hrest a ha), parity_split h64 hbit hlsb (hrest a' ha')] at hpar
  simpa using hpar

theorem roundTrips (hlow : r.Low) : r.RoundTrips := by
  have hlsb : ∀ m ∈ r.masks, ctz64 m < 32 := by
    intro m hm
    rcases hlow.lsb m hm with hl | rfl
    · omega
    · decide
  have hadd : ∀ b < 2 ^ (64 - r.masks.length), ∃ a, r.addIntlvBits b = .ok a ∧ a < 2 ^ 64 ∧
      Squeezed r.masksLsb.toFinset a b ∧ r.sel a = r.intlvMatch := by
    intro b hb
    obtain ⟨a, ha⟩ := h.exists_add hlsb hb
    obtain ⟨c, -, hset⟩ := h.add_setAll hb ha
    refine ⟨a, ha, hset.lt, h.add_squeezed hlow.length_le hb ha, ?_⟩
    rw [sel_eq_iff h.match_lt]
    intro mi hmi
    have hm : mi.1 ∈ r.masks := List.fst_mem_of_mem_zipIdx hmi
    exact (hset.settled mi hmi).parity (h.mask_lt _ hm) (h.mask_ne _ hm) (hlow.lsb _ hm)
  have hremove : ∀ a < 2 ^ 64, ∃ b, r.removeIntlvBits a = .ok b := by
    intro a ha
    refine removeFold_total h.above ha fun h01 => hlow.apart ?_
    simpa only [empty_union, mem_masksLsb, mem_map] using h01
  refine ⟨fun a ha hsel => ?_, fun b hb => ?_⟩
  · obtain ⟨b, hb⟩ := hremove a ha
    have hsq := h.remove_squeezed ha hb
    have hblt := hsq.lt h.lsb_lt ha
    rw [h.card_lsb] at hblt
    obtain ⟨a', ha', -, hsq', hsel'⟩ := hadd b hblt
    rw [hb, Sim.ok_bind, ha', h.addr_unique hsq hsq' (hsel.trans hsel'.symm)]
  · obtain ⟨a, ha, hlt, hsq, hsel⟩ := hadd b hb
    obtain ⟨b', hb'⟩ := hremove a hlt
    refine ⟨a, ha, hsel, ?_⟩
    rw [hb', hsq.right_unique (h.remove_squeezed hlt hb')]

theorem lsb_lt_of_roundTrips (hrt : r.RoundTrips) : ∀ m ∈ r.masks, ctz64 m < 32 := by
  obtain ⟨a, ha, -, -⟩ := hrt.channel 0 (Nat.two_pow_pos _)
  obtain ⟨c, -, hset⟩ := h.add_setAll (Nat.two_pow_pos _) ha
  exact hset.lsb_lt

theorem length_le_of_roundTrips (hrt : r.RoundTrips) : r.masks.length ≤ 2 := by
  by_contra hcon
  have hlsb := h.lsb_lt_of_roundTrips hrt
  rcases List.eq_nil_or_concat r.masksLsb with hnil | ⟨ps, p, hps⟩
  · have := length_masksLsb (r := r)
    simp [hnil] at this
    omega
  rw [List.concat_eq_append] at hps
  have hlen : ps.length + 1 = r.masks.length := by
    rw [← length_masksLsb, hps, List.length_append]
    rfl
  have hsorted := h.above.sorted
  rw [hps, List.pairwise_append] at hsorted
  have hbelow : ∀ q ∈ ps, q < p := fun q hq => hsorted.2.2 q hq p (by simp)
  have hple : ps.length ≤ p := by
    rw [← List.toFinset_card_of_nodup (hsorted.1.imp ne_of_lt)]
    simpa using Finset.card_le_card fun q hq => mem_range.2 (hbelow q (by simpa using hq))
  have hp : p < 32 := by
    obtain ⟨m, hm, rfl⟩ := mem_masksLsb.1 (show p ∈ r.masksLsb.toFinset by simp [hps])
    exact hlsb m hm
  have habove : ∀ q ∈ r.masksLsb.toFinset, q < p + 1 := by
    intro q hq
    rw [hps, List.mem_toFinset, List.mem_append, List.mem_singleton] at hq
    rcases hq with hq | rfl
    · exact (hbelow q hq).trans (Nat.lt_succ_self p)
    · exact Nat.lt_succ_self q
  have hb : 2 ^ (p - ps.length) < 2 ^ (64 - r.masks.length) :=
    Nat.pow_lt_pow_right one_lt_two (by omega)
  obtain ⟨a, ha, -, hback⟩ := hrt.channel _ hb
  obtain ⟨c, hc, hset⟩ := h.add_setAll hb ha
  rw [hps] at hc
  have hstuck := addFold_stuck (by omega) (by omega) (by omega) hc
  have hsq := h.remove_squeezed hset.lt hback (p + 1) fun hmem => (habove _ hmem).false
  rw [setAll_off hset (p + 1) fun hmem => (habove _ hmem).false, hstuck, count_above habove,
    h.card_lsb, show p + 1 - r.masks.length = p - ps.length by omega,
    Nat.testBit_two_pow_self] at hsq
  cases hsq

theorem masksLsb_eq (h0 : 0 ∈ r.masks.map ctz64) (h1 : 1 ∈ r.masks.map ctz64) :
    ∃ rest, r.masksLsb = 0 :: 1 :: rest := by
  have hmem : ∀ p, p ∈ r.masks.map ctz64 → p ∈ r.masksLsb := by
    intro p hp
    rwa [masksLsb, (List.perm_insertionSort _ _).mem_iff]
  exact sorted_zero_one h.above.sorted (hmem 0 h0) (hmem 1 h1)

theorem apart_of_roundTrips (hrt : r.RoundTrips) :
    ¬ (0 ∈ r.masks.map ctz64 ∧ 1 ∈ r.masks.map ctz64) := by
  rintro ⟨h0, h1⟩
  obtain ⟨rest, hrest⟩ := h.masksLsb_eq h0 h1
  obtain ⟨a, -, -, hback⟩ := hrt.channel 0 (Nat.two_pow_pos _)
  rw [removeIntlvBits, hrest, zipIdx_cons, foldlM_cons, zipIdx_cons,
    Sim.bind_eq_ok] at hback
  obtain ⟨x, -, hx⟩ := hback
  rw [foldlM_cons, removeIntlvBit_error (by decide) (by decide)] at hx
  cases hx

theorem low_of_roundTrips (hrt : r.RoundTrips) (hm : m ∈ r.masks) : ctz64 m < 31 ∨ m = 2 ^ 31 := by
  by_contra hcon
  rw [not_or] at hcon
  have h31 : ctz64 m = 31 := by
    have := h.lsb_lt_of_roundTrips hrt m hm
    omega
  obtain ⟨-, hbit, hbelow⟩ := h.lsb hm
  rw [h31] at hbit hbelow
  -- a second bit of the mask
  obtain ⟨j, hmj, hj31⟩ : ∃ j, m.testBit j = true ∧ j ≠ 31 := by
    by_contra hone
    push Not at hone
    refine hcon.2 (Nat.eq_of_testBit_eq fun j => ?_)
    by_cases hj : j = 31
    · rw [hj, hbit, Nat.testBit_two_pow_self]
    · rw [testBit_two_pow_of_ne (Ne.symm hj)]
      cases hmj : m.testBit j with
      | false => rfl
      | true => exact absurd (hone j hmj) hj
  have hj64 : j < 64 := by
    by_contra hj
    rw [testBit_eq_false_of_lt
      ((h.mask_lt m hm).trans_le (Nat.pow_le_pow_right two_pos (not_lt.1 hj)))] at hmj
    cases hmj
  have hjP := h.notMem_lsb hm hmj (by rwa [h31])
  -- the channel address with just that bit
  have hcount : Nat.count (· ∉ r.masksLsb.toFinset) j < 64 - r.masks.length := by
    rw [← h.card_lsb, ← count_above h.lsb_lt]
    exact Nat.count_strict_mono hjP hj64
  have hb := Nat.pow_lt_pow_right one_lt_two hcount
  obtain ⟨a, ha, hsel, -⟩ := hrt.channel _ hb
  obtain ⟨c, -, hset⟩ := h.add_setAll hb ha
  have hsq := h.add_squeezed (h.length_le_of_roundTrips hrt) hb ha
  obtain ⟨i, hi, rfl⟩ := List.getElem_of_mem hm
  have hmem : (r.masks[i], i) ∈ r.masks.zipIdx :=
    List.mem_zipIdx_iff_getElem?.2 (List.getElem?_eq_getElem hi)
  have hsign := (hset.settled _ hmem).sign h31 hbelow
  have hpar := (sel_eq_iff h.match_lt).1 hsel _ hmem
  rw [parity_split (by decide) hbit (testBit_two_pow_of_ne hj31) fun k hk hk31 => ?_,
    popCount_two_pow hj64, hsign] at hpar
  · revert hpar
    cases r.intlvMatch.testBit i <;> decide
  · rw [testBit_and]
    cases hmk : r.masks[i].testBit k with
    | false =>
      rw [Bool.and_false, testBit_two_pow_of_ne]
      rintro rfl
      rw [hmk] at hmj
      cases hmj
    | true =>
      have hkP := h.notMem_lsb hm hmk (by rwa [h31])
      rw [hsq k hkP, Bool.and_true, Nat.testBit_two_pow, Nat.testBit_two_pow]
      exact decide_eq_decide.2 ⟨fun heq => Nat.count_injective hjP hkP heq, fun heq => by rw [heq]⟩

end

end MasksDisjoint

end RoundTrip

end AddrRange

/-- The interleaving bits come back, from both sides, exactly when there are at most two masks and
their lowest bits are low enough. -/
theorem intlv_bits_round_trip_iff (r : AddrRange) (h : r.MasksDisjoint) : r.RoundTrips ↔ r.Low :=
  ⟨fun hrt => ⟨h.length_le_of_roundTrips hrt, fun _ hm => h.low_of_roundTrips hrt hm,
    h.apart_of_roundTrips hrt⟩, h.roundTrips⟩

/-- The third of four channels, each selector bit the parity of two bits of the address. -/
def fourChannels : AddrRange := ⟨0, 0x10000, [0x1100, 0x2200], 2⟩

theorem intlv_bits_round_trip_iff_fourChannels : fourChannels.RoundTrips :=
  (intlv_bits_round_trip_iff fourChannels
    ⟨by decide, by decide, by decide, by decide, by decide, by decide⟩).2
    ⟨by decide, by decide, by decide⟩

/-- Eight channels, interleaved at bits 8 to 10. -/
def eightChannels : AddrRange := ⟨0, 0x10000, [0x100, 0x200, 0x400], 0⟩

/-- With three masks the bits do not come back: the address becomes 0. -/
theorem intlv_bits_lost : eightChannels.MasksDisjoint ∧
    eightChannels.sel 0x800 = eightChannels.intlvMatch ∧
    eightChannels.removeIntlvBits 0x800 >>= eightChannels.addIntlvBits = .ok 0 :=
  ⟨⟨by decide, by decide, by decide, by decide, by decide, by decide⟩, by decide, by decide⟩

end Gem5Nvm
