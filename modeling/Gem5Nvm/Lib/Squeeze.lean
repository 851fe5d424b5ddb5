import Mathlib

/-!
# Bits deleted from a number

`Squeezed P a b` says that `b` is `a` without the bits at the positions `P`: bit `j` of `a` is the
bit of `b` whose number is that of the positions below `j` outside `P`.
-/

namespace Squeeze

open Finset (mem_range mem_insert)

def Squeezed (P : Finset ℕ) (a b : ℕ) : Prop :=
  ∀ j ∉ P, a.testBit j = b.testBit (Nat.count (· ∉ P) j)

variable {P : Finset ℕ} {a a' b b' j p t k : ℕ}

theorem count_above (h : ∀ q ∈ P, q < j) : Nat.count (· ∉ P) j = j - P.card := by
  have hsub : P ⊆ Finset.range j := fun q hq => mem_range.2 (h q hq)
  have hfil : Finset.filter (· ∉ P) (Finset.range j) = Finset.range j \ P := by
    ext q
    simp
  rw [Nat.count_eq_card_filter_range, hfil, Finset.card_sdiff_of_subset hsub, Finset.card_range]

theorem count_insert (h : j ≤ p) : Nat.count (· ∉ insert p P) j = Nat.count (· ∉ P) j := by
  rw [Nat.count_eq_card_filter_range, Nat.count_eq_card_filter_range]
  congr 1
  apply Finset.filter_congr
  intro q hq
  have hne : q ≠ p := by
    have := mem_range.1 hq
    omega
  simp [hne]

theorem squeezed_empty (a : ℕ) : Squeezed ∅ a a := by
  intro j _
  rw [count_above (by simp)]
  simp

theorem Squeezed.remove (h : Squeezed P a b) (hp : ∀ q ∈ P, q < p)
    (hb : ∀ j, b'.testBit j = b.testBit (if j < p - P.card then j else j + 1)) :
    Squeezed (insert p P) a b' := by
  intro j hj
  rw [mem_insert, not_or] at hj
  rw [h j hj.2, hb]
  rcases Nat.lt_or_gt_of_ne hj.1 with hlt | hgt
  · have hcount : Nat.count (· ∉ P) j < p - P.card :=
      (Nat.count_strict_mono hj.2 hlt).trans_eq (count_above hp)
    rw [count_insert hlt.le, if_pos hcount]
  · have habove : ∀ q ∈ insert p P, q < j := by
      intro q hq
      rcases mem_insert.1 hq with rfl | hq
      · exact hgt
      · exact (hp q hq).trans hgt
    have hcard : P.card ≤ p := by
      simpa using Finset.card_le_card (fun q hq => mem_range.2 (hp q hq))
    have hnew : (insert p P).card = P.card + 1 :=
      Finset.card_insert_of_notMem fun hmem => (hp p hmem).false
    rw [count_above habove, count_above fun q hq => habove q (Finset.mem_insert_of_mem hq), hnew,
      if_neg (by omega)]
    congr 1
    omega

theorem Squeezed.widen (h : Squeezed P a b) (hp : ∀ q ∈ P, q < p) (ht : t = p ∨ t = p + 1)
    (ha : ∀ j, a'.testBit j = if j < t then a.testBit j else decide (0 < j) && a.testBit (j - 1)) :
    Squeezed (insert p P) a' b := by
  intro j hj
  rw [mem_insert, not_or] at hj
  rw [ha]
  rcases Nat.lt_or_gt_of_ne hj.1 with hlt | hgt
  · rw [if_pos (by omega), h j hj.2, count_insert hlt.le]
  · have hbelow : ∀ q ∈ P, q < j - 1 := fun q hq => (hp q hq).trans_le (by omega)
    have hnew : (insert p P).card = P.card + 1 :=
      Finset.card_insert_of_notMem fun hmem => (hp p hmem).false
    have habove : ∀ q ∈ insert p P, q < j := by
      intro q hq
      rcases mem_insert.1 hq with rfl | hq
      · exact hgt
      · exact (hbelow q hq).trans_le (Nat.sub_le _ _)
    rw [if_neg (by omega), h (j - 1) (fun hmem => (hbelow _ hmem).false), count_above hbelow,
      count_above habove, hnew, Nat.sub_sub, Nat.add_comm 1]
    simp [Nat.zero_lt_of_lt hgt]

theorem infinite_notMem (P : Finset ℕ) : {j | j ∉ P}.Infinite :=
  P.finite_toSet.infinite_compl

section

variable (h : Squeezed P a b)
include h

theorem Squeezed.exists_eq (k : ℕ) :
    ∃ j ∉ P, Nat.count (· ∉ P) j = k ∧ b.testBit k = a.testBit j := by
  have hmem : Nat.nth (· ∉ P) k ∉ P := Nat.nth_mem_of_infinite (infinite_notMem P) k
  have hcount := Nat.count_nth_of_infinite (infinite_notMem P) k
  refine ⟨_, hmem, hcount, ?_⟩
  rw [h _ hmem, hcount]

theorem Squeezed.right_unique (h' : Squeezed P a b') : b = b' := by
  apply Nat.eq_of_testBit_eq
  intro k
  obtain ⟨j, hj, rfl, hbit⟩ := h.exists_eq k
  rw [hbit, h' j hj]

theorem Squeezed.left_unique (h' : Squeezed P a' b) (hP : ∀ p ∈ P, a.testBit p = a'.testBit p) :
    a = a' := by
  apply Nat.eq_of_testBit_eq
  intro j
  by_cases hj : j ∈ P
  · exact hP j hj
  · rw [h j hj, h' j hj]

theorem Squeezed.congr (ha : ∀ j ∉ P, a'.testBit j = a.testBit j) :
    Squeezed P a' b := fun j hj => (ha j hj).trans (h j hj)

theorem Squeezed.lt (hP : ∀ q ∈ P, q < k) (ha : a < 2 ^ k) : b < 2 ^ (k - P.card) := by
  apply Nat.lt_pow_two_of_testBit
  intro i hi
  obtain ⟨j, hj, rfl, hbit⟩ := h.exists_eq i
  rw [hbit]
  apply Nat.testBit_eq_false_of_lt
  have hkj : k ≤ j := by
    by_contra hlt
    have := (Nat.count_strict_mono hj (not_le.1 hlt)).trans_eq (count_above hP)
    omega
  exact ha.trans_le (Nat.pow_le_pow_right two_pos hkj)

theorem Squeezed.div (hP : ∀ q ∈ P, q < k) : b / 2 ^ (k - P.card) = a / 2 ^ k := by
  have hcard : P.card ≤ k := by
    simpa using Finset.card_le_card (fun q hq => mem_range.2 (hP q hq))
  apply Nat.eq_of_testBit_eq
  intro i
  have hi : k + i ∉ P := fun hmem => absurd (hP _ hmem) (by omega)
  have habove : ∀ q ∈ P, q < k + i := fun q hq => (hP q hq).trans_le (Nat.le_add_right k i)
  rw [Nat.testBit_div_two_pow, Nat.testBit_div_two_pow, Nat.add_comm i k, h _ hi,
    count_above habove]
  congr 1
  omega

theorem Squeezed.low (hP : ∀ q ∈ P, q < k) (ha : 2 ^ k ∣ a) : 2 ^ (k - P.card) ∣ b := by
  have hzero : b % 2 ^ (k - P.card) = 0 := by
    apply Nat.eq_of_testBit_eq
    intro i
    rw [Nat.testBit_mod_two_pow, Nat.zero_testBit, Bool.and_eq_false_iff, decide_eq_false_iff_not]
    rcases Nat.lt_or_ge i (k - P.card) with hi | hi
    · obtain ⟨j, hj, rfl, hbit⟩ := h.exists_eq i
      have hjk : j < k := by
        by_contra hkj
        have := Nat.count_monotone (· ∉ P) (not_lt.1 hkj)
        rw [count_above hP] at this
        omega
      obtain ⟨c, rfl⟩ := ha
      exact .inr (hbit.trans (by simp [Nat.testBit_two_pow_mul, hjk]))
    · exact .inl (by omega)
  exact Nat.dvd_of_mod_eq_zero hzero

end

theorem exists_squeezed (P : Finset ℕ) (b : ℕ) (f : ℕ → Bool) :
    ∃ a, Squeezed P a b ∧ ∀ p ∈ P, a.testBit p = f p := by
  let g : ℕ → Bool := fun j => if j ∈ P then f j else b.testBit (Nat.count (· ∉ P) j)
  have hP : ∀ q ∈ P, q < P.sup id + 1 := fun q hq => Nat.lt_succ_of_le (Finset.le_sup (f := id) hq)
  let n := P.sup id + 1 + P.card + b
  have hbit : ∀ j, (Nat.ofBits fun i : Fin n => g i).testBit j = g j := by
    intro j
    rcases Nat.lt_or_ge j n with hj | hj
    · rw [Nat.testBit_ofBits_lt _ _ hj]
    · have hbelow : ∀ q ∈ P, q < j := fun q hq => (hP q hq).trans_le (by omega)
      have hout : j ∉ P := fun hmem => (hbelow j hmem).false
      have hlt : b < 2 ^ (j - P.card) :=
        Nat.lt_two_pow_self.trans_le (Nat.pow_le_pow_right two_pos (by omega))
      rw [Nat.testBit_ofBits_ge _ _ hj]
      simp only [g, if_neg hout, count_above hbelow]
      exact (Nat.testBit_eq_false_of_lt hlt).symm
  refine ⟨Nat.ofBits fun i : Fin n => g i, fun j hj => ?_, fun p hp => ?_⟩
  · rw [hbit]
    exact if_neg hj
  · rw [hbit]
    exact if_pos hp

end Squeeze
