import Mathlib.Data.Finset.Card
import Mathlib.Algebra.Order.Group.Nat
import Mathlib.Tactic.Ring

/-!
# Counting in blocks of powers of two

The block `k` of size `2 ^ l` is the set of the `i` with `i / 2 ^ l = k`; it is the union of the
blocks `2 * k` and `2 * k + 1` of half the size. `blockCount` counts the members of a finite set in
a block, `aboveCount` those in the block of `r` that are above `r`.
-/

namespace Gem5Nvm.Blocks

open Finset (mem_filter filter_eq' mem_union)

def blockCount (s : Finset ℕ) (l k : ℕ) : ℕ := (s.filter fun i => i / 2 ^ l = k).card

def aboveCount (s : Finset ℕ) (r l : ℕ) : ℕ :=
  (s.filter fun i => r < i ∧ i / 2 ^ l = r / 2 ^ l).card

variable {s t : Finset ℕ} {l k r i : ℕ}

theorem div_pow_succ (i l : ℕ) : i / 2 ^ (l + 1) = i / 2 ^ l / 2 := by
  rw [pow_succ, Nat.div_div_eq_div_mul]

theorem blockCount_congr (h : ∀ i, i / 2 ^ l = k → (i ∈ s ↔ i ∈ t)) :
    blockCount s l k = blockCount t l k := by
  unfold blockCount
  congr 1
  ext i
  simp only [mem_filter]
  constructor
  · rintro ⟨hi, hk⟩
    exact ⟨(h i hk).1 hi, hk⟩
  · rintro ⟨hi, hk⟩
    exact ⟨(h i hk).2 hi, hk⟩

theorem blockCount_eq_zero : blockCount s l k = 0 ↔ ∀ i, i / 2 ^ l = k → i ∉ s := by
  unfold blockCount
  rw [Finset.card_eq_zero, Finset.filter_eq_empty_iff]
  exact ⟨fun h i hk hi => h hi hk, fun h i hi hk => h i hk hi⟩

theorem blockCount_zero : blockCount s 0 k = if k ∈ s then 1 else 0 := by
  unfold blockCount
  simp only [pow_zero, Nat.div_one]
  split_ifs with h
  · rw [filter_eq', if_pos h, Finset.card_singleton]
  · rw [filter_eq', if_neg h, Finset.card_empty]

theorem blockCount_succ :
    blockCount s (l + 1) k = blockCount s l (2 * k) + blockCount s l (2 * k + 1) := by
  unfold blockCount
  rw [← Finset.card_union_of_disjoint]
  · congr 1
    ext i
    simp only [mem_union, mem_filter, div_pow_succ]
    constructor
    · rintro ⟨hi, hk⟩
      rcases Nat.mod_two_eq_zero_or_one (i / 2 ^ l) with h | h
      · exact .inl ⟨hi, by omega⟩
      · exact .inr ⟨hi, by omega⟩
    · rintro (⟨hi, hk⟩ | ⟨hi, hk⟩)
      · exact ⟨hi, by omega⟩
      · exact ⟨hi, by omega⟩
  · rw [Finset.disjoint_left]
    intro i hi hi'
    have h1 := (mem_filter.1 hi).2
    have h2 := (mem_filter.1 hi').2
    omega

theorem blockCount_le (s : Finset ℕ) (l k : ℕ) : blockCount s l k ≤ 2 ^ l := by
  induction l generalizing k with
  | zero =>
    rw [blockCount_zero]
    split_ifs <;> simp
  | succ l ih =>
    have h1 := ih (2 * k)
    have h2 := ih (2 * k + 1)
    rw [blockCount_succ, pow_succ]
    omega

theorem aboveCount_zero : aboveCount s r 0 = 0 := by
  unfold aboveCount
  rw [Finset.card_eq_zero, Finset.filter_eq_empty_iff]
  rintro i - ⟨h1, h2⟩
  simp only [pow_zero, Nat.div_one] at h2
  omega

theorem aboveCount_succ_left (h : r / 2 ^ l % 2 = 0) :
    aboveCount s r (l + 1) = aboveCount s r l + blockCount s l (r / 2 ^ l + 1) := by
  unfold aboveCount blockCount
  rw [← Finset.card_union_of_disjoint]
  · congr 1
    ext i
    simp only [mem_union, mem_filter, div_pow_succ]
    have hmono : i ≤ r → i / 2 ^ l ≤ r / 2 ^ l := fun hle => Nat.div_le_div_right hle
    constructor
    · rintro ⟨hi, hr, hk⟩
      have hle : r / 2 ^ l ≤ i / 2 ^ l := Nat.div_le_div_right hr.le
      rcases Nat.mod_two_eq_zero_or_one (i / 2 ^ l) with hm | hm
      · exact .inl ⟨hi, hr, by omega⟩
      · exact .inr ⟨hi, by omega⟩
    · rintro (⟨hi, hr, hk⟩ | ⟨hi, hk⟩)
      · exact ⟨hi, hr, by omega⟩
      · exact ⟨hi, by omega, by omega⟩
  · rw [Finset.disjoint_left]
    intro i hi hi'
    have h1 := (mem_filter.1 hi).2.2
    have h2 := (mem_filter.1 hi').2
    omega

theorem aboveCount_succ_right (h : r / 2 ^ l % 2 = 1) :
    aboveCount s r (l + 1) = aboveCount s r l := by
  unfold aboveCount
  congr 1
  ext i
  simp only [mem_filter, div_pow_succ]
  constructor
  · rintro ⟨hi, hr, hk⟩
    have hle : r / 2 ^ l ≤ i / 2 ^ l := Nat.div_le_div_right hr.le
    exact ⟨hi, hr, by omega⟩
  · rintro ⟨hi, hr, hk⟩
    exact ⟨hi, hr, by rw [hk]⟩

theorem aboveCount_of_lt (hr : r < 2 ^ l) (hs : ∀ i ∈ s, i < 2 ^ l) :
    aboveCount s r l = (s.filter fun i => r < i).card := by
  unfold aboveCount
  congr 1
  ext i
  simp only [mem_filter]
  constructor
  · rintro ⟨hi, h, -⟩
    exact ⟨hi, h⟩
  · rintro ⟨hi, h⟩
    exact ⟨hi, h, by rw [Nat.div_eq_of_lt (hs i hi), Nat.div_eq_of_lt hr]⟩

end Gem5Nvm.Blocks
