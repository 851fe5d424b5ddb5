import Gem5Nvm.Base

/-!
# Logarithms and powers of two

`floorLog2` halves the number of bits it looks at, and keeps the logarithm.
-/

namespace Gem5Nvm

section Log2

variable {x y s : ℕ}

theorem and_upper (hx : x < 2 ^ (2 * s)) : x &&& (2 ^ s - 1) * 2 ^ s = x / 2 ^ s * 2 ^ s := by
  have hdiv : x / 2 ^ s < 2 ^ s := by
    rw [Nat.div_lt_iff_lt_mul (Nat.two_pow_pos s), ← pow_add, ← two_mul]
    exact hx
  refine Nat.eq_of_testBit_eq fun j => ?_
  rw [Nat.testBit_and, Nat.testBit_mul_two_pow, Nat.testBit_mul_two_pow, Nat.testBit_div_two_pow]
  rcases Nat.lt_or_ge j s with hj | hj
  · simp [show ¬ s ≤ j by omega]
  · rw [Nat.testBit_two_pow_sub_one]
    rcases Nat.lt_or_ge (j - s) s with hjs | hjs
    · simp [hj, hjs]
    · have : x.testBit j = false := Nat.testBit_eq_false_of_lt
        (hx.trans_le (Nat.pow_le_pow_right two_pos (by omega)))
      simp [this, hj]

theorem log2Test_spec (hx : x < 2 ^ (2 * s)) (hpos : 0 < x) :
    ∃ y' x', log2Test (y, x) ((2 ^ s - 1) * 2 ^ s, s) = (y', x') ∧ x' < 2 ^ s ∧ 0 < x' ∧
      y' + Nat.log 2 x' = y + Nat.log 2 x := by
  have hpow := Nat.two_pow_pos s
  rw [log2Test, and_upper hx]
  rcases Nat.lt_or_ge x (2 ^ s) with hlt | hge
  · rw [Nat.div_eq_of_lt hlt, Nat.zero_mul, if_neg (by simp)]
    exact ⟨y, x, rfl, hlt, hpos, rfl⟩
  · have hdiv : 0 < x / 2 ^ s := Nat.div_pos hge hpow
    rw [if_pos (by positivity), Nat.shiftRight_eq_div_pow]
    refine ⟨_, _, rfl, ?_, hdiv, ?_⟩
    · rw [Nat.div_lt_iff_lt_mul hpow, ← pow_add, ← two_mul]
      exact hx
    · have hle : s ≤ Nat.log 2 x := Nat.le_log_of_pow_le one_lt_two hge
      dsimp only
      rw [Nat.log_div_base_pow]
      omega

theorem floorLog2_eq (hpos : 0 < x) (hx : x < 2 ^ 64) : floorLog2 x = .ok (Nat.log 2 x) := by
  obtain ⟨y₁, x₁, h₁, hlt₁, hpos₁, hlog₁⟩ := log2Test_spec (y := 0) (s := 32) hx hpos
  obtain ⟨y₂, x₂, h₂, hlt₂, hpos₂, hlog₂⟩ := log2Test_spec (y := y₁) (s := 16) hlt₁ hpos₁
  obtain ⟨y₃, x₃, h₃, hlt₃, hpos₃, hlog₃⟩ := log2Test_spec (y := y₂) (s := 8) hlt₂ hpos₂
  obtain ⟨y₄, x₄, h₄, hlt₄, hpos₄, hlog₄⟩ := log2Test_spec (y := y₃) (s := 4) hlt₃ hpos₃
  obtain ⟨y₅, x₅, h₅, hlt₅, hpos₅, hlog₅⟩ := log2Test_spec (y := y₄) (s := 2) hlt₄ hpos₄
  obtain ⟨y₆, x₆, h₆, hlt₆, hpos₆, hlog₆⟩ := log2Test_spec (y := y₅) (s := 1) hlt₅ hpos₅
  norm_num at h₁ h₂ h₃ h₄ h₅ h₆
  obtain rfl : x₆ = 1 := by omega
  rw [Nat.log_one_right] at hlog₆
  simp only [floorLog2, assert, hpos, decide_true, if_true, Sim.ok_bind, Sim.pure_eq,
    List.foldl_cons, List.foldl_nil, h₁, h₂, h₃, h₄, h₅, h₆]
  congr 1
  omega

theorem ceilLog2_eq (hpos : 0 < x) (hx : x < 2 ^ 64) : ceilLog2 x = .ok (Nat.clog 2 x) := by
  rw [ceilLog2]
  simp only [assert, hpos, decide_true, if_true, Sim.ok_bind]
  split_ifs with h1
  · rw [h1, Nat.clog_one_right, Sim.pure_eq]
  · rw [floorLog2_eq (by omega) (by omega), Sim.ok_bind, Sim.pure_eq]
    congr 1
    refine le_antisymm ?_ ?_
    · have := (Nat.lt_clog_iff_pow_lt one_lt_two (x := x)).2
        ((Nat.pow_log_le_self 2 (by omega : x - 1 ≠ 0)).trans_lt (by omega))
      omega
    · have := Nat.lt_pow_succ_log_self one_lt_two (x - 1)
      exact (Nat.clog_le_iff_le_pow one_lt_two).2 (by omega)

end Log2

theorem exists_two_pow_of_isPowerOf2 {n : ℕ} (h : isPowerOf2 n = true) : ∃ k, n = 2 ^ k := by
  rw [isPowerOf2, decide_eq_true_eq] at h
  exact (Nat.and_sub_one_eq_zero_iff_isPowerOfTwo h.1).1 h.2

end Gem5Nvm
