import Mathlib

/-!
# A shift register with feedback

The register holds `n` bits.  A step shifts them down by one and feeds the sum of the highest and
the lowest one back at the top (`next`); `prev` takes it back.  Both are linear, and since the
register runs through a sequence with `s (m + n) = s (m + n - 1) + s m`, the sum of a state and its
successor leads back to the state after `n - 1` steps (`iterate_next_xor`).
-/

namespace Lfsr

open Function (iterate_succ_apply' iterate_succ_apply)

variable {n x y k i : ℕ}

def next (n x : ℕ) : ℕ :=
  Nat.ofBits fun i : Fin n =>
    if i.val + 1 = n then x.testBit i ^^ x.testBit 0 else x.testBit (i + 1)

def prev (n x : ℕ) : ℕ :=
  Nat.ofBits fun i : Fin n =>
    if i.val = 0 then x.testBit (n - 2) ^^ x.testBit (n - 1) else x.testBit (i - 1)

theorem next_lt : next n x < 2 ^ n := Nat.ofBits_lt_two_pow _

theorem prev_lt : prev n x < 2 ^ n := Nat.ofBits_lt_two_pow _

theorem testBit_next (hi : i < n) : (next n x).testBit i =
    if i + 1 = n then x.testBit i ^^ x.testBit 0 else x.testBit (i + 1) :=
  Nat.testBit_ofBits_lt _ _ hi

theorem testBit_prev (hi : i < n) : (prev n x).testBit i =
    if i = 0 then x.testBit (n - 2) ^^ x.testBit (n - 1) else x.testBit (i - 1) :=
  Nat.testBit_ofBits_lt _ _ hi

theorem ext (hx : x < 2 ^ n) (hy : y < 2 ^ n) (h : ∀ i < n, x.testBit i = y.testBit i) : x = y := by
  refine Nat.eq_of_testBit_eq fun i => ?_
  rcases Nat.lt_or_ge i n with hi | hi
  · exact h i hi
  · have hpow := Nat.pow_le_pow_right two_pos hi
    rw [Nat.testBit_eq_false_of_lt (hx.trans_le hpow),
      Nat.testBit_eq_false_of_lt (hy.trans_le hpow)]

theorem prev_next (hn : 2 ≤ n) (hx : x < 2 ^ n) : prev n (next n x) = x := by
  refine ext prev_lt hx fun i hi => ?_
  rw [testBit_prev hi]
  split_ifs with h0
  · rw [testBit_next (by omega), testBit_next (by omega), if_neg (by omega), if_pos (by omega), h0,
      show n - 2 + 1 = n - 1 by omega, ← Bool.xor_assoc, Bool.xor_self, Bool.false_xor]
  · rw [testBit_next (by omega), if_neg (by omega), Nat.sub_add_cancel (by omega)]

theorem next_prev (hn : 2 ≤ n) (hx : x < 2 ^ n) : next n (prev n x) = x := by
  refine ext next_lt hx fun i hi => ?_
  rw [testBit_next hi]
  split_ifs with htop
  · rw [testBit_prev hi, testBit_prev (by omega), if_neg (by omega), if_pos rfl,
      show i - 1 = n - 2 by omega, ← Bool.xor_assoc, Bool.xor_self, Bool.false_xor,
      show n - 1 = i by omega]
  · rw [testBit_prev (by omega), if_neg (by omega), Nat.add_sub_cancel]

theorem next_xor : next n (x ^^^ y) = next n x ^^^ next n y := by
  refine ext next_lt (Nat.xor_lt_two_pow next_lt next_lt) fun i hi => ?_
  rw [Nat.testBit_xor, testBit_next hi, testBit_next hi, testBit_next hi]
  split_ifs
  · rw [Nat.testBit_xor, Nat.testBit_xor]
    simp only [Bool.xor_assoc, Bool.xor_left_comm]
  · rw [Nat.testBit_xor]

theorem iterate_next_lt (hx : x < 2 ^ n) (k : ℕ) : (next n)^[k] x < 2 ^ n := by
  rcases k with _ | k
  · exact hx
  · rw [iterate_succ_apply']
    exact next_lt

theorem iterate_prev_next (hn : 2 ≤ n) (hx : x < 2 ^ n) (k : ℕ) :
    (prev n)^[k] ((next n)^[k] x) = x := by
  induction k with
  | zero => rfl
  | succ k ih =>
    rw [iterate_succ_apply, iterate_succ_apply',
      prev_next hn (iterate_next_lt hx k), ih]

theorem iterate_xor (k : ℕ) : (next n)^[k] (x ^^^ y) = (next n)^[k] x ^^^ (next n)^[k] y := by
  induction k generalizing x y with
  | zero => rfl
  | succ k ih => rw [iterate_succ_apply, next_xor, ih, ← iterate_succ_apply,
      ← iterate_succ_apply]

theorem testBit_iterate (hi : i < n) (k : ℕ) :
    ((next n)^[k] x).testBit i = ((next n)^[k + i] x).testBit 0 := by
  induction i generalizing k with
  | zero => rfl
  | succ i ih =>
    have hshift : ((next n)^[k + 1] x).testBit i = ((next n)^[k] x).testBit (i + 1) := by
      rw [iterate_succ_apply', testBit_next (by omega), if_neg (by omega)]
    rw [← hshift, ih (by omega), Nat.add_right_comm, Nat.add_assoc]

theorem lowest_add (hn : 1 ≤ n) (k : ℕ) : ((next n)^[k + n] x).testBit 0
    = (((next n)^[k + (n - 1)] x).testBit 0 ^^ ((next n)^[k] x).testBit 0) := by
  have htop : ((next n)^[k + 1] x).testBit (n - 1)
      = (((next n)^[k] x).testBit (n - 1) ^^ ((next n)^[k] x).testBit 0) := by
    rw [iterate_succ_apply', testBit_next (by omega), if_pos (by omega)]
  rw [testBit_iterate (by omega) (k + 1), testBit_iterate (by omega : n - 1 < n) k] at htop
  rwa [show k + 1 + (n - 1) = k + n by omega] at htop

theorem iterate_next_xor (hn : 1 ≤ n) (hx : x < 2 ^ n) : (next n)^[n - 1] (next n x ^^^ x) = x := by
  have hlt := iterate_next_lt (Nat.xor_lt_two_pow (next_lt (x := x)) hx) (n - 1)
  refine ext hlt hx fun i hi => ?_
  rw [iterate_xor, ← iterate_succ_apply, Nat.testBit_xor, testBit_iterate hi,
    testBit_iterate hi, show (n - 1).succ + i = i + n by omega, Nat.add_comm (n - 1) i,
    lowest_add hn, Bool.xor_right_comm, Bool.xor_self, Bool.false_xor]
  exact (testBit_iterate hi 0).symm ▸ by rw [Nat.zero_add]

end Lfsr
