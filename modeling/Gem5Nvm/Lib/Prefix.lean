import Mathlib

/-!
# Prefixes of bit vectors

`Agree l a b` says that the first `l` bits of `a` and `b`, from the most significant one on, are the
same, and `mask w l` is the vector that has these bits set.  Comparing two vectors under a mask
(`and_mask_eq_iff`) or two masks (`mask_and_mask_eq_iff`) is comparing prefixes, and `extend` makes a
mask one bit longer.
-/

namespace Prefix

variable {w l l' i : ℕ} {a b c : BitVec w}

def Agree (l : ℕ) (a b : BitVec w) : Prop := ∀ i < l, a.getMsbD i = b.getMsbD i

/-- The vector whose first `l` bits are set. -/
def mask (w l : ℕ) : BitVec w := BitVec.allOnes w <<< (w - l)

def extend (m : BitVec w) : BitVec w := m ||| (m >>> 1) ||| (1#w <<< (w - 1))

theorem Agree.symm (h : Agree l a b) : Agree l b a := fun i hi => (h i hi).symm

theorem Agree.trans (h : Agree l a b) (h' : Agree l b c) : Agree l a c := fun i hi =>
  (h i hi).trans (h' i hi)

theorem Agree.mono (h : Agree l a b) (hl : l' ≤ l) : Agree l' a b := fun i hi =>
  h i (by omega)

theorem agree_succ : Agree (l + 1) a b ↔ Agree l a b ∧ a.getMsbD l = b.getMsbD l := by
  constructor
  · exact fun h => ⟨h.mono (by omega), h l (by omega)⟩
  · rintro ⟨h, hl⟩ i hi
    rcases Nat.lt_succ_iff_lt_or_eq.1 hi with hi | rfl
    · exact h i hi
    · exact hl

theorem agree_min : Agree (min l w) a b ↔ Agree l a b := by
  refine ⟨fun h i hi => ?_, fun h => h.mono (by omega)⟩
  rcases Nat.lt_or_ge i w with hw | hw
  · exact h i (by omega)
  · rw [BitVec.getMsbD_of_ge a i hw, BitVec.getMsbD_of_ge b i hw]

theorem getMsbD_mask (hl : l ≤ w) : (mask w l).getMsbD i = decide (i < l) := by
  rw [mask, BitVec.getMsbD_shiftLeft, BitVec.getMsbD_allOnes, decide_eq_decide]
  omega

theorem mask_zero : mask w 0 = 0 := by
  refine BitVec.eq_of_getMsbD_eq fun i _ => ?_
  rw [getMsbD_mask (Nat.zero_le _)]
  simp

theorem mask_self : mask w w = BitVec.allOnes w := by
  rw [mask, Nat.sub_self, BitVec.shiftLeft_zero]

theorem mask_injective (hl : l ≤ w) (hl' : l' ≤ w) (h : mask w l = mask w l') : l = l' := by
  have hbit : ∀ i, decide (i < l) = decide (i < l') := fun i => by
    rw [← getMsbD_mask hl, ← getMsbD_mask hl', h]
  have h₁ := decide_eq_decide.1 (hbit l)
  have h₂ := decide_eq_decide.1 (hbit l')
  omega

theorem and_mask_eq_iff (hl : l ≤ w) : a &&& mask w l = b &&& mask w l ↔ Agree l a b := by
  constructor
  · intro h i hi
    have hbit := congrArg (·.getMsbD i) h
    simpa [BitVec.getMsbD_and, getMsbD_mask hl, hi] using hbit
  · intro h
    refine BitVec.eq_of_getMsbD_eq fun i _ => ?_
    rw [BitVec.getMsbD_and, BitVec.getMsbD_and, getMsbD_mask hl]
    rcases Nat.lt_or_ge i l with hi | hi
    · rw [h i hi]
    · rw [decide_eq_false (by omega), Bool.and_false, Bool.and_false]

theorem agree_and_mask (hl : l ≤ w) : Agree l (a &&& mask w l) a := fun i hi => by
  rw [BitVec.getMsbD_and, getMsbD_mask hl]
  simp [hi]

theorem mask_and_mask (hl : l ≤ w) (hl' : l' ≤ w) : mask w l &&& mask w l' = mask w (min l l') := by
  refine BitVec.eq_of_getMsbD_eq fun i _ => ?_
  rw [BitVec.getMsbD_and, getMsbD_mask hl, getMsbD_mask hl', getMsbD_mask (by omega),
    ← Bool.decide_and, decide_eq_decide]
  omega

theorem mask_and_mask_eq_iff (hl : l ≤ w) (hl' : l' ≤ w) :
    mask w l &&& mask w l' = mask w l ↔ l ≤ l' := by
  rw [mask_and_mask hl hl']
  constructor
  · intro h
    have := mask_injective (by omega) hl h
    omega
  · intro h
    rw [Nat.min_eq_left h]

theorem extend_mask (hl : l < w) : extend (mask w l) = mask w (l + 1) := by
  refine BitVec.eq_of_getMsbD_eq fun i hi => ?_
  rw [extend, BitVec.getMsbD_or, BitVec.getMsbD_or, BitVec.getMsbD_ushiftRight,
    BitVec.getMsbD_shiftLeft, BitVec.getMsbD_one, getMsbD_mask hl.le, getMsbD_mask hl.le,
    getMsbD_mask (by omega)]
  rw [Bool.eq_iff_iff]
  simp only [Bool.or_eq_true, Bool.and_eq_true, decide_eq_true_eq, Bool.not_eq_true',
    decide_eq_false_iff_not]
  omega

end Prefix
