import Gem5Nvm.Proofs.Interleaving

/-!
# Address ranges as sets

What `intersects` and `isSubset` say of the sets of addresses of two ranges.  `intersects` answers
in the cases its shortcuts cover, and then rightly, but for an interleaved range whose `size()` is
one (`intersects_iff`).  Within a stripe all addresses have the same selector bits
(`sel_eq_of_div`), so `isSubset` is right for ranges that are no longer than one
(`isSubset_iff`).
-/

namespace Gem5Nvm.AddrRange

variable {r s : AddrRange} {a b : ℕ}

theorem sel_plain (h : r.interleaved = false) : r.sel a = 0 := by
  simp [sel, masks_eq_nil h]

theorem NonEmpty.lt (h : r.NonEmpty) : r.start < r.end_ := by
  obtain ⟨a, ha⟩ := h.inhabited
  obtain ⟨h₁, h₂, -⟩ := contains_iff.1 ha
  omega

theorem NonEmpty.contains_plain (h : r.NonEmpty) (hp : r.interleaved = false) :
    r.contains a = true ↔ r.start ≤ a ∧ a < r.end_ := by
  obtain ⟨x, hx⟩ := h.inhabited
  obtain ⟨-, -, hsel⟩ := contains_iff.1 hx
  rw [sel_plain hp] at hsel
  rw [contains_iff, sel_plain hp, ← hsel, eq_self_iff_true, and_true]

theorem Shares.symm (h : r.Shares s) : s.Shares r := by
  obtain ⟨a, hr, hs⟩ := h
  exact ⟨a, hs, hr⟩

theorem NonEmpty.size_plain (h : r.NonEmpty) (hp : r.interleaved = false) :
    r.size = r.end_ - r.start := by
  rw [size, masks_eq_nil hp, List.length_nil, Nat.shiftRight_zero, usub_of_le h.lt.le h.end_lt]

theorem shares_of_mergesWith (hr : r.NonEmpty) (hm : r.mergesWith s = true) :
    r.Shares s ↔ r.intlvMatch = s.intlvMatch := by
  obtain ⟨h₁, h₂, h₃⟩ := mergesWith_iff.1 hm
  constructor
  · rintro ⟨a, ha, ha'⟩
    rw [← (contains_iff.1 ha).2.2, ← (contains_iff.1 ha').2.2, sel_congr h₃.symm]
  · intro heq
    obtain ⟨a, ha⟩ := hr.inhabited
    obtain ⟨h₄, h₅, h₆⟩ := contains_iff.1 ha
    refine ⟨a, ha, contains_iff.2 ⟨by omega, by omega, ?_⟩⟩
    rw [sel_congr h₃, h₆, heq]

theorem intersects_iff (hr : r.NonEmpty) (hs : s.NonEmpty) {x : Bool}
    (hone : s.interleaved = true → s.size ≠ 1) (h : r.intersects s = .ok x) :
    x = true ↔ r.Shares s := by
  unfold intersects at h
  split_ifs at h with hapart hplain hsize hmerge
  · cases h
    refine iff_of_false Bool.false_ne_true ?_
    rintro ⟨a, ha, ha'⟩
    obtain ⟨h₁, h₂, -⟩ := contains_iff.1 ha
    obtain ⟨h₃, h₄, -⟩ := contains_iff.1 ha'
    omega
  · cases h
    obtain ⟨hpr, hps⟩ : r.interleaved = false ∧ s.interleaved = false := by simpa using hplain
    have hrlt := hr.lt
    have hslt := hs.lt
    refine iff_of_true rfl ⟨max r.start s.start, ?_, ?_⟩
    · rw [hr.contains_plain hpr]
      omega
    · rw [hs.contains_plain hps]
      omega
  · cases h
    have hps : s.interleaved = false := by
      rcases hi : s.interleaved
      · rfl
      · exact absurd hsize (hone hi)
    rw [hs.size_plain hps] at hsize
    have hslt := hs.lt
    constructor
    · intro ha
      exact ⟨s.start, ha, (hs.contains_plain hps).2 ⟨le_rfl, hslt⟩⟩
    · rintro ⟨a, ha, ha'⟩
      obtain ⟨h₁, h₂⟩ := (hs.contains_plain hps).1 ha'
      rwa [show s.start = a by omega]
  · cases h
    rw [decide_eq_true_iff, shares_of_mergesWith hr hmerge]

section Stripe

theorem testBit_foldl_or (j : ℕ) : ∀ (masks : List ℕ) (acc : ℕ),
    (masks.foldl (· ||| ·) acc).testBit j = (acc.testBit j || masks.any (·.testBit j))
  | [], acc => by simp
  | m :: masks, acc => by
    rw [List.foldl_cons, testBit_foldl_or j masks, Nat.testBit_or, List.any_cons, Bool.or_assoc]

theorem foldl_or_lt {n : ℕ} {masks : List ℕ} (h : ∀ m ∈ masks, m < 2 ^ n) :
    masks.foldl (· ||| ·) 0 < 2 ^ n := by
  refine Nat.lt_pow_two_of_testBit _ fun i hi => ?_
  rw [testBit_foldl_or, Nat.zero_testBit, Bool.false_or, List.any_eq_false]
  intro m hm
  rw [Nat.testBit_eq_false_of_lt ((h m hm).trans_le (Nat.pow_le_pow_right two_pos hi))]
  exact Bool.false_ne_true

theorem ctz64_eq {x l : ℕ} (hx : x < 2 ^ 64) (hl : x.testBit l = true)
    (hlow : ∀ j < l, x.testBit j = false) : ctz64 x = l := by
  have hne : x ≠ 0 := by
    rintro rfl
    simp at hl
  obtain ⟨-, hbit, hbelow⟩ := ctz64_spec hx hne
  rcases Nat.lt_trichotomy (ctz64 x) l with hlt | heq | hgt
  · rw [hlow _ hlt] at hbit
    exact absurd hbit Bool.false_ne_true
  · exact heq
  · rw [hbelow _ hgt] at hl
    exact absurd hl Bool.false_ne_true

theorem granularity_eq (hr : r.NonEmpty) (hi : r.interleaved = true)
    (hlow : ∃ m ∈ r.masks, m % 2 ^ 32 ≠ 0) : r.granularity = r.stripe ∧
      ctz64 (r.masks.foldl (· ||| ·) 0) < 64 ∧
      ∀ m ∈ r.masks, ∀ j < ctz64 (r.masks.foldl (· ||| ·) 0), m.testBit j = false := by
  set x := r.masks.foldl (· ||| ·) 0 with hxdef
  have hx : x < 2 ^ 64 := foldl_or_lt hr.mask_lt
  have hbits : ∀ j, x.testBit j = r.masks.any (·.testBit j) := by
    intro j
    rw [hxdef, testBit_foldl_or, Nat.zero_testBit, Bool.false_or]
  obtain ⟨m, hm, hne⟩ := hlow
  obtain ⟨i, hbit⟩ := Nat.exists_testBit_of_ne_zero hne
  rw [Nat.testBit_mod_two_pow, Bool.and_eq_true, decide_eq_true_iff] at hbit
  have hxi : x.testBit i = true := by
    rw [hbits, List.any_eq_true]
    exact ⟨m, hm, hbit.2⟩
  have hx0 : x ≠ 0 := by
    intro h
    rw [h, Nat.zero_testBit] at hxi
    exact Bool.false_ne_true hxi
  obtain ⟨h64, hset, hbelow⟩ := ctz64_spec hx hx0
  have h32 : ctz64 x < 32 := by
    by_contra hcon
    rw [hbelow i (by omega)] at hxi
    exact Bool.false_ne_true hxi
  refine ⟨?_, h64, fun m hm j hj => ?_⟩
  · have hext : ∀ y, y < 2 ^ 64 → y % 2 ^ 32 = x % 2 ^ 32 → ctz64 y = ctz64 x := by
      intro y hy heq
      have hsame : ∀ j < 32, y.testBit j = x.testBit j := by
        intro j hj
        have hmod : ∀ z, (z % 2 ^ 32).testBit j = z.testBit j := fun z => by
          rw [Nat.testBit_mod_two_pow, decide_eq_true hj, Bool.true_and]
        rw [← hmod y, ← hmod x, heq]
      exact ctz64_eq hy ((hsame _ h32).trans hset) fun j hj =>
        (hsame j (by omega)).trans (hbelow j hj)
    have hmod := Nat.mod_lt x (show 0 < 2 ^ 32 by omega)
    unfold granularity stripe
    rw [if_pos hi]
    simp only [← hxdef]
    rw [hext _ (by split_ifs <;> omega) (by split_ifs <;> omega), Nat.mod_eq_of_lt h64]
  · have hnone := hbelow j hj
    rw [hbits, List.any_eq_false] at hnone
    simpa using hnone m hm

theorem sel_eq_of_div {l : ℕ} (hlow : ∀ m ∈ r.masks, ∀ j < l, m.testBit j = false)
    (h : a / 2 ^ l = b / 2 ^ l) : r.sel a = r.sel b := by
  have hpop : ∀ m ∈ r.masks, popCount (a &&& m) = popCount (b &&& m) := by
    intro m hm
    refine popCount_congr fun j _ => ?_
    rw [Nat.testBit_and, Nat.testBit_and]
    rcases Nat.lt_or_ge j l with hj | hj
    · rw [hlow m hm j hj, Bool.and_false, Bool.and_false]
    · have hbit := congrArg (Nat.testBit · (j - l)) h
      simp only [Nat.testBit_div_two_pow, Nat.sub_add_cancel hj] at hbit
      rw [hbit]
  unfold sel
  refine List.foldl_ext _ _ _ fun acc mi hmi => ?_
  rw [hpop mi.1 (List.fst_mem_of_mem_zipIdx hmi)]

end Stripe

theorem div_eq_or_div_eq {n x y z : ℕ} (hn : 0 < n) (hx : x ≤ y) (hz : y ≤ z) (h : z - x < n) :
    y / n = x / n ∨ y / n = z / n := by
  have hxy := Nat.div_le_div_right (c := n) hx
  have hyz := Nat.div_le_div_right (c := n) hz
  have hxz : z / n ≤ x / n + 1 := by
    rw [← Nat.add_div_right x hn]
    exact Nat.div_le_div_right (by omega)
  omega

theorem isSubset_ok (hp : r.interleaved = false) : ∃ x, r.isSubset s = .ok x := by
  unfold isSubset
  rw [if_neg (by simp [hp])]
  split_ifs
  · exact ⟨_, rfl⟩
  · exact ⟨_, rfl⟩

/-- Where the masks keep a bit in an `int`, the granularity is the stripe. -/
theorem isSubset_iff (hr : r.NonEmpty) (hs : s.NonEmpty) (hp : r.interleaved = false)
    (hlow : s.interleaved = true → ∃ m ∈ s.masks, m % 2 ^ 32 ≠ 0) :
    ∃ x, r.isSubset s = .ok x ∧ (x = true ↔ (∀ a, r.contains a = true → s.contains a = true) ∧
      (s.interleaved = true → r.size ≤ s.stripe)) := by
  have hlt := hr.lt
  have hrange : ∀ a, r.contains a = true ↔ r.start ≤ a ∧ a < r.end_ := fun a => hr.contains_plain hp
  unfold isSubset
  rw [if_neg (by simp [hp])]
  rcases hi : s.interleaved
  · refine ⟨_, rfl, ?_⟩
    rw [decide_eq_true_iff]
    constructor
    · intro h
      refine ⟨fun a ha => ?_, fun h => absurd h Bool.false_ne_true⟩
      rw [hs.contains_plain hi]
      rw [hrange] at ha
      omega
    · rintro ⟨h, -⟩
      have hfirst := h r.start ((hrange _).2 ⟨le_rfl, hlt⟩)
      have hlast := h (r.end_ - 1) ((hrange _).2 ⟨by omega, by omega⟩)
      rw [hs.contains_plain hi] at hfirst hlast
      omega
  · obtain ⟨hgran, -, hzero⟩ := granularity_eq hs hi (hlow hi)
    have hsub : usub r.end_ 1 = r.end_ - 1 := usub_of_le (by omega) hr.end_lt
    refine ⟨_, rfl, ?_⟩
    rw [hsub, hgran, hr.size_plain hp, Bool.and_eq_true, Bool.and_eq_true, decide_eq_true_iff]
    constructor
    · rintro ⟨⟨hfirst, hlast⟩, hsize⟩
      refine ⟨fun a ha => ?_, fun _ => hsize⟩
      rw [hrange] at ha
      obtain ⟨h₁, -, h₃⟩ := contains_iff.1 hfirst
      obtain ⟨-, h₅, h₆⟩ := contains_iff.1 hlast
      refine contains_iff.2 ⟨by omega, by omega, ?_⟩
      -- the range meets two stripes at most, those of its first and its last address
      rcases div_eq_or_div_eq (n := s.stripe) (Nat.two_pow_pos _) ha.1
        (show a ≤ r.end_ - 1 by omega) (by omega) with hd | hd
      · rw [sel_eq_of_div hzero hd, h₃]
      · rw [sel_eq_of_div hzero hd, h₆]
    · rintro ⟨h, hsize⟩
      exact ⟨⟨h _ ((hrange _).2 ⟨le_rfl, hlt⟩), h _ ((hrange _).2 ⟨by omega, by omega⟩)⟩, hsize rfl⟩

/-- The answers of `intersects` and `isSubset`, as sets. -/
theorem intersects_isSubset_sets (r s : AddrRange) (hr : r.NonEmpty) (hs : s.NonEmpty) :
    (∀ x, (s.interleaved = true → s.size ≠ 1) → r.intersects s = .ok x →
      (x = true ↔ r.Shares s)) ∧
    (∀ x y, (s.interleaved = true → s.size ≠ 1) → (r.interleaved = true → r.size ≠ 1) →
      r.intersects s = .ok x → s.intersects r = .ok y → x = y) ∧
    (r.interleaved = false → ∃ x, r.isSubset s = .ok x ∧
      ((s.interleaved = true → ∃ m ∈ s.masks, m % 2 ^ 32 ≠ 0) →
        (x = true ↔ (∀ a, r.contains a = true → s.contains a = true) ∧
          (s.interleaved = true → r.size ≤ s.stripe)))) := by
  refine ⟨fun x hone h => intersects_iff hr hs hone h, fun x y hs1 hr1 hx hy => ?_,
    fun hp => ?_⟩
  · rw [Bool.eq_iff_iff, intersects_iff hr hs hs1 hx, intersects_iff hs hr hr1 hy]
    exact ⟨Shares.symm, Shares.symm⟩
  · obtain ⟨x, hx⟩ := isSubset_ok (s := s) hp
    refine ⟨x, hx, fun hlow => ?_⟩
    obtain ⟨y, hy, hiff⟩ := isSubset_iff hr hs hp hlow
    cases hx.symm.trans hy
    exact hiff

/-- A cache line of a channel is inside of it. -/
theorem intersects_isSubset_sets_line :
    (contiguous 0x1100 0x1140).isSubset ⟨0, 0x10000, [0x100], 1⟩ = .ok true ∧
    ∀ a, (contiguous 0x1100 0x1140).contains a = true →
      (⟨0, 0x10000, [0x100], 1⟩ : AddrRange).contains a = true := by
  obtain ⟨-, -, h⟩ := intersects_isSubset_sets (contiguous 0x1100 0x1140)
    ⟨0, 0x10000, [0x100], 1⟩ ⟨by decide, by decide, 0x1100, by decide⟩
    ⟨by decide, by decide, 0x100, by decide⟩
  obtain ⟨x, hx, hiff⟩ := h (by decide)
  obtain rfl : true = x := Except.ok.inj hx
  exact ⟨hx, ((hiff fun _ => ⟨0x100, by decide, by decide⟩).1 rfl).1⟩

/-- The test for an intersection may answer one way round and stop the simulation the other way
round; it takes the start of an interleaved range of size one for its only address; and a range
across two stripes, or of two bytes where the masks have high bits only, is not taken for a subset
of one that has all its addresses. -/
theorem range_shortcuts_fail :
    ((⟨0, 0x10000, [1], 1⟩ : AddrRange).intersects (contiguous 1 2) = .ok true ∧
      (contiguous 1 2).intersects ⟨0, 0x10000, [1], 1⟩
        = .error (.panic "Cannot test intersection of %s and %s\n")) ∧
    ((contiguous 0 1).intersects ⟨0, 2, [1], 1⟩ = .ok true ∧
      ¬ (contiguous 0 1).Shares ⟨0, 2, [1], 1⟩) ∧
    ((contiguous 1 3).isSubset ⟨0, 16, [3], 1⟩ = .ok false ∧
      ∀ a, (contiguous 1 3).contains a = true →
        (⟨0, 16, [3], 1⟩ : AddrRange).contains a = true) ∧
    ((contiguous 0 2).isSubset ⟨0, 2 ^ 40, [2 ^ 33], 0⟩ = .ok false ∧
      ∀ a, (contiguous 0 2).contains a = true →
        (⟨0, 2 ^ 40, [2 ^ 33], 0⟩ : AddrRange).contains a = true) := by
  refine ⟨⟨by decide, by decide⟩, ⟨by decide, ?_⟩, ⟨by decide, ?_⟩, by decide, ?_⟩
  · rintro ⟨a, ha, ha'⟩
    obtain ⟨-, hlt, -⟩ := contains_iff.1 ha
    obtain rfl : a = 0 := Nat.lt_one_iff.1 hlt
    exact absurd ha' (by decide)
  · intro a ha
    obtain ⟨hge, hlt, -⟩ := contains_iff.1 ha
    obtain rfl | rfl : a = 1 ∨ a = 2 := by
      dsimp only [contiguous] at hge hlt
      omega
    · decide
    · decide
  · intro a ha
    obtain ⟨-, hlt, -⟩ := contains_iff.1 ha
    obtain rfl | rfl : a = 0 ∨ a = 1 := by
      dsimp only [contiguous] at hlt
      omega
    · decide
    · decide

end Gem5Nvm.AddrRange
