import Gem5Nvm.Lib.Lfsr
import Gem5Nvm.SkewedAssociative
import Gem5Nvm.Proofs.IntMath
import Gem5Nvm.Proofs.Interleaving

/-!
# Deskewing undoes skewing

On the set bits, `hash` is a step of a shift register with feedback and `dehash` takes it back.  A
skewing function adds tag bits to the hashed or dehashed set bits, or to their sum with the set bits
themselves; the tag bits are the same when an address is regenerated, and what is left leads back to
the set bits.
-/

namespace Gem5Nvm.SkewedAssociative

open Sim (bind_eq_ok bind₂_eq_ok ok_bind pure_eq)
open Lfsr (next ext next_lt prev prev_lt)

variable {p : SkewedAssociative} {n x y way addr : ℕ}

/-- The shifts of a cache of `2 ^ n` sets. -/
structure Valid (p : SkewedAssociative) (n : ℕ) : Prop where
  two_le : 2 ≤ n
  lt : n < 32
  numSets : p.numSets = 2 ^ n
  setMask : p.setMask = 2 ^ n - 1
  msbShift : p.msbShift + 1 = n
  tagShift : p.tagShift = p.setShift + n
  fits : p.setShift + 2 * n ≤ 64

theorem new_valid {size entrySize assoc : ℕ} (hentry : entrySize < 2 ^ 31)
    (h : new size entrySize assoc = .ok p) :
    (∃ n, p.Valid n) ∧ p.setShift = Nat.log 2 entrySize := by
  simp only [new] at h
  obtain ⟨q, -, s, hs, h⟩ := bind₂_eq_ok.1 h
  obtain ⟨l, hl, ⟨⟩, hpow, h⟩ := bind₂_eq_ok.1 h
  obtain ⟨⟨⟩, -, h⟩ := bind_eq_ok.1 h
  rw [hl, ok_bind, ok_bind] at h
  obtain ⟨⟨⟩, hfits, ⟨⟩, hsets, h⟩ := bind₂_eq_ok.1 h
  obtain rfl := Except.ok.inj h
  rw [fatalIf_eq_ok] at hpow hsets
  rw [panicIf_eq_ok] at hfits
  obtain ⟨n, hn⟩ := exists_two_pow_of_isPowerOf2 (by simpa using hpow)
  have hlt : 2 ^ n < 2 ^ 32 := hn ▸ Nat.mod_lt _ (by decide)
  rw [hn] at hl hsets
  rw [floorLog2_eq (Nat.two_pow_pos n) (by omega), Nat.log_pow one_lt_two] at hl
  obtain rfl := Except.ok.inj hl
  have hpos : 0 < entrySize := by
    by_contra hzero
    obtain rfl : entrySize = 0 := by omega
    cases hs
  rw [floorLog2_eq hpos (by omega)] at hs
  obtain rfl := Except.ok.inj hs
  have htwo : 2 ≤ n := by
    rcases n with _ | _ | n
    · simp at hsets
    · simp at hsets
    · omega
  refine ⟨⟨n, htwo, (Nat.pow_lt_pow_iff_right one_lt_two).1 hlt, hn, ?_, ?_, rfl, ?_⟩, rfl⟩
  · dsimp only
    rw [hn]
  · dsimp only
    omega
  · simpa using hfits

theorem testBit_eq_false {k : ℕ} (hx : x < 2 ^ n) (hk : n ≤ k) : x.testBit k = false :=
  Nat.testBit_eq_false_of_lt (hx.trans_le (Nat.pow_le_pow_right two_pos hk))

section Hash

variable (hp : p.Valid n)

include hp

theorem hash_eq (hx : x < 2 ^ n) : p.hash x = .ok (next n x) := by
  have hmsb := hp.msbShift
  have hlt := hp.lt
  obtain ⟨r, hr, hbits⟩ := insertBits_ok (x >>> 1) (bits x p.msbShift ^^^ bits x 0)
    (le_refl p.msbShift)
  rw [hash, hr]
  congr 1
  refine ext (Nat.lt_pow_two_of_testBit _ fun k hk => ?_) next_lt fun k hk => ?_
  · rw [hbits, if_neg (by omega), Nat.testBit_shiftRight, testBit_eq_false hx (by omega),
      Bool.and_false]
  · rw [hbits, Lfsr.testBit_next hk, decide_eq_true (by omega : k < 64), Bool.true_and]
    by_cases htop : k + 1 = n
    · rw [if_pos (by omega), if_pos htop, show k - p.msbShift = 0 by omega, Nat.testBit_xor,
        AddrRange.testBit_bits, AddrRange.testBit_bits, show p.msbShift = k by omega]
    · rw [if_neg (by omega), if_neg htop, Nat.testBit_shiftRight, Nat.add_comm]

theorem dehash_eq : p.dehash x = .ok (prev n x) := by
  have hmsb := hp.msbShift
  have hlt := hp.lt
  have htwo := hp.two_le
  obtain ⟨r, hr, hbits⟩ := insertBits_ok (u64 (mbits x (p.msbShift - 1) 0 <<< 1))
    (bits x (p.msbShift - 1) ^^^ bits x p.msbShift) (le_refl 0)
  have hdehash : p.dehash x = .ok r := hr
  rw [hdehash]
  congr 1
  -- what is left once the highest bit is gone
  have hrest : ∀ k, (u64 (mbits x (p.msbShift - 1) 0 <<< 1)).testBit k
      = (decide (k < 64) && (decide (1 ≤ k) && (x.testBit (k - 1) && decide (k < n)))) := by
    intro k
    rw [testBit_u64, Nat.testBit_shiftLeft, mbits, Nat.testBit_and, Nat.testBit_and, testBit_mask,
      testBit_unot (by decide), testBit_mask]
    by_cases hk : k < 64
    · by_cases hk1 : 1 ≤ k
      · have h1 : (k - 1 < p.msbShift - 1 + 1) = (k < n) := by
          rw [eq_iff_iff]
          omega
        simp [h1, show k - 1 < 64 by omega]
      · simp [hk1]
    · simp [hk]
  refine ext (Nat.lt_pow_two_of_testBit _ fun k hk => ?_) prev_lt fun k hk => ?_
  · rw [hbits, if_neg (by omega), hrest, decide_eq_false (by omega : ¬ k < n)]
    simp
  · rw [hbits, Lfsr.testBit_prev hk, decide_eq_true (by omega : k < 64), Bool.true_and, hrest,
      decide_eq_true (by omega : k < 64), Bool.true_and]
    by_cases h0 : k = 0
    · rw [if_pos (by omega), if_pos h0, h0, Nat.testBit_xor, AddrRange.testBit_bits,
        AddrRange.testBit_bits, show p.msbShift - 1 = n - 2 by omega,
        show p.msbShift = n - 1 by omega]
    · rw [if_neg (by omega), if_neg h0, decide_eq_true (by omega : 1 ≤ k), decide_eq_true hk]
      simp

end Hash

theorem repeated_eq {f : ℕ → Sim ℕ} {g : ℕ → ℕ} (hf : ∀ x < 2 ^ n, f x = .ok (g x) ∧ g x < 2 ^ n)
    (hx : x < 2 ^ n) (k : ℕ) : repeated f k x = .ok (g^[k] x) := by
  induction k generalizing x with
  | zero => rfl
  | succ k ih =>
    obtain ⟨hfx, hlt⟩ := hf x hx
    rw [repeated, hfx, ok_bind, ih hlt, Function.iterate_succ_apply]

section Fields

variable (hp : p.Valid n)

include hp

theorem repeated_hash (hx : x < 2 ^ n) (k : ℕ) : repeated p.hash k x = .ok ((next n)^[k] x) :=
  repeated_eq (fun _ hx => ⟨hash_eq hp hx, next_lt⟩) hx k

theorem repeated_dehash (hx : x < 2 ^ n) (k : ℕ) : repeated p.dehash k x = .ok ((prev n)^[k] x) :=
  repeated_eq (fun _ _ => ⟨dehash_eq hp, prev_lt⟩) hx k

omit hp in
theorem and_mask (hn : n ≤ 64) : x &&& mask n = x % 2 ^ n := by
  refine Nat.eq_of_testBit_eq fun k => ?_
  rw [Nat.testBit_and, testBit_mask, Nat.testBit_mod_two_pow]
  by_cases hk : k < n
  · simp [hk, show k < 64 by omega]
  · simp [hk]

theorem fields_eq : p.fields addr = .ok (addr % 2 ^ n, addr / 2 ^ n % 2 ^ n) := by
  have hmsb := hp.msbShift
  have hlt := hp.lt
  have h1 : bitsBetween addr p.msbShift 0 = .ok (addr % 2 ^ n) := by
    rw [bitsBetween, assert, if_pos (by simp), ok_bind, pure_eq, Nat.shiftRight_zero,
      Nat.sub_zero, hmsb, and_mask (by omega)]
  have h2 : bitsBetween addr (2 * (p.msbShift + 1) - 1) (p.msbShift + 1)
      = .ok (addr / 2 ^ n % 2 ^ n) := by
    rw [bitsBetween, assert, if_pos (by simp; omega), ok_bind, pure_eq, hmsb,
      show 2 * n - 1 - n + 1 = n by omega, and_mask (by omega), Nat.shiftRight_eq_div_pow]
  rw [fields, h1, ok_bind, h2, ok_bind, pure_eq]

theorem deskewing_skewing {a t u : ℕ} (ha : a < 2 ^ n) :
    prev n (next n a ^^^ t ^^^ u ^^^ t ^^^ u) = a ∧
    (next n)^[p.msbShift] (next n a ^^^ t ^^^ a ^^^ t) = a ∧
    next n (prev n a ^^^ t ^^^ u ^^^ t ^^^ u) = a ∧
    (next n)^[p.msbShift + 1] (prev n a ^^^ t ^^^ a ^^^ t) = a := by
  have htwo := hp.two_le
  have hmsb : p.msbShift = n - 1 := by
    have := hp.msbShift
    omega
  have hboth : ∀ b, b ^^^ t ^^^ u ^^^ t ^^^ u = b := by
    intro b
    rw [Nat.xor_assoc, Nat.xor_assoc, Nat.xor_assoc, ← Nat.xor_assoc t u, Nat.xor_self,
      Nat.xor_zero]
  have hone : ∀ b, b ^^^ t ^^^ a ^^^ t = b ^^^ a := by
    intro b
    rw [Nat.xor_right_comm, Nat.xor_assoc b t t, Nat.xor_self, Nat.xor_zero]
  rw [hboth, hone, hboth, hone, hmsb]
  refine ⟨Lfsr.prev_next htwo ha, Lfsr.iterate_next_xor (by omega) ha, Lfsr.next_prev htwo ha, ?_⟩
  rw [Function.iterate_succ_apply, Lfsr.next_xor, Lfsr.next_prev htwo ha, Nat.xor_comm]
  exact Lfsr.iterate_next_xor (by omega) ha

theorem skewing_spec {a b : ℕ} (ha : a < 2 ^ n) (hb : b < 2 ^ n) (way : ℕ) :
    ∃ m < 2 ^ n, p.skewing a b way = .ok m ∧ p.deskewing m b way = .ok a := by
  have hxor : ∀ {x y}, x < 2 ^ n → y < 2 ^ n → x ^^^ y < 2 ^ n := Nat.xor_lt_two_pow
  have hnext : ∀ {x}, next n x < 2 ^ n := next_lt
  have hprev : ∀ {x}, prev n x < 2 ^ n := prev_lt
  have hcancel := fun t => deskewing_skewing hp (t := t) (u := b) ha
  have hway : way % 8 < 8 := Nat.mod_lt _ (by decide)
  simp only [skewing, deskewing, numSkewingFunctions]
  generalize way % 8 = j at hway
  interval_cases j <;>
    simp only [hash_eq hp ha, hash_eq hp hb, dehash_eq hp, ok_bind, pure_eq,
      Except.ok.injEq, ↓existsAndEq, true_and]
  · exact ⟨hxor (hxor hnext hnext) hb, (hcancel _).1⟩
  · refine ⟨hxor (hxor hnext hnext) ha, ?_⟩
    rw [repeated_hash hp (hxor (hxor (hxor hnext hnext) ha) hnext), (hcancel _).2.1]
  · exact ⟨hxor (hxor hnext hprev) hb, (hcancel _).1⟩
  · refine ⟨hxor (hxor hnext hprev) ha, ?_⟩
    rw [repeated_hash hp (hxor (hxor (hxor hnext hprev) ha) hprev), (hcancel _).2.1]
  · refine ⟨hxor (hxor hprev hnext) hb, ?_⟩
    rw [hash_eq hp (hxor (hxor (hxor (hxor hprev hnext) hb) hnext) hb), (hcancel _).2.2.1]
  · refine ⟨hxor (hxor hprev hnext) ha, ?_⟩
    rw [repeated_hash hp (hxor (hxor (hxor hprev hnext) ha) hnext), (hcancel _).2.2.2]
  · refine ⟨hxor (hxor hprev hprev) hb, ?_⟩
    rw [hash_eq hp (hxor (hxor (hxor (hxor hprev hprev) hb) hprev) hb), (hcancel _).2.2.1]
  · refine ⟨hxor (hxor hprev hprev) ha, ?_⟩
    rw [repeated_hash hp (hxor (hxor (hxor hprev hprev) ha) hprev), (hcancel _).2.2.2]

theorem skew_spec (addr way : ℕ) : ∃ s < 2 ^ n, p.skew addr way = .ok s ∧
    ∀ a, a % 2 ^ n = s → a / 2 ^ n % 2 ^ n = addr / 2 ^ n % 2 ^ n →
      p.deskew a way = .ok (addr % 2 ^ n) := by
  have hlow : ∀ a, a % 2 ^ n < 2 ^ n := fun a => Nat.mod_lt _ (Nat.two_pow_pos n)
  obtain ⟨m, hm, hskew, hdeskew⟩ := skewing_spec hp (hlow addr) (hlow (addr / 2 ^ n)) way
  refine ⟨(next n)^[way / 8] m, Lfsr.iterate_next_lt hm _, ?_, fun a hset htag => ?_⟩
  · rw [skew, fields_eq hp, ok_bind]
    dsimp only
    rw [hskew, ok_bind]
    exact repeated_hash hp hm _
  · rw [deskew, fields_eq hp, ok_bind]
    dsimp only
    rw [hset, htag]
    split_ifs with hway
    · rw [repeated_dehash hp (Lfsr.iterate_next_lt hm _), ok_bind]
      rw [show way / numSkewingFunctions = way / 8 from rfl,
        Lfsr.iterate_prev_next hp.two_le hm, hdeskew]
    · rw [Nat.div_eq_of_lt (b := 8) (not_le.1 hway), Function.iterate_zero_apply, ok_bind,
        hdeskew]

theorem extractSet_spec (haddr : addr < 2 ^ 64) (way : ℕ) :
    ∃ set < 2 ^ n, p.extractSet addr way = .ok set ∧
      p.regenerateAddr (p.extractTag addr) set way
        = .ok (addr / 2 ^ p.setShift * 2 ^ p.setShift) := by
  obtain ⟨set, hset, hskew, hdeskew⟩ := skew_spec hp (addr >>> p.setShift) way
  have hlt := hp.lt
  have hmask : ∀ x, x &&& p.setMask = x % 2 ^ n := by
    intro x
    rw [hp.setMask, Nat.and_two_pow_sub_one_eq_mod]
  refine ⟨set, hset, ?_, ?_⟩
  · rw [extractSet, hskew, ok_bind, pure_eq, hmask, Nat.mod_eq_of_lt hset, u32,
      Nat.mod_eq_of_lt (hset.trans_le (Nat.pow_le_pow_right two_pos hlt.le))]
  · set a := addr >>> p.setShift with ha
    have htag : p.extractTag addr = a / 2 ^ n := by
      rw [extractTag, hp.tagShift, ha, Nat.shiftRight_add, Nat.shiftRight_eq_div_pow _ n]
    have hale : a * 2 ^ p.setShift ≤ addr := by
      rw [ha, Nat.shiftRight_eq_div_pow]
      exact Nat.div_mul_le_self _ _
    have hfits : ∀ x ≤ a, u64 (x <<< p.setShift) = x <<< p.setShift := by
      intro x hx
      refine u64_of_lt (lt_of_le_of_lt ?_ haddr)
      rw [Nat.shiftLeft_eq]
      exact (Nat.mul_le_mul_right _ hx).trans hale
    have hsplit := Nat.div_add_mod' a (2 ^ n)
    have htop : (a / 2 ^ n) <<< n ≤ a := by
      rw [Nat.shiftLeft_eq]
      omega
    have hlow := Nat.mod_lt a (Nat.two_pow_pos n)
    have haddrSet : u64 (p.extractTag addr <<< (p.msbShift + 1)) ||| set
        = a / 2 ^ n * 2 ^ n + set := by
      have hle : a ≤ addr := (Nat.le_mul_of_pos_right a (Nat.two_pow_pos _)).trans hale
      rw [htag, hp.msbShift, u64_of_lt ((htop.trans hle).trans_lt haddr),
        ← Nat.shiftLeft_add_eq_or_of_lt hset, Nat.shiftLeft_eq]
    have hback : p.deskew (a / 2 ^ n * 2 ^ n + set) way = .ok (a % 2 ^ n) := by
      refine hdeskew _ ?_ ?_
      · rw [Nat.mul_add_mod', Nat.mod_eq_of_lt hset]
      · rw [Nat.mul_comm, Nat.mul_add_div (Nat.two_pow_pos n), Nat.div_eq_of_lt hset, Nat.add_zero]
    rw [regenerateAddr, haddrSet, hback, ok_bind, pure_eq, hmask, Nat.mod_mod, htag,
      hp.tagShift,
      Nat.add_comm p.setShift n, Nat.shiftLeft_add, hfits _ htop, hfits _ (Nat.mod_le a _),
      ← Nat.shiftLeft_or_distrib, ← Nat.shiftLeft_add_eq_or_of_lt hlow, Nat.shiftLeft_eq _ n,
      hsplit, ha, Nat.shiftLeft_eq, Nat.shiftRight_eq_div_pow]

end Fields

/-- In every way, an address comes back from its tag and skewed set, up to the bits below the
entry's, and the sets of a tag stay apart. -/
theorem skewing_invertible {size entrySize assoc : ℕ} (hentry : entrySize < 2 ^ 31)
    (hnew : new size entrySize assoc = .ok p) (way : ℕ) :
    (∀ addr < 2 ^ 64, ∃ set < p.numSets, p.extractSet addr way = .ok set ∧
      p.regenerateAddr (p.extractTag addr) set way
        = .ok (addr / 2 ^ Nat.log 2 entrySize * 2 ^ Nat.log 2 entrySize)) ∧
    ∀ addr < 2 ^ 64, ∀ addr' < 2 ^ 64, p.extractTag addr = p.extractTag addr' →
      addr >>> p.setShift % p.numSets ≠ addr' >>> p.setShift % p.numSets →
      p.extractSet addr way ≠ p.extractSet addr' way := by
  obtain ⟨⟨n, hp⟩, hshift⟩ := new_valid hentry hnew
  rw [← hshift, hp.numSets]
  refine ⟨fun addr haddr => extractSet_spec hp haddr way, ?_⟩
  intro addr haddr addr' haddr' htag hset heq
  obtain ⟨set, -, hext, hregen⟩ := extractSet_spec hp haddr way
  obtain ⟨set', -, hext', hregen'⟩ := extractSet_spec hp haddr' way
  -- equal skewed sets of one tag come from one address
  obtain rfl : set = set' := by
    rw [hext, hext'] at heq
    exact Except.ok.inj heq
  rw [htag, hregen'] at hregen
  have hsame := Nat.eq_of_mul_eq_mul_right (Nat.two_pow_pos _) (Except.ok.inj hregen)
  rw [Nat.shiftRight_eq_div_pow, Nat.shiftRight_eq_div_pow, hsame] at hset
  exact hset rfl

/-- A cache of four sets of 64-byte entries, beyond the eighth way. -/
theorem skewing_invertible_fourSets : ∃ p, new 2560 64 10 = .ok p ∧
    ∃ set < p.numSets, p.extractSet 0x12345 9 = .ok set ∧
      p.regenerateAddr (p.extractTag 0x12345) set 9
        = .ok (0x12345 / 2 ^ Nat.log 2 64 * 2 ^ Nat.log 2 64) :=
  ⟨⟨10, 4, 6, 3, 8, 1⟩, by decide, (skewing_invertible (by decide)
    (show new 2560 64 10 = .ok ⟨10, 4, 6, 3, 8, 1⟩ by decide) 9).1 0x12345 (by decide)⟩

/-- The constructor takes entries of 96 bytes, and the second of them comes back as byte 64. -/
theorem entry_of_96_bytes_misaligned : ∃ p, new 384 96 1 = .ok p ∧
    ∃ set, p.extractSet 96 0 = .ok set ∧
      p.regenerateAddr (p.extractTag 96) set 0 = .ok 64 ∧ 64 ≠ 96 / 96 * 96 :=
  ⟨⟨1, 4, 6, 3, 8, 1⟩, by decide, 2, by decide, by decide, by decide⟩

end Gem5Nvm.SkewedAssociative
