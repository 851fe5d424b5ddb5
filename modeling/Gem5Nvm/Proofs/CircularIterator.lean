import Gem5Nvm.Proofs.CircularQueue

/-!
# Iterator arithmetic of circular queues

A step back over the end of the store divides a negative number as an unsigned one of 64 bits, and
takes the remainder of one of 32 bits.  Both come out right if the capacity divides `2 ^ 32`, and
only then: the quotient of `2 ^ 64 - 1` then ends in 32 ones.
-/

namespace Gem5Nvm.CircularQueue

open Sim (bind_eq_ok bind₂_eq_ok ok_bind pure_eq)
open Nat (mod_lt mod_eq_of_lt mod_self mod_mod)
open Ring (round_cases)

variable {T : Type} {q q' : CircularQueue T} {p n k d : ℕ}

/-- What the calls keep, however their counts overflow; a queue of one cell starts with its head
outside the store. -/
structure Consistent (q : CircularQueue T) : Prop where
  pos : 0 < q.capacity
  lt : q.capacity < 2 ^ 32
  tail : q.tail < q.capacity
  round : q.round < 2 ^ 32
  head : q.head < q.capacity ∨ q.capacity = 1 ∧ q.head = 1
  empty : q.empty = true → q.head < q.capacity → q.head = (q.tail + 1) % q.capacity

theorem u32_lt (x : ℕ) : u32 x < 2 ^ 32 := mod_lt _ (by decide)

theorem init_consistent [Inhabited T] {cap : ℕ} (hpos : 0 < cap) (hlt : cap < 2 ^ 32) :
    (init cap : CircularQueue T).Consistent := by
  refine ⟨hpos, hlt, hpos, by simp [init], ?_, fun _ h => (mod_eq_of_lt h).symm⟩
  rcases Nat.lt_or_eq_of_le hpos with h | h
  · exact .inl h
  · exact .inr ⟨h.symm, rfl⟩

theorem Consistent.setStore (h : q.Consistent) (store : ℕ → T) : Consistent { q with store } :=
  ⟨h.pos, h.lt, h.tail, h.round, h.head, h.empty⟩

theorem Consistent.advanceTail (h : q.Consistent) : q.advanceTail.Consistent := by
  have hmod : ∀ x, x % q.capacity < q.capacity := fun x => mod_lt x h.pos
  refine ⟨h.pos, h.lt, hmod _, ?_, ?_, by simp [CircularQueue.advanceTail]⟩ <;>
    simp only [CircularQueue.advanceTail]
  · split_ifs
    · exact u32_lt _
    · exact h.round
  · split_ifs
    · exact .inl (hmod _)
    · exact h.head

theorem Consistent.iterate_advanceTail (h : q.Consistent) (len : ℕ) :
    (CircularQueue.advanceTail^[len] q).Consistent := by
  induction len generalizing q with
  | zero => exact h
  | succ len ih => exact ih h.advanceTail

theorem Consistent.endIt_idx (h : q.Consistent) : q.endIt.idx = (q.tail + 1) % q.capacity := by
  have := h.tail
  have := h.lt
  simp only [endIt, moduloAdd, u32]
  rw [mod_eq_of_lt (by omega : q.tail + 1 < 2 ^ 32)]

theorem Consistent.popFront (h : q.Consistent) (hq : q.popFront n = .ok q') : q'.Consistent := by
  unfold CircularQueue.popFront at hq
  split_ifs at hq
  · cases hq
    exact h
  · obtain ⟨-, -, hq⟩ := bind_eq_ok.1 hq
    cases hq
    refine ⟨h.pos, h.lt, h.tail, h.round, .inl (mod_lt _ h.pos), fun he _ => ?_⟩
    have hend : q.beginIt.add q n = q.endIt := of_decide_eq_true he
    simp only [hend]
    exact h.endIt_idx

theorem Consistent.popBack (h : q.Consistent) (hq : q.popBack = .ok q') : q'.Consistent := by
  obtain ⟨-, -, hq⟩ := bind_eq_ok.1 hq
  cases hq
  have htail := h.tail
  refine ⟨h.pos, h.lt, ?_, ?_, h.head, fun he hlt => ?_⟩ <;> simp only [decrease]
  · split_ifs <;> omega
  · split_ifs
    · exact u32_lt _
    · exact h.round
  · have heq : q.head = q.tail := of_decide_eq_true he
    rw [heq]
    split_ifs with h0
    · rw [Nat.sub_add_cancel (by omega), mod_eq_of_lt htail]
    · rw [Nat.sub_add_cancel (by omega), mod_self]
      omega

theorem Consistent.copyIn (h : q.Consistent) {data : List T} {it : Iterator}
    (hq : q.copyIn data it = .ok q') : q'.Consistent := by
  induction data generalizing q it with
  | nil =>
    cases hq
    exact h
  | cons x data ih =>
    obtain ⟨q₁, hset, hq⟩ := bind_eq_ok.1 hq
    unfold CircularQueue.set at hset
    split_ifs at hset
    cases hset
    exact ih (h.setStore _) hq

theorem Consistent.advanceTailBy (h : q.Consistent) (hq : q.advanceTailBy n = .ok q') :
    q'.Consistent := by
  unfold CircularQueue.advanceTailBy at hq
  split_ifs at hq
  cases hq
  exact h.iterate_advanceTail n

theorem step_consistent {op : Op T} {out : List T} (h : q.Consistent)
    (hq : q.step op = .ok (out, q')) : q'.Consistent := by
  cases op with
  | pushBack val =>
    obtain ⟨q₁, hset, hq⟩ := bind_eq_ok.1 hq
    cases hq
    unfold pushBack CircularQueue.set at hset
    split_ifs at hset
    cases hset
    exact h.advanceTail.setStore _
  | advanceTail =>
    cases hq
    exact h.advanceTail
  | advanceTailBy len =>
    obtain ⟨q₁, hadv, hq⟩ := bind_eq_ok.1 hq
    cases hq
    exact h.advanceTailBy hadv
  | popFront num =>
    obtain ⟨q₁, hpop, hq⟩ := bind_eq_ok.1 hq
    cases hq
    exact h.popFront hpop
  | popBack =>
    obtain ⟨q₁, hpop, hq⟩ := bind_eq_ok.1 hq
    cases hq
    exact h.popBack hpop
  | flush =>
    cases hq
    refine ⟨h.pos, h.lt, h.pos, by simp [flush], ?_, fun _ hlt => (mod_eq_of_lt hlt).symm⟩
    rcases Nat.lt_or_eq_of_le h.pos with h1 | h1
    · exact .inl h1
    · exact .inr ⟨h1.symm, rfl⟩
  | write data =>
    obtain ⟨q₁, hwrite, hq⟩ := bind_eq_ok.1 hq
    cases hq
    obtain ⟨q₂, hcopy, hadv⟩ := bind_eq_ok.1 hwrite
    exact (h.copyIn hcopy).advanceTailBy hadv
  | peek offset len =>
    obtain ⟨out', -, hq⟩ := bind_eq_ok.1 hq
    cases hq
    exact h
  | read len =>
    obtain ⟨out', -, q₁, hpop, hq⟩ := bind₂_eq_ok.1 hq
    cases hq
    exact h.popFront hpop

theorem position_idx (cap k : ℕ) : (position cap k).idx = k % cap := rfl

theorem position_round (cap k : ℕ) : (position cap k).round = u32 (k / cap) := rfl

section

variable (hcap : 0 < q.capacity) (hlt : q.capacity < 2 ^ 32)
include hcap hlt

theorem next_position_of_pos : (position q.capacity k).next q = position q.capacity (k + 1) := by
  have hmod := mod_lt k hcap
  have hmod' := mod_lt (k + 1) hcap
  simp only [Iterator.next, position, Iterator.mk.injEq, increase_position hcap hlt, true_and]
  rcases round_cases k hcap (show 1 ≤ q.capacity by omega) with ⟨hm, hd⟩ | ⟨hm, hd⟩
  · rw [if_neg (by omega), hd]
  · rw [if_pos (by omega), hd]
    simp [u32]

theorem iterate_next_position (n : ℕ) :
    (Iterator.next q)^[n] (position q.capacity k) = position q.capacity (k + n) := by
  induction n with
  | zero => rfl
  | succ n ih =>
    rw [Function.iterate_succ_apply', ih, next_position_of_pos hcap hlt, Nat.add_assoc]

theorem prev_position (hdec : (position q.capacity (k + 1)).decrementable q = true) :
    (position q.capacity (k + 1)).prev q = .ok (position q.capacity k) := by
  have hmod := mod_lt k hcap
  have hmod' := mod_lt (k + 1) hcap
  rw [Iterator.prev, assert, if_pos hdec, ok_bind, pure_eq, position_idx, position_round,
    decrease]
  refine congrArg Except.ok (Iterator.mk.injEq .. ▸ ?_)
  rcases round_cases k hcap (show 1 ≤ q.capacity by omega) with ⟨hm, hd⟩ | ⟨hm, hd⟩
  · rw [if_pos (by omega), if_neg (by omega), hd]
    exact ⟨by omega, rfl⟩
  · rw [if_neg (by omega), if_pos (by omega), hd]
    refine ⟨by omega, ?_⟩
    unfold u32
    omega

end

theorem i32_neg {d : ℕ} (h : d ≤ 2 ^ 31) : i32 (-d) = -d := by
  unfold i32
  rw [Int.bmod_def]
  omega

theorem i32_add_mul (x y : ℤ) : i32 (x + 2 ^ 32 * y) = i32 x := by
  unfold i32
  rw [Int.bmod_def, Int.bmod_def]
  omega

theorem i32_lt (x : ℤ) : i32 x < 2 ^ 31 := by
  unfold i32
  rw [Int.bmod_def]
  omega

theorem u32_sub_succ (r : ℕ) : u32 (u32 r + (2 ^ 32 - u32 (r + 1))) = 2 ^ 32 - 1 := by
  unfold u32
  omega

theorem diff_position_neg (hcap : 0 < q.capacity) (hd : d ≤ q.capacity) (hlt : d < 2 ^ 31) :
    (position q.capacity k).diff q (position q.capacity (k + d)) = -d := by
  have hmod := mod_lt k hcap
  unfold Iterator.diff position
  simp only
  rcases round_cases k hcap hd with ⟨hm, hr⟩ | ⟨hm, hr⟩
  · rw [hr, if_neg (by simp), hm, sub, if_neg (by omega), Nat.add_sub_cancel_left,
      mod_eq_of_lt (by have := mod_lt (k + d) hcap; omega), i32_neg hlt.le]
  · rw [hr, if_pos (u32_succ_ne _).symm, u32_sub_succ]
    have hret : sub (k % q.capacity) ((k + d) % q.capacity) q.capacity =
        i32 (q.capacity - d) := by
      unfold sub
      split_ifs with hgt
      · rw [mod_eq_of_lt (by omega), show k % q.capacity - (k + d) % q.capacity =
          q.capacity - d by omega]
        push_cast [hd]
        rfl
      · obtain rfl : d = q.capacity := by omega
        rw [Nat.add_mod_right]
        simp
    have hsum : (q.capacity - d : ℤ) + ((2 ^ 32 - 1 : ℕ) : ℤ) * q.capacity =
        -d + 2 ^ 32 * q.capacity := by
      push_cast
      ring
    rw [hret, i32, i32, Int.bmod_add_bmod, hsum, ← i32, i32_add_mul, i32_neg hlt.le]

theorem borrow_div {cap m : ℕ} (hcap : cap ∣ 2 ^ 32) (h1 : 1 ≤ m) (hm : m ≤ cap) (r : ℕ) :
    u32 (u32 (r + 1) + (2 ^ 64 - m) / cap) = u32 r := by
  obtain ⟨e, he⟩ := hcap
  have hpos : 0 < e := Nat.pos_of_ne_zero fun h => by simp [h] at he
  have hdiv : (2 ^ 64 - m) / cap = e * 2 ^ 32 - 1 := by
    have hsq : 2 ^ 64 = cap * (e * 2 ^ 32) := by
      rw [← Nat.mul_assoc, ← he]
      norm_num
    have hmul : cap * (e * 2 ^ 32 - 1) = cap * (e * 2 ^ 32) - cap := by
      rw [Nat.mul_sub, Nat.mul_one]
    have hle : cap ≤ cap * (e * 2 ^ 32) := Nat.le_mul_of_pos_right _ (by positivity)
    rw [hsq]
    refine Nat.div_eq_of_lt_le ?_ ?_
    · rw [Nat.mul_comm, hmul]
      omega
    · rw [Nat.sub_add_cancel (Nat.mul_pos hpos (by norm_num)), Nat.mul_comm _ cap]
      omega
  rw [hdiv]
  unfold u32
  omega

theorem dvd_of_borrow {cap r : ℕ} (hpos : 0 < cap) (hlt : cap < 2 ^ 32)
    (h : u32 (u32 (r + 1) + (2 ^ 64 - 1) / cap) = u32 r) : cap ∣ 2 ^ 32 := by
  have hle : (2 ^ 64 - 1) / cap * cap ≤ 2 ^ 64 - 1 := Nat.div_mul_le_self _ _
  have hgt : 2 ^ 64 - 1 < cap * ((2 ^ 64 - 1) / cap + 1) := Nat.lt_mul_div_succ _ hpos
  generalize (2 ^ 64 - 1) / cap = quot at h hle hgt
  obtain ⟨e, rfl⟩ : ∃ e, quot = e * 2 ^ 32 + (2 ^ 32 - 1) := by
    refine ⟨quot / 2 ^ 32, ?_⟩
    unfold u32 at h
    omega
  have hmul : (e * 2 ^ 32 + (2 ^ 32 - 1)) * cap + cap = 2 ^ 32 * (cap * (e + 1)) := by
    ring
  have hmul' : cap * (e * 2 ^ 32 + (2 ^ 32 - 1) + 1) = 2 ^ 32 * (cap * (e + 1)) := by
    ring
  refine ⟨e + 1, ?_⟩
  rw [hmul'] at hgt
  omega

/-- From one position to another there is no end of the store, or the capacity divides `2 ^ 32`. -/
def Foldable (cap k d : ℕ) : Prop := cap ∣ 2 ^ 32 ∨ (k + d) / cap = k / cap

theorem addInt_natCast (it : Iterator) (t : ℕ) : it.addInt q t = it.add q t := by
  have h32 : ((t : ℤ) % 2 ^ 32).toNat = u32 t := by
    unfold u32
    omega
  have h64 : (((t : ℤ) + it.idx) % 2 ^ 64).toNat = u64 (t + it.idx) := by
    unfold u64
    omega
  rw [Iterator.addInt, Iterator.add, h32, h64]

theorem le_of_dvd {cap : ℕ} (hlt : cap < 2 ^ 32) (h : cap ∣ 2 ^ 32) : cap ≤ 2 ^ 31 := by
  obtain ⟨e, he⟩ := h
  rcases Nat.lt_or_ge e 2 with h2 | h2
  · interval_cases e <;> omega
  · have : cap * 2 ≤ cap * e := Nat.mul_le_mul_left _ h2
    omega

section

variable (hcap : 0 < q.capacity) (hlt : q.capacity < 2 ^ 32) (hd : d ≤ q.capacity)
  (hfold : Foldable q.capacity k d)
include hcap hlt hd hfold

theorem addInt_position : (position q.capacity k).addInt q d = position q.capacity (k + d) := by
  rw [addInt_natCast]
  apply add_position hcap
  have hmod := mod_lt k hcap
  have hmod' := mod_lt (k + d) hcap
  rcases hfold with hdvd | hsame
  · have := le_of_dvd hlt hdvd
    omega
  · rcases round_cases k hcap hd with ⟨hm, -⟩ | ⟨-, hr⟩ <;> omega

theorem addInt_neg_position :
    (position q.capacity (k + d)).addInt q (-d) = position q.capacity k := by
  have hmod := mod_lt k hcap
  have hmod' := mod_lt (k + d) hcap
  rcases Nat.eq_zero_or_pos d with rfl | hd0
  · exact addInt_position hcap hlt hd hfold
  have h32 : ((-(d : ℤ)) % 2 ^ 32).toNat = 2 ^ 32 - d := by omega
  rw [Iterator.addInt, h32, position_idx, position_round, moduloAdd, position]
  rcases round_cases k hcap hd with ⟨hm, hr⟩ | ⟨hm, hr⟩
  · have hidx : u32 ((k + d) % q.capacity + (2 ^ 32 - d)) = k % q.capacity := by
      unfold u32
      omega
    have h64 : ((-(d : ℤ) + ((k + d) % q.capacity : ℕ)) % 2 ^ 64).toNat = k % q.capacity := by
      omega
    rw [hidx, h64, Nat.div_eq_of_lt hmod, hr, mod_mod]
    simp [u32]
  · have hdvd : q.capacity ∣ 2 ^ 32 := hfold.resolve_right (by omega)
    -- `m` positions before the start of the store
    obtain ⟨m, hm1, hmk⟩ : ∃ m, 1 ≤ m ∧ m + k % q.capacity = q.capacity :=
      ⟨q.capacity - k % q.capacity, by omega, by omega⟩
    have hidx : u32 ((k + d) % q.capacity + (2 ^ 32 - d)) = 2 ^ 32 - m := by
      unfold u32
      omega
    have h64 : ((-(d : ℤ) + ((k + d) % q.capacity : ℕ)) % 2 ^ 64).toNat = 2 ^ 64 - m := by
      omega
    have hcell : (2 ^ 32 - m) % q.capacity = k % q.capacity := by
      obtain ⟨e, he⟩ := hdvd
      have he0 : 1 ≤ e := Nat.pos_of_ne_zero fun h => by simp [h] at he
      have hsplit : 2 ^ 32 - m = k % q.capacity + q.capacity * (e - 1) := by
        rw [he, Nat.mul_sub, Nat.mul_one]
        have := Nat.le_mul_of_pos_right q.capacity he0
        omega
      rw [hsplit, Nat.add_mul_mod_self_left, mod_mod]
    rw [hidx, h64, hcell, hr, borrow_div hdvd hm1 (by omega)]

theorem subInt_position (hidx : k % q.capacity < 2 ^ 31) :
    (position q.capacity (k + d)).subInt q d = position q.capacity k := by
  have hmod := mod_lt k hcap
  have hmod' := mod_lt (k + d) hcap
  have h32 : ((d : ℤ) % 2 ^ 32).toNat = d := by omega
  rw [Iterator.subInt, if_pos (by omega), h32, position_idx, position_round, moduloSub, position]
  rcases round_cases k hcap hd with ⟨hm, hr⟩ | ⟨hm, hr⟩
  · have h64 : ((-(d : ℤ) + ((k + d) % q.capacity : ℕ)) % 2 ^ 64).toNat = k % q.capacity := by
      omega
    have hsub : sub ((k + d) % q.capacity) d q.capacity = (k % q.capacity : ℕ) := by
      unfold sub
      split_ifs
      · rw [hm, Nat.add_sub_cancel, mod_mod, i32_of_lt hidx]
      · rw [show k % q.capacity = 0 by omega, show d - (k + d) % q.capacity = 0 by omega]
        simp [i32]
    simp only [hsub]
    rw [h64, Nat.div_eq_of_lt hmod, hr, if_pos (by omega), Int.toNat_natCast]
    simp [u32]
  · have hdvd : q.capacity ∣ 2 ^ 32 := hfold.resolve_right (by omega)
    have hle := le_of_dvd hlt hdvd
    obtain ⟨m, hm1, hmk⟩ : ∃ m, 1 ≤ m ∧ m + k % q.capacity = q.capacity :=
      ⟨q.capacity - k % q.capacity, by omega, by omega⟩
    have h64 : ((-(d : ℤ) + ((k + d) % q.capacity : ℕ)) % 2 ^ 64).toNat = 2 ^ 64 - m := by
      omega
    rw [h64, hr, borrow_div hdvd hm1 (by omega)]
    have hback : d - (k + d) % q.capacity = m := by omega
    simp only [sub, if_neg (show ¬ (k + d) % q.capacity > d by omega), hback]
    rcases Nat.lt_or_ge m q.capacity with hlt' | hge
    · rw [mod_eq_of_lt hlt', i32_neg (by omega), if_neg (by omega)]
      simp only [Iterator.mk.injEq, and_true]
      omega
    · rw [show m = q.capacity by omega, mod_self]
      simp only [i32, Nat.cast_zero, neg_zero, Int.zero_bmod, ge_iff_le, le_refl, if_true,
        Int.toNat_zero, Iterator.mk.injEq, and_true]
      omega

end

/-- The iterators from `begin()` to `end()` are those of the positions from `p` to `p + n`. -/
structure Spans (q : CircularQueue T) (p n : ℕ) : Prop where
  pos : 0 < q.capacity
  lt : q.capacity < 2 ^ 32
  le : n ≤ q.capacity
  size : q.size = n
  beginIt : q.beginIt = position q.capacity p
  endIt : q.endIt = position q.capacity (p + n)
  empty : q.empty = true → n = 0
  head : 0 < n → q.head = p % q.capacity

theorem Consistent.endIt_eq (h : q.Consistent) :
    q.endIt = position q.capacity (q.capacity * (q.round + 2 ^ 32) + q.tail + 1) := by
  have htail := h.tail
  have hround := h.round
  have hmod := mod_lt (q.tail + 1) h.pos
  have hidx := h.endIt_idx
  have hpoi : moduloAdd q.tail 1 q.capacity = (q.tail + 1) % q.capacity := hidx
  rw [endIt, position, hpoi, Nat.add_assoc, Nat.mul_add_mod, Nat.mul_add_div h.pos]
  simp only [Iterator.mk.injEq, true_and]
  rcases Nat.lt_or_eq_of_le (Nat.succ_le_of_lt htail) with hlt | heq
  · rw [Nat.div_eq_of_lt hlt, mod_eq_of_lt hlt, if_neg (by omega)]
    unfold u32
    omega
  · rw [show q.tail + 1 = q.capacity from heq, Nat.div_self h.pos, mod_self, if_pos rfl]
    unfold u32
    omega

theorem Consistent.spans (h : q.Consistent) (hhead : q.empty = true ∨ q.head < q.capacity) :
    ∃ p n, q.Spans p n := by
  have htail := h.tail
  have hround := h.round
  have hlt := h.lt
  have hend := h.endIt_eq
  cases hempty : q.empty with
  | true =>
    refine ⟨_, 0, h.pos, h.lt, Nat.zero_le _, by simp [size, hempty], ?_, hend, fun _ => rfl,
      by omega⟩
    rw [beginIt, hempty, if_pos rfl, hend]
  | false =>
    have hlt' : q.head < q.capacity := by simpa [hempty] using hhead
    have hbegin := beginIt.eq_def q
    have hsize := size.eq_def q
    simp only [hempty, Bool.false_eq_true, if_false] at hbegin hsize
    rcases Nat.lt_or_ge q.tail q.head with hgt | hle
    · -- the elements go on at the start of the store
      rw [if_pos hgt] at hbegin
      rw [if_neg (by omega), u32, mod_eq_of_lt (by omega)] at hsize
      have hpos : q.capacity * (q.round + (2 ^ 32 - 1)) + q.capacity =
          q.capacity * (q.round + 2 ^ 32) := by
        rw [← Nat.mul_succ]
        congr 1
      refine ⟨q.capacity * (q.round + (2 ^ 32 - 1)) + q.head,
        q.capacity - q.head + q.tail + 1, h.pos, h.lt, by omega, hsize, ?_, ?_,
        by simp [hempty], fun _ => ?_⟩
      · rw [hbegin, position, Nat.mul_add_mod, mod_eq_of_lt hlt', Nat.mul_add_div h.pos,
          Nat.div_eq_of_lt hlt', Nat.add_zero]
      · rw [hend, ← hpos]
        generalize q.capacity * (q.round + (2 ^ 32 - 1)) = start
        exact congrArg (position q.capacity) (by omega)
      · rw [Nat.mul_add_mod, mod_eq_of_lt hlt']
    · rw [if_neg (by omega)] at hbegin
      rw [if_pos hle] at hsize
      refine ⟨q.capacity * (q.round + 2 ^ 32) + q.head, q.tail - q.head + 1, h.pos, h.lt, by omega,
        hsize, ?_, ?_, by simp [hempty], fun _ => ?_⟩
      · rw [hbegin, position, Nat.mul_add_mod, mod_eq_of_lt hlt', Nat.mul_add_div h.pos,
          Nat.div_eq_of_lt hlt', Nat.add_zero]
        simp only [Iterator.mk.injEq, true_and, u32]
        omega
      · rw [hend]
        generalize q.capacity * (q.round + 2 ^ 32) = start
        exact congrArg (position q.capacity) (by omega)
      · rw [Nat.mul_add_mod, mod_eq_of_lt hlt']

namespace Spans

theorem iteratorAt_eq (h : q.Spans p n) (i : ℕ) : q.iteratorAt i = position q.capacity (p + i) := by
  rw [iteratorAt, h.beginIt, iterate_next_position h.pos h.lt]

theorem decrementable (h : q.Spans p n) {i : ℕ} (hi : i < n) :
    (position q.capacity (p + i + 1)).decrementable q = true := by
  have hle := h.le
  have hempty : q.empty = false := by
    by_contra hne
    have := h.empty (by simpa using hne)
    omega
  rw [Iterator.decrementable, hempty, Bool.false_or, position_idx, position_round,
    h.head (by omega)]
  by_cases hcell : (p + i + 1) % q.capacity = p % q.capacity
  · -- only `end()` of a full queue is at the head
    have hfull : i + 1 = q.capacity := by
      by_contra hne
      exact Ring.cell_ne (show p < p + i + 1 by omega) (by omega) hcell.symm
    have hend := h.endIt
    rw [show p + n = p + i + 1 by omega, CircularQueue.endIt, position, Iterator.mk.injEq] at hend
    obtain ⟨hidx, hround⟩ := hend
    rw [← hidx, ← hround]
    split_ifs with h0 <;> simp [h0]
  · simp [hcell]

variable {i d : ℕ}

theorem prevs_eq (h : q.Spans p n) (hi : i + d ≤ n) :
    (position q.capacity (p + (i + d))).prevs q d = .ok (position q.capacity (p + i)) := by
  induction d with
  | zero => rfl
  | succ d ih =>
    have hprev := prev_position (k := p + (i + d)) h.pos h.lt
      (h.decrementable (i := i + d) (by omega))
    rw [Iterator.prevs, show p + (i + (d + 1)) = p + (i + d) + 1 by omega, hprev, ok_bind]
    exact ih (by omega)

end Spans

theorem Plain.foldable (hp : q.Plain) (h : q.Spans p n) (hi : i + d ≤ n) :
    Foldable q.capacity (p + i) d := by
  rcases hp.capacity with hdvd | hsame
  · exact .inl hdvd
  · right
    rw [h.beginIt, h.endIt, position_round, position_round] at hsame
    -- the rounds of the ends differ by one at most
    have hends : (p + n) / q.capacity = p / q.capacity := by
      rcases round_cases p h.pos h.le with ⟨-, hr⟩ | ⟨-, hr⟩
      · exact hr
      · rw [hr] at hsame
        exact absurd hsame.symm (u32_succ_ne _)
    have hle : p / q.capacity ≤ (p + i) / q.capacity := Nat.div_le_div_right (by omega)
    have hle' : (p + i + d) / q.capacity ≤ (p + n) / q.capacity := Nat.div_le_div_right (by omega)
    have hmid : (p + i) / q.capacity ≤ (p + i + d) / q.capacity := Nat.div_le_div_right (by omega)
    omega

theorem Plain.idx_lt (hp : q.Plain) (h : q.Spans p n) {i : ℕ} (hi : i ≤ n) :
    (p + i) % q.capacity < 2 ^ 31 := by
  have hle := h.le
  have hmod := mod_lt (p + i) h.pos
  rcases hp.foldable h (i := i) (d := n - i) (by omega) with hdvd | hsame
  · have := le_of_dvd h.lt hdvd
    omega
  · have hend := hp.idx
    rw [h.endIt, position_idx] at hend
    rcases round_cases (p + i) h.pos (show n - i ≤ q.capacity by omega) with
      ⟨hm, -⟩ | ⟨-, hr⟩
    · rw [show p + i + (n - i) = p + n by omega] at hm
      omega
    · omega

theorem Iterator.lt_iff (it that : Iterator) : it.lt that = true ↔
    it.round < that.round ∨ it.round = that.round ∧ it.idx < that.idx := by
  simp [Iterator.lt]

theorem Plain.lt_iff (hp : q.Plain) (h : q.Spans p n) (hi : i + d ≤ n) :
    ((position q.capacity (p + i)).lt (position q.capacity (p + i + d)) = true ↔ 0 < d) ∧
      (position q.capacity (p + i + d)).lt (position q.capacity (p + i)) = false := by
  have hle := h.le
  have hround := hp.round
  rw [h.beginIt, h.endIt, position_round, position_round] at hround
  have hle₁ : p / q.capacity ≤ (p + i) / q.capacity := Nat.div_le_div_right (by omega)
  have hle₂ : (p + i + d) / q.capacity ≤ (p + n) / q.capacity := Nat.div_le_div_right (by omega)
  have hends := round_cases p h.pos h.le
  rw [← Bool.not_eq_true, Iterator.lt_iff, Iterator.lt_iff, position_idx, position_idx,
    position_round, position_round]
  have hmod := mod_lt (p + i) h.pos
  rcases round_cases (p + i) h.pos (show d ≤ q.capacity by omega) with ⟨hm, hr⟩ | ⟨hm, hr⟩
  · rw [hm, hr]
    omega
  · -- the round goes up without wrapping around
    have hlt : u32 ((p + i) / q.capacity) < u32 ((p + i + d) / q.capacity) := by
      rw [hr]
      unfold u32 at *
      omega
    omega

theorem Plain.iteratorLaws (hp : q.Plain) (h : q.Spans p n) : q.IteratorLaws := by
  have hle := h.le
  have hsmall := hp.size
  rw [h.size] at hsmall
  have hup : ∀ {i d}, i + d ≤ n → (position q.capacity (p + i)).addInt q d =
      position q.capacity (p + i + d) := fun hi =>
    addInt_position h.pos h.lt (by omega) (hp.foldable h hi)
  have hdown : ∀ {i d}, i + d ≤ n → (position q.capacity (p + i + d)).addInt q (-d) =
      position q.capacity (p + i) := fun hi =>
    addInt_neg_position h.pos h.lt (by omega) (hp.foldable h hi)
  -- of two iterators one is some positions after the other
  have hcases : ∀ {i j : ℕ}, i ≤ n → j ≤ n → (∃ d, j = i + d ∧ (j : ℤ) - i = d) ∨
      ∃ d, i = j + d ∧ (j : ℤ) - i = -d := by
    intro i j _ _
    rcases Nat.le_total i j with hij | hij
    · exact .inl ⟨j - i, by omega, by omega⟩
    · exact .inr ⟨i - j, by omega, by omega⟩
  constructor <;> simp only [h.size, h.iteratorAt_eq]
  · intro i hi j hj
    rcases hcases hi hj with ⟨d, rfl, hn⟩ | ⟨d, rfl, hn⟩ <;> rw [hn]
    · rw [hup hj]
      exact diff_position h.pos (by omega) (by omega)
    · rw [← Nat.add_assoc, hdown hi]
      exact diff_position_neg h.pos (by omega) (by omega)
  · intro i hi j hj
    rcases hcases hi hj with ⟨d, rfl, hn⟩ | ⟨d, rfl, hn⟩ <;> rw [hn]
    · rw [hup hj]
      exact subInt_position h.pos h.lt (by omega) (hp.foldable h hj) (hp.idx_lt h hi)
    · rw [← Nat.add_assoc, hdown hi]
      rcases Nat.eq_zero_or_pos d with rfl | hd
      · exact subInt_position (d := 0) h.pos h.lt (by omega) (hp.foldable h hi)
          (hp.idx_lt h hj)
      · rw [Iterator.subInt, if_neg (by omega), neg_neg]
        exact hup hi
  · intro i d hi
    rw [hup hi, iterate_next_position h.pos h.lt]
  · intro i d hd hi
    obtain ⟨j, rfl⟩ := Nat.exists_eq_add_of_le hd
    rw [Nat.add_comm d j, h.prevs_eq (by omega), ← Nat.add_assoc, hdown (by omega)]
  · intro i hi j hj
    rcases hcases hi hj with ⟨d, rfl, -⟩ | ⟨d, rfl, -⟩ <;> rw [← Nat.add_assoc]
    · rw [(hp.lt_iff h hj).1, diff_position h.pos (by omega) (by omega)]
      omega
    · rw [(hp.lt_iff h hi).2, diff_position_neg h.pos (by omega) (by omega)]
      simp

theorem diff_lt (it that : Iterator) : it.diff q that < 2 ^ 31 := by
  unfold Iterator.diff sub
  simp only
  split_ifs <;> exact i32_lt _

theorem Spans.exists_wrap (h : q.Spans p n) (hne : q.beginIt.round ≠ q.endIt.round) :
    ∃ i, i + 1 ≤ n ∧ (p + i) / q.capacity = p / q.capacity ∧
      (p + i + 1) / q.capacity = (p + i) / q.capacity + 1 ∧ (p + i + 1) % q.capacity = 0 := by
  have hmod := mod_lt p h.pos
  rw [h.beginIt, h.endIt, position_round, position_round] at hne
  rcases round_cases p h.pos h.le with ⟨-, hr⟩ | ⟨hm, -⟩
  · exact absurd (by rw [hr]) hne
  obtain ⟨i, hi⟩ : ∃ i, i + 1 + p % q.capacity = q.capacity :=
    ⟨q.capacity - p % q.capacity - 1, by omega⟩
  have hmod' := mod_lt (p + i + 1) h.pos
  refine ⟨i, by omega, ?_⟩
  rcases Ring.step_cases p (show i < q.capacity by omega) with ⟨hm₁, hr₁⟩ | ⟨hm₁, hr₁⟩
  · rcases round_cases p h.pos (show i + 1 ≤ q.capacity by omega) with
      ⟨hm₂, hr₂⟩ | ⟨hm₂, hr₂⟩
    · rw [← Nat.add_assoc] at hm₂
      omega
    · rw [← Nat.add_assoc] at hm₂ hr₂
      exact ⟨hr₁, by rw [hr₂, hr₁], by omega⟩
  · omega

theorem Consistent.head_of_laws (h : q.Consistent) (hl : q.IteratorLaws) :
    q.empty = true ∨ q.head < q.capacity := by
  by_contra hne
  rw [not_or, Bool.not_eq_true] at hne
  obtain ⟨hempty, hhead⟩ := hne
  obtain ⟨hcap, hone⟩ := h.head.resolve_left hhead
  have htail : q.tail = 0 := by have := h.tail; omega
  have hsize : q.size = 1 := by simp [size, hempty, hcap, hone, htail, u32]
  have hbegin : q.beginIt = ⟨1, u32 (q.round + (2 ^ 32 - 1))⟩ := by
    simp [beginIt, hempty, hone, htail]
  have hup := hl.reached_up 0 1 (by omega)
  rw [iteratorAt, Function.iterate_zero_apply, Function.iterate_one, hbegin, Iterator.addInt,
    Iterator.next, increase, hcap] at hup
  have hround := congrArg Iterator.round hup
  simp only [moduloAdd, Nat.mod_one, if_true, Nat.div_one] at hround
  unfold u32 at hround
  omega

theorem IteratorLaws.plain (h : q.Consistent) (hl : q.IteratorLaws) : q.Plain := by
  have hhead := h.head_of_laws hl
  obtain ⟨p, n, hs⟩ := h.spans hhead
  obtain ⟨hdiff, hback, hup, -, hlt⟩ := hl
  simp only [hs.size, hs.iteratorAt_eq] at hdiff hback hup hlt
  have hup : ∀ i d, i + d ≤ n → (position q.capacity (p + i)).addInt q d =
      position q.capacity (p + i + d) := fun i d hi => by
    rw [hup i d hi, iterate_next_position hs.pos hs.lt]
  have hsucc : ∀ i : ℕ, ((i + 1 : ℕ) : ℤ) - i = (1 : ℕ) := fun i => by push_cast; ring
  refine ⟨hhead, ?_, ?_, ?_, ?_⟩
  · -- one step back over the end of the store
    by_contra hne
    rw [not_or] at hne
    obtain ⟨i, hi, -, hr, hm⟩ := hs.exists_wrap hne.2
    have hstep := hback i (by omega) (i + 1) hi
    rw [hsucc, hup i 1 hi, Iterator.subInt, if_pos (by omega), position_idx, position_round, hm,
      hr] at hstep
    exact hne.1 (dvd_of_borrow h.pos h.lt (congrArg Iterator.round hstep))
  · rw [hs.size]
    have hwhole := hdiff 0 (Nat.zero_le _) n le_rfl
    have := diff_lt (q := q) ((position q.capacity (p + 0)).addInt q (n - (0 : ℕ)))
      (position q.capacity (p + 0))
    rw [hwhole] at this
    omega
  · rw [hs.endIt, position_idx]
    have hmod := mod_lt (p + n) hs.pos
    have hsame := hback n le_rfl n le_rfl
    have hlt' := h.lt
    rw [sub_self, show (0 : ℤ) = (0 : ℕ) from rfl, hup n 0 le_rfl, Nat.add_zero, Iterator.subInt,
      if_pos (by simp)] at hsame
    have hidx := congrArg Iterator.idx hsame
    by_contra hge
    simp only [position_idx, moduloSub, sub, Nat.cast_zero, Int.zero_emod, Int.toNat_zero,
      if_pos (show (p + n) % q.capacity > 0 by omega), Nat.sub_zero, mod_mod] at hidx
    have hneg : i32 ((p + n) % q.capacity : ℕ) = ((p + n) % q.capacity : ℕ) - 2 ^ 32 := by
      unfold i32
      rw [Int.bmod_def]
      omega
    rw [hneg, if_neg (by omega)] at hidx
    omega
  · by_contra hgt
    obtain ⟨i, hi, hfirst, hr, -⟩ := hs.exists_wrap (by omega)
    have hends := round_cases p hs.pos hs.le
    rw [hs.beginIt, hs.endIt, position_round, position_round] at hgt
    have hord := hlt i (by omega) (i + 1) hi
    rw [← Nat.add_assoc, diff_position hs.pos hs.pos (by omega), Iterator.lt_iff, position_round,
      position_round, hr, hfirst] at hord
    unfold u32 at hord hgt
    omega

/-- In every queue that calls can make, the laws of iterator arithmetic hold exactly if it is
plain. -/
theorem iteratorLaws_iff_plain [Inhabited T] {cap : ℕ} (hpos : 0 < cap) (hlt : cap < 2 ^ 32)
    (hq : Run.Reachable step (init cap : CircularQueue T) q) : q.IteratorLaws ↔ q.Plain := by
  have h : q.Consistent := hq.inv (init_consistent hpos hlt) fun _ _ _ _ => step_consistent
  constructor
  · exact IteratorLaws.plain h
  · intro hp
    obtain ⟨p, n, hs⟩ := h.spans hp.head
    exact hp.iteratorLaws hs

/-- Four elements in a store of four cells, which wrap around in it. -/
theorem iteratorLaws_iff_plain_four : ∃ q : CircularQueue Unit,
    Run.Reachable step (init 4) q ∧ q.size = 4 ∧ q.IteratorLaws := by
  have hq : Run.Reachable step (init 4 : CircularQueue Unit)
      (advanceTail^[4] (init 4)) := ⟨[.advanceTailBy 4], [[]], rfl⟩
  refine ⟨_, hq, by decide, (iteratorLaws_iff_plain (by decide) (by decide) hq).2 ?_⟩
  exact ⟨.inr (by decide), .inl (by decide), by decide, by decide, by decide⟩

/-- Two elements in the last cells of three: `end()` is in the next round, and from there neither
`- 1` nor `+ (-1)` leads back to the last element. -/
theorem end_minus_one_of_three : ∃ q : CircularQueue Unit,
    Run.Reachable step (init 3) q ∧ q.iteratorAt q.size = q.endIt ∧
      q.endIt.prev q = .ok (q.iteratorAt 1) ∧
      (q.iteratorAt 1).addInt q 1 = q.endIt ∧ q.endIt.subInt q 1 ≠ q.iteratorAt 1 ∧
      q.endIt.addInt q (-1) ≠ q.iteratorAt 1 :=
  ⟨advanceTail^[2] (init 3), ⟨[.advanceTailBy 2], [[]], rfl⟩, by decide, by decide, by decide,
    by decide, by decide⟩

end Gem5Nvm.CircularQueue
