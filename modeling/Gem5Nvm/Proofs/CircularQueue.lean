import Gem5Nvm.CircularQueue
import Gem5Nvm.Lib.Ring

/-!
# Circular queues are bounded lists

The elements of a queue are at positions `p`, `p + 1`, … of an endless tape that is wound around the
store; head, tail and round are the cells and the round of its ends (`Shape`). Every iterator is that
of a position, so that `++`, `+` and `-` are those of positions.
-/

namespace Gem5Nvm.CircularQueue

open Ring (Window)
open Sim (bind_eq_ok ok_bind pure_eq)
open Ring (cell_ne fill length_rtake step_cases)
open Nat (mod_eq_of_lt mod_lt)
open List (length_drop length_append)

variable {T : Type} {q q' : CircularQueue T} {p n : ℕ} {xs : List T}

def position (cap k : ℕ) : Iterator := ⟨k % cap, u32 (k / cap)⟩

/-- The ends of `n` elements from position `p` on. -/
structure Shape (q : CircularQueue T) (p n : ℕ) : Prop where
  two : 2 ≤ q.capacity
  lt : q.capacity < 2 ^ 32
  pos : 1 ≤ p
  head : q.head = p % q.capacity
  tail : q.tail = (p + n - 1) % q.capacity
  round : q.round = u32 ((p + n - 1) / q.capacity)
  empty : q.empty = decide (n = 0)
  le : n ≤ q.capacity

structure Holds (q : CircularQueue T) (p : ℕ) (xs : List T) : Prop where
  shape : q.Shape p xs.length
  window : Window q.store q.capacity p xs

/-! ### Positions -/

theorem moduloAdd_position {cap k t : ℕ} (h : k % cap + t < 2 ^ 32) :
    moduloAdd (k % cap) (u32 t) cap = (k + t) % cap := by
  unfold moduloAdd u32
  rw [mod_eq_of_lt (a := t) (by omega), mod_eq_of_lt h, Nat.mod_add_mod]

variable {k : ℕ}

theorem increase_position (hcap : 0 < q.capacity) (hlt : q.capacity < 2 ^ 32) :
    q.increase (k % q.capacity) = (k + 1) % q.capacity :=
  moduloAdd_position (t := 1) (by have := mod_lt k hcap; omega)

theorem add_position {k t : ℕ} (hcap : 0 < q.capacity) (h : k % q.capacity + t < 2 ^ 32) :
    (position q.capacity k).add q t = position q.capacity (k + t) := by
  have hdiv : (k + t) / q.capacity = k / q.capacity + (t + k % q.capacity) / q.capacity := by
    have heq : k + t = t + k % q.capacity + q.capacity * (k / q.capacity) := by
      have := Nat.mod_add_div k q.capacity
      omega
    rw [heq, Nat.add_mul_div_left _ _ hcap, Nat.add_comm]
  simp only [Iterator.add, position, Iterator.mk.injEq]
  refine ⟨moduloAdd_position h, ?_⟩
  rw [hdiv, u64_of_lt (by omega)]
  simp [u32]

theorem next_position (hcap : 2 ≤ q.capacity) (hlt : q.capacity < 2 ^ 32) :
    (position q.capacity k).next q = position q.capacity (k + 1) := by
  have hmod := mod_lt k (show 0 < q.capacity by omega)
  simp only [Iterator.next, position, Iterator.mk.injEq,
    increase_position (show 0 < q.capacity by omega) hlt, true_and]
  rcases step_cases k (show 1 < q.capacity by omega) with ⟨hm, hd⟩ | ⟨hm, hd⟩
  · rw [if_neg (by omega), hd]
  · rw [if_pos (by omega), hd]
    simp [u32]

theorem position_inj {cap k d : ℕ} (hd : d ≤ cap) (h : position cap (k + d) = position cap k) :
    d = 0 := by
  by_contra hd0
  rw [position, position, Iterator.mk.injEq] at h
  obtain ⟨hmod, hdiv⟩ := h
  rcases Nat.lt_or_ge d cap with hlt | hge
  · exact cell_ne (show k < k + d by omega) (by omega) hmod.symm
  · obtain rfl : d = cap := by omega
    rw [Nat.add_div_right _ (by omega)] at hdiv
    unfold u32 at hdiv
    omega

theorem i32_of_lt {d : ℕ} (h : d < 2 ^ 31) : i32 d = d := by
  unfold i32
  rw [Int.bmod_def]
  omega

theorem u32_succ_ne (r : ℕ) : u32 (r + 1) ≠ u32 r := by
  unfold u32
  omega

theorem u32_succ_sub (r : ℕ) : u32 (u32 (r + 1) + (2 ^ 32 - u32 r)) = 1 := by
  unfold u32
  omega

theorem diff_position {k d : ℕ} (hcap : 0 < q.capacity) (hd : d ≤ q.capacity) (hlt : d < 2 ^ 31) :
    (position q.capacity (k + d)).diff q (position q.capacity k) = d := by
  unfold Iterator.diff position
  simp only
  rcases Nat.lt_or_ge d q.capacity with hlt' | hge
  · have hmod := mod_lt k hcap
    rcases step_cases k hlt' with ⟨hm, hr⟩ | ⟨hm, hr⟩
    · rw [hr, if_neg (by simp), hm]
      unfold sub
      split_ifs
      · rw [Nat.add_sub_cancel_left, mod_eq_of_lt hlt', i32_of_lt hlt]
      · have : d = 0 := by omega
        subst this
        simp [i32]
    · -- the tail is in the next round
      have hback : k % q.capacity - (k + d) % q.capacity = q.capacity - d := by omega
      rw [hr, if_pos (u32_succ_ne _), u32_succ_sub, sub, if_neg (by omega), hback,
        mod_eq_of_lt (by omega)]
      unfold i32
      rw [Int.bmod_add_bmod, ← i32, ← i32_of_lt hlt]
      congr 1
      push_cast [Nat.le_of_lt hlt']
      ring
  · obtain rfl : d = q.capacity := by omega
    rw [Nat.add_div_right _ hcap, Nat.add_mod_right, if_pos (u32_succ_ne _), u32_succ_sub, sub,
      if_neg (by omega)]
    simpa [i32] using i32_of_lt hlt

theorem iterate_advanceTail_frame (q : CircularQueue T) (len : ℕ) :
    (advanceTail^[len] q).capacity = q.capacity ∧ (advanceTail^[len] q).store = q.store := by
  induction len generalizing q with
  | zero => exact ⟨rfl, rfl⟩
  | succ len ih => exact ih q.advanceTail

namespace Shape

section

variable (h : q.Shape p n)
include h

theorem increase_tail : q.increase q.tail = (p + n) % q.capacity := by
  have htwo := h.two
  have hpos := h.pos
  rw [h.tail, increase_position (by omega) h.lt, show p + n - 1 + 1 = p + n by omega]

theorem endIt_eq : q.endIt = position q.capacity (p + n) := by
  have hpos := h.pos
  have hnext := next_position (q := q) (k := p + n - 1) h.two h.lt
  rw [show p + n = p + n - 1 + 1 by omega, ← hnext]
  simp only [endIt, Iterator.next, position, increase, ← h.tail, ← h.round]

theorem head_lt : q.head < q.capacity := by
  have htwo := h.two
  rw [h.head]
  exact mod_lt _ (by omega)

theorem cases (hn : 0 < n) :
    q.head < q.capacity ∧ (q.tail = q.head + (n - 1) ∧ q.round = u32 (p / q.capacity) ∨
      q.tail + q.capacity = q.head + (n - 1) ∧ q.round = u32 (p / q.capacity + 1)) ∧
      q.tail < q.capacity := by
  have hle := h.le
  have hcap : 0 < q.capacity := by omega
  have hp := mod_lt p hcap
  rw [h.tail, h.head, h.round, Nat.add_sub_assoc hn]
  refine ⟨hp, ?_, mod_lt _ hcap⟩
  rcases step_cases p (show n - 1 < q.capacity by omega) with ⟨hm, hd⟩ | ⟨hm, hd⟩
  · exact .inl ⟨hm, by rw [hd]⟩
  · exact .inr ⟨hm, by rw [hd]⟩

theorem beginIt_eq : q.beginIt = position q.capacity p := by
  unfold beginIt
  rw [h.empty]
  by_cases hn : n = 0
  · subst hn
    simpa using h.endIt_eq
  · simp only [hn, decide_false, Bool.false_eq_true, if_false]
    have hle := h.le
    obtain ⟨hhead, ⟨ht, hr⟩ | ⟨ht, hr⟩, htail⟩ := h.cases (by omega)
    · rw [if_neg (by omega), position, hr, h.head]
    · rw [if_pos (by omega), position, hr, h.head]
      simp only [Iterator.mk.injEq, true_and, u32]
      omega

theorem advanceTail : q.advanceTail.Shape (p + (n + 1 - q.capacity)) (min (n + 1) q.capacity) := by
  have htwo := h.two
  have hpos := h.pos
  have hle := h.le
  have hend := h.endIt_eq
  have htail := h.increase_tail
  have hhead : q.advanceTail.head = (p + (n + 1 - q.capacity)) % q.capacity := by
    simp only [CircularQueue.advanceTail, htail, h.head, h.empty]
    rcases Nat.lt_or_ge n q.capacity with hn | hn
    · rw [if_neg, show n + 1 - q.capacity = 0 by omega, Nat.add_zero]
      rintro ⟨heq, hn0⟩
      have hn0 : n ≠ 0 := by simpa using hn0
      exact cell_ne (show p < p + n by omega) (by omega) heq.symm
    · obtain rfl : n = q.capacity := by omega
      rw [if_pos, increase_position (by omega) h.lt, Nat.add_sub_cancel_left]
      exact ⟨Nat.add_mod_right _ _, by simp; omega⟩
  have hlast : p + (n + 1 - q.capacity) + min (n + 1) q.capacity - 1 = p + n := by omega
  refine ⟨htwo, h.lt, by omega, hhead, ?_, ?_, ?_, min_le_right _ _⟩
  · rw [hlast]
    exact htail
  · rw [hlast]
    exact congrArg Iterator.round hend
  · simp only [CircularQueue.advanceTail]
    rw [eq_comm, decide_eq_false_iff_not]
    omega

theorem setStore (store : ℕ → T) : Shape { q with store } p n :=
  ⟨h.two, h.lt, h.pos, h.head, h.tail, h.round, h.empty, h.le⟩

theorem iterate_advanceTail (len : ℕ) :
    (CircularQueue.advanceTail^[len] q).Shape (p + (n + len - q.capacity))
      (min (n + len) q.capacity) := by
  induction len with
  | zero =>
    have hle := h.le
    rw [show n + 0 - q.capacity = 0 by omega, show min (n + 0) q.capacity = n by omega]
    exact h
  | succ len ih =>
    rw [Function.iterate_succ_apply']
    have hnext := ih.advanceTail
    rw [(iterate_advanceTail_frame q len).1] at hnext
    rwa [show p + (n + (len + 1) - q.capacity) = p + (n + len - q.capacity) +
        (min (n + len) q.capacity + 1 - q.capacity) by omega,
      show min (n + (len + 1)) q.capacity = min (min (n + len) q.capacity + 1) q.capacity by omega]

theorem popBack (hn : 0 < n) :
    ∃ q', q.popBack = .ok q' ∧ q'.capacity = q.capacity ∧ q'.store = q.store ∧
      q'.Shape p (n - 1) := by
  have hpos := h.pos
  have hle := h.le
  have htwo := h.two
  have hempty : q.empty = false := by
    rw [h.empty]
    simp
    omega
  have hok : q.popBack = .ok { q with
      empty := q.head = q.tail
      round := if q.tail = 0 then u32 (q.round + (2 ^ 32 - 1)) else q.round
      tail := q.decrease q.tail } := by
    simp [CircularQueue.popBack, assert, hempty]
  refine ⟨_, hok, rfl, rfl, ?_⟩
  obtain ⟨hhead, hcase, htail⟩ := h.cases hn
  -- the last element is one position further on
  have hlast : p + n - 1 = p + (n - 1) - 1 + 1 := by omega
  have hmod := mod_lt (p + (n - 1) - 1) (show 0 < q.capacity by omega)
  have hround := h.round
  have htail' := h.tail
  rw [hlast] at hround htail'
  refine ⟨htwo, h.lt, hpos, h.head, ?_, ?_, ?_, ?_⟩
  · simp only [decrease]
    rcases step_cases (p + (n - 1) - 1) (show 1 < q.capacity by omega) with ⟨hm, hd⟩ | ⟨hm, hd⟩
    · rw [if_pos (by omega)]
      omega
    · rw [if_neg (by omega)]
      omega
  · rcases step_cases (p + (n - 1) - 1) (show 1 < q.capacity by omega) with ⟨hm, hd⟩ | ⟨hm, hd⟩
    · simp only
      rw [if_neg (by omega), hround, hd]
    · simp only
      rw [if_pos (by omega), hround, hd]
      unfold u32
      omega
  · simp only [decide_eq_decide]
    omega
  · simp only
    omega

theorem size_eq : q.size = n := by
  have hle := h.le
  have hlt := h.lt
  unfold size u32
  rw [h.empty]
  by_cases hn : n = 0
  · simp [hn]
  · simp only [hn, decide_false, Bool.false_eq_true, if_false]
    obtain ⟨hhead, ⟨ht, -⟩ | ⟨ht, -⟩, htail⟩ := h.cases (by omega)
    · rw [if_pos (by omega)]
      omega
    · rw [if_neg (by omega)]
      omega

theorem full_iff : q.full = true ↔ n = q.capacity := by
  have hle := h.le
  have htwo := h.two
  unfold full
  rw [h.empty]
  by_cases hn : n = 0
  · simp [hn]
    omega
  · simp only [hn, decide_false, Bool.not_false, Bool.true_and, Bool.or_eq_true, beq_iff_eq,
      Bool.and_eq_true]
    obtain ⟨hhead, ⟨ht, -⟩ | ⟨ht, -⟩, htail⟩ := h.cases (by omega)
    · omega
    · omega

theorem iteratorAt_eq (k : ℕ) : q.iteratorAt k = position q.capacity (p + k) := by
  induction k with
  | zero => exact h.beginIt_eq
  | succ k ih =>
    rw [iteratorAt, Function.iterate_succ_apply', ← iteratorAt, ih, next_position h.two h.lt,
      Nat.add_assoc]

theorem cell_iff {idx : ℕ} (hidx : idx < q.capacity) :
    (∃ k < n, (p + k) % q.capacity = idx) ↔
      q.head ≤ idx ∧ idx < q.head + n ∨ idx + q.capacity < q.head + n := by
  have hle := h.le
  have hhead := h.head
  have hcap := h.head_lt
  constructor
  · rintro ⟨k, hk, rfl⟩
    rcases step_cases p (show k < q.capacity by omega) with ⟨hm, -⟩ | ⟨hm, -⟩ <;> omega
  · rintro (⟨hlow, hhigh⟩ | hhigh)
    · refine ⟨idx - q.head, by omega, ?_⟩
      rcases step_cases p (show idx - q.head < q.capacity by omega) with ⟨hm, -⟩ | ⟨hm, -⟩ <;>
        omega
    · refine ⟨idx + q.capacity - q.head, by omega, ?_⟩
      rcases step_cases p (show idx + q.capacity - q.head < q.capacity by omega) with
        ⟨hm, -⟩ | ⟨hm, -⟩
      · have := mod_lt (p + (idx + q.capacity - q.head)) (show 0 < q.capacity by omega)
        omega
      · omega

theorem isValidIdx_iff {idx : ℕ} (hidx : idx < q.capacity) :
    q.isValidIdx idx = true ↔ n = 1 ∨ ∃ k < n, (p + k) % q.capacity = idx := by
  have hle := h.le
  have htwo := h.two
  have hlow := h.head_lt
  rw [h.cell_iff hidx]
  unfold isValidIdx
  rw [h.empty]
  by_cases hn : n = 0
  · simp [hn]
    omega
  · obtain ⟨hhead, ⟨ht, -⟩ | ⟨ht, -⟩, htail⟩ := h.cases (by omega)
    all_goals
      simp only [hn, decide_false, Bool.false_or, Bool.not_eq_true', Bool.or_eq_false_iff,
        Bool.and_eq_false_iff, decide_eq_false_iff_not, not_lt]
      omega

theorem getIterator_eq (hk : k < n) :
    q.getIterator ((p + k) % q.capacity) = .ok (position q.capacity (p + k)) := by
  have hle := h.le
  have hlt := h.lt
  have hidx := mod_lt (p + k) (show 0 < q.capacity by omega)
  have hvalid : q.isValidIdx ((p + k) % q.capacity) = true :=
    (h.isValidIdx_iff hidx).2 (.inr ⟨k, hk, rfl⟩)
  have hempty : q.empty = false := by
    rw [h.empty]
    simp
    omega
  obtain ⟨hhead, hcase, htail⟩ := h.cases (by omega)
  have hhead' := h.head
  simp only [getIterator, hvalid, Bool.true_or, assert, if_true, ok_bind, hempty,
    Bool.false_eq_true, if_false, pure_eq, position]
  congr 2
  · unfold u32
    omega
  · rcases step_cases p (show k < q.capacity by omega) with ⟨hm, hd⟩ | ⟨hm, hd⟩
    · rcases hcase with ⟨ht, hr⟩ | ⟨ht, hr⟩
      · rw [if_neg (by omega), if_neg (by omega), hr, hd]
      · rw [if_pos (by omega), if_pos (by omega), hr, hd]
        unfold u32
        omega
    · rcases hcase with ⟨ht, hr⟩ | ⟨ht, hr⟩
      · omega
      · rw [if_neg (by omega), if_neg (by omega), hr, hd]

end

end Shape

/-! ### Elements -/

namespace Holds

theorem get_eq (h : q.Holds p xs) (hk : k < xs.length) :
    q.get ((p + k) % q.capacity) = .ok xs[k] := by
  have htwo := h.shape.two
  rw [get, if_pos (mod_lt _ (by omega))]
  have := h.window k hk
  rw [List.getElem?_eq_getElem hk] at this
  rw [Option.some.inj this]

theorem copyOut_eq (h : q.Holds p xs) {n o : ℕ} (hn : o + n ≤ xs.length) :
    q.copyOut n (position q.capacity (p + o)) = .ok ((xs.drop o).take n) := by
  induction n generalizing o with
  | zero => simp [copyOut]
  | succ n ih =>
    have hget := h.get_eq (show o < xs.length by omega)
    rw [copyOut, next_position h.shape.two h.shape.lt, Nat.add_assoc, ih (by omega)]
    simp only [position, hget, ok_bind, pure_eq]
    rw [List.drop_eq_getElem_cons (show o < xs.length by omega), List.take_succ_cons]

theorem collect_eq (h : q.Holds p xs) {fuel o : ℕ} (ho : o ≤ xs.length)
    (hfuel : xs.length < fuel + o) :
    q.collect fuel (position q.capacity (p + o)) = .ok (xs.drop o) := by
  induction fuel generalizing o with
  | zero => omega
  | succ fuel ih =>
    unfold collect
    rw [h.shape.endIt_eq]
    have hle := h.shape.le
    by_cases hlast : o = xs.length
    · subst hlast
      simp
    · have hne : position q.capacity (p + o) ≠ position q.capacity (p + xs.length) := by
        intro heq
        rw [show p + xs.length = p + o + (xs.length - o) by omega] at heq
        have := position_inj (by omega) heq.symm
        omega
      have hget := h.get_eq (show o < xs.length by omega)
      have hrest := ih (show o + 1 ≤ xs.length by omega) (by omega)
      rw [if_neg hne, next_position h.shape.two h.shape.lt, Nat.add_assoc]
      simp only [hrest]
      simp only [position, hget, ok_bind, pure_eq]
      rw [← List.drop_eq_getElem_cons]

theorem elements_eq (h : q.Holds p xs) : q.elements = .ok xs := by
  have hle := h.shape.le
  rw [elements, h.shape.beginIt_eq]
  exact h.collect_eq (o := 0) (by omega) (by omega)

theorem peek_eq (h : q.Holds p xs) {offset len : ℕ} (hlen : offset + len ≤ xs.length)
    (hfit : q.head + (offset + len) < 2 ^ 32) (hlt : len < 2 ^ 31) :
    q.peek offset len = .ok ((xs.drop offset).take len) := by
  have hle := h.shape.le
  have htwo := h.shape.two
  have hhead := h.shape.head
  have hsize : decide (u64 (offset + len) > q.size) = false := by
    rw [h.shape.size_eq, u64_of_lt (by omega)]
    simpa using hlen
  have hmod : (p + offset) % q.capacity ≤ p % q.capacity + offset := by
    rcases Nat.lt_or_ge offset q.capacity with ho | ho
    · rcases step_cases p ho with ⟨hm, -⟩ | ⟨hm, -⟩ <;> omega
    · have := mod_lt (p + offset) (show 0 < q.capacity by omega)
      omega
  rw [peek, hsize, panicIf, if_neg (by simp), ok_bind, h.shape.beginIt_eq]
  have hcap : 0 < q.capacity := by omega
  simp only [add_position hcap (show p % q.capacity + offset < 2 ^ 32 by omega),
    add_position hcap (show (p + offset) % q.capacity + len < 2 ^ 32 by omega),
    diff_position hcap (show len ≤ q.capacity by omega) hlt, Int.toNat_natCast]
  exact h.copyOut_eq hlen

/-! ### Calls -/

section

variable (h : q.Holds p xs)
include h

theorem flush : q.flush.Holds 1 [] := by
  have htwo := h.shape.two
  refine ⟨⟨htwo, h.shape.lt, le_rfl, ?_, ?_, ?_, rfl, Nat.zero_le _⟩, Ring.window_nil _ _ _⟩
  · exact (mod_eq_of_lt htwo).symm
  · simp [CircularQueue.flush]
  · simp [CircularQueue.flush, u32]

theorem popBack (hxs : xs ≠ []) :
    ∃ q', q.popBack = .ok q' ∧ q'.capacity = q.capacity ∧ q'.Holds p xs.dropLast := by
  obtain ⟨q', hok, hcap, hstore, hshape⟩ := h.shape.popBack (List.length_pos_iff.2 hxs)
  refine ⟨q', hok, hcap, ?_, ?_⟩
  · rwa [List.length_dropLast]
  · rw [hstore, hcap, List.dropLast_eq_take]
    exact h.window.take _

variable {n : ℕ}

theorem popFront_eq (hn : n ≠ 0) (hfit : q.head + n < 2 ^ 32) :
    q.popFront n =
      (assert ((position q.capacity (p + n)).le (position q.capacity (p + xs.length)))
        "hIt <= end()").bind fun _ => .ok { q with
          empty := position q.capacity (p + n) = position q.capacity (p + xs.length)
          head := (p + n) % q.capacity } := by
  have htwo := h.shape.two
  have hhead := h.shape.head
  rw [CircularQueue.popFront, if_neg hn, h.shape.beginIt_eq, h.shape.endIt_eq,
    add_position (by omega) (by omega)]
  rfl

theorem popFront (hn : n ≤ xs.length) (hfit : q.head + n < 2 ^ 32) (hok : q.popFront n = .ok q') :
    q'.capacity = q.capacity ∧ q'.Holds (p + n) (xs.drop n) := by
  by_cases hn0 : n = 0
  · subst hn0
    obtain rfl : q = q' := by simpa [CircularQueue.popFront] using hok
    exact ⟨rfl, h⟩
  · rw [h.popFront_eq hn0 hfit] at hok
    obtain ⟨-, -, hq⟩ := bind_eq_ok.1 hok
    cases hq
    have hle := h.shape.le
    have hpos := h.shape.pos
    have hlast : p + n + (xs.drop n).length - 1 = p + xs.length - 1 := by
      rw [length_drop]
      omega
    refine ⟨rfl, ⟨h.shape.two, h.shape.lt, by omega, rfl, ?_, ?_, ?_, ?_⟩, h.window.drop n⟩
    · rw [hlast]
      exact h.shape.tail
    · rw [hlast]
      exact h.shape.round
    · simp only [decide_eq_decide, length_drop]
      constructor
      · intro heq
        have hsame : position q.capacity (p + n + (xs.length - n)) = position q.capacity (p + n) := by
          rw [heq]
          congr 1
          omega
        exact position_inj (by omega) hsame
      · intro heq
        congr 1
        omega
    · rw [length_drop]
      exact (Nat.sub_le _ _).trans hle

theorem popFront_ok (hn : n ≤ xs.length) (hfit : q.head + n < 2 ^ 32)
    (hround : (p + xs.length) / q.capacity < 2 ^ 32) : ∃ q', q.popFront n = .ok q' := by
  by_cases hn0 : n = 0
  · exact ⟨q, by simp [CircularQueue.popFront, hn0]⟩
  · have hdiv : (p + n) / q.capacity ≤ (p + xs.length) / q.capacity :=
      Nat.div_le_div_right (by omega)
    have hmod := Nat.mod_add_div (p + n) q.capacity
    have hmod' := Nat.mod_add_div (p + xs.length) q.capacity
    have hle : (position q.capacity (p + n)).le (position q.capacity (p + xs.length)) = true := by
      simp only [Iterator.le, Iterator.lt, position, u32, mod_eq_of_lt hround,
        mod_eq_of_lt (hdiv.trans_lt hround), Bool.not_eq_true', Bool.or_eq_false_iff,
        decide_eq_false_iff_not, not_lt, Bool.and_eq_false_iff, beq_eq_false_iff_ne]
      refine ⟨hdiv, ?_⟩
      by_cases heq : (p + xs.length) / q.capacity = (p + n) / q.capacity
      · right
        rw [heq] at hmod'
        omega
      · exact .inl heq
    rw [h.popFront_eq hn0 hfit, hle]
    exact ⟨_, rfl⟩

theorem advanceTail :
    ∃ x, q.advanceTail.Holds (p + (xs.length + 1 - q.capacity))
      ((xs ++ [x]).rtake q.capacity) := by
  have htwo := h.shape.two
  refine ⟨q.store ((p + xs.length) % q.capacity), ?_, ?_⟩
  · rw [length_rtake, length_append]
    exact h.shape.advanceTail
  · have hfill := h.window.fill
      (show [q.store ((p + xs.length) % q.capacity)].length ≤ q.capacity by simp; omega)
    rw [fill, fill, Function.update_eq_self] at hfill
    exact hfill

theorem iterate_advanceTail (len : ℕ) :
    ∃ ys : List T, ys.length = len ∧ (CircularQueue.advanceTail^[len] q).Holds
      (p + (xs.length + len - q.capacity)) ((xs ++ ys).rtake q.capacity) := by
  induction len with
  | zero =>
    have hle := h.shape.le
    refine ⟨[], rfl, ?_⟩
    rw [List.append_nil, List.rtake, show xs.length - q.capacity = 0 by omega,
      show xs.length + 0 - q.capacity = 0 by omega]
    exact h
  | succ len ih =>
    obtain ⟨ys, rfl, hys⟩ := ih
    obtain ⟨x, hx⟩ := hys.advanceTail
    refine ⟨ys ++ [x], by simp, ?_⟩
    rw [Function.iterate_succ_apply', ← List.append_assoc, ← Ring.rtake_rtake_append]
    rw [(iterate_advanceTail_frame q ys.length).1, length_rtake, length_append] at hx
    rwa [show p + (xs.length + (ys.length + 1) - q.capacity) = p + (xs.length + ys.length - q.capacity) +
      (min (xs.length + ys.length) q.capacity + 1 - q.capacity) by omega]

theorem pushBack (val : T) :
    ∃ q', q.pushBack val = .ok q' ∧ q'.capacity = q.capacity ∧
      q'.Holds (p + (xs.length + 1 - q.capacity)) ((xs ++ [val]).rtake q.capacity) := by
  have htwo := h.shape.two
  have htail : q.advanceTail.tail = (p + xs.length) % q.capacity := h.shape.increase_tail
  have hlt : q.advanceTail.tail < q.advanceTail.capacity := by
    rw [htail]
    exact mod_lt _ (show 0 < q.capacity by omega)
  refine ⟨_, if_pos hlt, rfl, ?_, ?_⟩
  · rw [length_rtake, length_append]
    exact h.shape.advanceTail.setStore _
  · rw [htail]
    exact h.window.fill (show [val].length ≤ q.capacity by simp; omega)

end

theorem copyIn_eq {q : CircularQueue T} (htwo : 2 ≤ q.capacity) (hlt : q.capacity < 2 ^ 32)
    (data : List T) (k : ℕ) :
    q.copyIn data (position q.capacity k) =
      .ok { q with store := fill q.store q.capacity k data } := by
  induction data generalizing q k with
  | nil => rfl
  | cons x data ih =>
    have hcell : k % q.capacity < q.capacity := mod_lt _ (by omega)
    have hset : q.set (k % q.capacity) x =
        .ok { q with store := Function.update q.store (k % q.capacity) x } := if_pos hcell
    have hrest := ih (q := { q with store := Function.update q.store (k % q.capacity) x }) htwo hlt
      (k + 1)
    have hnext := next_position (k := k) htwo hlt
    simp only [copyIn]
    rw [show (position q.capacity k).idx = k % q.capacity from rfl, hset, ok_bind]
    exact (congrArg _ hnext).trans hrest

theorem write (h : q.Holds p xs) {data : List T} (hlt : min data.length q.capacity < 2 ^ 31) :
    ∃ q', q.write data = .ok q' ∧ q'.capacity = q.capacity ∧
      q'.Holds (p + (xs.length + min data.length q.capacity - q.capacity))
        ((xs ++ data).rtake q.capacity) := by
  have hlast : (if data.length > q.capacity then data.drop (data.length - q.capacity) else data) =
      data.rtake q.capacity := by
    rw [List.rtake]
    split_ifs with hlong
    · rfl
    · rw [show data.length - q.capacity = 0 by omega, List.drop_zero]
  have hlen : (data.rtake q.capacity).length = min data.length q.capacity := length_rtake _ _
  have hshape := (h.shape.setStore (fill q.store q.capacity (p + xs.length)
    (data.rtake q.capacity))).iterate_advanceTail (data.rtake q.capacity).length
  obtain ⟨hcap, hstore⟩ := iterate_advanceTail_frame
    { q with store := fill q.store q.capacity (p + xs.length) (data.rtake q.capacity) }
    (data.rtake q.capacity).length
  refine ⟨_, ?_, hcap, ?_, ?_⟩
  · simp only [CircularQueue.write, hlast, h.shape.endIt_eq, copyIn_eq h.shape.two h.shape.lt,
      ok_bind, advanceTailBy]
    rw [if_pos (hlen ▸ hlt)]
  · have htotal : ((xs ++ data).rtake q.capacity).length =
        min (xs.length + (data.rtake q.capacity).length) q.capacity := by
      rw [hlen, length_rtake, length_append]
      omega
    rw [htotal, ← hlen]
    exact hshape
  · rw [hcap, hstore]
    have hfill := h.window.fill (hlen.trans_le (min_le_right _ _))
    rw [hlen, Ring.rtake_append_rtake] at hfill
    exact hfill

theorem observes (h : q.Holds p xs) : q.Observes xs := by
  have hle := h.shape.le
  have htwo := h.shape.two
  refine ⟨h.shape.size_eq, ?_, h.shape.full_iff, ?_, ?_, h.elements_eq, fun _ _ => h.peek_eq, ?_, ?_⟩
  · rw [h.shape.empty]
    cases xs <;> simp
  · intro x hx
    have hpos : 0 < xs.length := by
      cases xs <;> simp at hx ⊢
    have hget := h.get_eq hpos
    rw [Nat.add_zero, ← h.shape.head] at hget
    rw [front, hget, ← Option.some.inj (hx.symm.trans (List.head?_eq_getElem?.trans
      (List.getElem?_eq_getElem hpos)))]
  · intro x hx
    have hpos : 0 < xs.length := by
      cases xs <;> simp at hx ⊢
    have hget := h.get_eq (show xs.length - 1 < xs.length by omega)
    rw [← Nat.add_sub_assoc hpos, ← h.shape.tail] at hget
    rw [List.getLast?_eq_getElem?, List.getElem?_eq_getElem (by omega)] at hx
    rw [back, hget, Option.some.inj hx]
  · intro k hk
    refine ⟨xs[k], List.getElem?_eq_getElem hk, ?_⟩
    rw [h.shape.iteratorAt_eq]
    exact ⟨h.get_eq hk, h.shape.getIterator_eq hk⟩
  · intro idx hidx
    have hlive : q.Live xs idx ↔ ∃ k < xs.length, (p + k) % q.capacity = idx := by
      simp only [Live, h.shape.iteratorAt_eq, position]
    rw [h.shape.isValidIdx_iff hidx, ← hlive]
    by_cases hone : xs.length = 1
    · have hhead : q.Live xs idx ↔ idx = q.head := by
        rw [hlive, hone, h.shape.head]
        constructor
        · rintro ⟨k, hk, rfl⟩
          rw [show k = 0 by omega, Nat.add_zero]
        · rintro rfl
          exact ⟨0, by omega, rfl⟩
      simp [hone, hhead]
    · simp [hone]

end Holds

/-! ### Runs -/

/-- A call that returns does what it does to the list. -/
theorem step_refines {op : Op T} {out : List T} (h : q.Holds p xs) (hfits : q.Fits op)
    (hok : q.step op = .ok (out, q')) :
    ∃ p' xs', ListStep q.capacity xs op out xs' ∧ q'.Holds p' xs' ∧ q'.capacity = q.capacity ∧
      p' + xs'.length ≤ p + xs.length + op.advances q.capacity := by
  have hle := h.shape.le
  have hpos := h.shape.pos
  cases op with
  | pushBack val =>
    obtain ⟨q₁, hpush, hcap, hq₁⟩ := h.pushBack val
    simp only [step, hpush, ok_bind, pure_eq, Except.ok.injEq, Prod.mk.injEq] at hok
    obtain ⟨rfl, rfl⟩ := hok
    refine ⟨_, _, .pushBack val, hq₁, hcap, ?_⟩
    simp only [length_rtake, length_append, List.length_singleton, Op.advances]
    omega
  | advanceTail =>
    cases hok
    obtain ⟨x, hx⟩ := h.advanceTail
    refine ⟨_, _, .advanceTail x, hx, rfl, ?_⟩
    simp only [length_rtake, length_append, List.length_singleton, Op.advances]
    omega
  | advanceTailBy len =>
    obtain ⟨ys, rfl, hys⟩ := h.iterate_advanceTail len
    simp only [step, advanceTailBy, if_pos (show ys.length < 2 ^ 31 from hfits), ok_bind,
      pure_eq, Except.ok.injEq, Prod.mk.injEq] at hok
    obtain ⟨rfl, rfl⟩ := hok
    refine ⟨_, _, .advanceTailBy ys, hys, (iterate_advanceTail_frame q _).1, ?_⟩
    simp only [length_rtake, length_append, Op.advances]
    omega
  | popFront n =>
    obtain ⟨hn, hfit⟩ : n ≤ q.size ∧ q.head + n < 2 ^ 32 := hfits
    rw [h.shape.size_eq] at hn
    obtain ⟨q₁, hpop, hq₁⟩ := bind_eq_ok.1 hok
    cases hq₁
    obtain ⟨hcap, hq'⟩ := h.popFront hn hfit hpop
    refine ⟨_, _, .popFront hn, hq', hcap, ?_⟩
    rw [length_drop]
    omega
  | popBack =>
    have hxs : xs ≠ [] := by
      rintro rfl
      simp [step, CircularQueue.popBack, assert, h.shape.empty] at hok
    obtain ⟨q₁, hpop, hcap, hq₁⟩ := h.popBack hxs
    simp only [step, hpop, ok_bind, pure_eq, Except.ok.injEq, Prod.mk.injEq] at hok
    obtain ⟨rfl, rfl⟩ := hok
    refine ⟨_, _, .popBack hxs, hq₁, hcap, ?_⟩
    rw [List.length_dropLast]
    omega
  | flush =>
    cases hok
    refine ⟨_, _, .flush, h.flush, rfl, ?_⟩
    simp only [List.length_nil]
    omega
  | write data =>
    obtain ⟨q₁, hwrite, hcap, hq₁⟩ := h.write hfits
    simp only [step, hwrite, ok_bind, pure_eq, Except.ok.injEq, Prod.mk.injEq] at hok
    obtain ⟨rfl, rfl⟩ := hok
    refine ⟨_, _, .write data, hq₁, hcap, ?_⟩
    simp only [length_rtake, length_append, Op.advances]
    omega
  | peek offset len =>
    obtain ⟨hlen, hfit, hlt⟩ :
      offset + len ≤ q.size ∧ q.head + (offset + len) < 2 ^ 32 ∧ len < 2 ^ 31 := hfits
    rw [h.shape.size_eq] at hlen
    simp only [step, h.peek_eq hlen hfit hlt, ok_bind, pure_eq, Except.ok.injEq,
      Prod.mk.injEq] at hok
    obtain ⟨rfl, rfl⟩ := hok
    exact ⟨p, xs, .peek hlen, h, rfl, by omega⟩
  | read len =>
    obtain ⟨hlen, hfit, hlt⟩ : len ≤ q.size ∧ q.head + len < 2 ^ 32 ∧ len < 2 ^ 31 := hfits
    rw [h.shape.size_eq] at hlen
    have hpeek : q.peek 0 len = .ok (xs.take len) := by
      simpa using h.peek_eq (show 0 + len ≤ xs.length by omega) (by omega) hlt
    rw [step, CircularQueue.read, hpeek, ok_bind] at hok
    obtain ⟨q₁, hpop, hq₁⟩ := bind_eq_ok.1 hok
    cases hq₁
    obtain ⟨hcap, hq'⟩ := h.popFront hlen hfit hpop
    refine ⟨_, _, .read hlen, hq', hcap, ?_⟩
    rw [length_drop]
    omega

theorem Shape.round_lt (h : q.Shape p n) {advances : ℕ} (hround : (p + n - 1) / q.capacity < 2 ^ 32)
    (hcounts : q.round + (q.tail + advances) / q.capacity + 1 < 2 ^ 32) :
    (p + n + advances) / q.capacity < 2 ^ 32 := by
  have htwo := h.two
  have hpos := h.pos
  have hmod := Nat.mod_add_div (p + n - 1) q.capacity
  have hcounts' : (p + n - 1) / q.capacity + (q.tail + advances) / q.capacity + 1 < 2 ^ 32 := by
    rwa [h.round, u32, mod_eq_of_lt hround] at hcounts
  have hnext : p + n + advances =
      q.tail + advances + 1 + q.capacity * ((p + n - 1) / q.capacity) := by
    rw [h.tail]
    omega
  have hsucc : (q.tail + advances + 1) / q.capacity ≤ (q.tail + advances) / q.capacity + 1 := by
    rw [Nat.succ_div]
    split_ifs <;> omega
  rw [hnext, Nat.add_mul_div_left _ _ (by omega)]
  omega

theorem step_ok {op : Op T} (h : q.Holds p xs) (hfits : q.Fits op) (hcounts : q.Counts op)
    (hround : (p + xs.length - 1) / q.capacity < 2 ^ 32) : ∃ out q', q.step op = .ok (out, q') := by
  have hend := h.shape.round_lt hround hcounts.2
  cases op with
  | pushBack val =>
    obtain ⟨q₁, hpush, -⟩ := h.pushBack val
    exact ⟨[], q₁, by simp [step, hpush]⟩
  | advanceTail => exact ⟨[], q.advanceTail, rfl⟩
  | advanceTailBy len =>
    refine ⟨[], CircularQueue.advanceTail^[len] q, ?_⟩
    rw [step, advanceTailBy, if_pos (show len < 2 ^ 31 from hfits)]
    rfl
  | popFront n =>
    obtain ⟨hn, hfit⟩ : n ≤ q.size ∧ q.head + n < 2 ^ 32 := hfits
    rw [h.shape.size_eq] at hn
    obtain ⟨q₁, hpop⟩ := h.popFront_ok hn hfit hend
    exact ⟨[], q₁, by simp [step, hpop]⟩
  | popBack =>
    have hxs : xs ≠ [] := by
      rintro rfl
      simpa [h.shape.empty] using hcounts.1 rfl
    obtain ⟨q₁, hpop, -⟩ := h.popBack hxs
    exact ⟨[], q₁, by simp [step, hpop]⟩
  | flush => exact ⟨[], q.flush, rfl⟩
  | write data =>
    obtain ⟨q₁, hwrite, -⟩ := h.write hfits
    exact ⟨[], q₁, by simp [step, hwrite]⟩
  | peek offset len =>
    obtain ⟨hlen, hfit, hlt⟩ :
      offset + len ≤ q.size ∧ q.head + (offset + len) < 2 ^ 32 ∧ len < 2 ^ 31 := hfits
    rw [h.shape.size_eq] at hlen
    exact ⟨_, q, by simp [step, h.peek_eq hlen hfit hlt]; rfl⟩
  | read len =>
    obtain ⟨hlen, hfit, hlt⟩ : len ≤ q.size ∧ q.head + len < 2 ^ 32 ∧ len < 2 ^ 31 := hfits
    rw [h.shape.size_eq] at hlen
    have hpeek := h.peek_eq (show 0 + len ≤ xs.length by omega) (by omega) hlt
    obtain ⟨q₁, hpop⟩ := h.popFront_ok hlen hfit hend
    exact ⟨_, q₁, by simp [step, CircularQueue.read, hpeek, hpop]; rfl⟩

variable {ops : List (Op T)}

theorem run_refines {outs : List (List T)} (h : q.Holds p xs) (hfits : Run.Along step Fits q ops)
    (hrun : Run.run step q ops = .ok (outs, q')) :
    ∃ p' xs', ListRun q.capacity xs ops outs xs' ∧ q'.Holds p' xs' := by
  induction ops generalizing q p xs outs with
  | nil =>
    cases hrun
    exact ⟨p, xs, .nil, h⟩
  | cons op ops ih =>
    obtain ⟨out, q₁, outs', hstep, hrest, rfl⟩ := Run.run_cons_eq_ok.1 hrun
    obtain ⟨hop, hops⟩ := (Run.along_cons hstep).1 hfits
    obtain ⟨p₁, xs₁, hlist, h₁, hcap, -⟩ := step_refines h hop hstep
    obtain ⟨p', xs', hrun', h'⟩ := ih h₁ hops hrest
    rw [hcap] at hrun'
    exact ⟨p', xs', .cons hlist hrun', h'⟩

theorem run_ok (h : q.Holds p xs) (hround : (p + xs.length - 1) / q.capacity < 2 ^ 32)
    (hfits : Run.Along step Fits q ops) (hcounts : Run.Along step Counts q ops) :
    ∃ outs q', Run.run step q ops = .ok (outs, q') := by
  induction ops generalizing q p xs with
  | nil => exact ⟨[], q, rfl⟩
  | cons op ops ih =>
    obtain ⟨out, q₁, hstep⟩ := step_ok h hfits.1 hcounts.1 hround
    obtain ⟨p₁, xs₁, -, h₁, hcap, hlast⟩ := step_refines h hfits.1 hstep
    have hround₁ : (p₁ + xs₁.length - 1) / q₁.capacity < 2 ^ 32 := by
      refine lt_of_le_of_lt ?_ (h.shape.round_lt hround hcounts.1.2)
      rw [hcap]
      exact Nat.div_le_div_right (by omega)
    obtain ⟨outs, q', hrest⟩ := ih h₁ hround₁ (hfits.2 out q₁ hstep) (hcounts.2 out q₁ hstep)
    exact ⟨out :: outs, q', Run.run_cons hstep hrest⟩

variable [Inhabited T]

theorem init_holds {cap : ℕ} (htwo : 2 ≤ cap) (hlt : cap < 2 ^ 32) :
    (init cap : CircularQueue T).Holds 1 [] := by
  refine ⟨⟨htwo, hlt, le_rfl, ?_, ?_, ?_, rfl, Nat.zero_le _⟩, Ring.window_nil _ _ _⟩
  · exact (mod_eq_of_lt htwo).symm
  · simp [init]
  · simp [init, u32]

/-- A queue of at least two places behaves as a bounded list for every sequence of calls that
return and ask for no more than there is, except for what the index test says of a list of one
element; and the calls do return unless the round wraps around. -/
theorem circularQueue_refines {cap : ℕ} (htwo : 2 ≤ cap) (hlt : cap < 2 ^ 32) (ops : List (Op T))
    (hfits : Run.Along step Fits (init cap) ops) :
    (∀ outs q, Run.run step (init cap) ops = .ok (outs, q) →
      ∃ xs, ListRun cap [] ops outs xs ∧ q.Observes xs) ∧
    (Run.Along step Counts (init cap) ops →
      ∃ outs q, Run.run step (init cap : CircularQueue T) ops = .ok (outs, q)) := by
  have hinit := init_holds (T := T) htwo hlt
  refine ⟨fun outs q hrun => ?_, fun hcounts => ?_⟩
  · obtain ⟨p, xs, hlist, hq⟩ := run_refines hinit hfits hrun
    exact ⟨xs, hlist, hq.observes⟩
  · exact run_ok hinit (by simp [init]) hfits hcounts

/-- Two places, an overflow and a read. -/
theorem circularQueue_refines_overflow :
    ∃ outs, ∃ q : CircularQueue ℕ,
      Run.run step (init 2) [.pushBack 1, .pushBack 2, .pushBack 3, .read 1, .write [4]] =
        .ok (outs, q) ∧
      ∃ xs, ListRun 2 [] [.pushBack 1, .pushBack 2, .pushBack 3, .read 1, .write [4]] outs xs ∧
        q.Observes xs := by
  have hfits : Run.Along step Fits (init 2 : CircularQueue ℕ)
      [.pushBack 1, .pushBack 2, .pushBack 3, .read 1, .write [4]] := by
    refine (Run.along_cons rfl).2 ⟨trivial, (Run.along_cons rfl).2 ⟨trivial,
      (Run.along_cons rfl).2 ⟨trivial, (Run.along_cons rfl).2 ⟨?_, ?_, fun _ _ _ => trivial⟩⟩⟩⟩
    · exact ⟨by decide, by decide, by decide⟩
    · show min 1 2 < 2 ^ 31
      decide
  refine ⟨_, _, rfl, ?_⟩
  exact (circularQueue_refines (by decide) (by decide) _ hfits).1 _ _ rfl

/-- One place: the first element is looked up behind the store. One element in four places: the index
test accepts an index without an element. Popping `2 ^ 33` elements passes the check and pops none. -/
theorem circularQueue_diverges :
    (∃ q : CircularQueue ℕ, Run.run step (init 1) [.pushBack 7] = .ok ([[]], q) ∧
      q.front = .error (.undefined "vector::operator[]")) ∧
    (∃ q : CircularQueue ℕ, Run.run step (init 4) [.pushBack 7] = .ok ([[]], q) ∧
      q.elements = .ok [7] ∧ q.isValidIdx 3 = true ∧ ¬ q.Live [7] 3) ∧
    ∃ q : CircularQueue ℕ,
      Run.run step (init 2) [.pushBack 7, .popFront (2 ^ 33)] = .ok ([[], []], q) ∧
        q.elements = .ok [7] := by
  refine ⟨⟨_, rfl, rfl⟩, ⟨_, rfl, rfl, rfl, ?_⟩, ⟨_, rfl, rfl⟩⟩
  rintro ⟨k, hk, hidx⟩
  obtain rfl : k = 0 := by simpa using hk
  cases hidx

end Gem5Nvm.CircularQueue
