import Gem5Nvm.MessageBuffer

/-!
# The visible size of a message buffer

The messages a buffer held when a cycle began and those enqueued in it never come to more than the
capacity, since what `areNSlotsAvailable` compares with it is no less.  It is more if messages came
before the first pop of the cycle: `m_size_at_cycle_start` counts them already, and
`m_msgs_this_cycle` once more.
-/

namespace Gem5Nvm

open Sim (bind_eq_ok bind₂_eq_ok)
open Run (along_cons run run_inv)

namespace Message

variable {m x : Message} {heap : List Message}

@[simp] theorem length_push : (m.push heap).length = heap.length + 1 := by
  induction heap with
  | nil => rfl
  | cons m' rest ih =>
    rw [push]
    split_ifs <;> simp [ih]

@[simp] theorem mem_push : x ∈ m.push heap ↔ x = m ∨ x ∈ heap := by
  induction heap with
  | nil => simp [push]
  | cons m' rest ih =>
    rw [push]
    split_ifs
    · simp
    · simp only [List.mem_cons, ih]
      tauto

end Message

namespace StallMap

/-- The entries are in the order of their addresses, and none is empty. -/
structure Valid (map : StallMap) : Prop where
  sorted : SortedMap.Sorted map
  nonempty : ∀ addr stalled, map.lookup addr = some stalled → stalled ≠ []

variable {map : StallMap} {addr a : ℕ} {m x : Message}

theorem Valid.nil : Valid [] := ⟨SortedMap.sorted_nil, by simp⟩

theorem Valid.stalledOn_pushBack (hv : map.Valid) :
    (pushBack addr m map).stalledOn a =
      if a = addr then map.stalledOn a ++ [m] else map.stalledOn a := by
  unfold stalledOn pushBack
  rw [hv.sorted.lookup_alter]
  split_ifs with h
  · rw [h, Option.getD_some]
  · rfl

theorem stalledOn_erase :
    StallMap.stalledOn (SortedMap.erase addr map) a =
      if a = addr then [] else map.stalledOn a := by
  unfold stalledOn
  rw [SortedMap.lookup_erase]
  split_ifs <;> rfl

theorem Valid.pushBack (hv : map.Valid) : (pushBack addr m map).Valid where
  sorted := hv.sorted.alter
  nonempty := by
    intro a stalled h
    rw [StallMap.pushBack, hv.sorted.lookup_alter] at h
    split_ifs at h
    · cases h
      simp
    · exact hv.nonempty a stalled h

theorem Valid.erase (hv : map.Valid) : StallMap.Valid (SortedMap.erase addr map) where
  sorted := hv.sorted.erase addr
  nonempty := by
    intro a stalled h
    rw [SortedMap.lookup_erase] at h
    split_ifs at h
    exact hv.nonempty a stalled h

theorem Valid.size_pushBack (hv : map.Valid) : (StallMap.pushBack addr m map).size = map.size + 1 := by
  have := hv.sorted.weight_alter (k := addr) (w := List.length)
    (f := fun stalled => stalled.getD [] ++ [m])
  unfold size StallMap.pushBack
  cases h : map.lookup addr <;>
    simp only [h, Option.map_none, Option.map_some, Option.getD_none, Option.getD_some,
      List.length_append, List.length_singleton, List.length_nil] at this <;> omega

theorem Valid.size_erase (hv : map.Valid) (addr : ℕ) :
    StallMap.size (SortedMap.erase addr map) + (map.stalledOn addr).length = map.size := by
  have := hv.sorted.weight_erase (w := List.length) addr
  unfold size stalledOn
  cases h : map.lookup addr <;> simpa [h] using this

theorem Valid.stalledOn_of_mem (hv : map.Valid) {e : ℕ × List Message} (he : e ∈ map) :
    map.stalledOn e.1 = e.2 := by
  rw [stalledOn, hv.sorted.lookup_of_mem he, Option.getD_some]

end StallMap

namespace MessageBuffer

variable {b b' : MessageBuffer} {t : ℕ}

theorem reanalyzeList_spec {lt heap heap' : List Message}
    (h : reanalyzeList t lt heap = .ok heap') :
    heap'.length = heap.length + lt.length ∧ ∀ m ∈ heap', m ∈ heap ∨ m ∈ lt := by
  induction lt generalizing heap with
  | nil =>
    cases h
    exact ⟨rfl, fun m hm => .inl hm⟩
  | cons m lt ih =>
    obtain ⟨-, -, h⟩ := bind_eq_ok.1 h
    obtain ⟨hlen, hmem⟩ := ih h
    refine ⟨by rw [hlen, Message.length_push, List.length_cons]; omega, fun x hx => ?_⟩
    rcases hmem x hx with hx | hx
    · rcases Message.mem_push.1 hx with rfl | hx
      · exact .inr List.mem_cons_self
      · exact .inl hx
    · exact .inr (List.mem_cons_of_mem _ hx)

/-- The stall map is in order, its size is counted, and every message arrives after the start. -/
structure Valid (b : MessageBuffer) : Prop where
  map : b.stallMsgMap.Valid
  size : b.stallMapSize % 2 ^ 32 = (b.stallMsgMap.size : ℤ) % 2 ^ 32
  heap_pos : ∀ m ∈ b.prioHeap, 0 < m.lastEnqueueTime
  map_pos : ∀ addr, ∀ m ∈ b.stallMsgMap.stalledOn addr, 0 < m.lastEnqueueTime

theorem toInt32_emod (x : ℤ) : toInt32 x % 2 ^ 32 = x % 2 ^ 32 := by
  unfold toInt32
  omega

theorem Valid.stalled (hv : b.Valid) (hlt : b.stallMsgMap.size < 2 ^ 32) :
    (b.stallMapSize % 2 ^ 32).toNat = b.stallMsgMap.size := by
  have := hv.size
  omega

variable {m : Message}

theorem enqueue_spec {delta randomTime : ℕ} (h : b.enqueue m t delta randomTime = .ok b') :
    ∃ (m' : Message) (arrival counter : ℕ), t < m'.lastEnqueueTime ∧ b' = { b with
      timeLastTimeEnqueue := if b.timeLastTimeEnqueue < t then t else b.timeLastTimeEnqueue
      msgsThisCycle := u32 ((if b.timeLastTimeEnqueue < t then 0 else b.msgsThisCycle) + 1)
      msgCounter := counter
      lastArrivalTime := arrival
      prioHeap := m'.push b.prioHeap } := by
  unfold enqueue at h
  simp only [decide_eq_true_eq] at h
  obtain ⟨-, -, ⟨⟩, harrive, h⟩ := bind₂_eq_ok.1 h
  obtain ⟨-, -, -, -, h⟩ := bind₂_eq_ok.1 h
  obtain ⟨m', -, h⟩ := bind_eq_ok.1 h
  rw [assert_eq_ok, decide_eq_true_eq] at harrive
  cases h
  exact ⟨_, _, _, harrive, rfl⟩

theorem dequeue_spec (h : b.dequeue t = .ok (m, b')) :
    ∃ m₀ rest, b.prioHeap = m₀ :: rest ∧ m₀.lastEnqueueTime ≤ t ∧
      m.lastEnqueueTime = m₀.lastEnqueueTime ∧ b' = { b with
        sizeAtCycleStart :=
          if b.timeLastTimePop < t then u32 b.prioHeap.length else b.sizeAtCycleStart
        stalledAtCycleStart :=
          if b.timeLastTimePop < t then (b.stallMapSize % 2 ^ 32).toNat else b.stalledAtCycleStart
        timeLastTimePop := if b.timeLastTimePop < t then t else b.timeLastTimePop
        prioHeap := rest } := by
  unfold dequeue at h
  obtain ⟨-, -, h⟩ := bind_eq_ok.1 h
  cases hheap : b.prioHeap with
  | nil => simp [hheap] at h
  | cons m₀ rest =>
    simp only [hheap, Message.updateDelayedTicks] at h
    obtain ⟨m', hm', h⟩ := bind_eq_ok.1 h
    obtain ⟨⟨⟩, hready, hm'⟩ := bind_eq_ok.1 hm'
    rw [assert_eq_ok, decide_eq_true_eq] at hready
    cases hm'
    cases h
    refine ⟨m₀, rest, rfl, hready, rfl, ?_⟩
    simp only [decide_eq_true_eq]

variable {addr : ℕ}

theorem stallMessage_spec (h : b.stallMessage addr t = .ok b') :
    ∃ m b₁, b.dequeue t = .ok (m, b₁) ∧ b' = { b₁ with
      stallMsgMap := b₁.stallMsgMap.pushBack addr m
      stallMapSize := toInt32 (b₁.stallMapSize + 1) } := by
  unfold stallMessage at h
  obtain ⟨-, -, -, -, h⟩ := bind₂_eq_ok.1 h
  obtain ⟨⟨m, b₁⟩, hdeq, h⟩ := bind_eq_ok.1 h
  cases h
  exact ⟨m, b₁, hdeq, rfl⟩

theorem reanalyzeMessages_spec (h : b.reanalyzeMessages addr t = .ok b') :
    ∃ heap, reanalyzeList t (b.stallMsgMap.stalledOn addr) b.prioHeap = .ok heap ∧ b' = { b with
      prioHeap := heap
      stallMapSize := toInt32 (b.stallMapSize - (b.stallMsgMap.stalledOn addr).length)
      stallMsgMap := SortedMap.erase addr b.stallMsgMap } := by
  unfold reanalyzeMessages at h
  obtain ⟨-, -, -, -, h⟩ := bind₂_eq_ok.1 h
  obtain ⟨heap, hheap, h⟩ := bind_eq_ok.1 h
  cases h
  exact ⟨heap, hheap, rfl⟩

theorem reanalyzeAll_spec {map : StallMap} {size size' : ℤ} {heap heap' : List Message}
    (h : reanalyzeAll t map size heap = .ok (size', heap')) :
    heap'.length = heap.length + map.size ∧ size' % 2 ^ 32 = (size - map.size) % 2 ^ 32 ∧
      ∀ m ∈ heap', m ∈ heap ∨ ∃ e ∈ map, m ∈ e.2 := by
  induction map generalizing size heap with
  | nil =>
    cases h
    exact ⟨rfl, by simp [StallMap.size, SortedMap.weight], fun m hm => .inl hm⟩
  | cons e map ih =>
    obtain ⟨addr, stalled⟩ := e
    obtain ⟨-, -, heap₁, hlist, h⟩ := bind₂_eq_ok.1 h
    obtain ⟨hlen, hsize, hmem⟩ := ih h
    obtain ⟨hlen₁, hmem₁⟩ := reanalyzeList_spec hlist
    refine ⟨?_, ?_, fun m hm => ?_⟩
    · simp only [StallMap.size, SortedMap.weight, List.map_cons, List.sum_cons] at hlen ⊢
      omega
    · simp only [StallMap.size, SortedMap.weight, List.map_cons, List.sum_cons, Nat.cast_add]
        at hsize ⊢
      rw [hsize, Int.sub_emod, toInt32_emod, ← Int.sub_emod]
      congr 1
      ring
    · rcases hmem m hm with hm | ⟨e, he, hm⟩
      · rcases hmem₁ m hm with hm | hm
        · exact .inl hm
        · exact .inr ⟨_, List.mem_cons_self, hm⟩
      · exact .inr ⟨e, List.mem_cons_of_mem _ he, hm⟩

theorem reanalyzeAllMessages_spec (h : b.reanalyzeAllMessages t = .ok b') :
    ∃ size heap, reanalyzeAll t b.stallMsgMap b.stallMapSize b.prioHeap = .ok (size, heap) ∧
      b' = { b with prioHeap := heap, stallMapSize := size, stallMsgMap := [] } := by
  obtain ⟨⟨size, heap⟩, hall, h⟩ := bind_eq_ok.1 h
  cases h
  exact ⟨size, heap, hall, rfl⟩

variable {delta randomTime : ℕ}

theorem Valid.enqueue (hv : b.Valid) (h : b.enqueue m t delta randomTime = .ok b') :
    b'.Valid ∧ b'.held = b.held + 1 := by
  obtain ⟨m', arrival, counter, hpos, rfl⟩ := enqueue_spec h
  refine ⟨⟨hv.map, hv.size, fun x hx => ?_, hv.map_pos⟩, ?_⟩
  · rcases Message.mem_push.1 hx with rfl | hx
    · exact (Nat.zero_le t).trans_lt hpos
    · exact hv.heap_pos x hx
  · simp only [held, Message.length_push]
    omega

theorem Valid.dequeue (hv : b.Valid) (h : b.dequeue t = .ok (m, b')) :
    b'.Valid ∧ b.held = b'.held + 1 ∧ 0 < m.lastEnqueueTime ∧ m.lastEnqueueTime ≤ t := by
  obtain ⟨m₀, rest, hheap, hready, hm, rfl⟩ := dequeue_spec h
  have hpos := hv.heap_pos m₀ (hheap ▸ List.mem_cons_self)
  refine ⟨⟨hv.map, hv.size, fun x hx => ?_, hv.map_pos⟩, ?_, hm ▸ hpos, hm ▸ hready⟩
  · exact hv.heap_pos x (hheap ▸ List.mem_cons_of_mem _ hx)
  · simp only [held, hheap, List.length_cons]
    omega

theorem Valid.stallMessage (hv : b.Valid) (h : b.stallMessage addr t = .ok b') :
    b'.Valid ∧ b'.held = b.held := by
  obtain ⟨m, b₁, hdeq, rfl⟩ := stallMessage_spec h
  obtain ⟨hv₁, hheld, hpos, -⟩ := hv.dequeue hdeq
  refine ⟨⟨hv₁.map.pushBack, ?_, hv₁.heap_pos, fun a x hx => ?_⟩, ?_⟩
  · rw [toInt32_emod, hv₁.map.size_pushBack, Int.add_emod, hv₁.size, ← Int.add_emod]
    push_cast
    rfl
  · rw [hv₁.map.stalledOn_pushBack] at hx
    split_ifs at hx
    · rcases List.mem_append.1 hx with hx | hx
      · exact hv₁.map_pos a x hx
      · rw [List.mem_singleton.1 hx]
        exact hpos
    · exact hv₁.map_pos a x hx
  · simp only [held, hv₁.map.size_pushBack] at hheld ⊢
    omega

theorem Valid.reanalyzeMessages (hv : b.Valid) (h : b.reanalyzeMessages addr t = .ok b') :
    b'.Valid ∧ b'.held = b.held := by
  obtain ⟨heap, hlist, rfl⟩ := reanalyzeMessages_spec h
  obtain ⟨hlen, hmem⟩ := reanalyzeList_spec hlist
  have hsize := hv.map.size_erase addr
  refine ⟨⟨hv.map.erase, ?_, fun x hx => ?_, fun a x hx => ?_⟩, ?_⟩
  · rw [toInt32_emod, Int.sub_emod, hv.size, ← Int.sub_emod, ← hsize]
    push_cast
    congr 1
    ring
  · rcases hmem x hx with hx | hx
    · exact hv.heap_pos x hx
    · exact hv.map_pos addr x hx
  · rw [StallMap.stalledOn_erase] at hx
    split_ifs at hx
    · cases hx
    · exact hv.map_pos a x hx
  · simp only [held]
    omega

theorem Valid.reanalyzeAllMessages (hv : b.Valid) (h : b.reanalyzeAllMessages t = .ok b') :
    b'.Valid ∧ b'.held = b.held := by
  obtain ⟨size, heap, hall, rfl⟩ := reanalyzeAllMessages_spec h
  obtain ⟨hlen, hsize, hmem⟩ := reanalyzeAll_spec hall
  refine ⟨⟨StallMap.Valid.nil, ?_, fun x hx => ?_, by simp [StallMap.stalledOn]⟩, ?_⟩
  · rw [hsize, Int.sub_emod, hv.size, ← Int.sub_emod, sub_self]
    rfl
  · rcases hmem x hx with hx | ⟨e, he, hx⟩
    · exact hv.heap_pos x hx
    · exact hv.map_pos e.1 x (by rwa [hv.map.stalledOn_of_mem he])
  · simp only [held, hlen]
    rfl

/-- What a buffer's counters say of the current cycle.  At time 0, when nothing has arrived, the
buffer takes its times for those of a pop and an enqueue. -/
structure Follows (M : ℕ) (b : MessageBuffer) (c : Cycle) : Prop where
  valid : b.Valid
  maxSize : b.maxSize = M
  room : c.held + c.enqueued ≤ M
  granted : c.granted = true → c.held + c.enqueued + 1 ≤ M
  small : M < 2 ^ 31 ∨ c.early = 0
  held_le : b.held ≤ c.held + c.enqueued
  early_le : c.early ≤ c.enqueued
  unpopped : c.popped = false → b.held = c.held + c.enqueued ∧ c.early = 0
  pop_le : b.timeLastTimePop ≤ c.time
  popped : b.timeLastTimePop < c.time → c.popped = false
  pop_eq : b.timeLastTimePop = c.time →
    b.sizeAtCycleStart + b.stalledAtCycleStart = c.held + c.early ∧ (c.popped = false → c.time = 0)
  enqueue_le : b.timeLastTimeEnqueue ≤ c.time
  enqueue_lt : b.timeLastTimeEnqueue < c.time → c.enqueued = 0
  enqueue_eq : b.timeLastTimeEnqueue = c.time → b.msgsThisCycle = c.enqueued

variable {M : ℕ} {c : Cycle}

theorem Follows.start (M : ℕ) (ordered randomization warmupEnabled : Bool) (blockSizeBits : ℕ) :
    Follows M (new M ordered randomization warmupEnabled blockSizeBits) start := by
  constructor <;> simp [new, MessageBuffer.start, held, StallMap.size, SortedMap.weight]
  exact ⟨StallMap.Valid.nil, rfl, by simp, by simp [StallMap.stalledOn]⟩

theorem Follows.advance (h : Follows M b c) (t : ℕ) : Follows M b (c.advance b t) := by
  unfold Cycle.advance
  split_ifs with ht
  · have := h.room
    have := h.held_le
    have := h.pop_le
    have := h.enqueue_le
    constructor <;> simp only [Nat.add_zero, Bool.false_eq_true, false_implies, or_true, le_refl,
      and_self, implies_true, h.valid, h.maxSize] <;> omega
  · exact h

theorem advance_time (ht : c.time ≤ t) : (c.advance b t).time = t := by
  unfold Cycle.advance
  split_ifs
  · rfl
  · omega

section

variable (h : Follows M b c) (hM : M + 1 < 2 ^ 32)
include h hM

theorem Follows.visibleSize : b.visibleSize c.time = c.held + c.enqueued + c.early := by
  have hroom := h.room
  have hearly := h.early_le
  have hsmall := h.small
  have hle := h.held_le
  simp only [held] at hle
  unfold MessageBuffer.visibleSize
  by_cases hpop : b.timeLastTimePop < c.time
  · rw [if_pos hpop]
    obtain ⟨hheld, he⟩ := h.unpopped (h.popped hpop)
    rw [h.valid.stalled (by omega)]
    simp only [held, u32] at hheld ⊢
    omega
  · rw [if_neg hpop]
    have heq : b.timeLastTimePop = c.time := by
      have := h.pop_le
      omega
    obtain ⟨hsize, -⟩ := h.pop_eq heq
    by_cases henq : b.timeLastTimeEnqueue < c.time
    · have := h.enqueue_lt henq
      simp only [henq, if_true, u32]
      omega
    · have := h.enqueue_eq (by have := h.enqueue_le; omega)
      simp only [henq, if_false, u32]
      omega

theorem Follows.available_iff (hpos : 0 < M) (n : ℕ) :
    b.areNSlotsAvailable n c.time = true ↔ u32 (c.held + c.enqueued + c.early + n) ≤ M := by
  rw [areNSlotsAvailable, h.maxSize, if_neg (by omega), h.visibleSize hM, decide_eq_true_eq]

theorem Follows.enqueue (hgrant : c.granted = true)
    (he : b.enqueue m c.time delta randomTime = .ok b') : Follows M b' c.enqueue := by
  obtain ⟨hv, hheld⟩ := h.valid.enqueue he
  obtain ⟨m', arrival, counter, -, rfl⟩ := enqueue_spec he
  have hroom := h.granted hgrant
  have hle := h.held_le
  have hearly := h.early_le
  have henq := h.enqueue_le
  refine ⟨hv, h.maxSize, hroom, by simp [Cycle.enqueue], h.small, ?_, ?_, ?_, h.pop_le, h.popped,
    h.pop_eq, ?_, ?_, ?_⟩ <;> simp only [Cycle.enqueue]
  · omega
  · omega
  · intro hp
    obtain ⟨hu, he⟩ := h.unpopped hp
    omega
  · split_ifs <;> omega
  · split_ifs <;> omega
  · intro _
    split_ifs with hlt
    · rw [h.enqueue_lt hlt]
      rfl
    · rw [h.enqueue_eq (by omega), u32, Nat.mod_eq_of_lt (by omega)]

/-- Calls that take a message off the heap record the sizes if they are the first of the cycle. -/
theorem Follows.pop (hv : b'.Valid) (hheld : b'.held ≤ b.held) (htime : 0 < c.time)
    (hfirst : M < 2 ^ 31 ∨ c.popped = true ∨ c.enqueued = 0) (hmax : b'.maxSize = b.maxSize)
    (henq : b'.timeLastTimeEnqueue = b.timeLastTimeEnqueue)
    (hmsgs : b'.msgsThisCycle = b.msgsThisCycle)
    (hpop : b'.timeLastTimePop = if b.timeLastTimePop < c.time then c.time else b.timeLastTimePop)
    (hsize : b'.sizeAtCycleStart =
      if b.timeLastTimePop < c.time then u32 b.prioHeap.length else b.sizeAtCycleStart)
    (hstalled : b'.stalledAtCycleStart =
      if b.timeLastTimePop < c.time then (b.stallMapSize % 2 ^ 32).toNat
      else b.stalledAtCycleStart) : Follows M b' c.pop := by
  have hroom := h.room
  have hle := h.held_le
  have hearly := h.early_le
  have hpop_le := h.pop_le
  unfold Cycle.pop
  by_cases hp : c.popped = true
  · -- another pop of the cycle came before
    have hnot : ¬ b.timeLastTimePop < c.time := fun hlt => by simp [h.popped hlt] at hp
    rw [if_neg hnot] at hpop hsize hstalled
    rw [if_pos hp]
    refine ⟨hv, hmax.trans h.maxSize, hroom, h.granted, h.small, by omega, hearly, by simp [hp],
      hpop.trans_le hpop_le, ?_, ?_, henq ▸ h.enqueue_le, henq ▸ h.enqueue_lt, ?_⟩
    · rw [hpop]
      exact h.popped
    · rw [hpop, hsize, hstalled]
      exact h.pop_eq
    · rw [henq, hmsgs]
      exact h.enqueue_eq
  · rw [if_neg hp]
    have hp : c.popped = false := by simpa using hp
    obtain ⟨hu, he⟩ := h.unpopped hp
    have hlt : b.timeLastTimePop < c.time := by
      by_contra hne
      have := (h.pop_eq (by omega)).2 hp
      omega
    simp only [held] at hu hle
    rw [if_pos hlt, h.valid.stalled (by omega)] at hstalled
    rw [if_pos hlt] at hpop hsize
    refine ⟨hv, hmax.trans h.maxSize, hroom, h.granted, ?_, ?_, le_rfl, by simp, hpop.le, ?_, ?_,
      henq ▸ h.enqueue_le, henq ▸ h.enqueue_lt, ?_⟩
    · rcases hfirst with hs | hp' | hz
      · exact .inl hs
      · simp [hp] at hp'
      · exact .inr hz
    · exact hheld.trans h.held_le
    · intro hlt'
      simp only at hlt'
      omega
    · intro _
      simp only [hsize, hstalled, u32, Bool.true_eq_false, false_implies, and_true]
      omega
    · rw [henq, hmsgs]
      exact h.enqueue_eq

theorem Follows.dequeue (hd : b.dequeue c.time = .ok (m, b'))
    (hfirst : M < 2 ^ 31 ∨ c.popped = true ∨ c.enqueued = 0) : Follows M b' c.pop := by
  obtain ⟨hv, hheld, hpos, hready⟩ := h.valid.dequeue hd
  obtain ⟨m₀, rest, -, -, -, rfl⟩ := dequeue_spec hd
  exact h.pop hM hv (by omega) (by omega) hfirst rfl rfl rfl rfl rfl rfl

theorem Follows.stallMessage (hs : b.stallMessage addr c.time = .ok b')
    (hfirst : M < 2 ^ 31 ∨ c.popped = true ∨ c.enqueued = 0) : Follows M b' c.pop := by
  obtain ⟨hv, hheld⟩ := h.valid.stallMessage hs
  obtain ⟨m, b₁, hdeq, rfl⟩ := stallMessage_spec hs
  obtain ⟨-, -, hpos, hready⟩ := h.valid.dequeue hdeq
  obtain ⟨m₀, rest, -, -, -, rfl⟩ := dequeue_spec hdeq
  exact h.pop hM hv hheld.le (by omega) hfirst rfl rfl rfl rfl rfl rfl

end

theorem Follows.moved (h : Follows M b c) (hv : b'.Valid) (hheld : b'.held = b.held)
    (hmax : b'.maxSize = b.maxSize) (hpop : b'.timeLastTimePop = b.timeLastTimePop)
    (hsize : b'.sizeAtCycleStart = b.sizeAtCycleStart)
    (hstalled : b'.stalledAtCycleStart = b.stalledAtCycleStart)
    (henq : b'.timeLastTimeEnqueue = b.timeLastTimeEnqueue)
    (hmsgs : b'.msgsThisCycle = b.msgsThisCycle) : Follows M b' c := by
  refine ⟨hv, hmax.trans h.maxSize, h.room, h.granted, h.small, hheld.trans_le h.held_le,
    h.early_le, ?_, hpop.trans_le h.pop_le, ?_, ?_, henq ▸ h.enqueue_le, henq ▸ h.enqueue_lt, ?_⟩
  · rw [hheld]
    exact h.unpopped
  · rw [hpop]
    exact h.popped
  · rw [hpop, hsize, hstalled]
    exact h.pop_eq
  · rw [henq, hmsgs]
    exact h.enqueue_eq

theorem step_follows {x : ℕ × Call} {r : Option Bool} {c' : Cycle} (hM : M + 1 < 2 ^ 32) (hpos : 0 < M)
    (h : Follows M b c) (hguard : Guarded (b, c) x) (hfirst : M < 2 ^ 31 ∨ PopsFirst (b, c) x)
    (hs : step (b, c) x = .ok (r, b', c')) : Follows M b' c' := by
  obtain ⟨t, call⟩ := x
  obtain ⟨ht, hgrant⟩ := hguard
  have h := h.advance t
  have htime : (c.advance b t).time = t := advance_time ht
  simp only [PopsFirst] at hfirst
  simp only [step] at hs
  simp only at hgrant
  generalize c.advance b t = c at *
  subst htime
  cases call with
  | areNSlotsAvailable n =>
    cases hs
    refine { h with granted := fun hg => ?_ }
    simp only [Bool.or_eq_true, Bool.and_eq_true, beq_iff_eq] at hg
    rcases hg with hg | ⟨hfree, rfl⟩
    · exact h.granted hg
    · have hroom := h.room
      have hearly := h.early_le
      have hsmall := h.small
      rw [h.available_iff hM hpos, u32] at hfree
      simp only
      omega
  | enqueue m delta randomTime =>
    obtain ⟨b₁, hb, hs⟩ := bind_eq_ok.1 hs
    cases hs
    exact h.enqueue hM hgrant hb
  | dequeue =>
    obtain ⟨⟨m, b₁⟩, hb, hs⟩ := bind_eq_ok.1 hs
    cases hs
    exact h.dequeue hM hb hfirst
  | stallMessage addr =>
    obtain ⟨b₁, hb, hs⟩ := bind_eq_ok.1 hs
    cases hs
    exact h.stallMessage hM hb hfirst
  | reanalyzeMessages addr =>
    obtain ⟨b₁, hb, hs⟩ := bind_eq_ok.1 hs
    cases hs
    obtain ⟨hv, hheld⟩ := h.valid.reanalyzeMessages hb
    obtain ⟨heap, -, rfl⟩ := reanalyzeMessages_spec hb
    exact h.moved hv hheld rfl rfl rfl rfl rfl rfl
  | reanalyzeAllMessages =>
    obtain ⟨b₁, hb, hs⟩ := bind_eq_ok.1 hs
    cases hs
    obtain ⟨hv, hheld⟩ := h.valid.reanalyzeAllMessages hb
    obtain ⟨size, heap, -, rfl⟩ := reanalyzeAllMessages_spec hb
    exact h.moved hv hheld rfl rfl rfl rfl rfl rfl

theorem step_early {s s' : MessageBuffer × Cycle} {x : ℕ × Call} {r : Option Bool}
    (h : s.2.early = 0) (hfirst : PopsFirst s x) (hs : step s x = .ok (r, s')) :
    s'.2.early = 0 := by
  obtain ⟨b, c⟩ := s
  obtain ⟨t, call⟩ := x
  have h : (c.advance b t).early = 0 := by
    unfold Cycle.advance
    split_ifs
    · rfl
    · exact h
  simp only [PopsFirst] at hfirst
  simp only [step] at hs
  generalize c.advance b t = c at *
  have hpop : c.popped = true ∨ c.enqueued = 0 → c.pop.early = 0 := by
    intro hfirst
    unfold Cycle.pop
    split_ifs with hp
    · exact h
    · exact hfirst.resolve_left hp
  cases call with
  | areNSlotsAvailable n =>
    cases hs
    exact h
  | dequeue =>
    obtain ⟨⟨m, b₁⟩, -, hs⟩ := bind_eq_ok.1 hs
    cases hs
    exact hpop hfirst
  | stallMessage addr =>
    obtain ⟨b₁, -, hs⟩ := bind_eq_ok.1 hs
    cases hs
    exact hpop hfirst
  | _ =>
    obtain ⟨b₁, -, hs⟩ := bind_eq_ok.1 hs
    cases hs
    exact h

theorem Follows.exact_iff (h : Follows M b c) (hM : M + 1 < 2 ^ 32) (hpos : 0 < M) :
    (∀ n, c.held + c.enqueued + n < 2 ^ 32 →
      (b.areNSlotsAvailable n c.time = true ↔ c.held + c.enqueued + n ≤ M)) ↔ c.early = 0 := by
  have hroom := h.room
  simp only [h.available_iff hM hpos]
  constructor
  · intro hexact
    -- ask for as many slots as are left
    have hall := hexact (M - (c.held + c.enqueued)) (by omega)
    have hearly := h.early_le
    have hsmall := h.small
    simp only [u32] at hall
    omega
  · intro hearly n hn
    rw [hearly, Nat.add_zero, u32, Nat.mod_eq_of_lt hn]

/-- The capacity is kept, and the free slots reported are those that the messages held before the
cycle and enqueued in it leave, exactly if none was enqueued before the first pop of the cycle. -/
theorem slots_exact_iff (hpos : 0 < M) (hM : M + 1 < 2 ^ 32)
    (ordered randomization warmupEnabled : Bool) (blockSizeBits : ℕ) (calls : List (ℕ × Call))
    {rs : List (Option Bool)}
    (hrun : run step (new M ordered randomization warmupEnabled blockSizeBits, start) calls
      = .ok (rs, b, c))
    (hguard : Run.Along step Guarded
      (new M ordered randomization warmupEnabled blockSizeBits, start) calls)
    (hfirst : M < 2 ^ 31 ∨ Run.Along step PopsFirst
      (new M ordered randomization warmupEnabled blockSizeBits, start) calls) :
    b.prioHeap.length + b.stallMsgMap.size ≤ M ∧
      (∀ t, c.time ≤ t →
        ((∀ n, (c.advance b t).held + (c.advance b t).enqueued + n < 2 ^ 32 →
          (b.areNSlotsAvailable n t = true ↔
            (c.advance b t).held + (c.advance b t).enqueued + n ≤ M)) ↔
          (c.advance b t).early = 0)) ∧
      (Run.Along step PopsFirst (new M ordered randomization warmupEnabled blockSizeBits, start)
        calls → c.early = 0) := by
  have hstart := Follows.start M ordered randomization warmupEnabled blockSizeBits
  generalize new M ordered randomization warmupEnabled blockSizeBits = b₀ at *
  have hfollows : Follows M b c := by
    rcases hfirst with hs | hfirst
    · exact run_inv (I := fun s => Follows M s.1 s.2)
        (fun _ _ _ _ h hg hs' => step_follows hM hpos h hg (.inl hs) hs') hstart hguard hrun
    · exact run_inv (I := fun s => Follows M s.1 s.2)
        (fun _ _ _ _ h hg hs' => step_follows hM hpos h hg.1 (.inr hg.2) hs') hstart
        (hguard.and hfirst) hrun
  refine ⟨hfollows.held_le.trans hfollows.room, fun t ht => ?_, fun hfirst => ?_⟩
  · have := (hfollows.advance t).exact_iff hM hpos
    rwa [advance_time ht] at this
  · exact run_inv (I := fun s => s.2.early = 0) (fun _ _ _ _ h hp hs => step_early h hp hs) rfl
      hfirst hrun

/-- A message of the first cycle leaves in the second, where another one comes after it. -/
theorem slots_exact_iff_popFirst : ∃ calls rs b c,
    run step (new 4 false false false 6, start) calls = .ok (rs, b, c) ∧
      Run.Along step Guarded (new 4 false false false 6, start) calls ∧
      Run.Along step PopsFirst (new 4 false false false 6, start) calls ∧
      b.prioHeap.length + b.stallMsgMap.size ≤ 4 ∧ (b.areNSlotsAvailable 2 2 = true) := by
  let calls : List (ℕ × Call) := [(1, .areNSlotsAvailable 1), (1, .enqueue ⟨0, 0, 0⟩ 1 0),
    (2, .dequeue), (2, .areNSlotsAvailable 1), (2, .enqueue ⟨0, 0, 0⟩ 1 0)]
  have hguard : Run.Along step Guarded (new 4 false false false 6, start) calls := by
    refine (along_cons rfl).2 ⟨⟨by decide, trivial⟩, ?_⟩
    refine (along_cons rfl).2 ⟨⟨by decide, by decide⟩, ?_⟩
    refine (along_cons rfl).2 ⟨⟨by decide, trivial⟩, ?_⟩
    refine (along_cons rfl).2 ⟨⟨by decide, trivial⟩, ?_⟩
    exact (along_cons rfl).2 ⟨⟨by decide, by decide⟩, trivial⟩
  have hfirst : Run.Along step PopsFirst (new 4 false false false 6, start) calls := by
    refine (along_cons rfl).2 ⟨trivial, ?_⟩
    refine (along_cons rfl).2 ⟨trivial, ?_⟩
    refine (along_cons rfl).2 ⟨.inr rfl, ?_⟩
    refine (along_cons rfl).2 ⟨trivial, ?_⟩
    exact (along_cons rfl).2 ⟨trivial, trivial⟩
  obtain ⟨hcap, hexact, hearly⟩ := slots_exact_iff (M := 4) (by decide) (by decide) false false
    false 6 calls rfl hguard (.inr hfirst)
  exact ⟨calls, _, _, _, rfl, hguard, hfirst, hcap,
    ((hexact 2 le_rfl).2 (hearly hfirst) 2 (by decide)).2 (by decide)⟩

/-- Here it comes before: of four slots one was taken before the cycle and one is taken in it, but
no two are free. -/
theorem early_message_counts_twice : ∃ calls rs b c,
    run step (new 4 false false false 6, start) calls = .ok (rs, b, c) ∧
      Run.Along step Guarded (new 4 false false false 6, start) calls ∧
      c.time = 2 ∧ c.held + c.enqueued + 2 ≤ 4 ∧ b.areNSlotsAvailable 2 2 = false := by
  refine ⟨[(1, .areNSlotsAvailable 1), (1, .enqueue ⟨0, 0, 0⟩ 1 0), (2, .areNSlotsAvailable 1),
    (2, .enqueue ⟨0, 0, 0⟩ 1 0), (2, .dequeue)], _, _, _, rfl, ?_, rfl, by decide, by decide⟩
  refine (along_cons rfl).2 ⟨⟨by decide, trivial⟩, ?_⟩
  refine (along_cons rfl).2 ⟨⟨by decide, by decide⟩, ?_⟩
  refine (along_cons rfl).2 ⟨⟨by decide, trivial⟩, ?_⟩
  refine (along_cons rfl).2 ⟨⟨by decide, by decide⟩, ?_⟩
  exact (along_cons rfl).2 ⟨⟨by decide, trivial⟩, trivial⟩

end MessageBuffer

end Gem5Nvm
