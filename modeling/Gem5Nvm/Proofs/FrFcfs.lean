import Gem5Nvm.Proofs.DramScheduler

/-!
# What FR-FCFS selects

`minBankPrep` keeps the waiting banks of the least `key`: 0 for a bank that can issue seamlessly,
and otherwise one more than the tick at which it can be activated.  `chooseNextFRFCFS` has, after
each packet, selected among the packets so far what it would select from them alone.
-/

namespace Gem5Nvm.Dram

variable {d : DramInterface} {s : Dram} {queue : List MemPacketPtr} {minColAt : ℕ}

section MinBankPrep

variable {i j : ℕ}

theorem waiting_iff : s.waiting queue i j = true ↔
    ∃ p ∈ queue, s.ready p = true ∧ p.rank = i ∧ p.bank = j := by
  simp [waiting]

theorem gotWaiting_iff {n : ℕ} : s.gotWaiting d queue n = true ↔
    ∃ p ∈ queue, s.ready p = true ∧ bankId d p.toMemPacket = n := by
  have hfold : ∀ (l : List MemPacketPtr) (w : ℕ → Bool),
      l.foldl (fun waiting p => if s.ready p then
        Function.update waiting (bankId d p.toMemPacket) true else waiting) w n = true ↔
      w n = true ∨ ∃ p ∈ l, s.ready p = true ∧ bankId d p.toMemPacket = n := by
    intro l
    induction l with
    | nil => simp
    | cons p l ih =>
      intro w
      rw [List.foldl_cons, ih]
      rcases hp : s.ready p
      · simp [hp]
      · by_cases hn : bankId d p.toMemPacket = n
        · simp [hp, ← hn]
        · simp [hp, hn, Function.update_of_ne (Ne.symm hn)]
  exact (hfold queue _).trans (by simp)

theorem InRange.decoded_of_ready (h : s.InRange d queue minColAt) {p : MemPacketPtr}
    (hp : p ∈ queue) (hready : s.ready p = true) :
    p.rank < d.ranksPerChannel ∧ p.bank < d.banksPerRank := by
  rw [ready, Bool.and_eq_true] at hready
  exact h.decoded p hp hready.1

theorem InRange.gotWaiting_eq (h : s.InRange d queue minColAt) (hi : i < d.ranksPerChannel)
    (hj : j < d.banksPerRank) :
    s.gotWaiting d queue (u16 (i * d.banksPerRank + j)) = s.waiting queue i j := by
  have hid : ∀ {i j}, i < d.ranksPerChannel → j < d.banksPerRank →
      u16 (d.banksPerRank * i + j) = d.banksPerRank * i + j := by
    intro i j hi hj
    have hle : d.banksPerRank * (i + 1) ≤ d.banksPerRank * d.ranksPerChannel :=
      Nat.mul_le_mul_left _ hi
    have hids := h.ids
    rw [mul_comm] at hids
    exact Nat.mod_eq_of_lt (by rw [Nat.mul_succ] at hle; omega)
  rw [Bool.eq_iff_iff, gotWaiting_iff, waiting_iff, mul_comm i, hid hi hj]
  refine exists_congr fun p => and_congr_right fun hp => and_congr_right fun hready => ?_
  obtain ⟨hr, hb⟩ := h.decoded_of_ready hp hready
  rw [bankId, hid hr hb]
  constructor
  · intro heq
    have hpos : 0 < d.banksPerRank := by omega
    have hdiv := congrArg (· / d.banksPerRank) heq
    simp only [Nat.mul_add_div hpos, Nat.div_eq_of_lt hb, Nat.div_eq_of_lt hj, add_zero] at hdiv
    subst hdiv
    exact ⟨rfl, Nat.add_left_cancel heq⟩
  · rintro ⟨rfl, rfl⟩
    rfl

variable (d s minColAt)

/-- Small for the banks that come first. -/
def key (x : ℕ × ℕ) : ℕ :=
  if s.seamless d minColAt x.1 x.2 then 0 else s.actTime d x.1 x.2 + 1

def BankPrep.bound (b : BankPrep) : ℕ := if b.foundSeamlessBank then 0 else b.minActAt + 1

/-- `minBankPrep` behind the banks `pre`. -/
structure Prepped (queue : List MemPacketPtr) (pre : List (ℕ × ℕ)) (b : BankPrep) : Prop where
  mask : ∀ i j, j < 32 → ((b.bankMask i).testBit j = true ↔ (i, j) ∈ pre ∧
    s.waiting queue i j = true ∧ ∀ y ∈ pre, s.waiting queue y.1 y.2 = true →
      s.key d minColAt (i, j) ≤ s.key d minColAt y)
  low : ∀ y ∈ pre, s.waiting queue y.1 y.2 = true → b.bound ≤ s.key d minColAt y
  attained : b.bound = maxTick + 1 ∨
    ∃ y ∈ pre, s.waiting queue y.1 y.2 = true ∧ s.key d minColAt y = b.bound
  hidden : b.hiddenBankPrep = true ↔ ∃ y ∈ pre, s.waiting queue y.1 y.2 = true ∧
    s.actTime d y.1 y.2 ≤ max (minColAt - d.tRCD) s.curTick

/-- A bank enters the mask, alone if it comes before those in it. -/
def BankPrep.enter (b : BankPrep) (x : ℕ × ℕ) : BankPrep :=
  let bankMask := if s.key d minColAt x < b.bound then fun _ => 0 else b.bankMask
  { minActAt := s.actTime d x.1 x.2
    bankMask := Function.update bankMask x.1 (u32 (bankMask x.1 ||| 1 <<< x.2))
    foundSeamlessBank := b.foundSeamlessBank || s.seamless d minColAt x.1 x.2
    hiddenBankPrep := decide (s.actTime d x.1 x.2 ≤ max (minColAt - d.tRCD) s.curTick) }

variable {d s minColAt}

variable {x : ℕ × ℕ}

theorem InRange.prepBank_eq (h : s.InRange d queue minColAt) (b : BankPrep)
    (hi : x.1 < d.ranksPerChannel) (hj : x.2 < d.banksPerRank) :
    s.prepBank d (s.gotWaiting d queue) minColAt b x.1 x.2 =
      .ok (if s.waiting queue x.1 x.2 = true ∧ s.key d minColAt x ≤ b.bound
        then b.enter d s minColAt x else b) := by
  rw [prepBank, h.gotWaiting_eq hi hj]
  rcases hw : s.waiting queue x.1 x.2
  · simp
  obtain ⟨p, -, hready, hrank, -⟩ := waiting_iff.1 hw
  have hidle : s.refIdle x.1 = true := by
    rw [ready, Bool.and_eq_true, hrank] at hready
    exact hready.2
  have htime := h.times x.1 x.2
  have hact : (if (s.banks x.1 x.2).openRow = Bank.noRow then
      max (s.banks x.1 x.2).actAllowedAt s.curTick
      else u64 (max (s.banks x.1 x.2).preAllowedAt s.curTick + d.tRP)) = s.actTime d x.1 x.2 := by
    unfold actTime at htime ⊢
    split_ifs at htime ⊢ with hrow
    · rfl
    · exact u64_of_lt (by omega)
  simp only [if_true, assert, hidle, Sim.ok_bind, hact, u64_of_lt htime, usub_of_le h.col h.tick,
    Sim.pure_eq, true_and, Except.ok.injEq]
  have hseamless : decide (max (if s.readBus = true then (s.banks x.1 x.2).rdAllowedAt
      else (s.banks x.1 x.2).wrAllowedAt) (s.actTime d x.1 x.2 + d.tRCD) ≤ minColAt)
        = s.seamless d minColAt x.1 x.2 := rfl
  rw [hseamless]
  have hle : s.key d minColAt x ≤ b.bound ↔ (s.seamless d minColAt x.1 x.2 ||
      (!b.foundSeamlessBank && decide (s.actTime d x.1 x.2 ≤ b.minActAt))) = true := by
    unfold key BankPrep.bound
    rcases s.seamless d minColAt x.1 x.2 <;> rcases b.foundSeamlessBank <;> simp
  have hlt : s.key d minColAt x < b.bound ↔ (!b.foundSeamlessBank &&
      (s.seamless d minColAt x.1 x.2 || decide (s.actTime d x.1 x.2 < b.minActAt))) = true := by
    unfold key BankPrep.bound
    rcases s.seamless d minColAt x.1 x.2 <;> rcases b.foundSeamlessBank <;> simp
  simp only [BankPrep.enter, hle, hlt]

variable {b : BankPrep}

theorem bound_enter (h : s.key d minColAt x ≤ b.bound) :
    (b.enter d s minColAt x).bound = s.key d minColAt x := by
  unfold key BankPrep.bound at *
  unfold BankPrep.enter
  rcases hs : s.seamless d minColAt x.1 x.2 <;> rcases hf : b.foundSeamlessBank <;>
    simp [hf, hs] at h ⊢

theorem testBit_enter (hj : j < 32) :
    ((b.enter d s minColAt x).bankMask i).testBit j = true ↔ (i, j) = x ∨
      (¬ s.key d minColAt x < b.bound ∧ (b.bankMask i).testBit j = true) := by
  obtain ⟨i', j'⟩ := x
  have hbit : ∀ m : ℕ, (u32 (m ||| 1 <<< j')).testBit j = true ↔ j = j' ∨ m.testBit j = true := by
    intro m
    rw [u32, Nat.testBit_mod_two_pow, Nat.testBit_or, Nat.one_shiftLeft, Nat.testBit_two_pow]
    simp only [hj, decide_true, Bool.true_and, Bool.or_eq_true, decide_eq_true_eq]
    rw [or_comm, eq_comm]
  simp only [BankPrep.enter, Function.update_apply, Prod.mk.injEq]
  by_cases hi : i = i'
  · subst hi
    rw [if_pos rfl, hbit]
    split_ifs with hlt <;> simp [hlt]
  · rw [if_neg hi]
    split_ifs with hlt <;> simp [hlt, hi]

theorem InRange.hidden_of_key_le (h : s.InRange d queue minColAt) {y : ℕ × ℕ}
    (hkey : s.key d minColAt x ≤ s.key d minColAt y)
    (hy : s.actTime d y.1 y.2 ≤ max (minColAt - d.tRCD) s.curTick) :
    s.actTime d x.1 x.2 ≤ max (minColAt - d.tRCD) s.curTick := by
  have hcol := h.col
  rcases hx : s.seamless d minColAt x.1 x.2
  · rcases hy' : s.seamless d minColAt y.1 y.2 <;> simp [key, hx, hy'] at hkey
    omega
  · simp only [seamless, decide_eq_true_eq] at hx
    omega

theorem InRange.key_le (h : s.InRange d queue minColAt) (x : ℕ × ℕ) :
    s.key d minColAt x ≤ maxTick + 1 := by
  have htime := h.times x.1 x.2
  unfold key maxTick
  split_ifs
  · omega
  · omega

theorem Prepped.step (h : s.InRange d queue minColAt) {pre : List (ℕ × ℕ)}
    (hb : Prepped d s minColAt queue pre b) :
    Prepped d s minColAt queue (pre ++ [x]) (if s.waiting queue x.1 x.2 = true ∧
      s.key d minColAt x ≤ b.bound then b.enter d s minColAt x else b) := by
  have hmem : ∀ y, y ∈ pre ++ [x] ↔ y ∈ pre ∨ y = x := by simp
  split_ifs with hx
  · obtain ⟨hw, hkey⟩ := hx
    have hleast : ∀ y ∈ pre ++ [x], s.waiting queue y.1 y.2 = true →
        s.key d minColAt x ≤ s.key d minColAt y := by
      intro y hy hwy
      rcases (hmem y).1 hy with hy | rfl
      · exact hkey.trans (hb.low y hy hwy)
      · exact le_rfl
    refine ⟨fun i j hj => ?_, ?_, .inr ⟨x, by simp, hw, (bound_enter hkey).symm⟩, ?_⟩
    · rw [testBit_enter hj, hb.mask i j hj, hmem]
      constructor
      · rintro (rfl | ⟨hlt, hin, hwij, hall⟩)
        · exact ⟨.inr rfl, hw, hleast⟩
        · refine ⟨.inl hin, hwij, fun y hy hwy => ?_⟩
          rcases (hmem y).1 hy with hy | rfl
          · exact hall y hy hwy
          · -- the bound is attained behind the bank, and so the keys are equal
            rcases hb.attained with hmax | ⟨z, hz, hwz, hkz⟩
            · exact (h.key_le _).trans (by omega)
            · have := hall z hz hwz
              omega
      · rintro ⟨hin, hwij, hall⟩
        rcases hin with hin | hin
        · refine .inr ⟨?_, hin, hwij, fun y hy => hall y ((hmem y).2 (.inl hy))⟩
          have h₁ := hall x (by simp) hw
          have h₂ := hb.low _ hin hwij
          omega
        · exact .inl hin
    · intro y hy hwy
      rw [bound_enter hkey]
      exact hleast y hy hwy
    · simp only [BankPrep.enter, decide_eq_true_eq]
      constructor
      · intro hact
        exact ⟨x, by simp, hw, hact⟩
      · rintro ⟨y, hy, hwy, hact⟩
        exact h.hidden_of_key_le (hleast y hy hwy) hact
  · have hout : s.waiting queue x.1 x.2 = true → b.bound < s.key d minColAt x := by
      intro hw
      simpa [hw] using hx
    -- the bound is below the largest key, so a bank behind has it
    have hbefore : s.waiting queue x.1 x.2 = true → ∃ y ∈ pre,
        s.waiting queue y.1 y.2 = true ∧ s.key d minColAt y < s.key d minColAt x := by
      intro hw
      have hlt := hout hw
      rcases hb.attained with hmax | ⟨y, hy, hwy, hkey⟩
      · have := h.key_le x
        omega
      · exact ⟨y, hy, hwy, hkey ▸ hlt⟩
    refine ⟨fun i j hj => ?_, ?_, ?_, ?_⟩
    · rw [hb.mask i j hj, hmem]
      constructor
      · rintro ⟨hin, hwij, hall⟩
        refine ⟨.inl hin, hwij, fun y hy hwy => ?_⟩
        rcases (hmem y).1 hy with hy | rfl
        · exact hall y hy hwy
        · obtain ⟨z, hz, hwz, hlt⟩ := hbefore hwy
          exact (hall z hz hwz).trans hlt.le
      · rintro ⟨hin | rfl, hwij, hall⟩
        · exact ⟨hin, hwij, fun y hy => hall y ((hmem y).2 (.inl hy))⟩
        · obtain ⟨z, hz, hwz, hlt⟩ := hbefore hwij
          exact absurd (hall z ((hmem z).2 (.inl hz)) hwz) hlt.not_ge
    · intro y hy hwy
      rcases (hmem y).1 hy with hy | rfl
      · exact hb.low y hy hwy
      · exact (hout hwy).le
    · exact hb.attained.imp_right fun ⟨y, hy, hwy⟩ => ⟨y, (hmem y).2 (.inl hy), hwy⟩
    · rw [hb.hidden]
      constructor
      · rintro ⟨y, hy, hwy⟩
        exact ⟨y, (hmem y).2 (.inl hy), hwy⟩
      · rintro ⟨y, hy, hwy, hact⟩
        rcases (hmem y).1 hy with hy | rfl
        · exact ⟨y, hy, hwy, hact⟩
        · obtain ⟨z, hz, hwz, hlt⟩ := hbefore hwy
          exact ⟨z, hz, hwz, h.hidden_of_key_le hlt.le hact⟩

/-- The banks in the order of the search. -/
def places (d : DramInterface) : List (ℕ × ℕ) :=
  (List.range d.ranksPerChannel).flatMap fun i => (List.range d.banksPerRank).map (Prod.mk i)

theorem mem_places : x ∈ places d ↔ x.1 < d.ranksPerChannel ∧ x.2 < d.banksPerRank := by
  obtain ⟨i, j⟩ := x
  simp [places]

theorem foldlM_places (f : BankPrep → ℕ → ℕ → Sim BankPrep) (b : BankPrep) :
    (List.range d.ranksPerChannel).foldlM (fun b i =>
      (List.range d.banksPerRank).foldlM (fun b j => f b i j) b) b =
        (places d).foldlM (fun b x => f b x.1 x.2) b := by
  unfold places
  induction List.range d.ranksPerChannel generalizing b with
  | nil => rfl
  | cons i l ih =>
    rw [List.foldlM_cons, List.flatMap_cons, List.foldlM_append, List.foldlM_map]
    exact bind_congr fun b => ih b

theorem InRange.bestBank_iff (h : s.InRange d queue minColAt) :
    s.bestBank d queue minColAt i j = true ↔ s.waiting queue i j = true ∧
      ∀ y ∈ places d, s.waiting queue y.1 y.2 = true →
        s.key d minColAt (i, j) ≤ s.key d minColAt y := by
  have hkey : ∀ y, s.key d minColAt (i, j) ≤ s.key d minColAt y ↔
      s.seamless d minColAt i j = true ∨ (s.seamless d minColAt y.1 y.2 = false ∧
        s.actTime d i j ≤ s.actTime d y.1 y.2) := by
    intro y
    unfold key
    rcases s.seamless d minColAt i j <;> rcases s.seamless d minColAt y.1 y.2 <;> simp
  simp only [hkey, bestBank, Bool.and_eq_true, Bool.or_eq_true, List.all_eq_true,
    Bool.not_eq_true', decide_eq_true_eq]
  refine and_congr_right fun _ => ?_
  rcases s.seamless d minColAt i j
  · simp only [Bool.false_eq_true, false_or]
    constructor
    · rintro hall y - hwy
      obtain ⟨p, hp, hready, hr, hb⟩ := waiting_iff.1 hwy
      rw [← hr, ← hb]
      exact (hall p hp).resolve_left (by simp [hready])
    · intro hall p hp
      rcases hready : s.ready p
      · exact .inl rfl
      · exact .inr (hall (p.rank, p.bank) (mem_places.2 (h.decoded_of_ready hp hready))
          (waiting_iff.2 ⟨p, hp, hready, rfl, rfl⟩))
  · simp

theorem InRange.minBankPrep_eq (h : s.InRange d queue minColAt) : ∃ mask,
    s.minBankPrep d queue minColAt = .ok (mask, s.hidden d queue minColAt) ∧
      ∀ i j, i < d.ranksPerChannel → j < d.banksPerRank →
        (mask i).testBit j = s.bestBank d queue minColAt i j := by
  have hstart : Prepped d s minColAt queue [] ⟨maxTick, fun _ => 0, false, false⟩ :=
    ⟨by simp, by simp, .inl rfl, by simp⟩
  obtain ⟨b, hfold, hb⟩ := Loop.foldlM_total (I := Prepped d s minColAt queue) (l := places d)
    (f := fun b x => s.prepBank d (s.gotWaiting d queue) minColAt b x.1 x.2)
    (fun pre x rest b hl hI => by
      have hx : x ∈ places d := by simp [hl]
      exact ⟨_, h.prepBank_eq b (mem_places.1 hx).1 (mem_places.1 hx).2, hI.step h⟩)
    (places d) [] rfl hstart
  refine ⟨b.bankMask, ?_, fun i j hi hj => ?_⟩
  · have hhidden : b.hiddenBankPrep = s.hidden d queue minColAt := by
      rw [Bool.eq_iff_iff, hb.hidden, hidden]
      simp only [List.any_eq_true, Bool.and_eq_true, decide_eq_true_eq]
      constructor
      · rintro ⟨y, -, hwy, hact⟩
        obtain ⟨p, hp, hready, hr, hb⟩ := waiting_iff.1 hwy
        exact ⟨p, hp, hready, by rwa [hr, hb]⟩
      · rintro ⟨p, hp, hready, hact⟩
        exact ⟨(p.rank, p.bank), mem_places.2 (h.decoded_of_ready hp hready),
          waiting_iff.2 ⟨p, hp, hready, rfl, rfl⟩, hact⟩
    rw [minBankPrep, foldlM_places, hfold, Sim.ok_bind, hhidden]
    rfl
  · rw [Bool.eq_iff_iff, hb.mask i j (by have := h.banks; omega), h.bestBank_iff]
    simp [mem_places, hi, hj]

end MinBankPrep

section Choose

variable {pre : List MemPacketPtr} {p : MemPacketPtr} {c : Choice}

variable (d s queue minColAt)

def bestMiss (p : MemPacketPtr) : Bool := s.rowMiss p && s.bestBank d queue minColAt p.rank p.bank

/-- What is selected from the packets `pre`, if no row hit among them is seamless. -/
def pick (pre : List MemPacketPtr) : Option MemPacketPtr :=
  (if s.hidden d queue minColAt then pre.find? (s.bestMiss d queue minColAt) else none).or
    ((pre.find? s.rowHit).or (pre.find? (s.bestMiss d queue minColAt)))

/-- The scan of `chooseNextFRFCFS` behind the packets `pre`. -/
structure Chosen (pre : List MemPacketPtr) (c : Choice) : Prop where
  filled : c.filledEarliestBanks = true →
    s.minBankPrep d queue minColAt = .ok (c.earliestBanks, c.hiddenBankPrep)
  earliest : c.foundEarliestPkt = (pre.find? (s.bestMiss d queue minColAt)).isSome
  hidden : c.foundHiddenBank = (c.foundEarliestPkt && s.hidden d queue minColAt)
  prepped : c.foundHiddenBank = false → c.foundPreppedPkt = (pre.find? s.rowHit).isSome
  pkt : c.selectedPkt = s.pick d queue minColAt pre
  col : c.selectedColAt = (s.pick d queue minColAt pre).elim maxTick s.colTime

variable {d s queue minColAt}

theorem rowHit_iff : s.rowHit p = true ↔
    s.ready p = true ∧ (s.banks p.rank p.bank).openRow = p.row := by
  simp [rowHit]

theorem rowMiss_iff : s.rowMiss p = true ↔
    s.ready p = true ∧ (s.banks p.rank p.bank).openRow ≠ p.row := by
  simp [rowMiss]

theorem consider_eq : s.consider d queue minColAt p c =
    if s.ready p = true then
      if (s.banks p.rank p.bank).openRow = p.row then
        if s.colTime p ≤ minColAt then
          .ok (true, { c with selectedPkt := some p, selectedColAt := s.colTime p })
        else if (!c.foundHiddenBank && !c.foundPreppedPkt) = true then
          .ok (false, { c with
            selectedPkt := some p, selectedColAt := s.colTime p, foundPreppedPkt := true })
        else .ok (false, c)
      else if (!c.foundEarliestPkt) = true then do
        return (false, ← s.considerClosed d queue minColAt p (s.colTime p) c)
      else .ok (false, c)
    else .ok (false, c) := rfl

theorem find?_snoc (f : MemPacketPtr → Bool) (pre : List MemPacketPtr) (p : MemPacketPtr) :
    (pre ++ [p]).find? f = (pre.find? f).or (if f p then some p else none) := by
  rw [List.find?_append, List.find?_cons]
  rcases f p <;> rfl

theorem Chosen.other (hc : s.Chosen d queue minColAt pre c) (hhit : s.rowHit p = false)
    (hmiss : s.bestMiss d queue minColAt p = false) : s.Chosen d queue minColAt (pre ++ [p]) c := by
  obtain ⟨hfilled, hearliest, hhidden, hprepped, hpkt, hcol⟩ := hc
  refine ⟨hfilled, ?_, hhidden, ?_, ?_, ?_⟩ <;>
    simpa [pick, find?_snoc, hhit, hmiss] using by assumption

theorem Chosen.hit (hc : s.Chosen d queue minColAt pre c) (hhit : s.rowHit p = true) :
    s.Chosen d queue minColAt (pre ++ [p]) (if (!c.foundHiddenBank && !c.foundPreppedPkt) = true
      then { c with
        selectedPkt := some p, selectedColAt := s.colTime p, foundPreppedPkt := true }
      else c) := by
  obtain ⟨hfilled, hearliest, hhidden, hprepped, hpkt, hcol⟩ := hc
  have hmiss : s.bestMiss d queue minColAt p = false := by
    simp [bestMiss, rowMiss, (rowHit_iff.1 hhit).2]
  have hM := find?_snoc (s.bestMiss d queue minColAt) pre p
  have hH := find?_snoc s.rowHit pre p
  rw [hmiss] at hM
  rw [hhit] at hH
  split_ifs with hfirst
  · rw [Bool.and_eq_true, Bool.not_eq_true', Bool.not_eq_true'] at hfirst
    have hnone : pre.find? s.rowHit = none := by
      rw [← Option.not_isSome_iff_eq_none, ← hprepped hfirst.1, hfirst.2]
      simp
    have hpick : s.pick d queue minColAt (pre ++ [p]) = some p := by
      rw [hfirst.1, hearliest] at hhidden
      rcases hm : pre.find? (s.bestMiss d queue minColAt) with _ | m
      · simp [pick, hM, hH, hnone, hm]
      · rw [hm, Option.isSome_some, Bool.true_and, eq_comm] at hhidden
        simp [pick, hH, hnone, hhidden]
    exact ⟨hfilled, by simpa [hM] using hearliest, hhidden, fun _ => by simp [hH, hnone],
      hpick.symm, by rw [hpick]; rfl⟩
  · have hpick : s.pick d queue minColAt (pre ++ [p]) = s.pick d queue minColAt pre := by
      rcases hf : c.foundHiddenBank
      · have hsome : (pre.find? s.rowHit).isSome = true := by
          rw [← hprepped hf]
          simpa [hf] using hfirst
        obtain ⟨q, hq⟩ := Option.isSome_iff_exists.1 hsome
        simp [pick, hM, hH, hq]
      · rw [hf, hearliest, eq_comm, Bool.and_eq_true, Option.isSome_iff_exists] at hhidden
        obtain ⟨⟨m, hm⟩, hhid⟩ := hhidden
        simp [pick, hM, hm, hhid]
    refine ⟨hfilled, by simpa [hM] using hearliest, hhidden, fun hf => ?_, hpick ▸ hpkt,
      hpick ▸ hcol⟩
    have hsome : c.foundPreppedPkt = true := by simpa [hf] using hfirst
    simp [hH, hsome]

theorem InRange.considerClosed_eq (h : s.InRange d queue minColAt) (hp : p ∈ queue)
    (hmiss : s.rowMiss p = true) (hc : s.Chosen d queue minColAt pre c)
    (hfound : c.foundEarliestPkt = false) :
    ∃ c', s.considerClosed d queue minColAt p (s.colTime p) c = .ok c' ∧
      s.Chosen d queue minColAt (pre ++ [p]) c' := by
  obtain ⟨m, hprep, hmask⟩ := h.minBankPrep_eq
  have hready := (rowMiss_iff.1 hmiss).1
  obtain ⟨hr, hb⟩ := h.decoded_of_ready hp hready
  have hbest : bits (m p.rank) p.bank ≠ 0 ↔ s.bestMiss d queue minColAt p = true := by
    rw [bestMiss, hmiss, Bool.true_and, ← hmask _ _ hr hb, Nat.testBit, bits, Nat.and_comm]
    exact bne_iff_ne.symm
  have hhit : s.rowHit p = false := by
    simp [rowHit, (rowMiss_iff.1 hmiss).2]
  have hH : (pre ++ [p]).find? s.rowHit = pre.find? s.rowHit := by
    simp [hhit]
  have hprepped : c.foundPreppedPkt = (pre.find? s.rowHit).isSome :=
    hc.prepped (by rw [hc.hidden, hfound, Bool.false_and])
  have hnone : pre.find? (s.bestMiss d queue minColAt) = none := by
    rw [← Option.not_isSome_iff_eq_none, ← hc.earliest, hfound]
    simp
  have htables : (if c.filledEarliestBanks = true then .ok (c.earliestBanks, c.hiddenBankPrep)
      else s.minBankPrep d queue minColAt) = Except.ok (m, s.hidden d queue minColAt) := by
    split_ifs with hf
    · rw [← hc.filled hf, hprep]
    · exact hprep
  rw [considerClosed, htables, Sim.ok_bind]
  dsimp only
  rw [if_neg (by have := h.banks; omega)]
  by_cases hbit : bits (m p.rank) p.bank ≠ 0
  · rw [if_pos hbit]
    have hM : (pre ++ [p]).find? (s.bestMiss d queue minColAt) = some p := by
      simp [hbest.1 hbit, hnone]
    refine ⟨_, rfl, ?_⟩
    rcases hhid : s.hidden d queue minColAt
    · rcases hfind : pre.find? s.rowHit with _ | q
      · have hpick : s.pick d queue minColAt (pre ++ [p]) = some p := by
          simp [pick, hhid, hH, hM, hfind]
        rw [if_pos (by simp [hprepped, hfind])]
        exact ⟨fun _ => hhid ▸ hprep, by simp [hM], by simp [hhid], fun _ => by rw [hH, ← hprepped],
          hpick.symm, by rw [hpick]; rfl⟩
      · have hpick : s.pick d queue minColAt (pre ++ [p]) = s.pick d queue minColAt pre := by
          simp [pick, hhid, hH, hfind]
        rw [if_neg (by simp [hprepped, hfind])]
        exact ⟨fun _ => hhid ▸ hprep, by simp [hM], by simp [hhid], fun _ => by rw [hH, ← hprepped],
          hpick ▸ hc.pkt, hpick ▸ hc.col⟩
    · have hpick : s.pick d queue minColAt (pre ++ [p]) = some p := by
        simp [pick, hhid, hM]
      rw [if_pos (by simp)]
      exact ⟨fun _ => hhid ▸ hprep, by simp [hM], by simp [hhid], by simp,
        hpick.symm, by rw [hpick]; rfl⟩
  · rw [if_neg hbit]
    obtain ⟨-, hearliest, hhidden, hprep', hpkt, hcol⟩ :=
      hc.other hhit (Bool.not_eq_true _ ▸ fun hM => hbit (hbest.2 hM))
    exact ⟨_, rfl, fun _ => hprep, hearliest, hhidden, hprep', hpkt, hcol⟩

theorem InRange.consider_step (h : s.InRange d queue minColAt) (hp : p ∈ queue)
    (hc : s.Chosen d queue minColAt pre c) (hlate : s.rowHit p = true → minColAt < s.colTime p) :
    ∃ c', s.consider d queue minColAt p c = .ok (false, c') ∧
      s.Chosen d queue minColAt (pre ++ [p]) c' := by
  rw [consider_eq]
  by_cases hready : s.ready p = true
  · rw [if_pos hready]
    by_cases hrow : (s.banks p.rank p.bank).openRow = p.row
    · have hhit := rowHit_iff.2 ⟨hready, hrow⟩
      rw [if_pos hrow, if_neg (hlate hhit).not_ge]
      have hnext := hc.hit hhit
      split_ifs at hnext ⊢ with hfirst
      · exact ⟨_, rfl, hnext⟩
      · exact ⟨_, rfl, hnext⟩
    · have hmiss := rowMiss_iff.2 ⟨hready, hrow⟩
      rw [if_neg hrow]
      rcases hfound : c.foundEarliestPkt
      · obtain ⟨c', hc', hnext⟩ := h.considerClosed_eq hp hmiss hc hfound
        exact ⟨c', by rw [hc']; rfl, hnext⟩
      · refine ⟨c, rfl, ?_⟩
        -- the oldest row miss to a best bank has been found before
        obtain ⟨q, hq⟩ := Option.isSome_iff_exists.1 (hc.earliest.symm.trans hfound)
        have hM : (pre ++ [p]).find? (s.bestMiss d queue minColAt) = some q := by
          simp [hq]
        have hH : (pre ++ [p]).find? s.rowHit = pre.find? s.rowHit := by
          simp [rowHit, hrow]
        have hpick : s.pick d queue minColAt (pre ++ [p]) = s.pick d queue minColAt pre := by
          rw [pick, pick, hM, hH, hq]
        exact ⟨hc.filled, by rw [hM, hfound]; rfl, hc.hidden, hH ▸ hc.prepped, hpick ▸ hc.pkt,
          hpick ▸ hc.col⟩
  · rw [if_neg hready]
    exact ⟨c, rfl, hc.other (by simp [rowHit, hready]) (by simp [bestMiss, rowMiss, hready])⟩

theorem InRange.chooseLoop_eq (h : s.InRange d queue minColAt) : ∀ (rest pre : List MemPacketPtr)
    (c : Choice), queue = pre ++ rest → s.Chosen d queue minColAt pre c →
      ∃ c', s.chooseLoop d queue minColAt rest c = .ok c' ∧
        c'.selectedPkt = ((rest.find? fun p => s.rowHit p && decide (s.colTime p ≤ minColAt)).or
          (s.pick d queue minColAt queue)) ∧
        c'.selectedColAt = c'.selectedPkt.elim maxTick s.colTime
  | [], pre, c, hq, hc => by
    rw [List.append_nil] at hq
    subst hq
    exact ⟨c, rfl, by simpa using hc.pkt, by rw [hc.pkt, hc.col]⟩
  | p :: rest, pre, c, hq, hc => by
    have hp : p ∈ queue := by simp [hq]
    rw [chooseLoop, List.find?_cons]
    rcases hstop : s.rowHit p && decide (s.colTime p ≤ minColAt)
    · have hlate : s.rowHit p = true → minColAt < s.colTime p := by
        intro hhit
        simpa [hhit] using hstop
      obtain ⟨c', hc', hnext⟩ := h.consider_step hp hc hlate
      rw [hc', Sim.ok_bind]
      exact h.chooseLoop_eq rest (pre ++ [p]) c' (by simp [hq]) hnext
    · rw [Bool.and_eq_true, decide_eq_true_eq] at hstop
      obtain ⟨hready, hrow⟩ := rowHit_iff.1 hstop.1
      rw [consider_eq, if_pos hready, if_pos hrow, if_pos hstop.2]
      exact ⟨_, rfl, rfl, rfl⟩

theorem InRange.chooseNextFRFCFS_eq (h : s.InRange d queue minColAt) :
    s.chooseNextFRFCFS d queue minColAt = .ok (s.frfcfs d queue minColAt,
      (s.frfcfs d queue minColAt).elim maxTick s.colTime) := by
  have hstart : s.Chosen d queue minColAt []
      ⟨fun _ => 0, false, false, false, false, false, maxTick, none⟩ := by
    have hpick : s.pick d queue minColAt [] = none := by simp [pick]
    exact ⟨by simp, rfl, rfl, fun _ => rfl, hpick.symm, by rw [hpick]; rfl⟩
  obtain ⟨c, hloop, hpkt, hcol⟩ := h.chooseLoop_eq queue [] _ rfl hstart
  rw [chooseNextFRFCFS, hloop, Sim.ok_bind, hcol, hpkt]
  rfl

theorem InRange.exists_best (h : s.InRange d queue minColAt) (hp : p ∈ queue)
    (hready : s.ready p = true) : ∃ q ∈ queue, s.ready q = true ∧
      s.bestBank d queue minColAt q.rank q.bank = true := by
  obtain ⟨q, hq, hmin⟩ := (queue.filter s.ready).toFinset.exists_min_image
    (fun q => s.key d minColAt (q.rank, q.bank)) ⟨p, by simp [hp, hready]⟩
  simp only [List.mem_toFinset, List.mem_filter] at hq hmin
  refine ⟨q, hq.1, hq.2, h.bestBank_iff.2 ⟨waiting_iff.2 ⟨q, hq.1, hq.2, rfl, rfl⟩, ?_⟩⟩
  intro y _ hwy
  obtain ⟨r, hr, hready', hrank, hbank⟩ := waiting_iff.1 hwy
  have := hmin r ⟨hr, hready'⟩
  rwa [hrank, hbank] at this

theorem InRange.frfcfs_eq_none_iff (h : s.InRange d queue minColAt) :
    s.frfcfs d queue minColAt = none ↔ ∀ p ∈ queue, s.ready p = false := by
  simp only [frfcfs, Option.or_eq_none_iff, List.find?_eq_none]
  constructor
  · rintro ⟨-, -, hhit, hmiss⟩ p hp
    by_contra hready
    rw [Bool.not_eq_false] at hready
    obtain ⟨q, hq, hready', hbest⟩ := h.exists_best hp hready
    by_cases hrow : (s.banks q.rank q.bank).openRow = q.row
    · exact hhit q hq (rowHit_iff.2 ⟨hready', hrow⟩)
    · exact hmiss q hq (by simp [rowMiss_iff.2 ⟨hready', hrow⟩, hbest])
  · intro hnone
    have hmiss : queue.find? (fun p => s.rowMiss p && s.bestBank d queue minColAt p.rank p.bank)
        = none := by
      simp only [List.find?_eq_none]
      intro p hp
      simp [rowMiss, hnone p hp]
    refine ⟨fun p hp => by simp [rowHit, hnone p hp], ?_, fun p hp => by simp [rowHit, hnone p hp],
      List.find?_eq_none.1 hmiss⟩
    rw [hmiss]
    simp

end Choose

/-- As long as no time wraps around, the scan selects the packet `frfcfs` names, and none exactly
when no packet is to a rank that can take one. -/
theorem chooseNextFRFCFS_exact (d : DramInterface) (s : Dram) (queue : List MemPacketPtr)
    (minColAt : ℕ) (h : s.InRange d queue minColAt) :
    s.chooseNextFRFCFS d queue minColAt = .ok (s.frfcfs d queue minColAt,
      (s.frfcfs d queue minColAt).elim maxTick s.colTime) ∧
    (s.frfcfs d queue minColAt = none ↔ ∀ p ∈ queue, p.dram = true → s.refIdle p.rank = false) := by
  refine ⟨h.chooseNextFRFCFS_eq, h.frfcfs_eq_none_iff.trans ?_⟩
  refine forall₂_congr fun p _ => ?_
  rcases hd : p.dram <;> simp [ready, hd]

/-- One rank that is not refreshing, whose banks can be activated at the given ticks. -/
def idleBanks (actAllowedAt : ℕ → ℕ) : Dram where
  banks := fun _ j => { Bank.new with actAllowedAt := actAllowedAt j }
  refIdle := fun _ => true
  readBus := true
  curTick := 0

theorem chooseNextFRFCFS_exact_twoBanks : ∃ s : Dram, ∃ queue : List MemPacketPtr,
    s.InRange adaptiveDram queue 13750 ∧
      s.chooseNextFRFCFS adaptiveDram queue 13750 = .ok (some (readOf true 1 7 1), 0) := by
  have hrange : (idleBanks fun j => 5 - j).InRange adaptiveDram
      [readOf true 0 7 0, readOf true 1 7 1] 13750 := by
    refine ⟨by decide, by decide, by decide, fun i j => ?_, by decide, by decide⟩
    simp only [actTime, idleBanks, Bank.new, if_true, adaptiveDram]
    omega
  refine ⟨idleBanks fun j => 5 - j, [readOf true 0 7 0, readOf true 1 7 1], hrange, ?_⟩
  rw [(chooseNextFRFCFS_exact _ _ _ _ hrange).1]
  decide

/-- A bank whose time wraps around is taken for one that is ready at once. -/
theorem wrapped_bank_preferred : ∃ s : Dram, ∃ queue : List MemPacketPtr,
    adaptiveDram.banksPerRank ≤ 32 ∧ adaptiveDram.tRCD ≤ 13750 ∧
      s.frfcfs adaptiveDram queue 13750 = some (readOf true 1 7 1) ∧
      s.chooseNextFRFCFS adaptiveDram queue 13750 = .ok (some (readOf true 0 7 0), 0) := by
  refine ⟨idleBanks fun j => if j = 0 then 2 ^ 64 - 1 else 5,
    [readOf true 0 7 0, readOf true 1 7 1], by decide, by decide, by decide, ?_⟩
  rfl

end Gem5Nvm.Dram
