import Gem5Nvm.CommandWindow

/-!
# The command bus is not overbooked

The windows are the multiples of `commandWindow`.  The search for one command moves on from full
windows only; that for two moves the first command on from a full window, or behind the second, and
never past it.  Each ends at the latest where there is room, as long as that starts before the ticks
end.
-/

namespace Gem5Nvm.CommandWindow

variable {commandWindow : ℕ} {burstTicks : List ℕ} {cmdTick maxCmdsPerBurst maxMultiCmdSplit : ℕ}
  {m k : ℕ}

theorem getBurstWindow_eq (hwin : 0 < commandWindow) :
    getBurstWindow commandWindow cmdTick = .ok (cmdTick / commandWindow * commandWindow) := by
  rw [getBurstWindow, if_neg (by omega), Nat.div_mul_self_eq_mod_sub_self]

/-- The command goes no earlier than asked for, and in the window it is counted in. -/
structure Slot.Kept (commandWindow cmdTick : ℕ) (s : Slot) : Prop where
  aligned : s.burstTick = s.cmdAt / commandWindow * commandWindow
  later : cmdTick ≤ s.cmdAt

theorem Slot.kept_first : Slot.Kept commandWindow cmdTick
    ⟨cmdTick / commandWindow * commandWindow, cmdTick⟩ := ⟨rfl, le_rfl⟩

theorem Slot.Kept.next {s : Slot} (hs : s.Kept commandWindow cmdTick) (hwin : 0 < commandWindow)
    (hend : s.burstTick + commandWindow < 2 ^ 64) :
    (s.next commandWindow).burstTick = s.burstTick + commandWindow ∧
      (s.next commandWindow).Kept commandWindow cmdTick := by
  have hnext : s.next commandWindow
      = ⟨s.burstTick + commandWindow, s.burstTick + commandWindow⟩ := by
    rw [Slot.next, u64_of_lt hend]
  rw [hnext]
  refine ⟨rfl, ?_, ?_⟩
  · dsimp only
    rw [hs.aligned, ← Nat.succ_mul, Nat.mul_div_cancel _ hwin]
  · have := Nat.div_add_mod' s.cmdAt commandWindow
    have := Nat.mod_lt s.cmdAt hwin
    have := hs.later
    have := hs.aligned
    dsimp only
    omega

theorem Within.cons {t : ℕ} (h : Within burstTicks m) (ht : burstTicks.count t < m) :
    Within (t :: burstTicks) m := by
  intro x
  rw [List.count_cons]
  split_ifs with hx
  · rw [beq_iff_eq] at hx
    exact hx ▸ ht
  · exact h x

theorem Within.prune {curTick : ℕ} (h : Within burstTicks m) :
    Within (pruneBurstTick curTick burstTicks) m := fun t =>
  ((List.filter_sublist).count_le t).trans (h t)

section Single

theorem verifySingleCmd_spec (hwin : 0 < commandWindow)
    (hroom : HasRoom commandWindow burstTicks cmdTick maxCmdsPerBurst) :
    ∃ s : Slot, verifySingleCmd commandWindow burstTicks cmdTick maxCmdsPerBurst
        = .ok (s.cmdAt, s.burstTick :: burstTicks) ∧
      s.Kept commandWindow cmdTick ∧ burstTicks.count s.burstTick < maxCmdsPerBurst := by
  obtain ⟨k, hk, hend, hcount⟩ := hroom
  -- the search does not get past the window with room
  have hround : ∀ s : Slot, s.Kept commandWindow cmdTick ∧ s.burstTick ≤ k * commandWindow →
      decide (burstTicks.count s.burstTick ≥ maxCmdsPerBurst) = true →
      ∃ s', (.ok (s.next commandWindow) : Sim Slot) = .ok s' ∧
        (s'.Kept commandWindow cmdTick ∧ s'.burstTick ≤ k * commandWindow) ∧
        k * commandWindow - s'.burstTick < k * commandWindow - s.burstTick := by
    rintro s ⟨hs, hle⟩ hfull
    rw [decide_eq_true_eq] at hfull
    have hne : s.burstTick ≠ k * commandWindow := by
      intro heq
      rw [heq] at hfull
      omega
    have hstep : s.burstTick + commandWindow ≤ k * commandWindow := by
      rw [hs.aligned] at hne hle ⊢
      rw [← Nat.succ_mul]
      exact Nat.mul_le_mul_right _ (Nat.lt_of_mul_lt_mul_right (hle.lt_of_ne hne))
    obtain ⟨hnext, hkept⟩ := hs.next hwin (hstep.trans_lt hend)
    exact ⟨_, rfl, ⟨hkept, by omega⟩, by omega⟩
  obtain ⟨s, hrun, ⟨hs, -⟩, hstop⟩ := whileSim_total hround
    ⟨Slot.kept_first, Nat.mul_le_mul_right _ hk⟩ (by rw [maxRounds]; omega)
  refine ⟨s, ?_, hs, by simpa using hstop⟩
  rw [verifySingleCmd, getBurstWindow_eq hwin, Sim.ok_bind, hrun, Sim.ok_bind, Sim.pure_eq]

end Single

section Multi

/-- There is room for both commands where they are. -/
def Fits (burstTicks : List ℕ) (maxCmdsPerBurst first second : ℕ) : Prop :=
  burstTicks.count first < maxCmdsPerBurst ∧
    (if second = first then burstTicks.count first + 1 else burstTicks.count second)
      < maxCmdsPerBurst

structure SlotPair.Kept (commandWindow : ℕ) (burstTicks : List ℕ) (cmdTick maxCmdsPerBurst : ℕ)
    (s : SlotPair) : Prop where
  slot : s.toSlot.Kept commandWindow cmdTick
  aligned : commandWindow ∣ s.firstCmdTick
  le : s.firstCmdTick ≤ s.burstTick
  fits : s.firstCanIssue = true → s.secondCanIssue = true →
    Fits burstTicks maxCmdsPerBurst s.firstCmdTick s.burstTick

/-- Where the search ends at the latest: with the first command at `first` and the second at
`second`. -/
structure Ends (commandWindow : ℕ) (burstTicks : List ℕ) (maxCmdsPerBurst first second : ℕ) :
    Prop where
  first_dvd : commandWindow ∣ first
  second_dvd : commandWindow ∣ second
  le : first ≤ second
  lt : second < 2 ^ 64
  first_room : burstTicks.count first < maxCmdsPerBurst
  between_room : ∀ t, first < t → t ≤ second → commandWindow ∣ t →
    burstTicks.count t < maxCmdsPerBurst
  second_room : ∀ t ≤ first,
    (if second = t then burstTicks.count t + 1 else burstTicks.count second) < maxCmdsPerBurst

theorem add_le_of_dvd {a b : ℕ} (ha : commandWindow ∣ a) (hb : commandWindow ∣ b) (hlt : a < b) :
    a + commandWindow ≤ b := by
  obtain ⟨i, rfl⟩ := ha
  obtain ⟨j, rfl⟩ := hb
  rw [← Nat.mul_succ]
  exact Nat.mul_le_mul_left _ (Nat.lt_of_mul_lt_mul_left hlt)

theorem HasRoomForTwo.ends (hwin : 0 < commandWindow)
    (hroom : HasRoomForTwo commandWindow burstTicks cmdTick maxCmdsPerBurst) :
    ∃ first second, Ends commandWindow burstTicks maxCmdsPerBurst first second ∧
      cmdTick / commandWindow * commandWindow ≤ first := by
  obtain ⟨k, hk, ⟨hend, hcount⟩ | ⟨hend, hcount, hcount'⟩⟩ := hroom
  · refine ⟨_, _, ⟨Nat.dvd_mul_left .., Nat.dvd_mul_left .., le_rfl, hend, by omega,
      fun t hlt hle => by omega, fun t ht => ?_⟩, Nat.mul_le_mul_right _ hk⟩
    split_ifs with heq
    · rwa [← heq]
    · omega
  · have hnext : k * commandWindow < (k + 1) * commandWindow :=
      Nat.mul_lt_mul_of_pos_right (Nat.lt_succ_self k) hwin
    refine ⟨k * commandWindow, (k + 1) * commandWindow, ⟨Nat.dvd_mul_left .., Nat.dvd_mul_left ..,
      hnext.le, hend, hcount, fun t hlt hle hdvd => ?_, fun t ht => ?_⟩, Nat.mul_le_mul_right _ hk⟩
    · have := add_le_of_dvd (Nat.dvd_mul_left ..) hdvd hlt
      rw [← Nat.succ_mul] at this
      rwa [le_antisymm hle this]
    · rwa [if_neg (by omega)]

section Round

variable {s : SlotPair} {first second : ℕ}

/-- The flags say that both commands issue. -/
def SlotPair.done (s : SlotPair) : Bool := s.firstCanIssue && s.secondCanIssue

/-- How far the search is from its end. -/
def SlotPair.left (first second : ℕ) (s : SlotPair) : ℕ :=
  (second - s.burstTick) + (first - s.firstCmdTick) + if s.done then 0 else 1

variable (hs : s.Kept commandWindow burstTicks cmdTick maxCmdsPerBurst)
  (hends : Ends commandWindow burstTicks maxCmdsPerBurst first second)
  (hfirst : s.firstCmdTick ≤ first) (hsecond : s.burstTick ≤ second)

include hs hends hfirst hsecond

theorem SlotPair.slot_next (hwin : 0 < commandWindow)
    (hfull : ¬ (if s.burstTick = s.firstCmdTick then burstTicks.count s.firstCmdTick + 1
      else burstTicks.count s.burstTick) < maxCmdsPerBurst) :
    s.burstTick + commandWindow ≤ second ∧
      (s.toSlot.next commandWindow).burstTick = s.burstTick + commandWindow ∧
      (s.toSlot.next commandWindow).Kept commandWindow cmdTick := by
  have hdvd : commandWindow ∣ s.burstTick := hs.slot.aligned ▸ Nat.dvd_mul_left ..
  have hne : s.burstTick ≠ second := fun heq => hfull (heq ▸ hends.second_room _ hfirst)
  have hle := add_le_of_dvd hdvd hends.second_dvd (hsecond.lt_of_ne hne)
  exact ⟨hle, hs.slot.next hwin (hle.trans_lt hends.lt)⟩

section

variable (hmoves : ¬ burstTicks.count s.firstCmdTick < maxCmdsPerBurst ∨
  s.burstTick ≠ s.firstCmdTick ∧ ¬ burstTicks.count s.burstTick < maxCmdsPerBurst)
include hmoves

theorem SlotPair.first_next : s.firstCmdTick + commandWindow ≤ first := by
  refine add_le_of_dvd hs.aligned hends.first_dvd (hfirst.lt_of_ne fun heq => ?_)
  rcases hmoves with hfull | ⟨hne, hfull⟩
  · exact hfull (heq ▸ hends.first_room)
  · have hdvd : commandWindow ∣ s.burstTick := hs.slot.aligned ▸ Nat.dvd_mul_left ..
    have hle := hs.le
    exact hfull (hends.between_room _ (by omega) hsecond hdvd)

theorem SlotPair.first_moved {b : ℕ} (hb : s.burstTick ≤ b)
    (hsame : s.burstTick = s.firstCmdTick → b = s.burstTick + commandWindow) :
    u64 (s.firstCmdTick + commandWindow) = s.firstCmdTick + commandWindow ∧
      s.firstCmdTick + commandWindow ≤ first ∧ s.firstCmdTick + commandWindow ≤ b ∧
      commandWindow ∣ s.firstCmdTick + commandWindow := by
  have hle := first_next hs hends hfirst hsecond hmoves
  refine ⟨u64_of_lt (hle.trans_lt (hends.le.trans_lt hends.lt)), hle, ?_,
    Nat.dvd_add_self_right.2 hs.aligned⟩
  have hdvd : commandWindow ∣ s.burstTick := hs.slot.aligned ▸ Nat.dvd_mul_left ..
  rcases eq_or_ne s.burstTick s.firstCmdTick with heq | hne
  · rw [hsame heq, heq]
  · exact (add_le_of_dvd hs.aligned hdvd (hs.le.lt_of_ne hne.symm)).trans hb

end

/-- A round of the search. -/
theorem SlotPair.Kept.round (hwin : 0 < commandWindow) (hgo : s.done = false) :
    ∃ s', s.next commandWindow burstTicks maxCmdsPerBurst maxMultiCmdSplit = s' ∧
      (s'.Kept commandWindow burstTicks cmdTick maxCmdsPerBurst ∧ s'.firstCmdTick ≤ first ∧
        s'.burstTick ≤ second) ∧ s'.left first second < s.left first second := by
  refine ⟨_, rfl, ?_⟩
  have hleft : s.left first second = (second - s.burstTick) + (first - s.firstCmdTick) + 1 := by
    rw [left, hgo]
    rfl
  rw [hleft]
  by_cases hsec : (if s.burstTick = s.firstCmdTick then burstTicks.count s.firstCmdTick + 1
      else burstTicks.count s.burstTick) < maxCmdsPerBurst
  · by_cases hfst : burstTicks.count s.firstCmdTick < maxCmdsPerBurst
    · have hnext : s.next commandWindow burstTicks maxCmdsPerBurst maxMultiCmdSplit
          = ⟨s.toSlot, s.firstCmdTick, true, true⟩ := by
        simp [next, hsec, hfst]
      rw [hnext]
      refine ⟨⟨⟨hs.slot, hs.aligned, hs.le, fun _ _ => ⟨hfst, hsec⟩⟩, hfirst, hsecond⟩, ?_⟩
      simp only [left, done, Bool.and_true, if_true]
      omega
    · -- the first command alone has no room, so it is not in the window of the second
      have hne : s.burstTick ≠ s.firstCmdTick := by
        intro heq
        rw [if_pos heq] at hsec
        omega
      have hnext : s.next commandWindow burstTicks maxCmdsPerBurst maxMultiCmdSplit
          = ⟨s.toSlot, u64 (s.firstCmdTick + commandWindow), false, true⟩ := by
        simp [next, hsec, hfst]
      obtain ⟨hu, hle, hb, hdvd⟩ := first_moved hs hends hfirst hsecond (.inl hfst) le_rfl
        fun heq => absurd heq hne
      rw [hnext, hu]
      refine ⟨⟨⟨hs.slot, hdvd, hb, fun h => by cases h⟩, hle, hsecond⟩, ?_⟩
      simp only [left, done, Bool.and_true, Bool.false_eq_true, if_false]
      omega
  · obtain ⟨hle₂, hburst, hslot⟩ := slot_next hs hends hfirst hsecond hwin hsec
    have hnext : s.next commandWindow burstTicks maxCmdsPerBurst maxMultiCmdSplit
        = ⟨s.toSlot.next commandWindow,
          (if maxCmdsPerBurst ≤ burstTicks.count s.firstCmdTick ∨ s.burstTick ≠ s.firstCmdTick ∧
              maxMultiCmdSplit < usub (s.toSlot.next commandWindow).burstTick s.firstCmdTick
            then u64 (s.firstCmdTick + commandWindow) else s.firstCmdTick),
          decide (burstTicks.count s.firstCmdTick < maxCmdsPerBurst), false⟩ := by
      simp [next, hsec]
    rw [hnext]
    split_ifs with hmoves
    · have hmoves' : ¬ burstTicks.count s.firstCmdTick < maxCmdsPerBurst ∨
          s.burstTick ≠ s.firstCmdTick ∧ ¬ burstTicks.count s.burstTick < maxCmdsPerBurst :=
        hmoves.imp Nat.not_lt.2 fun h => ⟨h.1, by rwa [if_neg h.1] at hsec⟩
      obtain ⟨hu, hle, hb, hdvd⟩ := first_moved hs hends hfirst hsecond hmoves'
        (hburst ▸ Nat.le_add_right ..) fun _ => hburst
      rw [hu]
      refine ⟨⟨⟨hslot, hdvd, hb, fun _ h => by cases h⟩, hle, hburst ▸ hle₂⟩, ?_⟩
      simp only [left, done, Bool.and_false, Bool.false_eq_true, if_false, hburst]
      omega
    · refine ⟨⟨⟨hslot, hs.aligned, ?_, fun _ h => by cases h⟩, hfirst, hburst ▸ hle₂⟩, ?_⟩
      · rw [hburst]
        exact hs.le.trans (Nat.le_add_right ..)
      · simp only [left, done, Bool.and_false, Bool.false_eq_true, if_false, hburst]
        omega

end Round

theorem burstOffset_spec (hwin : 0 < commandWindow)
    (hsplit : SplitFits commandWindow cmdTick maxMultiCmdSplit) :
    ∃ b, whileSim (fun b => decide (maxMultiCmdSplit > u64 (cmdTick % commandWindow + b)))
        (fun b => .ok (u64 (b + commandWindow))) 0 = .ok b ∧ commandWindow ∣ b := by
  obtain ⟨k, hk, hend⟩ := hsplit
  have hround : ∀ b, commandWindow ∣ b ∧ b ≤ k * commandWindow →
      decide (maxMultiCmdSplit > u64 (cmdTick % commandWindow + b)) = true →
      ∃ b', (.ok (u64 (b + commandWindow)) : Sim ℕ) = .ok b' ∧
        (commandWindow ∣ b' ∧ b' ≤ k * commandWindow) ∧
        k * commandWindow - b' < k * commandWindow - b := by
    rintro b ⟨hdvd, hle⟩ hgo
    rw [decide_eq_true_eq, u64_of_lt (by omega)] at hgo
    have hle' := add_le_of_dvd hdvd (Nat.dvd_mul_left commandWindow k) (by omega)
    rw [u64_of_lt (by omega)]
    exact ⟨_, rfl, ⟨Nat.dvd_add_self_right.2 hdvd, hle'⟩, by omega⟩
  obtain ⟨b, hrun, ⟨hdvd, -⟩, -⟩ := whileSim_total hround
    ⟨Nat.dvd_zero _, Nat.zero_le _⟩ (by rw [maxRounds]; omega)
  exact ⟨b, hrun, hdvd⟩

theorem verifyMultiCmd_spec (hwin : 0 < commandWindow)
    (hroom : HasRoomForTwo commandWindow burstTicks cmdTick maxCmdsPerBurst)
    (hsplit : SplitFits commandWindow cmdTick maxMultiCmdSplit) :
    ∃ s : SlotPair, verifyMultiCmd commandWindow burstTicks cmdTick maxCmdsPerBurst maxMultiCmdSplit
        = .ok (s.cmdAt, s.firstCmdTick :: s.burstTick :: burstTicks) ∧
      s.toSlot.Kept commandWindow cmdTick ∧ s.firstCmdTick ≤ s.burstTick ∧
      Fits burstTicks maxCmdsPerBurst s.firstCmdTick s.burstTick := by
  obtain ⟨first, second, hends, hstart⟩ := hroom.ends hwin
  obtain ⟨b, hb, hbdvd⟩ := burstOffset_spec hwin hsplit
  have hdvd : commandWindow ∣ cmdTick / commandWindow * commandWindow := Nat.dvd_mul_left ..
  set window := cmdTick / commandWindow * commandWindow with hwindow
  -- the first command is a number of windows before the second
  have hfdvd : commandWindow ∣ window - min b window := by
    rcases min_choice b window with hmin | hmin <;> rw [hmin]
    · exact Nat.dvd_sub hdvd hbdvd
    · rw [Nat.sub_self]
      exact Nat.dvd_zero _
  have hround : ∀ s : SlotPair, s.Kept commandWindow burstTicks cmdTick maxCmdsPerBurst ∧
        s.firstCmdTick ≤ first ∧ s.burstTick ≤ second →
      (!s.firstCanIssue || !s.secondCanIssue) = true →
      ∃ s', (.ok (s.next commandWindow burstTicks maxCmdsPerBurst maxMultiCmdSplit) : Sim SlotPair)
          = .ok s' ∧
        (s'.Kept commandWindow burstTicks cmdTick maxCmdsPerBurst ∧ s'.firstCmdTick ≤ first ∧
          s'.burstTick ≤ second) ∧ s'.left first second < s.left first second := by
    rintro s ⟨hs, hfirst, hsecond⟩ hgo
    rw [← Bool.not_and, Bool.not_eq_true'] at hgo
    obtain ⟨s', hnext, hkept⟩ := hs.round hends hfirst hsecond hwin hgo
    exact ⟨s', by rw [hnext], hkept⟩
  have hinit : SlotPair.Kept commandWindow burstTicks cmdTick maxCmdsPerBurst
      ⟨⟨window, cmdTick⟩, window - min b window, false, false⟩ :=
    ⟨Slot.kept_first, hfdvd, Nat.sub_le .., fun h => by cases h⟩
  obtain ⟨s, hrun, ⟨hs, -, -⟩, hstop⟩ := Loop.whileLoop_total hround (maxRounds * maxRounds)
    ⟨hinit, (Nat.sub_le ..).trans hstart, hstart.trans hends.le⟩ (by
      have := hends.lt
      have := hends.le
      simp only [SlotPair.left, SlotPair.done, maxRounds, Bool.and_false, Bool.false_eq_true,
        if_false]
      omega)
  rw [← Bool.not_and, Bool.not_eq_false', Bool.and_eq_true] at hstop
  refine ⟨s, ?_, hs.slot, hs.le, hs.fits hstop.1 hstop.2⟩
  rw [verifyMultiCmd, getBurstWindow_eq hwin, Sim.ok_bind]
  dsimp only
  rw [hb, Sim.ok_bind, hrun, Sim.ok_bind, Sim.pure_eq]

theorem Within.cons_two {first second : ℕ} (h : Within burstTicks m)
    (hfits : Fits burstTicks m first second) : Within (first :: second :: burstTicks) m := by
  obtain ⟨hfirst, hsecond⟩ := hfits
  split_ifs at hsecond with heq
  · subst heq
    refine (h.cons (by omega)).cons ?_
    rw [List.count_cons_self]
    exact hsecond
  · refine (h.cons hsecond).cons ?_
    rwa [List.count_cons_of_ne heq]

end Multi

end Gem5Nvm.CommandWindow
