import Gem5Nvm.StoreSet

/-!
# What a squash leaves in the store set predictor

Each store in `storeList` is no younger than the last one fetched in its set, which `clear` and
violations do not change: so every round of the loop of `squash` erases an entry.  What it leaves
in the LFST is another matter: a set whose stores have all left `storeList` is not looked at.  When
every store is issued in the set it was inserted in, there is no such set with a valid entry.
-/

namespace Gem5Nvm.StoreSet

open Sim (ok_bind pure_eq)
open Function (update_apply update)

structure Valid (s : StoreSet) : Prop where
  SSIT_pos : 0 < s.SSITSize
  LFST_pos : 0 < s.LFSTSize
  ssid_lt : ∀ i, s.validSSIT i → s.SSIT i < s.LFSTSize
  sorted : s.storeList.Pairwise fun e e' => e'.1 < e.1
  last : ∀ e ∈ s.storeList, e.1 ≤ s.LFST e.2

/-- The last store fetched in a set, while it is valid, is in `storeList` under that set. -/
def Tracked (s : StoreSet) : Prop := ∀ i, s.validLFST i → (s.LFST i, i) ∈ s.storeList

/-- A store as young as `seqNum` has not been inserted. -/
def Fresh (s : StoreSet) (seqNum : ℕ) : Prop :=
  (∀ e ∈ s.storeList, e.1 < seqNum) ∧ ∀ i, s.LFST i ≤ seqNum

variable {s : StoreSet}

theorem calcIndex_lt (h : 0 < s.SSITSize) (pc : ℕ) : s.calcIndex pc < s.SSITSize := by
  have := Nat.and_le_right (n := pc >>> 2) (m := s.SSITSize - 1)
  unfold calcIndex
  omega

theorem setStore_fresh {seqNum ssid : ℕ} {l : List (ℕ × ℕ)} (h : ∀ e ∈ l, e.1 < seqNum) :
    setStore seqNum ssid l = (seqNum, ssid) :: l := by
  cases l with
  | nil => rfl
  | cons e rest => rw [setStore, if_pos (h e List.mem_cons_self)]

theorem init_valid (clearPeriod : ℕ) {SSITSize LFSTSize : ℕ} (hS : 0 < SSITSize) (hL : 0 < LFSTSize) :
    (init clearPeriod SSITSize LFSTSize).Valid where
  SSIT_pos := hS
  LFST_pos := hL
  ssid_lt := by simp [init]
  sorted := List.Pairwise.nil
  last := by simp [init]

theorem Valid.setSSIT (hv : s.Valid) {index ssid : ℕ} (h : ssid < s.LFSTSize) :
    (s.setSSIT index ssid).Valid where
  SSIT_pos := hv.SSIT_pos
  LFST_pos := hv.LFST_pos
  ssid_lt := by
    intro i hi
    simp only [StoreSet.setSSIT, update_apply] at hi ⊢
    split_ifs at hi ⊢ with hx
    · exact h
    · exact hv.ssid_lt i hi
  sorted := hv.sorted
  last := hv.last

theorem Valid.moveSSIT (hv : s.Valid) {index ssid : ℕ} (h : ssid < s.LFSTSize) :
    { s with SSIT := update s.SSIT index ssid }.Valid where
  SSIT_pos := hv.SSIT_pos
  LFST_pos := hv.LFST_pos
  ssid_lt := by
    intro i hi
    simp only [update_apply]
    split_ifs
    · exact h
    · exact hv.ssid_lt i hi
  sorted := hv.sorted
  last := hv.last

theorem violation_ok (hv : s.Valid) (storePC loadPC : ℕ) :
    ∃ s', s.violation storePC loadPC = .ok s' ∧ s'.Valid ∧ s'.LFST = s.LFST ∧
      s'.validLFST = s.validLFST ∧ s'.storeList = s.storeList := by
  have hl := calcIndex_lt hv.SSIT_pos loadPC
  have hs := calcIndex_lt hv.SSIT_pos storePC
  have hnew : s.calcSSID loadPC < s.LFSTSize := Nat.mod_lt _ hv.LFST_pos
  unfold violation
  simp only [assert, hl, hs, and_self, decide_true, ↓reduceIte, ok_bind]
  rcases hvl : s.validSSIT (s.calcIndex loadPC) with _ | _ <;>
    rcases hvs : s.validSSIT (s.calcIndex storePC) with _ | _ <;> simp only
  · simp only [hnew, decide_true, ↓reduceIte, ok_bind, pure_eq]
    exact ⟨_, rfl, Valid.setSSIT (hv.setSSIT hnew) hnew, rfl, rfl, rfl⟩
  · exact ⟨_, rfl, hv.setSSIT (hv.ssid_lt _ hvs), rfl, rfl, rfl⟩
  · simp only [hv.ssid_lt _ hvl, decide_true, ↓reduceIte, ok_bind, pure_eq]
    exact ⟨_, rfl, hv.setSSIT (hv.ssid_lt _ hvl), rfl, rfl, rfl⟩
  · simp only [hv.ssid_lt _ hvl, hv.ssid_lt _ hvs, and_self, decide_true, ↓reduceIte, ok_bind,
      pure_eq]
    split_ifs
    · exact ⟨_, rfl, hv.moveSSIT (hv.ssid_lt _ hvl), rfl, rfl, rfl⟩
    · exact ⟨_, rfl, hv.moveSSIT (hv.ssid_lt _ hvs), rfl, rfl, rfl⟩

theorem checkClear_valid (hv : s.Valid) : s.checkClear.Valid := by
  unfold checkClear
  simp only []
  split_ifs
  · exact ⟨hv.SSIT_pos, hv.LFST_pos, by simp [clear], List.Pairwise.nil, by simp [clear]⟩
  · exact ⟨hv.SSIT_pos, hv.LFST_pos, hv.ssid_lt, hv.sorted, hv.last⟩

theorem checkClear_fresh {seqNum : ℕ} (hf : s.Fresh seqNum) : s.checkClear.Fresh seqNum := by
  unfold checkClear
  simp only []
  split_ifs
  · exact ⟨by simp [clear], hf.2⟩
  · exact hf

theorem checkClear_tracked (ht : s.Tracked) : s.checkClear.Tracked := by
  unfold checkClear
  simp only []
  split_ifs
  · simp [Tracked, clear]
  · exact ht

@[simp] theorem checkClear_SSITSize : s.checkClear.SSITSize = s.SSITSize := by
  unfold checkClear
  simp only []
  split_ifs <;> rfl

theorem insertStore_ok (hv : s.Valid) (pc : ℕ) {seqNum : ℕ} (hf : s.Fresh seqNum) :
    ∃ s', s.insertStore pc seqNum = .ok s' ∧ s'.Valid ∧
      (∀ q, seqNum < q → s.Fresh q → s'.Fresh q) ∧ (s.Tracked → s'.Tracked) := by
  have hc := checkClear_valid hv
  have hfc := checkClear_fresh hf
  have hi : s.calcIndex pc < s.checkClear.SSITSize := by
    rw [checkClear_SSITSize]
    exact calcIndex_lt hv.SSIT_pos pc
  unfold insertStore
  simp only [assert, hi, decide_true, ↓reduceIte, ok_bind]
  rcases hvs : s.checkClear.validSSIT (s.calcIndex pc) with _ | _
  · refine ⟨s.checkClear, by simp, hc, fun q _ => checkClear_fresh, checkClear_tracked⟩
  · have hlt := hc.ssid_lt _ hvs
    simp only [hlt, decide_true, ↓reduceIte, ok_bind, pure_eq, setStore_fresh hfc.1]
    generalize s.checkClear.SSIT (s.calcIndex pc) = ssid
    refine ⟨_, rfl, ⟨hc.SSIT_pos, hc.LFST_pos, hc.ssid_lt, ?_, ?_⟩, ?_, ?_⟩
    · exact List.pairwise_cons.2 ⟨fun e he => hfc.1 e he, hc.sorted⟩
    · intro e he
      rcases List.mem_cons.1 he with rfl | he
      · simp
      · simp only [update_apply]
        split_ifs
        · exact (hfc.1 e he).le
        · exact hc.last e he
    · intro q hq hfq
      obtain ⟨hlist, hlast⟩ := checkClear_fresh hfq
      refine ⟨?_, fun i => ?_⟩
      · simpa [hq] using hlist
      · simp only [update_apply]
        split_ifs
        · exact hq.le
        · exact hlast i
    · intro ht i hval
      simp only [update_apply] at hval ⊢
      split_ifs at hval ⊢ with hx
      · rw [hx]
        exact List.mem_cons_self
      · exact List.mem_cons_of_mem _ (checkClear_tracked ht i hval)

theorem issued_ok (hv : s.Valid) (pc seqNum : ℕ) (isStore : Bool) :
    ∃ s', s.issued pc seqNum isStore = .ok s' ∧ s'.Valid ∧ s'.LFST = s.LFST ∧
      (∀ e ∈ s'.storeList, e ∈ s.storeList) ∧
      (s.OwnSet (.issued pc seqNum isStore) → s.Tracked → s'.Tracked) := by
  have hi := calcIndex_lt hv.SSIT_pos pc
  have hfilter : ∀ e ∈ s.storeList.filter (fun e => e.1 ≠ seqNum), e ∈ s.storeList :=
    fun e he => List.mem_of_mem_filter he
  have herased : { s with storeList := s.storeList.filter fun e => e.1 ≠ seqNum }.Valid :=
    ⟨hv.SSIT_pos, hv.LFST_pos, hv.ssid_lt, hv.sorted.sublist List.filter_sublist,
      fun e he => hv.last e (hfilter e he)⟩
  -- what stays valid was tracked by an entry of another store
  have htracked : ∀ i, s.Tracked → s.validLFST i → s.LFST i ≠ seqNum →
      (s.LFST i, i) ∈ s.storeList.filter fun e => e.1 ≠ seqNum := by
    intro i ht hval hne
    exact List.mem_filter.2 ⟨ht i hval, by simpa using hne⟩
  unfold issued
  cases isStore with
  | false => exact ⟨s, by simp, hv, rfl, fun e he => he, fun _ ht => ht⟩
  | true =>
    simp only [assert, hi, decide_true, ↓reduceIte, ok_bind]
    rcases hvs : s.validSSIT (s.calcIndex pc) with _ | _
    · simp only [Bool.false_eq_true, ↓reduceIte, pure_eq]
      refine ⟨_, rfl, herased, rfl, hfilter, fun hown ht i hval => htracked i ht hval ?_⟩
      intro heq
      have := (hown i hval heq).1
      simp [hvs] at this
    · simp only [hv.ssid_lt _ hvs, decide_true, ↓reduceIte, ok_bind, pure_eq]
      split_ifs with hlast
      · refine ⟨_, rfl, ⟨herased.1, herased.2, herased.3, herased.4, herased.5⟩, rfl, hfilter, ?_⟩
        intro hown ht i hval
        simp only [update_apply] at hval
        split_ifs at hval with hx
        refine htracked i ht hval fun heq => hx ?_
        exact (hown i hval heq).2.symm
      · refine ⟨_, rfl, herased, rfl, hfilter, fun hown ht i hval => htracked i ht hval ?_⟩
        intro heq
        obtain ⟨-, rfl⟩ := hown i hval heq
        exact hlast ⟨hval, heq⟩

theorem squashLoop_eq {n : ℕ} {LFST : ℕ → ℕ} :
    ∀ {l : List (ℕ × ℕ)} (valid : ℕ → Bool), (l.Pairwise fun e e' => e'.1 < e.1) →
      (∀ e ∈ l, e.1 ≤ LFST e.2) → squashLoop n LFST l valid =
        .ok (l.filter (·.1 ≤ n), fun i => valid i && !l.any fun e => e.2 = i ∧ n < e.1)
  | [], valid, _, _ => by simp [squashLoop]
  | (seqNum, idx) :: rest, valid, hsorted, hlast => by
    obtain ⟨hhead, hrest⟩ := List.pairwise_cons.1 hsorted
    have ih := fun valid => squashLoop_eq (n := n) valid hrest
      fun e he => hlast e (List.mem_cons_of_mem _ he)
    have hidx : seqNum ≤ LFST idx := hlast (seqNum, idx) List.mem_cons_self
    by_cases hle : seqNum ≤ n
    · -- the list is sorted: what follows is older still
      have hold : ∀ e ∈ (seqNum, idx) :: rest, e.1 ≤ n := by
        intro e he
        rcases List.mem_cons.1 he with rfl | he
        · exact hle
        · exact (hhead e he).le.trans hle
      have hnone : ∀ i, ((seqNum, idx) :: rest).any (fun e => e.2 = i ∧ n < e.1) = false := by
        intro i
        simp only [List.any_eq_false, decide_eq_true_eq]
        exact fun e he h => absurd (hold e he) (by omega)
      rw [squashLoop, if_pos hle, List.filter_eq_self.2 (by simpa using hold)]
      simp only [hnone, Bool.not_false, Bool.and_true]
    · have hyoung : LFST idx > n := by omega
      rw [squashLoop, if_neg hle]
      simp only [hyoung, decide_true, Bool.and_true, List.filter_cons, hle, decide_false,
        Bool.false_eq_true, ↓reduceIte, List.any_cons]
      cases hval : valid idx with
      | true =>
        rw [if_pos rfl, ih]
        congr 2
        funext i
        by_cases hx : i = idx
        · simp [hx, not_le.1 hle]
        · simp [hx, Ne.symm hx]
      | false =>
        rw [if_neg Bool.false_ne_true, Bool.not_false, if_pos rfl, ih]
        congr 2
        funext i
        by_cases hx : i = idx
        · simp [hx, hval]
        · simp [Ne.symm hx]

theorem squash_eq (hv : s.Valid) (n : ℕ) :
    s.squash n = .ok { s with
      storeList := s.storeList.filter (·.1 ≤ n)
      validLFST := fun i => s.validLFST i && !s.storeList.any fun e => e.2 = i ∧ n < e.1 } := by
  simp only [squash, squashLoop_eq s.validLFST hv.sorted hv.last, ok_bind, pure_eq]

theorem squash_valid (hv : s.Valid) {n : ℕ} {s' : StoreSet} (h : s.squash n = .ok s') :
    s'.Valid := by
  rw [squash_eq hv] at h
  cases h
  exact ⟨hv.SSIT_pos, hv.LFST_pos, hv.ssid_lt, hv.sorted.sublist List.filter_sublist,
    fun e he => hv.last e (List.mem_of_mem_filter he)⟩

theorem squash_tracked (hv : s.Valid) (ht : s.Tracked) {n : ℕ} {s' : StoreSet}
    (h : s.squash n = .ok s') : s'.Tracked := by
  rw [squash_eq hv] at h
  cases h
  intro i hval
  simp only [Bool.and_eq_true, Bool.not_eq_true', List.any_eq_false, decide_eq_true_eq] at hval
  have hin := ht i hval.1
  refine List.mem_filter.2 ⟨hin, ?_⟩
  have := hval.2 _ hin
  simp only [true_and, not_lt] at this
  simpa using this

theorem checkInst_eq (hv : s.Valid) (pc : ℕ) :
    s.checkInst pc = .ok (if s.validSSIT (s.calcIndex pc) ∧ s.validLFST (s.SSIT (s.calcIndex pc))
      then s.LFST (s.SSIT (s.calcIndex pc)) else 0) := by
  have hi := calcIndex_lt hv.SSIT_pos pc
  unfold checkInst
  simp only [assert, hi, decide_true, ↓reduceIte, ok_bind]
  rcases hvs : s.validSSIT (s.calcIndex pc) with _ | _
  · simp
  · simp [hv.ssid_lt _ hvs]

theorem checkInst_squash_iff (hv : s.Valid) {n : ℕ} {s' : StoreSet} (h : s.squash n = .ok s') :
    (∀ pc, ∃ r, s'.checkInst pc = .ok r ∧ r ≤ n) ↔ s.Pending n := by
  have hv' := squash_valid hv h
  simp only [checkInst_eq hv', Except.ok.injEq, exists_eq_left']
  rw [squash_eq hv] at h
  cases h
  refine forall_congr' fun pc => ?_
  have hidx : ∀ l v, calcIndex { s with storeList := l, validLFST := v } pc = s.calcIndex pc :=
    fun _ _ => rfl
  simp only [hidx, Bool.and_eq_true, Bool.not_eq_true', List.any_eq_false, decide_eq_true_eq]
  constructor
  · intro hle hS hL hn
    by_contra hnone
    push Not at hnone
    rw [if_pos ⟨hS, hL, fun e he hx => absurd (hnone e he hx.1) (by omega)⟩] at hle
    omega
  · intro hpend
    split_ifs with hc
    · by_contra hn
      obtain ⟨e, he, hset, hyoung⟩ := hpend hc.1 hc.2.1 (by omega)
      exact hc.2.2 e he ⟨hset, hyoung⟩
    · exact Nat.zero_le _

theorem Tracked.pending (ht : s.Tracked) (n : ℕ) : s.Pending n :=
  fun _ _ hL hn => ⟨_, ht _ hL, rfl, hn⟩

theorem step_ok (hv : s.Valid) {c : Call} (hf : ∀ q ∈ c.storeSeqNum, s.Fresh q) :
    ∃ s', s.step c = .ok ((), s') ∧ s'.Valid ∧
      (∀ q, (∀ q' ∈ c.storeSeqNum, q' < q) → s.Fresh q → s'.Fresh q) ∧
      (s.OwnSet c → s.Tracked → s'.Tracked) := by
  cases c with
  | violation storePC loadPC =>
    obtain ⟨s', hs', hv', hL, hvalid, hlist⟩ := violation_ok hv storePC loadPC
    refine ⟨s', by simp [step, hs'], hv', fun q _ hq => ?_, fun _ ht => ?_⟩
    · rwa [Fresh, hlist, hL]
    · rwa [Tracked, hvalid, hL, hlist]
  | insertLoad pc seqNum =>
    exact ⟨s.checkClear, rfl, checkClear_valid hv, fun q _ => checkClear_fresh,
      fun _ => checkClear_tracked⟩
  | insertStore pc seqNum =>
    obtain ⟨s', hs', hv', hfresh, htracked⟩ := insertStore_ok hv pc (hf seqNum rfl)
    exact ⟨s', by simp [step, hs'], hv', fun q hq => hfresh q (hq seqNum rfl), fun _ => htracked⟩
  | issued pc seqNum isStore =>
    obtain ⟨s', hs', hv', hL, hlist, htracked⟩ := issued_ok hv pc seqNum isStore
    refine ⟨s', by simp [step, hs'], hv', fun q _ hq => ⟨fun e he => hq.1 e (hlist e he), ?_⟩,
      htracked⟩
    rw [hL]
    exact hq.2
  | squash n =>
    have hs := squash_eq hv n
    refine ⟨_, by simp only [step, hs, ok_bind, pure_eq], squash_valid hv hs, ?_,
      fun _ ht => squash_tracked hv ht hs⟩
    exact fun q _ hq => ⟨fun e he => hq.1 e (List.mem_of_mem_filter he), hq.2⟩

theorem run_ok : ∀ {calls : List Call} {s : StoreSet}, s.Valid → InOrder calls →
    (∀ q ∈ calls.filterMap Call.storeSeqNum, s.Fresh q) →
      ∃ rs s', Run.run step s calls = .ok (rs, s') ∧ s'.Valid ∧
        (Run.Along step OwnSet s calls → s.Tracked → s'.Tracked)
  | [], s, hv, _, _ => ⟨[], s, rfl, hv, fun _ ht => ht⟩
  | c :: calls, s, hv, hord, hf => by
    have hmem : ∀ q, q ∈ (c :: calls).filterMap Call.storeSeqNum ↔
        q ∈ c.storeSeqNum ∨ q ∈ calls.filterMap Call.storeSeqNum := by
      intro q
      simp [List.mem_filterMap]
    have hnext : InOrder calls ∧ ∀ q' ∈ c.storeSeqNum,
        ∀ q ∈ calls.filterMap Call.storeSeqNum, q' < q := by
      unfold InOrder at hord ⊢
      cases hc : c.storeSeqNum with
      | none => rw [List.filterMap_cons_none hc] at hord; exact ⟨hord, by simp⟩
      | some q₀ =>
        rw [List.filterMap_cons_some hc] at hord
        obtain ⟨hlt, hord⟩ := List.pairwise_cons.1 hord
        exact ⟨hord, by rintro _ ⟨⟩; exact hlt⟩
    obtain ⟨s₁, hs₁, hv₁, hfresh, htr⟩ := step_ok hv fun q hq => hf q ((hmem q).2 (.inl hq))
    obtain ⟨rs, s', hrun, hv', htr'⟩ := run_ok hv₁ hnext.1 fun q hq =>
      hfresh q (fun q' hq' => hnext.2 q' hq' q hq) (hf q ((hmem q).2 (.inr hq)))
    refine ⟨_, s', Run.run_cons hs₁ hrun, hv', fun hown ht => ?_⟩
    exact htr' (hown.2 _ _ hs₁) (htr hown.1 ht)

/-- Whatever calls came before, a squash ends and leaves no younger store in `storeList`; then no
instruction depends on a younger store exactly if every set whose last store is younger has one
pending, as it has when every store is issued in the set it was inserted in. -/
theorem squash_forgets_iff {SSITSize LFSTSize : ℕ} (hS : 0 < SSITSize) (hL : 0 < LFSTSize)
    (clearPeriod : ℕ) {calls : List Call} (hord : InOrder calls) (n : ℕ) :
    ∃ rs s s', Run.run step (init clearPeriod SSITSize LFSTSize) calls = .ok (rs, s) ∧
      s.squash n = .ok s' ∧ (∀ e ∈ s'.storeList, e.1 ≤ n) ∧
      ((∀ pc, ∃ r, s'.checkInst pc = .ok r ∧ r ≤ n) ↔ s.Pending n) ∧
      (Run.Along step OwnSet (init clearPeriod SSITSize LFSTSize) calls → s.Pending n) := by
  have hfresh : ∀ q, (init clearPeriod SSITSize LFSTSize).Fresh q :=
    fun q => ⟨by simp [init], fun i => Nat.zero_le q⟩
  obtain ⟨rs, s, hrun, hv, htr⟩ := run_ok (init_valid clearPeriod hS hL) hord
    fun q _ => hfresh q
  have hsq := squash_eq hv n
  refine ⟨rs, s, _, hrun, hsq, ?_, checkInst_squash_iff hv hsq, fun hown => ?_⟩
  · intro e he
    simpa using (List.mem_filter.1 he).2
  · exact (htr hown fun i hi => by simp [init] at hi).pending n

/-- Two sets are made, and a store is inserted in each. -/
def twoSets : List Call :=
  [.violation 16 8, .violation 32 4, .insertStore 16 9, .insertStore 32 10]

theorem squash_forgets_iff_twoSets : InOrder twoSets ∧
    ∃ rs s s', Run.run step (init 250000 1024 1024) twoSets = .ok (rs, s) ∧
      s.squash 9 = .ok s' ∧ (∀ e ∈ s'.storeList, e.1 ≤ 9) ∧
      ∀ pc, ∃ r, s'.checkInst pc = .ok r ∧ r ≤ 9 := by
  have hord : InOrder twoSets := by
    unfold InOrder
    decide
  have hown : Run.Along step OwnSet (init 250000 1024 1024) twoSets := by
    simp [twoSets, Run.Along, OwnSet]
  obtain ⟨rs, s, s', hrun, hsquash, hlist, hiff, hpending⟩ :=
    squash_forgets_iff (by decide : 0 < 1024) (by decide : 0 < 1024) 250000 hord 9
  exact ⟨hord, rs, s, s', hrun, hsquash, hlist, hiff.2 (hpending hown)⟩

/-- The store 10 is inserted in set 8, a violation moves its counter to set 4, and it is issued:
set 8 still names it after a squash of all that is younger than 5. -/
theorem moved_store_survives_squash :
    ∃ calls, InOrder calls ∧ (do
      let (_, s) ← Run.run step (init 250000 1024 1024) calls
      let s' ← s.squash 5
      return (s'.storeList, ← s'.checkInst 8)) = .ok ([], 10) := by
  refine ⟨[.violation 16 8, .violation 32 4, .insertStore 16 10, .violation 16 4,
    .issued 16 10 true], ?_, rfl⟩
  unfold InOrder
  decide

end Gem5Nvm.StoreSet
