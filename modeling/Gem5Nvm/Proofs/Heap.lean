import Gem5Nvm.Heap
import Gem5Nvm.Proofs.MemState

/-!
# The break and its areas

`HeapInv` links the break, the furthest point ever mapped for it and the areas: everything from the
initial break up to that point is covered.  One lemma per way a `brk` call can go says what it does;
together they show that a call is good exactly when it is served (`brkGood_iff`), and the run
theorem follows.
-/

namespace Gem5Nvm

open Run EmulationPageTable

theorem roundUp_dvd (a n : ℕ) : n ∣ roundUp a n := Dvd.intro_left _ rfl

theorem roundUp_spec {a n : ℕ} (hn : 0 < n) (h : a + n ≤ 2 ^ 64) :
    a ≤ roundUp a n ∧ roundUp a n < 2 ^ 64 := by
  have hlt : a + (n - 1) < 2 ^ 64 := by omega
  unfold roundUp
  rw [u64_of_lt hlt]
  have hmod := Nat.mod_lt (a + (n - 1)) hn
  have hdiv := Nat.div_add_mod' (a + (n - 1)) n
  omega

theorem roundUp_wraps {a n : ℕ} (ha : a < 2 ^ 64) (hn : n ≤ 2 ^ 64) (h : 2 ^ 64 < a + n) :
    roundUp a n = 0 := by
  unfold roundUp u64
  rw [Nat.div_eq_of_lt (by omega), Nat.zero_mul]

namespace Process

variable {p p' : Process} {b new : ℕ}

structure HeapInv (b : ℕ) (p : Process) : Prop where
  uniform : p.Uniform
  base_dvd : p.memState.pageBytes ∣ b
  base_lt : b < 2 ^ 64
  sane : ∀ v ∈ p.memState.vmaList, v.Sane p.memState.pageBytes
  disjoint : p.HeapDisjoint
  heap : Set.Ico b p.memState.endBrkPoint ⊆ covered p.memState.vmaList
  brk_le : p.memState.brkPoint ≤ p.memState.endBrkPoint
  end_dvd : p.memState.pageBytes ∣ p.memState.endBrkPoint
  end_lt : p.memState.endBrkPoint < 2 ^ 64

theorem HeapDisjoint.snoc (h : p.HeapDisjoint) {v : Vma}
    (hd : ∀ w ∈ p.memState.vmaList, Disjoint w.bytes v.bytes) {ms : MemState}
    (hms : ms.vmaList = p.memState.vmaList ++ [v]) : (p.setMemState ms).HeapDisjoint := by
  unfold HeapDisjoint at h ⊢
  simp only [setMemState, hms, List.filter_append, List.map_append]
  refine List.pairwise_append.2 ⟨h, ?_, ?_⟩
  · by_cases hv : v.name = "heap" <;> simp [hv]
  · intro s hs t ht
    obtain ⟨w, hw, rfl⟩ := List.mem_map.1 hs
    obtain ⟨u, hu, rfl⟩ := List.mem_map.1 ht
    obtain rfl : u = v := by simpa using (List.mem_filter.1 hu).1
    exact hd w (List.mem_filter.1 hw).1

variable {start length offset : ℕ}

theorem HeapInv.mapRegion (h : HeapInv b p) {name : String} {file : Option HostFile}
    (hp : p.mapRegion start length name file offset = .ok p') : HeapInv b p' := by
  obtain ⟨v, rfl, hv, -, -, -, hd⟩ := mapRegion_ok hp
  refine ⟨h.uniform.congr rfl rfl rfl, h.base_dvd, h.base_lt, fun w hw => ?_,
    h.disjoint.snoc hd rfl, ?_, h.brk_le,
    h.end_dvd, h.end_lt⟩
  · rcases List.mem_append.1 hw with hw | hw
    · exact h.sane w hw
    · obtain rfl : w = v := by simpa using hw
      exact hv
  · simp only [setMemState, covered_append]
    exact h.heap.trans Set.subset_union_left

variable {x : SyscallReturn}

theorem HeapInv.mmap (h : HeapInv b p) {flags : MmapFlags} {fd : Option HostFile}
    (hflags : flags.fixed = false) (hp : p.mmapFunc start length flags fd offset = .ok (x, p')) :
    HeapInv b p' := by
  obtain rfl | ⟨place, q, name, file, hplace, hmap⟩ := mmapFunc_ok hp
  · exact h
  obtain ⟨hfixed, -⟩ | ⟨-, e, rfl⟩ := mmapPlace_ok hplace
  · simp [hflags] at hfixed
  · refine HeapInv.mapRegion ?_ hmap
    exact ⟨h.uniform.congr rfl rfl rfl, h.base_dvd, h.base_lt, h.sane, h.disjoint,
      h.heap, h.brk_le, h.end_dvd, h.end_lt⟩

theorem HeapInv.setBrk (h : HeapInv b p) (hnew : new ≤ p.memState.endBrkPoint) :
    HeapInv b (p.setMemState { p.memState with brkPoint := new }) ∧
      Set.Ico b new ⊆ covered p.memState.vmaList :=
  ⟨⟨h.uniform.congr rfl rfl rfl, h.base_dvd, h.base_lt, h.sane, h.disjoint, h.heap,
      hnew, h.end_dvd, h.end_lt⟩,
    (Set.Ico_subset_Ico_right hnew).trans h.heap⟩

section Brk

theorem brkFunc_same (h : new = 0 ∨ new = p.memState.brkPoint) :
    p.brkFunc new = .ok (.value p.memState.brkPoint, p) := if_pos h

theorem brkFunc_of_update (h : ¬ (new = 0 ∨ new = p.memState.brkPoint))
    (hp : p.updateBrkRegion p.memState.brkPoint new = .ok p') :
    p.brkFunc new = .ok (.value p'.memState.brkPoint, p') := by
  unfold brkFunc
  dsimp only
  rw [if_neg h, hp]
  rfl

theorem step_brk {n : ℕ} {nb : UInt64} (hn : nb.toNat = n) (h : p.brkFunc n = .ok (x, p')) :
    p.step (.brk nb) = .ok (.syscall x, p') := by
  simp only [step, hn, h, Except.map]

theorem updateBrkRegion_lower (h : new < p.memState.brkPoint) :
    p.updateBrkRegion p.memState.brkPoint new
      = .ok (p.setMemState { p.memState with brkPoint := new }) := if_pos h

theorem updateBrkRegion_within (h : ¬ new < p.memState.brkPoint)
    (htop : roundUp new p.memState.pageBytes ≤ p.memState.endBrkPoint) :
    p.updateBrkRegion p.memState.brkPoint new
      = .ok (p.setMemState { p.memState with brkPoint := new }) := by
  unfold updateBrkRegion
  dsimp only
  rw [if_neg h, if_neg (by omega)]

theorem updateBrkRegion_beyond (p : Process) (new : ℕ) (h : ¬ new < p.memState.brkPoint)
    (htop : p.memState.endBrkPoint < roundUp new p.memState.pageBytes)
    (hlt : roundUp new p.memState.pageBytes < 2 ^ 64) :
    p.updateBrkRegion p.memState.brkPoint new = (do
      let unmapped ← p.isUnmapped p.memState.endBrkPoint
        (roundUp new p.memState.pageBytes - p.memState.endBrkPoint)
      if unmapped then do
        let q ← p.mapRegion p.memState.endBrkPoint
          (roundUp new p.memState.pageBytes - p.memState.endBrkPoint) "heap" none 0
        return q.setMemState { q.memState with
          endBrkPoint := roundUp new p.memState.pageBytes, brkPoint := new }
      else return p) := by
  unfold updateBrkRegion
  dsimp only
  rw [if_neg h, if_pos htop, usub_of_le htop.le hlt]

theorem updateBrkRegion_blocked {v : Vma} (h : ¬ new < p.memState.brkPoint)
    (htop : p.memState.endBrkPoint < roundUp new p.memState.pageBytes)
    (hlt : roundUp new p.memState.pageBytes < 2 ^ 64) (hv : v ∈ p.memState.vmaList)
    (hmeet : v.start < roundUp new p.memState.pageBytes ∧ p.memState.endBrkPoint < v.end_) :
    p.updateBrkRegion p.memState.brkPoint new = .ok p := by
  have hsum : p.memState.endBrkPoint
      + (roundUp new p.memState.pageBytes - p.memState.endBrkPoint)
      = roundUp new p.memState.pageBytes := by omega
  rw [updateBrkRegion_beyond p new h htop hlt,
    isUnmapped_eq_false hv (by rw [hsum, u64_of_lt hlt]; exact hmeet)]
  rfl

theorem updateBrkRegion_grow {n : ℕ} (h : ¬ new < p.memState.brkPoint)
    (hregion : Region p p.memState.endBrkPoint n) (hn : 0 < n)
    (htop : roundUp new p.memState.pageBytes = p.memState.endBrkPoint + n * p.pTable.pageSize)
    (hpages : ∀ i < n, p.pTable.pTable (p.memState.endBrkPoint + i * p.pTable.pageSize) = none) :
    p.updateBrkRegion p.memState.brkPoint new = .ok (p.setMemState
      { p.memState with
        brkPoint := new
        endBrkPoint := p.memState.endBrkPoint + n * p.pTable.pageSize
        vmaList := p.memState.vmaList ++ [⟨p.memState.endBrkPoint,
          p.memState.endBrkPoint + n * p.pTable.pageSize, "heap", none⟩] }) := by
  have hlen : 0 < n * p.pTable.pageSize := Nat.mul_pos hn hregion.uniform.pos
  have hlt := hregion.lt
  have hsub : p.memState.endBrkPoint + n * p.pTable.pageSize - p.memState.endBrkPoint
      = n * p.pTable.pageSize := by omega
  rw [updateBrkRegion_beyond p new h (by omega) (by omega), htop, hsub, hregion.isUnmapped hpages,
    Sim.ok_bind, if_pos rfl, hregion.mapRegion hn hpages "heap"]
  rfl

theorem HeapInv.region (h : HeapInv b p) {top : ℕ} (hdvd : p.memState.pageBytes ∣ top)
    (htop : p.memState.endBrkPoint < top) (hlt : top < 2 ^ 64)
    (hfree : ¬ ∃ v ∈ p.memState.vmaList, v.start < top ∧ p.memState.endBrkPoint < v.end_) :
    ∃ n, 0 < n ∧ top - p.memState.endBrkPoint = n * p.pTable.pageSize ∧
      Region p p.memState.endBrkPoint n := by
  have hpb := h.uniform.pageBytes_eq
  have hend := h.end_dvd
  rw [hpb] at hdvd hend
  obtain ⟨n, hn⟩ := exists_page hdvd hend htop.le
  refine ⟨n, Nat.pos_of_ne_zero fun h0 => ?_, by omega, h.uniform, hend, by omega, ?_⟩
  · subst h0
    omega
  · intro v hv
    by_contra hmeet
    exact hfree ⟨v, hv, by omega⟩

/-- What a good `brk` call leaves behind. -/
def BrkResult (b new : ℕ) (p : Process) (r : ℕ) (p' : Process) : Prop :=
  HeapInv b p' ∧
    (r = new ∧ Set.Ico b r ⊆ covered p'.memState.vmaList ∨
      r = p.memState.brkPoint ∧ p'.memState.vmaList = p.memState.vmaList ∧
        p'.pTable = p.pTable ∧ p'.memState.brkPoint = p.memState.brkPoint ∧
        p'.memState.endBrkPoint = p.memState.endBrkPoint)

theorem HeapInv.grow (h : HeapInv b p) (hnew : ¬ (new = 0 ∨ new ≤ p.memState.brkPoint))
    (hlt : new + p.memState.pageBytes ≤ 2 ^ 64)
    (htop : p.memState.endBrkPoint < roundUp new p.memState.pageBytes)
    (hfree : ¬ ∃ v ∈ p.memState.vmaList,
      v.start < roundUp new p.memState.pageBytes ∧ p.memState.endBrkPoint < v.end_)
    (hnone : ∀ v, p.memState.pageBytes ∣ v → p.memState.endBrkPoint ≤ v →
      v < roundUp new p.memState.pageBytes → p.pTable.pTable v = none) :
    ∃ r p', p.brkFunc new = .ok (.value r, p') ∧ BrkResult b new p r p' := by
  have hpos := h.uniform.pageBytes_pos
  obtain ⟨hle, hlt64⟩ := roundUp_spec hpos hlt
  have hdvd := roundUp_dvd new p.memState.pageBytes
  obtain ⟨n, hn, hlen, hregion⟩ := h.region hdvd htop hlt64 hfree
  have hpages : ∀ i < n,
      p.pTable.pTable (p.memState.endBrkPoint + i * p.pTable.pageSize) = none := by
    intro i hi
    have hin : i * p.pTable.pageSize < n * p.pTable.pageSize :=
      Nat.mul_lt_mul_of_pos_right hi h.uniform.pos
    refine hnone _ (Dvd.dvd.add h.end_dvd ?_) (Nat.le_add_right _ _) (by omega)
    rw [h.uniform.pageBytes_eq]
    exact Dvd.intro_left _ rfl
  have hsum : roundUp new p.memState.pageBytes
      = p.memState.endBrkPoint + n * p.pTable.pageSize := by omega
  have hq := h.mapRegion (hregion.mapRegion hn hpages "heap")
  have hcov : Set.Ico b (p.memState.endBrkPoint + n * p.pTable.pageSize) ⊆
      covered (p.memState.vmaList ++ [⟨p.memState.endBrkPoint,
        p.memState.endBrkPoint + n * p.pTable.pageSize, "heap", none⟩]) := by
    intro a ha
    rw [covered_append, Set.mem_union]
    by_cases hend : a < p.memState.endBrkPoint
    · exact .inl (h.heap ⟨ha.1, hend⟩)
    · exact .inr (mem_covered_cons.2 (.inl ⟨by simpa using hend, ha.2⟩))
  refine ⟨_, _, brkFunc_of_update (by omega)
    (updateBrkRegion_grow (by omega) hregion hn hsum hpages), ?_, .inl ⟨rfl, ?_⟩⟩
  · exact ⟨hq.uniform.congr rfl rfl rfl, h.base_dvd, h.base_lt, hq.sane, hq.disjoint, hcov,
      hsum ▸ hle, hsum ▸ hdvd, hsum ▸ hlt64⟩
  · exact (Set.Ico_subset_Ico_right (hsum ▸ hle)).trans hcov

theorem HeapInv.served (h : HeapInv b p) {new : UInt64} (hs : p.BrkServed (.brk new)) :
    ∃ r p', p.brkFunc new.toNat = .ok (.value r, p') ∧ BrkResult b new.toNat p r p' := by
  simp only [BrkServed] at hs
  by_cases hsame : new.toNat = 0 ∨ new.toNat = p.memState.brkPoint
  · exact ⟨_, p, brkFunc_same hsame, h, .inr ⟨rfl, rfl, rfl, rfl, rfl⟩⟩
  have hbrk := h.brk_le
  by_cases hlow : new.toNat < p.memState.brkPoint
  · obtain ⟨hinv, hcov⟩ := h.setBrk (show new.toNat ≤ p.memState.endBrkPoint by omega)
    exact ⟨_, _, brkFunc_of_update hsame (updateBrkRegion_lower hlow), hinv, .inl ⟨rfl, hcov⟩⟩
  obtain ⟨hlt, hs⟩ := (hs.resolve_left (by omega)).resolve_left (by omega)
  have hpos := h.uniform.pageBytes_pos
  obtain ⟨hle, hlt64⟩ := roundUp_spec hpos hlt
  by_cases htop : roundUp new.toNat p.memState.pageBytes ≤ p.memState.endBrkPoint
  · obtain ⟨hinv, hcov⟩ := h.setBrk (show new.toNat ≤ p.memState.endBrkPoint by omega)
    exact ⟨_, _, brkFunc_of_update hsame (updateBrkRegion_within hlow htop), hinv,
      .inl ⟨rfl, hcov⟩⟩
  have hraise : ¬ (new.toNat = 0 ∨ new.toNat ≤ p.memState.brkPoint) :=
    not_or.2 ⟨fun h => hsame (.inl h), fun h => hlow (lt_of_le_of_ne h fun h => hsame (.inr h))⟩
  have hbeyond : p.memState.endBrkPoint < roundUp new.toNat p.memState.pageBytes := by omega
  by_cases hmeet : ∃ v ∈ p.memState.vmaList,
      v.start < roundUp new.toNat p.memState.pageBytes ∧ p.memState.endBrkPoint < v.end_
  · -- an area is in the way
    obtain ⟨v, hv, hvm⟩ := hmeet
    exact ⟨_, p, brkFunc_of_update hsame (updateBrkRegion_blocked hlow hbeyond hlt64 hv hvm), h,
      .inr ⟨rfl, rfl, rfl, rfl, rfl⟩⟩
  · exact h.grow hraise hlt hbeyond hmeet ((hs.resolve_left htop).resolve_left hmeet)

theorem HeapInv.wraps (h : HeapInv b p) (hnew : ¬ (new = 0 ∨ new ≤ p.memState.brkPoint))
    (hword : new < 2 ^ 64) (hlast : 2 ^ 64 < new + p.memState.pageBytes) :
    ∃ p', p.brkFunc new = .ok (.value new, p') ∧
      ¬ Set.Ico b new ⊆ covered p'.memState.vmaList := by
  have hpos := h.uniform.pageBytes_pos
  have hdvd : p.memState.pageBytes ∣ 2 ^ 64 := h.uniform.pageBytes_eq ▸ h.uniform.dvd
  have hpb := Nat.le_of_dvd (by norm_num) hdvd
  have htop : roundUp new p.memState.pageBytes ≤ p.memState.endBrkPoint := by
    rw [roundUp_wraps hword hpb hlast]
    exact Nat.zero_le _
  refine ⟨_, brkFunc_of_update (by omega) (updateBrkRegion_within (by omega) htop), fun hcov => ?_⟩
  -- the last page is in no area, since the end of an area is a 64-bit number
  have hin : 2 ^ 64 - p.memState.pageBytes ∈ Set.Ico b new := by
    refine ⟨?_, by omega⟩
    obtain ⟨i, hi⟩ := h.base_dvd
    have hlt := h.base_lt
    obtain ⟨j, hj⟩ := hdvd
    have hij : i + 1 ≤ j := Nat.lt_of_mul_lt_mul_left (a := p.memState.pageBytes) (by omega)
    have := Nat.mul_le_mul_left p.memState.pageBytes hij
    rw [Nat.mul_add] at this
    omega
  obtain ⟨v, hv, hvin⟩ := hcov hin
  have hsane := h.sane v hv
  obtain ⟨j, hj⟩ := hdvd
  obtain ⟨k, hk⟩ := hsane.end_dvd
  have hend := hsane.end_lt
  have hkj : k + 1 ≤ j := Nat.lt_of_mul_lt_mul_left (a := p.memState.pageBytes) (by omega)
  have := Nat.mul_le_mul_left p.memState.pageBytes hkj
  rw [Nat.mul_add] at this
  have hvlt : 2 ^ 64 - p.memState.pageBytes < v.end_ := hvin.2
  omega

theorem HeapInv.not_good (h : HeapInv b p) {new : UInt64} (hs : ¬ p.BrkServed (.brk new)) :
    ¬ BrkGood b p (.brk new) := by
  simp only [BrkServed, not_or, not_and] at hs
  obtain ⟨hzero, hle, hs⟩ := hs
  rintro ⟨r, p', hstep, -, hres⟩
  have hbrk := h.brk_le
  rcases Nat.lt_or_ge (2 ^ 64) (new.toNat + p.memState.pageBytes) with hlast | hfits
  · obtain ⟨q, hq, hcov⟩ := h.wraps (by omega) new.toNat_lt hlast
    rw [step_brk rfl hq] at hstep
    simp only [Except.ok.injEq, Prod.mk.injEq, Answer.syscall.injEq, SyscallReturn.value.injEq]
      at hstep
    obtain ⟨rfl, rfl⟩ := hstep
    rcases hres with ⟨-, hres⟩ | ⟨hres, -⟩
    · exact hcov hres
    · omega
  · obtain ⟨htop, hmeet, hpages⟩ := hs hfits
    have hpos := h.uniform.pageBytes_pos
    obtain ⟨-, hlt64⟩ := roundUp_spec hpos hfits
    obtain ⟨n, -, hlen, hregion⟩ :=
      h.region (roundUp_dvd new.toNat _) (by omega) hlt64 (by simpa using hmeet)
    -- the first page that is mapped stops the simulator
    have hex : ∃ i, i < n ∧
        p.pTable.pTable (p.memState.endBrkPoint + i * p.pTable.pageSize) ≠ none := by
      push Not at hpages
      obtain ⟨v, hdvd, hge, hltv, hsome⟩ := hpages
      rw [h.uniform.pageBytes_eq] at hdvd
      obtain ⟨i, rfl⟩ := exists_page hdvd hregion.start_dvd hge
      exact ⟨i, Nat.lt_of_mul_lt_mul_right (a := p.pTable.pageSize) (by omega), hsome⟩
    classical
    obtain ⟨hm, hsome⟩ := Nat.find_spec hex
    have hnone : ∀ i < Nat.find hex,
        p.pTable.pTable (p.memState.endBrkPoint + i * p.pTable.pageSize) = none := by
      intro i hi
      by_contra hne
      exact Nat.find_min hex hi ⟨hi.trans hm, hne⟩
    obtain ⟨e, he⟩ := hregion.isUnmapped_panics hm hnone hsome
    have hupdate := updateBrkRegion_beyond p new.toNat (by omega) (by omega) hlt64
    rw [hlen, he, Sim.error_bind] at hupdate
    have hfail : p.step (.brk new) = .error e := by
      simp only [step, brkFunc]
      rw [if_neg (by omega), hupdate]
      rfl
    rw [hfail] at hstep
    cases hstep

theorem brkGood_iff (h : HeapInv b p) (new : UInt64) :
    (BrkGood b p (.brk new) ↔ p.BrkServed (.brk new)) ∧
      (BrkGood b p (.brk new) → ∀ r p', p.step (.brk new) = .ok (r, p') → HeapInv b p') := by
  by_cases hs : p.BrkServed (.brk new)
  · obtain ⟨r, p', hp, hinv, hres⟩ := h.served hs
    have hstep := step_brk rfl hp
    refine ⟨iff_of_true ⟨r, p', hstep, hinv.disjoint, hres⟩ hs, fun _ r' q hq => ?_⟩
    rw [hstep] at hq
    cases hq
    exact hinv
  · have hbad := h.not_good hs
    exact ⟨iff_of_false hbad hs, fun hgood => absurd hgood hbad⟩

end Brk

theorem heapStep_iff (h : HeapInv b p) {o : Op} (ho : HeapOp o) : (BrkGood b p o ↔ p.BrkServed o) ∧
      (BrkGood b p o → ∀ r p', p.step o = .ok (r, p') → HeapInv b p') := by
  cases o with
  | brk new => exact brkGood_iff h new
  | mmap start length flags fd offset =>
    have hkeep : ∀ r p', p.step (.mmap start length flags fd offset) = .ok (r, p') →
        HeapInv b p' := by
      intro r p' hp
      simp only [step] at hp
      rcases hm : p.mmapFunc start.toNat length.toNat flags fd offset.toNat with e | ⟨x, q⟩ <;>
        rw [hm] at hp <;> cases hp
      exact h.mmap ho hm
    exact ⟨iff_of_true (fun r p' hp => (hkeep r p' hp).disjoint) trivial, fun _ => hkeep⟩
  | _ => exact absurd ho id

end Process

/-- Over all calls of `brk` and of `mmap` without `MAP_FIXED`: each `brk` call moves the break where
it is asked to, with areas under the whole heap, or leaves everything as it was, and no two heap
areas overlap, exactly when every call is served. -/
theorem brk_good_iff {p : Process} (hu : p.Uniform)
    (hbrk : p.memState.pageBytes ∣ p.memState.brkPoint) (hlt : p.memState.brkPoint < 2 ^ 64)
    (hend : p.memState.endBrkPoint = p.memState.brkPoint)
    (hsane : ∀ v ∈ p.memState.vmaList, v.Sane p.memState.pageBytes) (hheap : p.HeapDisjoint)
    {ops : List Process.Op} (hops : ∀ o ∈ ops, Process.HeapOp o) :
    Along Process.step (Process.BrkGood p.memState.brkPoint) p ops ↔
      Along Process.step Process.BrkServed p ops := by
  have h0 : Process.HeapInv p.memState.brkPoint p :=
    ⟨hu, hbrk, hlt, hsane, hheap, by rw [hend]; simp, hend.ge, hend ▸ hbrk, hend ▸ hlt⟩
  exact along_congr (D := Process.HeapOp) (fun q o hq ho => Process.heapStep_iff hq ho) ops h0 hops

/-- `blankProcess` with its break at `brk`, a page of heap, and the furthest point mapped for it at
`end_`. -/
def heapProcess (pm : PhysicalMemory) (brk end_ : ℕ) : Process :=
  (blankProcess pm).setMemState { (blankProcess pm).memState with
    brkPoint := brk
    endBrkPoint := end_
    vmaList := [⟨0x10000, 0x11000, "heap", none⟩] }

/-- A break raised by half a page from an empty address space, lowered, and raised by two pages. -/
theorem brk_good_iff_again : ∃ pm, System.new wideParams = .ok (sysAt pm 0 0) ∧
    Along Process.step (Process.BrkGood 0x10000) (blankProcess pm)
      [.brk 0x10800, .brk 0x10400, .brk 0x12400] := by
  obtain ⟨pm, hpm⟩ := new_wideParams
  have hraise : (blankProcess (wide pm)).step (.brk 0x10800) =
      .ok (.syscall (.value 0x10800), heapProcess (wide pm) 0x10800 0x11000) := by
    cbv
  have hlower : (heapProcess (wide pm) 0x10800 0x11000).step (.brk 0x10400) =
      .ok (.syscall (.value 0x10400), heapProcess (wide pm) 0x10400 0x11000) := by
    cbv
  refine ⟨_, hpm, (brk_good_iff (blankProcess_uniform (wide pm))
    (show 4096 ∣ 0x10000 by decide) (show 0x10000 < 2 ^ 64 by decide) rfl
    (by simp [blankProcess, MemState.new]) List.Pairwise.nil
    (by simp [Process.HeapOp])).2 ?_⟩
  refine (along_cons hraise).2
    ⟨.inr (.inr ⟨show 0x10800 + 4096 ≤ 2 ^ 64 by decide, .inr (.inr fun v _ _ _ => rfl)⟩), ?_⟩
  refine (along_cons hlower).2 ⟨.inr (.inl (show 0x10400 ≤ 0x10800 by decide)), ?_⟩
  exact ⟨.inr (.inr ⟨show 0x12400 + 4096 ≤ 2 ^ 64 by decide, .inr (.inr fun v _ _ _ => rfl)⟩),
    fun _ _ _ => trivial⟩

def lastBrk : UInt64 := 0xffffffffffffffff

/-- A break asked for in the last page of the address space is granted, with no area under it. -/
theorem brk_last_page_uncovered : ∃ pm p', System.new wideParams = .ok (sysAt pm 0 0) ∧
    (blankProcess pm).step (.brk lastBrk) = .ok (.syscall (.value lastBrk.toNat), p') ∧
    p'.memState.vmaList = [] ∧ ¬ Process.BrkGood 0x10000 (blankProcess pm) (.brk lastBrk) := by
  obtain ⟨pm, hpm⟩ := new_wideParams
  have hstep : (blankProcess (wide pm)).step (.brk lastBrk) = .ok (.syscall (.value lastBrk.toNat),
      (blankProcess (wide pm)).setMemState
        { (blankProcess (wide pm)).memState with brkPoint := lastBrk.toNat }) := by
    cbv
  refine ⟨_, _, hpm, hstep, rfl, ?_⟩
  rintro ⟨r, p', hp, -, hres⟩
  rw [hstep] at hp
  simp only [Except.ok.injEq, Prod.mk.injEq, Process.Answer.syscall.injEq,
    SyscallReturn.value.injEq] at hp
  obtain ⟨rfl, rfl⟩ := hp
  rcases hres with ⟨-, hcov⟩ | ⟨hbrk, -⟩
  · have hmem : 0x10000 ∈ covered [] := hcov ⟨le_rfl, show 0x10000 < lastBrk.toNat by decide⟩
    simp at hmem
  · have hne : lastBrk.toNat ≠ 0x10000 := by decide
    exact hne hbrk

end Gem5Nvm
