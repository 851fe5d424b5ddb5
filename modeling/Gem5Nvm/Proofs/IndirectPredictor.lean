import Gem5Nvm.IndirectPredictor
import Gem5Nvm.Lib.SortedMap

/-!
# The indirect predictor learns where it looked

A commit drops the oldest entry of the path history only when as many as the hash takes stay before
every branch that is still to be corrected. So the hash of such a branch stays the same.
-/

namespace Gem5Nvm.IndirectPredictor

variable {p : Params} {s s' : Predictor} {hist : List HistoryEntry} {r : PredictorHistory}

theorem getSetIndex_cons {pre : List HistoryEntry} (x : HistoryEntry) (brAddr ghr : ℕ)
    (h : p.pathLength ≤ pre.length) :
    getSetIndex p (x :: pre) brAddr ghr = getSetIndex p pre brAddr ghr := by
  have hwindow : (x :: pre).reverse.take p.pathLength = pre.reverse.take p.pathLength := by
    rw [List.reverse_cons, List.take_append_of_le_length (by simpa using h)]
  simp only [getSetIndex, hwindow]

/-- The history has the branch, after entries that hash to the set searched for it. -/
def Filed (p : Params) (hist : List HistoryEntry) (r : PredictorHistory) : Prop :=
  ∀ setIndex ∈ r.searched, ∃ pre e post, hist = pre ++ e :: post ∧ e.seqNum = r.seqNum ∧
    e.pcAddr = r.pc ∧ setIndex < p.numSets ∧
    getSetIndex p pre r.pc r.indirectHistory = .ok setIndex

abbrev Sorted (hist : List HistoryEntry) : Prop := hist.Pairwise (·.seqNum < ·.seqNum)

theorem Sorted.lt {pre post : List HistoryEntry} {e : HistoryEntry}
    (h : Sorted (pre ++ e :: post)) :
    (∀ x ∈ pre, x.seqNum < e.seqNum) ∧ ∀ x ∈ post, e.seqNum < x.seqNum :=
  ⟨fun x hx => (List.pairwise_append.1 h).2.2 x hx e List.mem_cons_self,
    (List.pairwise_cons.1 (List.pairwise_append.1 h).2.1).1⟩

theorem Filed.commit {doneSn : ℕ} (hsorted : Sorted s.pathHist) (h : Filed p s.pathHist r)
    (hlive : doneSn < r.seqNum) : Filed p (s.commit p doneSn).pathHist r := by
  unfold Predictor.commit
  split
  · rename_i x hx
    split_ifs with hdone hhead
    · intro setIndex hsearched
      obtain ⟨pre, e, post, heq, hseq, hpc, hset, hhash⟩ := h setIndex hsearched
      -- the entry that is committed is before the branch
      have hlt : s.headHistEntry < pre.length := by
        by_contra hge
        rw [heq, List.getElem?_append_right (by omega)] at hx
        rw [heq] at hsorted
        rcases List.mem_cons.1 (List.mem_of_getElem? hx) with rfl | hmem
        · omega
        · have := hsorted.lt.2 x hmem
          omega
      obtain ⟨y, pre, rfl⟩ := List.exists_cons_of_length_pos (Nat.zero_lt_of_lt hlt)
      rw [getSetIndex_cons y _ _ (by simp at hlt; omega)] at hhash
      exact ⟨pre, e, post, by rw [heq]; rfl, hseq, hpc, hset, hhash⟩
    · exact h
    · exact h
  · exact h

theorem Sorted.commit {doneSn : ℕ} (h : Sorted s.pathHist) :
    Sorted (s.commit p doneSn).pathHist := by
  unfold Predictor.commit
  split
  · split_ifs
    · exact h.tail
    · exact h
    · exact h
  · exact h

theorem commits (p : Params) (doneSn : ℕ) : ∀ (done : List PredictorHistory) {s : Predictor},
    Sorted s.pathHist →
    let s' := done.foldl (fun s _ => s.commit p doneSn) s
    Sorted s'.pathHist ∧
      ∀ r, doneSn < r.seqNum → Filed p s.pathHist r → Filed p s'.pathHist r
  | [], s, h => ⟨h, fun _ _ => id⟩
  | _ :: done, s, h => by
    obtain ⟨hsorted, hfiled⟩ := commits p doneSn done h.commit
    exact ⟨hsorted, fun r hr hf => hfiled r hr (hf.commit h hr)⟩

theorem targetCache_commits (doneSn : ℕ) (done : List PredictorHistory) (s : Predictor) :
    (done.foldl (fun s _ => s.commit p doneSn) s).targetCache = s.targetCache := by
  induction done generalizing s with
  | nil => rfl
  | cons _ done ih =>
    rw [List.foldl_cons, ih, Predictor.commit]
    split <;> try split_ifs
    all_goals rfl

/-- Both histories are in order, and the path history has every branch to be corrected. -/
structure Inv (p : Params) (s : Predictor) : Prop where
  path : Sorted s.pathHist
  pred : s.predHist.Pairwise (·.seqNum < ·.seqNum)
  filed : ∀ r ∈ s.predHist, Filed p s.pathHist r
  ways : ∀ i, (s.targetCache i).length = p.numWays

theorem Inv.update (h : Inv p s) (doneSn : ℕ) : Inv p (s.update p doneSn) := by
  obtain ⟨hsorted, hfiled⟩ := commits p doneSn (s.predHist.takeWhile (·.seqNum ≤ doneSn)) h.path
  have hsub := List.dropWhile_sublist (l := s.predHist) (p := (·.seqNum ≤ doneSn))
  refine ⟨hsorted, h.pred.sublist hsub, fun r hr => ?_, (targetCache_commits ..).symm ▸ h.ways⟩
  refine hfiled r ?_ (h.filed r (hsub.subset hr))
  have hnot := SortedMap.eq_false_of_mem_dropWhile (h.pred.imp (by simp; omega)) r hr
  simpa using hnot

theorem Filed.squash {squashedSn : ℕ} (hsorted : Sorted hist) (h : Filed p hist r)
    (hle : r.seqNum ≤ squashedSn) : Filed p (hist.takeWhile (¬ ·.seqNum > squashedSn)) r := by
  intro setIndex hsearched
  obtain ⟨pre, e, post, rfl, hseq, hrest⟩ := h setIndex hsearched
  refine ⟨pre, e, post.takeWhile (¬ ·.seqNum > squashedSn), ?_, hseq, hrest⟩
  have hpre : ∀ x ∈ pre, decide (¬ x.seqNum > squashedSn) = true := by
    intro x hx
    have := hsorted.lt.1 x hx
    simp
    omega
  rw [List.takeWhile_append_of_pos hpre, List.takeWhile_cons_of_pos (by simp; omega)]

theorem Inv.squash (h : Inv p s) (squashedSn : ℕ) : Inv p (s.squash squashedSn) ∧
    ∀ r ∈ (s.squash squashedSn).predHist, r.seqNum ≤ squashedSn := by
  have hle : ∀ r ∈ (s.squash squashedSn).predHist, r.seqNum ≤ squashedSn := by
    intro r hr
    have hnot := SortedMap.eq_false_of_mem_dropWhile
      (q := fun r : PredictorHistory => r.seqNum > squashedSn)
      (List.pairwise_reverse.2 (h.pred.imp (by simp; omega))) r (List.mem_reverse.1 hr)
    simpa using hnot
  have hpred := List.rdropWhile_prefix (fun r : PredictorHistory => r.seqNum > squashedSn)
    s.predHist
  refine ⟨⟨h.path.sublist (List.takeWhile_sublist _), h.pred.sublist hpred.sublist,
    fun r hr => ?_, h.ways⟩, hle⟩
  exact (h.filed r (hpred.subset hr)).squash h.path (hle r hr)

theorem Filed.retarget {e : HistoryEntry} (target : ℕ) (h : Filed p (hist ++ [e]) r) :
    Filed p (hist ++ [{ e with targetAddr := target }]) r := by
  intro setIndex hsearched
  obtain ⟨pre, e', post, heq, hrest⟩ := h setIndex hsearched
  rcases List.eq_nil_or_concat' post with rfl | ⟨post, x, rfl⟩
  · obtain ⟨rfl, rfl⟩ : hist = pre ∧ e = e' := by simpa using List.append_inj' heq rfl
    exact ⟨hist, _, [], rfl, hrest⟩
  · obtain ⟨rfl, rfl⟩ : hist = pre ++ e' :: post ∧ e = x := by
      rw [← List.cons_append, ← List.append_assoc] at heq
      simpa using List.append_inj' heq rfl
    exact ⟨pre, e', post ++ [{ e with targetAddr := target }], by simp, hrest⟩

variable {ghr target rand setIndex : ℕ}

theorem recordTarget_ok (hways : ∀ i, (s.targetCache i).length = p.numWays)
    (h : s.recordTarget p ghr target rand = .ok (setIndex, s')) : ∃ hist e, ∃ way < p.numWays,
      s.pathHist = hist ++ [e] ∧ s' = { s with
        pathHist := hist ++ [{ e with targetAddr := target }]
        targetCache := Function.update s.targetCache setIndex
          ((s.targetCache setIndex).set way ⟨getTag p e.pcAddr, target⟩) } := by
  rcases List.eq_nil_or_concat' s.pathHist with heq | ⟨hist, e, heq⟩
  · simp [Predictor.recordTarget, heq] at h
  · simp only [Predictor.recordTarget, heq, List.getLast?_concat, List.dropLast_concat,
      Sim.bind_eq_ok] at h
    obtain ⟨setIndex, -, _, -, h⟩ := h
    split at h
    · rename_i way hfind
      cases h
      exact ⟨hist, e, way, hways setIndex ▸ (List.findIdx?_eq_some_iff_getElem.1 hfind).1, heq, rfl⟩
    · split_ifs at h with hnone
      cases h
      exact ⟨hist, e, _, Nat.mod_lt _ (Nat.pos_of_ne_zero hnone), heq, rfl⟩

theorem Inv.recordTarget (hs : Inv p s)
    (h : s.recordTarget p ghr target rand = .ok (setIndex, s')) : Inv p s' := by
  obtain ⟨hist, e, way, -, heq, rfl⟩ := recordTarget_ok hs.ways h
  refine ⟨?_, hs.pred, fun r hr => Filed.retarget target (heq ▸ hs.filed r hr), fun i => ?_⟩
  · have hpath := hs.path
    rw [heq] at hpath
    exact List.pairwise_map.1 (by simpa using List.pairwise_map.2 hpath)
  · by_cases hi : i = setIndex <;> simp [hi, hs.ways]

theorem Inv.correct {squashedSn corrTarget rand : ℕ} {actuallyTaken : Bool} {out : Option ℕ}
    (h : Inv p s) (hok : s.correct p squashedSn corrTarget actuallyTaken rand = .ok (out, s')) :
    Inv p s' := by
  obtain ⟨hs, -⟩ := h.squash squashedSn
  have hghr : ∀ ghr, Inv p { s.squash squashedSn with ghr } := fun _ => ⟨hs.1, hs.2, hs.3, hs.4⟩
  unfold Predictor.correct at hok
  dsimp only at hok
  split at hok
  · cases hok
    exact hs
  · obtain ⟨-, -, hok⟩ := Sim.bind_eq_ok.1 hok
    split_ifs at hok
    · obtain ⟨⟨out', s''⟩, hrecord, hok⟩ := Sim.bind_eq_ok.1 hok
      cases hok
      exact (hghr _).recordTarget hrecord
    · cases hok
      exact hghr _

theorem Inv.predict {seqNum pc next : ℕ} {predTaken indirect : Bool} (h : Inv p s)
    (hpath : ∀ e ∈ s.pathHist, e.seqNum < seqNum) (hpred : ∀ r ∈ s.predHist, r.seqNum < seqNum)
    (hok : s.predict p seqNum pc next predTaken indirect = .ok s') : Inv p s' := by
  have hsorted : ∀ r : PredictorHistory, r.seqNum = seqNum →
      (s.predHist ++ [r]).Pairwise (·.seqNum < ·.seqNum) := fun r hr =>
    List.pairwise_append.2 ⟨h.pred, List.pairwise_singleton _ _, by simpa [hr] using hpred⟩
  unfold Predictor.predict at hok
  dsimp only at hok
  split_ifs at hok
  · obtain ⟨⟨setIndex, target⟩, hlook, hok⟩ := Sim.bind_eq_ok.1 hok
    obtain ⟨_, hindex, _, hlt, hlook⟩ := Sim.bind₂_eq_ok.1 hlook
    cases hlook
    cases hok
    refine ⟨List.pairwise_append.2 ⟨h.path, List.pairwise_singleton _ _, by simpa using hpath⟩,
      hsorted _ rfl, fun r hr => ?_, h.ways⟩
    rcases List.mem_append.1 hr with hr | hr
    · intro setIndex hsearched
      obtain ⟨pre, e, post, heq, hrest⟩ := h.filed r hr setIndex hsearched
      exact ⟨pre, e, post ++ [_], (congrArg (· ++ [_]) heq).trans
        (List.append_assoc pre (e :: post) _), hrest⟩
    · cases List.mem_singleton.1 hr
      rintro _ ⟨⟩
      exact ⟨s.pathHist, _, [], rfl, rfl, rfl, of_decide_eq_true (assert_eq_ok.1 hlt), hindex⟩
  · cases hok
    refine ⟨h.path, hsorted _ rfl, fun r hr => ?_, h.ways⟩
    rcases List.mem_append.1 hr with hr | hr
    · exact h.filed r hr
    · cases List.mem_singleton.1 hr
      rintro _ ⟨⟩

theorem Reachable.inv (h : Reachable p s) : Inv p s := by
  induction h with
  | new hok =>
    simp only [Predictor.new, Sim.bind_eq_ok] at hok
    obtain ⟨_, -, _, -, hok⟩ := hok
    cases hok
    exact ⟨.nil, .nil, by simp, by simp⟩
  | predict _ hpath hpred hok ih => exact ih.predict hpath hpred hok
  | update _ doneSn ih => exact ih.update doneSn
  | squash _ squashedSn ih => exact (ih.squash squashedSn).1
  | correct _ hok ih => exact ih.correct hok

theorem Inv.getLast_squash (h : Inv p s) (hr : r ∈ s.predHist) :
    (s.squash r.seqNum).predHist.getLast? = some r := by
  obtain ⟨hs, hle⟩ := h.squash r.seqNum
  have hmem : r ∈ (s.squash r.seqNum).predHist := by
    have hsplit : r ∈ s.predHist.rdropWhile (·.seqNum > r.seqNum) ++
        s.predHist.rtakeWhile (·.seqNum > r.seqNum) := by
      rwa [List.rdropWhile_append_rtakeWhile]
    rcases List.mem_append.1 hsplit with hmem | hmem
    · exact hmem
    · have hgt := List.mem_rtakeWhile_imp hmem
      simp at hgt
  obtain ⟨init, r', heq⟩ := (List.eq_nil_or_concat' _).resolve_left (List.ne_nil_of_mem hmem)
  have hpred := hs.pred
  have hle' := hle r'
  rw [heq] at hmem hpred hle' ⊢
  rcases List.mem_append.1 hmem with hmem | hmem
  · have := (List.pairwise_append.1 hpred).2.2 r hmem r' List.mem_cons_self
    have := hle' (by simp)
    omega
  · rw [List.mem_singleton.1 hmem, List.getLast?_concat]

/-- A branch that is corrected is the last of the path history, and its target is written to a way
of the set searched when it was predicted, and nowhere else. -/
theorem recordTarget_where_searched (h : Reachable p s) (hr : r ∈ s.predHist)
    (hind : r.wasIndirect = true) (target rand : ℕ) :
    ∃ e setIndex, (s.squash r.seqNum).pathHist.getLast? = some e ∧ e.seqNum = r.seqNum ∧
      e.pcAddr = r.pc ∧ r.searched = some setIndex ∧ (p.numWays = 0 ∨
        ∃ s', ∃ way < p.numWays, s.correct p r.seqNum target true rand = .ok (some setIndex, s') ∧
          (s.targetCache setIndex).length = p.numWays ∧
          s'.targetCache = Function.update s.targetCache setIndex
            ((s.targetCache setIndex).set way ⟨getTag p r.pc, target⟩)) := by
  obtain ⟨setIndex, hsearched⟩ := Option.isSome_iff_exists.1 hind
  obtain ⟨hs, -⟩ := h.inv.squash r.seqNum
  have hlast := h.inv.getLast_squash hr
  obtain ⟨pre, e, post, heq, hseq, hpc, hset, hhash⟩ :=
    hs.filed r (List.mem_of_getLast? hlast) setIndex hsearched
  -- what comes after the branch has been squashed
  obtain rfl : post = [] := by
    refine List.eq_nil_iff_forall_not_mem.2 fun x hx => ?_
    have hlt := (heq ▸ hs.path : Sorted _).lt.2 x hx
    have hmem : x ∈ (s.squash r.seqNum).pathHist := heq ▸ by simp [hx]
    have hle := List.mem_takeWhile_imp hmem
    simp at hle
    omega
  refine ⟨e, setIndex, by rw [heq, List.getLast?_concat], hseq, hpc, hsearched, ?_⟩
  by_cases hways : p.numWays = 0
  · exact .inl hways
  obtain ⟨s', hs'⟩ : ∃ s', ((s.squash r.seqNum).changeDirectionPrediction p r.indirectHistory
      true).recordTarget p r.indirectHistory target rand = .ok (setIndex, s') := by
    have heq' : ((s.squash r.seqNum).changeDirectionPrediction p r.indirectHistory true).pathHist =
      pre ++ [e] := heq
    simp only [Predictor.recordTarget, heq', List.getLast?_concat, List.dropLast_concat, hpc, hhash,
      Sim.ok_bind, assert, hset, decide_true, if_true, hways, if_false]
    split <;> exact ⟨_, rfl⟩
  obtain ⟨hist, e', way, hway, hpath, hcache⟩ := recordTarget_ok
    (s := (s.squash r.seqNum).changeDirectionPrediction p r.indirectHistory true) h.inv.ways hs'
  obtain rfl : e' = e := by
    have hlast' := congrArg List.getLast? (hpath.symm.trans heq)
    simpa using hlast'
  exact .inr ⟨s', way, hway, by simp [Predictor.correct, hlast, assert, hind, hs'],
    h.inv.ways setIndex, by rw [hcache, ← hpc]; rfl⟩

/-- Three indirect branches; the first two commit, and one entry leaves, before the third is
corrected. -/
theorem recordTarget_where_searched_shifted : ∃ s, ∃ r ∈ s.predHist, ∃ setIndex s',
    Reachable ⟨true, true, 4, 1, 8, 1, 0, 4⟩ s ∧ s.pathHist.length = 2 ∧ r.seqNum = 3 ∧
      r.searched = some setIndex ∧
      s.correct ⟨true, true, 4, 1, 8, 1, 0, 4⟩ 3 7 true 0 = .ok (some setIndex, s') ∧
      s'.targetCache setIndex = [⟨14, 7⟩] := by
  have h := (Reachable.predict (.predict (.predict (.new rfl) (by decide) (by decide)
    (show Predictor.predict ⟨true, true, 4, 1, 8, 1, 0, 4⟩ _ 1 5 6 true true = .ok _ from rfl))
    (by decide) (by decide) (show Predictor.predict _ _ 2 9 10 true true = .ok _ from rfl))
    (by decide) (by decide)
    (show Predictor.predict _ _ 3 14 15 true true = .ok _ from rfl)).update 2
  obtain ⟨_, setIndex, -, -, -, hsearched, hways⟩ :=
    recordTarget_where_searched h List.mem_cons_self rfl 7 0
  obtain ⟨s', way, hway, hs', hlen, hcache⟩ := hways.resolve_left (by decide)
  refine ⟨_, _, List.mem_cons_self, setIndex, s', h, rfl, rfl, hsearched, hs', ?_⟩
  obtain ⟨old, hold⟩ := List.length_eq_one_iff.1 hlen
  rw [hcache, Function.update_self, hold, Nat.lt_one_iff.1 hway]
  rfl

end Gem5Nvm.IndirectPredictor
