import Gem5Nvm.Proofs.StackDistCalc

/-!
# The distances of the calculator are those of a stack

The live leaves are the last pushes of the addresses on the stack, so that the live accesses after
that of an address are the addresses pushed since, less those taken off the stack again.
-/

namespace Gem5Nvm.StackDistCalc

open Function (update update_of_ne update_self)

variable {c c' : StackDistCalc} {live live' : Finset ℕ} {h : List Op} {a : ℕ}

/-- The calculator after the calls `h`. -/
structure Follows (c : StackDistCalc) (live : Finset ℕ) (h : List Op) : Prop where
  inv : Inv c live
  mem : ∀ i, i ∈ live ↔ ∃ a, c.aiMap a = some i
  inj : ∀ a b i, c.aiMap a = some i → c.aiMap b = some i → a = b
  on : ∀ a, onStack h a = (c.aiMap a).isSome
  since : ∀ a i b, c.aiMap a = some i →
    (b ∈ pushedSince h a ∧ onStack h b = true ↔ ∃ j, c.aiMap b = some j ∧ i < j)

/-- The naive stack after the calls `h`: later pushes are further up. -/
structure Stacked (c : StackDistCalc) : Prop where
  mem : ∀ a, a ∈ c.stack ↔ (c.aiMap a).isSome
  sorted : c.stack.Pairwise fun a b => ∀ i j, c.aiMap a = some i → c.aiMap b = some j → j < i

variable {i : ℕ}

theorem Follows.lt (hf : Follows c live h) (ha : c.aiMap a = some i) : i < c.index :=
  hf.inv.tree.lt i ((hf.mem i).2 ⟨a, ha⟩)

theorem mem_since (hf : Follows c live h) {i b : ℕ} (ha : c.aiMap a = some i) :
    b ∈ (pushedSince h a).filter (fun b => onStack h b) ↔ ∃ j, c.aiMap b = some j ∧ i < j := by
  rw [Finset.mem_filter]
  exact hf.since a i b ha

theorem Follows.distance (hf : Follows c live h) (ha : c.aiMap a = some i) :
    (live.filter fun j => i < j).card = lruDistance h a := by
  have hon : onStack h a = true := by rw [hf.on, ha]; rfl
  rw [lruDistance, if_pos hon]
  symm
  -- the last push of each address
  refine Finset.card_bij (fun b _ => (c.aiMap b).getD 0) (fun b hb => ?_)
    (fun b hb b' hb' heq => ?_) fun j hj => ?_
  · obtain ⟨j, hj, hij⟩ := (mem_since hf ha).1 hb
    rw [hj, Option.getD_some, Finset.mem_filter]
    exact ⟨(hf.mem j).2 ⟨b, hj⟩, hij⟩
  · obtain ⟨j, hj, -⟩ := (mem_since hf ha).1 hb
    obtain ⟨j', hj', -⟩ := (mem_since hf ha).1 hb'
    rw [hj, hj', Option.getD_some, Option.getD_some] at heq
    subst heq
    exact hf.inj b b' j hj hj'
  · obtain ⟨hmem, hij⟩ := Finset.mem_filter.1 hj
    obtain ⟨b, hb⟩ := (hf.mem j).1 hmem
    exact ⟨b, (mem_since hf ha).2 ⟨j, hb, hij⟩, by rw [hb, Option.getD_some]⟩

theorem Follows.distance_none (hf : Follows c live h) (ha : c.aiMap a = none) :
    lruDistance h a = Infinity := by
  have hon : ¬ onStack h a = true := by rw [hf.on, ha]; decide
  rw [lruDistance, if_neg hon]

theorem searchStack_of_notMem : ∀ {l : List ℕ} (d : ℕ), a ∉ l →
    searchStack a l d = (false, d + l.length)
  | [], _, _ => rfl
  | b :: l, d, hn => by
    rw [List.mem_cons, not_or] at hn
    rw [searchStack, if_neg (by simpa using Ne.symm hn.1), searchStack_of_notMem (d + 1) hn.2,
      List.length_cons]
    congr 1
    omega

theorem searchStack_of_mem : ∀ {pre : List ℕ} {post : List ℕ} (d : ℕ), a ∉ pre →
    searchStack a (pre ++ a :: post) d = (true, d + pre.length)
  | [], _, _, _ => by
    rw [List.nil_append, searchStack, if_pos (by simp)]
    rfl
  | b :: pre, post, d, hn => by
    rw [List.mem_cons, not_or] at hn
    rw [List.cons_append, searchStack, if_neg (by simpa using Ne.symm hn.1),
      searchStack_of_mem (d + 1) hn.2, List.length_cons]
    congr 1
    omega

theorem Stacked.nodup (hs : Stacked c) : c.stack.Nodup := by
  refine hs.sorted.imp_of_mem fun {x y} hx _ hxy => ?_
  rintro rfl
  obtain ⟨i, hi⟩ := Option.isSome_iff_exists.1 ((hs.mem x).1 hx)
  exact lt_irrefl i (hxy i i hi hi)

theorem Stacked.distance (hs : Stacked c) (hf : Follows c live h) (updateStack : Bool) :
    (c.verifyStackDist a updateStack).1 = lruDistance h a := by
  cases ha : c.aiMap a with
  | none =>
    have hn : a ∉ c.stack := by rw [hs.mem, ha]; decide
    rw [hf.distance_none ha, verifyStackDist, searchStack_of_notMem 0 hn]
    rfl
  | some i =>
    have hmem : a ∈ c.stack := by rw [hs.mem, ha]; rfl
    obtain ⟨pre, post, hsplit⟩ := List.append_of_mem hmem
    have hnodup := hs.nodup
    have hsorted := hs.sorted
    rw [hsplit] at hnodup hsorted
    have hn : a ∉ pre := fun hp =>
      (List.nodup_append.1 hnodup).2.2 a hp a List.mem_cons_self rfl
    obtain ⟨-, hpost, hcross⟩ := List.pairwise_append.1 hsorted
    have hset : (pushedSince h a).filter (fun b => onStack h b) = pre.toFinset := by
      ext b
      rw [mem_since hf ha, List.mem_toFinset]
      constructor
      · rintro ⟨j, hj, hij⟩
        have hb : b ∈ c.stack := by rw [hs.mem, hj]; rfl
        rw [hsplit, List.mem_append, List.mem_cons] at hb
        rcases hb with hb | rfl | hb
        · exact hb
        · rw [ha] at hj
          cases hj
          omega
        · have := (List.pairwise_cons.1 hpost).1 b hb i j ha hj
          omega
      · intro hb
        have hb' : b ∈ c.stack := by rw [hsplit]; exact List.mem_append_left _ hb
        obtain ⟨j, hj⟩ := Option.isSome_iff_exists.1 ((hs.mem b).1 hb')
        exact ⟨j, hj, hcross b hb a List.mem_cons_self j i hj ha⟩
    have hon : onStack h a = true := by rw [hf.on, ha]; rfl
    rw [lruDistance, if_pos hon, hset, List.toFinset_card_of_nodup (List.nodup_append.1 hnodup).1,
      verifyStackDist, hsplit, searchStack_of_mem 0 hn, zero_add]
    rfl

theorem filter_ne_of_notMem {l : List ℕ} (hn : a ∉ l) : l.filter (· ≠ a) = l := by
  refine List.filter_eq_self.2 fun b hb => ?_
  rw [decide_eq_true_eq]
  rintro rfl
  exact hn hb

theorem verifyStackDist_stack (hs : Stacked c) :
    (c.verifyStackDist a true).2.stack = a :: c.stack.filter (· ≠ a) := by
  by_cases hmem : a ∈ c.stack
  · obtain ⟨pre, post, hsplit⟩ := List.append_of_mem hmem
    have hnodup := hs.nodup
    rw [hsplit] at hnodup
    have hn : a ∉ pre := fun hp =>
      (List.nodup_append.1 hnodup).2.2 a hp a List.mem_cons_self rfl
    have hn' : a ∉ post := (List.nodup_cons.1 (List.nodup_append.1 hnodup).2.1).1
    rw [verifyStackDist, hsplit, searchStack_of_mem 0 hn, zero_add, List.filter_append,
      List.filter_cons_of_neg (by simp), filter_ne_of_notMem hn, filter_ne_of_notMem hn']
    simp [List.eraseIdx_append_of_length_le]
  · rw [verifyStackDist, searchStack_of_notMem 0 hmem, filter_ne_of_notMem hmem]
    rfl

/-- The live accesses without that of an address. -/
def without (c : StackDistCalc) (live : Finset ℕ) (a : ℕ) : Finset ℕ :=
  live.filter fun i => c.aiMap a ≠ some i

theorem mem_without (hf : Follows c live h) :
    i ∈ without c live a ↔ ∃ b, b ≠ a ∧ c.aiMap b = some i := by
  rw [without, Finset.mem_filter, hf.mem]
  constructor
  · rintro ⟨⟨b, hb⟩, ha⟩
    exact ⟨b, fun hba => ha (hba ▸ hb), hb⟩
  · rintro ⟨b, hba, hb⟩
    exact ⟨⟨b, hb⟩, fun ha => hba (hf.inj b a i hb ha)⟩

theorem Inv.setMap (hi : Inv c live) (m : ℕ → Option ℕ) : Inv { c with aiMap := m } live :=
  ⟨⟨hi.tree.depth_pos, hi.tree.nodes, hi.tree.gone, hi.tree.bounded, hi.tree.root, hi.tree.leaf,
    hi.tree.leafOk, hi.tree.lt⟩, hi.slots, hi.deep⟩

theorem lookup_ok (hf : Follows c live h) (hn : c.index ≤ 2 ^ 32) (addNewNode : Bool) :
    ∃ mark c', c.lookup a addNewNode = .ok ((lruDistance h a, mark), c') ∧
      Inv c' (without c live a) ∧
      Frame { c with
        aiMap := update c.aiMap a (if addNewNode then some c.index else none) } c' := by
  unfold lookup
  cases ha : c.aiMap a with
  | none =>
    have hlive : without c live a = live := by
      refine Finset.filter_true_of_mem fun i _ => ?_
      rw [ha]
      simp
    rw [hf.distance_none ha, hlive]
    exact ⟨false, _, rfl, hf.inv.setMap _, rfl, rfl, rfl, rfl⟩
  | some i =>
    have hlive : without c live a = live.erase i := by
      ext j
      rw [without, Finset.mem_filter, Finset.mem_erase, ha, and_comm]
      refine and_congr_left fun _ => not_congr ?_
      rw [Option.some.injEq, eq_comm]
    obtain ⟨mark, c', hc', hinv, hframe⟩ := removeLeaf_ok (r := i) (hf.inv.setMap
      (update c.aiMap a (if addNewNode then some c.index else none)))
      ((hf.mem i).2 ⟨a, ha⟩) hn
    rw [hf.distance ha] at hc'
    rw [hlive]
    exact ⟨mark, c', hc', hinv, hframe⟩

theorem Follows.remove (hf : Follows c live h) (hinv : Inv c' (without c live a))
    (hmap : c'.aiMap = update c.aiMap a none) :
    Follows c' (without c live a) (.calcStackDistAndUpdate a false :: h) := by
  have hself : c'.aiMap a = none := by rw [hmap, update_self]
  have hother : ∀ b, b ≠ a → c'.aiMap b = c.aiMap b := fun b hb => by
    rw [hmap, update_of_ne hb]
  have hne : ∀ {b i}, c'.aiMap b = some i → b ≠ a := by
    rintro b i hb rfl
    rw [hself] at hb
    cases hb
  refine ⟨hinv, fun i => ?_, fun b b' i hb hb' => ?_, fun b => ?_, fun b i b' hb => ?_⟩
  · rw [mem_without hf]
    constructor
    · rintro ⟨b, hba, hb⟩
      exact ⟨b, by rw [hother b hba, hb]⟩
    · rintro ⟨b, hb⟩
      exact ⟨b, hne hb, by rw [← hother b (hne hb), hb]⟩
  · rw [hother b (hne hb)] at hb
    rw [hother b' (hne hb')] at hb'
    exact hf.inj b b' i hb hb'
  · rw [onStack]
    split_ifs with hab
    · rw [← hab, hself]
      rfl
    · rw [hother b (Ne.symm hab), hf.on]
  · have hbne := hne hb
    rw [hother b hbne] at hb
    rw [pushedSince, onStack]
    · by_cases hab : a = b'
      · rw [if_pos hab, ← hab, hself]
        simp
      · rw [if_neg hab, hother b' (Ne.symm hab)]
        exact hf.since b i b' hb
    · exact fun _ hc => by cases hc

theorem Follows.push (hf : Follows c live h) (hinv : Inv c' (insert c.index (without c live a)))
    (hmap : c'.aiMap = update c.aiMap a (some c.index)) :
    Follows c' (insert c.index (without c live a)) (.calcStackDistAndUpdate a true :: h) := by
  have hself : c'.aiMap a = some c.index := by rw [hmap, update_self]
  have hother : ∀ b, b ≠ a → c'.aiMap b = c.aiMap b := fun b hb => by
    rw [hmap, update_of_ne hb]
  refine ⟨hinv, fun i => ?_, fun b b' i hb hb' => ?_, fun b => ?_, fun b i b' hb => ?_⟩
  · rw [Finset.mem_insert, mem_without hf]
    constructor
    · rintro (rfl | ⟨b, hba, hb⟩)
      · exact ⟨a, hself⟩
      · exact ⟨b, by rw [hother b hba, hb]⟩
    · rintro ⟨b, hb⟩
      by_cases hba : b = a
      · rw [hba, hself] at hb
        exact .inl (Option.some.inj hb).symm
      · exact .inr ⟨b, hba, by rw [← hother b hba, hb]⟩
  · by_cases hba : b = a
    · by_cases hba' : b' = a
      · rw [hba, hba']
      · rw [hba, hself] at hb
        rw [hother b' hba'] at hb'
        cases hb
        exact absurd (hf.lt hb') (lt_irrefl _)
    · by_cases hba' : b' = a
      · rw [hba', hself] at hb'
        rw [hother b hba] at hb
        cases hb'
        exact absurd (hf.lt hb) (lt_irrefl _)
      · rw [hother b hba] at hb
        rw [hother b' hba'] at hb'
        exact hf.inj b b' i hb hb'
  · rw [onStack]
    split_ifs with hab
    · rw [← hab, hself]
      rfl
    · rw [hother b (Ne.symm hab), hf.on]
  · rw [pushedSince, onStack]
    by_cases hab : a = b
    · -- nothing is above the address pushed last
      subst hab
      rw [hself] at hb
      cases hb
      rw [if_pos rfl]
      refine iff_of_false (fun hc => by simp at hc) ?_
      rintro ⟨j, hj, hlt⟩
      by_cases hb' : b' = a
      · rw [hb', hself] at hj
        cases hj
        exact lt_irrefl _ hlt
      · rw [hother b' hb'] at hj
        exact absurd (hf.lt hj) (by omega)
    · rw [if_neg hab]
      rw [hother b (Ne.symm hab)] at hb
      by_cases hab' : a = b'
      · -- the address pushed last is above all others
        subst hab'
        rw [if_pos rfl]
        refine iff_of_true ⟨Finset.mem_insert_self .., rfl⟩ ⟨_, hself, hf.lt hb⟩
      · rw [if_neg hab', Finset.mem_insert, or_iff_right (Ne.symm hab'), hother b' (Ne.symm hab')]
        exact hf.since b i b' hb

theorem Follows.inspect (hf : Follows c live h) (hinv : Inv c' live) (hmap : c'.aiMap = c.aiMap)
    (mark : Bool) : Follows c' live (.calcStackDist a mark :: h) := by
  refine ⟨hinv, fun i => ?_, ?_, fun b => ?_, fun b i b' hb => ?_⟩
  · rw [hmap]
    exact hf.mem i
  · rw [hmap]
    exact hf.inj
  · rw [hmap, onStack]
    exact hf.on b
  · rw [hmap] at hb ⊢
    rw [pushedSince, onStack]
    · exact hf.since b i b' hb
    · exact fun _ hc => by cases hc

theorem Stacked.push (hs : Stacked c) (hf : Follows c live h)
    (hstack : c'.stack = (c.verifyStackDist a true).2.stack)
    (hmap : c'.aiMap = update c.aiMap a (some c.index)) : Stacked c' := by
  rw [verifyStackDist_stack hs] at hstack
  have hself : c'.aiMap a = some c.index := by rw [hmap, update_self]
  have hother : ∀ b, b ≠ a → c'.aiMap b = c.aiMap b := fun b hb => by
    rw [hmap, update_of_ne hb]
  have hmem : ∀ {b}, b ∈ c.stack.filter (· ≠ a) → b ∈ c.stack ∧ b ≠ a := fun hb => by
    simpa using List.mem_filter.1 hb
  constructor
  · intro b
    rw [hstack, List.mem_cons]
    by_cases hba : b = a
    · rw [hba, hself]
      simp
    · rw [hother b hba, ← hs.mem, or_iff_right hba]
      exact ⟨fun hb => (hmem hb).1, fun hb => List.mem_filter.2 ⟨hb, by simpa using hba⟩⟩
  · rw [hstack, List.pairwise_cons]
    refine ⟨fun b hb i j hi hj => ?_,
      (hs.sorted.filter _).imp_of_mem fun {x y} hx hy hxy i j hi hj => ?_⟩
    · rw [hself] at hi
      cases hi
      rw [hother b (hmem hb).2] at hj
      exact hf.lt hj
    · rw [hother x (hmem hx).2] at hi
      rw [hother y (hmem hy).2] at hj
      exact hxy i j hi hj

/-- The calculator and, when it verifies, its naive stack after the calls `h`. -/
def Right (c : StackDistCalc) (live : Finset ℕ) (h : List Op) : Prop :=
  Follows c live h ∧ (c.verifyStack = true → Stacked c)

theorem push_ok (hR : Right c live h) (hn : c.index < 2 ^ 32) :
    ∃ mark c' live', c.calcStackDistAndUpdate a true = .ok ((lruDistance h a, mark), c') ∧
      Right c' live' (.calcStackDistAndUpdate a true :: h) ∧ c'.index = c.index + 1 ∧
      c'.verifyStack = c.verifyStack := by
  obtain ⟨hf, hs⟩ := hR
  obtain ⟨mark, c₁, hc₁, hinv, hver, hidx, hmap, hstack⟩ := lookup_ok (a := a) hf hn.le true
  have hdist := fun hv => (hs hv).distance (a := a) hf true
  obtain ⟨c₂, hc₂, hinv₂, hp⟩ := addLeaf_ok a (lruDistance h a) hinv
    (by rw [hidx]; exact hn) fun hv => by
      rw [(verifyStackDist_congr hstack a true).1]
      exact hdist (hver ▸ hv)
  have hidx' : c₁.index = c.index := hidx
  rw [hidx'] at hinv₂
  have hmap₂ : c₂.aiMap = update c.aiMap a (some c.index) := hp.aiMap.trans hmap
  refine ⟨mark, c₂, _, ?_, ⟨hf.push hinv₂ hmap₂, fun hv => ?_⟩, ?_, ?_⟩
  · rw [calcStackDistAndUpdate, hc₁, Sim.ok_bind]
    dsimp only
    rw [if_pos rfl, hc₂]
    rfl
  · have hvc : c.verifyStack = true := by rw [← hv, hp.verifyStack, hver]
    refine (hs hvc).push hf ?_ hmap₂
    rw [hp.stack, if_pos (by rw [← hp.verifyStack, hv]), (verifyStackDist_congr hstack a true).2]
    rfl
  · rw [hp.index, hidx']
  · rw [hp.verifyStack, hver]

theorem Stacked.congr (hst : Stacked c) (hmap : c'.aiMap = c.aiMap) (hstack : c'.stack = c.stack) :
    Stacked c' :=
  ⟨by rw [hstack, hmap]; exact hst.mem, by rw [hstack, hmap]; exact hst.sorted⟩

/-- The naive stack is not told of a removal, so that it stays right only if there is none. -/
theorem remove_ok (hR : Right c live h) (hn : c.index ≤ 2 ^ 32)
    (hv : c.verifyStack = true → onStack h a = false) :
    ∃ mark c' live', c.calcStackDistAndUpdate a false = .ok ((lruDistance h a, mark), c') ∧
      Right c' live' (.calcStackDistAndUpdate a false :: h) ∧ c'.index = c.index ∧
      c'.verifyStack = c.verifyStack := by
  obtain ⟨hf, hs⟩ := hR
  obtain ⟨mark, c₁, hc₁, hinv, hver, hidx, hmap, hstack⟩ := lookup_ok (a := a) hf hn false
  refine ⟨mark, c₁, _, ?_, ⟨hf.remove hinv hmap, fun hv' => ?_⟩, hidx, hver⟩
  · rw [calcStackDistAndUpdate, hc₁, Sim.ok_bind]
    rfl
  · have hvc : c.verifyStack = true := by rw [← hv', hver]
    have hnone : c.aiMap a = none := by
      have hoff := hv hvc
      rw [hf.on] at hoff
      simpa using hoff
    have hsame : update c.aiMap a none = c.aiMap := by rw [← hnone, Function.update_eq_self]
    exact (hs hvc).congr (hmap.trans hsame) hstack

theorem inspect_ok (hf : Follows c live h) (mark : Bool) :
    ∃ old c', c.inspect a mark = .ok ((lruDistance h a, old), c') ∧ Inv c' live ∧ Frame c c' := by
  unfold inspect
  cases ha : c.aiMap a with
  | none =>
    rw [hf.distance_none ha]
    exact ⟨false, c, rfl, hf.inv, rfl, rfl, rfl, rfl⟩
  | some i =>
    have hi : i ∈ live := (hf.mem i).2 ⟨a, ha⟩
    obtain ⟨leaf, hleaf⟩ := Option.ne_none_iff_exists'.1 ((hf.inv.tree.leaf i).2 hi)
    have hinv := hf.inv.mark hleaf mark
    refine ⟨leaf.isMarked, _, ?_, hinv, rfl, rfl, rfl, rfl⟩
    dsimp only
    rw [nodeAt_eq_ok hleaf, Sim.ok_bind, getSumsLeavesToRoot_ok hinv hi, hf.distance ha]
    rfl

theorem calcStackDist_ok (hR : Right c live h) (mark : Bool) :
    ∃ old c', c.calcStackDist a mark = .ok ((lruDistance h a, old), c') ∧
      Right c' live (.calcStackDist a mark :: h) ∧ c'.index = c.index ∧
      c'.verifyStack = c.verifyStack := by
  obtain ⟨hf, hs⟩ := hR
  obtain ⟨old, c₁, hc₁, hinv, hver, hidx, hmap, hstack⟩ := inspect_ok (a := a) hf mark
  have hf₁ : Follows c₁ live (.calcStackDist a mark :: h) := hf.inspect hinv hmap mark
  rw [calcStackDist, hc₁, Sim.ok_bind]
  dsimp only
  by_cases hv : c₁.verifyStack = true
  · have hst := hs (hver ▸ hv)
    have hst₁ : Stacked c₁ := hst.congr hmap hstack
    have hdist : (c₁.verifyStackDist a false).1 = lruDistance h a := by
      rw [(verifyStackDist_congr hstack a false).1]
      exact hst.distance hf false
    rw [if_pos hv, checkDist_ok hdist, verifyStackDist_keep]
    exact ⟨old, c₁, rfl, ⟨hf₁, fun _ => hst₁⟩, hidx, hver⟩
  · rw [if_neg hv]
    exact ⟨old, c₁, rfl, ⟨hf₁, fun hv' => absurd hv' hv⟩, hidx, hver⟩

theorem step_ok {o : Op} (hR : Right c live h) (hn : c.index + (if o.pushes then 1 else 0) ≤ 2 ^ 32)
    (hv : c.verifyStack = true → o.removes h = false) :
    ∃ mark c' live', c.step o = .ok ((lruDistance h o.addr, mark), c') ∧ Right c' live' (o :: h) ∧
      c'.index = c.index + (if o.pushes then 1 else 0) ∧ c'.verifyStack = c.verifyStack := by
  cases o with
  | calcStackDistAndUpdate addr addNewNode =>
    cases addNewNode with
    | true => exact push_ok hR (Nat.lt_of_succ_le hn)
    | false =>
      exact remove_ok hR (Nat.le_of_add_right_le hn) fun hvs => by simpa [Op.removes] using hv hvs
  | calcStackDist addr mark =>
    obtain ⟨old, c', hc', hR', hi, hver⟩ := calcStackDist_ok (a := addr) hR mark
    exact ⟨old, c', live, hc', hR', hi, hver⟩

theorem run_distances : ∀ (ops : List Op) {c : StackDistCalc} {live : Finset ℕ} {h : List Op},
    Right c live h → c.index + ops.countP Op.pushes ≤ 2 ^ 32 →
    (c.verifyStack = true → keepsStack h ops = true) →
    ∃ answers c', Run.run step c ops = .ok (answers, c') ∧
      answers.map Prod.fst = distances lruDistance h ops
  | [], c, _, _, _, _, _ => ⟨[], c, rfl, rfl⟩
  | o :: ops, c, live, h, hR, hn, hv => by
    rw [List.countP_cons, Nat.add_comm (List.countP _ _), ← Nat.add_assoc] at hn
    simp only [keepsStack, Bool.and_eq_true, Bool.not_eq_true'] at hv
    obtain ⟨mark, c₁, live₁, hc₁, hR₁, hidx, hver⟩ := step_ok hR (Nat.le_of_add_right_le hn)
      fun hvs => (hv hvs).1
    obtain ⟨answers, c', hrun, hans⟩ := run_distances ops hR₁ (by rw [hidx]; exact hn)
      fun hvs => (hv (hver ▸ hvs)).2
    exact ⟨_, c', Run.run_cons hc₁ hrun, by rw [List.map_cons, hans, distances]⟩

theorem init_right (verifyStack : Bool) : Right (init verifyStack) ∅ [] := by
  refine ⟨⟨init_inv verifyStack, fun i => ?_, ?_, fun _ => rfl, ?_⟩, fun _ => ⟨fun a => ?_,
    List.Pairwise.nil⟩⟩
  · exact iff_of_false (Finset.notMem_empty i) fun ⟨_, ha⟩ => by cases ha
  · rintro a b i ha
    cases ha
  · rintro a i b ha
    cases ha
  · exact iff_of_false List.not_mem_nil Bool.false_ne_true

/-- Every distance is that of an LRU stack: the number of the other addresses pushed since the last
push of the address that are still on the stack. A calculator that verifies itself must not take an
address off the stack. -/
theorem distances_lru (verifyStack : Bool) (ops : List Op) (hn : ops.countP Op.pushes ≤ 2 ^ 32)
    (hv : verifyStack = true → keepsStack [] ops = true) :
    ∃ answers c, Run.run step (init verifyStack) ops = .ok (answers, c) ∧
      answers.map Prod.fst = distances lruDistance [] ops := by
  refine run_distances ops (init_right verifyStack) ?_ hv
  change 0 + ops.countP Op.pushes ≤ 2 ^ 32
  rwa [zero_add]

/-- Three addresses, of which the second is taken off the stack. -/
def removalRun : List Op :=
  [.calcStackDistAndUpdate 7 true, .calcStackDistAndUpdate 8 true, .calcStackDistAndUpdate 9 true,
    .calcStackDistAndUpdate 8 false, .calcStackDist 7 false, .calcStackDist 8 false]

theorem distances_lru_removalRun : ∃ answers c,
    Run.run step (init false) removalRun = .ok (answers, c) ∧
      answers.map Prod.fst = [Infinity, Infinity, Infinity, 1, 1, Infinity] := by
  obtain ⟨answers, c, hrun, hans⟩ := distances_lru false removalRun (by decide) fun h => by cases h
  exact ⟨answers, c, hrun, hans.trans (by decide)⟩

/-- An address that was pushed and taken off again is not counted. -/
theorem removed_not_counted : ∃ answers c,
    Run.run step (init false) removalRun = .ok (answers, c) ∧
      answers.map Prod.fst ≠ distances pushedDistance [] removalRun := by
  have hdiff : (Run.run step (init false) removalRun).toOption.any (fun r =>
      decide (r.1.map Prod.fst ≠ distances pushedDistance [] removalRun)) = true := by
    decide +kernel
  cases hrun : Run.run step (init false) removalRun with
  | error e =>
    rw [hrun] at hdiff
    cases hdiff
  | ok r =>
    rw [hrun] at hdiff
    simp only [Except.toOption, Option.any_some, decide_eq_true_eq] at hdiff
    exact ⟨r.1, r.2, rfl, hdiff⟩

end Gem5Nvm.StackDistCalc
