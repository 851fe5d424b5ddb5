import Gem5Nvm.StackDistCalc
import Gem5Nvm.Lib.Blocks

/-!
# Stack distances

The leaves in use are a set `live` of access numbers. The node `k` of the layer `l` stands for the
accesses `i` with `i / 2 ^ l = k`, and its sums count the live ones of its two halves. An access
that comes or goes changes the nodes on its path to the root only, and the sums of the right
siblings along the path are the live accesses after it.
-/

namespace Gem5Nvm.StackDistCalc

open Function (update update_apply update_eq_self update_of_ne update_self)
open Sim (ok_bind)
open Blocks
open Nat (add_sub_cancel div_eq_of_lt div_one succ_ne_zero)

variable {c : StackDistCalc} {live live' : Finset ℕ} {r : ℕ}

/-! ### Nodes -/

/-- All accesses of a block have been made, and none is live: nothing happens there any more. -/
def Done (n : ℕ) (live : Finset ℕ) (l k : ℕ) : Prop := ∀ i, i / 2 ^ l = k → i < n ∧ i ∉ live

variable {depth i k l level n : ℕ}

theorem Done.join (h0 : Done n live l (2 * k)) (h1 : Done n live l (2 * k + 1)) :
    Done n live (l + 1) k := by
  intro i hi
  rw [div_pow_succ] at hi
  rcases Nat.mod_two_eq_zero_or_one (i / 2 ^ l) with hm | hm
  · exact h0 i (by omega)
  · exact h1 i (by omega)

theorem Done.mono {m : ℕ} (h : Done n live l k) (hnm : n ≤ m) : Done m live l k :=
  fun i hi => ⟨(h i hi).1.trans_le hnm, (h i hi).2⟩

theorem Done.congr (h : Done n live l k) (hagree : ∀ i, i / 2 ^ l = k → (i ∈ live ↔ i ∈ live')) :
    Done n live' l k :=
  fun i hi => ⟨(h i hi).1, fun hmem => (h i hi).2 ((hagree i hi).2 hmem)⟩

/-- The node `k` of the layer `l + 1`, in a tree of the given depth after `n` accesses. -/
structure NodeOk (depth n : ℕ) (live : Finset ℕ) (l k : ℕ) (node : StackNode) : Prop where
  parent : node.parent = if l + 1 < depth then some (k / 2) else none
  isLeft : node.isLeftNode = (k % 2 == 0)
  sumLeft : node.sumLeft = blockCount live l (2 * k)
  sumRight : node.sumRight = blockCount live l (2 * k + 1)
  discardLeft : node.discardLeft = true → Done n live l (2 * k)
  discardRight : node.discardRight = true → Done n live l (2 * k + 1)

variable {leaf node : StackNode}

theorem NodeOk.congr (h : NodeOk depth n live l k node)
    (hagree : ∀ i, i / 2 ^ (l + 1) = k → (i ∈ live ↔ i ∈ live')) :
    NodeOk depth n live' l k node := by
  have hhalf : ∀ j i, j / 2 = k → i / 2 ^ l = j → (i ∈ live ↔ i ∈ live') := by
    rintro j i hj rfl
    exact hagree i (by rw [div_pow_succ, hj])
  have h0 := fun i => hhalf (2 * k) i (by omega)
  have h1 := fun i => hhalf (2 * k + 1) i (by omega)
  exact ⟨h.parent, h.isLeft, h.sumLeft.trans (blockCount_congr h0),
    h.sumRight.trans (blockCount_congr h1), fun hd => (h.discardLeft hd).congr h0,
    fun hd => (h.discardRight hd).congr h1⟩

theorem NodeOk.mono {m : ℕ} (h : NodeOk depth n live l k node) (hnm : n ≤ m) :
    NodeOk depth m live l k node :=
  ⟨h.parent, h.isLeft, h.sumLeft, h.sumRight, fun hd => (h.discardLeft hd).mono hnm,
    fun hd => (h.discardRight hd).mono hnm⟩

theorem NodeOk.sum (h : NodeOk depth n live l k node) :
    node.sumLeft + node.sumRight = blockCount live (l + 1) k := by
  rw [blockCount_succ, h.sumLeft, h.sumRight]

/-- A node on the path of `r`, with the sum of the half `r` is in. -/
theorem NodeOk.updated {discard : Bool} (h : NodeOk depth n live l (r / 2 ^ (l + 1)) node)
    (hagree : ∀ i, i ≠ r → (i ∈ live ↔ i ∈ live')) (hr : r ∈ live ∨ n ≤ r)
    (hdiscard : discard = true → Done n live' l (r / 2 ^ l)) :
    NodeOk depth n live' l (r / 2 ^ (l + 1))
      (node.updated (r / 2 ^ l % 2 == 0) (blockCount live' l (r / 2 ^ l)) discard) := by
  have hopen : ¬ Done n live l (r / 2 ^ l) := by
    intro hd
    obtain ⟨hlt, hmem⟩ := hd r rfl
    rcases hr with hr | hr
    · exact hmem hr
    · omega
  have hother : ∀ j, j ≠ r / 2 ^ l → ∀ i, i / 2 ^ l = j → (i ∈ live ↔ i ∈ live') := by
    rintro j hj i rfl
    exact hagree i fun hir => hj (by rw [hir])
  rcases Nat.mod_two_eq_zero_or_one (r / 2 ^ l) with hm | hm
  · have hleft : 2 * (r / 2 ^ (l + 1)) = r / 2 ^ l := by
      rw [div_pow_succ]
      omega
    have hright := hother (2 * (r / 2 ^ (l + 1)) + 1) (by omega)
    have hflag : node.discardLeft = false := by
      by_contra hd
      exact hopen (hleft ▸ h.discardLeft (by simpa using hd))
    have hu : (r / 2 ^ l % 2 == 0) = true := by simp [hm]
    rw [hu]
    unfold StackNode.updated
    simp only [if_true]
    split_ifs with hd
    · refine ⟨h.parent, h.isLeft, by rw [hleft], h.sumRight.trans (blockCount_congr hright),
        fun _ => hleft ▸ hdiscard (by simp_all), fun hd => (h.discardRight hd).congr hright⟩
    · refine ⟨h.parent, h.isLeft, by rw [hleft], h.sumRight.trans (blockCount_congr hright),
        fun hd => ?_, fun hd => (h.discardRight hd).congr hright⟩
      rw [hflag] at hd
      cases hd
  · have hright : 2 * (r / 2 ^ (l + 1)) + 1 = r / 2 ^ l := by
      rw [div_pow_succ]
      omega
    have hleft := hother (2 * (r / 2 ^ (l + 1))) (by omega)
    have hflag : node.discardRight = false := by
      by_contra hd
      exact hopen (hright ▸ h.discardRight (by simpa using hd))
    have hu : (r / 2 ^ l % 2 == 0) = false := by simp [hm]
    rw [hu]
    unfold StackNode.updated
    simp only [Bool.false_eq_true, if_false]
    split_ifs with hd
    · refine ⟨h.parent, h.isLeft, h.sumLeft.trans (blockCount_congr hleft), by rw [hright],
        fun hd => (h.discardLeft hd).congr hleft, fun _ => hright ▸ hdiscard (by simp_all)⟩
    · refine ⟨h.parent, h.isLeft, h.sumLeft.trans (blockCount_congr hleft), by rw [hright],
        fun hd => (h.discardLeft hd).congr hleft, fun hd => ?_⟩
      rw [hflag] at hd
      cases hd

/-! ### Paths to the root -/

/-- The tree while the access `r` comes or goes: the layers up to `level` and the nodes off the path
of `r` are right for the new set of live accesses, the path above for the old one. -/
structure OnPath (c : StackDistCalc) (live live' : Finset ℕ) (r level : ℕ) : Prop where
  off : ∀ l k node, l < c.treeDepth → (l < level ∨ k ≠ r / 2 ^ (l + 1)) →
    c.tree (l + 1) k = some node → NodeOk c.treeDepth c.index live' l k node
  on : ∀ l, level ≤ l → l < c.treeDepth → ∃ node, c.tree (l + 1) (r / 2 ^ (l + 1)) = some node ∧
    NodeOk c.treeDepth c.index live l (r / 2 ^ (l + 1)) node
  gone : ∀ l k, l < c.treeDepth → k < c.nextIndex (l + 1) → c.tree (l + 1) k = none →
    Done c.index live' (l + 1) k
  bounded : ∀ l k node, l < c.treeDepth → c.tree (l + 1) k = some node → k < c.nextIndex (l + 1)
  root : c.tree c.treeDepth 0 ≠ none

theorem shiftOne_ok (h : i ≤ 31) : ∃ width, shiftOne i = .ok width ∧ 2 ^ i ≤ width := by
  unfold shiftOne
  split_ifs with h1 h2
  · exact ⟨_, rfl, le_rfl⟩
  · subst h2
    exact ⟨_, rfl, by norm_num⟩
  · omega

theorem checkSum_ok {sum : ℕ} {msg : String} (hv : c.verifyStack = true → level ≤ 31)
    (hsum : sum ≤ 2 ^ level) : c.checkSum (level + 1) sum msg = .ok () := by
  unfold checkSum
  split_ifs with h
  · obtain ⟨width, hw, hle⟩ := shiftOne_ok (hv h)
    have hno : decide (sum > width) = false := by
      rw [decide_eq_false_iff_not]
      omega
    rw [add_sub_cancel, hw, ok_bind, hno]
    rfl
  · rfl

theorem nodeAt_eq_ok {idx : ℕ} (h : c.tree level idx = some node) :
    c.nodeAt level idx = .ok node := by
  simp [nodeAt, h]

theorem above_step (hok : NodeOk depth n live level (r / 2 ^ (level + 1)) node)
    (hagree : ∀ i, i ≠ r → (i ∈ live ↔ i ∈ live')) :
    (if (r / 2 ^ level % 2 == 0) = true then aboveCount live' r level + node.sumRight
      else aboveCount live' r level) = aboveCount live' r (level + 1) := by
  rcases Nat.mod_two_eq_zero_or_one (r / 2 ^ level) with hm | hm
  · have hsib : 2 * (r / 2 ^ (level + 1)) + 1 = r / 2 ^ level + 1 := by
      rw [div_pow_succ]
      omega
    have hsum : node.sumRight = blockCount live' level (r / 2 ^ level + 1) := by
      rw [hok.sumRight, hsib]
      refine blockCount_congr fun i hi => hagree i fun hir => ?_
      rw [hir] at hi
      omega
    rw [if_pos (by simp [hm]), aboveCount_succ_left hm, hsum]
  · rw [if_neg (by simp [hm]), aboveCount_succ_right hm]

theorem setNode_tree_self {idx : ℕ} {node : Option StackNode} :
    (c.setNode level idx node).tree level idx = node := by
  simp [setNode]

theorem setNode_tree_of_ne {idx : ℕ} {node : Option StackNode} (h : l ≠ level ∨ k ≠ idx) :
    (c.setNode level idx node).tree l k = c.tree l k := by
  by_cases hl : l = level
  · subst hl
    have hk : k ≠ idx := h.resolve_left fun hne => hne rfl
    simp [setNode, hk]
  · simp [setNode, hl]

theorem OnPath.up {node : Option StackNode} (h : OnPath c live live' r level)
    (hlevel : level < c.treeDepth)
    (hnode : ∀ n, node = some n → NodeOk c.treeDepth c.index live' level (r / 2 ^ (level + 1)) n)
    (hgone : node = none → level + 1 < c.treeDepth ∧
      Done c.index live' (level + 1) (r / 2 ^ (level + 1))) :
    OnPath (c.setNode (level + 1) (r / 2 ^ (level + 1)) node) live live' r (level + 1) := by
  constructor
  · intro l k n hl hoff hn
    by_cases hlk : l = level ∧ k = r / 2 ^ (level + 1)
    · obtain ⟨rfl, rfl⟩ := hlk
      rw [setNode_tree_self] at hn
      exact hnode n hn
    · rw [setNode_tree_of_ne (by omega)] at hn
      refine h.off l k n hl ?_ hn
      by_cases hll : l = level
      · subst hll
        exact .inr fun hk => hlk ⟨rfl, hk⟩
      · rcases hoff with hoff | hoff
        · exact .inl (by omega)
        · exact .inr hoff
  · intro l hl hl'
    rw [setNode_tree_of_ne (.inl (by omega))]
    exact h.on l (by omega) hl'
  · intro l k hl hk hn
    by_cases hlk : l = level ∧ k = r / 2 ^ (level + 1)
    · obtain ⟨rfl, rfl⟩ := hlk
      rw [setNode_tree_self] at hn
      exact (hgone hn).2
    · rw [setNode_tree_of_ne (by omega)] at hn
      exact h.gone l k hl hk hn
  · intro l k n hl hn
    by_cases hlk : l = level ∧ k = r / 2 ^ (level + 1)
    · obtain ⟨rfl, rfl⟩ := hlk
      obtain ⟨old, hold, -⟩ := h.on l le_rfl hl
      exact h.bounded l _ old hl hold
    · rw [setNode_tree_of_ne (by omega)] at hn
      exact h.bounded l k n hl hn
  · by_cases htop : c.treeDepth = level + 1 ∧ 0 = r / 2 ^ (level + 1)
    · intro hn
      change (c.setNode (level + 1) (r / 2 ^ (level + 1)) node).tree c.treeDepth 0 = none at hn
      rw [htop.1, ← htop.2, setNode_tree_self] at hn
      have := (hgone hn).1
      omega
    · change (c.setNode (level + 1) (r / 2 ^ (level + 1)) node).tree c.treeDepth 0 ≠ none
      rw [setNode_tree_of_ne (by omega)]
      exact h.root

/-- `updateSum` on the path of `r`, from the layer `level` on: the tree gets right for the new set
of live accesses, and the distance is the number of live accesses after `r`. -/
theorem updateSum_ok (hagree : ∀ i, i ≠ r → (i ∈ live ↔ i ∈ live')) :
    ∀ (layers : ℕ) {c : StackDistCalc} {level : ℕ} {discard : Bool}, 0 < layers →
      level + layers = c.treeDepth → (r ∈ live ∨ c.index ≤ r) →
      (c.verifyStack = true → c.treeDepth ≤ 32) → OnPath c live live' r level →
      (discard = true → Done c.index live' level (r / 2 ^ level)) →
      ∃ t, updateSum layers c level (r / 2 ^ (level + 1)) (r / 2 ^ level % 2 == 0)
          (blockCount live' level (r / 2 ^ level)) (aboveCount live' r level) discard =
            .ok (aboveCount live' r c.treeDepth, { c with tree := t }) ∧
        t 0 = c.tree 0 ∧ OnPath { c with tree := t } live live' r c.treeDepth
  | 0, _, _, _, hpos, _, _, _, _, _ => absurd hpos (lt_irrefl _)
  | layers + 1, c, level, discard, _, hlayers, hr, hv, hpath, hdiscard => by
    obtain ⟨node, hnode, hok⟩ := hpath.on level le_rfl (by omega)
    have hleft : c.checkSum (level + 1) node.sumLeft "Error in sum left of level" = .ok () :=
      checkSum_ok (fun h => by have := hv h; omega) (hok.sumLeft ▸ blockCount_le _ _ _)
    have hright : c.checkSum (level + 1) node.sumRight "Error in sum right of level" = .ok () :=
      checkSum_ok (fun h => by have := hv h; omega) (hok.sumRight ▸ blockCount_le _ _ _)
    have hnew := hok.updated hagree hr hdiscard
    have habove := above_step hok hagree
    rw [updateSum, nodeAt_eq_ok hnode, ok_bind, hleft, ok_bind, hright, ok_bind]
    dsimp only
    rw [habove]
    set node' := node.updated (r / 2 ^ level % 2 == 0) (blockCount live' level (r / 2 ^ level))
      discard with hnode'
    have hdone : (node'.discardLeft && node'.discardRight && discard && node'.parent.isSome &&
        blockCount live' level (r / 2 ^ level) == 0) = true →
        level + 1 < c.treeDepth ∧ Done c.index live' (level + 1) (r / 2 ^ (level + 1)) := by
      intro hd
      simp only [Bool.and_eq_true] at hd
      obtain ⟨⟨⟨⟨h1, h2⟩, -⟩, h3⟩, -⟩ := hd
      refine ⟨?_, (hnew.discardLeft h1).join (hnew.discardRight h2)⟩
      by_contra hge
      rw [hnew.parent, if_neg hge] at h3
      cases h3
    generalize hdis : (node'.discardLeft && node'.discardRight && discard && node'.parent.isSome &&
        blockCount live' level (r / 2 ^ level) == 0) = discard' at hdone ⊢
    have hpath' := hpath.up (by omega)
      (fun n (hn : (if discard' = true then none else some node') = some n) => by
        split_ifs at hn
        cases hn
        exact hnew)
      (fun hn => by
        split_ifs at hn with hd
        exact hdone hd)
    rw [hnew.parent, hnew.sum]
    by_cases htop : level + 1 < c.treeDepth
    · rw [if_pos htop]
      dsimp only
      rw [hnew.isLeft, ← div_pow_succ]
      obtain ⟨t, ht, ht0, hpt⟩ := updateSum_ok hagree layers (c := c.setNode (level + 1)
        (r / 2 ^ (level + 1)) (if discard' = true then none else some node'))
        (by omega) (by change level + 1 + layers = c.treeDepth; omega) hr hv hpath'
        fun hd => (hdone hd).2
      refine ⟨t, ht, ht0.trans ?_, hpt⟩
      funext k
      exact setNode_tree_of_ne (.inl (by omega))
    · rw [if_neg htop]
      have hdepth : level + 1 = c.treeDepth := by omega
      refine ⟨_, by rw [hdepth]; rfl, ?_, hdepth ▸ hpath'⟩
      funext k
      exact setNode_tree_of_ne (.inl (by omega))

theorem getSum_ok : ∀ (layers : ℕ) {level : ℕ}, 0 < layers → level + layers = c.treeDepth →
    (∀ l, level ≤ l → l < c.treeDepth → ∃ node, c.tree (l + 1) (r / 2 ^ (l + 1)) = some node ∧
      NodeOk c.treeDepth c.index live l (r / 2 ^ (l + 1)) node) →
    getSum layers c level (r / 2 ^ (level + 1)) (r / 2 ^ level % 2 == 0)
      (aboveCount live r level) = .ok (aboveCount live r c.treeDepth)
  | 0, _, hpos, _, _ => absurd hpos (lt_irrefl _)
  | layers + 1, level, _, hlayers, hpath => by
    obtain ⟨node, hnode, hok⟩ := hpath level le_rfl (by omega)
    rw [getSum, nodeAt_eq_ok hnode, ok_bind]
    dsimp only
    rw [above_step hok fun _ _ => Iff.rfl, hok.parent]
    by_cases htop : level + 1 < c.treeDepth
    · rw [if_pos htop]
      dsimp only
      rw [hok.isLeft, ← div_pow_succ]
      exact getSum_ok layers (by omega) (by omega) fun l hl hl' => hpath l (by omega) hl'
    · rw [if_neg htop]
      have hdepth : level + 1 = c.treeDepth := by omega
      rw [hdepth]

/-! ### The tree -/

/-- The tree with the leaves of the live accesses. -/
structure Tree (c : StackDistCalc) (live : Finset ℕ) : Prop where
  depth_pos : 0 < c.treeDepth
  nodes : ∀ l k node, l < c.treeDepth → c.tree (l + 1) k = some node →
    NodeOk c.treeDepth c.index live l k node
  gone : ∀ l k, l < c.treeDepth → k < c.nextIndex (l + 1) → c.tree (l + 1) k = none →
    Done c.index live (l + 1) k
  bounded : ∀ l k node, l < c.treeDepth → c.tree (l + 1) k = some node → k < c.nextIndex (l + 1)
  root : c.tree c.treeDepth 0 ≠ none
  leaf : ∀ i, c.tree 0 i ≠ none ↔ i ∈ live
  leafOk : ∀ i leaf, c.tree 0 i = some leaf →
    leaf.parent = some (i / 2) ∧ leaf.isLeftNode = (i % 2 == 0)
  lt : ∀ i ∈ live, i < c.index

/-- The layer `l` has the nodes for `m l` leaves. -/
def Slots (c : StackDistCalc) (m : ℕ → ℕ) : Prop :=
  ∀ l, l < c.treeDepth → c.nextIndex (l + 1) = (m (l + 1) - 1) / 2 ^ (l + 1) + 1

/-- The depth is right for `n` leaves. -/
def Deep (c : StackDistCalc) (n : ℕ) : Prop :=
  n ≤ 2 ^ c.treeDepth ∧ (c.treeDepth = 1 ∨ 2 ^ (c.treeDepth - 1) < n)

theorem Tree.path (h : Tree c live) {m : ℕ → ℕ} (hs : Slots c m) (hr : r ∈ live ∨ c.index ≤ r)
    (hm : ∀ l, l < c.treeDepth → r ≤ m (l + 1) - 1) (hl : l < c.treeDepth) :
    ∃ node, c.tree (l + 1) (r / 2 ^ (l + 1)) = some node ∧
      NodeOk c.treeDepth c.index live l (r / 2 ^ (l + 1)) node := by
  have hk : r / 2 ^ (l + 1) < c.nextIndex (l + 1) := by
    rw [hs l hl]
    exact Nat.lt_succ_of_le (Nat.div_le_div_right (hm l hl))
  cases hnode : c.tree (l + 1) (r / 2 ^ (l + 1)) with
  | some node => exact ⟨node, rfl, h.nodes l _ node hl hnode⟩
  | none =>
    obtain ⟨hlt, hmem⟩ := h.gone l _ hl hk hnode r rfl
    rcases hr with hr | hr
    · exact absurd hr hmem
    · omega

theorem sub_one_div_succ {p : ℕ} (hn : 0 < n) (h : n % p = 0) : (n - 1) / p + 1 = n / p := by
  obtain ⟨n, rfl⟩ : ∃ k, n = k + 1 := ⟨n - 1, by omega⟩
  rw [add_sub_cancel, Nat.succ_div, if_pos (Nat.dvd_of_mod_eq_zero h)]

theorem sub_one_div {p : ℕ} (h : n % p ≠ 0) : (n - 1) / p = n / p := by
  obtain ⟨n, rfl⟩ : ∃ k, n = k + 1 := ⟨n - 1, by
    have : n ≠ 0 := fun h0 => h (by rw [h0, Nat.zero_mod])
    omega⟩
  rw [add_sub_cancel, Nat.succ_div, if_neg fun hd => h (Nat.mod_eq_zero_of_dvd hd), add_zero]

/-- The layers above `i` are ready for one more leaf, the others are not yet. -/
def slotsAbove (n i : ℕ) : ℕ → ℕ := fun l => if i < l then n + 1 else n

theorem slotsAbove_skip (hs : Slots c (slotsAbove n (i + 1))) (hdue : n % 2 ^ (i + 1) ≠ 0) :
    Slots c (slotsAbove n i) := by
  intro l hl
  rw [hs l hl]
  unfold slotsAbove
  by_cases hli : l = i
  · subst hli
    rw [if_neg (lt_irrefl _), if_pos (by omega), sub_one_div hdue, add_sub_cancel]
  · congr 3
    by_cases hlt : i < l
    · rw [if_pos (by omega), if_pos (by omega)]
    · rw [if_neg (by omega), if_neg (by omega)]

/-- What the operations on the tree leave alone. -/
def Frame (c c' : StackDistCalc) : Prop :=
  c'.verifyStack = c.verifyStack ∧ c'.index = c.index ∧ c'.aiMap = c.aiMap ∧ c'.stack = c.stack

variable {c' : StackDistCalc}

theorem Frame.trans {c'' : StackDistCalc} (h : Frame c c') (h' : Frame c' c'') : Frame c c'' :=
  ⟨h'.1.trans h.1, h'.2.1.trans h.2.1, h'.2.2.1.trans h.2.2.1, h'.2.2.2.trans h.2.2.2⟩

theorem addINode_nextIndex_self (c : StackDistCalc) (i : ℕ) :
    (c.addINode i).nextIndex i = c.nextIndex i + 1 :=
  update_self ..

theorem addINode_nextIndex_of_ne (c : StackDistCalc) (h : l ≠ i) :
    (c.addINode i).nextIndex l = c.nextIndex l :=
  update_of_ne h ..

/-- A new node for the block that starts with the next access. -/
theorem addINode_ok (h : Tree c live) (hi : i + 1 < c.treeDepth)
    (hs : Slots c (slotsAbove c.index (i + 1))) (hpos : 0 < c.index)
    (hdue : c.index % 2 ^ (i + 1) = 0) :
    Tree (c.addINode (i + 1)) live ∧ Slots (c.addINode (i + 1)) (slotsAbove c.index i) := by
  have hidx : c.nextIndex (i + 1) = c.index / 2 ^ (i + 1) := by
    rw [hs i (by omega), slotsAbove, if_neg (lt_irrefl _), sub_one_div_succ hpos hdue]
  have hnext : c.nextIndex (i + 1 + 1) - 1 = c.index / 2 ^ (i + 1 + 1) := by
    rw [hs (i + 1) hi, slotsAbove, if_pos (by omega), add_sub_cancel, add_sub_cancel]
  -- the block above is not over, as the next access is in it
  have hparent : c.pointer (i + 1 + 1) (c.nextIndex (i + 1 + 1) - 1) =
      some (c.nextIndex (i + 1) / 2) := by
    cases hnode : c.tree (i + 1 + 1) (c.index / 2 ^ (i + 1 + 1)) with
    | some node => rw [hnext, pointer, hnode, hidx, ← div_pow_succ, Option.map_some]
    | none =>
      have hdone := h.gone (i + 1) _ hi (by
        rw [hs (i + 1) hi, slotsAbove, if_pos (by omega), add_sub_cancel]
        omega) hnode
      have := (hdone c.index rfl).1
      omega
  have hempty : ∀ j, j / 2 ^ (i + 1) = c.nextIndex (i + 1) → j ∉ live := by
    intro j hj hmem
    have hlt := h.lt j hmem
    rw [hidx] at hj
    have hle := Nat.div_mul_le_self j (2 ^ (i + 1))
    rw [hj, Nat.div_mul_cancel (Nat.dvd_of_mod_eq_zero hdue)] at hle
    omega
  have hzero : ∀ j, j / 2 = c.nextIndex (i + 1) → blockCount live i j = 0 := by
    intro j hj
    refine blockCount_eq_zero.2 fun x hx => hempty x ?_
    rw [div_pow_succ, hx, hj]
  have hok : NodeOk c.treeDepth c.index live i (c.nextIndex (i + 1))
      { isLeftNode := c.nextIndex (i + 1) % 2 == 0
        parent := c.pointer (i + 1 + 1) (c.nextIndex (i + 1 + 1) - 1) } := by
    refine ⟨by rw [if_pos hi]; exact hparent, rfl, ?_, ?_, fun hd => absurd hd Bool.false_ne_true,
      fun hd => absurd hd Bool.false_ne_true⟩
    · exact (hzero _ (by omega)).symm
    · exact (hzero _ (by omega)).symm
  constructor
  · refine ⟨h.depth_pos, fun l k node hl hnode => ?_, fun l k hl hk hnode => ?_,
      fun l k node hl hnode => ?_, ?_, fun j => ?_, fun j leaf hleaf => ?_, h.lt⟩
    · by_cases hlk : l = i ∧ k = c.nextIndex (i + 1)
      · obtain ⟨rfl, rfl⟩ := hlk
        rw [addINode, setNode_tree_self] at hnode
        cases hnode
        exact hok
      · rw [addINode, setNode_tree_of_ne (by omega)] at hnode
        exact h.nodes l k node hl hnode
    · by_cases hlk : l = i ∧ k = c.nextIndex (i + 1)
      · obtain ⟨rfl, rfl⟩ := hlk
        rw [addINode, setNode_tree_self] at hnode
        cases hnode
      · rw [addINode, setNode_tree_of_ne (by omega)] at hnode
        refine h.gone l k hl ?_ hnode
        by_cases hli : l = i
        · subst hli
          rw [addINode_nextIndex_self] at hk
          omega
        · rwa [addINode_nextIndex_of_ne c (by omega)] at hk
    · by_cases hlk : l = i ∧ k = c.nextIndex (i + 1)
      · obtain ⟨rfl, rfl⟩ := hlk
        rw [addINode_nextIndex_self]
        omega
      · rw [addINode, setNode_tree_of_ne (by omega)] at hnode
        have hlt := h.bounded l k node hl hnode
        by_cases hli : l = i
        · subst hli
          rw [addINode_nextIndex_self]
          omega
        · rwa [addINode_nextIndex_of_ne c (by omega)]
    · change (c.addINode (i + 1)).tree c.treeDepth 0 ≠ none
      rw [addINode, setNode_tree_of_ne (by omega)]
      exact h.root
    · rw [addINode, setNode_tree_of_ne (by omega)]
      exact h.leaf j
    · rw [addINode, setNode_tree_of_ne (by omega)] at hleaf
      exact h.leafOk j leaf hleaf
  · intro l hl
    by_cases hli : l = i
    · subst hli
      rw [addINode_nextIndex_self, hidx, slotsAbove, if_pos (by omega), add_sub_cancel]
    · rw [addINode_nextIndex_of_ne c (by omega), hs l hl]
      unfold slotsAbove
      by_cases hlt : i + 1 < l + 1
      · rw [if_pos hlt, if_pos (by omega)]
      · rw [if_neg hlt, if_neg (by omega)]

theorem addINode_frame (c : StackDistCalc) (i : ℕ) :
    Frame c (c.addINode i) ∧ (c.addINode i).treeDepth = c.treeDepth :=
  ⟨⟨rfl, rfl, rfl, rfl⟩, rfl⟩

theorem addINodes_ok : ∀ (i : ℕ) {c : StackDistCalc}, Tree c live → i < c.treeDepth →
    Slots c (slotsAbove c.index i) → 0 < c.index → (∀ l, l ≤ i → c.index % 2 ^ l = 0) →
    Tree (addINodes i c) live ∧ Slots (addINodes i c) (slotsAbove c.index 0) ∧
      Frame c (addINodes i c) ∧ (addINodes i c).treeDepth = c.treeDepth
  | 0, c, h, _, hs, _, _ => ⟨h, hs, ⟨rfl, rfl, rfl, rfl⟩, rfl⟩
  | i + 1, c, h, hi, hs, hpos, hdue => by
    obtain ⟨h₁, hs₁⟩ := addINode_ok h hi hs hpos (hdue (i + 1) le_rfl)
    obtain ⟨hT, hS, hF, hd⟩ := addINodes_ok i h₁ (show i < c.treeDepth by omega) hs₁ hpos
      fun l hl => hdue l (by omega)
    exact ⟨hT, hS, (addINode_frame c (i + 1)).1.trans hF, hd⟩

theorem addDueINodes_ok : ∀ (i : ℕ) {c : StackDistCalc}, Tree c live → i < c.treeDepth →
    Slots c (slotsAbove c.index i) → 0 < c.index →
    (∀ l, l ≤ i → ∃ width, shiftOne l = .ok width ∧
      (c.index % width = 0 ↔ c.index % 2 ^ l = 0)) →
    ∃ c', addDueINodes i c = .ok c' ∧ Tree c' live ∧ Slots c' (slotsAbove c.index 0) ∧
      Frame c c' ∧ c'.treeDepth = c.treeDepth
  | 0, c, h, _, hs, _, _ => ⟨c, rfl, h, hs, ⟨rfl, rfl, rfl, rfl⟩, rfl⟩
  | i + 1, c, h, hi, hs, hpos, hdue => by
    obtain ⟨width, hw, hiff⟩ := hdue (i + 1) le_rfl
    rw [addDueINodes, hw, ok_bind]
    by_cases hz : c.index % 2 ^ (i + 1) = 0
    · rw [if_pos (by rw [beq_iff_eq]; exact hiff.2 hz)]
      obtain ⟨h₁, hs₁⟩ := addINode_ok h hi hs hpos hz
      obtain ⟨c', hc', hT, hS, hF, hd⟩ := addDueINodes_ok i h₁
        (show i < c.treeDepth by omega) hs₁ hpos fun l hl => hdue l (by omega)
      exact ⟨c', hc', hT, hS, (addINode_frame c (i + 1)).1.trans hF, hd⟩
    · rw [if_neg (by rw [beq_iff_eq]; exact fun hw0 => hz (hiff.1 hw0))]
      exact addDueINodes_ok i h (by omega) (slotsAbove_skip hs hz) hpos
        fun l hl => hdue l (by omega)

theorem raiseRoot_tree_top (c : StackDistCalc) (old : StackNode) (k : ℕ) :
    (c.raiseRoot old).tree (c.treeDepth + 1) k = if k = 0 then some (rootOver old) else none := by
  rw [raiseRoot, setNode_tree_of_ne (.inl (by omega))]
  simp [update_apply]

theorem raiseRoot_tree_old (c : StackDistCalc) (old : StackNode) :
    (c.raiseRoot old).tree c.treeDepth 0 = some { old with parent := some 0 } := by
  rw [raiseRoot, add_sub_cancel, setNode_tree_self]
  simp [pointer]

theorem raiseRoot_tree_of_ne (c : StackDistCalc) (old : StackNode) (htop : l ≠ c.treeDepth + 1)
    (h : l ≠ c.treeDepth ∨ k ≠ 0) : (c.raiseRoot old).tree l k = c.tree l k := by
  rw [raiseRoot, setNode_tree_of_ne (by omega)]
  simp [update_of_ne htop]

theorem raiseRoot_nextIndex_top (c : StackDistCalc) (old : StackNode) :
    (c.raiseRoot old).nextIndex (c.treeDepth + 1) = 1 :=
  update_self ..

theorem raiseRoot_nextIndex_of_ne (c : StackDistCalc) (old : StackNode) (h : l ≠ c.treeDepth + 1) :
    (c.raiseRoot old).nextIndex l = c.nextIndex l :=
  update_of_ne h ..

theorem rootOver_ok {old : StackNode} (hlt : ∀ i ∈ live, i < 2 ^ (depth + 1))
    (hok : NodeOk (depth + 1) n live depth 0 old) :
    NodeOk (depth + 2) n live (depth + 1) 0 (rootOver old) := by
  refine ⟨by rw [if_neg (lt_irrefl _)]; rfl, rfl, ?_, ?_, fun hd => ?_,
    fun hd => absurd hd Bool.false_ne_true⟩
  · exact (Nat.add_comm _ _).trans hok.sum
  · refine (blockCount_eq_zero.2 fun i hi hmem => ?_).symm
    rw [div_eq_of_lt (hlt i hmem)] at hi
    omega
  · obtain ⟨h1, h2⟩ := Bool.and_eq_true_iff.1 hd
    exact (hok.discardLeft h1).join (hok.discardRight h2)

theorem NodeOk.deeper (h : NodeOk depth n live l k node) (hl : l + 1 < depth) :
    NodeOk (depth + 1) n live l k node :=
  ⟨by rw [h.parent, if_pos hl, if_pos (by omega)], h.isLeft, h.sumLeft, h.sumRight, h.discardLeft,
    h.discardRight⟩

/-- The root moves up when all its leaves are taken. -/
theorem raiseRoot_ok {old : StackNode} (h : Tree c live) (hs : Slots c fun _ => c.index)
    (hfull : c.index = 2 ^ c.treeDepth) (hold : c.tree c.treeDepth 0 = some old) :
    Tree (c.raiseRoot old) live ∧ Slots (c.raiseRoot old) (slotsAbove c.index c.treeDepth) := by
  obtain ⟨d, hd⟩ : ∃ d, c.treeDepth = d + 1 := ⟨c.treeDepth - 1, by have := h.depth_pos; omega⟩
  have hok := h.nodes d 0 old (by omega) (by rw [← hd, hold])
  have hone : c.nextIndex c.treeDepth = 1 := by
    have hnext := hs d (by omega)
    rw [← hd, hfull, div_eq_of_lt (Nat.sub_lt (by positivity) one_pos)] at hnext
    exact hnext
  constructor
  · refine ⟨Nat.succ_pos _, fun l k node hl hnode => ?_, fun l k hl hk hnode => ?_,
      fun l k node hl hnode => ?_, ?_, fun j => ?_, fun j leaf hleaf => ?_, h.lt⟩
    · change NodeOk (c.treeDepth + 1) c.index live l k node
      change l < c.treeDepth + 1 at hl
      by_cases htop : l = c.treeDepth
      · subst htop
        rw [raiseRoot_tree_top] at hnode
        split_ifs at hnode with hk
        cases hnode
        subst hk
        rw [hd] at hok ⊢
        exact rootOver_ok (fun i hi => by rw [← hd, ← hfull]; exact h.lt i hi) hok
      · by_cases hlk : l = d ∧ k = 0
        · obtain ⟨rfl, rfl⟩ := hlk
          rw [← hd, raiseRoot_tree_old] at hnode
          cases hnode
          exact ⟨by rw [if_pos (by omega)], hok.isLeft, hok.sumLeft, hok.sumRight,
            hok.discardLeft, hok.discardRight⟩
        · rw [raiseRoot_tree_of_ne _ _ (by omega) (by omega)] at hnode
          have hlow := h.bounded l k node (by omega) hnode
          by_cases hld : l = d
          · subst hld
            rw [← hd, hone] at hlow
            omega
          · exact (h.nodes l k node (by omega) hnode).deeper (by omega)
    · change l < c.treeDepth + 1 at hl
      by_cases htop : l = c.treeDepth
      · subst htop
        rw [raiseRoot_nextIndex_top] at hk
        rw [raiseRoot_tree_top, if_pos (by omega)] at hnode
        cases hnode
      · rw [raiseRoot_nextIndex_of_ne _ _ (by omega)] at hk
        by_cases hlk : l = d ∧ k = 0
        · obtain ⟨rfl, rfl⟩ := hlk
          rw [← hd, raiseRoot_tree_old] at hnode
          cases hnode
        · rw [raiseRoot_tree_of_ne _ _ (by omega) (by omega)] at hnode
          exact h.gone l k (by omega) hk hnode
    · change l < c.treeDepth + 1 at hl
      by_cases htop : l = c.treeDepth
      · subst htop
        rw [raiseRoot_tree_top] at hnode
        split_ifs at hnode with hk
        rw [raiseRoot_nextIndex_top]
        omega
      · rw [raiseRoot_nextIndex_of_ne _ _ (by omega)]
        by_cases hlk : l = d ∧ k = 0
        · obtain ⟨rfl, rfl⟩ := hlk
          rw [← hd, hone]
          exact one_pos
        · rw [raiseRoot_tree_of_ne _ _ (by omega) (by omega)] at hnode
          exact h.bounded l k node (by omega) hnode
    · change (c.raiseRoot old).tree (c.treeDepth + 1) 0 ≠ none
      rw [raiseRoot_tree_top, if_pos rfl]
      exact Option.some_ne_none _
    · rw [raiseRoot_tree_of_ne _ _ (by omega) (by omega)]
      exact h.leaf j
    · rw [raiseRoot_tree_of_ne _ _ (by omega) (by omega)] at hleaf
      exact h.leafOk j leaf hleaf
  · intro l hl
    change l < c.treeDepth + 1 at hl
    by_cases htop : l = c.treeDepth
    · subst htop
      rw [raiseRoot_nextIndex_top, slotsAbove, if_pos (by omega), add_sub_cancel, hfull,
        div_eq_of_lt (Nat.pow_lt_pow_right (by omega) (by omega))]
    · rw [raiseRoot_nextIndex_of_ne _ _ (by omega), hs l (by omega), slotsAbove,
        if_neg (by omega)]

theorem isPowerOf2_iff : isPowerOf2 n = true ↔ ∃ k, n = 2 ^ k := by
  have hpow := Nat.ne_zero_and_sub_one_eq_zero_iff_isPowerOfTwo (n := n)
  rw [Nat.isPowerOfTwo] at hpow
  rw [← hpow]
  simp [isPowerOf2]

theorem Deep.full (h : Deep c n) (heven : n % 2 = 0) (hdepth : 0 < c.treeDepth)
    (hp : isPowerOf2 n = true) : n = 2 ^ c.treeDepth := by
  obtain ⟨k, rfl⟩ := isPowerOf2_iff.1 hp
  have hle : k ≤ c.treeDepth := (Nat.pow_le_pow_iff_right (by omega)).1 h.1
  rcases h.2 with h1 | h1
  · have hk : k ≠ 0 := by
      rintro rfl
      omega
    have : k = c.treeDepth := by omega
    rw [this]
  · have hlt : c.treeDepth - 1 < k := (Nat.pow_lt_pow_iff_right (by omega)).1 h1
    have : k = c.treeDepth := by omega
    rw [this]

theorem shiftOne_due (h : Deep c n) (hdepth : c.treeDepth ≤ 32) (hp : isPowerOf2 n = false)
    (hi : i < c.treeDepth) : ∃ width, shiftOne i = .ok width ∧ (n % width = 0 ↔ n % 2 ^ i = 0) := by
  unfold shiftOne
  split_ifs with h1 h2
  · exact ⟨_, rfl, Iff.rfl⟩
  · subst h2
    have hd : c.treeDepth = 32 := by omega
    have hlow := h.2.resolve_left (by omega)
    have hhigh := h.1
    rw [hd] at hlow hhigh
    have hne : n ≠ 2 ^ 32 := fun he => by
      have := isPowerOf2_iff.2 ⟨32, he⟩
      rw [hp] at this
      cases this
    norm_num at hlow hhigh hne
    refine ⟨_, rfl, ?_⟩
    norm_num
    omega
  · omega

theorem Deep.lt_full (h : Deep c n) (hp : isPowerOf2 n = false) : n < 2 ^ c.treeDepth := by
  refine lt_of_le_of_ne h.1 fun he => ?_
  have := isPowerOf2_iff.2 ⟨_, he⟩
  rw [hp] at this
  cases this

/-- The tree, with its nodes and its depth for the accesses so far. -/
structure Inv (c : StackDistCalc) (live : Finset ℕ) : Prop where
  tree : Tree c live
  slots : Slots c fun _ => c.index
  deep : Deep c c.index

theorem Inv.next (h : Inv c live) (hl : l < c.treeDepth) :
    c.nextIndex (l + 1) = (c.index - 1) / 2 ^ (l + 1) + 1 :=
  h.slots l hl

theorem Deep.depth_le (h : Deep c n) (hn : n ≤ 2 ^ 32) : c.treeDepth ≤ 32 := by
  rcases h.2 with h1 | h1
  · omega
  · have hlt : c.treeDepth - 1 < 32 := (Nat.pow_lt_pow_iff_right (a := 2) (by omega)).1
      (lt_of_lt_of_le h1 hn)
    omega

theorem updateTree_ok (h : Inv c live) (heven : c.index % 2 = 0) (hn : c.index < 2 ^ 32) :
    ∃ c', c.updateTree = .ok c' ∧ Tree c' live ∧ Slots c' (fun _ => c.index + 1) ∧
      Deep c' (c.index + 1) ∧ Frame c c' := by
  have hpos := h.tree.depth_pos
  have hall : ∀ {c' : StackDistCalc}, Slots c' (slotsAbove c.index 0) →
      Slots c' fun _ => c.index + 1 := fun hs l hl => by
    rw [hs l hl, slotsAbove, if_pos (by omega)]
  unfold updateTree
  cases hp : isPowerOf2 c.index with
  | true =>
    have hfull := h.deep.full heven hpos hp
    obtain ⟨old, hold⟩ := Option.ne_none_iff_exists'.1 h.tree.root
    obtain ⟨hT, hS⟩ := raiseRoot_ok h.tree h.slots hfull hold
    obtain ⟨hT', hS', hF, hd⟩ := addINodes_ok c.treeDepth hT (Nat.lt_succ_self _) hS
      (by change 0 < c.index; rw [hfull]; positivity) fun l hl => by
        change c.index % 2 ^ l = 0
        rw [hfull]
        exact Nat.mod_eq_zero_of_dvd (pow_dvd_pow 2 hl)
    refine ⟨addINodes c.treeDepth (c.raiseRoot old), ?_, hT', hall hS', ?_, hF⟩
    · rw [if_pos rfl, addRoot, nodeAt_eq_ok hold]
      rfl
    · have hdepth : (addINodes c.treeDepth (c.raiseRoot old)).treeDepth = c.treeDepth + 1 := hd
      refine ⟨?_, .inr ?_⟩
      · rw [hdepth, hfull, pow_succ]
        have : 0 < 2 ^ c.treeDepth := by positivity
        omega
      · rw [hdepth, hfull, add_sub_cancel]
        omega
  | false =>
    have hlt := h.deep.lt_full hp
    rw [if_neg Bool.false_ne_true]
    by_cases hzero : c.index = 0
    · have hone : c.treeDepth = 1 :=
        h.deep.2.resolve_right (by rw [hzero]; exact Nat.not_lt_zero _)
      refine ⟨c, by rw [hone]; rfl, h.tree, fun l hl => ?_, ⟨by omega, .inl hone⟩, rfl, rfl, rfl,
        rfl⟩
      rw [h.next hl, hzero]
      rfl
    · have hs : Slots c (slotsAbove c.index (c.treeDepth - 1)) := by
        intro l hl
        rw [h.next hl, slotsAbove]
        by_cases htop : l + 1 = c.treeDepth
        · rw [if_pos (by omega), htop, add_sub_cancel, div_eq_of_lt (by omega),
            div_eq_of_lt hlt]
        · rw [if_neg (by omega)]
      obtain ⟨c', hc', hT, hS, hF, hd⟩ := addDueINodes_ok (c.treeDepth - 1) h.tree (by omega) hs
        (by omega) fun l hl => shiftOne_due h.deep (h.deep.depth_le hn.le) hp (by omega)
      refine ⟨c', hc', hT, hall hS, ?_, hF⟩
      unfold Deep
      rw [hd]
      refine ⟨by omega, ?_⟩
      rcases h.deep.2 with h1 | h1
      · exact .inl h1
      · exact .inr (by omega)

theorem growTree_ok (h : Inv c live) (hn : c.index < 2 ^ 32) :
    ∃ c', c.growTree = .ok c' ∧ Tree c' live ∧ Slots c' (fun _ => c.index + 1) ∧
      Deep c' (c.index + 1) ∧ Frame c c' := by
  unfold growTree
  by_cases heven : c.index % 2 = 0
  · rw [if_pos (by simp [heven])]
    exact updateTree_ok h heven hn
  · rw [if_neg (by simp [heven])]
    refine ⟨c, rfl, h.tree, fun l hl => ?_, ⟨?_, ?_⟩, rfl, rfl, rfl, rfl⟩
    · rw [h.next hl, add_sub_cancel, sub_one_div]
      intro hz
      rw [pow_succ] at hz
      have hdvd := Nat.dvd_trans (Dvd.intro_left (2 ^ l) rfl) (Nat.dvd_of_mod_eq_zero hz)
      omega
    · -- an odd number below an even one
      have hle := h.deep.1
      obtain ⟨d, hd⟩ : ∃ d, c.treeDepth = d + 1 :=
        ⟨c.treeDepth - 1, by have := h.tree.depth_pos; omega⟩
      rw [hd, pow_succ] at hle ⊢
      omega
    · rcases h.deep.2 with h1 | h1
      · exact .inl h1
      · exact .inr (by omega)

/-! ### Leaves -/

theorem Tree.onPath (h : Tree c live) (hagree : ∀ i, i ≠ r → (i ∈ live ↔ i ∈ live'))
    (hr : r ∈ live ∨ c.index ≤ r)
    (hpath : ∀ l, l < c.treeDepth → ∃ node, c.tree (l + 1) (r / 2 ^ (l + 1)) = some node ∧
      NodeOk c.treeDepth c.index live l (r / 2 ^ (l + 1)) node) : OnPath c live live' r 0 := by
  refine ⟨fun l k node hl hoff hnode => ?_, fun l _ hl => hpath l hl, fun l k hl hk hnode => ?_,
    h.bounded, h.root⟩
  · have hk : k ≠ r / 2 ^ (l + 1) := hoff.resolve_left (by omega)
    refine (h.nodes l k node hl hnode).congr fun i hi => hagree i ?_
    rintro rfl
    exact hk hi.symm
  · have hdone := h.gone l k hl hk hnode
    refine hdone.congr fun i hi => hagree i ?_
    rintro rfl
    obtain ⟨hlt, hmem⟩ := hdone i hi
    rcases hr with hr | hr
    · exact hmem hr
    · omega

theorem OnPath.tree (h : OnPath c live live' r c.treeDepth) (leaves : ℕ → Option StackNode)
    (hpos : 0 < c.treeDepth) (hn : c.index ≤ n) (hleaf : ∀ i, leaves i ≠ none ↔ i ∈ live')
    (hleafOk : ∀ i leaf, leaves i = some leaf →
      leaf.parent = some (i / 2) ∧ leaf.isLeftNode = (i % 2 == 0)) (hlt : ∀ i ∈ live', i < n) :
    Tree { c with tree := update c.tree 0 leaves, index := n } live' := by
  have hup : ∀ l, (update c.tree 0 leaves) (l + 1) = c.tree (l + 1) :=
    fun l => update_of_ne (succ_ne_zero l) ..
  refine ⟨hpos, fun l k node hl hnode => ?_, fun l k hl hk hnode => ?_, fun l k node hl hnode => ?_,
    ?_, fun i => ?_, fun i leaf hi => ?_, hlt⟩
  · dsimp only at hnode
    rw [hup] at hnode
    exact (h.off l k node hl (.inl hl) hnode).mono hn
  · dsimp only at hnode
    rw [hup] at hnode
    exact (h.gone l k hl hk hnode).mono hn
  · dsimp only at hnode
    rw [hup] at hnode
    exact h.bounded l k node hl hnode
  · obtain ⟨d, hd⟩ : ∃ d, c.treeDepth = d + 1 := ⟨c.treeDepth - 1, by omega⟩
    have hroot := h.root
    dsimp only
    rw [hd, hup, ← hd]
    exact hroot
  · dsimp only
    rw [update_self]
    exact hleaf i
  · dsimp only at hi
    rw [update_self] at hi
    exact hleafOk i leaf hi

theorem OnPath.congr (h : OnPath c live live' r level) (hpos : 0 < c.treeDepth)
    (hdepth : c'.treeDepth = c.treeDepth) (hindex : c'.index = c.index)
    (htree : ∀ l k, c'.tree (l + 1) k = c.tree (l + 1) k)
    (hnext : ∀ l, c'.nextIndex (l + 1) = c.nextIndex (l + 1)) : OnPath c' live live' r level := by
  refine ⟨fun l k node hl hoff hnode => ?_, fun l hl hl' => ?_, fun l k hl hk hnode => ?_,
    fun l k node hl hnode => ?_, ?_⟩
  · rw [hdepth, hindex]
    exact h.off l k node (hdepth ▸ hl) hoff (by rw [← htree, hnode])
  · rw [hdepth, hindex, htree]
    exact h.on l hl (hdepth ▸ hl')
  · rw [hindex]
    exact h.gone l k (hdepth ▸ hl) (hnext l ▸ hk) (by rw [← htree, hnode])
  · rw [hnext]
    exact h.bounded l k node (hdepth ▸ hl) (by rw [← htree, hnode])
  · obtain ⟨d, hd⟩ : ∃ d, c.treeDepth = d + 1 := ⟨c.treeDepth - 1, by omega⟩
    rw [hdepth, hd, htree, ← hd]
    exact h.root

theorem updateSumsLeavesToRoot_ok (isNewLeaf : Bool) (h : OnPath c live live' r 0)
    (hpos : 0 < c.treeDepth) (hagree : ∀ i, i ≠ r → (i ∈ live ↔ i ∈ live'))
    (hr : r ∈ live ∨ c.index ≤ r) (hv : c.verifyStack = true → c.treeDepth ≤ 32)
    (hleaf : c.tree 0 r = some leaf) (hparent : leaf.parent = some (r / 2))
    (hleft : leaf.isLeftNode = (r % 2 == 0)) (hnew : r ∈ live' ↔ isNewLeaf = true)
    (hold : isNewLeaf = false → r < c.index) :
    ∃ t, c.updateSumsLeavesToRoot r isNewLeaf =
        .ok (if isNewLeaf then Infinity else aboveCount live' r c.treeDepth, { c with tree := t }) ∧
      t 0 = update (c.tree 0) r
        (some { leaf with sumLeft := if isNewLeaf then 1 else 0 }) ∧
      OnPath { c with tree := t } live live' r c.treeDepth := by
  set c₁ := c.setNode 0 r (some { leaf with sumLeft := if isNewLeaf then 1 else 0 }) with hc₁
  have hpath : OnPath c₁ live live' r 0 := h.congr hpos rfl rfl
    (fun l k => setNode_tree_of_ne (.inl (succ_ne_zero l))) fun _ => rfl
  have hdone : (!isNewLeaf) = true → Done c₁.index live' 0 (r / 2 ^ 0) := by
    intro hd i hi
    have hfalse : isNewLeaf = false := by simpa using hd
    rw [pow_zero, div_one, div_one] at hi
    subst hi
    refine ⟨hold hfalse, fun hmem => ?_⟩
    rw [hnew, hfalse] at hmem
    cases hmem
  obtain ⟨t, ht, ht0, hpt⟩ := updateSum_ok hagree c.treeDepth (c := c₁) hpos (Nat.zero_add _) hr hv
    hpath hdone
  have hsum : blockCount live' 0 (r / 2 ^ 0) = if isNewLeaf then 1 else 0 := by
    rw [blockCount_zero, pow_zero, div_one]
    exact if_congr hnew rfl rfl
  rw [hsum, aboveCount_zero, zero_add, pow_one, pow_zero, div_one] at ht
  refine ⟨t, ?_, ht0.trans ?_, hpt⟩
  · have hderef : deref leaf.parent = .ok (r / 2) := by rw [hparent]; rfl
    rw [← hleft] at ht
    rw [updateSumsLeavesToRoot, nodeAt_eq_ok hleaf, ok_bind, hderef, ok_bind]
    change (updateSum c.treeDepth c₁ 0 (r / 2) leaf.isLeftNode (if isNewLeaf then 1 else 0) 0
      (!isNewLeaf) >>= _) = _
    rw [ht, ok_bind]
    rfl
  · rw [hc₁]
    simp [setNode]

theorem Inv.lt_depth (h : Inv c live) (hi : i ∈ live) : i < 2 ^ c.treeDepth :=
  (h.tree.lt i hi).trans_le h.deep.1

theorem Inv.path (h : Inv c live) (hr : r ∈ live) (hl : l < c.treeDepth) :
    ∃ node, c.tree (l + 1) (r / 2 ^ (l + 1)) = some node ∧
      NodeOk c.treeDepth c.index live l (r / 2 ^ (l + 1)) node :=
  h.tree.path h.slots (.inl hr) (fun _ _ => Nat.le_sub_one_of_lt (h.tree.lt r hr)) hl

theorem Inv.above (h : Inv c live) (hr : r ∈ live) :
    aboveCount live r c.treeDepth = (live.filter fun i => r < i).card :=
  aboveCount_of_lt (h.lt_depth hr) fun _ hi => h.lt_depth hi

theorem removeLeaf_ok (h : Inv c live) (hr : r ∈ live) (hn : c.index ≤ 2 ^ 32) :
    ∃ mark c', c.removeLeaf r = .ok (((live.filter fun i => r < i).card, mark), c') ∧
      Inv c' (live.erase r) ∧ Frame c c' := by
  have hagree : ∀ i, i ≠ r → (i ∈ live ↔ i ∈ live.erase r) := fun i hi => by
    rw [Finset.mem_erase, and_iff_right hi]
  obtain ⟨leaf, hleaf⟩ := Option.ne_none_iff_exists'.1 ((h.tree.leaf r).2 hr)
  obtain ⟨hparent, hleft⟩ := h.tree.leafOk r leaf hleaf
  obtain ⟨t, ht, ht0, hpath⟩ := updateSumsLeavesToRoot_ok false
    (h.tree.onPath hagree (.inl hr) fun l hl => h.path hr hl) h.tree.depth_pos hagree (.inl hr)
    (fun _ => h.deep.depth_le hn) hleaf hparent hleft (by simp) fun _ => h.tree.lt r hr
  have habove : aboveCount (live.erase r) r c.treeDepth = (live.filter fun i => r < i).card := by
    rw [aboveCount_of_lt (h.lt_depth hr) fun i hi => h.lt_depth (Finset.mem_of_mem_erase hi)]
    congr 1
    ext i
    simp only [Finset.mem_filter, Finset.mem_erase]
    constructor
    · rintro ⟨⟨-, hi⟩, hri⟩
      exact ⟨hi, hri⟩
    · rintro ⟨hi, hri⟩
      exact ⟨⟨by omega, hi⟩, hri⟩
  have hmark : ({ c with tree := t } : StackDistCalc).nodeAt 0 r =
      .ok { leaf with sumLeft := 0 } := by
    refine nodeAt_eq_ok ?_
    change t 0 r = _
    rw [ht0, update_self]
    rfl
  refine ⟨leaf.isMarked, ({ c with tree := t } : StackDistCalc).setNode 0 r none, ?_, ⟨?_, h.slots,
    h.deep⟩, rfl, rfl, rfl, rfl⟩
  · rw [removeLeaf, ht, ok_bind]
    dsimp only
    rw [hmark, ok_bind, habove]
    rfl
  · refine hpath.tree (n := c.index) (update (t 0) r none) h.tree.depth_pos le_rfl
      (fun i => ?_) (fun i lf hi => ?_) fun i hi => h.tree.lt i (Finset.mem_of_mem_erase hi)
    · change update (t 0) r none i ≠ none ↔ _
      by_cases hir : i = r
      · subst hir
        simp
      · rw [update_of_ne hir, ht0, update_of_ne hir, h.tree.leaf, hagree i hir]
    · change update (t 0) r none i = some lf at hi
      by_cases hir : i = r
      · subst hir
        simp at hi
      · rw [update_of_ne hir, ht0, update_of_ne hir] at hi
        exact h.tree.leafOk i lf hi

theorem sanityClimb_ok
    (hpath : ∀ l, l < c.treeDepth → ∃ node,
      c.tree (l + 1) (r / 2 ^ (l + 1)) = some node ∧
        node.parent = if l + 1 < c.treeDepth then some (r / 2 ^ (l + 1) / 2) else none) :
    ∀ (steps level : ℕ), level + 1 + steps = c.treeDepth →
      c.sanityClimb steps (level + 1) (some (r / 2 ^ (level + 1))) = .ok ()
  | 0, level, hs => by
    obtain ⟨node, hnode, hparent⟩ := hpath level (by omega)
    rw [sanityClimb]
    dsimp only [deref]
    rw [ok_bind, nodeAt_eq_ok hnode, ok_bind, hparent, if_neg (by omega)]
    rfl
  | steps + 1, level, hs => by
    obtain ⟨node, hnode, hparent⟩ := hpath level (by omega)
    rw [sanityClimb]
    dsimp only [deref]
    rw [ok_bind, nodeAt_eq_ok hnode, ok_bind, hparent, if_pos (by omega),
      ← div_pow_succ]
    exact sanityClimb_ok hpath steps (level + 1) (by omega)

theorem checkDist_ok {addr dist : ℕ} {updateStack : Bool}
    (h : (c.verifyStackDist addr updateStack).1 = dist) :
    c.checkDist addr dist updateStack = .ok (c.verifyStackDist addr updateStack).2 := by
  rw [checkDist]
  simp [h, panicIf]

theorem verifyPush_ok {addr dist : ℕ} (hpos : 0 < c.treeDepth)
    (hleaf : c.tree 0 c.index = some leaf) (hparent : leaf.parent = some (c.index / 2))
    (hpath : ∀ l, l < c.treeDepth → ∃ node,
      c.tree (l + 1) (c.index / 2 ^ (l + 1)) = some node ∧
        node.parent = if l + 1 < c.treeDepth then some (c.index / 2 ^ (l + 1) / 2) else none)
    (hv : c.verifyStack = true → (c.verifyStackDist addr true).1 = dist) :
    c.verifyPush addr dist =
      .ok (if c.verifyStack then (c.verifyStackDist addr true).2 else c) := by
  unfold verifyPush
  split_ifs with h
  · have hclimb := sanityClimb_ok hpath (c.treeDepth - 1) 0 (by omega)
    rw [zero_add, pow_one, ← hparent] at hclimb
    rw [sanityCheckTree, nodeAt_eq_ok hleaf, ok_bind, hclimb, ok_bind, checkDist_ok (hv h)]
  · rfl

theorem verifyStackDist_keep (c : StackDistCalc) (addr : ℕ) :
    (c.verifyStackDist addr false).2 = c := by
  simp [verifyStackDist]

theorem verifyStackDist_congr (h : c'.stack = c.stack) (addr : ℕ) (updateStack : Bool) :
    (c'.verifyStackDist addr updateStack).1 = (c.verifyStackDist addr updateStack).1 ∧
      (c'.verifyStackDist addr updateStack).2.stack =
        (c.verifyStackDist addr updateStack).2.stack := by
  simp only [verifyStackDist, h, and_self]

structure Pushed (c c' : StackDistCalc) (addr : ℕ) : Prop where
  verifyStack : c'.verifyStack = c.verifyStack
  index : c'.index = c.index + 1
  aiMap : c'.aiMap = c.aiMap
  stack : c'.stack = if c.verifyStack then (c.verifyStackDist addr true).2.stack else c.stack

theorem putLeaf_tree_leaf (c : StackDistCalc) (isLeft : Bool) (i : ℕ) :
    (c.putLeaf isLeft).tree 0 i = if i = c.index then
      some { isLeftNode := isLeft, parent := c.pointer 1 (c.nextIndex 1 - 1) } else c.tree 0 i := by
  unfold putLeaf
  split_ifs with h
  · subst h
    exact setNode_tree_self
  · exact setNode_tree_of_ne (.inr h)

theorem putLeaf_ok (h : Tree c live) (hs : Slots c fun _ => c.index + 1)
    (hdepth : c.treeDepth ≤ 32) :
    ∃ t, (c.putLeaf (c.index % 2 == 0)).updateSumsLeavesToRoot c.index true =
        .ok (Infinity, { c.putLeaf (c.index % 2 == 0) with tree := t }) ∧
      Tree { c.putLeaf (c.index % 2 == 0) with tree := t, index := c.index + 1 }
        (insert c.index live) := by
  have hnot : c.index ∉ live := fun hmem => lt_irrefl _ (h.lt _ hmem)
  have hagree : ∀ i, i ≠ c.index → (i ∈ live ↔ i ∈ insert c.index live) := fun i hi => by
    rw [Finset.mem_insert, or_iff_right hi]
  have hpath : ∀ l, l < c.treeDepth → ∃ node, c.tree (l + 1) (c.index / 2 ^ (l + 1)) =
      some node ∧ NodeOk c.treeDepth c.index live l (c.index / 2 ^ (l + 1)) node := fun l hl =>
    h.path hs (.inr le_rfl) (fun _ _ => (add_sub_cancel ..).ge) hl
  have hparent : c.pointer 1 (c.nextIndex 1 - 1) = some (c.index / 2) := by
    obtain ⟨node, hnode, -⟩ := hpath 0 h.depth_pos
    rw [zero_add, pow_one] at hnode
    have hnext : c.nextIndex 1 - 1 = c.index / 2 := by
      rw [hs 0 h.depth_pos, add_sub_cancel, add_sub_cancel, zero_add, pow_one]
    rw [hnext, pointer, hnode, Option.map_some]
  have honPath : OnPath (c.putLeaf (c.index % 2 == 0)) live (insert c.index live) c.index 0 :=
    (h.onPath hagree (.inr le_rfl) hpath).congr h.depth_pos rfl rfl
      (fun l k => setNode_tree_of_ne (.inl (succ_ne_zero l)))
      fun l => update_of_ne (succ_ne_zero l) (c.nextIndex 0 + 1) c.nextIndex
  obtain ⟨t, ht, ht0, hpt⟩ := updateSumsLeavesToRoot_ok true honPath h.depth_pos hagree
    (.inr le_rfl) (fun _ => hdepth) ((putLeaf_tree_leaf ..).trans (if_pos rfl)) hparent rfl
    (by simp) fun hfalse => by cases hfalse
  refine ⟨t, ht, ?_⟩
  have hleaves : ∀ i, i ≠ c.index → t 0 i = c.tree 0 i := fun i hi => by
    rw [ht0, update_of_ne hi, putLeaf_tree_leaf, if_neg hi]
  have htree := hpt.tree (n := c.index + 1) (t 0) h.depth_pos (Nat.le_succ _)
    (fun i => ?_) (fun i lf hi => ?_) fun i hi => ?_
  · rw [update_eq_self] at htree
    exact htree
  · by_cases hi : i = c.index
    · subst hi
      rw [ht0, update_self]
      simp
    · rw [hleaves i hi, h.leaf, hagree i hi]
  · by_cases hic : i = c.index
    · subst hic
      rw [ht0, update_self] at hi
      cases hi
      exact ⟨hparent, rfl⟩
    · rw [hleaves i hic] at hi
      exact h.leafOk i lf hi
  · rcases Finset.mem_insert.1 hi with rfl | hi
    · exact Nat.lt_succ_self _
    · exact (h.lt i hi).trans (Nat.lt_succ_self _)

theorem addLeaf_ok (addr dist : ℕ) (h : Inv c live) (hn : c.index < 2 ^ 32)
    (hv : c.verifyStack = true → (c.verifyStackDist addr true).1 = dist) :
    ∃ c', c.addLeaf addr dist = .ok c' ∧ Inv c' (insert c.index live) ∧ Pushed c c' addr := by
  obtain ⟨c₁, hgrow, hT, hS, hD, hver, hidx, hai, hstack⟩ := growTree_ok h hn
  rw [← hidx] at hS hD
  obtain ⟨t, ht, hT₃⟩ := putLeaf_ok hT hS (hD.depth_le (by omega))
  set c₃ : StackDistCalc := { c₁.putLeaf (c₁.index % 2 == 0) with tree := t } with hc₃
  have hS₃ : Slots c₃ fun _ => c₁.index + 1 := fun l hl => by
    rw [← hS l hl]
    exact update_of_ne (succ_ne_zero l) (c₁.nextIndex 0 + 1) c₁.nextIndex
  have hmem : c₁.index ∈ insert c₁.index live := Finset.mem_insert_self ..
  obtain ⟨leaf, hleaf⟩ := Option.ne_none_iff_exists'.1 ((hT₃.leaf c₁.index).2 hmem)
  have hpush : c₃.verifyPush addr dist =
      .ok (if c₃.verifyStack then (c₃.verifyStackDist addr true).2 else c₃) := by
    refine verifyPush_ok hT.depth_pos hleaf (hT₃.leafOk _ _ hleaf).1 (fun l hl => ?_) fun hvs => ?_
    · obtain ⟨node, hnode, hok⟩ := hT₃.path (m := fun _ => c₁.index + 1) hS₃ (.inl hmem)
        (fun _ _ => (add_sub_cancel ..).ge) hl
      exact ⟨node, hnode, hok.parent⟩
    · rw [(verifyStackDist_congr (show c₃.stack = c.stack from hstack) addr true).1]
      exact hv (hver ▸ hvs)
  have hrun : c.addLeaf addr dist = .ok { c₃ with
      index := c₁.index + 1
      stack := if c₃.verifyStack then (c₃.verifyStackDist addr true).2.stack else c₃.stack } := by
    rw [addLeaf, hgrow, ok_bind]
    dsimp only
    rw [← hidx]
    change ((c₁.putLeaf (c₁.index % 2 == 0)).updateSumsLeavesToRoot c₁.index true >>= _) = _
    rw [ht, ok_bind]
    change (c₃.verifyPush addr dist >>= _) = _
    rw [hpush, ok_bind]
    by_cases hvs : c₃.verifyStack = true
    · rw [if_pos hvs, if_pos hvs]
      rfl
    · rw [if_neg hvs, if_neg hvs]
      rfl
  refine ⟨_, hrun, ⟨?_, hS₃, hD⟩, hver, congrArg (· + 1) hidx, hai, ?_⟩
  · rw [← hidx]
    exact ⟨hT₃.depth_pos, hT₃.nodes, hT₃.gone, hT₃.bounded, hT₃.root, hT₃.leaf, hT₃.leafOk, hT₃.lt⟩
  · rw [← hver, ← (verifyStackDist_congr (show c₃.stack = c.stack from hstack) addr true).2]
    exact if_congr Iff.rfl rfl hstack

theorem getSumsLeavesToRoot_ok (h : Inv c live) (hr : r ∈ live) :
    c.getSumsLeavesToRoot r = .ok (live.filter fun i => r < i).card := by
  obtain ⟨leaf, hleaf⟩ := Option.ne_none_iff_exists'.1 ((h.tree.leaf r).2 hr)
  obtain ⟨hparent, hleft⟩ := h.tree.leafOk r leaf hleaf
  have hsum := getSum_ok (r := r) c.treeDepth h.tree.depth_pos (Nat.zero_add _)
    fun l _ hl => h.path hr hl
  rw [h.above hr, aboveCount_zero, zero_add, pow_one, pow_zero, div_one, ← hleft] at hsum
  rw [getSumsLeavesToRoot, nodeAt_eq_ok hleaf, ok_bind, hparent]
  exact hsum

theorem Inv.mark (h : Inv c live) (hleaf : c.tree 0 r = some leaf) (mark : Bool) :
    Inv (c.setNode 0 r (some { leaf with isMarked := mark })) live := by
  have hr : r ∈ live := (h.tree.leaf r).1 (by rw [hleaf]; exact Option.some_ne_none _)
  have hup : ∀ l k, (c.setNode 0 r (some { leaf with isMarked := mark })).tree (l + 1) k =
      c.tree (l + 1) k := fun l k => setNode_tree_of_ne (.inl (succ_ne_zero l))
  have hT := h.tree
  refine ⟨⟨hT.depth_pos, fun l k node hl hnode => ?_, fun l k hl hk hnode => ?_,
    fun l k node hl hnode => ?_, ?_, fun i => ?_, fun i lf hi => ?_, hT.lt⟩, h.slots, h.deep⟩
  · rw [hup] at hnode
    exact hT.nodes l k node hl hnode
  · rw [hup] at hnode
    exact hT.gone l k hl hk hnode
  · rw [hup] at hnode
    exact hT.bounded l k node hl hnode
  · obtain ⟨d, hd⟩ : ∃ d, c.treeDepth = d + 1 := ⟨c.treeDepth - 1, by have := hT.depth_pos; omega⟩
    have hroot := hT.root
    change (c.setNode 0 r _).tree c.treeDepth 0 ≠ none
    rw [hd, hup, ← hd]
    exact hroot
  · by_cases hi : i = r
    · subst hi
      rw [setNode_tree_self]
      exact iff_of_true (Option.some_ne_none _) hr
    · rw [setNode_tree_of_ne (.inr hi)]
      exact hT.leaf i
  · by_cases hir : i = r
    · subst hir
      rw [setNode_tree_self] at hi
      cases hi
      exact hT.leafOk i leaf hleaf
    · rw [setNode_tree_of_ne (.inr hir)] at hi
      exact hT.leafOk i lf hi

theorem init_inv (verifyStack : Bool) : Inv (init verifyStack) ∅ := by
  have hroot : ∀ l k node, (init verifyStack).tree (l + 1) k = some node →
      l = 0 ∧ k = 0 ∧ node = {} := by
    intro l k node hnode
    by_cases hl : l = 0
    · subst hl
      by_cases hk : k = 0
      · subst hk
        exact ⟨rfl, rfl, (Option.some.inj hnode).symm⟩
      · simp [init, hk] at hnode
    · simp [init, hl] at hnode
  have hlayer : ∀ l, l < (init verifyStack).treeDepth → l = 0 := fun l hl => Nat.lt_one_iff.1 hl
  refine ⟨⟨one_pos, fun l k node _ hnode => ?_, fun l k hl hk hnode => ?_,
    fun l k node _ hnode => ?_, ?_, fun i => ?_, fun i leaf hi => ?_,
    fun i hi => absurd hi (Finset.notMem_empty i)⟩, fun l hl => ?_, ⟨Nat.zero_le _, .inl rfl⟩⟩
  · obtain ⟨rfl, rfl, rfl⟩ := hroot l k node hnode
    exact ⟨rfl, rfl, rfl, rfl, fun hd => absurd hd Bool.false_ne_true,
      fun hd => absurd hd Bool.false_ne_true⟩
  · obtain rfl := hlayer l hl
    have hk' : k = 0 := Nat.lt_one_iff.1 hk
    subst hk'
    cases hnode
  · obtain ⟨rfl, rfl, -⟩ := hroot l k node hnode
    exact one_pos
  · exact Option.some_ne_none _
  · simp [init]
  · simp [init] at hi
  · obtain rfl := hlayer l hl
    simp [init]

end Gem5Nvm.StackDistCalc
