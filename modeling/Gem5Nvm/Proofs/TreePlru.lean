import Gem5Nvm.Lib.PseudoLru
import Gem5Nvm.Lib.Run
import Gem5Nvm.TreePlru

/-!
# Victims of a tree of bits

The array of a tree holds its nodes level by level, so a path from the root has an index, and the
loops of `touch` and `getVictim` go along paths.  The tree is then one of `PseudoLru`.
-/

namespace Gem5Nvm.TreePLRURP

open PseudoLru (Bits victim victims)

def place (p : List Bool) : ℕ :=
  p.foldl (fun i b => if b then rightSubtreeIndex i else leftSubtreeIndex i) 0

variable {p q : List Bool} {b : Bool} {k j : ℕ}

theorem place_append : place (p ++ [b]) = 2 * place p + 1 + b.toNat := by
  rw [place, List.foldl_append]
  cases b <;> rfl

theorem parentIndex_place : parentIndex (place (p ++ [b])) = place p := by
  rw [parentIndex, place_append]
  have := b.toNat_lt
  omega

theorem isRightSubtree_place : isRightSubtree (place (p ++ [b])) = b := by
  rw [isRightSubtree, place_append]
  cases b
  · simp
  · simp
    omega

theorem place_bounds : 2 ^ p.length ≤ place p + 1 ∧ place p + 1 < 2 * 2 ^ p.length := by
  induction p using List.reverseRecOn with
  | nil => simp [place]
  | append_singleton p b ih =>
    rw [place_append, List.length_append, List.length_singleton, Nat.pow_succ]
    have := b.toNat_lt
    omega

theorem place_injective : Function.Injective place := by
  intro p q h
  induction p using List.reverseRecOn generalizing q with
  | nil =>
    rcases q.eq_nil_or_concat with rfl | ⟨q, c, rfl⟩
    · rfl
    · rw [List.concat_eq_append, place_append] at h
      simp [place] at h
      omega
  | append_singleton p b ih =>
    rcases q.eq_nil_or_concat with rfl | ⟨q, c, rfl⟩
    · rw [place_append] at h
      simp [place] at h
    · rw [List.concat_eq_append] at h ⊢
      have hb : b = c := by
        rw [← isRightSubtree_place (p := p) (b := b), h, isRightSubtree_place]
      have hp : place p = place q := by
        rw [← parentIndex_place (p := p) (b := b), h, parentIndex_place]
      rw [ih hp, hb]

def path : ℕ → ℕ → List Bool
  | 0, _ => []
  | k + 1, j => path k (j / 2) ++ [decide (j % 2 = 1)]

theorem length_path : (path k j).length = k := by
  induction k generalizing j with
  | zero => rfl
  | succ k ih => rw [path, List.length_append, ih, List.length_singleton]

theorem place_path (hj : j < 2 ^ k) : place (path k j) = j + 2 ^ k - 1 := by
  induction k generalizing j with
  | zero =>
    obtain rfl : j = 0 := by simpa using hj
    rfl
  | succ k ih =>
    rw [Nat.pow_succ] at hj ⊢
    have hpos := Nat.two_pow_pos k
    rw [path, place_append, ih (by omega)]
    by_cases hodd : j % 2 = 1 <;> simp [hodd] <;> omega

variable {tree : PLRUTree} {s : Bits} {fuel : ℕ}

def bitsOf (tree : PLRUTree) : Bits := fun q => tree.getD (place q) false

theorem bitsOf_set (hp : place p < tree.length) :
    bitsOf (tree.set (place p) b) = Function.update (bitsOf tree) p b := by
  funext q
  rw [bitsOf, List.getD_eq_getElem?_getD]
  by_cases hq : q = p
  · rw [hq, Function.update_self, List.getElem?_set_self hp, Option.getD_some]
  · rw [Function.update_of_ne hq, List.getElem?_set_ne fun h => hq (place_injective h).symm, bitsOf,
      List.getD_eq_getElem?_getD]

theorem touchLoop_spec (hp : 2 ^ p.length ≤ tree.length + 1) (hfuel : place p < fuel) :
    ∃ tree', Loop.whileLoop .diverges (fun s => s.1 != 0)
      (fun s => do
        let right := isRightSubtree s.1
        let treeIndex := parentIndex s.1
        return (treeIndex, ← setAt s.2 treeIndex (!right))) fuel (place p, tree)
      = (.ok (0, tree') : Sim (ℕ × PLRUTree)) ∧ tree'.length = tree.length ∧
        bitsOf tree' = PseudoLru.touch p (bitsOf tree) := by
  induction p using List.reverseRecOn generalizing tree fuel with
  | nil => exact ⟨tree, Loop.whileLoop_stop (by omega) rfl, rfl, rfl⟩
  | append_singleton p b ih =>
    obtain ⟨fuel, rfl⟩ : ∃ m, fuel = m + 1 := ⟨fuel - 1, by omega⟩
    rw [List.length_append, List.length_singleton, Nat.pow_succ] at hp
    have hlt : place p < tree.length := by
      have := (place_bounds (p := p)).2
      omega
    have hplace := place_append (p := p) (b := b)
    obtain ⟨tree', hrun, hlen, hbits⟩ := @ih (tree.set (place p) !b) fuel
      (by rw [List.length_set]; omega) (by omega)
    refine ⟨tree', ?_, by rw [hlen, List.length_set], ?_⟩
    · rw [← hrun]
      apply Loop.whileLoop_step
      · simp only [bne_iff_ne]
        omega
      · simp only [isRightSubtree_place, parentIndex_place, setAt, if_pos hlt]
        rfl
    · rw [hbits, PseudoLru.touch_append, bitsOf_set hlt]

theorem turn_touch (hp : p ≠ []) (htree : 2 ^ p.length = tree.length + 1) :
    ∃ tree', turn (fun right => !right) (place p) tree = .ok tree' ∧
      tree'.length = tree.length ∧ bitsOf tree' = PseudoLru.touch p (bitsOf tree) := by
  obtain ⟨tree', hrun, hspec⟩ := touchLoop_spec htree.le (show place p < place p + 2 by omega)
  refine ⟨tree', ?_, hspec⟩
  -- the first round needs no test, which would succeed
  have hne : (place p != 0) = true := by
    have hbig := (place_bounds (p := p)).1
    have := Nat.pow_le_pow_right two_pos (List.length_pos_iff.2 hp)
    simp only [bne_iff_ne]
    omega
  rw [Loop.whileLoop, if_pos hne] at hrun
  rw [turn, Loop.doWhile, hrun]
  rfl

theorem walkLoop_spec {r : ℕ} (htree : 2 ^ (q.length + r) = tree.length + 1) (hfuel : r < fuel) :
    Loop.whileLoop .diverges (fun treeIndex => decide (treeIndex < tree.length))
      (fun treeIndex => .ok (if tree.getD treeIndex false then rightSubtreeIndex treeIndex
        else leftSubtreeIndex treeIndex)) fuel (place q)
      = (.ok (place (q ++ victim r fun x => bitsOf tree (q ++ x))) : Sim ℕ) := by
  induction r generalizing q fuel with
  | zero =>
    have := (place_bounds (p := q)).1
    rw [Nat.add_zero] at htree
    rw [victim, List.append_nil, Loop.whileLoop_stop hfuel]
    simp only [decide_eq_false_iff_not]
    omega
  | succ r ih =>
    have hlt : place q < tree.length := by
      have := (place_bounds (p := q)).2
      have hle : 2 ^ (q.length + 1) ≤ 2 ^ (q.length + (r + 1)) :=
        Nat.pow_le_pow_right two_pos (by omega)
      rw [Nat.pow_succ] at hle
      omega
    obtain ⟨fuel, rfl⟩ : ∃ m, fuel = m + 1 := ⟨fuel - 1, by omega⟩
    have hnext : (if tree.getD (place q) false then rightSubtreeIndex (place q)
        else leftSubtreeIndex (place q)) = place (q ++ [bitsOf tree q]) := by
      rw [place_append, bitsOf]
      cases tree.getD (place q) false <;> rfl
    have hlen : 2 ^ ((q ++ [bitsOf tree q]).length + r) = tree.length + 1 := by
      rw [List.length_append, List.length_singleton, Nat.add_assoc, Nat.add_comm 1, htree]
    rw [Loop.whileLoop, if_pos (by simpa using hlt), hnext]
    refine (ih hlen (by omega)).trans ?_
    simp only [victim, List.append_nil, List.append_assoc, List.cons_append, List.nil_append]
    rfl

theorem walk_eq (htree : 2 ^ k = tree.length + 1) :
    walk tree = .ok (place (victim k (bitsOf tree))) :=
  walkLoop_spec (q := []) (by simpa using htree) (htree ▸ Nat.lt_two_pow_self)

/-- The tree `t` of the policy has `2 ^ k` leaves and the bits `s`. -/
structure Holds (k t : ℕ) (s : Bits) (rp : TreePLRURP) : Prop where
  numLeaves : rp.numLeaves = 2 ^ k
  tree : ∃ tree, rp.trees[t]? = some tree ∧ 2 ^ k = tree.length + 1 ∧ bitsOf tree = s

variable {rp : TreePLRURP} {t : ℕ}

section

variable (h : Holds k t s rp)
include h

theorem Holds.leaf_eq (hj : j < 2 ^ k) : rp.leaf t j = ⟨place (path k j), t⟩ := by
  rw [leaf, h.numLeaves, place_path hj]

theorem Holds.getVictim : rp.getVictim (rp.leaves t)
    = .ok ⟨place (victim k s), t⟩ := by
  obtain ⟨hleaves, tree, htree, hlen, rfl⟩ := h
  have hpos := Nat.two_pow_pos k
  have hfirst : rp.leaves t = rp.leaf t 0 :: ((List.range rp.numLeaves).map (rp.leaf t)).tail := by
    rw [leaves, hleaves, show 2 ^ k = 2 ^ k - 1 + 1 by omega, List.range_succ_eq_map]
    rfl
  have hplace := place_bounds (p := victim k (bitsOf tree))
  rw [PseudoLru.length_victim] at hplace
  set j := place (victim k (bitsOf tree)) - (2 ^ k - 1) with hj
  have hget : (rp.leaves t)[place (victim k (bitsOf tree)) - (rp.numLeaves - 1)]?
      = some (rp.leaf t j) := by
    rw [hleaves, leaves, List.getElem?_map, List.getElem?_range (by rw [hleaves]; omega)]
    rfl
  have hleaf : (⟨place (victim k (bitsOf tree)), t⟩ : TreePLRUReplData) = rp.leaf t j := by
    rw [leaf, hleaves, hj]
    congr 1
    omega
  rw [hleaf]
  rw [hfirst] at hget ⊢
  rw [TreePLRURP.getVictim, TreePLRURP.tree, leaf, htree]
  simp only [Sim.ok_bind, walk_eq hlen]
  rw [leaf] at hget
  rw [hget]

theorem Holds.touch (hk : 1 ≤ k) (hp : p.length = k) :
    ∃ rp', rp.touch ⟨place p, t⟩ = .ok rp' ∧ Holds k t (PseudoLru.touch p s) rp' := by
  obtain ⟨hleaves, tree, htree, hlen, rfl⟩ := h
  obtain ⟨tree', hturn, hlen', hbits⟩ := turn_touch (p := p)
    (by rintro rfl; simp at hp; omega) (hp ▸ hlen)
  have ht : t < rp.trees.length := (List.getElem?_eq_some_iff.1 htree).1
  refine ⟨{ rp with trees := rp.trees.set t tree' }, ?_, hleaves, tree', ?_, ?_, hbits⟩
  · rw [TreePLRURP.touch, TreePLRURP.tree, htree]
    simp only [Sim.ok_bind, hturn, Sim.pure_eq]
  · exact List.getElem?_set_self ht
  · rw [hlen', hlen]

theorem Holds.replaces (hk : 1 ≤ k) (n : ℕ) :
    ∃ rp', Run.run (replace t) rp (List.replicate n ())
      = .ok ((victims k n s).map fun p => ⟨place p, t⟩, rp') := by
  induction n generalizing s rp with
  | zero => exact ⟨rp, rfl⟩
  | succ n ih =>
    obtain ⟨rp₁, htouch, h₁⟩ := h.touch hk PseudoLru.length_victim
    obtain ⟨rp', hrun⟩ := ih h₁
    refine ⟨rp', ?_⟩
    rw [List.replicate_succ, victims, List.map_cons]
    refine Run.run_cons ?_ hrun
    rw [replace, h.getVictim, Sim.ok_bind, htouch]
    rfl

variable {js : List ℕ}

theorem Holds.touchAll (hk : 1 ≤ k) (hjs : ∀ j ∈ js, j < 2 ^ k) :
    ∃ rp', rp.touchAll t js = .ok rp' ∧
      Holds k t (PseudoLru.touches (js.map (path k)) s) rp' := by
  induction js generalizing s rp with
  | nil => exact ⟨rp, rfl, h⟩
  | cons j js ih =>
    obtain ⟨rp₁, htouch, h₁⟩ := h.touch hk (length_path (j := j))
    obtain ⟨rp', hrun, h'⟩ := ih h₁ fun j hj => hjs j (List.mem_cons_of_mem _ hj)
    refine ⟨rp', ?_, h'⟩
    rw [TreePLRURP.touchAll, List.foldlM_cons, h.leaf_eq (hjs j List.mem_cons_self), htouch]
    exact hrun

end

theorem exists_last {l : ℕ} (hl : l ∈ js) :
    ∃ before after, js = before ++ l :: after ∧ l ∉ after ∧ touchedSince l js = after.toFinset := by
  obtain ⟨as, bs, hjs, has⟩ := List.eq_append_cons_of_mem (List.mem_reverse.2 hl)
  refine ⟨bs.reverse, as.reverse, ?_, by simpa using has, ?_⟩
  · rw [← List.reverse_reverse js, hjs]
    simp
  · rw [touchedSince, hjs, List.takeWhile_append_of_pos, List.takeWhile_cons_of_neg (by simp),
      List.append_nil, List.toFinset_reverse]
    intro a ha
    have hne : a ≠ l := ne_of_mem_of_not_mem ha has
    simpa using hne

theorem Holds.replaces_perm (h : Holds k t s rp) (hk : 1 ≤ k) :
    ∃ vs rp', Run.run (replace t) rp (List.replicate (2 ^ k) ()) = .ok (vs, rp') ∧
      vs.Perm (rp.leaves t) := by
  obtain ⟨rp', hrun⟩ := h.replaces hk (2 ^ k)
  refine ⟨_, rp', hrun, .symm ?_⟩
  have hnodup : (rp.leaves t).Nodup := by
    refine List.nodup_range.map ?_
    intro i j hij
    have hindex := congrArg TreePLRUReplData.index hij
    have hpos := h.numLeaves ▸ Nat.two_pow_pos k
    simp only [leaf] at hindex
    omega
  have hsub : rp.leaves t ⊆ (victims k (2 ^ k) s).map fun p => ⟨place p, t⟩ := by
    intro d hd
    obtain ⟨j, hj, rfl⟩ := List.mem_map.1 hd
    rw [List.mem_range, h.numLeaves] at hj
    rw [h.leaf_eq hj]
    refine List.mem_map.2 ⟨path k j, ?_, rfl⟩
    have hcount := PseudoLru.count_victims (path k j) s
    rw [length_path] at hcount
    exact List.count_pos_iff.1 (by omega)
  refine (hnodup.subperm hsub).perm_of_length_le ?_
  simp [leaves, h.numLeaves, PseudoLru.length_victims]

theorem Holds.protects (h : Holds k t s rp) (hk : 1 ≤ k) {l : ℕ} (hjs : ∀ j ∈ js, j < 2 ^ k)
    (hl : l ∈ js) :
    ∃ rp' v, rp.touchAll t js = .ok rp' ∧ rp'.getVictim (rp'.leaves t) = .ok v ∧
      (v = rp'.leaf t l → k ≤ (touchedSince l js).card) := by
  obtain ⟨rp', hrun, h'⟩ := h.touchAll hk hjs
  refine ⟨rp', _, hrun, h'.getVictim, fun hv => ?_⟩
  rw [h'.leaf_eq (hjs l hl)] at hv
  have hv := place_injective (congrArg TreePLRUReplData.index hv)
  obtain ⟨before, after, rfl, hafter, hsince⟩ := exists_last hl
  rw [hsince]
  rw [List.map_append, List.map_cons, PseudoLru.touches_append, PseudoLru.touches_cons] at hv
  have hcard := @PseudoLru.length_le_card (PseudoLru.touches (before.map (path k)) s)
    (path k l) (after.map (path k)) ?_ ?_ (by rw [length_path]; exact hv)
  · have himage : (after.map (path k)).toFinset = after.toFinset.image (path k) := by
      ext p
      simp
    rw [length_path, himage] at hcard
    exact hcard.trans Finset.card_image_le
  · intro p hp
    obtain ⟨j, -, rfl⟩ := List.mem_map.1 hp
    rw [length_path, length_path]
  · intro hp
    obtain ⟨j, hj, hpath⟩ := List.mem_map.1 hp
    have hplace := congrArg place hpath
    rw [place_path (hjs j (by simp [hj])), place_path (hjs l hl)] at hplace
    have := Nat.two_pow_pos k
    obtain rfl : j = l := by omega
    exact hafter hj

/-- Whatever its bits are, a tree that always touches its victim goes through its leaves once; and
a touched leaf is the victim only after touches of as many other leaves as the tree has levels. -/
theorem victims_fair_and_protected {tree : PLRUTree} (hk : 1 ≤ k) (hleaves : rp.numLeaves = 2 ^ k)
    (htree : rp.trees[t]? = some tree) (hlen : tree.length = 2 ^ k - 1) :
    (∃ vs rp', Run.run (replace t) rp (List.replicate (2 ^ k) ()) = .ok (vs, rp') ∧
      vs.Perm (rp.leaves t)) ∧
    ∀ l js, (∀ j ∈ l :: js, j < 2 ^ k) →
      ∃ rp' v, rp.touchAll t (l :: js) = .ok rp' ∧ rp'.getVictim (rp'.leaves t) = .ok v ∧
        (v = rp'.leaf t l → k ≤ (touchedSince l (l :: js)).card) := by
  have hpos := Nat.two_pow_pos k
  have h : Holds k t (bitsOf tree) rp := ⟨hleaves, tree, htree, by omega, rfl⟩
  exact ⟨h.replaces_perm hk, fun l js hjs => h.protects hk hjs List.mem_cons_self⟩

/-- Four leaves, all of whose bits point to the right. -/
theorem victims_fair_and_protected_fourLeaves : ∃ vs rp',
    Run.run (replace 0) ⟨4, [[true, true, true]]⟩ (List.replicate (2 ^ 2) ()) = .ok (vs, rp') ∧
      vs.Perm (leaves ⟨4, [[true, true, true]]⟩ 0) :=
  (victims_fair_and_protected (k := 2) (by decide) rfl rfl rfl).1

end Gem5Nvm.TreePLRURP
