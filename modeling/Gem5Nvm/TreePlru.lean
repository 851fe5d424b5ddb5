import Gem5Nvm.Base

/-!
# The tree-PLRU replacement policy

`TreePLRURP` of `mem/cache/replacement_policies/tree_plru_rp.cc`.  The number of leaves is an `int`,
so the indices of a tree are numbers that `std::floor` in `parentIndex`, which is on doubles, keeps.
An entry is known by its replacement data, and a tree by its number among those made.
-/

namespace Gem5Nvm

namespace TreePLRURP

def parentIndex (index : ℕ) : ℕ := (index - 1) / 2

def leftSubtreeIndex (index : ℕ) : ℕ := 2 * index + 1

def rightSubtreeIndex (index : ℕ) : ℕ := 2 * index + 2

def isRightSubtree (index : ℕ) : Bool := decide (index % 2 = 0)

end TreePLRURP

abbrev PLRUTree := List Bool

structure TreePLRUReplData where
  index : ℕ
  tree : ℕ
  deriving DecidableEq, Repr

structure TreePLRURP where
  numLeaves : ℕ
  /-- The last one is `treeInstance`. -/
  trees : List PLRUTree
  deriving DecidableEq, Repr

namespace TreePLRURP

/-- `tree->at(index) = bit`. -/
def setAt (tree : PLRUTree) (index : ℕ) (bit : Bool) : Sim PLRUTree :=
  if index < tree.length then .ok (tree.set index bit) else .error (.panic "std::out_of_range")

/-- The loop of `touch`, from a leaf to the root; `bit` is what a node gets for the side the leaf is
on. -/
def turn (bit : Bool → Bool) (index : ℕ) (tree : PLRUTree) : Sim PLRUTree := do
  let s ← Loop.doWhile .diverges (fun s => s.1 != 0)
    (fun s => do
      let right := isRightSubtree s.1
      let treeIndex := parentIndex s.1
      return (treeIndex, ← setAt s.2 treeIndex (bit right)))
    (index + 1) (index, tree)
  return s.2

variable (rp : TreePLRURP)

def tree (data : TreePLRUReplData) : Sim PLRUTree :=
  match rp.trees[data.tree]? with
  | some tree => .ok tree
  | none => .error (.undefined "replacement data without a tree")

def touch (data : TreePLRUReplData) : Sim TreePLRURP := do
  let tree ← turn (fun right => !right) data.index (← rp.tree data)
  return { rp with trees := rp.trees.set data.tree tree }

/-- The walk of `getVictim` down a tree. -/
def walk (tree : PLRUTree) : Sim ℕ :=
  Loop.whileLoop .diverges (fun treeIndex => decide (treeIndex < tree.length))
    (fun treeIndex => .ok (if tree.getD treeIndex false then rightSubtreeIndex treeIndex
      else leftSubtreeIndex treeIndex)) (tree.length + 1) 0

def getVictim (candidates : List TreePLRUReplData) : Sim TreePLRUReplData :=
  match candidates with
  | [] => .error (.assertion "candidates.size() > 0")
  | first :: _ => do
    let treeIndex ← walk (← rp.tree first)
    match candidates[treeIndex - (rp.numLeaves - 1)]? with
    | some entry => .ok entry
    | none => .error (.undefined "candidates[tree_index - (numLeaves - 1)]")

/-- The entry at a leaf of the tree `t`. -/
def leaf (t j : ℕ) : TreePLRUReplData := ⟨j + rp.numLeaves - 1, t⟩

def leaves (t : ℕ) : List TreePLRUReplData := (List.range rp.numLeaves).map (rp.leaf t)

/-- `v = getVictim; touch(v)`. -/
def replace (t : ℕ) (rp : TreePLRURP) (_ : Unit) : Sim (TreePLRUReplData × TreePLRURP) := do
  let v ← rp.getVictim (rp.leaves t)
  return (v, ← rp.touch v)

def touchAll (t : ℕ) (js : List ℕ) : Sim TreePLRURP :=
  js.foldlM (fun rp j => rp.touch (rp.leaf t j)) rp

/-- The leaves touched after the last touch of `l`. -/
def touchedSince (l : ℕ) (js : List ℕ) : Finset ℕ := (js.reverse.takeWhile (· ≠ l)).toFinset

end TreePLRURP

end Gem5Nvm
