import Gem5Nvm.Base
import Gem5Nvm.Lib.Run

/-!
# The stack distance calculator

`StackDistCalc` of `mem/stack_dist_calc.cc`: a binary tree of partial sums over the accesses, one
leaf for the last access of each address, and the naive stack it can be checked against.

A node is named by its layer and its index there, the key of `tree[layer]`; a pointer to a parent is
an index in the layer above. Erasing a node from its layer and deleting it are one, so that an
access through a pointer to a deleted node is an access of a missing key. The sums count leaves, of
which there are never as many as `2 ^ 64`.
-/

namespace Gem5Nvm

open Function (update)

/-- `StackDistCalc::Node`, a leaf, an inner node or the root. -/
structure StackNode where
  sumLeft : ℕ := 0
  sumRight : ℕ := 0
  discardLeft : Bool := false
  discardRight : Bool := false
  parent : Option ℕ := none
  isLeftNode : Bool := true
  isMarked : Bool := false
  deriving DecidableEq, Repr

/-- A node with the sum from below, and with the flag of a discarded child. -/
def StackNode.updated (node : StackNode) (fromLeft : Bool) (sumFromBelow : ℕ)
    (discardNode : Bool) : StackNode :=
  let node := if fromLeft then { node with sumLeft := sumFromBelow }
    else { node with sumRight := sumFromBelow }
  if discardNode && sumFromBelow == 0 then
    if fromLeft then { node with discardLeft := true } else { node with discardRight := true }
  else node

structure StackDistCalc where
  verifyStack : Bool
  index : ℕ := 0
  /-- `getTreeDepth()`: the leaves are layer 0, the root is in this layer. -/
  treeDepth : ℕ := 1
  tree : ℕ → ℕ → Option StackNode
  aiMap : ℕ → Option ℕ := fun _ => none
  nextIndex : ℕ → ℕ
  /-- The stack for verification, its top first. -/
  stack : List ℕ := []

namespace StackDistCalc

def Infinity : ℕ := 2 ^ 64 - 1

/-- `1 << i`, an `int`, where a `uint64_t` is wanted. -/
def shiftOne (i : ℕ) : Sim ℕ :=
  if i < 31 then .ok (2 ^ i)
  else if i = 31 then .ok (2 ^ 64 - 2 ^ 31)
  else .error (.undefined "1 << i")

def init (verifyStack : Bool) : StackDistCalc :=
  { verifyStack
    tree := update (fun _ _ => none) 1 (update (fun _ => none) 0 (some {}))
    nextIndex := update (fun _ => 0) 1 1 }

def nodeAt (c : StackDistCalc) (level idx : ℕ) : Sim StackNode :=
  match c.tree level idx with
  | some node => .ok node
  | none => .error (.undefined "access of a missing node")

def setNode (c : StackDistCalc) (level idx : ℕ) (node : Option StackNode) : StackDistCalc :=
  { c with tree := update c.tree level (update (c.tree level) idx node) }

/-- The pointer `tree[level][idx]`, null when there is no such node. -/
def pointer (c : StackDistCalc) (level idx : ℕ) : Option ℕ := (c.tree level idx).map fun _ => idx

/-- The check that a sum is not above the number of leaves below. -/
def checkSum (c : StackDistCalc) (level sum : ℕ) (msg : String) : Sim Unit :=
  if c.verifyStack then do
    let limit ← shiftOne (level - 1)
    panicIf (decide (sum > limit)) msg
  else .ok ()

/-- `updateSum` at the node `idx` of the layer above `level`; `layers` are the layers from there to
the root. -/
def updateSum : (layers : ℕ) → StackDistCalc → (level idx : ℕ) → (fromLeft : Bool) →
    (sumFromBelow stackDist : ℕ) → (discardNode : Bool) → Sim (ℕ × StackDistCalc)
  | 0, _, _, _, _, _, _, _ => .error (.undefined "access of a missing node")
  | layers + 1, c, level, idx, fromLeft, sumFromBelow, stackDist, discardNode => do
    let node ← c.nodeAt (level + 1) idx
    c.checkSum (level + 1) node.sumLeft "Error in sum left of level"
    c.checkSum (level + 1) node.sumRight "Error in sum right of level"
    let stackDist := if fromLeft then stackDist + node.sumRight else stackDist
    let node := node.updated fromLeft sumFromBelow discardNode
    let discardNode := node.discardLeft && node.discardRight && discardNode &&
      node.parent.isSome && sumFromBelow == 0
    let c := c.setNode (level + 1) idx (if discardNode then none else some node)
    match node.parent with
    | some parent =>
      updateSum layers c (level + 1) parent node.isLeftNode (node.sumLeft + node.sumRight)
        stackDist discardNode
    | none => .ok (stackDist, c)

def deref (pointer : Option ℕ) : Sim ℕ :=
  match pointer with
  | some idx => .ok idx
  | none => .error (.undefined "null pointer")

def updateSumsLeavesToRoot (c : StackDistCalc) (idx : ℕ) (isNewLeaf : Bool) :
    Sim (ℕ × StackDistCalc) := do
  let leaf ← c.nodeAt 0 idx
  let sum := if isNewLeaf then 1 else 0
  let c := c.setNode 0 idx (some { leaf with sumLeft := sum })
  let parent ← deref leaf.parent
  let (stackDist, c) ← updateSum c.treeDepth c 0 parent leaf.isLeftNode sum 0 (!isNewLeaf)
  return (if isNewLeaf then Infinity else stackDist, c)

/-- `getSum`, which does not read the sum from below. -/
def getSum : (layers : ℕ) → StackDistCalc → (level idx : ℕ) → (fromLeft : Bool) →
    (stackDist : ℕ) → Sim ℕ
  | 0, _, _, _, _, _ => .error (.undefined "access of a missing node")
  | layers + 1, c, level, idx, fromLeft, stackDist => do
    let node ← c.nodeAt (level + 1) idx
    let stackDist := if fromLeft then stackDist + node.sumRight else stackDist
    match node.parent with
    | some parent => getSum layers c (level + 1) parent node.isLeftNode stackDist
    | none => .ok stackDist

def getSumsLeavesToRoot (c : StackDistCalc) (idx : ℕ) : Sim ℕ := do
  let leaf ← c.nodeAt 0 idx
  let parent ← deref leaf.parent
  getSum c.treeDepth c 0 parent leaf.isLeftNode 0

/-- A new node in the layer `i`, below the last one of the layer above. -/
def addINode (c : StackDistCalc) (i : ℕ) : StackDistCalc :=
  let idx := c.nextIndex i
  let node : StackNode :=
    { isLeftNode := idx % 2 == 0, parent := c.pointer (i + 1) (c.nextIndex (i + 1) - 1) }
  { c with nextIndex := update c.nextIndex i (idx + 1) }.setNode i idx (some node)

/-- `for (i = getTreeDepth() - 1; i >= 1; --i)` after the root has moved up. -/
def addINodes : ℕ → StackDistCalc → StackDistCalc
  | 0, c => c
  | i + 1, c => addINodes i (c.addINode (i + 1))

def addDueINodes : ℕ → StackDistCalc → Sim StackDistCalc
  | 0, c => .ok c
  | i + 1, c => do
    let width ← shiftOne (i + 1)
    addDueINodes i (if c.index % width == 0 then c.addINode (i + 1) else c)

def rootOver (old : StackNode) : StackNode :=
  { sumLeft := old.sumRight + old.sumLeft, discardLeft := old.discardLeft && old.discardRight }

/-- A new layer with a new root, to which the old root `old` points. -/
def raiseRoot (c : StackDistCalc) (old : StackNode) : StackDistCalc :=
  let depth := c.treeDepth + 1
  let c := { c with
    treeDepth := depth
    nextIndex := update c.nextIndex depth 1
    tree := update c.tree depth (update (fun _ => none) 0 (some (rootOver old))) }
  c.setNode (depth - 1) 0 (some { old with parent := c.pointer depth 0 })

def addRoot (c : StackDistCalc) : Sim StackDistCalc := do
  let old ← c.nodeAt c.treeDepth 0
  return c.raiseRoot old

def isPowerOf2 (n : ℕ) : Bool := n != 0 && (n &&& (n - 1)) == 0

def updateTree (c : StackDistCalc) : Sim StackDistCalc :=
  if isPowerOf2 c.index then do
    let c ← c.addRoot
    return addINodes (c.treeDepth - 1) c
  else addDueINodes (c.treeDepth - 1) c

/-- The loop of `sanityCheckTree` from the pointer `up` into the layer `level`. -/
def sanityClimb (c : StackDistCalc) : (steps level : ℕ) → (up : Option ℕ) → Sim Unit
  | 0, level, up => do
    let idx ← deref up
    let node ← c.nodeAt level idx
    panicIf node.parent.isSome "Sanity check failed for node"
  | steps + 1, level, up => do
    let idx ← deref up
    let node ← c.nodeAt level idx
    panicIf node.parent.isNone "Sanity check failed for node"
    sanityClimb c steps (level + 1) node.parent

def sanityCheckTree (c : StackDistCalc) (idx : ℕ) : Sim Unit := do
  let leaf ← c.nodeAt 0 idx
  c.sanityClimb (c.treeDepth - 1) 1 leaf.parent

/-- The search from the top of the stack. -/
def searchStack (addr : ℕ) : List ℕ → ℕ → Bool × ℕ
  | [], stackDist => (false, stackDist)
  | a :: rest, stackDist =>
    if a == addr then (true, stackDist) else searchStack addr rest (stackDist + 1)

def verifyStackDist (c : StackDistCalc) (addr : ℕ) (updateStack : Bool) : ℕ × StackDistCalc :=
  let (found, stackDist) := searchStack addr c.stack 0
  let stack := if found && updateStack then c.stack.eraseIdx stackDist else c.stack
  let stack := if updateStack then addr :: stack else stack
  (if found then stackDist else Infinity, { c with stack })

/-- The check of a distance against the naive stack. -/
def checkDist (c : StackDistCalc) (addr stackDist : ℕ) (updateStack : Bool) :
    Sim StackDistCalc := do
  let (verifyDist, c) := c.verifyStackDist addr updateStack
  panicIf (verifyDist != stackDist) "Expected stack-distance for address"
  return c

/-- The checks after a leaf was added. -/
def verifyPush (c : StackDistCalc) (addr stackDist : ℕ) : Sim StackDistCalc :=
  if c.verifyStack then do
    c.sanityCheckTree c.index
    c.checkDist addr stackDist true
  else .ok c

/-- The old leaf of an address goes; the distance, and whether the leaf was marked. -/
def removeLeaf (c : StackDistCalc) (idx : ℕ) : Sim ((ℕ × Bool) × StackDistCalc) := do
  let (stackDist, c) ← c.updateSumsLeavesToRoot idx false
  let leaf ← c.nodeAt 0 idx
  return ((stackDist, leaf.isMarked), c.setNode 0 idx none)

/-- The lookup of an address: its old leaf goes. -/
def lookup (c : StackDistCalc) (addr : ℕ) (addNewNode : Bool) :
    Sim ((ℕ × Bool) × StackDistCalc) :=
  let entry := if addNewNode then some c.index else none
  match c.aiMap addr with
  | some idx => removeLeaf { c with aiMap := update c.aiMap addr entry } idx
  | none => .ok ((Infinity, false), { c with aiMap := update c.aiMap addr entry })

def growTree (c : StackDistCalc) : Sim StackDistCalc :=
  if c.index % 2 == 0 then c.updateTree else .ok c

/-- A new leaf, for the access `index`. -/
def putLeaf (c : StackDistCalc) (isLeft : Bool) : StackDistCalc :=
  let leaf : StackNode := { isLeftNode := isLeft, parent := c.pointer 1 (c.nextIndex 1 - 1) }
  let c := { c with nextIndex := update c.nextIndex 0 (c.nextIndex 0 + 1) }
  c.setNode 0 c.index (some leaf)

def addLeaf (c : StackDistCalc) (addr stackDist : ℕ) : Sim StackDistCalc := do
  let isLeft := c.index % 2 == 0
  let c ← c.growTree
  let c := c.putLeaf isLeft
  let (_, c) ← c.updateSumsLeavesToRoot c.index true
  let c ← c.verifyPush addr stackDist
  return { c with index := c.index + 1 }

def calcStackDistAndUpdate (c : StackDistCalc) (addr : ℕ) (addNewNode : Bool) :
    Sim ((ℕ × Bool) × StackDistCalc) := do
  let (answer, c) ← c.lookup addr addNewNode
  if addNewNode then
    let c ← c.addLeaf addr answer.1
    return (answer, c)
  else return (answer, c)

/-- The distance of an address and its mark, which becomes `mark`. -/
def inspect (c : StackDistCalc) (addr : ℕ) (mark : Bool) : Sim ((ℕ × Bool) × StackDistCalc) :=
  match c.aiMap addr with
  | some idx => do
    let leaf ← c.nodeAt 0 idx
    let c := c.setNode 0 idx (some { leaf with isMarked := mark })
    let stackDist ← c.getSumsLeavesToRoot idx
    return ((stackDist, leaf.isMarked), c)
  | none => .ok ((Infinity, false), c)

def calcStackDist (c : StackDistCalc) (addr : ℕ) (mark : Bool) :
    Sim ((ℕ × Bool) × StackDistCalc) := do
  let (answer, c) ← c.inspect addr mark
  if c.verifyStack then
    let c ← c.checkDist addr answer.1 false
    return (answer, c)
  else return (answer, c)

inductive Op
  | calcStackDistAndUpdate (addr : ℕ) (addNewNode : Bool)
  | calcStackDist (addr : ℕ) (mark : Bool)
  deriving DecidableEq, Repr

def step (c : StackDistCalc) : Op → Sim ((ℕ × Bool) × StackDistCalc)
  | .calcStackDistAndUpdate addr addNewNode => c.calcStackDistAndUpdate addr addNewNode
  | .calcStackDist addr mark => c.calcStackDist addr mark

/-- Whether an address is on the stack, after the calls `h`, the last call first. -/
def onStack : List Op → ℕ → Bool
  | [], _ => false
  | .calcStackDistAndUpdate b addNewNode :: h, a => if b = a then addNewNode else onStack h a
  | .calcStackDist _ _ :: h, a => onStack h a

/-- The other addresses pushed since the last push of `a`. -/
def pushedSince : List Op → ℕ → Finset ℕ
  | [], _ => ∅
  | .calcStackDistAndUpdate b true :: h, a => if b = a then ∅ else insert b (pushedSince h a)
  | _ :: h, a => pushedSince h a

/-- The distance that counts all of them. -/
def pushedDistance (h : List Op) (a : ℕ) : ℕ :=
  if onStack h a then (pushedSince h a).card else Infinity

/-- The distance on the stack: those of them that are still there. -/
def lruDistance (h : List Op) (a : ℕ) : ℕ :=
  if onStack h a then ((pushedSince h a).filter fun b => onStack h b).card else Infinity

def Op.addr : Op → ℕ
  | .calcStackDistAndUpdate addr _ => addr
  | .calcStackDist addr _ => addr

/-- Whether a call pushes its address. -/
def Op.pushes : Op → Bool
  | .calcStackDistAndUpdate _ addNewNode => addNewNode
  | .calcStackDist _ _ => false

/-- Whether a call after the calls `h` takes its address off the stack for good. -/
def Op.removes (h : List Op) : Op → Bool
  | .calcStackDistAndUpdate addr addNewNode => !addNewNode && onStack h addr
  | .calcStackDist _ _ => false

/-- No call of a list takes an address off the stack, after the calls `h`. -/
def keepsStack : List Op → List Op → Bool
  | _, [] => true
  | h, o :: ops => !o.removes h && keepsStack (o :: h) ops

/-- The distances a list of calls answers after the calls `h`. -/
def distances (distance : List Op → ℕ → ℕ) : List Op → List Op → List ℕ
  | _, [] => []
  | h, o :: ops => distance h o.addr :: distances distance (o :: h) ops

end StackDistCalc

end Gem5Nvm
