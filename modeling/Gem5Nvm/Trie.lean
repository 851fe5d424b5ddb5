import Gem5Nvm.Base
import Gem5Nvm.Lib.Prefix

/-!
# The trie of `base/trie.hh`

The nodes are in a heap, by address; the head of the trie is at `0`.  A key has `w` bits, and a node
holds a prefix of keys as a key and a mask.  Loops and recursions have as many rounds as a key has
bits, and two more.  The specification is at the end: what the calls answer is said on the entries
that were inserted and not removed, by handle.
-/

namespace Gem5Nvm

open Function (update)

namespace Trie

variable {w : ℕ} {V : Type}

structure Node (w : ℕ) (V : Type) where
  key : BitVec w
  mask : BitVec w
  value : Option V
  parent : Option ℕ
  kid0 : Option ℕ
  kid1 : Option ℕ

namespace Node

/-- `Node::Node`. -/
def new (key mask : BitVec w) (value : Option V) : Node w V :=
  ⟨key &&& mask, mask, value, none, none, none⟩

/-- `Node::matches`. -/
def hits (n : Node w V) (test : BitVec w) : Bool := test &&& n.mask == n.key

/-- `kids[i]`. -/
def kid (n : Node w V) : Fin 2 → Option ℕ
  | 0 => n.kid0
  | 1 => n.kid1

/-- `kids[i] = c`. -/
def setKid (n : Node w V) (c : Option ℕ) : Fin 2 → Node w V
  | 0 => { n with kid0 := c }
  | 1 => { n with kid1 := c }

end Node

end Trie

structure Trie (w : ℕ) (V : Type) where
  heap : ℕ → Option (Trie.Node w V)
  /-- The address of the next node. -/
  next : ℕ

namespace Trie

variable {w : ℕ} {V : Type}

/-- `Trie::Trie`. -/
def empty : Trie w V where
  heap := update (fun _ => none) 0 (some (Node.new 0 0 none))
  next := 1

def read (t : Trie w V) (n : ℕ) : Sim (Node w V) :=
  match t.heap n with
  | some node => .ok node
  | none => .error (.undefined "use of a deleted node")

def write (t : Trie w V) (n : ℕ) (node : Node w V) : Trie w V :=
  { t with heap := update t.heap n (some node) }

/-- `new Node`, at the address `next`. -/
def alloc (t : Trie w V) (node : Node w V) : Trie w V where
  heap := update t.heap t.next (some node)
  next := t.next + 1

def delete (t : Trie w V) (n : ℕ) : Trie w V :=
  { t with heap := update t.heap n none }

/-- `goesAfter`: the kid to move to. -/
def goesAfter (t : Trie w V) (kid : Option ℕ) (key newMask : BitVec w) : Sim (Option ℕ) :=
  match kid with
  | none => .ok none
  | some k => do
    let node ← t.read k
    pure (if node.hits key && (node.mask &&& newMask == node.mask) then some k else none)

def extendMask (orig : BitVec w) : BitVec w := orig ||| (orig >>> 1) ||| (1#w <<< (w - 1))

/-- The kid, if there is one and it matches. -/
def matching (t : Trie w V) (kid : Option ℕ) (key : BitVec w) : Sim (Option ℕ) :=
  match kid with
  | none => .ok none
  | some k => do
    let node ← t.read k
    pure (if node.hits key then some k else none)

/-- The loop of `lookupHandle`. -/
def lookupLoop (t : Trie w V) (key : BitVec w) : ℕ → ℕ → Sim (Option ℕ)
  | 0, _ => .error .diverges
  | fuel + 1, n => do
    let node ← t.read n
    if node.value.isSome then pure (some n)
    else
      match ← t.matching node.kid0 key with
      | some k => lookupLoop t key fuel k
      | none =>
        match ← t.matching node.kid1 key with
        | some k => lookupLoop t key fuel k
        | none => pure none

def lookupHandle (t : Trie w V) (key : BitVec w) : Sim (Option ℕ) := t.lookupLoop key (w + 2) 0

def lookup (t : Trie w V) (key : BitVec w) : Sim (Option V) := do
  match ← t.lookupHandle key with
  | none => pure none
  | some n => pure (← t.read n).value

/-- The loop of `insert` that walks past all the nodes the new node will be inserted after. -/
def walkLoop (t : Trie w V) (key newMask : BitVec w) : ℕ → ℕ → Sim ℕ
  | 0, _ => .error .diverges
  | fuel + 1, n => do
    let node ← t.read n
    match ← t.goesAfter node.kid0 key newMask with
    | some k => walkLoop t key newMask fuel k
    | none =>
      match ← t.goesAfter node.kid1 key newMask with
      | some k => walkLoop t key newMask fuel k
      | none => pure n

/-- The loop of `insert` that walks down a leg until something does not match or it runs out of
bits. -/
def legLoop (key kidKey newMask : BitVec w) : ℕ → BitVec w → Sim (BitVec w)
  | 0, _ => .error .diverges
  | fuel + 1, lastMask =>
    let curMask := extendMask lastMask
    if key &&& curMask ≠ kidKey &&& curMask ∨ lastMask = newMask then .ok lastMask
    else legLoop key kidKey newMask fuel curMask

/-- `insert` at the leg `i` of the node `n`; nothing if this is not the right leg to go down. -/
def insertLeg (t : Trie w V) (n : ℕ) (key newMask : BitVec w) (val : Option V) (i : Fin 2) :
    Sim (Option (ℕ × Trie w V)) := do
  let node ← t.read n
  match node.kid i with
  | none =>
    -- no kid: a new one
    let leaf := t.next
    let t := t.alloc { Node.new key newMask val with parent := some n }
    pure (some (leaf, t.write n (node.setKid (some leaf) i)))
  | some k =>
    let kid ← t.read k
    let curMask ← legLoop key kid.key newMask (w + 2) node.mask
    if curMask = node.mask then pure none
    else
      let mid := t.next
      let t := t.alloc { Node.new key curMask none with parent := some n }
      let t := t.write k { kid with parent := some mid }
      let midNode := { Node.new key curMask none with parent := some n, kid0 := some k }
      let t := t.write mid midNode
      let t := t.write n (node.setKid (some mid) i)
      if curMask = newMask then
        -- ran out of bits: the value goes right here
        pure (some (mid, t.write mid { midNode with value := val }))
      else
        let leaf := t.next
        let t := t.alloc { Node.new key newMask val with parent := some mid }
        pure (some (leaf, t.write mid { midNode with kid1 := some leaf }))

/-- The mask of `insert`. -/
def widthMask (w width : ℕ) : Sim (BitVec w) :=
  if width = 0 then .error (.undefined "shift by MaxBits")
  else .ok (if width < w then BitVec.allOnes w <<< (w - width) else BitVec.allOnes w)

/-- `insert` below the node `n`: one of its legs is the right one. -/
def insertLegs (t : Trie w V) (n : ℕ) (key newMask : BitVec w) (val : Option V) :
    Sim (ℕ × Trie w V) := do
  match ← t.insertLeg n key newMask val 0 with
  | some r => pure r
  | none =>
    match ← t.insertLeg n key newMask val 1 with
    | some r => pure r
    | none => .error (.panic "Reached the end of the Trie insert function!\n")

def insert (t : Trie w V) (key : BitVec w) (width : ℕ) (val : Option V) : Sim (ℕ × Trie w V) := do
  assert val.isSome "val"
  let newMask ← widthMask w width
  let key := key &&& newMask
  let n ← t.walkLoop key newMask (w + 2) 0
  let node ← t.read n
  if node.mask = newMask then do
    assert node.value.isNone "!node->value"
    pure (n, t.write n { node with value := val })
  else t.insertLegs n key newMask val

/-- `parent->kids[..] = node->kids[0]`, and the kid of a parent that has only one is `kids[0]`. -/
def unlink (parent : Node w V) (n : ℕ) (kid : Option ℕ) : Sim (Node w V) := do
  let parent ← (
    if parent.kid0 = some n then pure { parent with kid0 := kid }
    else if parent.kid1 = some n then pure { parent with kid1 := kid }
    else .error (.panic "Trie: Inconsistent parent/kid relationship.\n"))
  pure (if parent.kid1.isSome && parent.kid0.isNone then
    { parent with kid0 := parent.kid1, kid1 := none } else parent)

/-- `remove(Handle)`, where it calls itself at most `fuel` times. -/
def removeNode : ℕ → Trie w V → ℕ → Sim (Option V × Trie w V)
  | 0, _, _ => .error .diverges
  | fuel + 1, t, n => do
    let node ← t.read n
    if node.kid1.isSome then do
      assert node.value.isSome "node->value"
      pure (node.value, t.write n { node with value := none })
    else
      match node.parent with
      | none => .error (.panic "Trie: Can't remove root node.\n")
      | some p =>
        let t ← (
          match node.kid0 with
          | none => pure t
          | some k => do
            let kid ← t.read k
            pure (t.write k { kid with parent := some p }))
        let parent ← unlink (← t.read p) n node.kid0
        let t := t.write p parent
        let t ← (
          if parent.kid1.isNone && parent.value.isNone && parent.parent.isSome then do
            let (_, t) ← removeNode fuel t p
            pure t
          else pure t)
        pure (node.value, t.delete n)

def remove (t : Trie w V) (handle : ℕ) : Sim (Option V × Trie w V) := removeNode (w + 2) t handle

/-- `remove(Key)`. -/
def removeKey (t : Trie w V) (key : BitVec w) : Sim (Option V × Trie w V) := do
  match ← t.lookupHandle key with
  | none => pure (none, t)
  | some handle => t.remove handle

inductive Call (w : ℕ) (V : Type)
  | insert (key : BitVec w) (width : ℕ) (val : V)
  | lookup (key : BitVec w)
  | remove (handle : ℕ)
  | removeKey (key : BitVec w)

inductive Answer (V : Type)
  | handle (n : ℕ)
  | value (v : Option V)

def call (t : Trie w V) : Call w V → Sim (Answer V × Trie w V)
  | .insert key width val => do
    let (n, t) ← t.insert key width (some val)
    pure (.handle n, t)
  | .lookup key => do
    let v ← t.lookup key
    pure (.value v, t)
  | .remove handle => do
    let (v, t) ← t.remove handle
    pure (.value v, t)
  | .removeKey key => do
    let (v, t) ← t.removeKey key
    pure (.value v, t)

section Spec

open Prefix (Agree)

/-- What was inserted under a handle. -/
structure Entry (w : ℕ) (V : Type) where
  key : BitVec w
  width : ℕ
  value : V

/-- The entries that were inserted and not removed, by handle. -/
abbrev Entries (w : ℕ) (V : Type) := ℕ → Option (Entry w V)

/-- The first bits of the key are those of the entry. -/
def Entry.Matches (e : Entry w V) (key : BitVec w) : Prop := Agree e.width e.key key

/-- The entry under `n` is the shortest one that matches. -/
def Entries.Shortest (σ : Entries w V) (key : BitVec w) (n : ℕ) (e : Entry w V) : Prop :=
  σ n = some e ∧ e.Matches key ∧ ∀ n' e', σ n' = some e' → e'.Matches key → e.width ≤ e'.width

def Entries.Misses (σ : Entries w V) (key : BitVec w) : Prop :=
  ∀ n e, σ n = some e → ¬ e.Matches key

/-- An entry is inserted once, under a width of at least one bit, and removed while it is there.  A
width past the end of the key is that of the whole key. -/
def Entries.Legal (σ : Entries w V) : Call w V → Prop
  | .insert key width _ => 1 ≤ width ∧ ∀ n e, σ n = some e →
      ¬ (min e.width w = min width w ∧ Agree width e.key key)
  | .remove handle => σ handle ≠ none
  | _ => True

/-- What a call answers, and the entries after it. -/
inductive Entries.Step (σ : Entries w V) : Call w V → Answer V → Entries w V → Prop
  | insert {key width val n} : σ n = none →
      Step σ (.insert key width val) (.handle n) (update σ n (some ⟨key, width, val⟩))
  | lookup_some {key n e} : σ.Shortest key n e → Step σ (.lookup key) (.value (some e.value)) σ
  | lookup_none {key} : σ.Misses key → Step σ (.lookup key) (.value none) σ
  | remove {n e} : σ n = some e →
      Step σ (.remove n) (.value (some e.value)) (update σ n none)
  | removeKey_some {key n e} : σ.Shortest key n e →
      Step σ (.removeKey key) (.value (some e.value)) (update σ n none)
  | removeKey_none {key} : σ.Misses key → Step σ (.removeKey key) (.value none) σ

/-- As long as the calls are legal, each one returns and answers as it should. -/
def Served (σ : Entries w V) (t : Trie w V) : List (Call w V) → Prop
  | [] => True
  | c :: calls => σ.Legal c →
      ∃ answer t' σ', t.call c = .ok (answer, t') ∧ σ.Step c answer σ' ∧ Served σ' t' calls

end Spec

end Trie

end Gem5Nvm
