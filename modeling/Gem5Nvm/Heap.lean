import Gem5Nvm.AddressSpace

/-!
# The break

What a `brk` call is to do (`BrkGood`): move the break where it is asked to, with areas under all of
the heap, or leave everything as it is.  `BrkServed` says when a call does.
-/

namespace Gem5Nvm.Process

/-- The areas named `heap` are pairwise disjoint. -/
def HeapDisjoint (p : Process) : Prop :=
  ((p.memState.vmaList.filter fun v => v.name = "heap").map Vma.bytes).Pairwise Disjoint

/-- A `brk` call, or an `mmap` call without `MAP_FIXED`. -/
def HeapOp : Op → Prop
  | .brk _ => True
  | .mmap _ _ flags _ _ => flags.fixed = false
  | _ => False

/-- A `brk` call returns: either the break is what was asked for, and areas cover the heap from
`initial` up to it, or it is what it was, and nothing has changed.  No call makes two heap areas
overlap. -/
def BrkGood (initial : ℕ) (p : Process) : Op → Prop
  | .brk newBrk => ∃ r p', p.step (.brk newBrk) = .ok (.syscall (.value r), p') ∧
      p'.HeapDisjoint ∧
      (r = newBrk.toNat ∧ Set.Ico initial r ⊆ covered p'.memState.vmaList ∨
        r = p.memState.brkPoint ∧ p'.memState.vmaList = p.memState.vmaList ∧
          p'.pTable = p.pTable ∧ p'.memState.brkPoint = p.memState.brkPoint ∧
          p'.memState.endBrkPoint = p.memState.endBrkPoint)
  | o => ∀ r p', p.step o = .ok (r, p') → p'.HeapDisjoint

/-- The calls that do: those that do not raise the break, those that stay in the last page mapped or
meet an area, and those for which no page is mapped where the heap grows; but none that asks for a
break in the last page of the address space. -/
def BrkServed (p : Process) : Op → Prop
  | .brk newBrk =>
    newBrk.toNat = 0 ∨ newBrk.toNat ≤ p.memState.brkPoint ∨
      newBrk.toNat + p.memState.pageBytes ≤ 2 ^ 64 ∧
        let top := roundUp newBrk.toNat p.memState.pageBytes
        (top ≤ p.memState.endBrkPoint ∨
          (∃ v ∈ p.memState.vmaList, v.start < top ∧ p.memState.endBrkPoint < v.end_) ∨
          ∀ v, p.memState.pageBytes ∣ v → p.memState.endBrkPoint ≤ v → v < top →
            p.pTable.pTable v = none)
  | _ => True

end Gem5Nvm.Process
