import Gem5Nvm.Syscalls

/-!
# What keeps an address space in order

The areas of a process are to be non-empty page-aligned ranges that are pairwise disjoint
(`VmasOk`), and every page its calls have mapped is to lie in one of them or in the stack
(`Process.Accounted`).  `Traced` runs a process together with the set of pages its calls have
mapped.  `Process.Careful` says which calls keep both.
-/

namespace Gem5Nvm

open Run

namespace Vma

def bytes (v : Vma) : Set ℕ := Set.Ico v.start v.end_

structure Sane (pageBytes : ℕ) (v : Vma) : Prop where
  start_lt : v.start < v.end_
  end_lt : v.end_ < 2 ^ 64
  start_dvd : pageBytes ∣ v.start
  end_dvd : pageBytes ∣ v.end_

end Vma

/-- The addresses the areas of a list cover. -/
def covered (l : List Vma) : Set ℕ := {a | ∃ v ∈ l, a ∈ v.bytes}

/-- Non-empty page-aligned pairwise disjoint ranges. -/
structure VmasOk (pageBytes : ℕ) (l : List Vma) : Prop where
  sane : ∀ v ∈ l, v.Sane pageBytes
  disjoint : (l.map Vma.bytes).Pairwise Disjoint

namespace Process

/-- The page size is one number, a power of two that divides the address space. -/
structure Uniform (p : Process) : Prop where
  memState : p.memState.pageBytes = p.system.pageBytes
  pTable : p.pTable.pageSize = p.system.pageBytes
  shift : p.system.pageShift < 64

/-- The page at `v` lies in one area, or meets the stack region. -/
def Accounted (p : Process) (v : ℕ) : Prop :=
  (∃ w ∈ p.memState.vmaList, Set.Ico v (v + p.memState.pageBytes) ⊆ w.bytes) ∨
    ∃ a ∈ Set.Ico v (v + p.memState.pageBytes),
      p.memState.stackMin ≤ a ∧ a < p.memState.stackBase

/-- Moving the pages from `start` on to `newStart` moves the areas and the pages alike: nothing wraps
around, no page is met twice, every page that moves is in an area, and the areas that move come to
lie on none that stays. -/
structure MovesCleanly (p : Process) (start newStart length : ℕ) : Prop where
  length_pos : 0 < length
  start_lt : start + length < 2 ^ 64
  newStart_lt : newStart + length < 2 ^ 64
  apart : newStart < start ∨ start + length ≤ newStart
  pages : ∀ v ∈ Set.Ico start (start + length), p.pTable.pTable v ≠ none →
    v ∈ covered p.memState.vmaList
  target : ∀ a ∈ Set.Ico start (start + length), a ∈ covered p.memState.vmaList →
    a - start + newStart ∈ covered p.memState.vmaList →
    a - start + newStart ∈ Set.Ico start (start + length)

/-- The calls under which the areas and the pages stay in step. -/
def Careful (p : Process) : Op → Prop
  | .brk _ | .mmap .. | .fault _ => True
  | .munmap start length =>
    start.toNat % p.system.pageBytes = 0 →
      start.toNat + roundUp length.toNat p.system.pageBytes < 2 ^ 64
  | .mremap start oldLength newLength flags vararg =>
    let start := start.toNat
    let oldLength := oldLength.toNat
    let newLength := roundUp newLength.toNat p.system.pageBytes
    let provided := if flags.fixed then vararg.toNat else 0
    let target := if flags.fixed then provided else (p.mremapTarget newLength).1
    start % p.system.pageBytes = 0 → provided % p.system.pageBytes = 0 →
      if newLength > oldLength then
        -- it grows in place, or is refused, or what it adds is inside areas that stay
        u64 (start + oldLength) = p.memState.mmapEnd ∧ (¬ flags.fixed ∨ provided = start) ∨
        (¬ flags.fixed ∧ ¬ flags.mayMove) ∨
        p.MovesCleanly start target oldLength ∧ target + newLength < 2 ^ 64 ∧
          ∀ v ∈ Set.Ico (target + oldLength) (target + newLength),
            v ∈ covered p.memState.vmaList ∧ v ∉ Set.Ico start (start + oldLength)
      else
        (flags.fixed ∧ provided ≠ start → p.MovesCleanly start provided newLength) ∧
        (newLength ≠ oldLength → u64 (start + newLength) + (oldLength - newLength) < 2 ^ 64)

end Process

/-- A process and the pages its calls have mapped. -/
structure Traced where
  process : Process
  created : Set ℕ

namespace Traced

/-- The pages mapped by the calls so far, once a call has led from `p` to `p'`. -/
def pages (p p' : Process) (g : Set ℕ) : Set ℕ :=
  {v | p'.pTable.pTable v ≠ none ∧ (v ∈ g ∨ p'.pTable.pTable v ≠ p.pTable.pTable v)}

def step (t : Traced) (o : Process.Op) : Sim (Process.Answer × Traced) := do
  let (r, p) ← t.process.step o
  return (r, ⟨p, pages t.process p t.created⟩)

/-- The areas are in order, and account for every page the calls have mapped. -/
def InOrder (t : Traced) : Prop :=
  VmasOk t.process.memState.pageBytes t.process.memState.vmaList ∧
    ∀ v ∈ t.created, t.process.Accounted v

def Careful (t : Traced) (o : Process.Op) : Prop := t.process.Careful o

end Traced

end Gem5Nvm
