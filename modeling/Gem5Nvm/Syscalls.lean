import Gem5Nvm.MemState

/-!
# The memory system calls

`brkFunc` and `munmapFunc` of `sim/syscall_emul.cc`, `mremapFunc` and `mmapFunc` of
`sim/syscall_emul.hh`.  A file descriptor is what it stands for, an open host file or nothing that
can be mapped; emulated drivers are left out, and so are the warnings.
-/

namespace Gem5Nvm

inductive Errno
  | EINVAL
  | ENOMEM
  | EBADF
  deriving DecidableEq, Repr

/-- What a call returns: a value, or `-errno`. -/
inductive SyscallReturn
  | value (v : ℕ)
  | error (e : Errno)
  deriving DecidableEq, Repr

/-- `TGT_MAP_PRIVATE`, `TGT_MAP_SHARED`, `TGT_MAP_ANONYMOUS` and `TGT_MAP_FIXED`. -/
structure MmapFlags where
  isPrivate : Bool
  shared : Bool
  anonymous : Bool
  fixed : Bool
  deriving DecidableEq, Repr

/-- `TGT_MREMAP_MAYMOVE` and `TGT_MREMAP_FIXED`. -/
structure MremapFlags where
  mayMove : Bool
  fixed : Bool
  deriving DecidableEq, Repr

namespace Process

def brkFunc (p : Process) (newBrk : ℕ) : Sim (SyscallReturn × Process) :=
  let brkPoint := p.memState.brkPoint
  if newBrk = 0 ∨ newBrk = brkPoint then .ok (.value brkPoint, p)
  else do
    let p ← p.updateBrkRegion brkPoint newBrk
    return (.value p.memState.brkPoint, p)

def munmapFunc (p : Process) (start length : ℕ) : Sim (SyscallReturn × Process) :=
  let pageBytes := p.system.pageBytes
  if start % pageBytes ≠ 0 ∨ length = 0 then .ok (.error .EINVAL, p)
  else do
    let p ← p.unmapRegion start (roundUp length pageBytes)
    return (.value 0, p)

/-- Where a region that moves without `MREMAP_FIXED` goes, and the `mmapEnd` after it. -/
def mremapTarget (p : Process) (newLength : ℕ) : ℕ × ℕ :=
  let mmapEnd := p.memState.mmapEnd
  if p.mmapGrowsDown then (usub mmapEnd newLength, usub mmapEnd newLength)
  else (mmapEnd, u64 (mmapEnd + newLength))

/-- The part of `mremapFunc` that grows a region by moving it. -/
def mremapMove (p : Process) (start oldLength newLength : ℕ) (fixed : Bool) (provided : ℕ) :
    Sim (SyscallReturn × Process) := do
  let newStart := if fixed then provided else (p.mremapTarget newLength).1
  let p := if fixed then p
    else p.setMemState { p.memState with mmapEnd := (p.mremapTarget newLength).2 }
  let p ← p.allocateMem (u64 (newStart + oldLength)) (toInt64 (usub newLength oldLength)) fixed
  let p ← p.remapRegion start newStart oldLength
  return (.value newStart, p)

/-- The part of `mremapFunc` that does not grow the region. -/
def mremapShrink (p : Process) (start oldLength newLength : ℕ) (fixed : Bool) (provided : ℕ) :
    Sim (SyscallReturn × Process) := do
  let p ← (if fixed ∧ provided ≠ start then p.remapRegion start provided newLength else .ok p)
  let p ← (if newLength ≠ oldLength then
    p.unmapRegion (u64 (start + newLength)) (usub oldLength newLength) else .ok p)
  return (.value (if fixed then provided else start), p)

/-- `mremapFunc`; the provided address is read with `MREMAP_FIXED` only. -/
def mremapFunc (p : Process) (start oldLength newLength : ℕ) (flags : MremapFlags)
    (vararg : ℕ) : Sim (SyscallReturn × Process) :=
  let pageBytes := p.system.pageBytes
  let provided := if flags.fixed then vararg else 0
  if start % pageBytes ≠ 0 ∨ provided % pageBytes ≠ 0 then .ok (.error .EINVAL, p)
  else
    let newLength := roundUp newLength pageBytes
    if newLength > oldLength then
      let mmapEnd := p.memState.mmapEnd
      if u64 (start + oldLength) = mmapEnd ∧ (¬ flags.fixed ∨ provided = start) then do
        let diff := usub newLength oldLength
        let p ← p.mapRegion mmapEnd diff "remapped" none 0
        return (.value start,
          p.setMemState { p.memState with mmapEnd := u64 (mmapEnd + diff) })
      else if ¬ flags.fixed ∧ ¬ flags.mayMove then .ok (.error .ENOMEM, p)
      else p.mremapMove start oldLength newLength flags.fixed provided
    else p.mremapShrink start oldLength newLength flags.fixed provided

/-- The address `mmapFunc` maps at, with what is there taken away if it is a fixed one. -/
def mmapPlace (p : Process) (start length : ℕ) (fixed : Bool) : Sim (ℕ × Process) :=
  if fixed then do
    let p ← p.unmapRegion start length
    return (start, p)
  else do
    let hintFree ← (if start ≠ 0 then p.isUnmapped start length else .ok false)
    if hintFree then return (start, p) else p.extendMmap length

def mmapFunc (p : Process) (start length : ℕ) (flags : MmapFlags) (fd : Option HostFile)
    (offset : ℕ) : Sim (SyscallReturn × Process) :=
  let pageBytes := p.system.pageBytes
  if start % pageBytes ≠ 0 ∨ offset % pageBytes ≠ 0 ∨ (flags.isPrivate ∧ flags.shared) ∨
      (¬ flags.isPrivate ∧ ¬ flags.shared) ∨ length = 0 then .ok (.error .EINVAL, p)
  else if ¬ flags.anonymous ∧ fd.isNone then .ok (.error .EBADF, p)
  else do
    let length := roundUp length pageBytes
    let file := if flags.anonymous then none else fd
    let (start, p) ← p.mmapPlace start length flags.fixed
    let p ← p.mapRegion start length ((file.map HostFile.name).getD "anon") file offset
    return (.value start, p)

/-- The calls that change an address space, and the page faults. -/
inductive Op
  | brk (newBrk : UInt64)
  | mmap (start length : UInt64) (flags : MmapFlags) (fd : Option HostFile) (offset : UInt64)
  | munmap (start length : UInt64)
  | mremap (start oldLength newLength : UInt64) (flags : MremapFlags) (vararg : UInt64)
  | fault (vaddr : UInt64)

inductive Answer
  | syscall (r : SyscallReturn)
  | fixed (b : Bool)
  deriving DecidableEq, Repr

def step (p : Process) : Op → Sim (Answer × Process)
  | .brk newBrk => (p.brkFunc newBrk.toNat).map fun x => (.syscall x.1, x.2)
  | .mmap start length flags fd offset =>
    (p.mmapFunc start.toNat length.toNat flags fd offset.toNat).map fun x => (.syscall x.1, x.2)
  | .munmap start length =>
    (p.munmapFunc start.toNat length.toNat).map fun x => (.syscall x.1, x.2)
  | .mremap start oldLength newLength flags vararg =>
    (p.mremapFunc start.toNat oldLength.toNat newLength.toNat flags vararg.toNat).map
      fun x => (.syscall x.1, x.2)
  | .fault vaddr => (p.fixupFault vaddr.toNat).map fun x => (.fixed x.1, x.2)

end Process

end Gem5Nvm
