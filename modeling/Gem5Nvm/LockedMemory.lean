import Gem5Nvm.AddrRange
import Gem5Nvm.MemCmd
import Gem5Nvm.Lib.Run

/-!
# Load-locked and store-conditional in a memory

`AbstractMemory::access` of mem/abstract_mem.cc with the bytes of the memory and its list of lock
records. A byte is named by its address; the memory is not a null memory.
-/

namespace Gem5Nvm

/-- A packet and what `access` reads of its request; `data` has the size of the packet. -/
structure AccessPacket where
  cmd : MemCmd
  addr : ℕ
  data : List UInt8
  /-- `getByteEnable()`, when the write is masked. -/
  byteEnable : Option (List Bool) := none
  contextId : Option ℕ := none
  cacheResponding : Bool := false
  isInstFetch : Bool := false
  isCondSwap : Bool := false
  extraData : ℕ := 0
  /-- `getAtomicOp()`, as a function of the bytes at the address. -/
  atomicOp : Option (List UInt8 → List UInt8) := none

namespace AccessPacket

def getSize (pkt : AccessPacket) : ℕ := pkt.data.length

def getAddrRange (pkt : AccessPacket) : AddrRange := .rangeSize pkt.addr pkt.getSize

/-- Whether a write writes the byte `i` of the packet. -/
def enabled (pkt : AccessPacket) (i : ℕ) : Bool :=
  match pkt.byteEnable with
  | none => true
  | some enable => enable.getD i false

/-- The bytes that `writeData(host_addr)` writes. -/
def writeData (pkt : AccessPacket) : Sim (List (ℕ × UInt8)) := do
  assert (pkt.byteEnable.all fun enable => enable.length = pkt.getSize)
    "req->getByteEnable().size() == getSize()"
  return ((List.range pkt.getSize).filter pkt.enabled).map fun i =>
    (pkt.addr + i, pkt.data.getD i 0)

/-- `makeResponse`, for a packet that needs one. -/
def makeResponse (pkt : AccessPacket) : AccessPacket :=
  if pkt.cmd.needsResponse then { pkt with cmd := pkt.cmd.responseCommand } else pkt

end AccessPacket

structure LockedAddr where
  addr : ℕ
  contextId : ℕ
  deriving DecidableEq, Repr

namespace LockedAddr

/-- `paddr & ~0xf`. -/
def mask (paddr : ℕ) : ℕ := paddr / 16 * 16

end LockedAddr

/-- A memory with its bytes and lock records. -/
structure LockedMemory where
  range : AddrRange
  bytes : ℕ → UInt8
  lockedAddrList : List LockedAddr := []

namespace LockedMemory

/-- What an access did: whether its write was carried out, and the bytes it wrote. -/
structure Event where
  pkt : AccessPacket
  response : AccessPacket
  performed : Bool := false
  stores : List (ℕ × UInt8) := []

/-- The existing record of the context gets the new address. -/
def moveRecord (paddr c : ℕ) : List LockedAddr → List LockedAddr
  | [] => []
  | r :: rs => if r.contextId = c then { r with addr := paddr } :: rs else r :: moveRecord paddr c rs

variable (s : LockedMemory)

def read (addr size : ℕ) : List UInt8 := (List.range size).map fun i => s.bytes (addr + i)

def store (stores : List (ℕ × UInt8)) : LockedMemory :=
  { s with bytes := stores.foldl (fun bytes x => Function.update bytes x.1 x.2) s.bytes }

def trackLoadLocked (pkt : AccessPacket) : Sim LockedMemory :=
  match pkt.contextId with
  | none => .error (.assertion "req->hasContextId()")
  | some c =>
    let paddr := LockedAddr.mask pkt.addr
    if s.lockedAddrList.any fun r => r.contextId = c then
      .ok { s with lockedAddrList := moveRecord paddr c s.lockedAddrList }
    else .ok { s with lockedAddrList := ⟨paddr, c⟩ :: s.lockedAddrList }

/-- The search for a record of the context and the address. -/
def matchesRecord (pkt : AccessPacket) : Sim Bool :=
  match pkt.contextId with
  | none => do
    assert (!s.lockedAddrList.any fun r => r.addr = LockedAddr.mask pkt.addr) "req->hasContextId()"
    return false
  | some c => .ok (s.lockedAddrList.any fun r => r.addr = LockedAddr.mask pkt.addr && r.contextId = c)

def checkLockedAddrList (pkt : AccessPacket) : Sim (Bool × LockedMemory) := do
  let allowStore ← if pkt.cmd.isLLSC then s.matchesRecord pkt else .ok true
  if allowStore then
    return (true, { s with
      lockedAddrList := s.lockedAddrList.filter fun r => r.addr ≠ LockedAddr.mask pkt.addr })
  else return (false, s)

def writeOK (pkt : AccessPacket) : Sim (Bool × LockedMemory) :=
  if s.lockedAddrList.isEmpty then .ok (!pkt.cmd.isLLSC, s) else s.checkLockedAddrList pkt

/-- The first bytes of a value, as they are in memory. -/
def hostBytes (size value : ℕ) : List UInt8 :=
  (List.range size).map fun i => UInt8.ofNat (value / 256 ^ i)

/-- Whether a swap overwrites the memory. -/
def overwriteMem (pkt : AccessPacket) : Sim Bool :=
  if pkt.isCondSwap then
    if pkt.getSize = 8 then .ok (hostBytes 8 pkt.extraData == s.read pkt.addr 8)
    else if pkt.getSize = 4 then .ok (hostBytes 4 pkt.extraData == s.read pkt.addr 4)
    else .error (.panic "Invalid size for conditional read/write\n")
  else .ok true

/-- `size` bytes for the memory at `addr`. -/
def storesAt (addr size : ℕ) (bytes : List UInt8) : List (ℕ × UInt8) :=
  (List.range size).map fun i => (addr + i, bytes.getD i 0)

/-- The branch for `SwapReq`. -/
def swap (pkt : AccessPacket) : Sim (Event × LockedMemory) :=
  let old := s.read pkt.addr pkt.getSize
  let response := { pkt with data := old }
  match pkt.atomicOp with
  | some op =>
    let stores := storesAt pkt.addr pkt.getSize (op old)
    .ok ({ pkt, response, performed := true, stores }, s.store stores)
  | none => do
    -- the bytes that are not enabled are zero in the value kept for the memory
    let written ← pkt.writeData
    let overwriteVal := (List.range pkt.getSize).map fun i =>
      ((written.find? fun x => x.1 = pkt.addr + i).map Prod.snd).getD 0
    let overwrite ← s.overwriteMem pkt
    assert (!pkt.isInstFetch) "!pkt->req->isInstFetch()"
    let stores := if overwrite then storesAt pkt.addr pkt.getSize overwriteVal else []
    return ({ pkt, response, performed := overwrite, stores }, s.store stores)

def load (pkt : AccessPacket) : Sim (Event × LockedMemory) := do
  assert (!pkt.cmd.isWrite) "!pkt->isWrite()"
  let response := { pkt with data := s.read pkt.addr pkt.getSize }
  if pkt.cmd.isLLSC then
    assert (!pkt.cmd.fromCache) "!pkt->fromCache()"
    return ({ pkt, response }, ← s.trackLoadLocked pkt)
  else return ({ pkt, response }, s)

def write (pkt : AccessPacket) : Sim (Event × LockedMemory) := do
  let (ok, s) ← s.writeOK pkt
  let response := if pkt.cmd.isLLSC then { pkt with extraData := ok.toNat } else pkt
  if ok then
    let stores ← pkt.writeData
    assert (!pkt.isInstFetch) "!pkt->req->isInstFetch()"
    return ({ pkt, response, performed := true, stores }, s.store stores)
  else return ({ pkt, response }, s)

/-- The branches of `access`. -/
def dispatch (pkt : AccessPacket) : Sim (Event × LockedMemory) :=
  if pkt.cmd = .swapReq then s.swap pkt
  else if pkt.cmd.isRead then s.load pkt
  else if pkt.cmd.isInvalidate || pkt.cmd.isClean then do
    assert (!pkt.cmd.isWrite) "!pkt->isWrite()"
    return ({ pkt, response := pkt }, s)
  else if pkt.cmd.isWrite then s.write pkt
  else .error (.panic "Unexpected packet %s")

def access (pkt : AccessPacket) : Sim (Event × LockedMemory) :=
  if pkt.cacheResponding ∨ pkt.cmd = .cleanEvict ∨ pkt.cmd = .writebackClean then
    .ok ({ pkt, response := pkt }, s)
  else do
    assert (← pkt.getAddrRange.isSubset s.range) "pkt->getAddrRange().isSubset(range)"
    let (e, s) ← s.dispatch pkt
    return ({ e with response := e.response.makeResponse }, s)

/-- A load-locked, store-conditional, plain write, swap or atomic inside the range. -/
def Regular (range : AddrRange) (pkt : AccessPacket) : Prop :=
  pkt.cacheResponding = false ∧ pkt.isInstFetch = false ∧
    pkt.getAddrRange.isSubset range = .ok true ∧
    (∀ enable ∈ pkt.byteEnable, enable.length = pkt.getSize) ∧
    ((pkt.cmd = .loadLockedReq ∨ pkt.cmd = .storeCondReq) ∧ pkt.contextId.isSome = true ∨
      (pkt.cmd = .writeReq ∨ pkt.cmd = .writeLineReq ∨ pkt.cmd = .writebackDirty ∨
        pkt.cmd = .writeClean) ∨
      pkt.cmd = .swapReq ∧
        (pkt.atomicOp = none → pkt.isCondSwap = true → pkt.getSize = 4 ∨ pkt.getSize = 8))

def Event.LoadLocked (c : ℕ) (e : Event) : Prop :=
  e.pkt.cmd = .loadLockedReq ∧ e.pkt.contextId = some c

/-- The latest load-locked of context `c` was to granule `g`, and no byte of `g` was written since. -/
def Reserved (c g : ℕ) (history : List Event) : Prop :=
  ∃ pre e post, history = pre ++ e :: post ∧ e.LoadLocked c ∧ e.pkt.addr / 16 = g ∧
    (∀ x ∈ post, ¬ x.LoadLocked c) ∧ ∀ x ∈ post, ∀ w ∈ x.stores, w.1 / 16 ≠ g

/-- A plain write, or a store-conditional whose record is there. -/
def allowStore (pkt : AccessPacket) : Bool :=
  !pkt.cmd.isLLSC ||
    s.lockedAddrList.any fun r => r.addr = LockedAddr.mask pkt.addr && some r.contextId = pkt.contextId

/-- Of the granules that have a record, a write that is carried out writes bytes of the one it
starts in and of no other, and a swap or atomic writes bytes of none. -/
def Tracked (pkt : AccessPacket) : Prop :=
  ∀ r ∈ s.lockedAddrList,
    if pkt.cmd = .swapReq then
      (pkt.atomicOp.isSome = true ∨ s.overwriteMem pkt = .ok true) →
        ∀ i < pkt.getSize, LockedAddr.mask (pkt.addr + i) ≠ r.addr
    else (pkt.cmd.isWrite = true ∧ s.allowStore pkt = true) →
      ((∃ i < pkt.getSize, pkt.enabled i = true ∧ LockedAddr.mask (pkt.addr + i) = r.addr) ↔
        LockedAddr.mask pkt.addr = r.addr)

end LockedMemory

end Gem5Nvm
