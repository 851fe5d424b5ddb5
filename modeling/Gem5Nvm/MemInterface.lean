import Gem5Nvm.Interleaving
import Gem5Nvm.Timing

/-!
# Packets and interfaces of a memory controller

`MemPacket` of `mem/mem_ctrl.hh`, and what the DRAM and the NVM interface share: `MemInterface` of
`mem/mem_interface.cc`. A `Packet*` is the number of the packet among those the controller has
accepted.
-/

namespace Gem5Nvm

/-- What `decodePacket` reads of a `Packet`. -/
structure SystemPacket where
  requestorId : ℕ
  qosValue : ℕ
  deriving DecidableEq

structure MemPacket where
  entryTime : ℕ
  readyTime : ℕ
  pkt : ℕ
  requestorId : ℕ
  read : Bool
  dram : Bool
  rank : ℕ
  bank : ℕ
  row : ℕ
  addr : ℕ
  size : ℕ
  burstHelper : Option ℕ
  qosValue : ℕ
  deriving DecidableEq, Repr

/-- `MemInterface::Bank`; a bank is known by its place. -/
structure Bank where
  openRow : ℕ
  rdAllowedAt : ℕ
  wrAllowedAt : ℕ
  preAllowedAt : ℕ
  actAllowedAt : ℕ
  rowAccesses : ℕ
  deriving DecidableEq, Repr

namespace Bank

def noRow : ℕ := 2 ^ 32 - 1

def new : Bank := ⟨noRow, 0, 0, 0, 0, 0⟩

end Bank

inductive AddrMap
  | roRaBaChCo
  | roRaBaCoCh
  | roCoRaBaCh
  deriving DecidableEq, Repr

/-- The constructors check that a burst is a power of two. -/
structure MemInterface where
  range : AddrRange
  addrMapping : AddrMap
  burstSize : ℕ
  rowBufferSize : ℕ
  ranksPerChannel : ℕ
  banksPerRank : ℕ
  rowsPerBank : ℕ
  burst_pow2 : ∃ k < 32, burstSize = 2 ^ k

def divide (a b : ℕ) : Sim ℕ :=
  if b = 0 then .error (.undefined "division by zero") else .ok (a / b)

/-- A remainder of unsigned integers. -/
def modulo (a b : ℕ) : Sim ℕ :=
  if b = 0 then .error (.undefined "division by zero") else .ok (a % b)

namespace MemInterface

variable (i : MemInterface)

def getCtrlAddr (addr : ℕ) : Sim ℕ := i.range.getOffset addr

/-- `capacity` in the constructors: the size of the range, as a power of two. -/
def capacity : Sim ℕ := do
  let n ← ceilLog2 i.range.size
  if n ≥ 64 then .error (.undefined "ULL(1) << ceilLog2(AbstractMemory::size())")
  else return 2 ^ n

/-- The constructors of `DRAMInterface` and `NVMInterface` find the number of rows; the product is
one of 32-bit numbers. -/
def construct : Sim MemInterface := do
  let rows ← divide (← i.capacity) (u32 (i.rowBufferSize * i.banksPerRank * i.ranksPerChannel))
  return { i with rowsPerBank := u32 rows }

/-- The bank and the rank an address selects, and what is left of it. -/
def bankAndRank (addr : ℕ) : Sim (ℕ × ℕ × ℕ) := do
  let bank ← modulo addr i.banksPerRank
  let addr ← divide addr i.banksPerRank
  let rank ← modulo addr i.ranksPerChannel
  let addr ← divide addr i.ranksPerChannel
  return (bank % 2 ^ 8, rank % 2 ^ 8, addr)

/-- The rank, bank and row of an address. -/
def decodeAddr (pktAddr : ℕ) : Sim (ℕ × ℕ × ℕ) := do
  let burstsPerRowBuffer := i.rowBufferSize / i.burstSize
  let burstsPerStripe := if i.range.interleaved then u32 (i.range.granularity / i.burstSize) else 1
  let addr := (← i.getCtrlAddr pktAddr) / i.burstSize
  match i.addrMapping with
  | .roRaBaChCo | .roRaBaCoCh =>
    let addr ← divide addr burstsPerRowBuffer
    let (bank, rank, addr) ← i.bankAndRank addr
    return (rank, bank, ← modulo addr i.rowsPerBank)
  | .roCoRaBaCh =>
    let addr ← divide addr
      (if burstsPerStripe > burstsPerRowBuffer then burstsPerRowBuffer else burstsPerStripe)
    let (bank, rank, addr) ← i.bankAndRank addr
    let addr ← if burstsPerStripe < burstsPerRowBuffer then
        divide addr (burstsPerRowBuffer / burstsPerStripe)
      else .ok addr
    return (rank, bank, ← modulo addr i.rowsPerBank)

def decodePacket (curTick ptr : ℕ) (pkt : SystemPacket) (pktAddr size : ℕ) (isRead isDram : Bool) :
    Sim MemPacket := do
  let (rank, bank, row) ← i.decodeAddr pktAddr
  assert (decide (rank < i.ranksPerChannel)) "rank < ranksPerChannel"
  assert (decide (bank < i.banksPerRank)) "bank < banksPerRank"
  assert (decide (row < i.rowsPerBank)) "row < rowsPerBank"
  assert (decide (row < Bank.noRow)) "row < Bank::NO_ROW"
  return {
    entryTime := curTick, readyTime := curTick, pkt := ptr, requestorId := pkt.requestorId
    read := isRead, dram := isDram, rank := rank, bank := bank, row := row
    addr := pktAddr, size := size, burstHelper := none, qosValue := pkt.qosValue }

section Spec

/-- The geometries of the interfaces: powers of two with at most 256 banks and ranks, not larger
than the capacity, on a range that is contiguous or interleaved in stripes. -/
structure Geometry : Prop where
  rowBuffer : ∃ k < 32, i.rowBufferSize = 2 ^ k
  banks : ∃ k ≤ 8, i.banksPerRank = 2 ^ k
  ranks : ∃ k ≤ 8, i.ranksPerChannel = 2 ^ k
  range : i.range.masks = [] ∧ i.range.end_ < 2 ^ 64 ∨ i.range.MasksDisjoint ∧ i.range.Aligned
  inhabited : ∃ a, i.range.contains a = true
  fits : i.rowBufferSize * i.banksPerRank * i.ranksPerChannel ≤ 2 ^ Nat.clog 2 i.range.size

def InBurst (a x : ℕ) : Prop := ∃ o, i.getCtrlAddr a = .ok o ∧ x = o / i.burstSize

/-- Every address of the range has a place, and no more bursts than a row buffer holds have the
same one. -/
structure Decodes : Prop where
  place : ∀ a, i.range.contains a = true → ∀ curTick ptr pkt size isRead isDram, ∃ p,
    i.decodePacket curTick ptr pkt a size isRead isDram = .ok p ∧
      p.rank < i.ranksPerChannel ∧ p.bank < i.banksPerRank ∧ p.row < i.rowsPerBank
  shared : ∀ rank bank row curTick ptr pkt size isRead isDram,
    {x | ∃ a p, i.range.contains a = true ∧ i.InBurst a x ∧
      i.decodePacket curTick ptr pkt a size isRead isDram = .ok p ∧
      p.rank = rank ∧ p.bank = bank ∧ p.row = row}.encard ≤ (i.rowBufferSize / i.burstSize : ℕ)

/-- The divisors of `decodePacket` are not zero, and the numbers they are computed from fit 32
bits. -/
structure Divisible : Prop where
  burst_le : i.burstSize ≤ i.rowBufferSize
  product_lt : i.rowBufferSize * i.banksPerRank * i.ranksPerChannel < 2 ^ 32
  rows_lt : 2 ^ Nat.clog 2 i.range.size / (i.rowBufferSize * i.banksPerRank * i.ranksPerChannel)
    < 2 ^ 32
  stripe : i.addrMapping = .roCoRaBaCh → i.range.interleaved = true →
    u32 (i.range.granularity / i.burstSize) ≠ 0
  apart : ¬ (0 ∈ i.range.masks.map ctz64 ∧ 1 ∈ i.range.masks.map ctz64)

end Spec

end MemInterface

end Gem5Nvm
