import Gem5Nvm.DramScheduler

/-!
# What the packets of the NVM do to the DRAM scheduler

The scans of `chooseNextFRFCFS` and `minBankPrep` step over the packets of the NVM, and so find the
same without them (`chooseNextFRFCFS_ofDram`).  The scan of `doBurstAccess` does not: a packet of
the NVM counts as one to the DRAM bank of the same numbers, and `autoPrecharge_ofDram_iff` says when
that makes a difference.
-/

namespace Gem5Nvm.Dram

variable {d : DramInterface} {s : Dram} {queue : List MemPacketPtr} {minColAt : ℕ}

section Choose

theorem gotWaiting_ofDram : s.gotWaiting d (ofDram queue) = s.gotWaiting d queue := by
  unfold gotWaiting ofDram
  rw [List.foldl_filter]
  congr 1
  funext waiting p
  rcases p.dram <;> simp

theorem minBankPrep_ofDram : s.minBankPrep d (ofDram queue) minColAt
    = s.minBankPrep d queue minColAt := by
  unfold minBankPrep
  rw [gotWaiting_ofDram]

theorem consider_ofDram (pkt : MemPacketPtr) (c : Choice) :
    s.consider d (ofDram queue) minColAt pkt c = s.consider d queue minColAt pkt c := by
  unfold consider considerClosed
  rw [minBankPrep_ofDram]

theorem consider_nvm {pkt : MemPacketPtr} (h : pkt.dram = false) (c : Choice) :
    s.consider d queue minColAt pkt c = .ok (false, c) := by
  simp [consider, h]

theorem chooseLoop_ofDram : ∀ (rest : List MemPacketPtr) (c : Choice),
    s.chooseLoop d (ofDram queue) minColAt (ofDram rest) c = s.chooseLoop d queue minColAt rest c
  | [], c => rfl
  | pkt :: rest, c => by
    rcases hd : pkt.dram
    · have hskip : ofDram (pkt :: rest) = ofDram rest := List.filter_cons_of_neg (by simp [hd])
      rw [hskip, chooseLoop_ofDram rest c, chooseLoop, consider_nvm hd]
      rfl
    · have hkeep : ofDram (pkt :: rest) = pkt :: ofDram rest := List.filter_cons_of_pos hd
      rw [hkeep, chooseLoop, chooseLoop, consider_ofDram]
      refine bind_congr ?_
      rintro ⟨stop, c'⟩
      rcases stop
      · exact chooseLoop_ofDram rest c'
      · rfl

theorem chooseNextFRFCFS_ofDram : s.chooseNextFRFCFS d (ofDram queue) minColAt
    = s.chooseNextFRFCFS d queue minColAt := by
  unfold chooseNextFRFCFS
  rw [chooseLoop_ofDram]

end Choose

section Precharge

variable {memPkt : MemPacketPtr} {queues : List (List MemPacketPtr)}

/-- Another packet to the row of `memPkt`. -/
def isHit (memPkt q : MemPacketPtr) : Bool := sameRankBank memPkt q && decide (memPkt.row = q.row)

/-- A packet to another row of the bank. -/
def isConflict (memPkt q : MemPacketPtr) : Bool :=
  sameRankBank memPkt q && !decide (memPkt.row = q.row)

theorem scanQueue_spec (memPkt : MemPacketPtr) : ∀ (queue : List MemPacketPtr) (conflict : Bool),
    (scanQueue memPkt queue (false, conflict)).1 = queue.any (isHit memPkt) ∧
      (queue.any (isHit memPkt) = false →
        (scanQueue memPkt queue (false, conflict)).2 = (conflict || queue.any (isConflict memPkt)))
  | [], conflict => by simp [scanQueue]
  | p :: rest, conflict => by
    have hstep : scanQueue memPkt (p :: rest) (false, conflict)
        = scanQueue memPkt rest (isHit memPkt p, conflict || isConflict memPkt p) := rfl
    rw [hstep, List.any_cons, List.any_cons]
    rcases hp : isHit memPkt p
    · obtain ⟨h₁, h₂⟩ := scanQueue_spec memPkt rest (conflict || isConflict memPkt p)
      rw [Bool.false_or]
      exact ⟨h₁, fun h => (h₂ h).trans (Bool.or_assoc _ _ _)⟩
    · have hstop : ∀ c, scanQueue memPkt rest (true, c) = (true, c) := fun c => by
        rcases rest with _ | ⟨q, rest⟩ <;> rfl
      rw [hstop]
      simp

theorem scanQueues_spec (memPkt : MemPacketPtr) :
    ∀ (queues : List (List MemPacketPtr)) (conflict : Bool),
    (scanQueues memPkt queues (false, conflict)).1 = queues.any (·.any (isHit memPkt)) ∧
      (queues.any (·.any (isHit memPkt)) = false →
        (scanQueues memPkt queues (false, conflict)).2
          = (conflict || queues.any (·.any (isConflict memPkt))))
  | [], conflict => by simp [scanQueues]
  | queue :: queues, conflict => by
    obtain ⟨h₁, h₂⟩ := scanQueue_spec memPkt queue conflict
    rw [scanQueues, List.any_cons, List.any_cons]
    rcases hq : queue.any (isHit memPkt)
    · have hfound : scanQueue memPkt queue (false, conflict)
          = (false, conflict || queue.any (isConflict memPkt)) := Prod.ext (h₁.trans hq) (h₂ hq)
      obtain ⟨h₃, h₄⟩ := scanQueues_spec memPkt queues (conflict || queue.any (isConflict memPkt))
      rw [hfound, Bool.false_or]
      exact ⟨h₃, fun h => (h₄ h).trans (Bool.or_assoc _ _ _)⟩
    · rw [h₁, hq]
      simp [h₁, hq]

theorem autoPrecharge_eq : s.autoPrecharge d memPkt queues
    = (s.alwaysPrecharged d memPkt.toMemPacket ||
      (!queues.any (·.any (isHit memPkt)) &&
        (decide (d.pageMgmt = .closeAdaptive) ||
          (decide (d.pageMgmt = .openAdaptive) && queues.any (·.any (isConflict memPkt)))))) := by
  obtain ⟨h₁, h₂⟩ := scanQueues_spec memPkt queues false
  unfold autoPrecharge
  rcases hscan : scanQueues memPkt queues (false, false) with ⟨hit, conflict⟩
  rw [hscan] at h₁ h₂
  obtain rfl : hit = queues.any (·.any (isHit memPkt)) := h₁
  rcases halways : s.alwaysPrecharged d memPkt.toMemPacket
  · rcases hhit : queues.any (·.any (isHit memPkt))
    · obtain rfl : conflict = queues.any (·.any (isConflict memPkt)) := h₂ hhit
      rcases d.pageMgmt <;> simp
    · simp
  · simp

variable {p : MemPacketPtr → Bool}

theorem hit_iff : Hit memPkt queues (fun q => p q = true) ↔
    queues.any (·.any fun q => p q && isHit memPkt q) = true := by
  simp [Hit, isHit, List.any_eq_true]

theorem conflict_iff : Conflict memPkt queues (fun q => p q = true) ↔
    queues.any (·.any fun q => p q && isConflict memPkt q) = true := by
  simp [Conflict, isConflict, List.any_eq_true]

theorem any_ofDram (p : MemPacketPtr → Bool) :
    (queues.map ofDram).any (·.any p) = queues.any (·.any fun q => q.dram && p q) := by
  rw [List.any_map]
  congr 1
  funext queue
  exact List.any_filter

theorem any_split (p : MemPacketPtr → Bool) : queues.any (·.any p)
    = (queues.any (·.any fun q => q.dram && p q) ||
      queues.any (·.any fun q => !q.dram && p q)) := by
  rw [Bool.eq_iff_iff]
  simp only [Bool.or_eq_true, List.any_eq_true, Bool.and_eq_true, Bool.not_eq_true']
  constructor
  · rintro ⟨queue, hqueue, q, hq, hp⟩
    rcases hd : q.dram
    · exact .inr ⟨queue, hqueue, q, hq, hd, hp⟩
    · exact .inl ⟨queue, hqueue, q, hq, hd, hp⟩
  · rintro (⟨queue, hqueue, q, hq, -, hp⟩ | ⟨queue, hqueue, q, hq, -, hp⟩)
    · exact ⟨queue, hqueue, q, hq, hp⟩
    · exact ⟨queue, hqueue, q, hq, hp⟩

theorem autoPrecharge_ofDram_iff : s.autoPrecharge d memPkt (queues.map ofDram)
    = s.autoPrecharge d memPkt queues ↔ s.Undisturbed d memPkt queues := by
  unfold Undisturbed
  rw [hit_iff, hit_iff, conflict_iff, conflict_iff, autoPrecharge_eq, autoPrecharge_eq, any_ofDram,
    any_ofDram, any_split (isHit memPkt), any_split (isConflict memPkt)]
  generalize queues.any (·.any fun q => q.dram && isHit memPkt q) = hitDram
  generalize queues.any (·.any fun q => !q.dram && isHit memPkt q) = hitNvm
  generalize queues.any (·.any fun q => q.dram && isConflict memPkt q) = conflictDram
  generalize queues.any (·.any fun q => !q.dram && isConflict memPkt q) = conflictNvm
  have hclose : d.pageMgmt = .close → s.alwaysPrecharged d memPkt.toMemPacket = true := by
    intro h
    simp [alwaysPrecharged, h]
  generalize s.alwaysPrecharged d memPkt.toMemPacket = always at hclose ⊢
  rcases always
  · rcases hitDram
    · rcases hm : d.pageMgmt <;> rcases hitNvm <;> rcases conflictDram <;> simp [hm] at hclose ⊢
    · simp
  · simp

end Precharge

/-- The packets of the NVM never change which packet the DRAM scheduler selects; they leave alone
whether the row of a packet is closed after its burst exactly where it is `Undisturbed`. -/
theorem dram_undisturbed_iff (d : DramInterface) (s : Dram) (queue : List MemPacketPtr)
    (minColAt : ℕ) (memPkt : MemPacketPtr) (queues : List (List MemPacketPtr)) :
    s.chooseNextFRFCFS d (ofDram queue) minColAt = s.chooseNextFRFCFS d queue minColAt ∧
      (s.autoPrecharge d memPkt (queues.map ofDram) = s.autoPrecharge d memPkt queues ↔
        s.Undisturbed d memPkt queues) :=
  ⟨chooseNextFRFCFS_ofDram, autoPrecharge_ofDram_iff⟩

/-- A DRAM of one rank with eight banks, under the open adaptive policy. -/
def adaptiveDram : DramInterface where
  range := .contiguous 0 0x40000000
  addrMapping := .roRaBaCoCh
  burstSize := 64
  rowBufferSize := 8192
  ranksPerChannel := 1
  banksPerRank := 8
  rowsPerBank := 16384
  burst_pow2 := ⟨6, by omega, rfl⟩
  tRCD := 13750
  tRP := 13750
  pageMgmt := .openAdaptive
  maxAccessesPerRow := 16

/-- A read of a bank of the given medium. -/
def readOf (dram : Bool) (bank row ptr : ℕ) : MemPacketPtr where
  entryTime := 0
  readyTime := 0
  pkt := ptr
  requestorId := 0
  read := true
  dram := dram
  rank := 0
  bank := bank
  row := row
  addr := 0
  size := 64
  burstHelper := none
  qosValue := 0
  ptr := ptr

/-- A read of an NVM row closes the DRAM row of a bank with the same number, which stays open when
the read of the NVM is not there. -/
theorem nvm_read_closes_row :
    (⟨fun _ _ => .new, fun _ => true, true, 0⟩ : Dram).autoPrecharge adaptiveDram
        (readOf true 3 7 0) [[readOf true 3 7 0, readOf false 3 9 1]] = true ∧
      (⟨fun _ _ => .new, fun _ => true, true, 0⟩ : Dram).autoPrecharge adaptiveDram
        (readOf true 3 7 0) ([[readOf true 3 7 0, readOf false 3 9 1]].map ofDram) = false := by
  constructor <;> rfl

end Gem5Nvm.Dram
