import Gem5Nvm.Proofs.MiData

/-!
# MI_example: DMA writes

The write of a DMA controller changes the block when the memory carries it out, and the block stays
as it is until the directory has sent the acknowledgement.
-/

namespace Gem5Nvm.MiExample

open Ruby (DataBlock SequencerRequest Hit RubyRequestType)

variable {C D : Type} [DecidableEq C] [DecidableEq D]

/-- Every line is in order and has a block. -/
def Held (lines : ℕ → Line C D) : Prop :=
  ∀ a, (lines a).Inv ∧ ∃ b, Data (lines a).dir (lines a).view (lines a).memory b

variable {s : Line C D}

theorem Change.held {s' : Line C D} {op : Op C D} (hc : Change s op s') (hi : s.Inv)
    (h : ∃ b, Data s.dir s.view s.memory b) : ∃ b, Data s'.dir s'.view s'.memory b := by
  obtain ⟨b, hb⟩ := h
  obtain ⟨b', -, hb'⟩ := hc.outcome hi hb
  exact ⟨b', hb'⟩

variable {lines : ℕ → Line C D}

theorem Held.step {lines' : ℕ → Line C D} {o : ℕ × Op C D} {u : Unit} (h : Held lines)
    (hstep : step lines o = .ok (u, lines')) : Held lines' :=
  step_lines Change.held h hstep

variable {memory : ℕ → DataBlock}

theorem held_of_run {ops : List (ℕ × Op C D)} {us : List Unit}
    (hrun : Run.run step (start memory) ops = .ok (us, lines)) : Held lines :=
  run_lines Change.held (fun a => ⟨memory a, data_start rfl⟩) hrun

/-- The directory waits for a write of the memory on behalf of a DMA controller. -/
def WritingFor (t : Directory.TBE D) (m : MemoryMsg C D) : Prop :=
  m.type = .MEMORY_WB ∧ (∃ d, t.dmaRequestor = some d) ∧
    (t.tbeState = .ID_W ∨ t.tbeState = .M_DWRI ∧ ∃ c, m.sender = .cache c)

/-- The memory has carried out the write of a DMA controller, and the directory has not heard. -/
structure Wrote (t : Directory.TBE D) (w : DataBlock) (s : Line C D) : Prop where
  inv : s.Inv
  dir : ∃ m, s.dir = ⟨⟨t.tbeState, ∅, ∅⟩, some t, [], [m]⟩ ∧ WritingFor t m
  memory : s.memory = w
  data : Data s.dir s.view s.memory w

variable {b w : DataBlock} {t : Directory.TBE D}

theorem Wrote.change {s' : Line C D} {op : Op C D} (h : Wrote t w s) (hc : Change s op s')
    (hop : op ≠ .memoryResponse) : Wrote t w s' := by
  obtain ⟨m, hdir, hfor⟩ := h.dir
  have hstate : t.tbeState = .ID_W ∨ t.tbeState = .M_DWRI := hfor.2.2.imp_right And.left
  have hstays : s'.dir = s.dir ∧ s'.memory = s.memory := by
    cases hc with
    | fetch _ hp | handOver _ _ hp | writeBack _ hp | data _ hp | dmaReadBack _ _ hp
    | dmaWriteBack _ _ hp | dmaRead _ hp | dmaWrite _ hp | dmaInvalidate _ _ hp => simp [hdir] at hp
    | ack _ hp hst =>
      rw [hdir] at hp
      injection hp with he
      injection he with he
      rcases hst with rfl | rfl <;> simp [he] at hstate
    | serve hto => simp [(Line.dir_eq hdir).2.2.1] at hto
    | dmaAnswer | dmaAck => exact absurd rfl hop
    | _ => exact ⟨rfl, rfl⟩
  have hinv := hc.inv h.inv
  obtain ⟨b, -, hb⟩ := hc.outcome h.inv h.data
  have hmem : s'.memory = w := hstays.2.trans h.memory
  refine ⟨hinv, ⟨m, hstays.1.trans hdir, hfor⟩, hmem, ?_⟩
  have hheld : Holds s'.dir s'.view .memory := by
    rw [hstays.1, hdir]
    rcases hstate with hst | hst <;> simp [Holds, hst]
  obtain rfl : b = w := (hb.memory_eq hinv hheld (by rw [hstays.1, hdir])).symm.trans hmem
  exact hb

/-- What the memory holds after the write that the directory has in its TBE. -/
def Directory.TBE.writes (t : Directory.TBE D) (memory : DataBlock) : DataBlock := fun i =>
  if t.len = 0 ∨ i < t.len then t.dataBlk i else memory i

theorem Line.Inv.wrote (hi : s.Inv) (hd : Data s.dir s.view s.memory b)
    (hto : s.requestToMemory ≠ []) (ht : s.tbe = some t)
    (hst : t.tbeState = .ID_W ∨ t.tbeState = .M_DWRI) :
    Wrote t (t.writes s.memory) s.serveMemory := by
  obtain ⟨m, hdir, hfor⟩ : ∃ m, s.dir = ⟨⟨t.tbeState, ∅, ∅⟩, some t, [m], []⟩ ∧ WritingFor t m := by
    have hphase := hi.dir
    generalize hp : s.dir = p at hphase
    obtain ⟨-, htbe, hto', -⟩ := Line.dir_eq hp
    rw [ht] at htbe
    cases hphase with
    | invalid => cases htbe
    | modified => cases htbe
    | fetching _ _ ht' hst' | writingBack _ _ ht' hst' | dmaFetching _ _ ht' hst'
    | dmaReadBack _ _ ht' hst' =>
      obtain rfl := Option.some.inj (htbe.trans ht')
      simp [hst'] at hst
    | dmaWriting d he ht' hst' hd hm =>
      obtain rfl := Option.some.inj (htbe.trans ht')
      obtain ⟨m, htype, -, rfl | rfl⟩ := hm.cases he ht'
      · exact ⟨m, by rw [hst'], htype, ⟨d, hd⟩, .inl hst'⟩
      · exact absurd hto' hto
    | dmaWriteBack c d he ht' hst' hd hm =>
      obtain rfl := Option.some.inj (htbe.trans ht')
      obtain ⟨m, htype, hsender, rfl | rfl⟩ := hm.cases he ht'
      · exact ⟨m, by rw [hst'], htype, ⟨d, hd⟩, .inr ⟨hst', c, hsender⟩⟩
      · exact absurd hto' hto
    | _ => exact absurd hto' hto
  obtain ⟨hentry, -, hto', hfrom⟩ := Line.dir_eq hdir
  obtain ⟨hdata, hlen⟩ := hd.carried.write t m (by rw [hdir]) (by rw [hdir]) hst
  have hwrites : written m s.memory = t.writes s.memory := by
    funext i
    simp [written, Directory.TBE.writes, hdata, hlen]
  have hserve : s.serveMemory = { s with
      requestToMemory := []
      responseFromMemory := [m]
      memory := t.writes s.memory } := by
    rw [← hwrites]
    simp [Line.serveMemory, hto', hfrom, hfor.1]
    rfl
  have hinv := (memory_change hi).inv hi
  unfold Line.Inv at hi
  rw [hdir] at hi hd
  rw [hserve] at hinv ⊢
  have hdir' : Line.dir { s with
      requestToMemory := []
      responseFromMemory := [m]
      memory := t.writes s.memory } = ⟨⟨t.tbeState, ∅, ∅⟩, some t, [], [m]⟩ := by
    simp [Line.dir, hentry, ht]
  refine ⟨hinv, ⟨m, hdir', hfor⟩, rfl, ?_⟩
  rw [hdir']
  have hserved := hd.serveWrite hi hfor.1
  rwa [hwrites] at hserved

theorem Wrote.acknowledge (h : Wrote t w s) :
    ∃ s', s.takeMemory = .ok s' ∧ s'.Inv ∧ Data s'.dir s'.view s'.memory w ∧
      ∃ d msg, msg ∈ s'.dmaResponseFromDir d ∧ msg.type = .ACK := by
  obtain ⟨m, hdir, hm, ⟨d, hd⟩, hstate⟩ := h.dir
  obtain ⟨hentry, htbe, -, hfrom⟩ := Line.dir_eq hdir
  have htake : s.takeMemory = s.triggerDir .Memory_Ack .memory := by
    simp [Line.takeMemory, hfrom, hm, Line.memoryEvent]
  obtain ⟨s', hok, hdir', hmem', hack⟩ : ∃ s', s.takeMemory = .ok s' ∧
      s'.dir = ⟨⟨.I, ∅, ∅⟩, none, [], []⟩ ∧ s'.memory = s.memory ∧
      ∃ d msg, msg ∈ s'.dmaResponseFromDir d ∧ msg.type = .ACK := by
    rw [htake]
    rcases hstate with hst | ⟨hst, c, hsender⟩
    · refine ⟨_, Line.triggerDir_ack_ID_W hfrom htbe hst hd (by rw [hentry]) (by rw [hentry]), ?_⟩
      refine ⟨?_, rfl, d, { type := .ACK }, ?_, rfl⟩
      · simp [Line.sendDmaResponse_eq_setDmaView, hdir, hentry]
      · simp [Line.sendDmaResponse, Line.setDmaResponses]
    · refine ⟨_, Line.triggerDir_ack_M_DWRI hfrom hsender htbe hst hd (by rw [hentry])
        (by rw [hentry]), ?_⟩
      refine ⟨?_, rfl, d, { type := .ACK }, ?_, rfl⟩
      · simp [Line.sendDmaResponse_eq_setDmaView, Line.setForwards_eq_setView, hdir, hentry]
      · simp [Line.sendDmaResponse, Line.setDmaResponses]
  obtain ⟨s'', hok', hc⟩ := memoryResponse_change h.inv
  obtain rfl : s' = s'' := by simpa [hok] using hok'
  have hinv := hc.inv h.inv
  obtain ⟨b, -, hb⟩ := hc.outcome h.inv h.data
  have hheld : Holds s'.dir s'.view .memory := by simp [Holds, hdir']
  have hbw : b = w := (hb.memory_eq hinv hheld (by rw [hdir'])).symm.trans (hmem'.trans h.memory)
  exact ⟨s', hok, hinv, hbw ▸ hb, hack⟩

theorem wrote_run {a : ℕ} :
    ∀ {mid : List (ℕ × Op C D)} {lines lines' : ℕ → Line C D} {us : List Unit}, Held lines →
      Wrote t w (lines a) → (a, .memoryResponse) ∉ mid →
      Run.run step lines (mid ++ [(a, .memoryResponse)]) = .ok (us, lines') →
      ∃ line, Wrote t w line ∧ line.takeMemory = .ok (lines' a)
  | [], lines, lines', us, hheld, hw, _, hrun => by
    obtain ⟨u, lines₁, us', hstep, hrun', -⟩ := Run.run_cons_eq_ok.1 hrun
    obtain ⟨line, hnext, hlines⟩ := Sim.bind_eq_ok.1 hstep
    cases hlines
    cases hrun'
    exact ⟨lines a, hw, by simpa [Line.next] using hnext⟩
  | o :: mid, lines, lines', us, hheld, hw, hmid, hrun => by
    obtain ⟨u, lines₁, us', hstep, hrun', -⟩ := Run.run_cons_eq_ok.1 hrun
    have hheld₁ := hheld.step hstep
    obtain ⟨-, line, rfl, hc⟩ := step_eq_ok (fun a => (hheld a).1) hstep
    obtain ⟨hne, hmid'⟩ := not_or.1 (mt List.mem_cons.2 hmid)
    refine wrote_run hheld₁ ?_ hmid' hrun'
    by_cases ha : a = o.1
    · subst ha
      rw [Function.update_self]
      refine hw.change hc fun hop => hne ?_
      rw [← hop]
    · rwa [Function.update_of_ne ha]

omit [DecidableEq C] [DecidableEq D] in
theorem writes_exactly_iff {B paddr : ℕ} {data : List UInt8} {memory : DataBlock}
    (hin : paddr % B + data.length ≤ B)
    (hdata : t.dataBlk = (makeRequest B paddr true data).dataBlk)
    (hlen : t.len = (makeRequest B paddr true data).len) :
    (∀ i < B, t.writes memory i = b.setData data (paddr % B) i) ↔
      WritesExactly B paddr data b memory := by
  have hlen' : t.len = data.length := by simp [hlen, makeRequest, hin]
  have hdata' : t.dataBlk = DataBlock.setData (fun _ => 0) data (paddr % B) := by
    simp [hdata, makeRequest, hin]
  refine forall_congr' fun i => imp_congr_right fun _ => ?_
  simp only [Directory.TBE.writes, hlen', hdata', List.length_eq_zero_iff]
  by_cases hi : data = [] ∨ i < data.length
  · simp only [hi, if_true, Ruby.DataBlock.setData]
    rw [← List.length_eq_zero_iff] at hi ⊢
    by_cases hrange : paddr % B ≤ i ∧ i < paddr % B + data.length
    · have hout : ¬ (data.length = 0 ∨ i < paddr % B) := by omega
      rw [if_pos hrange, if_pos hrange]
      exact iff_of_true rfl fun h => absurd h hout
    · have hout : data.length = 0 ∨ i < paddr % B := by omega
      rw [if_neg hrange, if_neg hrange]
      exact ⟨fun h _ => h.symm, fun h => (h hout).symm⟩
  · simp only [hi, if_false]

omit [DecidableEq C] in
theorem Line.Inv.current_eq (hi : s.Inv) (hd : Data s.dir s.view s.memory b) (x : DataBlock) :
    s.Current x ↔ x = b := by
  rw [hi.current_iff]
  constructor
  · rintro ⟨p, hp⟩
    obtain ⟨q, hq⟩ := hd.copy
    exact hi.copy_unique hq hp
  · rintro rfl
    exact hd.copy

/-- A DMA write of `data` at `paddr`, in a state that a run leads to: after the memory has carried it
out and the directory has acknowledged it, the line is what it was with the data in its place exactly
when the bytes that the write leaves to chance are right. -/
theorem dma_write_exact_iff {B paddr a : ℕ} {data : List UInt8} {memory : ℕ → DataBlock}
    {ops mid : List (ℕ × Op C D)} {us us' : List Unit} {lines lines' : ℕ → Line C D}
    (hrun : Run.run step (start memory) ops = .ok (us, lines))
    (hin : paddr % B + data.length ≤ B) (hw : (lines a).Writing B paddr data)
    (hmid : (a, .memoryResponse) ∉ mid)
    (hrun' : Run.run step lines ((a, .memory) :: (mid ++ [(a, .memoryResponse)])) =
      .ok (us', lines')) :
    (∃ d msg, msg ∈ (lines' a).dmaResponseFromDir d ∧ msg.type = .ACK) ∧
      ∃ b b', (∀ x, (lines a).Current x ↔ x = b) ∧ (∀ x, (lines' a).Current x ↔ x = b') ∧
        ((∀ i < B, b' i = b.setData data (paddr % B) i) ↔
          WritesExactly B paddr data b (lines a).memory) := by
  have hheld := held_of_run hrun
  obtain ⟨hto, t, ht, hst, -, hdata, hlen⟩ := hw
  obtain ⟨b, hb⟩ := (hheld a).2
  have hserved := (hheld a).1.wrote hb hto ht hst
  obtain ⟨u, lines₁, us₁, hstep, hrun₁, -⟩ := Run.run_cons_eq_ok.1 hrun'
  have hheld₁ := hheld.step hstep
  have hwrote : Wrote t (t.writes (lines a).memory) (lines₁ a) := by
    obtain ⟨line, hnext, hlines⟩ := Sim.bind_eq_ok.1 hstep
    cases hlines
    cases hnext
    simpa using hserved
  obtain ⟨line, hline, htake⟩ := wrote_run hheld₁ hwrote hmid hrun₁
  obtain ⟨s', hok, hinv, hnew, hack⟩ := hline.acknowledge
  obtain rfl : s' = lines' a := by simpa [hok] using htake
  exact ⟨hack, b, _, (hheld a).1.current_eq hb, hinv.current_eq hnew,
    writes_exactly_iff hin hdata hlen⟩

/-- One byte at the start of a line that the memory has. -/
theorem dma_write_exact_first_byte :
    ∃ (lines lines' : ℕ → Line Unit Unit), ∃ b b', (∀ x, (lines 0).Current x ↔ x = b) ∧
      (∀ x, (lines' 0).Current x ↔ x = b') ∧ ∀ i < 4, b' i = b.setData [9] 0 i := by
  obtain ⟨lines, lines', m, hrun, hrun', hw, hmem, hstate, hto, hsender⟩ :
      ∃ lines lines' m,
        Run.run (step (C := Unit) (D := Unit)) (start fun _ _ => 1)
          [(0, .dmaMandatory () (makeRequest 4 0 true [9])), (0, .dmaRequest ())] =
            .ok ([(), ()], lines) ∧
        Run.run step lines [(0, .memory), (0, .memoryResponse)] = .ok ([(), ()], lines') ∧
        (lines 0).Writing 4 0 [9] ∧ (lines 0).memory = (fun _ => 1) ∧
        (lines 0).entry.directoryState = .ID_W ∧ (lines 0).requestToMemory = [m] ∧
        m.sender = .dma () :=
    ⟨_, _, _, rfl, rfl, ⟨List.cons_ne_nil _ _, _, rfl, .inl rfl, rfl, rfl, rfl⟩, rfl, rfl, rfl, rfl⟩
  obtain ⟨-, b, b', hb, hb', hiff⟩ := dma_write_exact_iff hrun (by decide) hw List.not_mem_nil hrun'
  refine ⟨_, _, b, b', hb, hb', hiff.2 fun i _ => ?_⟩
  have hone : (lines 0).memory = b := by
    refine (hb _).1 (.memory (by simp [hstate]) ?_)
    simp [hto, hsender]
  rw [← hone, hmem]
  by_cases hi : i = 0
  · simp [hi]
  · simp [hi, DataBlock.setData]

variable {ops : List (ℕ × Op C D)}

theorem forall_current_of_run {us : List Unit} {a : ℕ} {P : DataBlock → Prop}
    (hrun : Run.run step (start memory) ops = .ok (us, lines)) (hb : (lines a).Current b)
    (hP : P b) : ∀ x, (lines a).Current x → P x := by
  intro x hx
  obtain ⟨hinv, b₀, hb₀⟩ := held_of_run hrun a
  rwa [(hinv.current_eq hb₀ x).1 hx, ← (hinv.current_eq hb₀ b).1 hb]

omit [DecidableEq C] [DecidableEq D] in
theorem Line.current_of_idle (hstate : s.entry.directoryState = .I) (hto : s.requestToMemory = []) :
    s.Current s.memory :=
  .memory (by simp [hstate]) (by simp [hto])

/-- A byte for offset 2 leaves a zero at offset 0 and the old byte at offset 2; and a byte for offset
0 takes the byte away that the owner of the line has stored at offset 1. -/
theorem dma_write_misplaced :
    (∃ us, ∃ lines : ℕ → Line Unit Unit,
      Run.run step (start fun _ _ => 1)
        [(0, .dmaMandatory () (makeRequest 4 2 true [9])), (0, .dmaRequest ()), (0, .memory),
          (0, .memoryResponse)] = .ok (us, lines) ∧
      ∀ x, (lines 0).Current x → x 0 = 0 ∧ x 2 = 1) ∧
    ∃ us us', ∃ lines lines' : ℕ → Line Unit Unit,
      Run.run step (start fun _ _ => 1)
        [(0, .mandatory () .ST []), (0, .request ()), (0, .memory), (0, .memoryResponse),
          (0, .response () 0 [⟨{ line := 0, offset := 1, data := [5], isWrite := true }, .ST, .ST⟩])] =
        .ok (us, lines) ∧
      (∀ x, (lines 0).Current x → x 1 = 5) ∧
      Run.run step lines
        [(0, .dmaMandatory () (makeRequest 4 0 true [9])), (0, .dmaRequest ()), (0, .forward ()),
          (0, .request ()), (0, .memory), (0, .memoryResponse)] = .ok (us', lines') ∧
      ∀ x, (lines' 0).Current x → x 0 = 9 ∧ x 1 = 1 := by
  refine ⟨⟨?_, ?_, ?run, forall_current_of_run ?run (Line.current_of_idle ?_ ?_) ⟨?_, ?_⟩⟩,
    ?_, ?_, ?_, ?_, ?store,
    forall_current_of_run ?store (@Line.Current.entry _ _ _ () ?_ ?_ ?owned ?_) ?_, ?write,
    forall_current_of_run (Run.run_append ?store ?write) (Line.current_of_idle ?_ ?_) ⟨?_, ?_⟩⟩
  case run => rfl
  case store => rfl
  case write => rfl
  case owned => rfl
  all_goals rfl

end Gem5Nvm.MiExample
