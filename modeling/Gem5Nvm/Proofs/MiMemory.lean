import Gem5Nvm.Proofs.MiDma

/-!
# What changes a line of MI_example

The block that counts is what a line is to its users. Whatever the caches and the DMA controllers
do, a step leaves it as it is, serves requests from it one after the other, or is a write of the
memory for a DMA controller, after which what the memory has counts.
-/

namespace Gem5Nvm.MiExample

open Ruby (DataBlock)

variable {C D : Type} [DecidableEq C] [DecidableEq D] (memory : ℕ → DataBlock)
  (ops : List (ℕ × Op C D))

theorem along_held {P : (ℕ → Line C D) → ℕ × Op C D → Prop}
    (h : ∀ lines o, Held lines → P lines o) : Run.Along step P (start memory) ops :=
  Run.along_imp (P := fun _ _ => True) (I := Held)
    (fun lines o hl _ => ⟨h lines o hl, fun _ _ hs => hl.step hs⟩) ops
    (fun a => ⟨sound_start memory a, memory a, data_start rfl⟩) (Run.along_true _ _)

/-- The blocks of all lines before and after a step, of which it changes that of its own line at
most. -/
def Accounted (lines : ℕ → Line C D) (o : ℕ × Op C D) (lines' : ℕ → Line C D) : Prop :=
  ∃ b b' : ℕ → DataBlock, (∀ a x, (lines a).Current x ↔ x = b a) ∧
    (∀ a x, (lines' a).Current x ↔ x = b' a) ∧
    Outcome (lines o.1) o.2 (lines' o.1) (b o.1) (b' o.1) ∧
    ∀ a ≠ o.1, b' a = b a ∧ (lines' a).hits = (lines a).hits

/-- Each step changes one line at most, and what it does to the block that counts is an `Outcome`. -/
theorem steps_accounted : Run.Along step
    (fun lines o => ∀ u lines', step lines o = .ok (u, lines') → Accounted lines o lines')
    (start memory) ops := by
  refine along_held memory ops fun lines o h u lines' hstep => ?_
  choose b hb using fun a => (h a).2
  obtain ⟨-, line, rfl, hc⟩ := step_eq_ok (fun a => (h a).1) hstep
  obtain ⟨x, hout, hx⟩ := hc.outcome (h o.1).1 (hb o.1)
  refine ⟨b, Function.update b o.1 x, fun a => (h a).1.current_eq (hb a), fun a => ?_, ?_, ?_⟩
  · by_cases ha : a = o.1
    · subst ha
      simpa using (hc.inv (h o.1).1).current_eq hx
    · simpa [ha] using (h a).1.current_eq (hb a)
  · simpa using hout
  · intro a ha
    simp [ha]

/-- At most one cache has a line, and the directory has it down as the owner or is waiting for its
block on behalf of a DMA controller. -/
theorem one_owner : Run.Along step
    (fun lines _ => ∀ a c, (lines a).getCacheState c = .M →
      (∀ c', (lines a).getCacheState c' = .M → c' = c) ∧
        ((lines a).entry.directoryState = .M ∨ (lines a).entry.directoryState = .M_DRD ∨
          (lines a).entry.directoryState = .M_DWR)) (start memory) ops := by
  refine along_held memory ops fun lines o h a c hc => ?_
  have hi := (h a).1
  have hplace : ∀ x, Holds (lines a).dir (lines a).view x → x = .cache c :=
    fun x hx => hi.holder x _ hx (hi.hasBlock hc)
  refine ⟨fun c' hc' => by simpa using hplace (.cache c') (hi.hasBlock hc'), ?_⟩
  by_contra hne
  simp only [not_or] at hne
  cases hplace .memory hne

/-- No request for the line is under way. -/
def Line.Quiet (s : Line C D) : Prop :=
  s.tbe = none ∧ ∀ c, s.cacheTbe c = none ∧ s.forwardToCache c = []

/-- The directory and the caches agree on who has the line. -/
def Line.Agrees (s : Line C D) : Prop :=
  (s.entry.directoryState = .I ∧ s.entry.owner = ∅ ∨
      ∃ o, s.entry.directoryState = .M ∧ s.entry.owner = {o}) ∧
    ∀ c, s.getCacheState c = if c ∈ s.entry.owner then .M else .I

/-- When nothing is under way for a line, the directory knows which cache has it. -/
theorem quiet_agrees : Run.Along step (fun lines _ => ∀ a, (lines a).Quiet → (lines a).Agrees)
    (start memory) ops := by
  refine along_held memory ops fun lines o h a hq => ?_
  have hi := (h a).1
  constructor
  · rcases hi.dir.idle_or_busy with hp | ⟨o, hp⟩ | ⟨t, ht⟩
    · exact .inl (by simp [(Line.dir_eq hp).1])
    · exact .inr ⟨o, by simp [(Line.dir_eq hp).1]⟩
    · cases hq.1.symm.trans ht
  · intro c
    obtain ⟨ht, hf⟩ := hq.2 c
    have hc : CachePhase c (c ∈ (lines a).entry.owner) _ _ _ := hi.cache c
    generalize hv : (lines a).view c = v at hc
    obtain ⟨hentry, htbe, -, hfw, -⟩ := Line.view_eq hv
    rw [ht] at htbe
    rw [hf] at hfw
    cases hc with
    | @idle e he hown hwb =>
      rw [if_neg hown, Line.getCacheState, ht, hentry]
      cases e with
      | none => rfl
      | some e => exact he e rfl
    | modified he hch hwb =>
      obtain rfl := hfw
      rcases hch with ⟨hown, -⟩ | ⟨-, r, hr⟩
      · rw [if_pos hown, Line.getCacheState, ht, hentry]
        exact he
      · cases hr
    | _ => cases htbe

variable {own wb blocked : Prop}

omit [DecidableEq C] in
theorem CachePhase.single {c : C} {v : View C} (h : CachePhase c own wb blocked v) :
    v.responses.length ≤ 1 ∧ v.forwards.countP (·.type = .GETX) ≤ 1 := by
  cases h <;> grind [Chained, getx, invalidate, wbAck, wbNack]

/-- A cache is sent a block only when its request was accepted, by one sender at most and once: no
two blocks are on their way to a cache, and no cache is told twice to pass its block on. -/
theorem one_source : Run.Along step
    (fun lines _ => ∀ a r, ((lines a).responseToCache r).length ≤ 1 ∧
      ((lines a).forwardToCache r).countP (·.type = .GETX) ≤ 1 ∧
      ∀ x, Feeds (lines a).dir (lines a).view r x →
        Waiting ((lines a).view r) ∧ ∀ y, Feeds (lines a).dir (lines a).view r y → y = x)
    (start memory) ops := by
  refine along_held memory ops fun lines o h a r => ?_
  obtain ⟨hresponses, hforwards⟩ := ((h a).1.cache r).single
  exact ⟨hresponses, hforwards, fun x hx =>
    ⟨(h a).1.waiting r x hx, fun y hy => (h a).1.source r y x hy hx⟩⟩

omit [DecidableEq C] in
theorem CachePhase.few {c : C} {v : View C} (h : CachePhase c own wb blocked v) :
    v.requests.length + v.forwards.length + v.responses.length ≤ 2 := by
  cases h <;> grind [Chained]

omit [DecidableEq C] [DecidableEq D] in
theorem DirPhase.few {p : Line.DirPart C D} (h : DirPhase p) :
    p.toMemory.length + p.fromMemory.length ≤ 1 := by
  cases h <;> grind [InMemory]

theorem DmaPhase.few {served : Option DMARequestType} {v : DmaView} (h : DmaPhase served v) :
    v.requests.length + v.responses.length ≤ 1 := by
  cases h <;> simp

/-- The buffers of a line stay short: two messages for a cache, one for the memory and one for a DMA
controller. -/
theorem few_messages : Run.Along step
    (fun lines _ => ∀ a, let s := lines a
      (∀ c, (s.requestToDir c).length + (s.forwardToCache c).length
        + (s.responseToCache c).length ≤ 2) ∧
      s.requestToMemory.length + s.responseFromMemory.length ≤ 1 ∧
      ∀ d, (s.dmaRequestToDir d).length + (s.dmaResponseFromDir d).length ≤ 1)
    (start memory) ops :=
  along_held memory ops fun _ _ h a =>
    ⟨fun c => ((h a).1.cache c).few, (h a).1.dir.few, fun d => ((h a).1.dma d).few⟩

end Gem5Nvm.MiExample
