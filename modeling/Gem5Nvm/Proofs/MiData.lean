import Gem5Nvm.Proofs.MiRuns

/-!
# MI_example: the block

There is one current copy of a line. A change moves it, completes requests with it, or is the write
of a DMA controller.
-/

namespace Gem5Nvm.MiExample

open Function (update update_of_ne)
open Ruby (DataBlock SequencerRequest Hit RubyRequestType hitData hit serveAll)

variable {C D : Type}

/-! ### Copies -/

/-- The block of a cache that has it. -/
inductive CacheCopy (v : View C) : DataBlock → Prop
  | response {m : ResponseMsg} (hm : m ∈ v.responses) : CacheCopy v m.dataBlk
  | entry {e : L1Cache.Entry} (ht : v.tbe = none) (he : v.entry = some e)
    (hM : e.cacheState = .M) : CacheCopy v e.dataBlk
  | tbe {t : L1Cache.TBE} (ht : v.tbe = some t) (hMI : t.tbeState = .MI)
    (hkept : v.requests ≠ [] ∨ ∃ r, getx r ∈ v.forwards) : CacheCopy v t.dataBlk

inductive MemoryCopy (p : Line.DirPart C D) (view : C → View C) (memory : DataBlock) :
    DataBlock → Prop
  | writeBack {c : C} {t : L1Cache.TBE} {m : MemoryMsg C D} (hm : p.toMemory = [m])
    (htype : m.type = .MEMORY_WB) (hsender : m.sender = .cache c) (ht : (view c).tbe = some t) :
    MemoryCopy p view memory t.dataBlk
  | memory (hm : ∀ m ∈ p.toMemory, ∀ c, m.type = .MEMORY_WB → m.sender ≠ .cache c) :
    MemoryCopy p view memory memory

def Copy (p : Line.DirPart C D) (view : C → View C) (memory : DataBlock) :
    Place C → DataBlock → Prop
  | .cache c, b => CacheCopy (view c) b
  | .memory, b => Holds p view .memory ∧ MemoryCopy p view memory b

variable {p : Line.DirPart C D} {view : C → View C} {dma : D → DmaView} {memory b b' : DataBlock}

variable {v : View C}

theorem CacheCopy.hasBlock (h : CacheCopy v b) : HasBlock v := by
  cases h with
  | response hm => exact .inl (List.ne_nil_of_mem hm)
  | entry ht he hM => exact .inr (.inl ⟨ht, _, he, hM⟩)
  | tbe ht hMI hkept => exact .inr (.inr ⟨_, ht, hMI, hkept⟩)

theorem Copy.holds {x : Place C} (h : Copy p view memory x b) : Holds p view x := by
  cases x with
  | cache c => exact h.hasBlock
  | memory => exact h.1

theorem CacheCopy.unique_of_nil (hnil : v.responses = []) (hb : CacheCopy v b)
    (hb' : CacheCopy v b') : b' = b := by
  cases hb with
  | response hm => simp [hnil] at hm
  | entry ht he =>
    cases hb' with
    | response hm => simp [hnil] at hm
    | entry _ he' => rw [Option.some.inj (he'.symm.trans he)]
    | tbe ht' => simp [ht] at ht'
  | tbe ht =>
    cases hb' with
    | response hm => simp [hnil] at hm
    | entry ht' => simp [ht] at ht'
    | tbe ht' => rw [Option.some.inj (ht'.symm.trans ht)]

theorem CachePhase.copy_unique {c : C} {own wb blocked : Prop} (h : CachePhase c own wb blocked v)
    (hb : CacheCopy v b) (hb' : CacheCopy v b') : b' = b := by
  cases h with
  | @waiting e t fw rs ht _ _ hrs =>
    have hone : ∀ {x : DataBlock}, CacheCopy ⟨some e, some t, [], fw, rs⟩ x →
        ∃ m ∈ rs, m.dataBlk = x := by
      intro x hx
      cases hx with
      | response hm => exact ⟨_, hm, rfl⟩
      | entry hnone => cases hnone
      | tbe hsome hMI _ =>
        cases hsome
        rcases ht with ht | ht <;> simp [ht] at hMI
    obtain ⟨m, hm, rfl⟩ := hone hb
    obtain ⟨m', hm', rfl⟩ := hone hb'
    rcases rs with _ | ⟨r, _ | ⟨_, _⟩⟩
    · cases hm
    · rw [List.mem_singleton.1 hm, List.mem_singleton.1 hm']
    · simp at hrs
  | _ => exact hb.unique_of_nil rfl hb'

theorem MemoryCopy.unique (hb : MemoryCopy p view memory b) (hb' : MemoryCopy p view memory b') :
    b' = b := by
  cases hb with
  | @writeBack c t m hm htype hsender ht =>
    cases hb' with
    | @writeBack c' t' m' hm' htype' hsender' ht' =>
      obtain rfl : m' = m := by simpa [hm] using hm'.symm
      obtain rfl : c' = c := by simpa [hsender] using hsender'.symm
      rw [Option.some.inj (ht'.symm.trans ht)]
    | memory hnone => exact absurd hsender (hnone m (by simp [hm]) c htype)
  | memory hnone =>
    cases hb' with
    | @writeBack c t m hm htype hsender _ =>
      exact absurd hsender (hnone m (by simp [hm]) c htype)
    | memory => rfl

variable [DecidableEq D]

theorem Inv.copy_unique (h : Inv p view dma) {x y : Place C} (hb : Copy p view memory x b)
    (hb' : Copy p view memory y b') : b' = b := by
  obtain rfl : y = x := h.holder y x hb'.holds hb.holds
  cases y with
  | cache c => exact (h.cache c).copy_unique hb hb'
  | memory => exact hb.2.unique hb'.2

variable {m : MemoryMsg C D}

theorem Inv.holds_memory (h : Inv p view dma) (hm : p.toMemory = [m]) : Holds p view .memory := by
  cases h.dir with
  | fetching _ he | writingBack _ he | dmaFetching _ he | dmaWriting _ he | dmaReadBack _ he
  | dmaWriteBack _ _ he => simp [Holds, he]
  | _ => simp at hm

variable {s : Line C D}

theorem Line.Inv.current_iff (h : s.Inv) : s.Current b ↔ ∃ x, Copy s.dir s.view s.memory x b := by
  constructor
  · intro hb
    cases hb with
    | @response c _ hm => exact ⟨.cache c, .response hm⟩
    | @entry c _ ht he hM => exact ⟨.cache c, .entry ht he hM⟩
    | @tbe c _ ht hMI hkept => exact ⟨.cache c, .tbe ht hMI hkept⟩
    | writeBack hm htype hsender ht =>
      exact ⟨.memory, h.holds_memory hm, .writeBack hm htype hsender ht⟩
    | memory hstate hm => exact ⟨.memory, hstate, .memory hm⟩
  · rintro ⟨x | c, hb⟩
    · obtain ⟨hstate, hb⟩ := hb
      cases hb with
      | writeBack hm htype hsender ht => exact .writeBack hm htype hsender ht
      | memory hm => exact .memory hstate hm
    · cases hb with
      | response hm => exact .response hm
      | entry ht he hM => exact .entry ht he hM
      | tbe ht hMI hkept => exact .tbe ht hMI hkept

/-! ### Served requests -/

/-- The requests served from a block, in turn. -/
def Completed : DataBlock → List Hit → DataBlock → Prop
  | b, [], b' => b' = b
  | b, h :: hs, b' => h.data = (hitData h.request h.success b).2 ∧
      Completed (hitData h.request h.success b).1 hs b'

omit [DecidableEq D] in
theorem serveAll_completed {serve : Ruby.LineData → SequencerRequest → Ruby.LineData × Hit}
    (hserve : ∀ l r, ∃ monitor success, serve l r = hit version ⟨monitor, l.data⟩ r success)
    (l : Ruby.LineData) (reqs : List SequencerRequest) :
    Completed l.data (serveAll serve l reqs).2 (serveAll serve l reqs).1.data := by
  induction reqs generalizing l with
  | nil => rfl
  | cons r reqs ih =>
    obtain ⟨monitor, success, hr⟩ := hserve l r
    simp only [serveAll, hr]
    exact ⟨rfl, ih (hit version ⟨monitor, l.data⟩ r success).1⟩

theorem Served.completed {e e' : L1Cache.Entry} {hits : List Hit} (h : Served e e' hits) :
    Completed e.dataBlk hits e'.dataBlk := by
  obtain ⟨reqs, hr | hr⟩ := h
  · cases hr
    exact serveAll_completed (fun l r => ⟨l.monitor, true, rfl⟩) ⟨some e.locked, e.dataBlk⟩ _
  · cases hr
    refine serveAll_completed (fun l r => ?_) ⟨some e.locked, e.dataBlk⟩ _
    unfold Ruby.serveWrite
    split
    · exact ⟨l.monitor, true, rfl⟩
    · exact ⟨_, _, rfl⟩

/-! ### What messages carry -/

/-- A write-back that is not taken yet carries the block of the TBE. -/
def Backed (view : C → View C) : Prop :=
  ∀ c t block, (view c).tbe = some t → t.tbeState = .MI → putx c block ∈ (view c).requests →
    block = t.dataBlk

/-- The blocks in the messages that matter: a write-back carries the block of the TBE it comes from,
the answer of a read the memory's, and the write for a DMA controller what the directory has of its
request. -/
structure Carried (p : Line.DirPart C D) (view : C → View C) (memory : DataBlock) : Prop where
  backed : Backed view
  writeBack : ∀ c t m, p.toMemory = [m] → m.sender = .cache c → (view c).tbe = some t →
    p.entry.directoryState ≠ .M_DWRI → m.type = .MEMORY_WB → m.dataBlk = t.dataBlk ∧ m.len = 0
  read : ∀ m, p.fromMemory = [m] → m.type = .MEMORY_READ → m.dataBlk = memory
  write : ∀ t m, p.tbe = some t → p.toMemory = [m] →
    t.tbeState = .ID_W ∨ t.tbeState = .M_DWRI → m.dataBlk = t.dataBlk ∧ m.len = t.len

/-- The block `b` of a line. -/
structure Data (p : Line.DirPart C D) (view : C → View C) (memory b : DataBlock) : Prop where
  copy : ∃ x, Copy p view memory x b
  carried : Carried p view memory

/-- No write-back of `c` is on its way to the memory. -/
def NoWriteBack (p : Line.DirPart C D) (c : C) : Prop :=
  ∀ m, p.toMemory = [m] → m.type = .MEMORY_WB → m.sender ≠ .cache c

theorem Inv.noWriteBack (h : Inv p view dma) {c : C} (hc : ¬ InMemory .MEMORY_WB (.cache c) p) :
    NoWriteBack p c := by
  intro m hm htype hsender
  rcases h.dir.memory with hnil | ⟨_, _, hfrom⟩
  · simp [hnil] at hm
  · exact hc ⟨m, .inl ⟨hm, hfrom⟩, htype, hsender⟩

section

variable [DecidableEq C] {c r : C} {v : View C}

omit [DecidableEq D] in
theorem Backed.update (h : Backed view)
    (hput : ∀ t block, v.tbe = some t → t.tbeState = .MI → putx c block ∈ v.requests →
      block = t.dataBlk) : Backed (update view c v) := by
  intro x t block ht hMI hp
  by_cases hx : x = c
  · subst hx
    exact hput t block (by simpa using ht) hMI (by simpa using hp)
  · exact h x t block (by simpa [hx] using ht) hMI (by simpa [hx] using hp)

omit [DecidableEq D] in
theorem Carried.setView (h : Carried p view memory) (hbacked : Backed (update view c v))
    (hk : v.tbe = (view c).tbe ∨ NoWriteBack p c) :
    Carried p (update view c v) memory where
  backed := hbacked
  writeBack x t m hm hsender ht hstate htype := by
    refine h.writeBack x t m hm hsender ?_ hstate htype
    by_cases hx : x = c
    · subst hx
      rcases hk with hk | hk
      · simpa [hk] using ht
      · exact absurd hsender (hk m hm htype)
    · simpa [hx] using ht
  read := h.read
  write := h.write

omit [DecidableEq D] in
theorem MemoryCopy.setView (h : MemoryCopy p view memory b)
    (hk : v.tbe = (view c).tbe ∨ NoWriteBack p c) : MemoryCopy p (update view c v) memory b := by
  cases h with
  | @writeBack x t m hm htype hsender ht =>
    refine .writeBack hm htype hsender ?_
    by_cases hx : x = c
    · subst hx
      rcases hk with hk | hk
      · simpa [hk] using ht
      · exact absurd hsender (hk m hm htype)
    · simpa [hx] using ht
  | memory hm => exact .memory hm

omit [DecidableEq D] in
theorem Data.setView (h : Data p view memory b)
    (hput : ∀ t block, v.tbe = some t → t.tbeState = .MI → putx c block ∈ v.requests →
      block = t.dataBlk) (hk : v.tbe = (view c).tbe ∨ NoWriteBack p c)
    (hcopy : CacheCopy (view c) b → CacheCopy v b) : Data p (update view c v) memory b := by
  refine ⟨?_, h.carried.setView (h.carried.backed.update hput) hk⟩
  obtain ⟨x, hx⟩ := h.copy
  refine ⟨x, ?_⟩
  cases x with
  | memory => exact ⟨hx.1, hx.2.setView hk⟩
  | cache z =>
    by_cases hz : z = c
    · subst hz
      simpa [Copy] using hcopy hx
    · simpa [Copy, hz] using hx

omit [DecidableEq D] in
theorem Data.access (h : Data p view memory b) (hb : CacheCopy v b') (hput : v.tbe = none)
    (hk : NoWriteBack p c) : Data p (update view c v) memory b' := by
  refine ⟨⟨.cache c, by simpa [Copy] using hb⟩, ?_⟩
  exact h.carried.setView (h.carried.backed.update (by simp [hput])) (.inr hk)

omit [DecidableEq C] in
/-- A cache that has an entry, no TBE, a request to the directory or an answer from it, has no
write-back in the memory. -/
theorem Inv.noWriteBack_of_view (hi : Inv p view dma) (hv : (view c).entry ≠ none ∨
    (view c).tbe = none ∨ (view c).requests ≠ [] ∨
      (view c).forwards ≠ [] ∧ (view c).forwards ≠ [invalidate]) : NoWriteBack p c := by
  refine hi.noWriteBack fun hwb => ?_
  obtain ⟨t, fw, hwaits, -, hfw⟩ := (hi.cache c).of_wb hwb
  rcases hfw with rfl | rfl <;> simp [hwaits] at hv

omit [DecidableEq C] in
theorem Data.eq_of_cacheCopy (h : Data p view memory b) (hi : Inv p view dma)
    (hb : CacheCopy (view c) b') : b' = b := by
  obtain ⟨x, hx⟩ := h.copy
  exact hi.copy_unique (y := .cache c) hx hb

theorem Data.pass (h : Data p view memory b) (hi : Inv p view dma) (hb : CacheCopy (view c) b')
    (hk : NoWriteBack p c) (hv : ∀ t, v.tbe = some t → t.tbeState ≠ .MI) (hr : r ≠ c) :
    Data p (update (update view c v) r
      { view r with responses := [⟨b'⟩] }) memory b := by
  obtain rfl := h.eq_of_cacheCopy hi hb
  refine ⟨⟨.cache r, ?_⟩, ?_⟩
  · simpa [Copy] using CacheCopy.response (v := { view r with responses := [⟨b'⟩] })
      (m := ⟨b'⟩) (by simp)
  · have hback := h.carried.backed.update (v := v) (c := c) fun t block ht hMI _ =>
      absurd hMI (hv t ht)
    refine (h.carried.setView hback (.inr hk)).setView (hback.update ?_) (.inl ?_)
    · exact fun t block ht hMI hp => h.carried.backed r t block ht hMI hp
    · simp [hr]

omit [DecidableEq C] in
theorem Data.memory_eq (h : Data p view memory b) (hi : Inv p view dma)
    (hmem : Holds p view .memory) (hto : p.toMemory = []) : memory = b := by
  obtain ⟨x, hx⟩ := h.copy
  exact hi.copy_unique (y := .memory) hx ⟨hmem, .memory (by simp [hto])⟩

omit [DecidableEq C] [DecidableEq D] in
theorem Data.of_memory (hcarried : Carried p view memory) (hmem : Holds p view .memory)
    (hto : ∀ m ∈ p.toMemory, ∀ c, m.type = .MEMORY_WB → m.sender ≠ .cache c) :
    Data p view memory memory :=
  ⟨⟨.memory, hmem, .memory hto⟩, hcarried⟩

/-! ### Changes of the directory -/

section

variable {e : L1Cache.Entry} {t : L1Cache.TBE} {t' : Directory.TBE D} {m : MemoryMsg C D} {o : C}

theorem Data.fetch (h : Data (D := D) ⟨⟨.I, ∅, ∅⟩, none, [], []⟩ view memory b)
    (hi : Inv ⟨⟨.I, ∅, ∅⟩, none, [], []⟩ view dma)
    (ht' : t'.tbeState = .IM) (hm : m.type = .MEMORY_READ) :
    Data ⟨⟨.IM, ∅, {c}⟩, some t', [m], []⟩
      (update view c ⟨some e, some t, [], [], []⟩) memory b := by
  obtain rfl := h.memory_eq hi (by simp [Holds]) rfl
  refine .of_memory ⟨h.carried.backed.update (by simp), ?_, by simp, ?_⟩ (by simp [Holds])
    (by simp [hm])
  · rintro x t m' hm' - - - htype
    obtain rfl : m = m' := by simpa using hm'
    simp [hm] at htype
  · rintro t m' ht - hstate
    obtain rfl : t' = t := by simpa using ht
    simp [ht'] at hstate

variable {fw : List (RequestMsg C)}

theorem Data.evict (h : Data p view memory b) (hi : Inv p view dma)
    (hv : view c = ⟨some e, none, [], fw, []⟩) (he : e.cacheState = .M) :
    Data p (update view c ⟨none, some ⟨.MI, e.dataBlk⟩, [putx c e.dataBlk], fw, []⟩) memory b := by
  obtain rfl := h.eq_of_cacheCopy hi (.entry (by rw [hv]) (by rw [hv]) he)
  have hput : ∀ t block, some (⟨.MI, e.dataBlk⟩ : L1Cache.TBE) = some t → t.tbeState = .MI →
      putx c block ∈ [putx c e.dataBlk] → block = t.dataBlk := by
    intro t block ht _ hp
    obtain rfl := Option.some.inj ht
    simpa [putx] using hp
  exact h.setView hput (.inr (hi.noWriteBack_of_view (by simp [hv]))) fun _ =>
    .tbe (t := ⟨.MI, e.dataBlk⟩) rfl rfl (.inl (by simp))

variable {rq : List (RequestMsg C)}

omit [DecidableEq C] in
theorem CacheCopy.of_evicting (h : CacheCopy ⟨none, some t, rq, fw, []⟩ b) :
    t.dataBlk = b ∧ t.tbeState = .MI ∧ (rq ≠ [] ∨ ∃ r, getx r ∈ fw) := by
  cases h with
  | response hm => cases hm
  | entry hnone => cases hnone
  | tbe ht hMI hkept =>
    cases ht
    exact ⟨rfl, hMI, hkept⟩

omit [DecidableEq D] in
theorem Data.popInvalidate (h : Data p view memory b)
    (hv : view c = ⟨none, some t, rq, invalidate :: fw, []⟩) :
    Data p (update view c ⟨none, some t, rq, fw, []⟩) memory b := by
  have hput : ∀ t' block, some t = some t' → t'.tbeState = .MI → putx c block ∈ rq →
      block = t'.dataBlk := by
    intro t' block ht' hMI hp
    obtain rfl := Option.some.inj ht'
    exact h.carried.backed c t block (by rw [hv]) hMI (by simpa [hv] using hp)
  refine h.setView hput (.inl (by simp [hv])) fun hcopy => ?_
  rw [hv] at hcopy
  obtain ⟨rfl, hMI, hkept⟩ := hcopy.of_evicting
  exact .tbe rfl hMI (by simpa [getx, invalidate] using hkept)

variable {block : DataBlock}

theorem Data.nack (h : Data p view memory b) (hi : Inv p view dma) (hc : c ∉ p.entry.owner)
    (hv : view c = ⟨none, some t, [putx c block], fw, []⟩) :
    Data p (update view c ⟨none, some t, [], fw ++ [wbNack c], []⟩) memory b := by
  have hphase := hi.cache c
  rw [hv] at hphase
  refine h.setView (by simp) (.inl (by simp [hv])) fun hcopy => ?_
  rw [hv] at hcopy
  obtain ⟨rfl, hMI, -⟩ := hcopy.of_evicting
  -- the cache was not the owner any more, so that it is to pass the block on
  refine .tbe rfl hMI (.inr ?_)
  cases hphase with
  | evicting _ hchain _ =>
    rcases hchain with ⟨hown, _⟩ | ⟨_, r, rfl⟩
    · exact absurd hown hc
    · exact ⟨r, by simp⟩
  | gone hII => simp [hII] at hMI

theorem Data.done {m : RequestMsg C} (h : Data p view memory b) (hi : Inv p view dma)
    (hv : view c = ⟨none, some t, [], [m], []⟩) (hm : m = wbAck c ∨ m = wbNack c) :
    Data p (update view c ⟨none, none, [], [], []⟩) memory b := by
  have hk : NoWriteBack p c := by
    refine hi.noWriteBack_of_view ?_
    rcases hm with rfl | rfl <;> simp [hv, wbAck, wbNack, invalidate]
  have hnone : ¬ HasBlock (view c) := by
    rcases hm with rfl | rfl <;> simp [HasBlock, hv, getx, wbAck, wbNack]
  exact h.setView (by simp) (.inr hk) fun hcopy => absurd hcopy.hasBlock hnone

omit [DecidableEq C] in
theorem CacheCopy.of_forwards (h : CacheCopy v b) (hfw : v.forwards = []) :
    CacheCopy { v with forwards := fw } b := by
  cases h with
  | response hm => exact .response hm
  | entry ht he hM => exact .entry ht he hM
  | tbe ht hMI hkept =>
    refine .tbe ht hMI (.inl ?_)
    simpa [hfw] using hkept

omit [DecidableEq D] in
theorem Data.tell {p' : Line.DirPart C D} (h : Data p view memory b) (ho : (view o).forwards = [])
    (hmem : Holds p view .memory → Holds p' view .memory) (hto : p.toMemory = [])
    (hto' : p'.toMemory = []) (hfrom' : p'.fromMemory = []) :
    Data p' (update view o { view o with forwards := fw }) memory b := by
  refine ⟨?_, h.carried.backed.update ?_, by simp [hto'], by simp [hfrom'], by simp [hto']⟩
  · obtain ⟨x, hx⟩ := h.copy
    refine ⟨x, ?_⟩
    cases x with
    | memory =>
      obtain ⟨hholds, hcopy⟩ := hx
      refine ⟨hmem hholds, ?_⟩
      cases hcopy with
      | writeBack hm => simp [hto] at hm
      | memory => exact .memory (by simp [hto'])
    | cache z =>
      by_cases hz : z = o
      · subst hz
        simpa [Copy] using CacheCopy.of_forwards hx ho
      · simpa [Copy, hz] using hx
  · exact fun t block ht hMI hp => h.carried.backed o t block ht hMI hp

omit [DecidableEq D] in
theorem Data.handOver (h : Data (D := D) ⟨⟨.M, ∅, {o}⟩, none, [], []⟩ view memory b)
    (hv : view c = ⟨some e, some t, [getx c], [], []⟩) (ht : t.tbeState = .IS ∨ t.tbeState = .IM)
    (ho : (view o).forwards = []) (hne : o ≠ c) : Data (D := D) ⟨⟨.M, ∅, {c}⟩, none, [], []⟩
      (update (update view o { view o with forwards := [getx c] }) c
        ⟨some e, some t, [], [], []⟩) memory b := by
  have htold : Data (D := D) ⟨⟨.M, ∅, {c}⟩, none, [], []⟩
      (update view o { view o with forwards := [getx c] }) memory b :=
    h.tell ho (by simp [Holds]) rfl rfl rfl
  refine htold.setView (by simp) (.inl (by simp [hne.symm, hv])) ?_
  intro hcopy
  have hblock := hcopy.hasBlock
  rw [update_of_ne hne.symm, hv] at hblock
  rcases ht with ht | ht <;> simp [HasBlock, ht] at hblock

variable {st : Directory.State} {tbe : Option (Directory.TBE D)}

theorem Data.giveBack {st' : Directory.State} (h : Data ⟨⟨st, ∅, {c}⟩, tbe, [], []⟩ view memory b)
    (hi : Inv ⟨⟨st, ∅, {c}⟩, tbe, [], []⟩ view dma)
    (hv : view c = ⟨none, some t, [putx c block], fw, []⟩)
    (hst' : st' ≠ .M ∧ st' ≠ .M_DRD ∧ st' ≠ .M_DWR) (hm : m.type = .MEMORY_WB)
    (hsender : m.sender = .cache c) (hwrite : st' ≠ .M_DWRI → m.dataBlk = block ∧ m.len = 0)
    (hdma : t'.tbeState = .ID_W ∨ t'.tbeState = .M_DWRI → m.dataBlk = t'.dataBlk ∧ m.len = t'.len) :
    Data ⟨⟨st', ∅, ∅⟩, some t', [m], []⟩
      (update view c ⟨none, some t, [], fw, []⟩) memory b := by
  have hc := hi.cache c
  rw [hv] at hc
  cases hc with
  | gone _ hown _ => simp at hown
  | evicting ht _ _ =>
    have hcopy : CacheCopy (view c) t.dataBlk := .tbe (by rw [hv]) ht (.inl (by simp [hv]))
    obtain ⟨x, hx⟩ := h.copy
    obtain rfl : b = t.dataBlk := hi.copy_unique (x := .cache c) hcopy hx
    have hblock : block = t.dataBlk := h.carried.backed c t block (by rw [hv]) ht (by simp [hv])
    refine ⟨⟨.memory, hst', .writeBack rfl hm hsender (by simp)⟩, h.carried.backed.update (by simp),
      ?_, by simp, ?_⟩
    · rintro z t₁ m₁ hm₁ hsender₁ ht₁ hstate -
      obtain rfl : m = m₁ := by simpa using hm₁
      obtain rfl : c = z := by simpa [hsender] using hsender₁
      obtain rfl : t = t₁ := by simpa using ht₁
      rw [← hblock]
      exact hwrite hstate
    · rintro t₁ m₁ ht₁ hm₁ hstate
      obtain rfl : m = m₁ := by simpa using hm₁
      obtain rfl : t' = t₁ := by simpa using ht₁
      exact hdma hstate

omit [DecidableEq C] in
theorem Data.idle (h : Data ⟨⟨st, ∅, ∅⟩, tbe, [], [m]⟩ view memory b)
    (hi : Inv ⟨⟨st, ∅, ∅⟩, tbe, [], [m]⟩ view dma) (hst : st ≠ .M ∧ st ≠ .M_DRD ∧ st ≠ .M_DWR) :
    Data (D := D) ⟨⟨.I, ∅, ∅⟩, none, [], []⟩ view memory b := by
  obtain rfl := h.memory_eq hi hst rfl
  exact .of_memory ⟨h.carried.backed, by simp, by simp, by simp⟩ (by simp [Holds]) (by simp)

omit [DecidableEq D] in
theorem Data.tellMore (h : Data p view memory b) (c : C) {msg : RequestMsg C} :
    Data p (update view c { view c with forwards := (view c).forwards ++ [msg] }) memory
      b := by
  refine h.setView (fun t block ht hMI hp => h.carried.backed c t block ht hMI hp) (.inl rfl) ?_
  intro hcopy
  cases hcopy with
  | response hm => exact .response hm
  | entry ht he hM => exact .entry ht he hM
  | tbe ht hMI hkept =>
    exact .tbe ht hMI (hkept.imp_right fun ⟨r, hr⟩ => ⟨r, List.mem_append_left _ hr⟩)

theorem Data.data (h : Data ⟨⟨.IM, ∅, {c}⟩, some t', [], [m]⟩ view memory b)
    (hi : Inv ⟨⟨.IM, ∅, {c}⟩, some t', [], [m]⟩ view dma) (hm : m.type = .MEMORY_READ) :
    Data (D := D) ⟨⟨.M, ∅, {c}⟩, none, [], []⟩
      (update view c { view c with responses := [⟨m.dataBlk⟩] }) memory b := by
  obtain rfl := h.memory_eq hi (by simp [Holds]) rfl
  have hdata : m.dataBlk = memory := h.carried.read m rfl hm
  rw [hdata]
  refine ⟨⟨.cache c, ?_⟩, h.carried.backed.update ?_, by simp, by simp, by simp⟩
  · simpa [Copy] using CacheCopy.response (v := { view c with responses := [⟨memory⟩] })
      (m := ⟨memory⟩) (by simp)
  · exact fun t block ht hMI hp => h.carried.backed c t block ht hMI hp

omit [DecidableEq C] in
theorem Data.dmaStart (h : Data (D := D) ⟨⟨.I, ∅, ∅⟩, none, [], []⟩ view memory b)
    (hi : Inv ⟨⟨.I, ∅, ∅⟩, none, [], []⟩ view dma) {d : D} (hsender : m.sender = .dma d)
    (hst : st ≠ .M ∧ st ≠ .M_DRD ∧ st ≠ .M_DWR)
    (hdma : t'.tbeState = .ID_W ∨ t'.tbeState = .M_DWRI → m.dataBlk = t'.dataBlk ∧ m.len = t'.len) :
    Data ⟨⟨st, ∅, ∅⟩, some t', [m], []⟩ view memory b := by
  obtain rfl := h.memory_eq hi (by simp [Holds]) rfl
  refine .of_memory ⟨h.carried.backed, ?_, by simp, ?_⟩ hst (by simp [hsender])
  · rintro x t₁ m₁ hm₁ hsender₁
    obtain rfl : m = m₁ := by simpa using hm₁
    simp [hsender] at hsender₁
  · rintro t₁ m₁ ht₁ hm₁ hstate
    obtain rfl : m = m₁ := by simpa using hm₁
    obtain rfl : t' = t₁ := by simpa using ht₁
    exact hdma hstate

/-- What the memory holds after a write. -/
def written (m : MemoryMsg C D) (memory : DataBlock) : DataBlock := fun i =>
  if m.len = 0 ∨ i < m.len then m.dataBlk i else memory i

variable {entry : Directory.Entry C}

omit [DecidableEq C] in
theorem Data.serveRead {m' : MemoryMsg C D} (h : Data ⟨entry, tbe, [m], []⟩ view memory b)
    (hi : Inv ⟨entry, tbe, [m], []⟩ view dma) (hm : m.type = .MEMORY_READ)
    (hm' : m'.dataBlk = memory) : Data ⟨entry, tbe, [], [m']⟩ view memory b := by
  have hmem : Holds ⟨entry, tbe, [m], []⟩ view .memory := hi.holds_memory rfl
  obtain ⟨x, hx⟩ := h.copy
  obtain rfl : memory = b :=
    hi.copy_unique (y := .memory) hx ⟨hmem, .memory (by simp [hm])⟩
  refine .of_memory ⟨h.carried.backed, by simp, ?_, by simp⟩ hmem (by simp)
  rintro m₁ hm₁ -
  obtain rfl : m' = m₁ := by simpa using hm₁
  exact hm'

omit [DecidableEq C] in
theorem Data.serveWrite (h : Data ⟨entry, tbe, [m], []⟩ view memory b)
    (hi : Inv ⟨entry, tbe, [m], []⟩ view dma) (hm : m.type = .MEMORY_WB) :
    Data ⟨entry, tbe, [], [m]⟩ view (written m memory) (written m memory) := by
  refine .of_memory ⟨h.carried.backed, by simp, ?_, by simp⟩ (hi.holds_memory rfl) (by simp)
  rintro m₁ hm₁ htype
  obtain rfl : m = m₁ := by simpa using hm₁
  simp [hm] at htype

omit [DecidableEq C] in
theorem Data.written_eq (h : Data ⟨entry, tbe, [m], []⟩ view memory b)
    (hi : Inv ⟨entry, tbe, [m], []⟩ view dma) (hm : m.type = .MEMORY_WB)
    (hsender : m.sender = .cache c) (hstate : entry.directoryState ≠ .M_DWRI) :
    written m memory = b := by
  have hwb : InMemory .MEMORY_WB (.cache c) (⟨entry, tbe, [m], []⟩ : Line.DirPart C D) := by
    simp [hm, hsender]
  obtain ⟨t, fw, hwaits, -⟩ := (hi.cache c).of_wb hwb
  have ht : (view c).tbe = some t := by rw [hwaits]
  obtain ⟨hdata, hlen⟩ := h.carried.writeBack c t m rfl hsender ht hstate hm
  obtain ⟨x, hx⟩ := h.copy
  have hb : t.dataBlk = b :=
    hi.copy_unique (y := .memory) hx ⟨hi.holds_memory rfl, .writeBack rfl hm hsender ht⟩
  funext i
  simp [written, hlen, hdata, hb]

end

end

/-! ### Steps -/

inductive Outcome (s : Line C D) (op : Op C D) (s' : Line C D) (b : DataBlock) : DataBlock → Prop
  | kept (hhits : s'.hits = s.hits) : Outcome s op s' b b
  | completed {c : C} {hits : List Hit} {b' : DataBlock}
    (hhits : s'.hits = s.hits ++ hits.map fun hit => (c, hit)) (hb : Completed b hits b') :
    Outcome s op s' b b'
  | dmaWrite {t : Directory.TBE D} {m : MemoryMsg C D} (hop : op = .memory)
    (hhits : s'.hits = s.hits) (ht : s.tbe = some t)
    (hstate : t.tbeState = .ID_W ∨ t.tbeState = .M_DWRI) (hto : s.requestToMemory = [m]) :
    Outcome s op s' b (written m s.memory)

variable [DecidableEq C]

omit [DecidableEq C] in
theorem Change.data_serve (hi : s.Inv) (h : Data s.dir s.view s.memory b)
    (hto : s.requestToMemory = [m]) (hfrom : s.responseFromMemory = []) :
    ∃ b', Outcome s .memory s.serveMemory b b' ∧
      Data s.serveMemory.dir s.serveMemory.view s.serveMemory.memory b' := by
  have hdir : s.dir = ⟨s.entry, s.tbe, [m], []⟩ := by simp [Line.dir, hto, hfrom]
  unfold Line.Inv at hi
  rw [hdir] at h hi
  cases hm : m.type with
  | MEMORY_READ =>
    have hserve : s.serveMemory = { s with
        requestToMemory := []
        responseFromMemory := [{ m with dataBlk := s.memory }] } := by
      simp [Line.serveMemory, hto, hfrom, hm]
    rw [hserve]
    exact ⟨b, .kept rfl, h.serveRead hi hm rfl⟩
  | MEMORY_WB =>
    have hserve : s.serveMemory = { s with
        requestToMemory := []
        responseFromMemory := [m]
        memory := written m s.memory } := by
      simp [Line.serveMemory, hto, hfrom, hm]
      rfl
    rw [hserve]
    refine ⟨written m s.memory, ?_, h.serveWrite hi hm⟩
    have hcache : ∀ {c : C}, m.sender = .cache c → s.entry.directoryState ≠ .M_DWRI →
        Outcome s .memory { s with
          requestToMemory := []
          responseFromMemory := [m]
          memory := written m s.memory } b (written m s.memory) := by
      intro c hsender hstate
      rw [h.written_eq hi hm hsender hstate]
      exact .kept rfl
    have hphase := hi.dir
    generalize hp : (⟨s.entry, s.tbe, [m], []⟩ : Line.DirPart C D) = p at hphase
    cases hphase with
    | fetching _ _ _ _ _ hread | dmaFetching _ _ _ _ _ hread => simp [← hp, hm] at hread
    | writingBack c he _ _ _ hwb | dmaReadBack c he _ _ hwb =>
      subst hp
      exact hcache (inMemory_to.1 hwb).2 (by simp [show s.entry = _ from he])
    | dmaWriting d _ ht hst =>
      subst hp
      exact .dmaWrite rfl rfl ht (.inl hst) hto
    | dmaWriteBack c d _ ht hst =>
      subst hp
      exact .dmaWrite rfl rfl ht (.inr hst) hto
    | _ => simp at hp

variable {op : Op C D}

/-- A step keeps the block, serves requests from it, or carries out the write of a DMA
controller. -/
theorem Change.outcome {s' : Line C D} (hc : Change s op s') (hi : s.Inv)
    (h : Data s.dir s.view s.memory b) :
    ∃ b', Outcome s op s' b b' ∧ Data s'.dir s'.view s'.memory b' := by
  cases hc with
  | stall => exact ⟨b, .kept rfl, h⟩
  | miss c hv he hstate =>
    refine ⟨b, .kept rfl, ?_⟩
    have hnone : ¬ HasBlock (s.view c) := by simpa [HasBlock, hv] using fun e h => by simp [he e h]
    simpa using h.setView (by simp [getx, putx]) (.inr (hi.noWriteBack_of_view (by simp [hv])))
      fun hcopy => absurd hcopy.hasBlock hnone
  | @access _ c e e' fw hits hv he hserved =>
    obtain rfl := h.eq_of_cacheCopy hi (.entry (by rw [hv]) (by rw [hv]) he)
    refine ⟨e'.dataBlk, .completed rfl hserved.completed, ?_⟩
    have hcopy : CacheCopy (⟨some (e'.setState .M), none, [], fw, []⟩ : View C) e'.dataBlk :=
      .entry (e := e'.setState .M) rfl rfl rfl
    simpa using h.access hcopy rfl (hi.noWriteBack_of_view (by simp [hv]))
  | @fill _ c e e' t fw m hits hv hserved =>
    obtain rfl := h.eq_of_cacheCopy hi (c := c) (.response (m := m) (by simp [hv]))
    refine ⟨e'.dataBlk, .completed rfl hserved.completed, ?_⟩
    have hcopy : CacheCopy (⟨some (e'.setState .M), none, [], fw, []⟩ : View C) e'.dataBlk :=
      .entry (e := e'.setState .M) rfl rfl rfl
    simpa using h.access hcopy rfl (hi.noWriteBack_of_view (by simp [hv]))
  | drop c hv he =>
    refine ⟨b, .kept rfl, ?_⟩
    have hnone : ¬ HasBlock (s.view c) := by simpa [HasBlock, hv] using fun e h => by simp [he e h]
    simpa using h.setView (by simp) (.inl (by simp [hv]))
      fun hcopy => absurd hcopy.hasBlock hnone
  | evict c hv he => exact ⟨b, .kept rfl, by simpa using h.evict hi hv he⟩
  | popInvalidate c hv => exact ⟨b, .kept rfl, by simpa using h.popInvalidate hv⟩
  | @passEntry _ c r e hv he hr =>
    refine ⟨b, .kept rfl, ?_⟩
    have hk : NoWriteBack s.dir c := hi.noWriteBack_of_view (by simp [hv])
    simpa using h.pass hi (.entry (by rw [hv]) (by rw [hv]) he) hk (by simp) hr
  | @passTbe _ c r t rq fw hv ht hr =>
    refine ⟨b, .kept rfl, ?_⟩
    have hcopy : CacheCopy (s.view c) t.dataBlk :=
      .tbe (by rw [hv]) ht (.inr ⟨r, by simp [hv]⟩)
    have hk : NoWriteBack s.dir c := hi.noWriteBack_of_view (by simp [hv, getx, invalidate])
    simpa using h.pass hi hcopy hk (by simp) hr
  | done c hv hm => exact ⟨b, .kept rfl, by simpa using h.done hi hv hm⟩
  | fetch c hdir hv =>
    unfold Line.Inv at hi
    rw [hdir] at h hi
    exact ⟨b, .kept rfl, by simpa using h.fetch hi rfl rfl⟩
  | @handOver _ c o e t hdir hv ho hne =>
    have ht : t.tbeState = .IS ∨ t.tbeState = .IM := by
      have hc := hi.cache c
      rw [hv] at hc
      cases hc with
      | asked ht => exact ht
    rw [hdir] at h
    exact ⟨b, .kept rfl, by simpa using h.handOver hv ht ho hne⟩
  | writeBack c hdir hv | dmaReadBack c d hdir ht' hd hv hrs =>
    unfold Line.Inv at hi
    rw [hdir] at h hi
    refine ⟨b, .kept rfl, ?_⟩
    simpa using h.giveBack hi hv (by simp) rfl rfl (fun _ => ⟨rfl, rfl⟩) (by simp)
  | nack c hc hv => exact ⟨b, .kept rfl, by simpa using h.nack hi hc hv⟩
  | data c hdir hd hm hsender hrs =>
    unfold Line.Inv at hi
    rw [hdir] at h hi
    exact ⟨b, .kept rfl, by simpa using h.data hi hm⟩
  | @ack _ c state t m hdir hstate ht hm hsender =>
    unfold Line.Inv at hi
    rw [hdir] at h hi
    refine ⟨b, .kept rfl, ?_⟩
    have hidle := h.idle hi (by rcases hstate with rfl | rfl <;> simp)
    simpa using hidle.tellMore c
  | serve hto hfrom => exact Change.data_serve hi h hto hfrom
  | dmaWriteBack c d hdir ht' hd hv =>
    unfold Line.Inv at hi
    rw [hdir] at h hi
    refine ⟨b, .kept rfl, ?_⟩
    simpa using h.giveBack hi hv (by simp) rfl rfl (by simp) (fun _ => ⟨rfl, rfl⟩)
  | dmaAnswer d hdir hstate ht hd hsender hmsg hrs =>
    unfold Line.Inv at hi
    rw [hdir] at h hi
    refine ⟨b, .kept rfl, ?_⟩
    simpa using h.idle hi (by rcases hstate with ⟨rfl, _⟩ | ⟨rfl, _⟩ <;> simp)
  | dmaAck c d hdir ht hd hm hsender hmsg hrs =>
    unfold Line.Inv at hi
    rw [hdir] at h hi
    refine ⟨b, .kept rfl, ?_⟩
    have hidle := h.idle hi (by simp)
    simpa using hidle.tellMore c
  | dmaRead d hdir hv hm =>
    unfold Line.Inv at hi
    rw [hdir] at h hi
    exact ⟨b, .kept rfl, by simpa using h.dmaStart hi rfl (by simp) (by simp)⟩
  | dmaWrite d hdir hv hm =>
    unfold Line.Inv at hi
    rw [hdir] at h hi
    exact ⟨b, .kept rfl, by simpa using h.dmaStart hi rfl (by simp) (fun _ => ⟨rfl, rfl⟩)⟩
  | dmaInvalidate o d hdir hv hstate ho =>
    rw [hdir] at h
    refine ⟨b, .kept rfl, ?_⟩
    simpa using h.tell ho (by simp [Holds]) rfl rfl rfl
  | _ => exact ⟨b, .kept rfl, by simpa using h⟩

omit [DecidableEq C] [DecidableEq D] in
theorem data_start {memory : ℕ → DataBlock} {a : ℕ} (hs : s = start memory a) :
    Data s.dir s.view s.memory (memory a) := by
  subst hs
  have hcarried : Carried (start memory a : Line C D).dir (start memory a : Line C D).view
      (memory a) := by
    refine ⟨fun c t block ht => ?_, ?_, ?_, ?_⟩
    · cases ht
    all_goals simp [Line.dir, start]
  exact .of_memory hcarried (by simp [Holds, Line.dir, start]) (by simp [Line.dir, start])

/-! ### Runs without DMA -/

/-- The answers given so far are those of one block, which every request finds as the requests
before it left it. -/
def Lawful : DataBlock → List (C × Hit) → Prop
  | _, [] => True
  | b, x :: xs => x.2.data = (hitData x.2.request x.2.success b).2 ∧
      Lawful (hitData x.2.request x.2.success b).1 xs

omit [DecidableEq C] [DecidableEq D] in
theorem lawful_append {hits hits' : List (C × Hit)} :
    Lawful b (hits ++ hits') ↔ Lawful b hits ∧ Lawful (stored b hits) hits' := by
  induction hits generalizing b with
  | nil => simp [Lawful, stored]
  | cons x hits ih => simp [Lawful, ih, stored, and_assoc]

omit [DecidableEq C] [DecidableEq D] in
theorem Completed.lawful {hits : List Hit} (h : Completed b hits b') (c : C) :
    Lawful b (hits.map fun hit => (c, hit)) ∧ b' = stored b (hits.map fun hit => (c, hit)) := by
  induction hits generalizing b with
  | nil => exact ⟨trivial, h⟩
  | cons hit hits ih =>
    obtain ⟨hlawful, hb⟩ := ih h.2
    exact ⟨⟨h.1, hlawful⟩, hb⟩

/-- No DMA controller has asked for the line. -/
structure NoDma (s : Line C D) : Prop where
  ready : ∀ d, s.dmaView d = ⟨none, [], []⟩
  state : s.dir.entry.directoryState = .I ∨ s.dir.entry.directoryState = .M ∨
    s.dir.entry.directoryState = .IM ∨ s.dir.entry.directoryState = .MI

omit [DecidableEq C] in
theorem NoDma.handled (h : NoDma s) (hi : s.Inv) (op : Op C D) : s.Handled op := by
  have hfree : ¬ s.getDirState.DmaBusy := by
    have hstate : s.getDirState = s.dir.entry.directoryState := by
      cases ht : s.tbe with
      | none => simp [Line.getDirState, ht, Line.dir]
      | some t => simp [Line.getDirState, ht, (hi.dir.busy ht).1]
    rw [hstate]
    rcases h.state with hst | hst | hst | hst <;> simp [Directory.State.DmaBusy, hst]
  cases op with
  | request c | dmaRequest d => exact fun hbusy => absurd hbusy hfree
  | _ => trivial

theorem NoDma.change {s' : Line C D} (h : NoDma s) (hc : Change s op s') (hop : ¬ op.StartsDma) :
    NoDma s' := by
  have hstate := h.state
  cases hc with
  | stall => exact h
  | fetch | handOver | writeBack | data | ack => exact ⟨h.ready, by simp⟩
  | serve hto hfrom =>
    obtain ⟨m', -, -, hdir, -, hdma⟩ := s.serveMemory_dir hto hfrom
    exact ⟨by rw [hdma]; exact h.ready, by rw [hdir]; exact h.state⟩
  | dmaReadBack _ _ hdir | dmaWriteBack _ _ hdir | dmaAck _ _ hdir => simp [hdir] at hstate
  | dmaAnswer _ hdir hst =>
    rcases hst with ⟨rfl, _⟩ | ⟨rfl, _⟩ <;> simp [hdir] at hstate
  | dmaRead d _ hv | dmaWrite d _ hv | dmaInvalidate _ d _ hv | dmaDone d hv =>
    simp [h.ready d] at hv
  | dmaAsk => exact absurd trivial hop
  | _ => exact ⟨h.ready, h.state⟩

/-- A line over a memory, without DMA. -/
structure Coherent (memory : DataBlock) (s : Line C D) : Prop where
  inv : s.Inv
  noDma : NoDma s
  data : Data s.dir s.view s.memory (stored memory s.hits)
  lawful : Lawful memory s.hits

theorem Coherent.next (h : Coherent memory s) (ho : op.Offered) (hop : ¬ op.StartsDma) :
    ∃ s', s.next op = .ok s' ∧ Coherent memory s' := by
  obtain ⟨s', hnext, hc⟩ := next_change h.inv ho (h.noDma.handled h.inv op)
  refine ⟨s', hnext, ?_⟩
  obtain ⟨b', hout, hdata⟩ := hc.outcome h.inv h.data
  have hinv := hc.inv h.inv
  have hno := h.noDma.change hc hop
  cases hout with
  | kept hhits => exact ⟨hinv, hno, by rwa [hhits], by rw [hhits]; exact h.lawful⟩
  | @completed c hits _ hhits hb =>
    obtain ⟨hlawful, rfl⟩ := hb.lawful c
    refine ⟨hinv, hno, ?_, ?_⟩
    · rw [hhits, stored, List.foldl_append]
      exact hdata
    · rw [hhits, lawful_append]
      exact ⟨h.lawful, hlawful⟩
  | dmaWrite _ _ ht hst _ =>
    have hstate := h.noDma.state
    rw [(h.inv.dir.busy ht).1] at hstate
    rcases hst with hst | hst <;> simp [hst] at hstate

omit [DecidableEq C] in
theorem Line.Inv.hasBlock {c : C} (h : s.Inv) (hc : s.getCacheState c = .M) :
    HasBlock (s.view c) := by
  cases ht : s.cacheTbe c with
  | some t =>
    rw [Line.getCacheState_of_tbe ht] at hc
    rcases (h.cache c).busy ht with hst | hst | hst | hst <;> simp [hst] at hc
  | none =>
    cases he : s.cacheEntry c with
    | none => simp [Line.getCacheState, ht, he] at hc
    | some e =>
      exact .inr (.inl ⟨ht, e, he, by simpa [Line.getCacheState, ht, he] using hc⟩)

/-- Serving a request without masked bytes stores its packet, or leaves the block as it is. -/
theorem hitData_eq_ite {hit : Hit} (hwhole : hit.request.pkt.Whole) (i : ℕ) :
    (hitData hit.request hit.success b).1 i = if storedAt i hit then
      hit.request.pkt.data.getD (i - hit.request.pkt.offset) 0 else b i := by
  have hwrite : ∀ p, hit.request.pkt.writeData p = hit.request.pkt.data := fun p =>
    if_neg (Bool.eq_false_iff.1 hwhole)
  have hset : b.setData hit.request.pkt.data hit.request.pkt.offset i
      = if hit.request.pkt.offset ≤ i ∧ i < hit.request.pkt.offset + hit.request.pkt.getSize then
        hit.request.pkt.data.getD (i - hit.request.pkt.offset) 0 else b i := rfl
  unfold hitData storedAt
  rw [hwrite]
  cases hflush : hit.request.pkt.isFlush
  · cases hfetch : hit.request.type.fetches
    · cases hswap : hit.request.pkt.isSwap
      · cases hok : hit.success
        · by_cases hsc : hit.request.type = .Store_Conditional <;>
            simp [hsc, hset, hflush, hfetch, hswap]
        · simp [hset, hflush, hfetch, hswap]
      · simp [hset, hflush, hfetch, hswap]
    · simp [hflush, hfetch]
  · simp [hflush]

omit [DecidableEq C] [DecidableEq D] in
theorem stored_eq_lastStored {hits : List (C × Hit)} (hwhole : ∀ x ∈ hits, x.2.request.pkt.Whole) :
    stored memory hits = lastStored memory hits := by
  induction hits using List.reverseRecOn with
  | nil => rfl
  | append_singleton hits x ih =>
    funext i
    rw [stored, List.foldl_concat, ← stored, ih fun y hy => hwhole y (by simp [hy]),
      hitData_eq_ite (hwhole x (by simp)), lastStored, lastStored, List.reverse_concat,
      List.find?_cons]
    cases storedAt i x.2 <;> rfl

/-- Without DMA, at most one cache has a line, none has it when the directory does not know of it,
and every byte of a load is that of the last completed store there, or of the memory. -/
theorem coherent_without_dma (memory : ℕ → DataBlock) (ops : List (ℕ × Op C D))
    (hops : ∀ o ∈ ops, o.2.Offered ∧ ¬ o.2.StartsDma) :
    ∃ us lines, Run.run step (start memory) ops = .ok (us, lines) ∧ ∀ a,
      (∀ c c', (lines a).getCacheState c = .M → (lines a).getCacheState c' = .M → c = c') ∧
      (∀ c, (lines a).getCacheState c = .M → (lines a).entry.directoryState ≠ .I) ∧
      ∀ pre c hit post, (lines a).hits = pre ++ (c, hit) :: post →
        hit.request.type.fetches = true → hit.request.pkt.isFlush = false →
        (∀ x ∈ pre, x.2.request.pkt.Whole) →
        hit.data = (List.range hit.request.pkt.getSize).map fun k =>
          lastStored (memory a) pre (hit.request.pkt.offset + k) := by
  have hstart : ∀ a, Coherent (memory a) ((start memory : ℕ → Line C D) a) := by
    intro a
    exact ⟨sound_start memory a, ⟨fun d => rfl, .inl rfl⟩, data_start rfl, trivial⟩
  have hstep : ∀ (lines : ℕ → Line C D) (o : ℕ × Op C D), (∀ a, Coherent (memory a) (lines a)) →
      o.2.Offered ∧ ¬ o.2.StartsDma →
      ∃ u lines', step lines o = .ok (u, lines') ∧ ∀ a, Coherent (memory a) (lines' a) := by
    intro lines o h ho
    obtain ⟨line, hnext, hline⟩ := (h o.1).next ho.1 ho.2
    refine ⟨(), update lines o.1 line, by simp [step, hnext], fun a => ?_⟩
    by_cases ha : a = o.1
    · subst ha
      simpa using hline
    · simpa [ha] using h a
  obtain ⟨us, lines, hrun, hlines⟩ := Run.run_total hstep ops hstart (Run.along_of_forall hops _)
  refine ⟨us, lines, hrun, fun a => ?_⟩
  have hM : ∀ {c : C}, (lines a).getCacheState c = .M →
      Holds (lines a).dir (lines a).view (.cache c) :=
    fun hc => (hlines a).inv.hasBlock hc
  refine ⟨?_, ?_, ?_⟩
  · intro c c' hc hc'
    simpa using (hlines a).inv.holder _ _ (hM hc) (hM hc')
  · intro c hc hI
    have hmem : Holds (lines a).dir (lines a).view .memory := by
      simp [Holds, Line.dir, hI]
    exact absurd ((hlines a).inv.holder _ _ (hM hc) hmem) (by simp)
  · intro pre c hit post hhits hfetch hflush hwhole
    have hlawful := (hlines a).lawful
    rw [hhits, lawful_append] at hlawful
    rw [hlawful.2.1, ← stored_eq_lastStored hwhole]
    simp [hitData, hfetch, hflush, DataBlock.getData]

/-- The first cache stores a byte, and the second one asks for the line and loads it. -/
def handoverOps : List (ℕ × Op Bool Unit) :=
  [.mandatory false .ST [], .request false, .memory, .memoryResponse,
    .response false 0 [⟨{ line := 0, offset := 1, data := [5], isWrite := true }, .ST, .ST⟩],
    .mandatory true .LD [], .request true, .forward false,
    .response true 0 [⟨{ line := 0, offset := 1, data := [0], isRead := true }, .LD, .LD⟩]].map
    fun op => (0, op)

/-- One cache stores the byte 5, another takes the line over and loads it. -/
theorem coherent_without_dma_handover :
    ∃ us, ∃ lines : ℕ → Line Bool Unit,
      Run.run step (start fun _ _ => 0) handoverOps = .ok (us, lines) ∧
      (∀ c, (lines 0).getCacheState c = .M → c = true) ∧
      ∃ x hit, (lines 0).hits = [x, (true, hit)] ∧ hit.data = [5] := by
  obtain ⟨us, lines, hrun, hall⟩ := coherent_without_dma (C := Bool) (D := Unit) (fun _ _ => 0)
    handoverOps (by simp [handoverOps, Op.Offered, Op.StartsDma])
  obtain ⟨hM, x, hit, hhits, hx, hhit⟩ : (lines 0).getCacheState true = .M ∧
      ∃ x hit, (lines 0).hits = [x] ++ (true, hit) :: [] ∧
        x.2 = ⟨⟨{ line := 0, offset := 1, data := [5], isWrite := true }, .ST, .ST⟩, true, [5]⟩ ∧
        hit.request = ⟨{ line := 0, offset := 1, data := [0], isRead := true }, .LD, .LD⟩ := by
    cases hrun
    exact ⟨rfl, _, _, rfl, rfl, rfl⟩
  refine ⟨us, lines, hrun, fun c hc => (hall 0).1 c true hc hM, x, hit, hhits, ?_⟩
  have hdata := (hall 0).2.2 [x] true hit [] hhits (by rw [hhit]; rfl) (by rw [hhit])
    (by simp [hx]; rfl)
  obtain ⟨c, stored⟩ := x
  obtain rfl := hx
  rw [hdata, hhit]
  rfl

end Gem5Nvm.MiExample
