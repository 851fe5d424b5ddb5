import Gem5Nvm.Proofs.MiExample

/-!
# MI_example: what can be in flight

A cache is in one of eleven phases, each with the messages that can be to and from it; so is the
directory, with its requests to the memory, and a DMA controller. A cache that waits for a block has
one source for it: a block on its way, the memory, or a cache that was told to send it its own. At
most one place, a cache or the memory, has the valid block.
-/

namespace Gem5Nvm.MiExample

open Ruby (DataBlock)
open Function (update)

variable {C D : Type}

/-- The forward queue of a cache that is or was the owner: an owner may be told to give the line
back, one that was replaced as owner has to send its block to the next. -/
def Chained (own blocked : Prop) (fw : List (RequestMsg C)) : Prop :=
  own ∧ (fw = [] ∨ fw = [invalidate] ∧ blocked) ∨ ¬ own ∧ ∃ r, fw = [getx r]

/-- The phases of a cache, from its being the owner, its block being written back, and the directory
being blocked on an invalidation. -/
inductive CachePhase (c : C) (own wb blocked : Prop) : View C → Prop
  | idle {e : Option L1Cache.Entry} (he : ∀ x ∈ e, x.cacheState = .I) (hown : ¬ own) (hwb : ¬ wb) :
    CachePhase c own wb blocked ⟨e, none, [], [], []⟩
  | asked {e : L1Cache.Entry} {t : L1Cache.TBE} (ht : t.tbeState = .IS ∨ t.tbeState = .IM)
    (hown : ¬ own) (hwb : ¬ wb) : CachePhase c own wb blocked ⟨some e, some t, [getx c], [], []⟩
  | waiting {e : L1Cache.Entry} {t : L1Cache.TBE} {fw : List (RequestMsg C)}
    {rs : List ResponseMsg} (ht : t.tbeState = .IS ∨ t.tbeState = .IM)
    (hfw : Chained own blocked fw) (hwb : ¬ wb) (hrs : rs.length ≤ 1) :
    CachePhase c own wb blocked ⟨some e, some t, [], fw, rs⟩
  | modified {e : L1Cache.Entry} {fw : List (RequestMsg C)} (he : e.cacheState = .M)
    (hfw : Chained own blocked fw) (hwb : ¬ wb) :
    CachePhase c own wb blocked ⟨some e, none, [], fw, []⟩
  | evicting {t : L1Cache.TBE} {block : DataBlock} {fw : List (RequestMsg C)}
    (ht : t.tbeState = .MI) (hfw : Chained own blocked fw) (hwb : ¬ wb) :
    CachePhase c own wb blocked ⟨none, some t, [putx c block], fw, []⟩
  | writtenBack {t : L1Cache.TBE} {fw : List (RequestMsg C)} (ht : t.tbeState = .MI)
    (hfw : fw = [] ∨ fw = [invalidate]) (hown : ¬ own) (hwb : wb) :
    CachePhase c own wb blocked ⟨none, some t, [], fw, []⟩
  | acked {t : L1Cache.TBE} {fw : List (RequestMsg C)} (ht : t.tbeState = .MI)
    (hfw : fw = [wbAck c] ∨ fw = [invalidate, wbAck c]) (hown : ¬ own) (hwb : ¬ wb) :
    CachePhase c own wb blocked ⟨none, some t, [], fw, []⟩
  | nacked {t : L1Cache.TBE} {r : C} (ht : t.tbeState = .MI) (hown : ¬ own) (hwb : ¬ wb) :
    CachePhase c own wb blocked ⟨none, some t, [], [getx r, wbNack c], []⟩
  | gone {t : L1Cache.TBE} {block : DataBlock} (ht : t.tbeState = .II) (hown : ¬ own)
    (hwb : ¬ wb) : CachePhase c own wb blocked ⟨none, some t, [putx c block], [], []⟩
  | goneNacked {t : L1Cache.TBE} (ht : t.tbeState = .II) (hown : ¬ own) (hwb : ¬ wb) :
    CachePhase c own wb blocked ⟨none, some t, [], [wbNack c], []⟩

/-- The only message to or from the memory. -/
def InMemory (type : MemoryRequestType) (sender : Requestor C D) (p : Line.DirPart C D) : Prop :=
  ∃ m : MemoryMsg C D, (p.toMemory = [m] ∧ p.fromMemory = [] ∨
    p.toMemory = [] ∧ p.fromMemory = [m]) ∧ m.type = type ∧ m.sender = sender

variable {sender : Requestor C D} {type : MemoryRequestType} {e : Directory.Entry C}
  {t : Option (Directory.TBE D)}

variable {m : MemoryMsg C D}

@[simp] theorem inMemory_to :
    InMemory type sender ⟨e, t, [m], []⟩ ↔ m.type = type ∧ m.sender = sender := by
  simp [InMemory]

@[simp] theorem inMemory_from :
    InMemory type sender ⟨e, t, [], [m]⟩ ↔ m.type = type ∧ m.sender = sender := by
  simp [InMemory]

@[simp] theorem not_inMemory : ¬ InMemory type sender ⟨e, t, [], []⟩ := by
  simp [InMemory]

inductive DirPhase : Line.DirPart C D → Prop
  | invalid : DirPhase ⟨⟨.I, ∅, ∅⟩, none, [], []⟩
  | modified (o : C) : DirPhase ⟨⟨.M, ∅, {o}⟩, none, [], []⟩
  | fetching (o : C) {p : Line.DirPart C D} {t : Directory.TBE D} (hentry : p.entry = ⟨.IM, ∅, {o}⟩)
    (htbe : p.tbe = some t) (ht : t.tbeState = .IM) (hd : t.dmaRequestor = none)
    (hm : InMemory .MEMORY_READ (.cache o) p) : DirPhase p
  | writingBack (c : C) {p : Line.DirPart C D} {t : Directory.TBE D} (hentry : p.entry = ⟨.MI, ∅, ∅⟩)
    (htbe : p.tbe = some t) (ht : t.tbeState = .MI) (hd : t.dmaRequestor = none)
    (hm : InMemory .MEMORY_WB (.cache c) p) : DirPhase p
  | dmaFetching (d : D) {p : Line.DirPart C D} {t : Directory.TBE D} (hentry : p.entry = ⟨.ID, ∅, ∅⟩)
    (htbe : p.tbe = some t) (ht : t.tbeState = .ID) (hd : t.dmaRequestor = some d)
    (hm : InMemory .MEMORY_READ (.dma d) p) : DirPhase p
  | dmaWriting (d : D) {p : Line.DirPart C D} {t : Directory.TBE D}
    (hentry : p.entry = ⟨.ID_W, ∅, ∅⟩) (htbe : p.tbe = some t) (ht : t.tbeState = .ID_W)
    (hd : t.dmaRequestor = some d) (hm : InMemory .MEMORY_WB (.dma d) p) : DirPhase p
  | dmaRead (o : C) (d : D) {t : Directory.TBE D} (ht : t.tbeState = .M_DRD)
    (hd : t.dmaRequestor = some d) : DirPhase ⟨⟨.M_DRD, ∅, {o}⟩, some t, [], []⟩
  | dmaWrite (o : C) (d : D) {t : Directory.TBE D} (ht : t.tbeState = .M_DWR)
    (hd : t.dmaRequestor = some d) : DirPhase ⟨⟨.M_DWR, ∅, {o}⟩, some t, [], []⟩
  | dmaReadBack (c : C) {p : Line.DirPart C D} {t : Directory.TBE D}
    (hentry : p.entry = ⟨.M_DRDI, ∅, ∅⟩) (htbe : p.tbe = some t) (ht : t.tbeState = .M_DRDI)
    (hm : InMemory .MEMORY_WB (.cache c) p) : DirPhase p
  | dmaWriteBack (c : C) (d : D) {p : Line.DirPart C D} {t : Directory.TBE D}
    (hentry : p.entry = ⟨.M_DWRI, ∅, ∅⟩) (htbe : p.tbe = some t) (ht : t.tbeState = .M_DWRI)
    (hd : t.dmaRequestor = some d) (hm : InMemory .MEMORY_WB (.cache c) p) : DirPhase p

/-- A DMA controller's TBE and buffers. -/
structure DmaView where
  tbe : Option DMA.TBE
  requests : List DMARequestMsg
  responses : List DMAResponseMsg

variable [DecidableEq D]

/-- The request of a DMA controller that the directory is working on, until it answers. -/
def serving (p : Line.DirPart C D) (d : D) : Option DMARequestType :=
  match p.tbe with
  | none => none
  | some t =>
    if t.dmaRequestor = some d then
      match t.tbeState with
      | .ID | .M_DRD => some .READ
      | .ID_W | .M_DWR | .M_DWRI => some .WRITE
      | _ => none
    else none

def busy : DMARequestType → DMA.State
  | .READ => .BUSY_RD
  | .WRITE => .BUSY_WR

def answer : DMARequestType → DMAResponseType
  | .READ => .DATA
  | .WRITE => .ACK

inductive DmaPhase (served : Option DMARequestType) : DmaView → Prop
  | ready (hs : served = none) : DmaPhase served ⟨none, [], []⟩
  | asked {t : DMA.TBE} {m : DMARequestMsg} (ht : t.tbeState = busy m.type) (hs : served = none) :
    DmaPhase served ⟨some t, [m], []⟩
  | served {t : DMA.TBE} {type : DMARequestType} (ht : t.tbeState = busy type)
    (hs : served = some type) : DmaPhase served ⟨some t, [], []⟩
  | answered {t : DMA.TBE} {m : DMAResponseMsg} {type : DMARequestType}
    (ht : t.tbeState = busy type) (hm : m.type = answer type) (hs : served = none) :
    DmaPhase served ⟨some t, [], [m]⟩

/-- Where the block for a waiting cache comes from. -/
inductive Source (C : Type)
  | response
  | memory
  | cache (c : C)

instance : Nonempty (Source C) := ⟨.response⟩

def Feeds (p : Line.DirPart C D) (view : C → View C) (r : C) : Source C → Prop
  | .response => (view r).responses ≠ []
  | .memory => InMemory .MEMORY_READ (.cache r) p
  | .cache c => getx r ∈ (view c).forwards

/-- A cache whose request was accepted. -/
def Waiting (v : View C) : Prop :=
  (∃ t, v.tbe = some t ∧ (t.tbeState = .IS ∨ t.tbeState = .IM)) ∧ v.requests = []

inductive Place (C : Type)
  | memory
  | cache (c : C)

instance : Nonempty (Place C) := ⟨.memory⟩

/-- The valid block is with a cache: on its way to it, in its entry, or in its TBE and not given
away. -/
def HasBlock (v : View C) : Prop :=
  v.responses ≠ [] ∨ (v.tbe = none ∧ ∃ e, v.entry = some e ∧ e.cacheState = .M) ∨
    ∃ t, v.tbe = some t ∧ t.tbeState = .MI ∧ (v.requests ≠ [] ∨ ∃ r, getx r ∈ v.forwards)

def Holds (p : Line.DirPart C D) (view : C → View C) : Place C → Prop
  | .memory => p.entry.directoryState ≠ .M ∧ p.entry.directoryState ≠ .M_DRD ∧
      p.entry.directoryState ≠ .M_DWR
  | .cache c => HasBlock (view c)

def Blocked (p : Line.DirPart C D) : Prop :=
  p.entry.directoryState = .M_DRD ∨ p.entry.directoryState = .M_DWR

/-- The invariant, of the directory's part, the views of the caches and of the DMA controllers. -/
structure Inv (p : Line.DirPart C D) (view : C → View C) (dma : D → DmaView) : Prop where
  dir : DirPhase p
  cache : ∀ c, CachePhase c (c ∈ p.entry.owner) (InMemory .MEMORY_WB (.cache c) p) (Blocked p)
    (view c)
  waiting : ∀ r x, Feeds p view r x → Waiting (view r)
  source : ∀ r x y, Feeds p view r x → Feeds p view r y → x = y
  holder : ∀ x y, Holds p view x → Holds p view y → x = y
  dma : ∀ d, DmaPhase (serving p d) (dma d)

variable {blocked : Prop}

theorem Chained.congr {own own' blocked' : Prop} {fw : List (RequestMsg C)}
    (h : Chained own blocked fw) (hown : own' ↔ own) (hblocked : own → blocked → blocked') :
    Chained own' blocked' fw := by
  rcases h with ⟨ho, hfw⟩ | ⟨ho, hfw⟩
  · refine .inl ⟨hown.2 ho, hfw.imp_right fun hinv => ⟨hinv.1, hblocked ho hinv.2⟩⟩
  · exact .inr ⟨fun ho' => ho (hown.1 ho'), hfw⟩

theorem CachePhase.congr {c : C} {own own' wb wb' blocked' : Prop} {v : View C}
    (h : CachePhase c own wb blocked v) (hown : own' ↔ own) (hwb : wb' ↔ wb)
    (hblocked : own → blocked → blocked') : CachePhase c own' wb' blocked' v := by
  cases h with
  | idle he ho hw => exact .idle he (hown.not.2 ho) (hwb.not.2 hw)
  | asked ht ho hw => exact .asked ht (hown.not.2 ho) (hwb.not.2 hw)
  | waiting ht hfw hw hrs =>
    exact .waiting ht (hfw.congr hown hblocked) (hwb.not.2 hw) hrs
  | modified he hfw hw => exact .modified he (hfw.congr hown hblocked) (hwb.not.2 hw)
  | evicting ht hfw hw => exact .evicting ht (hfw.congr hown hblocked) (hwb.not.2 hw)
  | writtenBack ht hfw ho hw => exact .writtenBack ht hfw (hown.not.2 ho) (hwb.2 hw)
  | acked ht hfw ho hw => exact .acked ht hfw (hown.not.2 ho) (hwb.not.2 hw)
  | nacked ht ho hw => exact .nacked ht (hown.not.2 ho) (hwb.not.2 hw)
  | gone ht ho hw => exact .gone ht (hown.not.2 ho) (hwb.not.2 hw)
  | goneNacked ht ho hw => exact .goneNacked ht (hown.not.2 ho) (hwb.not.2 hw)

theorem CachePhase.setResponses {c : C} {own wb : Prop} {v : View C}
    (h : CachePhase c own wb blocked v) (hw : Waiting v) {rs : List ResponseMsg}
    (hrs : rs.length ≤ 1) : CachePhase c own wb blocked { v with responses := rs } := by
  cases h with
  | waiting ht hfw hwb _ => exact .waiting ht hfw hwb hrs
  | _ => simp_all [Waiting]

theorem Inv.frame {p p' : Line.DirPart C D} {view view' : C → View C} {dma dma' : D → DmaView}
    (K : C → Prop) (h : Inv p view dma) (hdir : DirPhase p')
    (hdma : ∀ d, DmaPhase (serving p' d) (dma' d)) (hview : ∀ c, ¬ K c → view' c = view c)
    (hstay : ∀ c, ¬ K c → (c ∈ p'.entry.owner ↔ c ∈ p.entry.owner) ∧
      (InMemory .MEMORY_WB (.cache c) p' ↔ InMemory .MEMORY_WB (.cache c) p) ∧
      (c ∈ p.entry.owner → Blocked p → Blocked p'))
    (hcache : ∀ c, K c → CachePhase c (c ∈ p'.entry.owner) (InMemory .MEMORY_WB (.cache c) p')
      (Blocked p') (view' c)) (hfeeds : ∀ r, ¬ K r → ∀ x, Feeds p' view' r x → Feeds p view r x)
    (hfed : ∀ r, K r → ∃ x, ∀ y, Feeds p' view' r y → y = x ∧ Waiting (view' r))
    (hholder : ∃ x, ∀ y, Holds p' view' y → y = x) : Inv p' view' dma' where
  dir := hdir
  cache c := by
    by_cases hc : K c
    · exact hcache c hc
    · obtain ⟨hown, hwb, hblocked⟩ := hstay c hc
      rw [hview c hc]
      exact (h.cache c).congr hown hwb hblocked
  waiting r x hx := by
    by_cases hr : K r
    · obtain ⟨y, hy⟩ := hfed r hr
      exact (hy x hx).2
    · rw [hview r hr]
      exact h.waiting r x (hfeeds r hr x hx)
  source r x y hx hy := by
    by_cases hr : K r
    · obtain ⟨z, hz⟩ := hfed r hr
      rw [(hz x hx).1, (hz y hy).1]
    · exact h.source r x y (hfeeds r hr x hx) (hfeeds r hr y hy)
  holder x y hx hy := by
    obtain ⟨z, hz⟩ := hholder
    rw [hz x hx, hz y hy]
  dma := hdma

theorem Inv.not_fed {p : Line.DirPart C D} {view : C → View C} {dma : D → DmaView} {c : C}
    (h : Inv p view dma) (hw : ¬ Waiting (view c)) {x : Source C} (hx : Feeds p view c x)
    {P : Prop} : P :=
  absurd (h.waiting c x hx) hw

variable [DecidableEq C] {p p' : Line.DirPart C D} {view : C → View C} {dma dma' : D → DmaView}
  {c r : C} {v : View C}

theorem getx_update (hfw : ∀ r, getx r ∈ v.forwards → getx r ∈ (view c).forwards) {x : C}
    (h : getx r ∈ (update view c v x).forwards) : getx r ∈ (view x).forwards := by
  by_cases hx : x = c
  · subst hx
    exact hfw r (by simpa using h)
  · simpa [hx] using h

theorem Inv.replace (h : Inv p view dma) (hdir : DirPhase p')
    (hdma : ∀ d, DmaPhase (serving p' d) (dma' d))
    (hown : ∀ x ≠ c, x ∈ p'.entry.owner ↔ x ∈ p.entry.owner)
    (hwb : ∀ x ≠ c, InMemory .MEMORY_WB (.cache x) p' ↔ InMemory .MEMORY_WB (.cache x) p)
    (hread : ∀ x ≠ c, InMemory .MEMORY_READ (.cache x) p' → InMemory .MEMORY_READ (.cache x) p)
    (hblocked : ∀ x ≠ c, x ∈ p.entry.owner → Blocked p → Blocked p')
    (hcache : CachePhase c (c ∈ p'.entry.owner) (InMemory .MEMORY_WB (.cache c) p') (Blocked p') v)
    (hfw : ∀ r, getx r ∈ v.forwards → getx r ∈ (view c).forwards)
    (hfed : ∃ x, ∀ y, Feeds p' (update view c v) c y → y = x ∧ Waiting v)
    (hholder : ∃ x, ∀ y, Holds p' (update view c v) y → y = x) : Inv p' (update view c v) dma' := by
  refine h.frame (· = c) hdir hdma ?_ ?_ ?_ ?_ ?_ hholder
  · intro x hx
    exact Function.update_of_ne hx v view
  · exact fun x hx => ⟨hown x hx, hwb x hx, hblocked x hx⟩
  · rintro x rfl
    simpa using hcache
  · intro r hr x hx
    cases x with
    | response => simpa [Feeds, hr] using hx
    | memory => exact hread r hr hx
    | cache x => exact getx_update hfw hx
  · rintro x rfl
    simpa using hfed

theorem exists_forall_eq {α : Type} [Nonempty α] {P : α → Prop}
    (h : ∀ y z, P y → P z → y = z) : ∃ x, ∀ y, P y → y = x := by
  by_cases hex : ∃ x, P x
  · obtain ⟨x, hx⟩ := hex
    exact ⟨x, fun y hy => h y x hy hx⟩
  · exact ⟨Classical.arbitrary α, fun y hy => absurd ⟨y, hy⟩ hex⟩

theorem Inv.setView (h : Inv p view dma)
    (hcache : CachePhase c (c ∈ p.entry.owner) (InMemory .MEMORY_WB (.cache c) p) (Blocked p) v)
    (hfw : ∀ r, getx r ∈ v.forwards → getx r ∈ (view c).forwards)
    (hresp : v.responses ≠ [] → (view c).responses ≠ [])
    (hwait : ∀ x, Feeds p view c x → (x = .response → v.responses ≠ []) → Waiting v)
    (hblock : HasBlock v → HasBlock (view c)) : Inv p (update view c v) dma := by
  have hfeeds : ∀ y, Feeds p (update view c v) c y →
      Feeds p view c y ∧ (y = .response → v.responses ≠ []) := by
    intro y hy
    cases y with
    | response =>
      have hne : v.responses ≠ [] := by simpa [Feeds] using hy
      exact ⟨hresp hne, fun _ => hne⟩
    | memory => exact ⟨hy, by simp⟩
    | cache x => exact ⟨getx_update hfw hy, by simp⟩
  have hholds : ∀ y, Holds p (update view c v) y → Holds p view y := by
    intro y hy
    cases y with
    | memory => exact hy
    | cache x =>
      by_cases hx : x = c
      · subst hx
        exact hblock (by simpa [Holds] using hy)
      · simpa [Holds, hx] using hy
  refine h.replace h.dir h.dma (fun _ _ => Iff.rfl) (fun _ _ => Iff.rfl) (fun _ _ => id)
    (fun _ _ _ => id) hcache hfw ?_ ?_
  · obtain ⟨x, hx⟩ := exists_forall_eq fun y z hy hz =>
      h.source c y z (hfeeds y hy).1 (hfeeds z hz).1
    exact ⟨x, fun y hy => ⟨hx y hy, hwait y (hfeeds y hy).1 (hfeeds y hy).2⟩⟩
  · exact exists_forall_eq fun y z hy hz => h.holder y z (hholds y hy) (hholds z hz)

/-- A cache sends its block to the next owner. -/
theorem Inv.pass (h : Inv p view dma) {m : ResponseMsg} (hgetx : getx r ∈ (view c).forwards)
    (hblock : HasBlock (view c)) (hw : ¬ Waiting (view c))
    (hcache : CachePhase c (c ∈ p.entry.owner) (InMemory .MEMORY_WB (.cache c) p) (Blocked p) v)
    (hfw : ∀ x, getx x ∉ v.forwards) (hresp : v.responses = []) (hgone : ¬ HasBlock v) :
    Inv p (update (update view c v) r { view r with responses := [m] }) dma := by
  have hrw : Waiting (view r) := h.waiting r (.cache c) hgetx
  have hrc : r ≠ c := by
    rintro rfl
    exact hw hrw
  refine h.frame (fun x => x = c ∨ x = r) h.dir h.dma ?_ ?_ ?_ ?_ ?_ ?_
  · rintro x hx
    obtain ⟨hxc, hxr⟩ := not_or.1 hx
    simp [hxc, hxr]
  · exact fun x _ => ⟨Iff.rfl, Iff.rfl, fun _ => id⟩
  · rintro x (rfl | rfl)
    · simpa [hrc.symm] using hcache
    · simpa using (h.cache x).setResponses hrw (by simp)
  · rintro x hx y hy
    obtain ⟨hxc, hxr⟩ := not_or.1 hx
    cases y with
    | response => simpa [Feeds, hxc, hxr] using hy
    | memory => exact hy
    | cache z =>
      by_cases hzr : z = r
      · subst hzr
        simpa [Feeds] using hy
      · by_cases hzc : z = c
        · subst hzc
          exact absurd (by simpa [Feeds, hzr] using hy) (hfw x)
        · simpa [Feeds, hzr, hzc] using hy
  · -- the cache that gave its block away waits for none; the next owner has one source, the block
    rintro x hx
    refine ⟨.response, fun y hy => ?_⟩
    have hold : y ≠ .response → Feeds p view x y ∧ y ≠ .cache c := by
      intro hne
      cases y with
      | response => exact absurd rfl hne
      | memory => exact ⟨hy, by simp⟩
      | cache z =>
        by_cases hzr : z = r
        · subst hzr
          exact ⟨by simpa [Feeds] using hy, by simpa using hrc⟩
        · by_cases hzc : z = c
          · subst hzc
            exact absurd (by simpa [Feeds, hzr] using hy) (hfw x)
          · exact ⟨by simpa [Feeds, hzr, hzc] using hy, by simpa using hzc⟩
    rcases hx with rfl | rfl
    · by_cases hne : y = .response
      · subst hne
        exact absurd hresp (by simpa [Feeds, hrc.symm] using hy)
      · exact h.not_fed hw (hold hne).1
    · by_cases hne : y = .response
      · exact ⟨hne, by simpa [Waiting] using hrw⟩
      · exact absurd (h.source x y (.cache c) (hold hne).1 hgetx) (hold hne).2
  · refine ⟨.cache r, fun y hy => ?_⟩
    have hold : ∀ y, Holds p view y → y = .cache c := fun y hy => h.holder y (.cache c) hy hblock
    cases y with
    | memory => exact absurd (hold .memory hy) (by simp)
    | cache z =>
      by_cases hzr : z = r
      · rw [hzr]
      · by_cases hzc : z = c
        · subst hzc
          exact absurd (by simpa [Holds, hzr] using hy) hgone
        · exact absurd (hold (.cache z) (by simpa [Holds, hzr, hzc] using hy)) (by simpa using hzc)

end Gem5Nvm.MiExample
