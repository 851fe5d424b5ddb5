import Gem5Nvm.Proofs.MiDma

/-!
# MI_example: load-linked and store-conditional

An entry is locked only while its cache has the line, and since the last load-linked of its sequencer
only loads of that sequencer were completed. The line cannot be stored to by another core without the
entry being invalidated or given up, and both take the lock away.
-/

namespace Gem5Nvm.MiExample

open Ruby (DataBlock SequencerRequest Hit RubyRequestType)

variable {C D : Type}

/-- The completed requests end with a load-linked of `c` and loads of `c`. -/
def Armed (c : C) (hits : List (C × Hit)) : Prop :=
  ∃ pre hit mid, hits = pre ++ (c, hit) :: mid ∧ hit.request.type = .Load_Linked ∧
    ∀ x ∈ mid, x.1 = c ∧ x.2.request.type.isLoad = true

/-- Every store-conditional that succeeded had its load-linked. -/
def Linked (hits : List (C × Hit)) : Prop :=
  ∀ pre c hit post, hits = pre ++ (c, hit) :: post →
    hit.request.type = .Store_Conditional → hit.success = true → Armed c pre

variable {c : C}

variable {hit : Hit}

theorem Armed.load {hits : List (C × Hit)} (h : Armed c hits)
    (hload : hit.request.type.isLoad = true) : Armed c (hits ++ [(c, hit)]) := by
  obtain ⟨pre, g, mid, rfl, hg, hmid⟩ := h
  refine ⟨pre, g, mid ++ [(c, hit)], by simp, hg, fun x hx => ?_⟩
  rcases List.mem_append.1 hx with hx | hx
  · exact hmid x hx
  · rw [List.mem_singleton.1 hx]
    exact ⟨rfl, hload⟩

theorem armed_loadLinked (hits : List (C × Hit)) (h : hit.request.type = .Load_Linked) :
    Armed c (hits ++ [(c, hit)]) :=
  ⟨hits, hit, [], rfl, h, by simp⟩

variable {hits : List (C × Hit)}

theorem Linked.concat (h : Linked hits)
    (hsc : hit.request.type = .Store_Conditional → hit.success = true → Armed c hits) :
    Linked (hits ++ [(c, hit)]) := by
  intro pre c' hit' post heq htype hsuccess
  rcases List.eq_nil_or_concat post with rfl | ⟨post', x, rfl⟩
  · obtain ⟨rfl, hx⟩ := List.append_inj' heq rfl
    cases hx
    exact hsc htype hsuccess
  · have heq' : hits ++ [(c, hit)] = (pre ++ (c', hit') :: post') ++ [x] := by simpa using heq
    obtain ⟨hinit, -⟩ := List.append_inj' heq' rfl
    exact h pre c' hit' post' hinit htype hsuccess

/-- The completed requests are in order, and those of `c` account for its monitor. -/
structure Watched (c : C) (monitor : Option ℤ) (hits : List (C × Hit)) : Prop where
  linked : Linked hits
  armed : monitor = some version → Armed c hits

section

variable {c : C} {l : Ruby.LineData} {r : SequencerRequest} {hits : List (C × Hit)}

theorem Watched.load (h : Watched c l.monitor hits) (hr : r.type.isLoad = true) :
    Watched c (Ruby.hit version l r true).1.monitor
      (hits ++ [(c, (Ruby.hit version l r true).2)]) := by
  refine ⟨h.linked.concat ?_, ?_⟩
  · intro hsc
    simp [show r.type = .Store_Conditional from hsc, RubyRequestType.isLoad] at hr
  · intro hmonitor
    by_cases hll : r.type = .Load_Linked
    · exact armed_loadLinked hits hll
    · refine (h.armed ?_).load hr
      simpa [Ruby.hit, hll] using hmonitor

variable {monitor : Option ℤ}

theorem checkMonitor_success {type : RubyRequestType} (hsc : type = .Store_Conditional)
    (h : (Ruby.checkMonitor version monitor type).1 = true) : monitor = some version := by
  cases monitor with
  | none => simp [Ruby.checkMonitor, hsc, Ruby.llscStoreConditional] at h
  | some locked => simpa [Ruby.checkMonitor, hsc, Ruby.llscStoreConditional] using h

theorem checkMonitor_cleared (monitor : Option ℤ) (type : RubyRequestType) :
    (Ruby.checkMonitor version monitor type).2 ≠ some version := by
  unfold Ruby.checkMonitor
  cases monitor with
  | none => split <;> simp [Ruby.llscClearMonitor, Ruby.llscStoreConditional]
  | some locked =>
    split
    · by_cases hl : locked = version
      · simp [Ruby.llscClearMonitor, hl, version]
      · simp [Ruby.llscClearMonitor, hl]
    · simp [Ruby.llscStoreConditional, version]

theorem Watched.write (h : Watched c l.monitor hits) (hr : r.type.isLoad = false) :
    Watched c (Ruby.serveWrite version l r).1.monitor
      (hits ++ [(c, (Ruby.serveWrite version l r).2)]) := by
  have hll : r.type ≠ .Load_Linked := by
    intro hll
    simp [hll, RubyRequestType.isLoad] at hr
  simp only [Ruby.serveWrite, hr, Bool.false_eq_true, if_false]
  refine ⟨h.linked.concat fun hsc hsuccess => h.armed (checkMonitor_success hsc hsuccess), ?_⟩
  intro hmonitor
  simp only [Ruby.hit, hll, if_false] at hmonitor
  exact absurd hmonitor (checkMonitor_cleared l.monitor r.type)

theorem Watched.serveAll {serve : Ruby.LineData → SequencerRequest → Ruby.LineData × Hit}
    {reqs : List SequencerRequest}
    (hserve : ∀ r ∈ reqs, ∀ (l : Ruby.LineData) hits, Watched c l.monitor hits →
      Watched c (serve l r).1.monitor (hits ++ [(c, (serve l r).2)])) :
    ∀ {l hits}, Watched c l.monitor hits →
      Watched c (Ruby.serveAll serve l reqs).1.monitor
        (hits ++ (Ruby.serveAll serve l reqs).2.map fun hit => (c, hit)) := by
  induction reqs with
  | nil => intro l hits h; simpa [Ruby.serveAll] using h
  | cons r reqs ih =>
    intro l hits h
    have hone := hserve r List.mem_cons_self l hits h
    have hrest := ih (fun r hr => hserve r (List.mem_cons_of_mem _ hr)) hone
    simpa [Ruby.serveAll] using hrest

theorem Watched.getD (h : Watched c monitor hits) : Watched c (some (monitor.getD (-1))) hits := by
  refine ⟨h.linked, fun heq => h.armed ?_⟩
  cases monitor with
  | none => simp [version] at heq
  | some locked => exact heq

variable {e e' : L1Cache.Entry}

theorem Served.watched {hs : List Hit} (hserved : Served e e' hs)
    (h : Watched c (some e.locked) hits) :
    Watched c (some e'.locked) (hits ++ hs.map fun hit => (c, hit)) := by
  obtain ⟨reqs, hr | hr⟩ := hserved
  · cases hr
    have hload : ∀ r ∈ reqs.takeWhile (fun r => r.type.isLoad), r.type.isLoad = true :=
      fun r hr => List.mem_takeWhile_imp (p := fun r : SequencerRequest => r.type.isLoad) hr
    exact (Watched.serveAll (l := ⟨some e.locked, e.dataBlk⟩)
      (fun r hr l hits h => h.load (hload r hr)) h).getD
  · cases hr
    refine (Watched.serveAll (l := ⟨some e.locked, e.dataBlk⟩) (fun r _ l hits h => ?_) h).getD
    by_cases hl : r.type.isLoad = true
    · simpa only [Ruby.serveWrite, hl, if_true] using h.load hl
    · exact h.write (by simpa using hl)

end

/-- A locked entry is that of a cache that has the line, and the requests account for it. -/
def Guarded (c : C) (v : View C) (hits : List (C × Hit)) : Prop :=
  ∀ e, v.entry = some e → e.locked = version → v.tbe = none ∧ e.cacheState = .M ∧ Armed c hits

structure Line.Monitored (s : Line C D) : Prop where
  linked : Linked s.hits
  guarded : ∀ c, Guarded c (s.view c) s.hits

variable {v : View C}

theorem Guarded.hasBlock (h : Guarded c v hits) {e : L1Cache.Entry} (he : v.entry = some e)
    (hl : e.locked = version) : HasBlock v := by
  obtain ⟨ht, hM, -⟩ := h e he hl
  exact .inr (.inl ⟨ht, e, he, hM⟩)

theorem Guarded.congr {v v' : View C} (h : Guarded c v hits) (he : v'.entry = v.entry)
    (ht : v'.tbe = v.tbe) : Guarded c v' hits := by
  unfold Guarded
  rwa [he, ht]

theorem guarded_none (he : v.entry = none) : Guarded c v hits := by
  intro e he'
  simp [he] at he'

namespace Line.Monitored

variable [DecidableEq C] [DecidableEq D] {s : Line C D}

omit [DecidableEq D] in
theorem setView (h : s.Monitored) (hv : Guarded c v s.hits) : (s.setView c v).Monitored := by
  refine ⟨h.linked, fun x => ?_⟩
  by_cases hx : x = c
  · subst hx
    simpa using hv
  · simpa [hx] using h.guarded x

omit [DecidableEq C] [DecidableEq D] in
theorem setDir (h : s.Monitored) (p : DirPart C D) : (s.setDir p).Monitored := ⟨h.linked, h.guarded⟩

omit [DecidableEq C] in
theorem setDmaView (h : s.Monitored) (d : D) (v : DmaView) : (s.setDmaView d v).Monitored :=
  ⟨h.linked, h.guarded⟩

omit [DecidableEq C] [DecidableEq D] in
theorem keeps (h : s.Monitored) (he : v.entry = (s.view c).entry) (ht : v.tbe = (s.view c).tbe) :
    Guarded c v s.hits :=
  (h.guarded c).congr he ht

theorem served (h : s.Monitored) (hi : s.Inv) (hc : HasBlock (s.view c)) {hs : List Hit}
    (hserved : Served e e' hs) (he : e.locked = version → Armed c s.hits)
    {fw : List (RequestMsg C)} :
    ((s.setView c ⟨some (e'.setState .M), none, [], fw, []⟩).addHits c hs).Monitored := by
  obtain ⟨hlinked, harmed⟩ := hserved.watched (c := c) ⟨h.linked, fun hl => he (by simpa using hl)⟩
  refine ⟨hlinked, fun x => ?_⟩
  rw [view_addHits, view_setView]
  intro e'' he'' hl
  by_cases hx : x = c
  · subst hx
    rw [Function.update_self] at he'' ⊢
    cases he''
    exact ⟨rfl, rfl, harmed (by simpa [L1Cache.Entry.setState] using hl)⟩
  · -- no other cache has the line
    rw [Function.update_of_ne hx] at he''
    have hholds := (h.guarded x).hasBlock he'' hl
    exact absurd (hi.holder (.cache x) (.cache c) hholds hc) (by simpa using hx)

end Line.Monitored

variable [DecidableEq C] [DecidableEq D]

omit [DecidableEq C] [DecidableEq D] in
theorem Line.hits_serveMemory (s : Line C D) : s.serveMemory.hits = s.hits := by
  unfold Line.serveMemory
  split
  · rfl
  · split <;> rfl

/-- No step lets a monitor outlive the line. -/
theorem Change.monitored {s s' : Line C D} {op : Op C D} (hc : Change s op s') (hi : s.Inv)
    (h : s.Monitored) : s'.Monitored := by
  cases hc with
  | stall => exact h
  | @miss _ c e state hv he hstate =>
    refine h.setView ?_
    intro e' he' hl
    cases he'
    have hI : state ≠ .I := by rcases hstate with rfl | rfl <;> simp
    cases e with
    | none => simp [L1Cache.Entry.setState, version, hI] at hl
    | some e =>
      obtain ⟨-, hM, -⟩ := h.guarded c e (by rw [hv]) (by simpa [L1Cache.Entry.setState, hI] using hl)
      simp [he e rfl] at hM
  | @access _ c e _ _ _ hv he hserved =>
    have hblock : HasBlock (s.view c) := .inr (.inl ⟨by rw [hv], e, by rw [hv], he⟩)
    exact h.served hi hblock hserved fun hl => (h.guarded c e (by rw [hv]) hl).2.2
  | @fill _ c e _ _ _ _ _ hv hserved =>
    have hblock : HasBlock (s.view c) := .inl (by simp [hv])
    refine h.served hi hblock hserved fun hl => ?_
    obtain ⟨hnone, -⟩ := h.guarded c e (by rw [hv]) hl
    simp [hv] at hnone
  | passEntry c r hv he hr =>
    refine (h.setView ?_).setView (h.keeps rfl rfl)
    intro e' he' hl
    cases he'
    simp [L1Cache.Entry.setState, version] at hl
  | passTbe c r hv ht hr => exact (h.setView (guarded_none rfl)).setView (h.keeps rfl rfl)
  | fetch c hdir hv => exact (h.setDir _).setView (h.keeps (by rw [hv]) (by rw [hv]))
  | handOver c o hdir hv ho hne =>
    refine ((h.setDir _).setView ?_).setView (h.keeps (by rw [hv]) (by rw [hv]))
    exact h.keeps rfl rfl
  | writeBack c hdir hv | dmaWriteBack c d hdir ht' hd hv =>
    exact (h.setDir _).setView (guarded_none rfl)
  | data c hdir hd hm hsender hrs | ack c hdir hstate ht hm hsender =>
    exact (h.setDir _).setView (h.keeps rfl rfl)
  | serve hto hfrom =>
    obtain ⟨-, -, -, -, hview, -⟩ := s.serveMemory_dir hto hfrom
    refine ⟨?_, fun c => ?_⟩
    · rw [s.hits_serveMemory]
      exact h.linked
    · rw [hview, s.hits_serveMemory]
      exact h.guarded c
  | dmaReadBack c d hdir ht' hd hv hrs =>
    exact ((h.setDir _).setView (guarded_none rfl)).setDmaView d _
  | dmaAnswer d | dmaRead d | dmaWrite d => exact (h.setDir _).setDmaView d _
  | dmaAck c d hdir ht hd hm hsender hmsg hrs | dmaInvalidate o d hdir hv hstate ho =>
    refine ((h.setDir _).setView ?_).setDmaView d _
    exact h.keeps rfl rfl
  | dmaAsk d | dmaDone d => exact h.setDmaView d _
  | _ => exact h.setView (guarded_none rfl)

/-- A store-conditional of `c` succeeds only after a load-linked of `c` with nothing in between but
loads of `c`: no request of another core, and no store or store-conditional of its own. -/
theorem storeConditional_linked {memory : ℕ → DataBlock} {ops : List (ℕ × Op C D)}
    {us : List Unit} {lines : ℕ → Line C D}
    (hrun : Run.run step (start memory) ops = .ok (us, lines)) (a : ℕ)
    {pre post : List (C × Hit)} {c : C} {hit : Hit} (hhits : (lines a).hits = pre ++ (c, hit) :: post)
    (hsc : hit.request.type = .Store_Conditional) (hsuccess : hit.success = true) :
    ∃ pre' ll mid, pre = pre' ++ (c, ll) :: mid ∧ ll.request.type = .Load_Linked ∧
      ∀ x ∈ mid, x.1 = c ∧ x.2.request.type.isLoad = true := by
  have hstart : ∀ a, ((start memory : ℕ → Line C D) a).Monitored := by
    refine fun a => ⟨fun pre c hit post heq => ?_, fun c => guarded_none rfl⟩
    simp [start] at heq
  have hall := run_lines Change.monitored hstart hrun
  exact (hall a).2.linked pre c hit post hhits hsc hsuccess

/-- A store-conditional that succeeds after a load-linked and a load. -/
theorem storeConditional_linked_after_load :
    ∃ us, ∃ lines : ℕ → Line Unit Unit, ∃ hits : List (Unit × Hit), ∃ hit : Hit,
      Run.run step (start fun _ _ => 0)
        ([.mandatory () .LD [], .request (), .memory, .memoryResponse,
          .response () 0
            [⟨{ line := 0, offset := 0, data := [0], isRead := true, isLLSC := true },
                .Load_Linked, .LD⟩,
              ⟨{ line := 0, offset := 0, data := [0], isRead := true }, .LD, .LD⟩],
          .mandatory () .ST
            [⟨{ line := 0, offset := 0, data := [7], isWrite := true, isLLSC := true },
              .Store_Conditional, .ST⟩]].map fun op => (0, op)) = .ok (us, lines) ∧
      (lines 0).hits = hits ++ [((), hit)] ∧ hit.success = true ∧
      ∃ pre' ll mid, hits = pre' ++ ((), ll) :: mid ∧ ll.request.type = .Load_Linked ∧
        ∀ x ∈ mid, x.1 = () ∧ x.2.request.type.isLoad = true := by
  refine ⟨?_, ?_, [?_, ?_], ?_, ?run, ?hits, ?_, storeConditional_linked ?run 0 ?hits ?_ ?_⟩
  case run => rfl
  case hits => rfl
  all_goals rfl

end Gem5Nvm.MiExample
