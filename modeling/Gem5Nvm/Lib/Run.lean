import Mathlib

/-!
# Runs of a step function that may fail

`run step s os` feeds the operations `os` to `step` one after the other, from `s`; it fails as
soon as a step does.  `Along step P s os` says that every step the run takes meets `P` at the state
it is taken from.  What every step that meets `P` keeps, a run along `P` keeps (`run_inv`), the
answers given so far included (`run_inv_answers`).  Two states a bisimulation relates give the same
answers (`answers_eq_of_bisim`).
-/

namespace Run

variable {σ ο ρ ε : Type*} (step : σ → ο → Except ε (ρ × σ))

def run : σ → List ο → Except ε (List ρ × σ)
  | s, [] => .ok ([], s)
  | s, o :: os =>
    (step s o).bind fun x => (run x.2 os).bind fun y => .ok (x.1 :: y.1, y.2)

def Along (P : σ → ο → Prop) : σ → List ο → Prop
  | _, [] => True
  | s, o :: os => P s o ∧ ∀ r s', step s o = .ok (r, s') → Along P s' os

/-- The states some run from `s` ends in. -/
def Reachable (s s' : σ) : Prop := ∃ os rs, run step s os = .ok (rs, s')

/-- What a run answers, or how it fails. -/
def answers (s : σ) (os : List ο) : Except ε (List ρ) := (run step s os).map Prod.fst

variable {step}

@[simp] theorem run_nil (s : σ) : run step s [] = .ok ([], s) := rfl

variable {s s' : σ}

theorem run_cons_eq_ok {o : ο} {os : List ο} {rs : List ρ} :
    run step s (o :: os) = .ok (rs, s') ↔
      ∃ r s₁ rs', step s o = .ok (r, s₁) ∧ run step s₁ os = .ok (rs', s') ∧ rs = r :: rs' := by
  simp only [run]
  constructor
  · intro h
    rcases hx : step s o with e | ⟨r, s₁⟩ <;> rw [hx] at h <;> simp only [Except.bind] at h
    · cases h
    rcases hy : run step s₁ os with e | ⟨rs', s₂⟩ <;> rw [hy] at h <;> simp at h
    obtain ⟨rfl, rfl⟩ := h
    exact ⟨r, s₁, rs', rfl, hy, rfl⟩
  · rintro ⟨r, s₁, rs', hx, hy, rfl⟩
    simp [hx, hy, Except.bind]

variable {os : List ο}

theorem run_cons {s s₁ s' : σ} {o : ο} {r : ρ} {rs : List ρ} (ho : step s o = .ok (r, s₁))
    (hr : run step s₁ os = .ok (rs, s')) : run step s (o :: os) = .ok (r :: rs, s') :=
  run_cons_eq_ok.2 ⟨r, s₁, rs, ho, hr, rfl⟩

variable {rs : List ρ}

theorem length_of_run (h : run step s os = .ok (rs, s')) : rs.length = os.length := by
  induction os generalizing s rs with
  | nil =>
    simp only [run_nil, Except.ok.injEq, Prod.mk.injEq] at h
    obtain ⟨rfl, rfl⟩ := h
    rfl
  | cons o os ih =>
    obtain ⟨r, s₁, rs', -, hrun, rfl⟩ := run_cons_eq_ok.1 h
    rw [List.length_cons, List.length_cons, ih hrun]

theorem run_append {s s₁ s₂ : σ} :
    ∀ {os : List ο} {rs : List ρ} {os' : List ο} {rs' : List ρ},
      run step s os = .ok (rs, s₁) → run step s₁ os' = .ok (rs', s₂) →
        run step s (os ++ os') = .ok (rs ++ rs', s₂)
  | [], rs, os', rs', h, h' => by
    simp only [run_nil, Except.ok.injEq, Prod.mk.injEq] at h
    obtain ⟨rfl, rfl⟩ := h
    exact h'
  | o :: os, rs, os', rs', h, h' => by
    obtain ⟨r, t, rs₁, ho, hr, rfl⟩ := run_cons_eq_ok.1 h
    exact run_cons_eq_ok.2 ⟨r, t, rs₁ ++ rs', ho, run_append hr h', rfl⟩

theorem Reachable.refl (s : σ) : Reachable step s s := ⟨[], [], rfl⟩

theorem Reachable.tail {s s₁ s₂ : σ} {o : ο} {r : ρ} (h : Reachable step s s₁)
    (ho : step s₁ o = .ok (r, s₂)) : Reachable step s s₂ := by
  obtain ⟨os, rs, hr⟩ := h
  exact ⟨os ++ [o], rs ++ [r], run_append hr (run_cons_eq_ok.2 ⟨r, s₂, [], ho, rfl, rfl⟩)⟩

variable {P : σ → ο → Prop}

theorem run_inv_answers {I : List ρ → σ → Prop}
    (hstep : ∀ rs s o r s', I rs s → P s o → step s o = .ok (r, s') → I (rs ++ [r]) s') :
    ∀ (os : List ο) (acc : List ρ) {rs : List ρ} {s s' : σ}, I acc s → Along step P s os →
      run step s os = .ok (rs, s') → I (acc ++ rs) s'
  | [], acc, rs, s, s', hI, _, h => by
    simp only [run_nil, Except.ok.injEq, Prod.mk.injEq] at h
    obtain ⟨rfl, rfl⟩ := h
    simpa using hI
  | o :: os, acc, rs, s, s', hI, hP, h => by
    obtain ⟨r, s₁, rs', ho, hr, rfl⟩ := run_cons_eq_ok.1 h
    have := run_inv_answers hstep os (acc ++ [r]) (hstep acc s o r s₁ hI hP.1 ho) (hP.2 r s₁ ho) hr
    simpa using this

variable {I : σ → Prop}

theorem run_inv (hstep : ∀ s o r s', I s → P s o → step s o = .ok (r, s') → I s') (hI : I s)
    (hP : Along step P s os) (h : run step s os = .ok (rs, s')) : I s' :=
  run_inv_answers (I := fun _ s => I s) (fun _ s o r s' => hstep s o r s') os [] hI hP h

theorem along_cons {s s₁ : σ} {o : ο} {r : ρ} (h : step s o = .ok (r, s₁)) :
    Along step P s (o :: os) ↔ P s o ∧ Along step P s₁ os := by
  simp only [Along, h, Except.ok.injEq, Prod.mk.injEq]
  constructor
  · exact fun hP => ⟨hP.1, hP.2 r s₁ ⟨rfl, rfl⟩⟩
  · rintro ⟨hP, ha⟩
    refine ⟨hP, ?_⟩
    rintro _ _ ⟨rfl, rfl⟩
    exact ha

theorem along_of_forall {P : ο → Prop} (h : ∀ o ∈ os, P o) (s : σ) :
    Along step (fun _ o => P o) s os := by
  induction os generalizing s with
  | nil => trivial
  | cons o os ih =>
    exact ⟨h o List.mem_cons_self, fun _ s' _ => ih (fun o ho => h o (List.mem_cons_of_mem _ ho)) s'⟩

theorem along_true (s : σ) (os : List ο) : Along step (fun _ _ => True) s os := by
  induction os generalizing s with
  | nil => trivial
  | cons o os ih => exact ⟨trivial, fun _ s' _ => ih s'⟩

variable {P Q : σ → ο → Prop}

theorem Along.and : ∀ {os : List ο} {s : σ}, Along step P s os →
    Along step Q s os → Along step (fun s o => P s o ∧ Q s o) s os
  | [], _, _, _ => trivial
  | _ :: _, _, hP, hQ => ⟨⟨hP.1, hQ.1⟩, fun r s' h => (hP.2 r s' h).and (hQ.2 r s' h)⟩

theorem along_congr {D : ο → Prop}
    (hstep : ∀ s o, I s → D o → (P s o ↔ Q s o) ∧ (P s o → ∀ r s', step s o = .ok (r, s') → I s')) :
    ∀ (os : List ο) {s : σ}, I s → (∀ o ∈ os, D o) → (Along step P s os ↔ Along step Q s os)
  | [], _, _, _ => Iff.rfl
  | o :: os, s, hI, hD => by
    obtain ⟨hPQ, hnext⟩ := hstep s o hI (hD o List.mem_cons_self)
    have ih : P s o → ∀ r s', step s o = .ok (r, s') →
        (Along step P s' os ↔ Along step Q s' os) := fun hP r s' h =>
      along_congr hstep os (hnext hP r s' h) fun o' ho' => hD o' (List.mem_cons_of_mem _ ho')
    constructor
    · rintro ⟨hP, h⟩
      exact ⟨hPQ.1 hP, fun r s' hs => (ih hP r s' hs).1 (h r s' hs)⟩
    · rintro ⟨hQ, h⟩
      exact ⟨hPQ.2 hQ, fun r s' hs => (ih (hPQ.2 hQ) r s' hs).2 (h r s' hs)⟩

theorem along_congr_of_run
    (hstep : ∀ s o r s', I s → step s o = .ok (r, s') → (P s o ↔ Q s o) ∧ (P s o → I s')) :
    ∀ {os : List ο} {rs : List ρ} {s s' : σ}, I s → run step s os = .ok (rs, s') →
      (Along step P s os ↔ Along step Q s os)
  | [], _, _, _, _, _ => Iff.rfl
  | o :: os, rs, s, s', hI, h => by
    obtain ⟨r, s₁, rs', ho, hr, rfl⟩ := run_cons_eq_ok.1 h
    obtain ⟨hPQ, hnext⟩ := hstep s o r s₁ hI ho
    rw [along_cons ho, along_cons ho]
    constructor
    · rintro ⟨hP, h⟩
      exact ⟨hPQ.1 hP, (along_congr_of_run hstep (hnext hP) hr).1 h⟩
    · rintro ⟨hQ, h⟩
      exact ⟨hPQ.2 hQ, (along_congr_of_run hstep (hnext (hPQ.2 hQ)) hr).2 h⟩

theorem run_total (hstep : ∀ s o, I s → P s o → ∃ r s', step s o = .ok (r, s') ∧ I s') :
    ∀ (os : List ο) {s : σ}, I s → Along step P s os → ∃ rs s', run step s os = .ok (rs, s') ∧ I s'
  | [], s, hI, _ => ⟨[], s, rfl, hI⟩
  | o :: os, s, hI, hP => by
    obtain ⟨r, s₁, ho, hI₁⟩ := hstep s o hI hP.1
    obtain ⟨rs, s', hrun, hI'⟩ := run_total hstep os hI₁ (hP.2 r s₁ ho)
    exact ⟨r :: rs, s', run_cons_eq_ok.2 ⟨r, s₁, rs, ho, hrun, rfl⟩, hI'⟩

theorem along_imp (hstep : ∀ s o, I s → P s o → Q s o ∧ ∀ r s', step s o = .ok (r, s') → I s') :
    ∀ (os : List ο) {s : σ}, I s → Along step P s os → Along step Q s os
  | [], _, _, _ => trivial
  | o :: os, s, hI, hP => by
    obtain ⟨hQ, hnext⟩ := hstep s o hI hP.1
    exact ⟨hQ, fun r s' h => along_imp hstep os (hnext r s' h) (hP.2 r s' h)⟩

theorem Reachable.inv (h : Reachable step s s') (hI : I s)
    (hstep : ∀ s o r s', I s → step s o = .ok (r, s') → I s') : I s' := by
  obtain ⟨os, rs, hr⟩ := h
  exact run_inv (P := fun _ _ => True) (fun s o r s' hs _ => hstep s o r s' hs) hI
    (along_true s os) hr

/-- Both steps fail alike, or answer alike and end in related states. -/
def StepsAlike {τ : Type*} (R : σ → τ → Prop) (x : Except ε (ρ × σ)) (y : Except ε (ρ × τ)) :
    Prop :=
  (∃ e, x = .error e ∧ y = .error e) ∨ ∃ r s t, x = .ok (r, s) ∧ y = .ok (r, t) ∧ R s t

theorem answers_eq_of_bisim {τ : Type*} {step' : τ → ο → Except ε (ρ × τ)} {R : σ → τ → Prop}
    (hstep : ∀ s t o, R s t → StepsAlike R (step s o) (step' t o)) :
    ∀ (os : List ο) {s : σ} {t : τ}, R s t → answers step s os = answers step' t os
  | [], _, _, _ => rfl
  | o :: os, s, t, hR => by
    rcases hstep s t o hR with ⟨e, hs, ht⟩ | ⟨r, s₁, t₁, hs, ht, hR₁⟩
    · simp [answers, run, hs, ht, Except.bind, Except.map]
    · have ih := answers_eq_of_bisim hstep os hR₁
      simp only [answers] at ih
      rcases hx : run step s₁ os with e | x <;> rcases hy : run step' t₁ os with e' | y <;>
        rw [hx, hy] at ih <;> simp only [Except.map, reduceCtorEq, Except.ok.injEq,
          Except.error.injEq] at ih <;>
        simp [answers, run, hs, ht, hx, hy, Except.bind, Except.map, ih]

end Run
