import Mathlib

/-!
# Loops that may fail or never end

`whileLoop` is a `while` whose body may fail, abandoned once its condition has been tested `fuel`
times.  What a loop that ends keeps is `whileLoop_inv`; that a loop ends is `whileLoop_total`, from
a variant the body makes smaller.  A loop that counts down is `whileLoop_count`.  The rules for a
fold that may fail are `foldlM_inv` and `foldlM_total`.
-/

namespace Loop

variable {σ ε : Type*}

/-- `while (cond s) s = body s`, given up with `stuck` after `fuel` tests of the condition. -/
def whileLoop (stuck : ε) (cond : σ → Bool) (body : σ → Except ε σ) : ℕ → σ → Except ε σ
  | 0, _ => .error stuck
  | fuel + 1, s => if cond s then (body s).bind (whileLoop stuck cond body fuel) else .ok s

/-- `do s = body s; while (cond s)`. -/
def doWhile (stuck : ε) (cond : σ → Bool) (body : σ → Except ε σ) (fuel : ℕ) (s : σ) :
    Except ε σ :=
  (body s).bind (whileLoop stuck cond body fuel)

theorem bind_eq_ok {α β : Type*} {x : Except ε α} {f : α → Except ε β} {b : β} :
    x.bind f = .ok b ↔ ∃ a, x = .ok a ∧ f a = .ok b := by
  cases x <;> simp [Except.bind]

variable {stuck : ε} {cond : σ → Bool} {body : σ → Except ε σ}

variable {fuel : ℕ}

variable {s : σ}

theorem whileLoop_stop (hf : 0 < fuel) (h : cond s = false) :
    whileLoop stuck cond body fuel s = .ok s := by
  obtain ⟨n, rfl⟩ : ∃ n, fuel = n + 1 := ⟨fuel - 1, by omega⟩
  simp [whileLoop, h]

theorem whileLoop_step {s s' : σ} (h : cond s = true) (hb : body s = .ok s') :
    whileLoop stuck cond body (fuel + 1) s = whileLoop stuck cond body fuel s' := by
  simp [whileLoop, h, hb, Except.bind]

theorem whileLoop_error {e : ε} (hf : 0 < fuel) (h : cond s = true) (hb : body s = .error e) :
    whileLoop stuck cond body fuel s = .error e := by
  obtain ⟨n, rfl⟩ : ∃ n, fuel = n + 1 := ⟨fuel - 1, by omega⟩
  simp [whileLoop, h, hb, Except.bind]

variable {I : σ → Prop}

theorem whileLoop_inv (hstep : ∀ s s', I s → cond s = true → body s = .ok s' → I s') :
    ∀ (fuel : ℕ) {s s' : σ}, I s → whileLoop stuck cond body fuel s = .ok s' →
      I s' ∧ cond s' = false
  | 0, s, s', _, h => by cases h
  | fuel + 1, s, s', hI, h => by
    simp only [whileLoop] at h
    split_ifs at h with hc
    · obtain ⟨s₁, hb, hl⟩ := bind_eq_ok.1 h
      exact whileLoop_inv hstep fuel (hstep s s₁ hI hc hb) hl
    · cases h
      exact ⟨hI, by simpa using hc⟩

theorem doWhile_inv {s s' : σ} (hfirst : ∀ s', body s = .ok s' → I s')
    (hstep : ∀ s s', I s → cond s = true → body s = .ok s' → I s')
    (h : doWhile stuck cond body fuel s = .ok s') : I s' ∧ cond s' = false := by
  obtain ⟨s₁, hb, hl⟩ := bind_eq_ok.1 h
  exact whileLoop_inv hstep fuel (hfirst s₁ hb) hl

theorem whileLoop_total {V : σ → ℕ}
    (hstep : ∀ s, I s → cond s = true → ∃ s', body s = .ok s' ∧ I s' ∧ V s' < V s) :
    ∀ (fuel : ℕ) {s : σ}, I s → V s < fuel →
      ∃ s', whileLoop stuck cond body fuel s = .ok s' ∧ I s' ∧ cond s' = false
  | 0, s, _, hv => by omega
  | fuel + 1, s, hI, hv => by
    cases hc : cond s with
    | false => exact ⟨s, whileLoop_stop (by omega) hc, hI, hc⟩
    | true =>
      obtain ⟨s₁, hb, hI₁, hlt⟩ := hstep s hI hc
      rw [whileLoop_step hc hb]
      exact whileLoop_total hstep fuel hI₁ (by omega)

theorem whileLoop_advance {f : ℕ → σ} :
    ∀ (n k : ℕ), (∀ i < n, cond (f (k + i)) = true ∧ body (f (k + i)) = .ok (f (k + i + 1))) →
      whileLoop stuck cond body (fuel + n) (f k) = whileLoop stuck cond body fuel (f (k + n))
  | 0, _, _ => rfl
  | n + 1, k, hrun => by
    obtain ⟨hc, hb⟩ := hrun 0 (by omega)
    have hidx : ∀ i, k + 1 + i = k + (i + 1) := fun i => by omega
    rw [show fuel + (n + 1) = fuel + n + 1 by ring, whileLoop_step (s := f k) hc hb,
      ← hidx n]
    exact whileLoop_advance n (k + 1) fun i hi => by rw [hidx]; exact hrun (i + 1) (by omega)

theorem whileLoop_rounds (f : ℕ → σ) (h0 : f 0 = s) {n fuel : ℕ}
    (hrun : ∀ i < n, cond (f i) = true ∧ body (f i) = .ok (f (i + 1))) :
    whileLoop stuck cond body (fuel + n) s = whileLoop stuck cond body fuel (f n) := by
  have hadv : whileLoop stuck cond body (fuel + n) (f 0) =
      whileLoop stuck cond body fuel (f (0 + n)) := whileLoop_advance n 0 (by simpa using hrun)
  rwa [h0, Nat.zero_add] at hadv

theorem whileLoop_count (f : ℕ → σ) (h0 : f 0 = s) {n fuel : ℕ} (hf : n < fuel)
    (hrun : ∀ i < n, cond (f i) = true ∧ body (f i) = .ok (f (i + 1)))
    (hstop : cond (f n) = false) : whileLoop stuck cond body fuel s = .ok (f n) := by
  obtain ⟨m, rfl⟩ : ∃ m, fuel = m + n := ⟨fuel - n, by omega⟩
  rw [whileLoop_rounds f h0 hrun, whileLoop_stop (by omega) hstop]

theorem whileLoop_count_error (f : ℕ → σ) (h0 : f 0 = s) {e : ε} {n fuel : ℕ} (hf : n < fuel)
    (hrun : ∀ i < n, cond (f i) = true ∧ body (f i) = .ok (f (i + 1))) (hc : cond (f n) = true)
    (hb : body (f n) = .error e) : whileLoop stuck cond body fuel s = .error e := by
  obtain ⟨m, rfl⟩ : ∃ m, fuel = m + n := ⟨fuel - n, by omega⟩
  rw [whileLoop_rounds f h0 hrun, whileLoop_error (by omega) hc hb]

section Fold

variable {α : Type*} {f : σ → α → Except ε σ} {I : List α → σ → Prop} {l : List α}

theorem foldlM_inv (hstep : ∀ pre x rest s s', l = pre ++ x :: rest → I pre s → f s x = .ok s' →
      I (pre ++ [x]) s') :
    ∀ (rest pre : List α) {s s' : σ}, l = pre ++ rest → I pre s → rest.foldlM f s = .ok s' → I l s'
  | [], pre, s, s', hl, hI, h => by
    cases h
    simpa [hl] using hI
  | x :: rest, pre, s, s', hl, hI, h => by
    rw [List.foldlM_cons] at h
    obtain ⟨s₁, hx, h⟩ := bind_eq_ok.1 h
    exact foldlM_inv hstep rest (pre ++ [x]) (by simpa using hl) (hstep pre x rest s s₁ hl hI hx) h

theorem foldlM_or {e : ε} (hstep : ∀ pre x rest s, l = pre ++ x :: rest → I pre s →
      f s x = .error e ∨ ∃ s', f s x = .ok s' ∧ I (pre ++ [x]) s') :
    ∀ (rest pre : List α) {s : σ}, l = pre ++ rest → I pre s →
      rest.foldlM f s = .error e ∨ ∃ s', rest.foldlM f s = .ok s' ∧ I l s'
  | [], pre, s, hl, hI => .inr ⟨s, rfl, by simpa [hl] using hI⟩
  | x :: rest, pre, s, hl, hI => by
    rw [List.foldlM_cons]
    rcases hstep pre x rest s hl hI with hx | ⟨s₁, hx, hI₁⟩
    · rw [hx]
      exact .inl rfl
    · rw [hx]
      exact foldlM_or hstep rest (pre ++ [x]) (by simpa using hl) hI₁

theorem foldlM_total (hstep : ∀ pre x rest s, l = pre ++ x :: rest → I pre s →
      ∃ s', f s x = .ok s' ∧ I (pre ++ [x]) s') :
    ∀ (rest pre : List α) {s : σ}, l = pre ++ rest → I pre s →
      ∃ s', rest.foldlM f s = .ok s' ∧ I l s'
  | [], pre, s, hl, hI => ⟨s, rfl, by simpa [hl] using hI⟩
  | x :: rest, pre, s, hl, hI => by
    obtain ⟨s₁, hx, hI₁⟩ := hstep pre x rest s hl hI
    obtain ⟨s', hs', hI'⟩ := foldlM_total hstep rest (pre ++ [x]) (by simpa using hl) hI₁
    refine ⟨s', ?_, hI'⟩
    rw [List.foldlM_cons]
    exact bind_eq_ok.2 ⟨s₁, hx, hs'⟩

end Fold

theorem mapM_forall₂ {α β : Type*} {f : α → Except ε β} :
    ∀ {l : List α} {l' : List β}, l.mapM f = .ok l' → List.Forall₂ (fun a b => f a = .ok b) l l'
  | [], l', h => by
    cases h
    exact .nil
  | a :: l, l', h => by
    rw [List.mapM_cons] at h
    obtain ⟨b, hb, h⟩ := bind_eq_ok.1 h
    obtain ⟨bs, hbs, h⟩ := bind_eq_ok.1 h
    cases h
    exact .cons hb (mapM_forall₂ hbs)

theorem mapM_map_eq {α β γ : Type*} {f : α → Except ε β} {p : α → γ} {q : β → γ} {l : List α}
    {l' : List β} (hf : ∀ a b, f a = .ok b → q b = p a) (h : l.mapM f = .ok l') :
    l'.map q = l.map p := by
  have hall := mapM_forall₂ h
  clear h
  induction hall with
  | nil => rfl
  | cons hb _ ih => rw [List.map_cons, List.map_cons, hf _ _ hb, ih]

end Loop
