import Mathlib

/-!
# Maps kept as sorted lists

A map is the list of its entries in the order of their keys, as an ordered container goes through
them.  `alter k f` stores under `k` what `f` makes of the entry there, `erase k` takes it out; both
are known by what `List.lookup` finds afterwards.  `weight w` adds up `w` over the values.
-/

namespace SortedMap

open List (pairwise_cons mem_cons map_cons)

variable {κ β : Type*} [LinearOrder κ]

def Sorted (m : List (κ × β)) : Prop := m.Pairwise fun e e' => e.1 < e'.1

def alter (k : κ) (f : Option β → β) : List (κ × β) → List (κ × β)
  | [] => [(k, f none)]
  | e :: rest =>
    if k < e.1 then (k, f none) :: e :: rest
    else if k = e.1 then (k, f (some e.2)) :: rest
    else e :: alter k f rest

def erase (k : κ) (m : List (κ × β)) : List (κ × β) := m.filter fun e => e.1 ≠ k

def weight (w : β → ℕ) (m : List (κ × β)) : ℕ := (m.map fun e => w e.2).sum

variable {m : List (κ × β)} {k k' : κ} {f : Option β → β} {w : β → ℕ} {e : κ × β}

theorem lookup_cons : (e :: m).lookup k = if k = e.1 then some e.2 else m.lookup k := by
  rw [List.lookup_cons]
  by_cases h : k = e.1
  · simp [h]
  · simp [h, beq_eq_false_iff_ne.2 h]

theorem lookup_eq_none (h : ∀ e ∈ m, e.1 ≠ k) : m.lookup k = none :=
  List.lookup_eq_none_iff.2 fun e he => by simpa using (h e he).symm

theorem sorted_nil : Sorted ([] : List (κ × β)) := List.Pairwise.nil

theorem Sorted.lookup_of_mem (hs : Sorted m) (he : e ∈ m) : m.lookup e.1 = some e.2 := by
  induction m with
  | nil => cases he
  | cons e₀ rest ih =>
    obtain ⟨hhead, hrest⟩ := pairwise_cons.1 hs
    rw [lookup_cons]
    rcases mem_cons.1 he with rfl | he
    · rw [if_pos rfl]
    · rw [if_neg (hhead e he).ne', ih hrest he]

theorem key_mem_alter (he : e ∈ alter k f m) : e.1 = k ∨ ∃ e' ∈ m, e'.1 = e.1 := by
  induction m with
  | nil =>
    rw [alter, List.mem_singleton] at he
    exact .inl (by rw [he])
  | cons e₀ rest ih =>
    rw [alter] at he
    split_ifs at he
    · rcases mem_cons.1 he with rfl | he
      · exact .inl rfl
      · exact .inr ⟨e, he, rfl⟩
    · rcases mem_cons.1 he with rfl | he
      · exact .inl rfl
      · exact .inr ⟨e, List.mem_cons_of_mem _ he, rfl⟩
    · rcases mem_cons.1 he with rfl | he
      · exact .inr ⟨e, List.mem_cons_self, rfl⟩
      · rcases ih he with hk | ⟨e', he', hk⟩
        · exact .inl hk
        · exact .inr ⟨e', List.mem_cons_of_mem _ he', hk⟩

theorem Sorted.alter (hs : Sorted m) : Sorted (alter k f m) := by
  induction m with
  | nil => exact List.pairwise_singleton _ _
  | cons e rest ih =>
    obtain ⟨hhead, hrest⟩ := pairwise_cons.1 hs
    rw [SortedMap.alter]
    split_ifs with h1 h2
    · refine pairwise_cons.2 ⟨fun e' he' => ?_, hs⟩
      rcases mem_cons.1 he' with rfl | he'
      · exact h1
      · exact h1.trans (hhead e' he')
    · exact pairwise_cons.2 ⟨fun e' he' => h2 ▸ hhead e' he', hrest⟩
    · refine pairwise_cons.2 ⟨fun e' he' => ?_, ih hrest⟩
      rcases key_mem_alter he' with hk | ⟨e'', he'', hk⟩
      · rw [hk]
        exact lt_of_le_of_ne (not_lt.1 h1) (Ne.symm h2)
      · exact hk ▸ hhead e'' he''

theorem Sorted.erase (hs : Sorted m) (k : κ) : Sorted (erase k m) :=
  hs.sublist List.filter_sublist

theorem Sorted.lookup_alter (hs : Sorted m) :
    (SortedMap.alter k f m).lookup k' = if k' = k then some (f (m.lookup k)) else m.lookup k' := by
  induction m with
  | nil => rw [SortedMap.alter, lookup_cons]; rfl
  | cons e rest ih =>
    obtain ⟨hhead, hrest⟩ := pairwise_cons.1 hs
    rw [SortedMap.alter]
    split_ifs with h1 h2 h3 h4 h5
    · -- all keys are greater than `k`
      have hnone : (e :: rest).lookup k = none := lookup_eq_none fun e' he' => by
        rcases mem_cons.1 he' with rfl | he'
        · exact h1.ne'
        · exact (h1.trans (hhead e' he')).ne'
      rw [lookup_cons, if_pos h2, hnone]
    · rw [lookup_cons, if_neg h2]
    · rw [lookup_cons, if_pos h4, lookup_cons, if_pos h3]
    · rw [lookup_cons, if_neg h4, lookup_cons, if_neg (h3 ▸ h4)]
    · rw [lookup_cons, ih hrest, if_pos h5, h5, if_neg h3, lookup_cons, if_neg h3]
    · rw [lookup_cons, ih hrest, lookup_cons, if_neg h5]

theorem lookup_erase : (erase k m).lookup k' = if k' = k then none else m.lookup k' := by
  induction m with
  | nil => simp [erase]
  | cons e rest ih =>
    unfold erase at ih ⊢
    by_cases he : e.1 = k
    · rw [List.filter_cons_of_neg (by simpa using he), ih, lookup_cons]
      split_ifs with h1 h2
      · rfl
      · exact absurd (h2.trans he) h1
      · rfl
    · rw [List.filter_cons_of_pos (by simpa using he), lookup_cons, ih, lookup_cons]
      split_ifs with h1 h2
      · exact absurd (h1.symm.trans h2) he
      all_goals rfl

theorem erase_of_forall_ne (h : ∀ e ∈ m, e.1 ≠ k) : erase k m = m :=
  List.filter_eq_self.2 fun e he => decide_eq_true (h e he)

theorem Sorted.weight_alter (hs : Sorted m) :
    weight w (SortedMap.alter k f m) + ((m.lookup k).map w).getD 0 =
      weight w m + w (f (m.lookup k)) := by
  induction m with
  | nil => simp [SortedMap.alter, weight]
  | cons e rest ih =>
    obtain ⟨hhead, hrest⟩ := pairwise_cons.1 hs
    rw [SortedMap.alter]
    split_ifs with h1 h2
    · have hnone : (e :: rest).lookup k = none := lookup_eq_none fun e' he' => by
        rcases mem_cons.1 he' with rfl | he'
        · exact h1.ne'
        · exact (h1.trans (hhead e' he')).ne'
      rw [hnone]
      simp only [weight, map_cons, List.sum_cons, Option.map_none, Option.getD_none]
      omega
    · rw [lookup_cons, if_pos h2]
      simp only [weight, map_cons, List.sum_cons, Option.map_some, Option.getD_some]
      omega
    · have := ih hrest
      rw [lookup_cons, if_neg h2]
      simp only [weight, map_cons, List.sum_cons] at this ⊢
      omega

theorem Sorted.weight_erase (hs : Sorted m) (k : κ) :
    weight w (SortedMap.erase k m) + ((m.lookup k).map w).getD 0 = weight w m := by
  induction m with
  | nil => rfl
  | cons e rest ih =>
    obtain ⟨hhead, hrest⟩ := pairwise_cons.1 hs
    by_cases he : k = e.1
    · have hne : ∀ e' ∈ rest, e'.1 ≠ k := fun e' he' => he ▸ (hhead e' he').ne'
      rw [SortedMap.erase, List.filter_cons_of_neg (by simpa using he.symm), lookup_cons,
        if_pos he, ← SortedMap.erase, erase_of_forall_ne hne]
      simp only [weight, map_cons, List.sum_cons, Option.map_some, Option.getD_some]
      omega
    · have := ih hrest
      rw [SortedMap.erase, List.filter_cons_of_pos (by simpa using Ne.symm he), lookup_cons,
        if_neg he, ← SortedMap.erase]
      simp only [weight, map_cons, List.sum_cons] at this ⊢
      omega

/-- What is left of a list in which those that satisfy `q` come first. -/
theorem eq_false_of_mem_dropWhile {α : Type*} {q : α → Bool} : ∀ {l : List α},
    l.Pairwise (fun a b => q b = true → q a = true) → ∀ a ∈ l.dropWhile q, q a = false
  | [], _, a, ha => absurd ha List.not_mem_nil
  | x :: l, hl, a, ha => by
    obtain ⟨hx, hl⟩ := pairwise_cons.1 hl
    by_cases hq : q x = true
    · rw [List.dropWhile_cons_of_pos hq] at ha
      exact eq_false_of_mem_dropWhile hl a ha
    · rw [List.dropWhile_cons_of_neg hq] at ha
      rcases mem_cons.1 ha with rfl | ha
      · exact Bool.eq_false_iff.2 hq
      · exact Bool.eq_false_iff.2 fun hqa => hq (hx a ha hqa)

end SortedMap
