import Mathlib

/-!
# Lists in a ring of cells

`Window store cap p xs` says that the elements of `xs` are in the cells of a ring of `cap` cells from
position `p` on, where positions count on without end and position `k` is in the cell `k % cap`.  A
list that is written behind the window (`fill`) pushes the oldest elements out of it: what is left is
the last `cap` elements (`Window.fill`).
-/

namespace Ring

variable {T : Type*} {store : ℕ → T} {cap p i j k : ℕ} {xs data : List T}

theorem cell_inj (hi : i < cap) (hj : j < cap) (h : (p + i) % cap = (p + j) % cap) : i = j :=
  (Nat.ModEq.add_left_cancel' p h).eq_of_lt_of_lt hi hj

theorem cell_ne (hij : i < j) (hj : j < i + cap) : i % cap ≠ j % cap := by
  intro h
  obtain ⟨d, rfl⟩ := Nat.exists_eq_add_of_lt hij
  have := cell_inj (p := i) (i := 0) (j := d + 1) (by omega) (by omega) h
  omega

theorem step_cases (p : ℕ) {d : ℕ} (hd : d < cap) :
    (p + d) % cap = p % cap + d ∧ (p + d) / cap = p / cap ∨
      (p + d) % cap + cap = p % cap + d ∧ (p + d) / cap = p / cap + 1 := by
  have hmod := Nat.mod_lt p (Nat.zero_lt_of_lt hd)
  have heq : p + d = p % cap + d + cap * (p / cap) := by
    have := Nat.mod_add_div p cap
    omega
  rw [heq, Nat.add_mul_mod_self_left, Nat.add_mul_div_left _ _ (Nat.zero_lt_of_lt hd)]
  rcases Nat.lt_or_ge (p % cap + d) cap with h | h
  · left
    rw [Nat.mod_eq_of_lt h, Nat.div_eq_of_lt h, Nat.zero_add]
    exact ⟨rfl, rfl⟩
  · right
    have hlt : p % cap + d - cap < cap := by omega
    rw [Nat.mod_eq_sub_mod h, Nat.mod_eq_of_lt hlt,
      Nat.div_eq_sub_div (Nat.zero_lt_of_lt hd) h, Nat.div_eq_of_lt hlt]
    omega

theorem round_cases (p : ℕ) {d : ℕ} (hcap : 0 < cap) (hd : d ≤ cap) :
    (p + d) % cap = p % cap + d ∧ (p + d) / cap = p / cap ∨
      (p + d) % cap + cap = p % cap + d ∧ (p + d) / cap = p / cap + 1 := by
  rcases Nat.lt_or_eq_of_le hd with hlt | rfl
  · exact step_cases p hlt
  · exact .inr ⟨by rw [Nat.add_mod_right], Nat.add_div_right p hcap⟩

def Window (store : ℕ → T) (cap p : ℕ) (xs : List T) : Prop :=
  ∀ i < xs.length, xs[i]? = some (store ((p + i) % cap))

theorem window_nil (store : ℕ → T) (cap p : ℕ) : Window store cap p [] := by
  intro i hi
  simp at hi

theorem Window.drop (h : Window store cap p xs) (n : ℕ) : Window store cap (p + n) (xs.drop n) := by
  intro i hi
  rw [List.getElem?_drop, h (n + i) (by simp at hi; omega), Nat.add_assoc]

theorem Window.take (h : Window store cap p xs) (n : ℕ) : Window store cap p (xs.take n) := by
  intro i hi
  obtain ⟨hn, hx⟩ : i < n ∧ i < xs.length := by simpa using hi
  rw [List.getElem?_take_of_lt hn, h i hx]

/-- The cells after `data` is written from position `k` on. -/
def fill (store : ℕ → T) (cap k : ℕ) : List T → ℕ → T
  | [] => store
  | x :: data => fill (Function.update store (k % cap) x) cap (k + 1) data

theorem fill_of_ne {c : ℕ} (h : ∀ i < data.length, c ≠ (k + i) % cap) :
    fill store cap k data c = store c := by
  induction data generalizing store k with
  | nil => rfl
  | cons x data ih =>
    have hrest : ∀ i < data.length, c ≠ (k + 1 + i) % cap := by
      intro i hi
      rw [Nat.add_assoc, Nat.add_comm 1]
      exact h (i + 1) (by simpa using hi)
    have hfirst : c ≠ k % cap := h 0 (by simp)
    rw [fill, ih hrest, Function.update_of_ne hfirst]

theorem fill_cell (hdata : data.length ≤ cap) (hi : i < data.length) :
    data[i]? = some (fill store cap k data ((k + i) % cap)) := by
  induction data generalizing store k i with
  | nil => simp at hi
  | cons x data ih =>
    simp only [List.length_cons] at hdata hi
    cases i with
    | zero =>
      have hother : ∀ i < data.length, k % cap ≠ (k + 1 + i) % cap := fun i hi =>
        cell_ne (by omega) (by omega)
      simp [fill, fill_of_ne hother]
    | succ i =>
      rw [fill, List.getElem?_cons_succ, ih (k := k + 1) (by omega) (by omega), Nat.add_assoc,
        Nat.add_comm 1]

theorem Window.fill (h : Window store cap p xs) (hdata : data.length ≤ cap) :
    Window (Ring.fill store cap (p + xs.length) data) cap (p + (xs.length + data.length - cap))
      ((xs ++ data).rtake cap) := by
  intro i hi
  simp only [List.rtake, List.length_drop, List.length_append] at hi ⊢
  rw [List.getElem?_drop]
  obtain ⟨o, ho⟩ : ∃ o, o = xs.length + data.length - cap := ⟨_, rfl⟩
  rw [← ho] at hi ⊢
  rw [Nat.add_assoc]
  by_cases hx : o + i < xs.length
  · -- an element of `xs` that is not written over
    have hother : ∀ j < data.length, (p + (o + i)) % cap ≠ (p + xs.length + j) % cap :=
      fun j hj => cell_ne (by omega) (by omega)
    rw [List.getElem?_append_left hx, fill_of_ne hother, h _ hx]
  · obtain ⟨j, hj⟩ := Nat.exists_eq_add_of_le (Nat.le_of_not_lt hx)
    have hcell : data[j]? =
        some (Ring.fill store cap (p + xs.length) data ((p + xs.length + j) % cap)) :=
      fill_cell hdata (by omega)
    rw [hj, List.getElem?_append_right (by omega), Nat.add_sub_cancel_left, hcell, Nat.add_assoc]

theorem length_rtake (n : ℕ) (xs : List T) : (xs.rtake n).length = min xs.length n := by
  simp only [List.rtake, List.length_drop]
  omega

theorem rtake_append_rtake (n : ℕ) (xs ys : List T) :
    (xs ++ ys.rtake n).rtake n = (xs ++ ys).rtake n := by
  simp only [List.rtake, List.length_append, List.length_drop, List.drop_append]
  rw [List.drop_drop]
  rcases Nat.lt_or_ge ys.length n with h | h
  · rw [show ys.length - n = 0 by omega]
    simp
  · rw [List.drop_eq_nil_of_le (show xs.length ≤ xs.length + (ys.length - (ys.length - n)) - n by omega),
      List.drop_eq_nil_of_le (show xs.length ≤ xs.length + ys.length - n by omega)]
    congr 2
    omega

theorem rtake_rtake_append (n : ℕ) (xs ys : List T) :
    (xs.rtake n ++ ys).rtake n = (xs ++ ys).rtake n := by
  rw [List.rtake, List.rtake, List.rtake, List.length_append, List.length_append,
    ← List.drop_append_of_le_length (by omega), List.drop_drop, List.length_drop]
  congr 1
  omega

end Ring
