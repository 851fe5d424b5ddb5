import Gem5Nvm.Lib.Loop

/-!
# Walks along a pointer field

`Path next p l q` says that from `p` the field `next` leads through the objects `l`, in this order,
to `q`.  A walk to the end of a list is one to `none`.  A field changed off a path leaves it alone
(`path_congr`), and one changed at its last object leads it elsewhere (`path_relink`).  A loop that
follows the field ends at the first object that fails its test (`whileLoop_walk`).
-/

namespace Chain

variable {α : Type*} {next next' : α → Option α} {p q r : Option α} {a : α} {l l' : List α}

def Path (next : α → Option α) : Option α → List α → Option α → Prop
  | p, [], q => p = q
  | p, a :: l, q => p = some a ∧ Path next (next a) l q

@[simp] theorem path_nil : Path next p [] q ↔ p = q := Iff.rfl

@[simp] theorem path_cons : Path next p (a :: l) q ↔ p = some a ∧ Path next (next a) l q := Iff.rfl

theorem path_append : Path next p (l ++ l') q ↔ ∃ m, Path next p l m ∧ Path next m l' q := by
  induction l generalizing p with
  | nil => simp
  | cons a l ih => simp [ih, and_assoc]

theorem path_congr (h : ∀ a ∈ l, next a = next' a) : Path next p l q ↔ Path next' p l q := by
  induction l generalizing p with
  | nil => rfl
  | cons a l ih =>
    rw [path_cons, path_cons, h a List.mem_cons_self,
      ih fun b hb => h b (List.mem_cons_of_mem a hb)]

theorem path_update [DecidableEq α] (h : a ∉ l) :
    Path (Function.update next a r) p l q ↔ Path next p l q :=
  path_congr fun b hb => Function.update_of_ne (show b ≠ a from fun hab => h (hab ▸ hb)) ..

theorem path_relink [DecidableEq α] (hp : Path next p (l ++ [a]) q) (ha : a ∉ l) :
    Path (Function.update next a r) p (l ++ [a]) r := by
  obtain ⟨m, hl, hm, -⟩ := path_append.1 hp
  exact path_append.2 ⟨m, (path_update ha).2 hl, hm, by simp⟩

theorem path_head (h : Path next p l none) : p = l.head? := by
  cases l with
  | nil => exact h
  | cons a l => exact h.1

theorem whileLoop_walk {ε : Type*} {stuck : ε} {cond : α × Option α → Bool}
    {body : α × Option α → Except ε (α × Option α)} {c : α → Bool}
    (hcond : ∀ x a, cond (x, some a) = c a) (hbody : ∀ x a, body (x, some a) = .ok (a, next a)) :
    ∀ (l : List α) {l' : List α} {fuel : ℕ} {x : α} {p : Option α}, l.length < fuel →
      Path next p (l ++ l') none → (∀ a ∈ l, c a = true) → (∀ y, cond (y, l'.head?) = false) →
      Loop.whileLoop stuck cond body fuel (x, p) = .ok (l.getLastD x, l'.head?)
  | [], l', fuel, x, p, hf, hp, _, hstop => by
    rw [path_head hp]
    exact Loop.whileLoop_stop hf (hstop x)
  | a :: l, l', fuel, x, p, hf, hp, hl, hstop => by
    obtain ⟨n, rfl⟩ : ∃ n, fuel = n + 1 := ⟨fuel - 1, by omega⟩
    obtain ⟨rfl, hp⟩ := hp
    rw [Loop.whileLoop_step ((hcond x a).trans (hl a List.mem_cons_self)) (hbody x a),
      whileLoop_walk hcond hbody l (by simpa using hf) hp
        (fun b hb => hl b (List.mem_cons_of_mem a hb)) hstop, List.getLastD_cons]

end Chain
