import Mathlib

/-!
# Pseudo least recently used leaves of a binary tree

Every node has a bit, the side its victim is on; a node and a leaf are the path that leads to them
from the root, where `true` is to the right.  `touch` turns the bits on the path of a leaf away from
it.  A tree of depth `k` that always touches its victim goes through its leaves once in `2 ^ k`
steps (`count_victims`), since the root takes turns and each side sees every second step.  A touched
leaf is the victim again after as many touches of different other leaves as the tree is deep
(`length_le_card`): one on the far side of each node of its path.
-/

namespace PseudoLru

abbrev Bits := List Bool → Bool

/-- The bits of a subtree of the root. -/
def sub (s : Bits) (b : Bool) : Bits := fun q => s (b :: q)

def victim : ℕ → Bits → List Bool
  | 0, _ => []
  | k + 1, s => s [] :: victim k (sub s (s []))

def touch : List Bool → Bits → Bits
  | [], s => s
  | b :: p, s => fun
    | [] => !b
    | c :: q => if c = b then touch p (sub s b) q else s (c :: q)

def touches (ts : List (List Bool)) (s : Bits) : Bits := ts.foldl (fun s t => touch t s) s

/-- The victims of `n` steps, each of which touches its victim. -/
def victims (k : ℕ) : ℕ → Bits → List (List Bool)
  | 0, _ => []
  | n + 1, s => victim k s :: victims k n (touch (victim k s) s)

variable {s : Bits} {b c : Bool} {p q l : List Bool} {k n : ℕ} {ts : List (List Bool)}

@[simp] theorem length_victim : (victim k s).length = k := by
  induction k generalizing s with
  | zero => rfl
  | succ k ih => rw [victim, List.length_cons, ih]

@[simp] theorem length_victims : (victims k n s).length = n := by
  induction n generalizing s with
  | zero => rfl
  | succ n ih => rw [victims, List.length_cons, ih]

@[simp] theorem touch_root : touch (b :: p) s [] = !b := rfl

theorem touch_cons :
    touch (b :: p) s (c :: q) = if c = b then touch p (sub s b) q else s (c :: q) := rfl

@[simp] theorem sub_touch : sub (touch (b :: p) s) b = touch p (sub s b) := by
  funext q
  rw [sub, touch_cons, if_pos rfl]

theorem sub_touch_of_ne (h : c ≠ b) : sub (touch (b :: p) s) c = sub s c := by
  funext q
  rw [sub, touch_cons, if_neg h, sub]

theorem touch_append : touch (p ++ [b]) s = touch p (Function.update s p (!b)) := by
  induction p generalizing s with
  | nil =>
    funext q
    rcases q with _ | ⟨c, q⟩
    · simp [touch]
    · by_cases hc : c = b <;> simp [touch, sub, hc]
  | cons a p ih =>
    funext q
    rcases q with _ | ⟨c, q⟩
    · rfl
    · have hsub : sub (Function.update s (a :: p) (!b)) a = Function.update (sub s a) p (!b) := by
        funext q
        simp only [sub, Function.update_apply, List.cons.injEq, true_and]
      rw [List.cons_append, touch_cons, touch_cons]
      split_ifs with hc
      · rw [ih, hsub]
      · rw [Function.update_of_ne]
        simp [hc]

theorem count_two_steps : (victims (k + 1) (n + 2) s).count (c :: p)
    = [victim k (sub s c)].count p
      + (victims (k + 1) n (touch ((!s []) :: victim k (sub s !s []))
        (touch (s [] :: victim k (sub s (s []))) s))).count (c :: p) := by
  have hsecond : victim (k + 1) (touch (victim (k + 1) s) s)
      = (!s []) :: victim k (sub s !s []) := by
    rw [victim, victim, touch_root, sub_touch_of_ne (by simp)]
  rw [victims, victims, hsecond, victim, List.count_cons, List.count_cons, List.count_cons,
    List.count_nil]
  rcases s [] <;> rcases c <;> simp <;> omega

theorem count_victims_two_mul :
    (victims (k + 1) (2 * n) s).count (c :: p) = (victims k n (sub s c)).count p := by
  induction n generalizing s with
  | zero => rfl
  | succ n ih =>
    rw [Nat.mul_succ, count_two_steps, ih, victims, List.count_cons, List.count_cons,
      List.count_nil, Nat.zero_add, Nat.add_comm]
    congr 2
    -- the other side's step leaves this one alone
    by_cases hc : c = s []
    · rw [hc, sub_touch_of_ne (by simp), sub_touch]
    · obtain rfl : c = !s [] := Bool.eq_not_iff.2 hc
      rw [sub_touch, sub_touch_of_ne hc]

theorem count_victims (p : List Bool) (s : Bits) :
    (victims p.length (2 ^ p.length) s).count p = 1 := by
  induction p generalizing s with
  | nil => rfl
  | cons c p ih => rw [List.length_cons, Nat.pow_succ', count_victims_two_mul, ih]

/-- The rest of a path into a subtree. -/
def tailBelow (b : Bool) : List Bool → Option (List Bool)
  | [] => none
  | c :: t => if c = b then some t else none

/-- The leaves of a subtree among some leaves. -/
def below (b : Bool) (ts : List (List Bool)) : List (List Bool) := ts.filterMap (tailBelow b)

theorem mem_below {t : List Bool} : t ∈ below b ts ↔ b :: t ∈ ts := by
  rw [below, List.mem_filterMap]
  constructor
  · rintro ⟨_ | ⟨c, u⟩, hu, h⟩
    · cases h
    · rw [tailBelow] at h
      split_ifs at h with hc
      obtain rfl := Option.some.inj h
      exact hc ▸ hu
  · exact fun h => ⟨_, h, if_pos rfl⟩

theorem touches_cons {t : List Bool} : touches (t :: ts) s = touches ts (touch t s) := rfl

theorem touches_append {us : List (List Bool)} : touches (ts ++ us) s = touches us (touches ts s) :=
  List.foldl_append

theorem sub_touches (hne : ∀ t ∈ ts, t ≠ []) : sub (touches ts s) b
    = touches (below b ts) (sub s b) := by
  induction ts generalizing s with
  | nil => rfl
  | cons t ts ih =>
    rw [touches_cons, ih fun t ht => hne t (List.mem_cons_of_mem _ ht)]
    rcases t with _ | ⟨c, t⟩
    · exact absurd rfl (hne [] List.mem_cons_self)
    · rw [below, below]
      by_cases hc : c = b
      · have htail : tailBelow b (c :: t) = some t := if_pos hc
        rw [List.filterMap_cons_some htail, touches_cons, hc, sub_touch]
      · have htail : tailBelow b (c :: t) = none := if_neg hc
        rw [List.filterMap_cons_none htail, sub_touch_of_ne (Ne.symm hc)]

theorem exists_far (hroot : s [] = !b) (h : touches ts s [] = b) : ∃ t, (!b) :: t ∈ ts := by
  induction ts generalizing s with
  | nil => simp_all [touches]
  | cons t ts ih =>
    rw [touches_cons] at h
    have hgo : touch t s [] = !b → ∃ t', (!b) :: t' ∈ t :: ts := fun ht => by
      obtain ⟨t', ht'⟩ := ih ht h
      exact ⟨t', List.mem_cons_of_mem _ ht'⟩
    rcases t with _ | ⟨c, t⟩
    · exact hgo hroot
    · by_cases hc : c = b
      · exact hgo (by rw [touch_root, hc])
      · obtain rfl : c = !b := Bool.eq_not_iff.2 hc
        exact ⟨t, List.mem_cons_self⟩

theorem length_le_card (hlen : ∀ t ∈ ts, t.length = l.length) (hl : l ∉ ts)
    (hv : victim l.length (touches ts (touch l s)) = l) : l.length ≤ ts.toFinset.card := by
  induction l generalizing s ts with
  | nil => exact Nat.zero_le _
  | cons b p ih =>
    have hne : ∀ t ∈ ts, t ≠ [] := by
      rintro t ht rfl
      exact absurd (hlen _ ht) (by simp)
    rw [List.length_cons, victim] at hv
    obtain ⟨hroot, hbelow⟩ := List.cons.inj hv
    rw [hroot, sub_touches hne, sub_touch] at hbelow
    have hcard := ih (fun t ht => Nat.succ.inj (hlen _ (mem_below.1 ht)))
      (fun h => hl (mem_below.1 h)) hbelow
    obtain ⟨t, ht⟩ := exists_far touch_root hroot
    have hsub : insert ((!b) :: t) ((below b ts).toFinset.map ⟨List.cons b, List.cons_injective⟩)
        ⊆ ts.toFinset := by
      intro x hx
      rw [Finset.mem_insert, Finset.mem_map] at hx
      rw [List.mem_toFinset]
      rcases hx with rfl | ⟨u, hu, rfl⟩
      · exact ht
      · exact mem_below.1 (List.mem_toFinset.1 hu)
    have hfar : (!b) :: t ∉ (below b ts).toFinset.map ⟨List.cons b, List.cons_injective⟩ := by
      simp
    calc p.length + 1 ≤ (below b ts).toFinset.card + 1 := Nat.succ_le_succ hcard
      _ = _ := by rw [Finset.card_insert_of_notMem hfar, Finset.card_map]
      _ ≤ ts.toFinset.card := Finset.card_le_card hsub

end PseudoLru
