import Gem5Nvm.Proofs.TrieWalk

/-!
# Removing from a trie

A node with at most one kid is spliced out: its kid, if any, takes its place. Its parent may then be
a node without a value and with one kid, which is spliced out as well.
-/

namespace Gem5Nvm.Trie

open Function (update update_comm update_eq_self update_of_ne update_self)
open Sim (ok_bind pure_eq)

variable {w : ℕ} {V : Type} {t : Trie w V} {pre : ℕ → Pre w} {n c k p : ℕ} {N C K P P' : Node w V}
  {kid : Option ℕ} {X : ℕ → Prop} {fuel : ℕ}

/-- The parent after `n` was replaced with `kid` among its kids. -/
structure Unlinked (pre : ℕ → Pre w) (p n : ℕ) (kid : Option ℕ) (P P' : Node w V) : Prop where
  key : P'.key = P.key
  mask : P'.mask = P.mask
  value : P'.value = P.value
  parent : P'.parent = P.parent
  isKid : ∀ x, P'.IsKid x ↔ P.IsKid x ∧ x ≠ n ∨ kid = some x
  apart : ∀ c, P'.kid1 = some c →
    ∃ c₀, P'.kid0 = some c₀ ∧ (pre c₀).next (pre p).len ≠ (pre c).next (pre p).len
  inner : P.kid1 ≠ none → kid ≠ none → P'.kid1 ≠ none
  /-- One of two kids is left. -/
  left : P.kid1 ≠ none → kid = none → P'.kid0 ≠ none ∧ P'.kid1 = none

theorem Shape.next_kid0 (h : Shape pre t) (hp : t.heap p = some P) (hkid : P.IsKid n)
    (hn : t.heap n = some N) (h0 : N.kid0 = some k) :
    (pre n).next (pre p).len = (pre k).next (pre p).len :=
  (h.down n N k hn (.inl h0)).2.next_eq (h.down p P n hp hkid).2.1

section

variable (h : Shape pre t) (hp : t.heap p = some P) (hn : t.heap n = some N)
include h hp hn

theorem Shape.unlink_first (h0 : P.kid0 = some n) :
    ∃ P', unlink P n N.kid0 = .ok P' ∧ Unlinked pre p n N.kid0 P P' := by
  rcases hk : N.kid0 with _ | k
  · rcases h1 : P.kid1 with _ | c
    · refine ⟨{ P with kid0 := none }, by simp [unlink, h0, h1, pure_eq], rfl, rfl, rfl, rfl,
        fun x => ?_, fun c hc => ?_, fun hP => absurd h1 hP, fun hP => absurd h1 hP⟩
      · simp only [Node.IsKid, h0, h1, Option.some.injEq]
        grind
      · rw [h1] at hc
        cases hc
    · refine ⟨{ P with kid0 := some c, kid1 := none }, by simp [unlink, h0, h1, pure_eq], rfl,
        rfl, rfl, rfl, fun x => ?_, fun c hc => ?_, fun _ hk => absurd rfl hk,
        fun _ _ => ⟨Option.some_ne_none _, rfl⟩⟩
      · have hne := h.kid_ne hp h0 h1
        simp only [Node.IsKid, h0, h1, Option.some.injEq]
        grind
      · cases hc
  · refine ⟨{ P with kid0 := some k }, by simp [unlink, h0, pure_eq], rfl, rfl, rfl, rfl,
      fun x => ?_, fun c hc => ⟨k, rfl, ?_⟩, fun hP _ => hP, fun _ hk => by cases hk⟩
    · have hne : ∀ c, P.kid1 = some c → n ≠ c := fun c => h.kid_ne hp h0
      simp only [Node.IsKid, h0, Option.some.injEq]
      grind
    · obtain ⟨c₀, hc₀, hbits⟩ := h.apart p P c hp hc
      obtain rfl : n = c₀ := Option.some.inj (h0.symm.trans hc₀)
      rwa [← h.next_kid0 hp (.inl h0) hn hk]

theorem Shape.unlink_second (h1 : P.kid1 = some n) :
    ∃ P', unlink P n N.kid0 = .ok P' ∧ Unlinked pre p n N.kid0 P P' := by
  obtain ⟨c₀, h0, hbits⟩ := h.apart p P n hp h1
  have hne := h.kid_ne hp h0 h1
  refine ⟨{ P with kid1 := N.kid0 }, by simp [unlink, h0, h1, hne, pure_eq], rfl, rfl, rfl, rfl,
    fun x => ?_, fun c hc => ⟨c₀, h0, ?_⟩, fun _ hk => hk, fun _ hk => ⟨?_, hk⟩⟩
  · simp only [Node.IsKid, h0, h1, Option.some.injEq]
    grind
  · rwa [← h.next_kid0 hp (.inr h1) hn hc]
  · rw [h0]
    exact Option.some_ne_none _

theorem Shape.unlink (hkid : P.IsKid n) :
    ∃ P', unlink P n N.kid0 = .ok P' ∧ Unlinked pre p n N.kid0 P P' := by
  rcases hkid with h0 | h1
  · exact h.unlink_first hp hn h0
  · exact h.unlink_second hp hn h1

end

/-- The trie in which the kid, if any, has another parent. -/
def relinked (t : Trie w V) (kid : Option ℕ) (p : ℕ) : Trie w V :=
  match kid with
  | none => t
  | some k =>
    match t.heap k with
    | none => t
    | some K => t.write k { K with parent := some p }

/-- The trie without the node `n`, whose kid is one of its parent. -/
def spliced (t : Trie w V) (n : ℕ) (kid : Option ℕ) (p : ℕ) (P' : Node w V) : Trie w V :=
  ((t.relinked kid p).write p P').delete n

section Relinked

theorem relinked_none : t.relinked none p = t := rfl

theorem relinked_some (hk : t.heap k = some K) :
    t.relinked (some k) p = t.write k { K with parent := some p } := by
  rw [relinked, hk]

theorem relinked_next : (t.relinked kid p).next = t.next := by
  rcases kid with _ | k
  · rfl
  · rw [relinked]
    split <;> rfl

theorem relinked_of_ne {x : ℕ} (hx : kid ≠ some x) : (t.relinked kid p).heap x = t.heap x := by
  rcases kid with _ | k
  · rfl
  · rw [relinked]
    split
    · rfl
    · exact update_of_ne (by rintro rfl; exact hx rfl) ..

theorem relinked_delete (hn : kid ≠ some n) :
    (t.delete n).relinked kid p = (t.relinked kid p).delete n := by
  rcases kid with _ | k
  · rfl
  · have hkn : k ≠ n := by
      rintro rfl
      exact hn rfl
    have hk : (t.delete n).heap k = t.heap k := update_of_ne hkn ..
    rw [relinked, relinked, hk]
    rcases t.heap k with _ | K
    · rfl
    · simp only [write, delete, update_comm hkn]

theorem spliced_delete {m : ℕ} (hm : kid ≠ some m) (hmp : m ≠ p) (hmn : m ≠ n) :
    (t.delete m).spliced n kid p P' = (t.spliced n kid p P').delete m := by
  rw [spliced, relinked_delete hm, spliced]
  simp only [write, delete, update_comm hmp.symm, update_comm hmn.symm]

theorem values_relinked : (t.relinked kid p).values = t.values := by
  rcases kid with _ | k
  · rfl
  · rcases hk : t.heap k with _ | K
    · rw [relinked, hk]
    · have hval : t.values k = K.value := values_of_heap hk
      rw [relinked_some hk]
      exact values_write_eq hval

theorem values_spliced (hP : t.values p = P'.value) :
    (t.spliced n kid p P').values = update t.values n none := by
  rw [spliced, values_delete, values_write_eq, values_relinked]
  rw [values_relinked, hP]

end Relinked

section Splice

variable (h : Shape pre t) (hn : t.heap n = some N) (h1 : N.kid1 = none) (hp : t.heap p = some P)
  (hkid : P.IsKid n) (hU : Unlinked pre p n N.kid0 P P')

variable {x : ℕ} {Y : Node w V}

theorem spliced_cases (hx : (t.spliced n kid p P').heap x = some Y) :
    x ≠ n ∧ (x = p ∧ Y = P' ∨
      x ≠ p ∧ kid = some x ∧ (∃ K, t.heap x = some K ∧ Y = { K with parent := some p }) ∨
      x ≠ p ∧ kid ≠ some x ∧ t.heap x = some Y) := by
  have hxn : x ≠ n := by
    rintro rfl
    exact Option.some_ne_none _ (hx.symm.trans (update_self ..))
  refine ⟨hxn, ?_⟩
  have hx : ((t.relinked kid p).write p P').heap x = some Y :=
    (update_of_ne hxn ..).symm.trans hx
  rcases update_eq_some hx with hx | ⟨hxp, hx⟩
  · exact .inl hx
  rcases eq_or_ne kid (some x) with rfl | hkx
  · rcases hK : t.heap x with _ | K
    · rw [relinked, hK] at hx
      exact absurd (hK.symm.trans hx) (Option.some_ne_none _).symm
    · rw [relinked_some hK] at hx
      rcases update_eq_some hx with ⟨-, hx⟩ | ⟨hne, -⟩
      · exact .inr (.inl ⟨hxp, rfl, K, rfl, hx⟩)
      · exact absurd rfl hne
  · rw [relinked_of_ne hkx] at hx
    exact .inr (.inr ⟨hxp, hkx, hx⟩)

theorem spliced_parent_self (hpn : p ≠ n) : (t.spliced n kid p P').heap p = some P' :=
  (update_of_ne hpn ..).trans (update_self ..)

theorem spliced_kid (hkn : k ≠ n) (hkp : k ≠ p) (hk : t.heap k = some K) :
    (t.spliced n (some k) p P').heap k = some { K with parent := some p } := by
  rw [spliced, relinked_some hk]
  exact (update_of_ne hkn ..).trans ((update_of_ne hkp ..).trans
    (update_self ..))

theorem spliced_of_ne (hxn : x ≠ n) (hxp : x ≠ p) (hxk : kid ≠ some x) :
    (t.spliced n kid p P').heap x = t.heap x :=
  (update_of_ne hxn ..).trans ((update_of_ne hxp ..).trans (relinked_of_ne hxk))

include h hn

theorem Shape.not_isKid_parent (hp : t.heap p = some P) (hkid : P.IsKid n) : ¬ N.IsKid p :=
  fun hpn => absurd ((h.down p P n hp hkid).2.1.trans (h.down n N p hn hpn).2.1) (lt_irrefl _)

omit h hn in
include hp hU in
theorem spliced_parent (hx : t.heap x = some Y) (hxn : x ≠ n) (hxk : N.kid0 ≠ some x) :
    ∃ Y', (t.spliced n N.kid0 p P').heap x = some Y' ∧ Y'.parent = Y.parent := by
  rcases eq_or_ne x p with rfl | hxp
  · obtain rfl := Option.some.inj (hp.symm.trans hx)
    exact ⟨P', spliced_parent_self hxn, hU.parent⟩
  · exact ⟨Y, (spliced_of_ne hxn hxp hxk).trans hx, rfl⟩

omit h hn in
include hp hU in
theorem spliced_isKid {y : ℕ} (hx : t.heap x = some Y) (hxn : x ≠ n) (hy : Y.IsKid y)
    (hyn : y ≠ n) :
    ∃ Y', (t.spliced n N.kid0 p P').heap x = some Y' ∧ Y'.IsKid y := by
  rcases eq_or_ne x p with rfl | hxp
  · obtain rfl := Option.some.inj (hp.symm.trans hx)
    exact ⟨P', spliced_parent_self hxn, (hU.isKid y).2 (.inl ⟨hy, hyn⟩)⟩
  rcases eq_or_ne N.kid0 (some x) with hxk | hxk
  · rw [hxk]
    exact ⟨_, spliced_kid hxn hxp hx, hy⟩
  · exact ⟨Y, (spliced_of_ne hxn hxp hxk).trans hx, hy⟩

include hp hkid hU

include h1 in
theorem spliced_up (hx : (t.spliced n N.kid0 p P').heap x = some Y) (hx0 : x ≠ 0) :
    ∃ q Q, Y.parent = some q ∧ (t.spliced n N.kid0 p P').heap q = some Q ∧ Q.IsKid x := by
  have hpn := (h.ne_of_isKid hp hkid).symm
  have hold : ∀ {Y₀}, t.heap x = some Y₀ → x ≠ n → N.kid0 ≠ some x → Y.parent = Y₀.parent →
      ∃ q Q, Y.parent = some q ∧ (t.spliced n N.kid0 p P').heap q = some Q ∧ Q.IsKid x := by
    intro Y₀ hY₀ hxn hxk hpar
    obtain ⟨q, Q, hq, hQ, hQx⟩ := h.up x Y₀ hY₀ hx0
    have hqn : q ≠ n := by
      rintro rfl
      obtain rfl := Option.some.inj (hn.symm.trans hQ)
      rcases hQx with hQx | hQx
      · exact hxk hQx
      · rw [h1] at hQx
        cases hQx
    obtain ⟨Q', hQ', hQx'⟩ := spliced_isKid hp hU hQ hqn hQx hxn
    exact ⟨q, Q', hpar.trans hq, hQ', hQx'⟩
  obtain ⟨hxn, ⟨rfl, rfl⟩ | ⟨-, hxk, K, -, rfl⟩ | ⟨-, hxk, hx⟩⟩ := spliced_cases hx
  · exact hold hp hxn (fun h0 => h.not_isKid_parent hn hp hkid (.inl h0)) hU.parent
  · exact ⟨p, P', rfl, spliced_parent_self hpn, (hU.isKid x).2 (.inr hxk)⟩
  · exact hold hx hxn hxk rfl

theorem spliced_down (hx : (t.spliced n N.kid0 p P').heap x = some Y) (hc : Y.IsKid c) :
    (∃ C, (t.spliced n N.kid0 p P').heap c = some C ∧ C.parent = some x) ∧
      (pre x).Below (pre c) := by
  have hold : ∀ {Y₀}, t.heap x = some Y₀ → x ≠ n → Y₀.IsKid c → c ≠ n →
      (∃ C, (t.spliced n N.kid0 p P').heap c = some C ∧ C.parent = some x) ∧
        (pre x).Below (pre c) := by
    intro Y₀ hY₀ hxn hc hcn
    obtain ⟨⟨C, hC, hpar⟩, hbelow⟩ := h.down x Y₀ c hY₀ hc
    have hck : N.kid0 ≠ some c := by
      intro h0
      rw [h.parent_of_isKid hC hn (.inl h0), Option.some.injEq] at hpar
      exact hxn hpar.symm
    obtain ⟨C', hC', hpar'⟩ := spliced_parent hp hU hC hcn hck
    exact ⟨⟨C', hC', hpar'.trans hpar⟩, hbelow⟩
  -- a node is a kid of its parent alone
  have hother : ∀ {Y₀}, t.heap x = some Y₀ → x ≠ p → Y₀.IsKid c → c ≠ n := by
    rintro Y₀ hY₀ hxp hc rfl
    have hpar := h.parent_of_isKid hn hp hkid
    rw [h.parent_of_isKid hn hY₀ hc, Option.some.injEq] at hpar
    exact hxp hpar
  obtain ⟨hxn, ⟨rfl, rfl⟩ | ⟨hxp, hxk, K, hK, rfl⟩ | ⟨hxp, hxk, hx⟩⟩ := spliced_cases hx
  · rcases (hU.isKid c).1 hc with ⟨hc, hcn⟩ | h0
    · exact hold hp hxn hc hcn
    · obtain ⟨⟨C, hC, -⟩, hbelow⟩ := h.down n N c hn (.inl h0)
      have hcp : c ≠ x := by
        rintro rfl
        exact h.not_isKid_parent hn hp hkid (.inl h0)
      rw [h0]
      exact ⟨⟨_, spliced_kid (h.ne_of_isKid hn (.inl h0)) hcp hC, rfl⟩,
        (h.down x P n hp hkid).2.trans hbelow⟩
  · exact @hold K hK hxn hc (@hother K hK hxp hc)
  · exact hold hx hxn hc (hother hx hxp hc)

include h1 in
/-- A node with at most one kid may be taken out. -/
theorem Shape.splice : Shape pre (t.spliced n N.kid0 p P') := by
  have hn0 := h.ne_zero_of_isKid hp hkid
  refine ⟨?_, h.head_len, fun x hx => ?_, fun x Y hx => ?_,
    fun x Y => spliced_up h hn h1 hp hkid hU, fun x Y c => spliced_down h hn hp hkid hU,
    fun x Y c hx hc => ?_⟩
  · obtain ⟨H, hH, hpar, hval⟩ := h.head
    rcases eq_or_ne 0 p with rfl | hp0
    · obtain rfl := Option.some.inj (hp.symm.trans hH)
      exact ⟨P', spliced_parent_self hn0.symm, hU.parent.trans hpar, hU.value.trans hval⟩
    · have h0 : N.kid0 ≠ some 0 := fun h0 => h.ne_zero_of_isKid hn (.inl h0) rfl
      exact ⟨H, (spliced_of_ne hn0.symm hp0 h0).trans hH, hpar, hval⟩
  · have hx : t.next ≤ x := relinked_next.symm.le.trans hx
    have hxk : N.kid0 ≠ some x := by
      intro h0
      obtain ⟨⟨C, hC, -⟩, -⟩ := h.down n N x hn (.inl h0)
      exact absurd (h.lt_next hC) (by omega)
    exact (spliced_of_ne ((h.lt_next hn).trans_le hx).ne' ((h.lt_next hp).trans_le hx).ne'
      hxk).trans (h.fresh x hx)
  · obtain ⟨-, ⟨rfl, rfl⟩ | ⟨-, -, K, hK, rfl⟩ | ⟨-, -, hx⟩⟩ := spliced_cases hx
    · rw [hU.mask, hU.key]
      exact h.holds x P hp
    · exact h.holds x K hK
    · exact h.holds x Y hx
  · obtain ⟨-, ⟨rfl, rfl⟩ | ⟨-, -, K, hK, rfl⟩ | ⟨-, -, hx⟩⟩ := spliced_cases hx
    · exact hU.apart c hc
    · exact h.apart x K c hK hc
    · exact h.apart x Y c hx hc

end Splice

section Inner

theorem Inner.mono {Y : ℕ → Prop} (h : Inner X t) (hXY : ∀ x, X x → Y x) : Inner Y t :=
  fun x N hx hx0 hY => h x N hx hx0 (mt (hXY x) hY)

theorem Inner.splice (h : Inner (fun x => X x ∨ x = n) t)
    (hP : p ≠ 0 → ¬ X p → P'.value = none → P'.kid1 ≠ none) : Inner X (t.spliced n kid p P') := by
  intro x Y hx hx0 hX hval
  obtain ⟨hxn, ⟨rfl, rfl⟩ | ⟨-, -, K, hK, rfl⟩ | ⟨-, -, hx⟩⟩ := spliced_cases hx
  · exact hP hx0 hX hval
  · exact h x K hK hx0 (not_or.2 ⟨hX, hxn⟩) hval
  · exact h x Y hx hx0 (not_or.2 ⟨hX, hxn⟩) hval

end Inner

section Remove

theorem heap_of_delete {m : ℕ} (h : (t.delete m).heap n = some N) : n ≠ m ∧ t.heap n = some N := by
  rcases eq_or_ne n m with rfl | hne
  · exact absurd ((update_self ..).symm.trans h) (Option.some_ne_none _).symm
  · exact ⟨hne, (update_of_ne hne ..).symm.trans h⟩

section

variable (hn : t.heap n = some N) (h1 : N.kid1 = none) (hpar : N.parent = some p)
  (hk : ∀ k, N.kid0 = some k → ∃ K, t.heap k = some K) (hp : (t.relinked N.kid0 p).heap p = some P)
  (hu : unlink P n N.kid0 = .ok P')
include hn h1 hpar hk hp hu

theorem removeNode_succ :
    removeNode (fuel + 1) t n = (do
      let t ← (if P'.kid1.isNone && P'.value.isNone && P'.parent.isSome then do
          let (_, t) ← removeNode fuel ((t.relinked N.kid0 p).write p P') p
          pure t
        else pure ((t.relinked N.kid0 p).write p P'))
      pure (N.value, t.delete n)) := by
  rw [removeNode, read_of_heap hn, ok_bind, h1]
  simp only [Option.isSome_none, Bool.false_eq_true, if_false, hpar]
  rcases h0 : N.kid0 with _ | k
  · rw [h0, relinked_none] at hp
    rw [h0] at hu
    dsimp only
    rw [pure_eq, ok_bind, read_of_heap hp, ok_bind, hu, ok_bind, relinked_none]
  · obtain ⟨K, hK⟩ := hk k h0
    rw [h0, relinked_some hK] at hp
    rw [h0] at hu
    dsimp only
    rw [read_of_heap hK, ok_bind, pure_eq, ok_bind, read_of_heap hp, ok_bind, hu,
      ok_bind, relinked_some hK]

theorem removeNode_once (hstop : ¬ (P'.kid1 = none ∧ P'.value = none ∧ P'.parent ≠ none)) :
    removeNode (fuel + 1) t n = .ok (N.value, t.spliced n N.kid0 p P') := by
  rw [removeNode_succ hn h1 hpar hk hp hu, if_neg, pure_eq, ok_bind]
  · rfl
  · simpa [Option.isSome_iff_ne_none, and_assoc] using hstop

end

variable (h : Shape pre t) (hin : Inner (fun _ => False) t) (hn : t.heap n = some N)
  (h1 : N.kid1 = none) (hpar : N.parent = some p) (hp : t.heap p = some P) (hkid : P.IsKid n)
  (hu : Trie.unlink P n N.kid0 = .ok P') (hU : Unlinked pre p n N.kid0 P P')

include h hn

theorem Shape.relinked_parent (hp : t.heap p = some P) (hkid : P.IsKid n) :
    (t.relinked N.kid0 p).heap p = some P :=
  (relinked_of_ne fun h0 => h.not_isKid_parent hn hp hkid (.inl h0)).trans hp

theorem Shape.parent_ne_none (hn0 : n ≠ 0) : N.parent ≠ none := by
  obtain ⟨p, P, hpar, -⟩ := h.up n N hn hn0
  rw [hpar]
  exact Option.some_ne_none _

theorem Shape.ne_zero_of_parent (hpar : N.parent ≠ none) : n ≠ 0 := by
  rintro rfl
  obtain ⟨H, hH, hnone, -⟩ := h.head
  obtain rfl := Option.some.inj (hn.symm.trans hH)
  exact hpar hnone

include hin h1 hpar hp hkid hu hU

/-- The parent is kept, so `remove` does not call itself. -/
theorem removeNode_stays (hstop : ¬ (P'.kid1 = none ∧ P'.value = none ∧ P'.parent ≠ none)) :
    ∃ t', removeNode (fuel + 1) t n = .ok (N.value, t') ∧ Shape pre t' ∧
      Inner (fun _ => False) t' ∧ t'.values = update t.values n none := by
  refine ⟨_, removeNode_once hn h1 hpar (fun k hk => h.kid_heap hn (.inl hk))
      (h.relinked_parent hn hp hkid) hu hstop,
    h.splice hn h1 hp hkid hU, (hin.mono fun _ => False.elim).splice fun hp0 _ hval => ?_,
    values_spliced ((values_of_heap hp).trans hU.value.symm)⟩
  intro hkid1
  exact hstop ⟨hkid1, hval, hU.parent ▸ h.parent_ne_none hp hp0⟩

/-- The parent goes as well, and the next node up keeps as many kids as it had. -/
theorem removeNode_goes (hgo : P'.kid1 = none ∧ P'.value = none ∧ P'.parent ≠ none) :
    ∃ t', removeNode (fuel + 2) t n = .ok (N.value, t') ∧ Shape pre t' ∧
      Inner (fun _ => False) t' ∧ t'.values = update t.values n none := by
  obtain ⟨hnone, hval, hpar'⟩ := hgo
  have hPval : P.value = none := hU.value.symm.trans hval
  have hp0 : p ≠ 0 := h.ne_zero_of_parent hp (hU.parent ▸ hpar')
  -- the parent had two kids, so that it has one now
  have htwo : P.kid1 ≠ none := hin p P hp hp0 id hPval
  have h0 : N.kid0 = none := by
    by_contra h0
    exact hU.inner htwo h0 hnone
  obtain ⟨hkid0, -⟩ := hU.left htwo h0
  have hpn := (h.ne_of_isKid hp hkid).symm
  set s := t.spliced n N.kid0 p P' with hs
  have hS : Shape pre s := h.splice hn h1 hp hkid hU
  have hsin : Inner (fun x => x = p) s :=
    (hin.mono fun _ => False.elim).splice fun _ hne => absurd rfl hne
  have hsp : s.heap p = some P' := spliced_parent_self hpn
  obtain ⟨g, G, hg, hG, hGp⟩ := hS.up p P' hsp hp0
  obtain ⟨G', hu', hU'⟩ := hS.unlink hG hsp hGp
  have hGstop : ¬ (G'.kid1 = none ∧ G'.value = none ∧ G'.parent ≠ none) := by
    rintro ⟨hG1, hGval, hGpar⟩
    refine hU'.inner (hsin g G hG (hS.ne_zero_of_parent hG (hU'.parent ▸ hGpar))
      (hS.ne_of_isKid hG hGp).symm (hU'.value.symm.trans hGval)) hkid0 hG1
  -- the node itself is deleted last
  set t₁ := (t.relinked N.kid0 p).write p P' with ht₁
  have hs₁ : s = t₁.delete n := rfl
  have hread : ∀ {x Y}, s.heap x = some Y → x ≠ n ∧ t₁.heap x = some Y := heap_of_delete
  have hk₁ : ∀ k, P'.kid0 = some k → ∃ K, t₁.heap k = some K := fun k hk => by
    obtain ⟨K, hK⟩ := hS.kid_heap hsp (.inl hk)
    exact ⟨K, (hread hK).2⟩
  have hG₁ : (t₁.relinked P'.kid0 g).heap g = some G :=
    (relinked_of_ne fun h0 => hS.not_isKid_parent hsp hG hGp (.inl h0)).trans (hread hG).2
  have hrun : removeNode (fuel + 1) t₁ p = .ok (P'.value, t₁.spliced p P'.kid0 g G') :=
    removeNode_once (hread hsp).2 hnone hg hk₁ hG₁ hu' hGstop
  have hkn : P'.kid0 ≠ some n := by
    intro hk
    obtain ⟨K, hK⟩ := hS.kid_heap hsp (.inl hk)
    exact (hread hK).1 rfl
  refine ⟨s.spliced p P'.kid0 g G', ?_, hS.splice hsp hnone hG hGp hU',
    Inner.splice (hsin.mono fun _ => .inr) fun hg0 _ hGval hG1 => ?_, ?_⟩
  · rw [removeNode_succ hn h1 hpar (fun k hk => h.kid_heap hn (.inl hk))
      (h.relinked_parent hn hp hkid) hu, if_pos, hrun, hs₁,
      spliced_delete hkn (hread hG).1.symm hpn.symm]
    · rfl
    · rw [hnone, hval]
      simpa [Option.isSome_iff_ne_none] using hpar'
  · exact hGstop ⟨hG1, hGval, hU'.parent ▸ hS.parent_ne_none hG hg0⟩
  · rw [values_spliced ((values_of_heap hG).trans hU'.value.symm), hs,
      values_spliced ((values_of_heap hp).trans hU.value.symm), update_comm hpn.symm]
    congr 1
    rw [← hPval, ← values_of_heap hp, update_eq_self]

end Remove

theorem remove_spec {u : V} (h : Shape pre t) (hin : Inner (fun _ => False) t)
    (hv : t.values n = some u) :
    ∃ t', t.remove n = .ok (some u, t') ∧ Shape pre t' ∧ Inner (fun _ => False) t' ∧
      t'.values = update t.values n none := by
  obtain ⟨N, hn, hval⟩ := heap_of_values hv
  have hn0 : n ≠ 0 := by
    rintro rfl
    obtain ⟨H, hH, -, hnone⟩ := h.head
    rw [values_of_heap hH, hnone] at hv
    cases hv
  rw [← hval, remove]
  rcases h1 : N.kid1 with _ | c
  · obtain ⟨p, P, hpar, hp, hkid⟩ := h.up n N hn hn0
    obtain ⟨P', hu, hU⟩ := h.unlink hp hn hkid
    by_cases hgo : P'.kid1 = none ∧ P'.value = none ∧ P'.parent ≠ none
    · exact removeNode_goes h hin hn h1 hpar hp hkid hu hU hgo
    · exact removeNode_stays h hin hn h1 hpar hp hkid hu hU hgo
  · -- a node with two kids stays, without its value
    refine ⟨t.write n { N with value := none }, ?_, h.setValue hn hn0 none, ?_, values_write⟩
    · simp [removeNode, read_of_heap hn, h1, hval, ok_bind, assert, pure_eq]
    · intro x Y hx hx0 hX hY
      rcases update_eq_some hx with ⟨rfl, rfl⟩ | ⟨-, hx⟩
      · rw [h1]
        exact Option.some_ne_none _
      · exact hin x Y hx hx0 hX hY

end Gem5Nvm.Trie
