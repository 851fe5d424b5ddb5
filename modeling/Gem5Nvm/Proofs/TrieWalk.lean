import Gem5Nvm.Proofs.TrieShape
import Mathlib.Logic.Relation

/-!
# Walks down a trie

A key leads down one way: of the kids of a node at most one goes on as the key does, and what lies
under the other kid does not match it.  So `lookup` ends at the first node on that way with a value,
and `insert` at the last one whose prefix is not longer than that of the new entry.
-/

namespace Gem5Nvm.Trie

open Prefix (Agree)
open Sim (ok_bind pure_eq)

variable {w : ℕ} {V : Type} {t : Trie w V} {pre : ℕ → Pre w} {n c k x : ℕ} {N C K : Node w V}
  {key : BitVec w} {fuel l j : ℕ}

theorem read_of_heap (hn : t.heap n = some N) : t.read n = .ok N := by
  rw [read, hn]

def Pre.Fits (a : Pre w) (key : BitVec w) : Prop := Agree a.len a.key key

section Under

/-- The node at `c` is a kid of that at `p`. -/
def KidOf (t : Trie w V) (p c : ℕ) : Prop := ∃ P, t.heap p = some P ∧ P.IsKid c

/-- The node at `c` is that at `p` or under it. -/
def Under (t : Trie w V) : ℕ → ℕ → Prop := Relation.ReflTransGen t.KidOf

variable (h : Shape pre t)

include h

theorem Shape.under_head (hn : t.heap n = some N) : t.Under 0 n := by
  -- by induction on the length of the prefix, which is longer than that of the parent
  induction hlen : (pre n).len using Nat.strong_induction_on generalizing n N with
  | _ m ih =>
    rcases eq_or_ne n 0 with rfl | hn0
    · exact .refl
    · obtain ⟨p, P, -, hp, hkid⟩ := h.up n N hn hn0
      have hlt := (h.down p P n hp hkid).2.1
      exact (ih _ (by omega) hp rfl).tail ⟨P, hp, hkid⟩

theorem Shape.below_of_under (hx : t.Under n x) : n = x ∨ (pre n).Below (pre x) := by
  induction hx with
  | refl => exact .inl rfl
  | tail _ hkid ih =>
    obtain ⟨P, hp, hc⟩ := hkid
    have hstep := (h.down _ P _ hp hc).2
    rcases ih with rfl | hbelow
    · exact .inr hstep
    · exact .inr (hbelow.trans hstep)

theorem Shape.fits_of_under (hx : t.Under n x) (hfits : (pre x).Fits key) : (pre n).Fits key := by
  rcases h.below_of_under hx with rfl | hbelow
  · exact hfits
  · exact hbelow.2.trans (hfits.mono hbelow.1.le)

theorem Shape.fits_kids (hn : t.heap n = some N) (h0 : N.kid0 = some c) (h1 : N.kid1 = some k)
    (hc : (pre c).Fits key) : ¬ (pre k).Fits key := by
  intro hk
  obtain ⟨c₀, hc₀, hbits⟩ := h.apart n N k hn h1
  obtain rfl : c = c₀ := Option.some.inj (h0.symm.trans hc₀)
  have hcn := (h.down n N c hn (.inl h0)).2.1
  have hkn := (h.down n N k hn (.inr h1)).2.1
  exact hbits ((hc _ hcn).trans (hk _ hkn).symm)

theorem Shape.hits_iff (hn : t.heap n = some N) : N.hits key = true ↔ (pre n).Fits key := by
  obtain ⟨hlen, hmask, hkey, hnorm⟩ := h.holds n N hn
  rw [Node.hits, beq_iff_eq, ← hnorm, hmask, Prefix.and_mask_eq_iff hlen, hkey]
  exact ⟨Agree.symm, Agree.symm⟩

theorem Shape.len_le (hn : t.heap n = some N) : (pre n).len ≤ w := (h.holds n N hn).1

theorem Shape.kid_heap (hn : t.heap n = some N) (hc : N.IsKid c) : ∃ C, t.heap c = some C := by
  obtain ⟨⟨C, hC, -⟩, -⟩ := h.down n N c hn hc
  exact ⟨C, hC⟩

end Under

section Lookup

variable (h : Shape pre t)

include h

theorem Shape.matching_spec {kid : Option ℕ} (key : BitVec w) (hn : t.heap n = some N)
    (hkid : ∀ c, kid = some c → N.IsKid c) :
    (∃ c, kid = some c ∧ (pre c).Fits key ∧ t.matching kid key = .ok (some c)) ∨
      (∀ c, kid = some c → ¬ (pre c).Fits key) ∧ t.matching kid key = .ok none := by
  rcases kid with _ | c
  · exact .inr ⟨fun c hc => (Option.some_ne_none c hc.symm).elim, rfl⟩
  · obtain ⟨C, hC⟩ := h.kid_heap hn (hkid c rfl)
    have hrun : t.matching (some c) key = .ok (if C.hits key then some c else none) := by
      rw [matching, read_of_heap hC, ok_bind, pure_eq]
    by_cases hfits : (pre c).Fits key
    · rw [if_pos ((h.hits_iff hC).2 hfits)] at hrun
      exact .inl ⟨c, rfl, hfits, hrun⟩
    · rw [if_neg (mt (h.hits_iff hC).1 hfits)] at hrun
      exact .inr ⟨fun c' hc' => Option.some.inj hc' ▸ hfits, hrun⟩

/-- What a lookup finds: the value with the shortest prefix among those that fit. -/
def Found (pre : ℕ → Pre w) (t : Trie w V) (key : BitVec w) : Option ℕ → Prop
  | none => ∀ x, t.values x ≠ none → ¬ (pre x).Fits key
  | some n => t.values n ≠ none ∧ (pre n).Fits key ∧
      ∀ x, t.values x ≠ none → (pre x).Fits key → n = x ∨ (pre n).len < (pre x).len

/-- The loop is at a node under which all the values are that fit. -/
theorem lookupLoop_spec (hn : t.heap n = some N) (hfits : (pre n).Fits key)
    (hunder : ∀ x, t.values x ≠ none → (pre x).Fits key → t.Under n x)
    (hfuel : w < fuel + (pre n).len) :
    ∃ r, t.lookupLoop key fuel n = .ok r ∧ Found pre t key r := by
  induction fuel generalizing n N with
  | zero =>
    have := h.len_le hn
    omega
  | succ fuel ih =>
    rw [lookupLoop, read_of_heap hn, ok_bind]
    rcases hval : N.value with _ | u
    · have hkids : ∀ x, t.values x ≠ none → (pre x).Fits key → ∃ c, N.IsKid c ∧ t.Under c x := by
        intro x hx hxfits
        rcases Relation.ReflTransGen.cases_head (hunder x hx hxfits) with rfl | ⟨c, hc, hcx⟩
        · exact absurd ((values_of_heap hn).trans hval) hx
        · obtain ⟨P, hP, hkid⟩ := hc
          obtain rfl := Option.some.inj (hn.symm.trans hP)
          exact ⟨c, hkid, hcx⟩
      have hgo : ∀ c, N.IsKid c → (pre c).Fits key →
          (∀ c', N.IsKid c' → (pre c').Fits key → c' = c) →
          ∃ r, t.lookupLoop key fuel c = .ok r ∧ Found pre t key r := by
        intro c hc hcfits honly
        obtain ⟨C, hC⟩ := h.kid_heap hn hc
        have hlt := (h.down n N c hn hc).2.1
        refine ih hC hcfits (fun x hx hxfits => ?_) (by omega)
        obtain ⟨c', hc', hcx⟩ := hkids x hx hxfits
        exact honly c' hc' (h.fits_of_under hcx hxfits) ▸ hcx
      simp only [Option.isSome_none, Bool.false_eq_true, if_false]
      rcases h.matching_spec key hn (fun c => .inl) with ⟨c, h0, hc, hrun⟩ | ⟨hno0, hrun⟩
      · rw [hrun, ok_bind]
        refine hgo c (.inl h0) hc fun c' hc' hfits' => ?_
        rcases hc' with h0' | h1'
        · exact Option.some.inj (h0'.symm.trans h0)
        · exact absurd hfits' (h.fits_kids hn h0 h1' hc)
      rw [hrun, ok_bind]
      dsimp only
      rcases h.matching_spec key hn (fun c => .inr) with ⟨c, h1, hc, hrun⟩ | ⟨hno1, hrun⟩
      · rw [hrun, ok_bind]
        refine hgo c (.inr h1) hc fun c' hc' hfits' => ?_
        rcases hc' with h0' | h1'
        · exact absurd hfits' (hno0 c' h0')
        · exact Option.some.inj (h1'.symm.trans h1)
      · rw [hrun, ok_bind]
        refine ⟨none, rfl, fun x hx hxfits => ?_⟩
        obtain ⟨c, hc | hc, hcx⟩ := hkids x hx hxfits
        · exact hno0 c hc (h.fits_of_under hcx hxfits)
        · exact hno1 c hc (h.fits_of_under hcx hxfits)
    · refine ⟨some n, rfl, ?_, hfits, fun x hx hxfits => ?_⟩
      · rw [values_of_heap hn, hval]
        exact Option.some_ne_none u
      · exact (h.below_of_under (hunder x hx hxfits)).imp id And.left

theorem Shape.fits_head : (pre 0).Fits key := by
  intro i hi
  rw [h.head_len] at hi
  omega

theorem lookupHandle_spec (key : BitVec w) : ∃ r, t.lookupHandle key = .ok r ∧ Found pre t key r := by
  obtain ⟨H, hH, -⟩ := h.head
  refine lookupLoop_spec h hH h.fits_head (fun x hx _ => ?_) (by omega)
  obtain ⟨u, hu⟩ := Option.ne_none_iff_exists'.1 hx
  obtain ⟨N, hN, -⟩ := heap_of_values hu
  exact h.under_head hN

end Lookup

section Walk

variable (h : Shape pre t)

/-- The new entry goes after the kid. -/
def Pre.Before (a : Pre w) (key : BitVec w) (l : ℕ) : Prop := a.Fits key ∧ a.len ≤ l

include h

theorem Shape.goesAfter_spec {kid : Option ℕ} (key : BitVec w) (hn : t.heap n = some N)
    (hl : l ≤ w) (hkid : ∀ c, kid = some c → N.IsKid c) :
    (∃ c, kid = some c ∧ (pre c).Before key l ∧
      t.goesAfter kid key (Prefix.mask w l) = .ok (some c)) ∨
    (∀ c, kid = some c → ¬ (pre c).Before key l) ∧
      t.goesAfter kid key (Prefix.mask w l) = .ok none := by
  rcases kid with _ | c
  · exact .inr ⟨fun c hc => (Option.some_ne_none c hc.symm).elim, rfl⟩
  · obtain ⟨C, hC⟩ := h.kid_heap hn (hkid c rfl)
    obtain ⟨hlen, hmask, -, -⟩ := h.holds c C hC
    have hrun : t.goesAfter (some c) key (Prefix.mask w l) = .ok
        (if C.hits key && (C.mask &&& Prefix.mask w l == C.mask) then some c else none) := by
      rw [goesAfter, read_of_heap hC, ok_bind, pure_eq]
    have hiff : (C.hits key && (C.mask &&& Prefix.mask w l == C.mask)) = true ↔
        (pre c).Before key l := by
      rw [Bool.and_eq_true, h.hits_iff hC, beq_iff_eq, hmask, Prefix.mask_and_mask_eq_iff hlen hl]
      rfl
    by_cases hbefore : (pre c).Before key l
    · rw [if_pos (hiff.2 hbefore)] at hrun
      exact .inl ⟨c, rfl, hbefore, hrun⟩
    · rw [if_neg (mt hiff.1 hbefore)] at hrun
      exact .inr ⟨fun c' hc' => Option.some.inj hc' ▸ hbefore, hrun⟩

theorem walkLoop_spec (fuel : ℕ) (hn : t.heap n = some N) (hbefore : (pre n).Before key l) (hl : l ≤ w)
    (hfuel : w < fuel + (pre n).len) :
    ∃ m M, t.walkLoop key (Prefix.mask w l) fuel n = .ok m ∧ t.heap m = some M ∧
      (pre m).Before key l ∧ ∀ c, M.IsKid c → ¬ (pre c).Before key l := by
  induction fuel generalizing n N with
  | zero =>
    have := h.len_le hn
    omega
  | succ fuel ih =>
    have hgo : ∀ c, N.IsKid c → (pre c).Before key l →
        ∃ m M, t.walkLoop key (Prefix.mask w l) fuel c = .ok m ∧ t.heap m = some M ∧
          (pre m).Before key l ∧ ∀ c, M.IsKid c → ¬ (pre c).Before key l := by
      intro c hc hcbefore
      obtain ⟨C, hC⟩ := h.kid_heap hn hc
      have hlt := (h.down n N c hn hc).2.1
      exact ih hC hcbefore (by omega)
    rw [walkLoop, read_of_heap hn, ok_bind]
    rcases h.goesAfter_spec key hn hl (fun c => .inl) with ⟨c, h0, hc, hrun⟩ | ⟨hno0, hrun⟩
    · rw [hrun, ok_bind]
      exact hgo c (.inl h0) hc
    rw [hrun, ok_bind]
    dsimp only
    rcases h.goesAfter_spec key hn hl (fun c => .inr) with ⟨c, h1, hc, hrun⟩ | ⟨hno1, hrun⟩
    · rw [hrun, ok_bind]
      exact hgo c (.inr h1) hc
    · rw [hrun, ok_bind]
      refine ⟨n, N, rfl, hn, hbefore, fun c hc => ?_⟩
      rcases hc with hc | hc
      · exact hno0 c hc
      · exact hno1 c hc

end Walk

section Leg

theorem legLoop_spec (fuel : ℕ) {kidKey : BitVec w} (hj : j ≤ l) (hl : l ≤ w)
    (hagree : Agree j key kidKey) (hfuel : l < fuel + j) :
    ∃ j', legLoop key kidKey (Prefix.mask w l) fuel (Prefix.mask w j) = .ok (Prefix.mask w j') ∧
      j ≤ j' ∧ j' ≤ l ∧ Agree j' key kidKey ∧
      (j' = l ∨ key.getMsbD j' ≠ kidKey.getMsbD j') := by
  induction fuel generalizing j with
  | zero => omega
  | succ fuel ih =>
    rw [legLoop]
    rcases hj.eq_or_lt with rfl | hlt
    · exact ⟨j, if_pos (.inr rfl), le_rfl, le_rfl, hagree, .inl rfl⟩
    have hne : Prefix.mask w j ≠ Prefix.mask w l := fun heq =>
      hlt.ne (Prefix.mask_injective (by omega) hl heq)
    have hext : extendMask (Prefix.mask w j) = Prefix.mask w (j + 1) :=
      Prefix.extend_mask (by omega)
    rw [hext]
    by_cases hbit : key.getMsbD j = kidKey.getMsbD j
    · have hagree' : Agree (j + 1) key kidKey := Prefix.agree_succ.2 ⟨hagree, hbit⟩
      rw [if_neg]
      · obtain ⟨j', hrun, hle, hrest⟩ := ih (by omega) hagree' (by omega)
        exact ⟨j', hrun, by omega, hrest⟩
      · rintro (hdiff | heq)
        · exact hdiff ((Prefix.and_mask_eq_iff (by omega)).2 hagree')
        · exact hne heq
    · refine ⟨j, if_pos (.inl fun heq => ?_), le_rfl, hj, hagree, .inr hbit⟩
      exact hbit ((Prefix.and_mask_eq_iff (by omega)).1 heq j (by omega))

theorem widthMask_spec {width : ℕ} (hwidth : 1 ≤ width) :
    widthMask w width = .ok (Prefix.mask w (min width w)) := by
  rw [widthMask, if_neg (by omega)]
  split_ifs with hlt
  · rw [min_eq_left hlt.le, Prefix.mask]
  · rw [min_eq_right (by omega), Prefix.mask_self]

end Leg

end Gem5Nvm.Trie
