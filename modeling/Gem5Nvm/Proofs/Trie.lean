import Gem5Nvm.Proofs.TrieRemove

/-!
# What a trie answers

A new entry goes under the last node whose prefix it starts with: into that node, as a leaf where
there is no kid, or past the bits it shares with the kid that goes on as it does.  Between calls the
nodes with a value are the entries (`Holds`), so that every call answers from them (`answers`).
-/

namespace Gem5Nvm.Trie

open Function (update update_of_ne update_self)
open Sim (ok_bind pure_eq)
open Prefix (Agree)

variable {w : ℕ} {V : Type} {t t' : Trie w V} {pre : ℕ → Pre w} {n c k m : ℕ} {N K : Node w V}
  {key : BitVec w} {l j : ℕ} {u : V} {i : Fin 2}

/-- The first `l` bits of a key. -/
def prefixOf (key : BitVec w) (l : ℕ) : Pre w := ⟨l, key &&& Prefix.mask w l⟩

theorem prefixOf_ok (hl : l ≤ w) : (prefixOf key l).Ok :=
  ⟨hl, by rw [prefixOf, BitVec.and_assoc, BitVec.and_self]⟩

theorem prefixOf_fits (hl : l ≤ w) : (prefixOf key l).Fits key := Prefix.agree_and_mask hl

theorem prefixOf_next (hl : l ≤ w) (hj : j < l) : (prefixOf key l).next j = key.getMsbD j :=
  prefixOf_fits hl j hj

theorem below_prefixOf {a : Pre w} (hl : l ≤ w) (hfits : a.Fits key) (hlen : a.len < l) :
    a.Below (prefixOf key l) :=
  ⟨hlen, hfits.trans ((prefixOf_fits hl).symm.mono hlen.le)⟩

/-- The trie has the value `u` under `m` more than it had, with the first `l` bits of the key. -/
def Gains (pre : ℕ → Pre w) (t : Trie w V) (key : BitVec w) (l : ℕ) (u : V) (m : ℕ)
    (t' : Trie w V) : Prop :=
  ∃ pre', Shape pre' t' ∧ Inner (fun _ => False) t' ∧ t.values m = none ∧
    t'.values = update t.values m (some u) ∧ (pre' m).len = l ∧ (pre' m).Fits key ∧
    ∀ x, t.values x ≠ none → pre' x = pre x

section Insert

variable (h : Shape pre t) (hin : Inner (fun _ => False) t) (hn : t.heap n = some N) (hl : l ≤ w)
  (hfits : (pre n).Fits key) (hlen : (pre n).len < l)
  (hkids : ∀ c, N.IsKid c → ¬ (pre c).Before key l)

include h

theorem Shape.pre_update_of_values {a : Pre w} {x : ℕ} (hx : t.values x ≠ none) :
    update pre t.next a x = pre x :=
  update_of_ne (fun hnext : x = t.next => hx (hnext ▸ h.values_next)) ..

include hin hn hl hfits hlen

theorem insertLeg_leaf (hnone : N.kid i = none)
    (hfirst : i = 1 → ∃ c, N.kid0 = some c ∧ (pre c).next (pre n).len ≠ key.getMsbD (pre n).len) :
    ∃ m t', t.insertLeg n key (Prefix.mask w l) (some u) i = .ok (some (m, t')) ∧
      Gains pre t key l u m t' := by
  refine ⟨t.next, attached t n N (prefixOf key l) (some u) i, ?_, update pre t.next
    (prefixOf key l), h.attach hn (prefixOf_ok hl) (below_prefixOf hl hfits hlen) hnone ?_,
    Inner.attach (hin.mono fun _ => False.elim) hn, h.values_next, values_attached h hn, ?_, ?_,
    fun x => h.pre_update_of_values⟩
  · rw [insertLeg, read_of_heap hn, ok_bind, hnone]
    rfl
  · intro hi
    obtain ⟨c, hc, hbit⟩ := hfirst hi
    exact ⟨c, hc, by rwa [prefixOf_next hl hlen]⟩
  · rw [update_self, prefixOf]
  · rw [update_self]
    exact prefixOf_fits hl

omit hin in
theorem leg_spec (hkids : ∀ c, N.IsKid c → ¬ (pre c).Before key l) (hkid : N.kid i = some k)
    (hk : t.heap k = some K) :
    ∃ j, legLoop key K.key (Prefix.mask w l) (w + 2) N.mask = .ok (Prefix.mask w j) ∧
      (pre n).len ≤ j ∧ j ≤ l ∧ j < (pre k).len ∧ Agree j key (pre k).key ∧
      (j = l ∨ key.getMsbD j ≠ (pre k).key.getMsbD j) := by
  obtain ⟨-, hmask, -, -⟩ := h.holds n N hn
  obtain ⟨-, -, hkey, -⟩ := h.holds k K hk
  have hbelow := (h.down n N k hn (isKid_of_kid hkid)).2
  obtain ⟨j, hrun, hnj, hjl, hagree, hstop⟩ := 
    legLoop_spec (w + 2) hlen.le hl (hfits.symm.trans hbelow.2) (by omega)
  rw [hmask, hkey]
  refine ⟨j, hrun, hnj, hjl, ?_, hagree, hstop⟩
  by_contra hge
  exact hkids k (isKid_of_kid hkid) ⟨hagree.symm.mono (by omega), by omega⟩

include hkids

omit hin in
theorem insertLeg_wrong (hkid : N.kid i = some k)
    (hbit : (pre k).next (pre n).len ≠ key.getMsbD (pre n).len) :
    t.insertLeg n key (Prefix.mask w l) (some u) i = .ok none := by
  obtain ⟨K, hk⟩ := h.kid_heap hn (isKid_of_kid hkid)
  obtain ⟨j, hrun, hnj, -, -, hagree, -⟩ := leg_spec h hn hl hfits hlen hkids hkid hk
  have hj : j = (pre n).len := by
    by_contra hne
    exact hbit (hagree _ (by omega)).symm
  rw [insertLeg, read_of_heap hn, ok_bind, hkid]
  dsimp only
  rw [read_of_heap hk, ok_bind, hrun, ok_bind, hj, (h.holds n N hn).2.1, if_pos rfl]
  rfl

/-- The kid goes on as the key does: a new node takes the bits they share. -/
theorem insertLeg_shared (hkid : N.kid i = some k)
    (hbit : (pre k).next (pre n).len = key.getMsbD (pre n).len) :
    ∃ m t', t.insertLeg n key (Prefix.mask w l) (some u) i = .ok (some (m, t')) ∧
      Gains pre t key l u m t' := by
  obtain ⟨K, hk⟩ := h.kid_heap hn (isKid_of_kid hkid)
  obtain ⟨j, hrun, hnj, hjl, hjk, hagree, hstop⟩ := leg_spec h hn hl hfits hlen hkids hkid hk
  obtain ⟨hnw, hmask, -, -⟩ := h.holds n N hn
  have hnj' : (pre n).len < j := by
    refine hnj.lt_of_ne fun heq => ?_
    rcases hstop with rfl | hne
    · omega
    · exact hne (heq ▸ hbit.symm)
  set a := prefixOf key j with ha
  have hak : a.Below (pre k) := ⟨hjk, (prefixOf_fits (by omega)).trans hagree⟩
  set s := divided t n N k K a i with hs
  have hS : Shape (update pre t.next a) s := h.divide hn hkid hk (prefixOf_ok (by omega))
    (below_prefixOf (by omega) hfits hnj') hak
  have hsin : Inner (fun x => False ∨ x = t.next) s := hin.divide hn hk
  have hmid : s.heap t.next = some (middle a n k) := divided_mid h hn
  have hvals : s.values = t.values := values_divided h hn hk
  have hgo : t.insertLeg n key (Prefix.mask w l) (some u) i =
      if Prefix.mask w j = Prefix.mask w l then
        .ok (some (t.next, s.write t.next { (middle a n k : Node w V) with value := some u }))
      else .ok (some (s.next, attached s t.next (middle a n k) (prefixOf key l) (some u) 1)) := by
    rw [insertLeg, read_of_heap hn, ok_bind, hkid]
    dsimp only
    rw [read_of_heap hk, ok_bind, hrun, ok_bind, hmask, if_neg]
    · rfl
    · exact fun heq => hnj'.ne' (Prefix.mask_injective (by omega) hnw heq)
  rw [hgo]
  split_ifs with heq
  · -- no bits are left: the value goes into the new node
    obtain rfl : j = l := Prefix.mask_injective (by omega) hl heq
    have hne : t.next ≠ 0 := by
      obtain ⟨H, hH, -⟩ := h.head
      exact (h.ne_next hH).symm
    refine ⟨_, _, rfl, _, hS.setValue hmid hne (some u), hsin.setValue, h.values_next, ?_, ?_, ?_,
      fun x => h.pre_update_of_values⟩
    · rw [values_write, hvals]
    · rw [update_self, ha, prefixOf]
    · rw [update_self]
      exact prefixOf_fits hl
  · have hjl' : j < l := hjl.lt_of_ne fun hjl => heq (by rw [hjl])
    have hdiff := hstop.resolve_left hjl'.ne
    have hpm : update pre t.next a t.next = a := update_self ..
    refine ⟨_, _, rfl, update (update pre t.next a) s.next (prefixOf key l),
      hS.attach hmid (prefixOf_ok hl) ?_ rfl fun _ => ⟨k, rfl, ?_⟩, Inner.attach ?_ hmid, ?_, ?_,
      ?_, ?_, fun x hx => ?_⟩
    · rw [hpm]
      exact below_prefixOf hl (prefixOf_fits (by omega)) hjl'
    · rw [hpm, h.pre_update hk, ha]
      change (pre k).next j ≠ (prefixOf key l).next j
      rw [prefixOf_next hl hjl']
      exact hdiff.symm
    · exact hsin.mono fun x hx => hx.imp id fun hx => ⟨rfl, hx⟩
    · rw [← hvals]
      exact hS.values_next
    · rw [values_attached hS hmid, hvals]
    · rw [update_self, prefixOf]
    · rw [update_self]
      exact prefixOf_fits hl
    · rw [hS.pre_update_of_values (hvals ▸ hx), h.pre_update_of_values hx]

theorem insertLegs_spec : ∃ m t', t.insertLegs n key (Prefix.mask w l) (some u) = .ok (m, t') ∧
    Gains pre t key l u m t' := by
  rw [insertLegs]
  rcases h0 : N.kid0 with _ | k₀
  · obtain ⟨m, t', hrun, hgains⟩ := insertLeg_leaf (i := 0) h hin hn hl hfits hlen h0
      (fun hi => by cases hi)
    refine ⟨m, t', ?_, hgains⟩
    rw [hrun]
    rfl
  by_cases hbit : (pre k₀).next (pre n).len = key.getMsbD (pre n).len
  · obtain ⟨m, t', hrun, hgains⟩ := insertLeg_shared (i := 0) h hin hn hl hfits hlen hkids h0 hbit
    refine ⟨m, t', ?_, hgains⟩
    rw [hrun]
    rfl
  rw [insertLeg_wrong (i := 0) h hn hl hfits hlen hkids h0 hbit, ok_bind]
  dsimp only
  rcases h1 : N.kid1 with _ | k₁
  · obtain ⟨m, t', hrun, hgains⟩ := insertLeg_leaf (i := 1) h hin hn hl hfits hlen h1
      (fun _ => ⟨k₀, h0, hbit⟩)
    refine ⟨m, t', ?_, hgains⟩
    rw [hrun]
    rfl
  · -- the two kids go on differently, so one of them as the key does
    obtain ⟨c, hc, hne⟩ := h.apart n N k₁ hn h1
    obtain rfl : k₀ = c := Option.some.inj (h0.symm.trans hc)
    have hbit₁ : (pre k₁).next (pre n).len = key.getMsbD (pre n).len := by
      revert hne hbit
      cases (pre k₀).next (pre n).len <;> cases (pre k₁).next (pre n).len <;>
        cases key.getMsbD (pre n).len <;> simp
    obtain ⟨m, t', hrun, hgains⟩ := insertLeg_shared (i := 1) h hin hn hl hfits hlen hkids h1 hbit₁
    refine ⟨m, t', ?_, hgains⟩
    rw [hrun]
    rfl

end Insert

theorem insert_spec {width : ℕ} (h : Shape pre t) (hin : Inner (fun _ => False) t)
    (hw : 1 ≤ w) (hwidth : 1 ≤ width)
    (hnew : ∀ n, t.values n ≠ none → (pre n).Fits key → (pre n).len ≠ min width w) :
    ∃ m t', t.insert key width (some u) = .ok (m, t') ∧ Gains pre t key (min width w) u m t' := by
  set l := min width w with hl
  have hlw : l ≤ w := by omega
  set masked := key &&& Prefix.mask w l with hmasked
  have hagree : Agree l masked key := Prefix.agree_and_mask hlw
  obtain ⟨H, hH, -⟩ := h.head
  obtain ⟨n, N, hrun, hn, ⟨hfits, hle⟩, hkids⟩ := walkLoop_spec h (w + 2) hH
    (⟨h.fits_head, by rw [h.head_len]; omega⟩ : (pre 0).Before masked l) hlw (by omega)
  have hgo : ∀ {m t'}, Gains pre t masked l u m t' → Gains pre t key l u m t' := by
    rintro m t' ⟨pre', hS, hI, hnone, hvals, hlen, hfits, hrest⟩
    exact ⟨pre', hS, hI, hnone, hvals, hlen, hfits.trans (hagree.mono hlen.le), hrest⟩
  obtain ⟨-, hmask, -, -⟩ := h.holds n N hn
  have hbegin : t.insert key width (some u) = (if N.mask = Prefix.mask w l then do
      assert N.value.isNone "!node->value"
      pure (n, t.write n { N with value := some u })
    else t.insertLegs n masked (Prefix.mask w l) (some u)) := by
    rw [insert, widthMask_spec hwidth]
    simp only [assert, Option.isSome_some, if_true, ok_bind]
    rw [← hl, ← hmasked, hrun, ok_bind, read_of_heap hn, ok_bind]
  rw [hbegin]
  rcases hle.eq_or_lt with heq | hlt
  · -- the node is there, and has no value
    have hvalue : t.values n = none := by
      by_contra hsome
      exact hnew n hsome (hfits.trans (hagree.mono hle)) heq
    have hn0 : n ≠ 0 := by
      rintro rfl
      rw [h.head_len] at heq
      omega
    refine ⟨n, t.write n { N with value := some u }, ?_, pre, h.setValue hn hn0 (some u),
      Inner.setValue (hin.mono fun _ => False.elim), hvalue, values_write, heq,
      hfits.trans (hagree.mono hle), fun _ _ => rfl⟩
    rw [if_pos (by rw [hmask, heq]), ← values_of_heap hn, hvalue]
    rfl
  · rw [if_neg]
    · obtain ⟨m, t', hlegs, hgains⟩ := insertLegs_spec h hin hn hlw hfits hlt hkids
      exact ⟨m, t', hlegs, hgo hgains⟩
    · rw [hmask]
      exact fun hm => hlt.ne (Prefix.mask_injective (by omega) hlw hm)

section Runs

variable {σ : Entries w V} {e : Entry w V}

/-- The nodes with a value are the entries. -/
structure Holds (pre : ℕ → Pre w) (σ : Entries w V) (t : Trie w V) : Prop where
  shape : Shape pre t
  inner : Inner (fun _ => False) t
  absent : ∀ n, σ n = none → t.values n = none
  present : ∀ n e, σ n = some e → t.values n = some e.value ∧ (pre n).len = min e.width w ∧
    Agree e.width e.key (pre n).key

theorem holds_empty : Holds (fun _ => ⟨0, 0⟩) (fun _ => none) (empty : Trie w V) := by
  have hheap : ∀ {x X}, (empty : Trie w V).heap x = some X → x = 0 ∧ X = Node.new 0 0 none := by
    intro x X hx
    simp only [empty] at hx
    rcases update_eq_some hx with hx | ⟨-, hx⟩
    · exact hx
    · cases hx
  have hnew : (Node.new 0 0 none : Node w V) = ⟨0, 0, none, none, none, none⟩ := by
    rw [Node.new, BitVec.and_self]
  have hhead : (empty : Trie w V).heap 0 = some (Node.new 0 0 none) := by
    simp only [empty, update_self]
  refine ⟨⟨⟨_, hhead, rfl, rfl⟩, rfl, fun x hx => ?_, fun x X hx => ?_,
    fun x X hx hx0 => ?_, fun x X c hx hc => ?_, fun x X c hx hc => ?_⟩, fun x X hx hx0 => ?_,
    fun x _ => ?_, fun x e he => by cases he⟩
  · simp only [empty]
    exact update_of_ne (Nat.pos_iff_ne_zero.1 hx) ..
  · obtain ⟨-, rfl⟩ := hheap hx
    rw [hnew]
    exact ⟨Nat.zero_le _, Prefix.mask_zero.symm, rfl, BitVec.and_self⟩
  · exact absurd (hheap hx).1 hx0
  · obtain ⟨-, rfl⟩ := hheap hx
    rcases hc with hc | hc <;> cases hc
  · obtain ⟨-, rfl⟩ := hheap hx
    cases hc
  · exact absurd (hheap hx).1 hx0
  · rcases hx : (empty : Trie w V).heap x with _ | X
    · rw [values, hx, Option.bind_none]
    · obtain ⟨-, rfl⟩ := hheap hx
      rw [values_of_heap hx, hnew]

variable (h : Holds pre σ t)

include h

theorem Holds.entry (hn : t.values n ≠ none) : ∃ e, σ n = some e := by
  rcases he : σ n with _ | e
  · exact absurd (h.absent n he) hn
  · exact ⟨e, rfl⟩

theorem Holds.values_ne (he : σ n = some e) : t.values n ≠ none := by
  rw [(h.present n e he).1]
  exact Option.some_ne_none _

theorem Holds.matches_iff (he : σ n = some e) : e.Matches key ↔ (pre n).Fits key := by
  obtain ⟨-, hlen, hagree⟩ := h.present n e he
  rw [Pre.Fits, hlen, Prefix.agree_min]
  exact ⟨hagree.symm.trans, hagree.trans⟩

theorem Holds.shortest (hfound : Found pre t key (some n)) (he : σ n = some e) :
    σ.Shortest key n e := by
  obtain ⟨-, hfits, hmin⟩ := hfound
  refine ⟨he, (h.matches_iff he).2 hfits, fun n' e' he' hmatch => ?_⟩
  rcases hmin n' (h.values_ne he') ((h.matches_iff he').1 hmatch) with rfl | hlt
  · obtain rfl := Option.some.inj (he.symm.trans he')
    exact le_rfl
  · rw [(h.present n e he).2.1, (h.present n' e' he').2.1] at hlt
    omega

theorem Holds.misses (hfound : Found pre t key none) : σ.Misses key := fun n _ he hmatch =>
  hfound n (h.values_ne he) ((h.matches_iff he).1 hmatch)

theorem Holds.remove (he : σ n = some e) :
    ∃ t', t.remove n = .ok (some e.value, t') ∧ Holds pre (update σ n none) t' := by
  obtain ⟨t', hrun, hS, hI, hvals⟩ := remove_spec h.shape h.inner (h.present n e he).1
  refine ⟨t', hrun, hS, hI, fun x hx => ?_, fun x e' hx => ?_⟩
  · rw [hvals]
    rcases eq_or_ne x n with rfl | hne
    · exact update_self ..
    · rw [update_of_ne hne] at hx ⊢
      exact h.absent x hx
  · rcases eq_or_ne x n with rfl | hne
    · rw [update_self] at hx
      cases hx
    · rw [update_of_ne hne] at hx
      rw [hvals, update_of_ne hne]
      exact h.present x e' hx

theorem Holds.insert {width : ℕ} (hw : 1 ≤ w) (hlegal : σ.Legal (.insert key width u)) :
    ∃ m t' pre', t.insert key width (some u) = .ok (m, t') ∧ σ m = none ∧
      Holds pre' (update σ m (some ⟨key, width, u⟩)) t' := by
  obtain ⟨hwidth, hdistinct⟩ := hlegal
  have hnew : ∀ n, t.values n ≠ none → (pre n).Fits key → (pre n).len ≠ min width w := by
    intro n hn hfits heq
    obtain ⟨e, he⟩ := h.entry hn
    obtain ⟨-, hlen, hagree⟩ := h.present n e he
    have hmin : min e.width w = min width w := hlen.symm.trans heq
    refine hdistinct n e he ⟨hmin, ?_⟩
    rw [← Prefix.agree_min, ← hmin, Prefix.agree_min]
    exact (h.matches_iff he).2 hfits
  obtain ⟨m, t', hrun, pre', hS, hI, hnone, hvals, hlen, hfits, hkeep⟩ :=
    insert_spec (u := u) h.shape h.inner hw hwidth hnew
  refine ⟨m, t', pre', hrun, ?_, hS, hI, fun x hx => ?_, fun x e hx => ?_⟩
  · by_contra hne
    obtain ⟨e, he⟩ := Option.ne_none_iff_exists'.1 hne
    exact h.values_ne he hnone
  · rcases eq_or_ne x m with rfl | hne
    · rw [update_self] at hx
      cases hx
    · rw [update_of_ne hne] at hx
      rw [hvals, update_of_ne hne]
      exact h.absent x hx
  · rcases eq_or_ne x m with rfl | hne
    · rw [update_self, Option.some.injEq] at hx
      subst hx
      rw [hvals, update_self]
      refine ⟨rfl, hlen, ?_⟩
      rw [Pre.Fits, hlen, Prefix.agree_min] at hfits
      exact hfits.symm
    · rw [update_of_ne hne] at hx
      rw [hvals, update_of_ne hne, hkeep x (h.values_ne hx)]
      exact h.present x e hx

theorem Holds.lookup (key : BitVec w) :
    ∃ v, t.lookup key = .ok v ∧ σ.Step (.lookup key) (.value v) σ := by
  obtain ⟨r, hrun, hfound⟩ := lookupHandle_spec h.shape key
  rcases r with _ | n
  · refine ⟨none, ?_, .lookup_none (h.misses hfound)⟩
    rw [Trie.lookup, hrun]
    rfl
  · obtain ⟨e, he⟩ := h.entry hfound.1
    obtain ⟨N, hn, hval⟩ := heap_of_values (h.present n e he).1
    refine ⟨some e.value, ?_, .lookup_some (h.shortest hfound he)⟩
    rw [Trie.lookup, hrun, ok_bind]
    dsimp only
    rw [read_of_heap hn, ok_bind, pure_eq, hval]

theorem Holds.removeKey (key : BitVec w) : ∃ v t' σ', t.removeKey key = .ok (v, t') ∧
    σ.Step (.removeKey key) (.value v) σ' ∧ Holds pre σ' t' := by
  obtain ⟨r, hrun, hfound⟩ := lookupHandle_spec h.shape key
  rcases r with _ | n
  · refine ⟨none, t, σ, ?_, .removeKey_none (h.misses hfound), h⟩
    rw [Trie.removeKey, hrun]
    rfl
  · obtain ⟨e, he⟩ := h.entry hfound.1
    obtain ⟨t', hremove, hh⟩ := h.remove he
    refine ⟨some e.value, t', _, ?_, .removeKey_some (h.shortest hfound he), hh⟩
    rw [Trie.removeKey, hrun, ok_bind]
    exact hremove

theorem Holds.call (hw : 1 ≤ w) {c : Call w V} (hlegal : σ.Legal c) :
    ∃ answer t' σ' pre', t.call c = .ok (answer, t') ∧ σ.Step c answer σ' ∧ Holds pre' σ' t' := by
  rcases c with ⟨key, width, u⟩ | key | n | key
  · obtain ⟨m, t', pre', hrun, hnone, hh⟩ := h.insert hw hlegal
    refine ⟨.handle m, t', _, pre', ?_, .insert hnone, hh⟩
    rw [Trie.call, hrun]
    rfl
  · obtain ⟨v, hrun, hstep⟩ := h.lookup key
    refine ⟨.value v, t, σ, pre, ?_, hstep, h⟩
    rw [Trie.call, hrun]
    rfl
  · obtain ⟨e, he⟩ := Option.ne_none_iff_exists'.1 hlegal
    obtain ⟨t', hrun, hh⟩ := h.remove he
    refine ⟨.value (some e.value), t', _, pre, ?_, .remove he, hh⟩
    rw [Trie.call, hrun]
    rfl
  · obtain ⟨v, t', σ', hrun, hstep, hh⟩ := h.removeKey key
    refine ⟨.value v, t', σ', pre, ?_, hstep, hh⟩
    rw [Trie.call, hrun]
    rfl

theorem Holds.served (hw : 1 ≤ w) (calls : List (Call w V)) : Served σ t calls := by
  induction calls generalizing pre σ t with
  | nil => trivial
  | cons c calls ih =>
    intro hlegal
    obtain ⟨answer, t', σ', pre', hrun, hstep, hh⟩ := h.call hw hlegal
    exact ⟨answer, t', σ', hrun, hstep, ih hh⟩

end Runs

/-- Every sequence of calls on a trie of keys of at least one bit is answered from its entries. -/
theorem answers {w : ℕ} {V : Type} (calls : List (Call (w + 1) V)) :
    Served (fun _ => none) (empty : Trie (w + 1) V) calls :=
  holds_empty.served (Nat.le_add_left 1 w) calls

/-- Two widths past the end of the key are the same width. -/
theorem widths_past_key :
    (do
      let (n, t) ← (empty : Trie 8 ℕ).insert 0 8 (some 1)
      let (m, _) ← t.insert 0 9 (some 2)
      pure (n, m)) = .error (.assertion "!node->value") := by
  rfl

end Gem5Nvm.Trie
