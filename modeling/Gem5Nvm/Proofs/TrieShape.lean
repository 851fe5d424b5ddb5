import Gem5Nvm.Trie

/-!
# The shape of a trie

The nodes form a tree of prefixes: a kid holds a longer prefix that starts with that of its parent,
and the two kids of a node go on with different bits (`Shape`).  What a node holds never changes, so
it is said by address.
-/

namespace Gem5Nvm.Trie

open Function (update update_eq_self update_of_ne update_self)
open Prefix (Agree)

/-- The first `len` bits of `key`. -/
structure Pre (w : ℕ) where
  len : ℕ
  key : BitVec w

variable {w : ℕ} {V : Type} {t : Trie w V} {pre : ℕ → Pre w} {n c k p : ℕ} {N C K P P' : Node w V}
  {a b : Pre w} {i : Fin 2} {v : Option V}

/-- The prefix `a` is a proper one of `b`. -/
def Pre.Below (a b : Pre w) : Prop := a.len < b.len ∧ Agree a.len a.key b.key

theorem Pre.Below.trans {a b c : Pre w} (h : a.Below b) (h' : b.Below c) : a.Below c :=
  ⟨h.1.trans h'.1, h.2.trans (h'.2.mono h.1.le)⟩

/-- The bit after the first `l`. -/
def Pre.next (a : Pre w) (l : ℕ) : Bool := a.key.getMsbD l

theorem Pre.Below.next_eq (h : a.Below b) {l : ℕ} (hl : l < a.len) : a.next l = b.next l := h.2 l hl

/-- The node at `c` is a kid. -/
def Node.IsKid (N : Node w V) (c : ℕ) : Prop := N.kid0 = some c ∨ N.kid1 = some c

/-- The shape of a trie whose nodes hold the prefixes `pre`. -/
structure Shape (pre : ℕ → Pre w) (t : Trie w V) : Prop where
  head : ∃ N, t.heap 0 = some N ∧ N.parent = none ∧ N.value = none
  head_len : (pre 0).len = 0
  fresh : ∀ n, t.next ≤ n → t.heap n = none
  holds : ∀ n N, t.heap n = some N → (pre n).len ≤ w ∧ N.mask = Prefix.mask w (pre n).len ∧
    N.key = (pre n).key ∧ N.key &&& N.mask = N.key
  up : ∀ n N, t.heap n = some N → n ≠ 0 →
    ∃ p P, N.parent = some p ∧ t.heap p = some P ∧ P.IsKid n
  down : ∀ n N c, t.heap n = some N → N.IsKid c →
    (∃ C, t.heap c = some C ∧ C.parent = some n) ∧ (pre n).Below (pre c)
  apart : ∀ n N c, t.heap n = some N → N.kid1 = some c →
    ∃ c₀, N.kid0 = some c₀ ∧ (pre c₀).next (pre n).len ≠ (pre c).next (pre n).len

/-- Nodes without a value, except those of `X`, have two kids. -/
def Inner (X : ℕ → Prop) (t : Trie w V) : Prop :=
  ∀ n N, t.heap n = some N → n ≠ 0 → ¬ X n → N.value = none → N.kid1 ≠ none

section Kids

theorem isKid_setKid (hnone : N.kid i = none) :
    (N.setKid (some c) i).IsKid k ↔ k = c ∨ N.IsKid k := by
  rcases i with ⟨_ | _ | _, hi⟩
  · have h0 : N.kid0 = none := hnone
    simp [Node.setKid, Node.IsKid, h0, eq_comm]
  · have h1 : N.kid1 = none := hnone
    simp [Node.setKid, Node.IsKid, h1, eq_comm, or_comm]
  · omega

theorem isKid_setKid_some (hk : N.kid i = some k)
    (hne : ∀ c c', N.kid0 = some c → N.kid1 = some c' → c ≠ c') :
    (N.setKid (some c) i).IsKid n ↔ n = c ∨ N.IsKid n ∧ n ≠ k := by
  rcases i with ⟨_ | _ | _, hi⟩
  · have h0 : N.kid0 = some k := hk
    have h1 : N.kid1 = some n → n ≠ k := fun h1 => (hne k n h0 h1).symm
    simp only [Node.setKid, Node.IsKid, h0, Option.some.injEq, eq_comm (a := c), eq_comm (a := k)]
    tauto
  · have h1 : N.kid1 = some k := hk
    have h0 : N.kid0 = some n → n ≠ k := fun h0 => hne n k h0 h1
    simp only [Node.setKid, Node.IsKid, h1, Option.some.injEq, eq_comm (a := c), eq_comm (a := k)]
    tauto
  · omega

theorem isKid_of_kid (h : N.kid i = some c) : N.IsKid c := by
  rcases i with ⟨_ | _ | _, hi⟩
  · exact .inl h
  · exact .inr h
  · omega

variable {x : Option ℕ}

@[simp] theorem setKid_key : (N.setKid x i).key = N.key := by
  rcases i with ⟨_ | _ | _, hi⟩
  · rfl
  · rfl
  · omega

@[simp] theorem setKid_mask : (N.setKid x i).mask = N.mask := by
  rcases i with ⟨_ | _ | _, hi⟩
  · rfl
  · rfl
  · omega

@[simp] theorem setKid_parent : (N.setKid x i).parent = N.parent := by
  rcases i with ⟨_ | _ | _, hi⟩
  · rfl
  · rfl
  · omega

@[simp] theorem setKid_value : (N.setKid x i).value = N.value := by
  rcases i with ⟨_ | _ | _, hi⟩
  · rfl
  · rfl
  · omega

end Kids

namespace Shape

variable (h : Shape pre t)

include h

theorem ne_next (hn : t.heap n = some N) : n ≠ t.next := by
  rintro rfl
  rw [h.fresh _ le_rfl] at hn
  cases hn

theorem lt_next (hn : t.heap n = some N) : n < t.next := by
  by_contra hge
  rw [h.fresh n (by omega)] at hn
  cases hn

theorem parent_of_isKid (hc : t.heap c = some C) (hn : t.heap n = some N) (hkid : N.IsKid c) :
    C.parent = some n := by
  obtain ⟨⟨C', hc', hpar⟩, -⟩ := h.down n N c hn hkid
  obtain rfl := Option.some.inj (hc.symm.trans hc')
  exact hpar

theorem ne_of_isKid (hn : t.heap n = some N) (hkid : N.IsKid c) : c ≠ n := by
  rintro rfl
  exact absurd (h.down c N c hn hkid).2.1 (lt_irrefl _)

theorem ne_zero_of_isKid (hn : t.heap n = some N) (hkid : N.IsKid c) : c ≠ 0 := by
  rintro rfl
  have := (h.down n N 0 hn hkid).2.1
  rw [h.head_len] at this
  omega

theorem kid1_eq_none (hn : t.heap n = some N) (h0 : N.kid0 = none) : N.kid1 = none := by
  rcases h1 : N.kid1 with _ | c
  · rfl
  · obtain ⟨c₀, hc₀, -⟩ := h.apart n N c hn h1
    rw [h0] at hc₀
    cases hc₀

theorem kid_ne (hn : t.heap n = some N) (h0 : N.kid0 = some c) (h1 : N.kid1 = some k) : c ≠ k := by
  rintro rfl
  obtain ⟨c₀, hc₀, hne⟩ := h.apart n N c hn h1
  rw [h0, Option.some.injEq] at hc₀
  exact hne (hc₀ ▸ rfl)

end Shape

section Changes

theorem update_eq_some {α : Type*} {f : ℕ → Option α} {a x : ℕ} {u y : α}
    (h : update f a (some u) x = some y) : x = a ∧ y = u ∨ x ≠ a ∧ f x = some y := by
  rcases eq_or_ne x a with rfl | hne
  · rw [update_self] at h
    exact .inl ⟨rfl, (Option.some.inj h).symm⟩
  · rw [update_of_ne hne] at h
    exact .inr ⟨hne, h⟩

theorem Shape.setValue (h : Shape pre t) (hn : t.heap n = some N) (hne : n ≠ 0) (v : Option V) :
    Shape pre (t.write n { N with value := v }) := by
  have hkeep : ∀ {x X}, x ≠ n → t.heap x = some X →
      (t.write n { N with value := v }).heap x = some X := fun hxn hx =>
    (update_of_ne hxn ..).trans hx
  have hat : (t.write n { N with value := v }).heap n = some { N with value := v } :=
    update_self ..
  refine ⟨?_, h.head_len, fun x hx => ?_, fun x X hx => ?_, fun x X hx hx0 => ?_,
    fun x X c hx hkid => ?_, fun x X c hx hkid => ?_⟩
  · obtain ⟨H, hH, hrest⟩ := h.head
    exact ⟨H, hkeep hne.symm hH, hrest⟩
  · exact (update_of_ne (h.lt_next hn |>.trans_le hx).ne' ..).trans (h.fresh x hx)
  · rcases update_eq_some hx with ⟨rfl, rfl⟩ | ⟨-, hx⟩
    · exact h.holds x N hn
    · exact h.holds x X hx
  · have hup : ∀ {X₀}, t.heap x = some X₀ → X.parent = X₀.parent → ∃ p P, X.parent = some p ∧
        (t.write n { N with value := v }).heap p = some P ∧ P.IsKid x := by
      intro X₀ hX₀ hpar
      obtain ⟨p, P, hp, hP, hkid⟩ := h.up x X₀ hX₀ hx0
      rcases eq_or_ne p n with rfl | hpn
      · obtain rfl := Option.some.inj (hn.symm.trans hP)
        exact ⟨p, _, hpar.trans hp, hat, hkid⟩
      · exact ⟨p, P, hpar.trans hp, hkeep hpn hP, hkid⟩
    rcases update_eq_some hx with ⟨rfl, rfl⟩ | ⟨-, hx⟩
    · exact hup hn rfl
    · exact hup hx rfl
  · have hdown : ∀ {X₀}, t.heap x = some X₀ → X₀.IsKid c →
        (∃ C, (t.write n { N with value := v }).heap c = some C ∧ C.parent = some x) ∧
          (pre x).Below (pre c) := by
      intro X₀ hX₀ hkid
      obtain ⟨⟨C, hC, hpar⟩, hbelow⟩ := h.down x X₀ c hX₀ hkid
      rcases eq_or_ne c n with rfl | hcn
      · obtain rfl := Option.some.inj (hn.symm.trans hC)
        exact ⟨⟨_, hat, hpar⟩, hbelow⟩
      · exact ⟨⟨C, hkeep hcn hC, hpar⟩, hbelow⟩
    rcases update_eq_some hx with ⟨rfl, rfl⟩ | ⟨-, hx⟩
    · exact hdown hn hkid
    · exact hdown hx hkid
  · rcases update_eq_some hx with ⟨rfl, rfl⟩ | ⟨-, hx⟩
    · exact h.apart x N c hn hkid
    · exact h.apart x X c hx hkid

/-- A node with a prefix and no kids. -/
def leaf (a : Pre w) (v : Option V) (p : ℕ) : Node w V :=
  ⟨a.key, Prefix.mask w a.len, v, some p, none, none⟩

def Pre.Ok (a : Pre w) : Prop := a.len ≤ w ∧ a.key &&& Prefix.mask w a.len = a.key

theorem Shape.pre_update (h : Shape pre t) (hn : t.heap n = some N) :
    update pre t.next a n = pre n := update_of_ne (h.ne_next hn) ..

/-- The kids of an old node still go on with different bits. -/
theorem Shape.apart_update (h : Shape pre t) (hn : t.heap n = some N) (hc : N.kid1 = some c) :
    ∃ c₀, N.kid0 = some c₀ ∧ (update pre t.next a c₀).next (update pre t.next a n).len
      ≠ (update pre t.next a c).next (update pre t.next a n).len := by
  obtain ⟨c₀, hc₀, hbits⟩ := h.apart n N c hn hc
  obtain ⟨⟨C₀, hC₀, -⟩, -⟩ := h.down n N c₀ hn (.inl hc₀)
  obtain ⟨⟨C, hC, -⟩, -⟩ := h.down n N c hn (.inr hc)
  refine ⟨c₀, hc₀, ?_⟩
  rwa [h.pre_update hn, h.pre_update hC₀, h.pre_update hC]

section Attach

variable (h : Shape pre t) (hn : t.heap n = some N) (ha : a.Ok) (hbelow : (pre n).Below a)
  (hnone : N.kid i = none)

/-- The trie with a leaf more, at the kid `i` of the node `n`. -/
def attached (t : Trie w V) (n : ℕ) (N : Node w V) (a : Pre w) (v : Option V) (i : Fin 2) :
    Trie w V :=
  (t.alloc (leaf a v n)).write n (N.setKid (some t.next) i)

theorem attached_self : (attached t n N a v i).heap n = some (N.setKid (some t.next) i) :=
  update_self ..

variable {x : ℕ}

theorem attached_cases {X : Node w V} (hx : (attached t n N a v i).heap x = some X) :
    x = n ∧ X = N.setKid (some t.next) i ∨ x = t.next ∧ X = leaf a v n ∨
      x ≠ n ∧ t.heap x = some X := by
  rcases update_eq_some hx with hx | ⟨hxn, hx⟩
  · exact .inl hx
  · rcases update_eq_some hx with hx | ⟨-, hx⟩
    · exact .inr (.inl hx)
    · exact .inr (.inr ⟨hxn, hx⟩)

include h hn

theorem attached_next : (attached t n N a v i).heap t.next = some (leaf a v n) :=
  (update_of_ne (h.ne_next hn).symm ..).trans (update_self ..)

variable {X : Node w V}

omit hn in
theorem attached_of_ne (hxn : x ≠ n) (hx : t.heap x = some X) :
    (attached t n N a v i).heap x = some X :=
  (update_of_ne hxn ..).trans ((update_of_ne (h.ne_next hx) ..).trans hx)

include hnone in
theorem attached_up {x : ℕ} {X : Node w V} (hx : (attached t n N a v i).heap x = some X)
    (hx0 : x ≠ 0) :
    ∃ p P, X.parent = some p ∧ (attached t n N a v i).heap p = some P ∧ P.IsKid x := by
  have hold : ∀ {X₀}, t.heap x = some X₀ → X.parent = X₀.parent → ∃ p P, X.parent = some p ∧
      (attached t n N a v i).heap p = some P ∧ P.IsKid x := by
    intro X₀ hX₀ hpar
    obtain ⟨p, P, hp, hP, hkid⟩ := h.up x X₀ hX₀ hx0
    rcases eq_or_ne p n with rfl | hpn
    · obtain rfl := Option.some.inj (hn.symm.trans hP)
      exact ⟨p, _, hpar.trans hp, attached_self, (isKid_setKid hnone).2 (.inr hkid)⟩
    · exact ⟨p, P, hpar.trans hp, attached_of_ne h hpn hP, hkid⟩
  rcases attached_cases hx with ⟨rfl, rfl⟩ | ⟨rfl, rfl⟩ | ⟨-, hx⟩
  · exact hold hn setKid_parent
  · exact ⟨n, _, rfl, attached_self, (isKid_setKid hnone).2 (.inl rfl)⟩
  · exact hold hx rfl

include hnone hbelow in
theorem attached_down {x : ℕ} {X : Node w V} (hx : (attached t n N a v i).heap x = some X)
    (hkid : X.IsKid c) : (∃ C, (attached t n N a v i).heap c = some C ∧ C.parent = some x) ∧
      (update pre t.next a x).Below (update pre t.next a c) := by
  have hold : ∀ {X₀}, t.heap x = some X₀ → X₀.IsKid c →
      (∃ C, (attached t n N a v i).heap c = some C ∧ C.parent = some x) ∧
        (update pre t.next a x).Below (update pre t.next a c) := by
    intro X₀ hX₀ hkid
    obtain ⟨⟨C, hC, hpar⟩, hbelow⟩ := h.down x X₀ c hX₀ hkid
    rw [h.pre_update hX₀, h.pre_update hC]
    refine ⟨?_, hbelow⟩
    rcases eq_or_ne c n with rfl | hcn
    · obtain rfl := Option.some.inj (hn.symm.trans hC)
      exact ⟨_, attached_self, setKid_parent.trans hpar⟩
    · exact ⟨C, attached_of_ne h hcn hC, hpar⟩
  rcases attached_cases hx with ⟨rfl, rfl⟩ | ⟨rfl, rfl⟩ | ⟨-, hx⟩
  · rcases (isKid_setKid hnone).1 hkid with rfl | hkid
    · rw [h.pre_update hn, update_self]
      exact ⟨⟨_, attached_next h hn, rfl⟩, hbelow⟩
    · exact hold hn hkid
  · rcases hkid with hkid | hkid <;> cases hkid
  · exact hold hx hkid

include ha hbelow hnone in
/-- A leaf may be attached where there is no kid. -/
theorem Shape.attach (hfirst : i = 1 → ∃ c, N.kid0 = some c ∧
      (pre c).next (pre n).len ≠ a.next (pre n).len) :
    Shape (update pre t.next a) (attached t n N a v i) := by
  refine ⟨?_, ?_, fun x hx => ?_, fun x X hx => ?_, fun x X => attached_up h hn hnone,
    fun x X c => attached_down h hn hbelow hnone, fun x X c hx hkid => ?_⟩
  · obtain ⟨H, hH, hpar, hval⟩ := h.head
    rcases eq_or_ne 0 n with rfl | h0
    · obtain rfl := Option.some.inj (hn.symm.trans hH)
      exact ⟨_, attached_self, setKid_parent.trans hpar, setKid_value.trans hval⟩
    · exact ⟨H, attached_of_ne h h0 hH, hpar, hval⟩
  · obtain ⟨H, hH, -⟩ := h.head
    rw [h.pre_update hH, h.head_len]
  · have hxt : t.next + 1 ≤ x := hx
    exact (update_of_ne ((h.lt_next hn).trans hxt).ne' ..).trans
      ((update_of_ne (by omega) ..).trans (h.fresh x (by omega)))
  · rcases attached_cases hx with ⟨rfl, rfl⟩ | ⟨rfl, rfl⟩ | ⟨-, hx⟩
    · rw [h.pre_update hn, setKid_mask, setKid_key]
      exact h.holds x N hn
    · rw [update_self]
      exact ⟨ha.1, rfl, rfl, ha.2⟩
    · rw [h.pre_update hx]
      exact h.holds x X hx
  · rcases attached_cases hx with ⟨rfl, rfl⟩ | ⟨rfl, rfl⟩ | ⟨-, hx⟩
    · rcases i with ⟨_ | _ | _, hi⟩
      · exact absurd ((h.kid1_eq_none hn hnone).symm.trans hkid) (by simp)
      · obtain ⟨c₀, hc₀, hbit⟩ := hfirst rfl
        obtain rfl : t.next = c := Option.some.inj hkid
        obtain ⟨⟨C₀, hC₀, -⟩, -⟩ := h.down x N c₀ hn (.inl hc₀)
        refine ⟨c₀, hc₀, ?_⟩
        rwa [h.pre_update hn, h.pre_update hC₀, update_self]
      · omega
    · cases hkid
    · exact h.apart_update hx hkid

end Attach

section Divide

variable (h : Shape pre t) (hn : t.heap n = some N) (hkid : N.kid i = some k)
  (hk : t.heap k = some K) (ha : a.Ok) (hna : (pre n).Below a) (hak : a.Below (pre k))

/-- The node on the way to the kid `k`. -/
def middle (a : Pre w) (n k : ℕ) : Node w V := { leaf a none n with kid0 := some k }

/-- The trie with a node more, between the node `n` and its kid `i`. -/
def divided (t : Trie w V) (n : ℕ) (N : Node w V) (k : ℕ) (K : Node w V) (a : Pre w) (i : Fin 2) :
    Trie w V :=
  (((t.alloc (leaf a none n)).write k { K with parent := some t.next }).write t.next
    (middle a n k)).write n (N.setKid (some t.next) i)

theorem divided_self : (divided t n N k K a i).heap n = some (N.setKid (some t.next) i) :=
  update_self ..

theorem divided_cases (hx : (divided t n N k K a i).heap x = some X) :
    x = n ∧ X = N.setKid (some t.next) i ∨ x = t.next ∧ X = middle a n k ∨
      x = k ∧ X = { K with parent := some t.next } ∨ x ≠ n ∧ x ≠ k ∧ t.heap x = some X := by
  rcases update_eq_some hx with hx | ⟨hxn, hx⟩
  · exact .inl hx
  rcases update_eq_some hx with hx | ⟨hxm, hx⟩
  · exact .inr (.inl hx)
  rcases update_eq_some hx with hx | ⟨hxk, hx⟩
  · exact .inr (.inr (.inl hx))
  · rcases update_eq_some hx with ⟨hx, -⟩ | ⟨-, hx⟩
    · exact absurd hx hxm
    · exact .inr (.inr (.inr ⟨hxn, hxk, hx⟩))

include h hn

theorem divided_mid : (divided t n N k K a i).heap t.next = some (middle a n k) :=
  (update_of_ne (h.ne_next hn).symm ..).trans (update_self ..)

include hkid hk in
theorem divided_kid :
    (divided t n N k K a i).heap k = some { K with parent := some t.next } :=
  (update_of_ne (h.ne_of_isKid hn (isKid_of_kid hkid)) ..).trans
    ((update_of_ne (h.ne_next hk) ..).trans (update_self ..))

omit hn in
theorem divided_of_ne (hxn : x ≠ n) (hxk : x ≠ k) (hx : t.heap x = some X) :
    (divided t n N k K a i).heap x = some X :=
  (update_of_ne hxn ..).trans ((update_of_ne (h.ne_next hx) ..).trans
    ((update_of_ne hxk ..).trans ((update_of_ne (h.ne_next hx) ..).trans hx)))

include hkid in
theorem isKid_divided {x : ℕ} :
    (N.setKid (some t.next) i).IsKid x ↔ x = t.next ∨ N.IsKid x ∧ x ≠ k :=
  isKid_setKid_some hkid fun _ _ => h.kid_ne hn

theorem divided_parent (hx : t.heap x = some X) (hxk : x ≠ k) :
    ∃ X', (divided t n N k K a i).heap x = some X' ∧ X'.parent = X.parent := by
  rcases eq_or_ne x n with rfl | hxn
  · obtain rfl := Option.some.inj (hn.symm.trans hx)
    exact ⟨_, divided_self, setKid_parent⟩
  · exact ⟨X, divided_of_ne h hxn hxk hx, rfl⟩

include hkid hk in
theorem divided_isKid {x : ℕ} (hp : t.heap p = some P) (hx : P.IsKid x) (hxk : x ≠ k) :
    ∃ P', (divided t n N k K a i).heap p = some P' ∧ P'.IsKid x := by
  rcases eq_or_ne p n with rfl | hpn
  · obtain rfl := Option.some.inj (hn.symm.trans hp)
    exact ⟨_, divided_self, (isKid_divided h hn hkid).2 (.inr ⟨hx, hxk⟩)⟩
  rcases eq_or_ne p k with rfl | hpk
  · obtain rfl := Option.some.inj (hk.symm.trans hp)
    exact ⟨_, divided_kid h hn hkid hk, hx⟩
  · exact ⟨P, divided_of_ne h hpn hpk hp, hx⟩

include hkid hk in
theorem divided_up {x : ℕ} {X : Node w V} (hx : (divided t n N k K a i).heap x = some X)
    (hx0 : x ≠ 0) :
    ∃ p P, X.parent = some p ∧ (divided t n N k K a i).heap p = some P ∧ P.IsKid x := by
  have hold : ∀ {X₀}, t.heap x = some X₀ → x ≠ k → X.parent = X₀.parent →
      ∃ p P, X.parent = some p ∧ (divided t n N k K a i).heap p = some P ∧ P.IsKid x := by
    intro X₀ hX₀ hxk hpar
    obtain ⟨p, P, hp, hP, hPx⟩ := h.up x X₀ hX₀ hx0
    obtain ⟨P', hP', hPx'⟩ := divided_isKid h hn hkid hk hP hPx hxk
    exact ⟨p, P', hpar.trans hp, hP', hPx'⟩
  rcases divided_cases hx with ⟨rfl, rfl⟩ | ⟨rfl, rfl⟩ | ⟨rfl, rfl⟩ | ⟨-, hxk, hx⟩
  · exact hold hn (h.ne_of_isKid hn (isKid_of_kid hkid)).symm setKid_parent
  · exact ⟨n, _, rfl, divided_self, (isKid_divided h hn hkid).2 (.inl rfl)⟩
  · exact ⟨t.next, _, rfl, divided_mid h hn, .inl rfl⟩
  · exact hold hx hxk rfl

include hkid hk hna hak in
theorem divided_down {x : ℕ} {X : Node w V} (hx : (divided t n N k K a i).heap x = some X)
    (hc : X.IsKid c) : (∃ C, (divided t n N k K a i).heap c = some C ∧ C.parent = some x) ∧
      (update pre t.next a x).Below (update pre t.next a c) := by
  have hold : ∀ {X₀}, t.heap x = some X₀ → X₀.IsKid c → c ≠ k →
      (∃ C, (divided t n N k K a i).heap c = some C ∧ C.parent = some x) ∧
        (update pre t.next a x).Below (update pre t.next a c) := by
    intro X₀ hX₀ hc hck
    obtain ⟨⟨C, hC, hpar⟩, hbelow⟩ := h.down x X₀ c hX₀ hc
    obtain ⟨C', hC', hpar'⟩ := divided_parent (a := a) h hn hC hck
    rw [h.pre_update hX₀, h.pre_update hC]
    exact ⟨⟨C', hC', hpar'.trans hpar⟩, hbelow⟩
  rcases divided_cases hx with ⟨rfl, rfl⟩ | ⟨rfl, rfl⟩ | ⟨rfl, rfl⟩ | ⟨hxn, -, hX⟩
  · rcases (isKid_divided h hn hkid).1 hc with rfl | ⟨hc, hck⟩
    · rw [h.pre_update hn, update_self]
      exact ⟨⟨_, divided_mid h hn, rfl⟩, hna⟩
    · exact hold hn hc hck
  · rcases hc with hc | hc
    · obtain rfl : k = c := Option.some.inj hc
      rw [h.pre_update hk, update_self]
      exact ⟨⟨_, divided_kid h hn hkid hk, rfl⟩, hak⟩
    · cases hc
  · exact hold hk hc (h.ne_of_isKid hk hc)
  · refine hold hX hc ?_
    -- a node is a kid of its parent alone
    rintro rfl
    have hpar := h.parent_of_isKid hk hn (isKid_of_kid hkid)
    rw [h.parent_of_isKid hk hX hc, Option.some.injEq] at hpar
    exact hxn hpar

include hkid hk ha hna hak in
/-- A node may be put on the way to a kid. -/
theorem Shape.divide : Shape (update pre t.next a) (divided t n N k K a i) := by
  refine ⟨?_, ?_, fun x hx => ?_, fun x X hx => ?_, fun x X => divided_up h hn hkid hk,
    fun x X c => divided_down h hn hkid hk hna hak, fun x X c hx hc => ?_⟩
  · obtain ⟨H, hH, hpar, hval⟩ := h.head
    rcases eq_or_ne 0 n with rfl | h0
    · obtain rfl := Option.some.inj (hn.symm.trans hH)
      exact ⟨_, divided_self, setKid_parent.trans hpar, setKid_value.trans hval⟩
    · exact ⟨H, divided_of_ne h h0 (h.ne_zero_of_isKid hn (isKid_of_kid hkid)).symm hH, hpar, hval⟩
  · obtain ⟨H, hH, -⟩ := h.head
    rw [h.pre_update hH, h.head_len]
  · have hxt : t.next + 1 ≤ x := hx
    exact (update_of_ne ((h.lt_next hn).trans hxt).ne' ..).trans
      ((update_of_ne (by omega) ..).trans
        ((update_of_ne ((h.lt_next hk).trans hxt).ne' ..).trans
          ((update_of_ne (by omega) ..).trans (h.fresh x (by omega)))))
  · rcases divided_cases hx with ⟨rfl, rfl⟩ | ⟨rfl, rfl⟩ | ⟨rfl, rfl⟩ | ⟨-, -, hx⟩
    · rw [h.pre_update hn, setKid_mask, setKid_key]
      exact h.holds x N hn
    · rw [update_self]
      exact ⟨ha.1, rfl, rfl, ha.2⟩
    · rw [h.pre_update hk]
      exact h.holds x K hk
    · rw [h.pre_update hx]
      exact h.holds x X hx
  · rcases divided_cases hx with ⟨rfl, rfl⟩ | ⟨rfl, rfl⟩ | ⟨rfl, rfl⟩ | ⟨-, -, hx⟩
    · -- the new node goes on as the kid behind it
      rcases i with ⟨_ | _ | _, hi⟩
      · obtain ⟨c₀, hc₀, hbits⟩ := h.apart_update hn hc
        obtain rfl : k = c₀ := Option.some.inj (Eq.trans (Eq.symm hkid) hc₀)
        refine ⟨t.next, rfl, ?_⟩
        rw [h.pre_update hk] at hbits
        rwa [update_self, hak.next_eq ((h.pre_update hn ▸ hna.1))]
      · obtain rfl : t.next = c := Option.some.inj hc
        obtain ⟨c₀, hc₀, hbits⟩ := h.apart_update hn hkid
        refine ⟨c₀, hc₀, ?_⟩
        rw [h.pre_update hk] at hbits
        rwa [update_self, hak.next_eq ((h.pre_update hn ▸ hna.1))]
      · omega
    · cases hc
    · exact h.apart_update (N := K) hk hc
    · exact h.apart_update hx hc

end Divide

end Changes

section Values

def values (t : Trie w V) (n : ℕ) : Option V := (t.heap n).bind Node.value

theorem values_of_heap (hn : t.heap n = some N) : t.values n = N.value := by
  rw [values, hn, Option.bind_some]

theorem heap_of_values {u : V} (hn : t.values n = some u) :
    ∃ N, t.heap n = some N ∧ N.value = some u := by
  obtain ⟨N, hN, hval⟩ := Option.bind_eq_some_iff.1 hn
  exact ⟨N, hN, hval⟩

theorem values_write : (t.write n N).values = update t.values n N.value := by
  funext x
  rcases eq_or_ne x n with rfl | hne
  · rw [update_self]
    exact values_of_heap (update_self ..)
  · rw [update_of_ne hne]
    exact congrArg (Option.bind · Node.value) (update_of_ne hne ..)

theorem values_write_eq (hn : t.values n = N.value) : (t.write n N).values = t.values := by
  rw [values_write, ← hn, update_eq_self]

theorem values_alloc : (t.alloc N).values = update t.values t.next N.value :=
  values_write

theorem values_delete : (t.delete n).values = update t.values n none := by
  funext x
  rcases eq_or_ne x n with rfl | hne
  · have hx : (t.delete x).heap x = none := update_self ..
    rw [update_self, values, hx, Option.bind_none]
  · rw [update_of_ne hne]
    exact congrArg (Option.bind · Node.value) (update_of_ne hne ..)

theorem Shape.values_next (h : Shape pre t) : t.values t.next = none := by
  rw [values, h.fresh _ le_rfl, Option.bind_none]

theorem values_attached (h : Shape pre t) (hn : t.heap n = some N) :
    (attached t n N a v i).values = update t.values t.next v := by
  rw [attached, values_write_eq, values_alloc, leaf]
  rw [values_alloc, update_of_ne (h.ne_next hn), setKid_value, values_of_heap hn]

theorem values_divided (h : Shape pre t) (hn : t.heap n = some N) (hk : t.heap k = some K) :
    (divided t n N k K a i).values = t.values := by
  have halloc : (t.alloc (leaf a none n)).values = t.values := by
    rw [values_alloc, leaf, ← h.values_next, update_eq_self]
  rw [divided, values_write_eq, values_write_eq, values_write_eq, halloc]
  · rw [halloc, values_of_heap hk]
  · rw [values_write_eq, halloc, h.values_next]
    · rfl
    · rw [halloc, values_of_heap hk]
  · rw [values_write_eq, values_write_eq, halloc, values_of_heap hn, setKid_value]
    · rw [halloc, values_of_heap hk]
    · rw [values_write_eq, halloc, h.values_next]
      · rfl
      · rw [halloc, values_of_heap hk]

end Values

section InnerNodes

variable {X : ℕ → Prop}

theorem Inner.setValue {u : V} (h : Inner (fun x => X x ∨ x = n) t) :
    Inner X (t.write n { N with value := some u }) := by
  intro x Y hx hx0 hX hval
  rcases update_eq_some hx with ⟨rfl, rfl⟩ | ⟨hxn, hx⟩
  · cases hval
  · exact h x Y hx hx0 (not_or.2 ⟨hX, hxn⟩) hval

theorem Inner.attach {u : V} (h : Inner (fun x => X x ∨ i = 1 ∧ x = n) t)
    (hn : t.heap n = some N) : Inner X (attached t n N a (some u) i) := by
  intro x Y hx hx0 hX hval
  rcases attached_cases hx with ⟨rfl, rfl⟩ | ⟨rfl, rfl⟩ | ⟨hxn, hx⟩
  · rcases i with ⟨_ | _ | _, hi⟩
    · exact h x N hn hx0 (by simpa using hX) hval
    · exact Option.some_ne_none _
    · omega
  · cases hval
  · exact h x Y hx hx0 (by tauto) hval

theorem Inner.divide (h : Inner X t) (hn : t.heap n = some N) (hk : t.heap k = some K) :
    Inner (fun x => X x ∨ x = t.next) (divided t n N k K a i) := by
  intro x Y hx hx0 hX hval
  obtain ⟨hX, hxm⟩ := not_or.1 hX
  rcases divided_cases hx with ⟨rfl, rfl⟩ | ⟨rfl, rfl⟩ | ⟨rfl, rfl⟩ | ⟨-, -, hx⟩
  · rw [setKid_value] at hval
    have h1 := h x N hn hx0 hX hval
    rcases i with ⟨_ | _ | _, hi⟩
    · exact h1
    · exact Option.some_ne_none _
    · omega
  · exact absurd rfl hxm
  · exact h x K hk hx0 hX hval
  · exact h x Y hx hx0 hX hval

end InnerNodes

end Gem5Nvm.Trie
