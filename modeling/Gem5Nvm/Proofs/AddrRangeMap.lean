import Gem5Nvm.Lib.SortedMap
import Gem5Nvm.RangeMapLookup

/-!
# Lookups and insertions of the interval map

What the lookups and the insertion of the map answer, and what they leave of its tree.
-/

namespace Gem5Nvm

namespace AddrRange

theorem lt_iff {r s : AddrRange} : r.lt s = true ↔
    r.start < s.start ∨ r.start = s.start ∧ r.intlvMatch < s.intlvMatch := by
  unfold lt
  split_ifs with h <;> simp only [decide_eq_true_eq] <;> omega

theorem mergesWith_iff {r s : AddrRange} : r.mergesWith s = true ↔
    s.start = r.start ∧ s.end_ = r.end_ ∧ s.masks = r.masks := by
  simp [mergesWith]

theorem interleaved_iff {r : AddrRange} : r.interleaved = true ↔ r.masks ≠ [] := by
  simp [interleaved, List.length_pos_iff]

theorem contains_iff {r : AddrRange} {a : ℕ} : r.contains a = true ↔
    r.start ≤ a ∧ a < r.end_ ∧ r.sel a = r.intlvMatch := by
  simp [contains]

end AddrRange

namespace AddrRangeMap

variable {V : Type} {m m' : AddrRangeMap V} {r : AddrRange} {cond : AddrRange → Sim Bool}

variable {n : RangeNode V}

theorem deref_mem {it : ℕ} (h : m.deref it = .ok n) : n ∈ m.tree := by
  unfold deref at h
  split at h
  · next heq =>
    cases h
    exact List.mem_of_find?_eq_some heq
  · cases h

theorem deref_of_mem {it : ℕ} (h : ∃ n ∈ m.tree, n.id = it) : ∃ n ∈ m.tree, m.deref it = .ok n := by
  obtain ⟨n, hn, hid⟩ := h
  have hsome : (m.tree.find? fun n => n.id = it).isSome := by
    rw [List.find?_isSome]
    exact ⟨n, hn, by simpa using hid⟩
  obtain ⟨n', hn'⟩ := Option.isSome_iff_exists.1 hsome
  exact ⟨n', List.mem_of_find?_eq_some hn', by simp [deref, hn']⟩

theorem findCached_some : ∀ {cs : List ℕ} {n : RangeNode V},
    m.findCached cond cs = .ok (some n) → n ∈ m.tree ∧ cond n.first = .ok true
  | [], n, h => by cases h
  | c :: cs, n, h => by
    obtain ⟨it, hit, b, hb, h⟩ := Sim.bind₂_eq_ok.1 h
    cases b with
    | true =>
      cases h
      exact ⟨deref_mem hit, hb⟩
    | false => exact findCached_some h

theorem findBack_some : ∀ {l : List (RangeNode V)} {n : RangeNode V},
    findBack cond l = .ok (some n) → n ∈ l ∧ cond n.first = .ok true
  | [], n, h => by cases h
  | [i], n, h => by
    obtain ⟨b, hb, h⟩ := Sim.bind_eq_ok.1 h
    cases b <;> cases h
    exact ⟨List.mem_singleton.2 rfl, hb⟩
  | i :: next :: rest, n, h => by
    obtain ⟨b, hb, h⟩ := Sim.bind_eq_ok.1 h
    cases b with
    | true =>
      cases h
      exact ⟨List.mem_cons_self, hb⟩
    | false =>
      simp only [Bool.false_eq_true, if_false] at h
      split_ifs at h
      · obtain ⟨hn, hc⟩ := findBack_some h
        exact ⟨List.mem_cons_of_mem _ hn, hc⟩
      · cases h

@[simp] theorem addNewEntryToCache_tree (it : ℕ) : (m.addNewEntryToCache it).tree = m.tree := by
  unfold addNewEntryToCache
  split_ifs <;> rfl

theorem upperBound_mem :
    (n ∈ (m.upperBound r).1 → n ∈ m.tree) ∧ (n ∈ (m.upperBound r).2 → n ∈ m.tree) := by
  simp only [upperBound, List.span_eq_takeWhile_dropWhile]
  refine ⟨fun h => ?_, fun h => ?_⟩
  · exact (List.takeWhile_sublist _).subset (List.mem_reverse.1 h)
  · exact (List.dropWhile_sublist _).subset (List.mem_of_mem_head? h)

variable {x : Option (RangeNode V)}

theorem find_inv (h : m.find r cond = .ok (x, m')) :
    (∃ it, m.findCached cond m.cache = .ok (some it) ∧ x = some it ∧
      m' = { m with cache := it.id :: m.cache.erase it.id }) ∨
    m.findCached cond m.cache = .ok none ∧
      ((∃ next ∈ (m.upperBound r).2, cond next.first = .ok true ∧ x = some next ∧
        m' = m.addNewEntryToCache next.id) ∨
      (∀ next ∈ (m.upperBound r).2, cond next.first = .ok false) ∧
        findBack cond (m.upperBound r).1 = .ok x ∧
        m' = x.elim m fun i => m.addNewEntryToCache i.id) := by
  obtain ⟨hit, hc, h⟩ := Sim.bind_eq_ok.1 h
  cases hit with
  | some it =>
    cases h
    exact .inl ⟨it, hc, rfl, rfl⟩
  | none =>
    refine .inr ⟨hc, ?_⟩
    have hback : ∀ f : Option (RangeNode V) → Sim (Option (RangeNode V) × AddrRangeMap V),
        f none = .ok (none, m) → (∀ i, f (some i) = .ok (some i, m.addNewEntryToCache i.id)) →
        findBack cond (m.upperBound r).1 >>= f = .ok (x, m') →
        findBack cond (m.upperBound r).1 = .ok x ∧
          m' = x.elim m fun i => m.addNewEntryToCache i.id := by
      intro f hnone hsome h
      obtain ⟨i, hi, h⟩ := Sim.bind_eq_ok.1 h
      cases i with
      | none =>
        cases hnone.symm.trans h
        exact ⟨hi, rfl⟩
      | some i =>
        cases (hsome i).symm.trans h
        exact ⟨hi, rfl⟩
    dsimp only at h
    split at h
    · next next hnext =>
      rw [hnext]
      obtain ⟨b, hb, h⟩ := Sim.bind_eq_ok.1 h
      cases b with
      | false =>
        refine .inr ⟨?_, hback _ rfl (fun _ => rfl) h⟩
        rintro _ ⟨⟩
        exact hb
      | true =>
        cases h
        exact .inl ⟨next, rfl, hb, rfl, rfl⟩
    · next hnext =>
      exact .inr ⟨fun n hn => (hnext n hn).elim, hback _ rfl (fun _ => rfl) h⟩

/-- The answer of a lookup is a node that meets its condition, and the tree stays as it is. -/
theorem find_cases (h : m.find r cond = .ok (x, m')) :
    m'.tree = m.tree ∧ ∀ n, x = some n → n ∈ m.tree ∧ cond n.first = .ok true := by
  rcases find_inv h with ⟨it, hit, rfl, rfl⟩ | ⟨-, ⟨next, hnext, hc, rfl, rfl⟩ | ⟨-, hback, rfl⟩⟩
  · refine ⟨rfl, ?_⟩
    rintro n ⟨⟩
    exact findCached_some hit
  · refine ⟨by simp, ?_⟩
    rintro n ⟨⟩
    exact ⟨upperBound_mem.2 hnext, hc⟩
  · cases x with
    | none => exact ⟨rfl, by simp⟩
    | some i =>
      refine ⟨by simp, ?_⟩
      rintro n ⟨⟩
      exact ⟨upperBound_mem.1 (findBack_some hback).1, (findBack_some hback).2⟩

theorem findCached_total (hcond : ∀ n ∈ m.tree, ∃ b, cond n.first = .ok b) :
    ∀ {cs : List ℕ}, (∀ c ∈ cs, ∃ n ∈ m.tree, n.id = c) → ∃ x, m.findCached cond cs = .ok x
  | [], _ => ⟨none, rfl⟩
  | c :: cs, h => by
    obtain ⟨n, hn, hd⟩ := deref_of_mem (h c List.mem_cons_self)
    obtain ⟨b, hb⟩ := hcond n hn
    obtain ⟨x, hx⟩ := findCached_total hcond fun c' hc' => h c' (List.mem_cons_of_mem _ hc')
    cases b <;> simp [findCached, hd, hb, hx]

theorem findBack_none : ∀ {l : List (RangeNode V)}, (∀ n ∈ l, cond n.first = .ok false) →
    findBack cond l = .ok none
  | [], _ => rfl
  | [i], h => by simp [findBack, h i]
  | i :: next :: rest, h => by
    have ih := findBack_none (l := next :: rest) fun n hn => h n (List.mem_cons_of_mem _ hn)
    simp only [findBack, h i List.mem_cons_self, Sim.ok_bind, Bool.false_eq_true, if_false, ih]
    split_ifs <;> rfl

/-- A lookup that no node meets answers `end()`. -/
theorem find_none (hm : m.CacheValid) (hcond : ∀ n ∈ m.tree, cond n.first = .ok false) :
    m.find r cond = .ok (none, m) := by
  have hback := findBack_none (l := (m.upperBound r).1) fun n hn => hcond n (upperBound_mem.1 hn)
  obtain ⟨x, hx⟩ := findCached_total (fun n hn => ⟨false, hcond n hn⟩) hm
  rcases x with _ | n
  swap
  · obtain ⟨hn, hc⟩ := findCached_some hx
    simp [hcond n hn] at hc
  simp only [find, hx, Sim.ok_bind, hback]
  split
  · next next hnext => simp [hcond next (upperBound_mem.2 hnext)]
  · rfl

/-- The nodes stand in the order of their ranges. -/
def Sorted (m : AddrRangeMap V) : Prop := m.tree.Pairwise fun a b => a.first.lt b.first = true

theorem upperBound_split (hm : m.Sorted) (r : AddrRange) : ∃ before after,
    m.tree = before ++ after ∧ m.upperBound r = (before.reverse, after.head?) ∧
      (∀ n ∈ before, r.lt n.first = false) ∧ ∀ n ∈ after, r.lt n.first = true := by
  refine ⟨_, _, (List.takeWhile_append_dropWhile (p := fun n => !r.lt n.first)).symm,
    by simp [upperBound, List.span_eq_takeWhile_dropWhile],
    fun n hn => by simpa using List.mem_takeWhile_imp hn, fun n hn => ?_⟩
  have hfront := SortedMap.eq_false_of_mem_dropWhile (q := fun n : RangeNode V => !r.lt n.first)
    (hm.imp fun {a b} hab hb => by
      rw [Bool.not_eq_true', ← Bool.not_eq_true, AddrRange.lt_iff] at hb ⊢
      rw [AddrRange.lt_iff] at hab
      omega) n hn
  simpa using hfront

theorem treeInsert_fresh {d : V} (hm : m.Sorted)
    (hkey : ∀ n ∈ m.tree, r.lt n.first = true ∨ n.first.lt r = true) : ∃ before after,
    m.tree = before ++ after ∧ (∀ n ∈ before, n.first.lt r = true) ∧
      (∀ n ∈ after, r.lt n.first = true) ∧
      m.treeInsert r d = (⟨m.nextId, r, d⟩, { m with
        tree := before ++ ⟨m.nextId, r, d⟩ :: after, nextId := m.nextId + 1 }) := by
  have hnokey : m.tree.find? (fun n => !r.lt n.first && !n.first.lt r) = none := by
    rw [List.find?_eq_none]
    intro n hn
    rcases hkey n hn with h | h <;> simp [h]
  refine ⟨_, _, (List.takeWhile_append_dropWhile (p := fun n => n.first.lt r)).symm,
    fun n hn => ?_, fun n hn => ?_, ?_⟩
  · exact List.mem_takeWhile_imp (p := fun n : RangeNode V => n.first.lt r) hn
  · have hfront := SortedMap.eq_false_of_mem_dropWhile (q := fun n : RangeNode V => n.first.lt r)
      (hm.imp fun {a b} hab hb => by
        rw [AddrRange.lt_iff] at *
        omega) n hn
    exact (hkey n ((List.dropWhile_sublist _).subset hn)).resolve_right (by simp [hfront])
  · simp [treeInsert, hnokey, List.span_eq_takeWhile_dropWhile]

/-- A range that meets none of the tree is put where the order asks for it. -/
theorem insert_fresh {d : V} (hm : m.Sorted) (hv : m.CacheValid)
    (hcond : ∀ n ∈ m.tree, r.intersects n.first = .ok false)
    (hkey : ∀ n ∈ m.tree, r.lt n.first = true ∨ n.first.lt r = true) : ∃ before after,
    m.tree = before ++ after ∧ (∀ n ∈ before, n.first.lt r = true) ∧
      (∀ n ∈ after, r.lt n.first = true) ∧
      m.insert r d = .ok (some ⟨m.nextId, r, d⟩, { m with
        tree := before ++ ⟨m.nextId, r, d⟩ :: after, nextId := m.nextId + 1 }) := by
  obtain ⟨before, after, htree, hbefore, hafter, hins⟩ := treeInsert_fresh (d := d) hm hkey
  exact ⟨before, after, htree, hbefore, hafter,
    by simp [insert, intersects, find_none hv hcond, hins]⟩

theorem findBack_head {i : RangeNode V} {l : List (RangeNode V)}
    (h : cond i.first = .ok true) : findBack cond (i :: l) = .ok (some i) := by
  cases l <;> simp [findBack, h]

theorem find_sameStart (hm : m.Sorted) (hcache : m.cache = [])
    (htrue : ∀ n ∈ m.tree, n.first.start = r.start → cond n.first = .ok true)
    (hfalse : ∀ n ∈ m.tree, n.first.start ≠ r.start → cond n.first = .ok false)
    (hex : ∃ n ∈ m.tree, n.first.start = r.start) : ∃ n m', m.find r cond = .ok (some n, m') := by
  obtain ⟨before, after, htree, hub, hbefore, hafter⟩ := upperBound_split hm r
  have hm' := hm
  unfold Sorted at hm'
  rw [htree, List.pairwise_append] at hm'
  have hnone : m.findCached cond m.cache = .ok none := by rw [hcache]; rfl
  -- the last node not after `r` starts there too, if any node not after `r` does
  have hback : ∀ g ∈ before, g.first.start = r.start →
      ∃ n, findBack cond before.reverse = .ok (some n) := by
    intro g hg hstart
    rcases List.eq_nil_or_concat before with hnil | ⟨front, last, rfl⟩
    · simp [hnil] at hg
    refine ⟨last, ?_⟩
    rw [List.concat_eq_append, List.reverse_append, List.reverse_singleton, List.singleton_append]
    refine findBack_head (htrue last (by simp [htree]) ?_)
    have hlast := hbefore last (by simp)
    rw [← Bool.not_eq_true, AddrRange.lt_iff] at hlast
    rw [List.concat_eq_append, List.pairwise_append] at hm'
    rcases List.mem_append.1 (List.concat_eq_append ▸ hg) with hg | hg
    · have := hm'.1.2.2 g hg last (by simp)
      rw [AddrRange.lt_iff] at this
      omega
    · rw [← List.mem_singleton.1 hg]
      exact hstart
  obtain ⟨g, hg, hstart⟩ := hex
  rw [htree, List.mem_append] at hg
  simp only [find, hnone, Sim.ok_bind, hub]
  rcases after with _ | ⟨next, after⟩
  · obtain ⟨n, hn⟩ := hback g (by simpa using hg) hstart
    simp [hn]
  · by_cases hnext : next.first.start = r.start
    · simp [htrue next (by simp [htree]) hnext]
    · have hg' : g ∈ before := by
        rcases hg with hg | hg
        · exact hg
        · exfalso
          have h1 := hafter next (by simp)
          rw [AddrRange.lt_iff] at h1
          rcases List.mem_cons.1 hg with rfl | hg
          · exact hnext hstart
          · have h2 := (List.pairwise_cons.1 hm'.2.1).1 g hg
            rw [AddrRange.lt_iff] at h2
            omega
      obtain ⟨n, hn⟩ := hback g hg' hstart
      simp [hfalse next (by simp [htree]) hnext, hn]

theorem find_last (hm : m.Sorted) (hv : m.CacheValid) (hn : n ∈ m.tree)
    (htrue : cond n.first = .ok true) (hfalse : ∀ k ∈ m.tree, k ≠ n → cond k.first = .ok false)
    (hle : r.lt n.first = false)
    (hlast : ∀ k ∈ m.tree, n.first.lt k.first = true → r.lt k.first = true) :
    ∃ m', m.find r cond = .ok (some n, m') := by
  have huniq : ∀ k ∈ m.tree, cond k.first = .ok true → k = n := by
    intro k hk hc
    by_contra hne
    simp [hfalse k hk hne] at hc
  have hcached : ∃ x, m.findCached cond m.cache = .ok x := by
    refine findCached_total (fun k hk => ?_) hv
    by_cases hkn : k = n
    · exact ⟨true, hkn ▸ htrue⟩
    · exact ⟨false, hfalse k hk hkn⟩
  obtain ⟨x, hx⟩ := hcached
  rcases x with _ | it
  · obtain ⟨before, after, htree, hub, hbefore, hafter⟩ := upperBound_split hm r
    have hm' := hm
    unfold Sorted at hm'
    rw [htree, List.pairwise_append] at hm'
    have hnb : n ∈ before := by
      rw [htree, List.mem_append] at hn
      refine hn.resolve_right fun h => ?_
      simp [hafter n h] at hle
    have hback : findBack cond before.reverse = .ok (some n) := by
      rcases List.eq_nil_or_concat before with hnil | ⟨front, last, rfl⟩
      · simp [hnil] at hnb
      rw [List.concat_eq_append] at *
      rw [List.reverse_append, List.reverse_singleton, List.singleton_append]
      rcases List.mem_append.1 hnb with hf | hl
      · rw [List.pairwise_append] at hm'
        have hlt := hlast last (by simp [htree]) (hm'.1.2.2 n hf last (by simp))
        simp [hbefore last (by simp)] at hlt
      · rw [← List.mem_singleton.1 hl]
        exact findBack_head htrue
    simp only [find, hx, Sim.ok_bind, hub, hback]
    rcases after with _ | ⟨next, after⟩
    · exact ⟨_, rfl⟩
    · have hne : next ≠ n := by
        rintro rfl
        simp [hafter next (by simp)] at hle
      simp [hfalse next (by simp [htree]) hne]
  · obtain ⟨hit, hc⟩ := findCached_some hx
    obtain rfl := huniq it hit hc
    simp [find, hx]

end AddrRangeMap

end Gem5Nvm
