import Gem5Nvm.Proofs.AddrRange

/-!
# When lookups of addresses agree with the entries of the map

Entries lie apart or are members of one group (`Inv`), as an insertion that finds nothing in its
way is separate from the two entries it looks at, and so from all (`separate_of_none`). An address
then has at most one owner. The walk back of a lookup gets to it, unless it comes after the address
in the order of the tree: the owner starts at the address, and is a member other than the first.
-/

namespace Gem5Nvm

open AddrRange
open List (mem_cons mem_append pairwise_append pairwise_cons map_append mem_filter mem_cons_self
  mem_cons_of_mem mem_reverse)

namespace AddrRangeMap

variable {V : Type} {m m' : AddrRangeMap V} {r s : AddrRange}

structure Inv (m : AddrRangeMap V) : Prop where
  sorted : m.Sorted
  cache : m.CacheValid
  proper : ∀ n ∈ m.tree, n.first.Proper
  separate : m.tree.Pairwise fun n k => n.first.Separate k.first
  ids : (m.tree.map RangeNode.id).Nodup
  fresh : ∀ n ∈ m.tree, n.id < m.nextId

namespace Inv

variable {n k : RangeNode V}

theorem separate_of_ne (h : m.Inv) (hn : n ∈ m.tree) (hk : k ∈ m.tree) (hne : n ≠ k) :
    n.first.Separate k.first := by
  have hsymm : Std.Symm fun n k : RangeNode V => n.first.Separate k.first :=
    ⟨fun _ _ hnk => hnk.symm⟩
  exact h.separate.forall hn hk hne

theorem id_inj (h : m.Inv) (hn : n ∈ m.tree) (hk : k ∈ m.tree) (hid : n.id = k.id) : n = k :=
  List.inj_on_of_nodup_map h.ids hn hk hid

variable {n : RangeNode V}

theorem deref (h : m.Inv) (hn : n ∈ m.tree) : m.deref n.id = .ok n := by
  obtain ⟨k, hk, hd⟩ := deref_of_mem ⟨n, hn, rfl⟩
  have hid : k.id = n.id := by
    unfold AddrRangeMap.deref at hd
    split at hd
    · next hfind =>
      cases hd
      simpa using List.find?_some hfind
    · cases hd
  rw [hd, h.id_inj hk hn hid]

theorem owner_unique (h : m.Inv) {a : ℕ} (hn : n ∈ m.tree) (hk : k ∈ m.tree)
    (hna : n.first.contains a = true) (hka : k.first.contains a = true) : n = k := by
  by_contra hne
  rw [contains_iff] at hna hka
  rcases h.separate_of_ne hn hk hne with hsep | hsep | ⟨hmerge, hmatch⟩
  · omega
  · omega
  · rw [sel_congr (mergesWith_iff.1 hmerge).2.2.symm] at hna
    exact hmatch (hna.2.2.symm.trans hka.2.2)

theorem congr_cache (h : m.Inv) {c : List ℕ} (hc : ∀ i ∈ c, ∃ n ∈ m.tree, n.id = i) :
    Inv { m with cache := c } :=
  ⟨h.sorted, hc, h.proper, h.separate, h.ids, h.fresh⟩

theorem sublist (h : m.Inv) {t : List (RangeNode V)} {c : List ℕ} (ht : t.Sublist m.tree)
    (hc : ∀ i ∈ c, ∃ n ∈ t, n.id = i) : Inv { m with tree := t, cache := c } :=
  ⟨h.sorted.sublist ht, hc, fun n hn => h.proper n (ht.subset hn), h.separate.sublist ht,
    h.ids.sublist (ht.map _), fun n hn => h.fresh n (ht.subset hn)⟩

end Inv

theorem mem_addNewEntryToCache {it c : ℕ} (h : c ∈ (m.addNewEntryToCache it).cache) :
    c = it ∨ c ∈ m.cache := by
  unfold addNewEntryToCache at h
  split_ifs at h
  · rcases mem_cons.1 h with h | h
    · exact .inl h
    · exact .inr (List.mem_of_mem_dropLast h)
  · rcases mem_append.1 h with h | h
    · exact .inr (List.mem_of_mem_dropLast h)
    · exact .inl (List.mem_singleton.1 h)
  · exact mem_cons.1 h
  · exact .inr h

theorem addNewEntryToCache_eq (it : ℕ) :
    m.addNewEntryToCache it = { m with cache := (m.addNewEntryToCache it).cache } := by
  unfold addNewEntryToCache
  split_ifs <;> rfl

theorem Inv.addNewEntryToCache (h : m.Inv) (hn : n ∈ m.tree) : (m.addNewEntryToCache n.id).Inv := by
  rw [addNewEntryToCache_eq]
  refine h.congr_cache fun c hc => ?_
  rcases mem_addNewEntryToCache hc with rfl | hc
  · exact ⟨n, hn, rfl⟩
  · exact h.cache c hc

variable {x : Option (RangeNode V)}

variable {cond : AddrRange → Sim Bool}

theorem Inv.find (h : m.Inv) (hf : m.find r cond = .ok (x, m')) : m'.Inv := by
  rcases find_inv hf with ⟨it, hit, rfl, rfl⟩ | ⟨-, ⟨next, hnext, -, rfl, rfl⟩ | ⟨-, hback, rfl⟩⟩
  · refine h.congr_cache fun c hc => ?_
    rcases mem_cons.1 hc with rfl | hc
    · exact ⟨it, (findCached_some hit).1, rfl⟩
    · exact h.cache c (List.mem_of_mem_erase hc)
  · exact h.addNewEntryToCache (upperBound_mem.2 hnext)
  · cases x with
    | none => exact h
    | some i => exact h.addNewEntryToCache (upperBound_mem.1 (findBack_some hback).1)

theorem eq_of_mergesWith (h : r.mergesWith s = true) (hmatch : r.intlvMatch = s.intlvMatch) :
    s = r := by
  rw [mergesWith_iff] at h
  cases r
  cases s
  simp_all

theorem separate_of_intersects (hone : OneByte r s) (h : r.intersects s = .ok false) :
    r.Separate s ∨ s = r := by
  have hgroup : r.mergesWith s = true → r.Separate s ∨ s = r := by
    intro hmerge
    by_cases hmatch : r.intlvMatch = s.intlvMatch
    · exact .inr (eq_of_mergesWith hmerge hmatch)
    · exact .inl (.inr (.inr ⟨hmerge, hmatch⟩))
  unfold AddrRange.intersects at h
  split_ifs at h with happart hplain hsize hmerge
  · rcases happart with happart | happart
    · exact .inl (.inr (.inl happart))
    · exact .inl (.inl happart)
  · cases h
  · have hil : r.interleaved = true ∨ s.interleaved = true := by
      by_contra hcon
      rw [not_or] at hcon
      exact hplain hcon
    rcases hone hsize hil (by omega) (by omega) with hmerge | hcontains
    · exact hgroup hmerge
    · rw [hcontains] at h
      cases h
  · exact hgroup hmerge

theorem findBack_none_head {i : RangeNode V} {l : List (RangeNode V)}
    (h : findBack cond (i :: l) = .ok none) : cond i.first = .ok false := by
  cases l with
  | _ =>
    obtain ⟨b, hb, h⟩ := Sim.bind_eq_ok.1 h
    cases b with
    | false => exact hb
    | true => cases h

namespace Inv

variable {i j : RangeNode V}

theorem separate_group (h : m.Inv) (hi : i ∈ m.tree) (hj : j ∈ m.tree)
    (hmerge : r.mergesWith i.first = true) : r.Separate j.first ∨ j.first = r := by
  have hgroup : r.mergesWith j.first = true → r.Separate j.first ∨ j.first = r := by
    intro hmerge
    by_cases hmatch : r.intlvMatch = j.first.intlvMatch
    · exact .inr (eq_of_mergesWith hmerge hmatch)
    · exact .inl (.inr (.inr ⟨hmerge, hmatch⟩))
  by_cases hij : i = j
  · exact hgroup (hij ▸ hmerge)
  obtain ⟨hstart, hend, -⟩ := mergesWith_iff.1 hmerge
  rcases h.separate_of_ne hi hj hij with hsep | hsep | ⟨hmerge', -⟩
  · exact .inl (.inl (by omega))
  · exact .inl (.inr (.inl (by omega)))
  · exact hgroup (mergesWith_trans hmerge hmerge')

theorem separate_before (h : m.Inv) (hi : i ∈ m.tree) (hj : j ∈ m.tree)
    (hji : j.first.lt i.first = true) (hend : i.first.end_ ≤ r.start) : r.Separate j.first := by
  refine .inr (.inl ?_)
  rw [lt_iff] at hji
  by_cases hne : j = i
  · exact hne ▸ hend
  have hlt := (h.proper i hi).start_lt
  rcases h.separate_of_ne hj hi hne with hsep | hsep | ⟨hmerge, -⟩
  · omega
  · omega
  · rw [mergesWith_iff] at hmerge
    omega

theorem separate_of_none (h : m.Inv) (hr : r.Proper) (hone : ∀ n ∈ m.tree, OneByte r n.first)
    (hnext : ∀ next ∈ (m.upperBound r).2, r.intersects next.first = .ok false)
    (hback : findBack r.intersects (m.upperBound r).1 = .ok none) :
    ∀ n ∈ m.tree, r.Separate n.first ∨ n.first = r := by
  have hlt := hr.start_lt
  obtain ⟨before, after, htree, hub, hbefore, hafter⟩ := upperBound_split h.sorted r
  have hsorted := h.sorted
  unfold Sorted at hsorted
  rw [htree, pairwise_append] at hsorted
  rw [hub] at hnext hback
  have hmem : ∀ n, n ∈ before ∨ n ∈ after → n ∈ m.tree := fun n hn => by
    rw [htree]
    exact mem_append.2 hn
  intro n hn
  rw [htree, mem_append] at hn
  rcases hn with hn | hn
  · rcases List.eq_nil_or_concat before with rfl | ⟨front, last, rfl⟩
    · simp at hn
    rw [List.concat_eq_append] at *
    have hlast : last ∈ m.tree := hmem last (.inl (by simp))
    rw [List.reverse_append, List.reverse_singleton, List.singleton_append] at hback
    have hkey := hbefore last (by simp)
    rw [← Bool.not_eq_true, lt_iff] at hkey
    rcases separate_of_intersects (hone last hlast) (findBack_none_head hback) with
      (hsep | hsep | ⟨hmerge, -⟩) | heq
    · omega
    · rcases mem_append.1 hn with hn' | hn'
      · refine .inl (h.separate_before hlast (hmem n (.inl hn)) ?_ hsep)
        exact (pairwise_append.1 hsorted.1).2.2 n hn' last (by simp)
      · rw [List.mem_singleton.1 hn']
        exact .inl (.inr (.inl hsep))
    · exact h.separate_group hlast (hmem n (.inl hn)) hmerge
    · exact h.separate_group hlast (hmem n (.inl hn)) (heq ▸ mergesWith_refl r)
  · rcases after with _ | ⟨next, after⟩
    · simp at hn
    have hmem' : next ∈ m.tree := hmem next (.inr (by simp))
    have hkey := hafter next (by simp)
    rw [lt_iff] at hkey
    rcases separate_of_intersects (hone next hmem') (hnext next rfl) with
      (hsep | hsep | ⟨hmerge, -⟩) | heq
    · refine .inl (.inl ?_)
      rcases mem_cons.1 hn with rfl | hn'
      · exact hsep
      · have := (pairwise_cons.1 hsorted.2.1).1 n hn'
        rw [lt_iff] at this
        omega
    · have := (h.proper next hmem').start_lt
      omega
    · exact h.separate_group hmem' (hmem n (.inr hn)) hmerge
    · exact h.separate_group hmem' (hmem n (.inr hn)) (heq ▸ mergesWith_refl r)

theorem treeInsert (h : m.Inv) (hr : r.Proper) (d : V)
    (hsep : ∀ n ∈ m.tree, r.Separate n.first ∨ n.first = r) : (m.treeInsert r d).2.Inv := by
  cases hfind : m.tree.find? (fun n => !r.lt n.first && !n.first.lt r) with
  | some n =>
    rw [AddrRangeMap.treeInsert, hfind]
    exact h
  | none =>
    rw [List.find?_eq_none] at hfind
    have hsep' : ∀ n ∈ m.tree, r.Separate n.first := by
      intro n hn
      refine (hsep n hn).resolve_right fun heq => hfind n hn ?_
      have hirr : r.lt r = false := by
        rw [← Bool.not_eq_true, lt_iff]
        omega
      simp [heq, hirr]
    obtain ⟨before, after, htree, hbefore, hafter, hins⟩ := treeInsert_fresh (d := d) h.sorted
      fun n hn => (hsep' n hn).lt_or_lt hr.start_lt (h.proper n hn).start_lt
    have hsorted := h.sorted
    have hseparate := h.separate
    have hids := h.ids
    unfold Sorted at hsorted
    rw [htree, pairwise_append] at hsorted hseparate
    rw [htree, map_append] at hids
    have hmem : ∀ n, n ∈ before ++ ⟨m.nextId, r, d⟩ :: after → n = ⟨m.nextId, r, d⟩ ∨ n ∈ m.tree := by
      intro n hn
      rw [htree]
      simp only [mem_append, mem_cons] at hn ⊢
      tauto
    have hmem' : ∀ n ∈ m.tree, n ∈ before ++ ⟨m.nextId, r, d⟩ :: after := by
      intro n hn
      rw [htree] at hn
      simp only [mem_append, mem_cons] at hn ⊢
      tauto
    have hb : ∀ n ∈ before, n ∈ m.tree := fun n hn => htree ▸ List.mem_append_left _ hn
    have ha : ∀ n ∈ after, n ∈ m.tree := fun n hn => htree ▸ List.mem_append_right _ hn
    rw [hins]
    constructor
    · refine pairwise_append.2 ⟨hsorted.1, pairwise_cons.2 ⟨hafter, hsorted.2.1⟩, ?_⟩
      intro n hn k hk
      rcases mem_cons.1 hk with rfl | hk
      · exact hbefore n hn
      · exact hsorted.2.2 n hn k hk
    · intro c hc
      obtain ⟨n, hn, hid⟩ := h.cache c hc
      exact ⟨n, hmem' n hn, hid⟩
    · intro n hn
      rcases hmem n hn with rfl | hn
      · exact hr
      · exact h.proper n hn
    · refine pairwise_append.2 ⟨hseparate.1,
        pairwise_cons.2 ⟨fun n hn => hsep' n (ha n hn), hseparate.2.1⟩, ?_⟩
      intro n hn k hk
      rcases mem_cons.1 hk with rfl | hk
      · exact (hsep' n (hb n hn)).symm
      · exact hseparate.2.2 n hn k hk
    · have hnew : m.nextId ∉ (before.map RangeNode.id) ++ after.map RangeNode.id := by
        rw [← map_append, ← htree]
        intro hmem
        obtain ⟨n, hn, hid⟩ := List.mem_map.1 hmem
        have := h.fresh n hn
        omega
      simpa only [map_append, List.map_cons] using
        (List.nodup_middle.2 (List.nodup_cons.2 ⟨hnew, hids⟩))
    · intro n hn
      rcases hmem n hn with rfl | hn
      · exact Nat.lt_succ_self _
      · exact (h.fresh n hn).trans (Nat.lt_succ_self _)

theorem insert (h : m.Inv) (hr : r.Proper) (hone : ∀ n ∈ m.tree, OneByte r n.first) {d : V}
    (hi : m.insert r d = .ok (x, m')) : m'.Inv := by
  obtain ⟨⟨hit, m₁⟩, hfind, hins⟩ := Sim.bind_eq_ok.1 hi
  cases hit with
  | some n =>
    cases hins
    exact h.find hfind
  | none =>
    rcases find_inv hfind with ⟨_, -, hcon, -⟩ | ⟨-, ⟨_, -, -, hcon, -⟩ | ⟨hnext, hback, hm₁⟩⟩
    · cases hcon
    · cases hcon
    · cases hm₁
      cases hins
      exact h.treeInsert hr d (h.separate_of_none hr hone hnext hback)

theorem empty (size : ℕ) : (AddrRangeMap.empty size : AddrRangeMap V).Inv :=
  ⟨.nil, by simp [CacheValid, AddrRangeMap.empty], by simp [AddrRangeMap.empty], .nil, .nil,
    by simp [AddrRangeMap.empty]⟩

theorem erase (h : m.Inv) {p : ℕ} (he : m.erase p = .ok m') : m'.Inv := by
  obtain ⟨n, -, he⟩ := Sim.bind_eq_ok.1 he
  cases he
  refine h.sublist List.filter_sublist fun c hc => ?_
  obtain ⟨hc, hne⟩ := mem_filter.1 hc
  obtain ⟨k, hk, hid⟩ := h.cache c hc
  refine ⟨k, mem_filter.2 ⟨hk, ?_⟩, hid⟩
  simpa [hid] using hne

theorem cut_eq (p q : Option ℕ) : ∃ before erased after, m.cut p q = (before, erased, after) ∧
    m.tree = before ++ (erased ++ after) := by
  simp only [cut, List.span_eq_takeWhile_dropWhile]
  exact ⟨_, _, _, rfl, by rw [List.takeWhile_append_dropWhile, List.takeWhile_append_dropWhile]⟩

theorem foldl_cacheRemove (p : Option ℕ) : ∀ (l : List (RangeNode V)) (m : AddrRangeMap V),
    l.foldl (fun m _ => m.cacheRemove p) m = if l = [] then m else m.cacheRemove p
  | [], m => rfl
  | _ :: l, m => by
    rw [List.foldl_cons, foldl_cacheRemove p l]
    by_cases hl : l = [] <;> simp [hl, cacheRemove]

theorem eraseRange (h : m.Inv) {p q : Option ℕ}
    (hp : ∀ n ∈ (m.cut p q).2.1, some n.id ≠ p → n.id ∉ m.cache)
    (he : m.eraseRange p q = .ok m') : m'.Inv := by
  obtain ⟨before, erased, after, hcut, htree⟩ := cut_eq (m := m) p q
  unfold AddrRangeMap.eraseRange at he
  rw [hcut] at he hp
  simp only at he hp
  split_ifs at he with hok
  simp only [Except.ok.injEq] at he
  have hsub : (before ++ after).Sublist m.tree := by
    rw [htree]
    exact (List.sublist_append_right _ _).append_left _
  have hcached : ∀ c ∈ (erased.foldl (fun m _ => m.cacheRemove p) m).cache,
      ∃ n ∈ before ++ after, n.id = c := by
    rw [foldl_cacheRemove]
    intro c hc
    have hc' : c ∈ m.cache ∧ (erased ≠ [] → some c ≠ p) := by
      split_ifs at hc with hnil
      · exact ⟨hc, fun hne => absurd hnil hne⟩
      · obtain ⟨hc, hne⟩ := mem_filter.1 hc
        exact ⟨hc, fun _ => by simpa using hne⟩
    obtain ⟨n, hn, rfl⟩ := h.cache c hc'.1
    refine ⟨n, ?_, rfl⟩
    rw [htree, mem_append, mem_append] at hn
    rcases hn with hn | hn | hn
    · exact List.mem_append_left _ hn
    · exact absurd hc'.1 (hp n hn (hc'.2 (List.ne_nil_of_mem hn)))
    · exact List.mem_append_right _ hn
  have hinv := h.sublist hsub hcached
  rw [← he]
  rw [foldl_cacheRemove] at hinv ⊢
  split_ifs at hinv ⊢ <;> exact hinv

theorem step (h : m.Inv) {o : Op V} (hc : m.Careful o) (hs : m.step o = .ok (x, m')) : m'.Inv := by
  cases o with
  | insert r d => exact h.insert hc.1 hc.2 hs
  | erase p =>
    obtain ⟨m₁, he, hs⟩ := Sim.bind_eq_ok.1 hs
    cases hs
    exact h.erase he
  | eraseRange p q =>
    obtain ⟨m₁, he, hs⟩ := Sim.bind_eq_ok.1 hs
    cases hs
    exact h.eraseRange hc he
  | clear =>
    cases hs
    exact h.sublist (List.nil_sublist _) (by simp)
  | _ => exact h.find hs

end Inv

section Lookup

variable {a : ℕ} {o : RangeNode V} {cond : AddrRange → Sim Bool}

theorem find_of_cached {it : RangeNode V} (h : m.findCached cond m.cache = .ok (some it)) :
    m.find r cond = .ok (some it, { m with cache := it.id :: m.cache.erase it.id }) := by
  simp [find, h]

theorem find_of_next {next : RangeNode V} (h : m.findCached cond m.cache = .ok none)
    (hub : (m.upperBound r).2 = some next) (hc : cond next.first = .ok true) :
    m.find r cond = .ok (some next, m.addNewEntryToCache next.id) := by
  simp [find, h, hub, hc]

theorem find_of_back (h : m.findCached cond m.cache = .ok none)
    (hub : ∀ next ∈ (m.upperBound r).2, cond next.first = .ok false)
    (hback : findBack cond (m.upperBound r).1 = .ok x) : ∃ m', m.find r cond = .ok (x, m') := by
  cases hnext : (m.upperBound r).2 with
  | none => cases x <;> simp [find, h, hnext, hback]
  | some next => cases x <;> simp [find, h, hnext, hub next hnext, hback]

theorem findCached_of_mem (hinv : m.Inv) (hcond : ∀ n ∈ m.tree, ∃ b, cond n.first = .ok b)
    (ho : o ∈ m.tree) (htrue : cond o.first = .ok true) :
    ∀ {cs : List ℕ}, (∀ c ∈ cs, ∃ n ∈ m.tree, n.id = c) → o.id ∈ cs →
      ∃ n, m.findCached cond cs = .ok (some n)
  | c :: cs, hcs, hmem => by
    obtain ⟨n, hn, rfl⟩ := hcs c mem_cons_self
    obtain ⟨b, hb⟩ := hcond n hn
    cases b with
    | true => exact ⟨n, by simp [findCached, hinv.deref hn, hb]⟩
    | false =>
      have hmem' : o.id ∈ cs := by
        rcases mem_cons.1 hmem with hid | hmem
        · rw [hinv.id_inj ho hn hid, hb] at htrue
          cases htrue
        · exact hmem
      obtain ⟨k, hk⟩ := findCached_of_mem hinv hcond ho htrue
        (fun c hc => hcs c (mem_cons_of_mem _ hc)) hmem'
      exact ⟨k, by simp [findCached, hinv.deref hn, hb, hk]⟩

theorem findCached_none (hinv : m.Inv)
    (hfalse : ∀ n ∈ m.tree, n.id ∈ m.cache → cond n.first = .ok false) :
    ∀ {cs : List ℕ}, (∀ c ∈ cs, c ∈ m.cache) → m.findCached cond cs = .ok none
  | [], _ => rfl
  | c :: cs, hcs => by
    obtain ⟨n, hn, rfl⟩ := hinv.cache c (hcs c mem_cons_self)
    have ih := findCached_none hinv hfalse fun c hc => hcs c (mem_cons_of_mem _ hc)
    simp [findCached, hinv.deref hn, hfalse n hn (hcs _ mem_cons_self), ih]

theorem findBack_group (htrue : cond o.first = .ok true) (post : List (RangeNode V)) :
    ∀ {pre : List (RangeNode V)},
      (∀ n ∈ pre, cond n.first = .ok false ∧ n.first.mergesWith o.first = true) →
      findBack cond (pre ++ o :: post) = .ok (some o)
  | [], _ => findBack_head htrue
  | [n], h => by
    obtain ⟨hc, hmerge⟩ := h n (by simp)
    have hmerge' : o.first.mergesWith n.first = true := mergesWith_comm ▸ hmerge
    simp [findBack, hc, hmerge', findBack_head htrue]
  | n :: k :: pre, h => by
    obtain ⟨hc, hmerge⟩ := h n (by simp)
    have hmerge' : k.first.mergesWith n.first = true :=
      mergesWith_trans (h k (by simp)).2 (mergesWith_comm ▸ hmerge)
    have ih := findBack_group htrue post fun n hn => h n (mem_cons_of_mem _ hn)
    rw [List.cons_append] at ih
    simp [findBack, hc, hmerge', ih]

namespace Inv

theorem owner_mergesWith (h : m.Inv) (ho : o ∈ m.tree) (hn : n ∈ m.tree)
    (hoa : o.first.contains a = true) (hon : o.first.lt n.first = true) (hna : n.first.start ≤ a) :
    n.first.mergesWith o.first = true := by
  rw [contains_iff] at hoa
  have hlt := (h.proper n hn).start_lt
  have hne : n ≠ o := by
    rintro rfl
    rw [lt_iff] at hon
    omega
  rw [lt_iff] at hon
  rcases h.separate_of_ne hn ho hne with hsep | hsep | ⟨hmerge, -⟩
  · omega
  · omega
  · exact hmerge

/-- Without an owner in the cache, the answer depends on the place of the owner in the tree. -/
theorem finds_uncached (h : m.Inv) (ha : a + 1 < 2 ^ 64) (ho : o ∈ m.tree)
    (hoa : o.first.contains a = true) (hcache : o.id ∉ m.cache) :
    m.Finds a ↔ ∀ k ∈ m.tree, o.first.start = a → k.first.start = a →
      k.first.intlvMatch = 0 ∨ o.first.intlvMatch ≤ k.first.intlvMatch := by
  have hcond := fun n (hn : n ∈ m.tree) => (h.proper n hn).isSubset_byte ha
  have hfalse : ∀ n ∈ m.tree, n ≠ o → (rangeSize a 1).isSubset n.first = .ok false := by
    intro n hn hne
    rw [hcond n hn]
    cases hna : n.first.contains a with
    | false => rfl
    | true => exact absurd (h.owner_unique hn ho hna hoa) hne
  have htrue : (rangeSize a 1).isSubset o.first = .ok true := by rw [hcond o ho, hoa]
  have hnone : m.findCached (rangeSize a 1).isSubset m.cache = .ok none := by
    refine findCached_none h (fun n hn hmem => hfalse n hn ?_) fun c hc => hc
    rintro rfl
    exact hcache hmem
  have hfinds : ∀ m', m.contains a = .ok (some o, m') → m.Finds a := by
    intro m' hm'
    refine ⟨some o, m', hm', ?_, by simp⟩
    rintro n ⟨⟩
    exact ⟨ho, hoa⟩
  obtain ⟨hlo, hhi, -⟩ := contains_iff.1 hoa
  obtain ⟨before, after, htree, hub, hbefore, hafter⟩ := upperBound_split h.sorted (rangeSize a 1)
  have hsorted := h.sorted
  unfold Sorted at hsorted
  rw [htree, pairwise_append] at hsorted
  have hmemb : ∀ n ∈ before, n ∈ m.tree := fun n hn => htree ▸ List.mem_append_left _ hn
  have hmema : ∀ n ∈ after, n ∈ m.tree := fun n hn => htree ▸ List.mem_append_right _ hn
  have hkey : ∀ {n : RangeNode V}, (rangeSize a 1).lt n.first = true ↔
      a < n.first.start ∨ a = n.first.start ∧ 0 < n.first.intlvMatch := lt_iff
  have hmem := ho
  rw [htree, mem_append] at hmem
  rcases hmem with hmem | hmem
  · -- not after the address: the walk back gets there
    have hob := hbefore o hmem
    rw [← Bool.not_eq_true, hkey] at hob
    refine iff_of_true ?_ fun k _ hstart _ => ?_
    · obtain ⟨front, back, rfl⟩ := List.append_of_mem hmem
      have hback : findBack (rangeSize a 1).isSubset (m.upperBound (rangeSize a 1)).1 =
          .ok (some o) := by
        rw [hub, List.reverse_append, List.reverse_cons, List.append_assoc, List.singleton_append]
        refine findBack_group htrue _ fun n hn => ?_
        rw [mem_reverse] at hn
        have hmem' : n ∈ front ++ o :: back := by simp [hn]
        have hlt := (pairwise_cons.1 (pairwise_append.1 hsorted.1).2.1).1 n hn
        have hnb := hbefore n hmem'
        rw [← Bool.not_eq_true, hkey] at hnb
        refine ⟨hfalse n (hmemb n hmem') ?_, h.owner_mergesWith ho (hmemb n hmem') hoa hlt (by omega)⟩
        rintro rfl
        rw [lt_iff] at hlt
        omega
      have hnext : ∀ next ∈ (m.upperBound (rangeSize a 1)).2,
          (rangeSize a 1).isSubset next.first = .ok false := by
        intro next hnext
        rw [hub] at hnext
        have hmem' := List.mem_of_mem_head? hnext
        refine hfalse next (hmema next hmem') ?_
        rintro rfl
        have := hkey.1 (hafter next hmem')
        omega
      obtain ⟨m', hm'⟩ := find_of_back hnone hnext hback
      exact hfinds m' hm'
    · omega
  · have hoa' := hkey.1 (hafter o hmem)
    rcases after with _ | ⟨next, after⟩
    · simp at hmem
    by_cases hnext : o = next
    · -- the first one after the address
      subst hnext
      refine iff_of_true (hfinds _ (find_of_next hnone (by rw [hub]; rfl) htrue)) fun k hk _ hk' => ?_
      rw [htree, mem_append, mem_cons] at hk
      rcases hk with hk | rfl | hk
      · have := hbefore k hk
        rw [← Bool.not_eq_true, hkey] at this
        omega
      · exact .inr le_rfl
      · have := (pairwise_cons.1 hsorted.2.1).1 k hk
        rw [lt_iff] at this
        omega
    · -- behind another member
      have hnexto := (pairwise_cons.1 hsorted.2.1).1 o
        ((mem_cons.1 hmem).resolve_left hnext)
      have hnext' := hkey.1 (hafter next (by simp))
      rw [lt_iff] at hnexto
      refine iff_of_false ?_ fun hall => ?_
      · rintro ⟨x, m', hm', -, hend⟩
        obtain ⟨m'', hm''⟩ := find_of_back (x := none) hnone
          (fun n hn => by
            rw [hub] at hn
            cases hn
            exact hfalse next (hmema next (by simp)) (Ne.symm hnext))
          (findBack_none fun n hn => by
            rw [hub, mem_reverse] at hn
            refine hfalse n (hmemb n hn) ?_
            rintro rfl
            have := hafter n hmem
            rw [hbefore n hn] at this
            cases this)
        have hx := hm'.symm.trans hm''
        cases hx
        simp [hend rfl o ho] at hoa
      · have := hall next (hmema next (by simp)) (by omega) (by omega)
        omega

theorem finds_iff (h : m.Inv) (ha : a + 1 < 2 ^ 64) : m.Finds a ↔ m.LookupOk a := by
  have hcond := fun n (hn : n ∈ m.tree) => (h.proper n hn).isSubset_byte ha
  unfold LookupOk
  rw [if_neg (by omega)]
  by_cases hex : ∃ o ∈ m.tree, o.first.contains a = true
  · obtain ⟨o, ho, hoa⟩ := hex
    have hthe : ∀ n ∈ m.tree, n.first.contains a = true → n = o := fun n hn hna =>
      h.owner_unique hn ho hna hoa
    by_cases hcache : o.id ∈ m.cache
    · refine iff_of_true ?_ fun n hn hna _ hnc => ?_
      · obtain ⟨n, hn⟩ := findCached_of_mem h (fun n hn => ⟨_, hcond n hn⟩) ho
          (by rw [hcond o ho, hoa]) h.cache hcache
        refine ⟨some n, _, find_of_cached hn, ?_, by simp⟩
        rintro k ⟨⟩
        obtain ⟨hmem, hc⟩ := findCached_some hn
        rw [hcond n hmem] at hc
        exact ⟨hmem, Except.ok.inj hc⟩
      · exact absurd (hthe n hn hna ▸ hcache) hnc
    · rw [h.finds_uncached ha ho hoa hcache]
      constructor
      · intro hall n hn hna hstart _ k hk hk'
        obtain rfl := hthe n hn hna
        exact hall k hk hstart hk'
      · intro hall k hk hstart hk'
        exact hall o ho hoa hstart hcache k hk hk'
  · have hnone : ∀ n ∈ m.tree, n.first.contains a = false := fun n hn => by
      by_contra hna
      exact hex ⟨n, hn, by simpa using hna⟩
    refine iff_of_true ?_ fun n hn hna => absurd ⟨n, hn, hna⟩ hex
    exact ⟨none, m, find_none h.cache fun n hn => by rw [hcond n hn, hnone n hn], by simp,
      fun _ => hnone⟩

end Inv

theorem isSubset_last (h : s.Proper) :
    (rangeSize (2 ^ 64 - 1) 1).isSubset s = .ok (!s.interleaved) := by
  have hstart : (rangeSize (2 ^ 64 - 1) 1).start = 2 ^ 64 - 1 := rfl
  have hend : (rangeSize (2 ^ 64 - 1) 1).end_ = 0 := rfl
  have hil : ¬ (rangeSize (2 ^ 64 - 1) 1).interleaved = true := Bool.false_ne_true
  have hlt := h.end_lt
  have hlt' := h.start_lt
  unfold isSubset
  rw [if_neg hil, hstart, hend]
  cases hs : s.interleaved with
  | true =>
    have hout : s.contains (2 ^ 64 - 1) = false := by
      rw [← Bool.not_eq_true, contains_iff]
      omega
    simp only [hout, Bool.false_and, if_true, Bool.not_true]
  | false =>
    rw [if_neg Bool.false_ne_true, decide_eq_true (by omega)]
    rfl

theorem findBack_interleaved : ∀ {l : List (RangeNode V)},
    (∀ n ∈ l, cond n.first = .ok (!n.first.interleaved)) →
    (∀ n ∈ l.head?, n.first.interleaved = true) → findBack cond l = .ok none
  | [], _, _ => rfl
  | [i], hc, hl => by
    have hi := hl i rfl
    simp [findBack, hc i (by simp), hi]
  | i :: next :: l, hc, hl => by
    have hi := hl i rfl
    simp only [findBack, hc i (by simp), hi, Bool.not_true, Sim.ok_bind, Bool.false_eq_true,
      if_false]
    split_ifs with hmerge
    · refine findBack_interleaved (fun n hn => hc n (mem_cons_of_mem _ hn)) ?_
      rintro n ⟨⟩
      rw [← interleaved_of_mergesWith hmerge]
      exact hi
    · rfl

theorem Inv.finds_last (h : m.Inv) : m.Finds (2 ^ 64 - 1) ↔ m.LookupOk (2 ^ 64 - 1) := by
  have hcond := fun n (hn : n ∈ m.tree) => isSubset_last (h.proper n hn)
  have hout : ∀ n ∈ m.tree, n.first.contains (2 ^ 64 - 1) = false := by
    intro n hn
    have := (h.proper n hn).end_lt
    rw [← Bool.not_eq_true, contains_iff]
    omega
  have hnot : ∀ n m', m.contains (2 ^ 64 - 1) = .ok (some n, m') → ¬ m.Finds (2 ^ 64 - 1) := by
    rintro n m' hm' ⟨x, m'', hm'', hx, -⟩
    have heq := hm'.symm.trans hm''
    cases heq
    obtain ⟨hn, hna⟩ := hx n rfl
    rw [hout n hn] at hna
    cases hna
  obtain ⟨before, after, htree, hub, hbefore, hafter⟩ :=
    upperBound_split h.sorted (rangeSize (2 ^ 64 - 1) 1)
  have hafter' : after = [] := by
    rcases after with _ | ⟨n, after⟩
    · rfl
    · have hlt := hafter n (by simp)
      have hn : n ∈ m.tree := by simp [htree]
      have h1 := (h.proper n hn).start_lt
      have h2 := (h.proper n hn).end_lt
      have hstart : (rangeSize (2 ^ 64 - 1) 1).start = 2 ^ 64 - 1 := rfl
      rw [lt_iff, hstart] at hlt
      omega
  rw [hafter', List.append_nil] at htree
  rw [hafter', ← htree] at hub
  unfold LookupOk
  rw [if_pos rfl]
  by_cases hcached : ∀ n ∈ m.tree, n.id ∈ m.cache → n.first.interleaved = true
  · have hnone : m.findCached (rangeSize (2 ^ 64 - 1) 1).isSubset m.cache = .ok none :=
      findCached_none h (fun n hn hc => by rw [hcond n hn, hcached n hn hc]; rfl) fun c hc => hc
    have hnext : ∀ next ∈ (m.upperBound (rangeSize (2 ^ 64 - 1) 1)).2,
        (rangeSize (2 ^ 64 - 1) 1).isSubset next.first = .ok false := by
      rw [hub]
      simp
    by_cases hlast : ∀ n ∈ m.tree.getLast?, n.first.interleaved = true
    · refine iff_of_true ?_ ⟨hcached, hlast⟩
      obtain ⟨m', hm'⟩ := find_of_back hnone hnext (findBack_interleaved
        (by rw [hub]; exact fun n hn => hcond n (mem_reverse.1 hn))
        (by rw [hub, List.head?_reverse]; exact hlast))
      exact ⟨none, m', hm', by simp, fun _ => hout⟩
    · refine iff_of_false ?_ fun hok => hlast hok.2
      push Not at hlast
      obtain ⟨n, hn, hplain⟩ := hlast
      obtain ⟨front, hfront⟩ := List.getLast?_eq_some_iff.1 hn
      have hback : findBack (rangeSize (2 ^ 64 - 1) 1).isSubset
          (m.upperBound (rangeSize (2 ^ 64 - 1) 1)).1 = .ok (some n) := by
        rw [hub, hfront, List.reverse_append, List.reverse_singleton, List.singleton_append]
        refine findBack_head ?_
        rw [hcond n (by simp [hfront])]
        simpa using hplain
      obtain ⟨m', hm'⟩ := find_of_back hnone hnext hback
      exact hnot n m' hm'
  · refine iff_of_false ?_ fun hok => hcached hok.1
    push Not at hcached
    obtain ⟨n, hn, hc, hplain⟩ := hcached
    obtain ⟨k, hk⟩ := findCached_of_mem h (fun n hn => ⟨_, hcond n hn⟩) hn
      (by rw [hcond n hn]; simpa using hplain) h.cache hc
    exact hnot k _ (find_of_cached hk)

end Lookup

end AddrRangeMap

/-- After any careful calls the cache points to entries of the map, and `contains(a)` answers as the
entries say exactly when `LookupOk` holds at `a`. -/
theorem range_map_lookup_iff {V : Type} (size : ℕ) (os : List (AddrRangeMap.Op V))
    (m : AddrRangeMap V) (xs : List (Option (RangeNode V)))
    (hc : Run.Along AddrRangeMap.step AddrRangeMap.Careful (.empty size) os)
    (hm : Run.run AddrRangeMap.step (.empty size) os = .ok (xs, m)) :
    m.CacheValid ∧ ∀ a < 2 ^ 64, m.Finds a ↔ m.LookupOk a := by
  have h : m.Inv := Run.run_inv (fun _ _ _ _ h hc hs => h.step hc hs)
    (AddrRangeMap.Inv.empty size) hc hm
  refine ⟨h.cache, fun a ha => ?_⟩
  by_cases hlast : a = 2 ^ 64 - 1
  · rw [hlast]
    exact h.finds_last
  · exact h.finds_iff (by omega)

/-- The two members of a group; the second is looked up and the first erased. -/
def channelOps : List (AddrRangeMap.Op ℕ) :=
  [.insert ⟨0, 0x1000, [0x100], 0⟩ 7, .insert ⟨0, 0x1000, [0x100], 1⟩ 8, .contains 0x100,
    .eraseRange (some 0) (some 1)]

theorem channelOps_careful :
    Run.Along AddrRangeMap.step AddrRangeMap.Careful (.empty 3) channelOps := by
  refine (Run.along_cons rfl).2 ⟨⟨⟨⟨by decide, by decide, by decide⟩, by decide⟩, ?_⟩, ?_⟩
  · simp [AddrRangeMap.empty]
  refine (Run.along_cons rfl).2 ⟨⟨⟨⟨by decide, by decide, by decide⟩, by decide⟩, ?_⟩, ?_⟩
  · exact List.forall_mem_singleton.2 fun hone => absurd hone (by decide)
  refine (Run.along_cons rfl).2 ⟨trivial, (Run.along_cons rfl).2 ⟨?_, trivial⟩⟩
  exact List.forall_mem_singleton.2 fun h => absurd rfl h

theorem range_map_lookup_iff_channels : ∃ xs m,
    Run.run AddrRangeMap.step (.empty 3) channelOps = .ok (xs, m) ∧ m.CacheValid ∧
      m.Finds 0x1ff := by
  obtain ⟨hcache, hfinds⟩ := range_map_lookup_iff 3 channelOps _ _ channelOps_careful rfl
  refine ⟨_, _, rfl, hcache, (hfinds 0x1ff (by decide)).2 ?_⟩
  rw [AddrRangeMap.LookupOk, if_neg (by decide)]
  simp

/-- Two pages looked up, and erased together. -/
def erasedOps : List (AddrRangeMap.Op ℕ) :=
  [.insert (.contiguous 0 0x1000) 7, .insert (.contiguous 0x1000 0x2000) 8, .contains 0x1000,
    .eraseRange (some 0) none]

/-- `erase(p, q)` takes `p` only out of the cache: the next lookup follows an iterator to the other
page, which is gone. -/
theorem range_map_stale_cache : ∃ xs m,
    Run.run AddrRangeMap.step (.empty 3 : AddrRangeMap ℕ) erasedOps = .ok (xs, m) ∧
      ¬ m.CacheValid ∧ m.contains 0 = .error (.undefined "dereference of an erased iterator") := by
  refine ⟨_, ⟨3, [], [1], 2⟩, rfl, fun h => ?_, rfl⟩
  obtain ⟨n, hn, -⟩ := h 1 (by simp)
  simp at hn

end Gem5Nvm
