import Gem5Nvm.EventOrder

/-!
# The links of the event queue

An event is inserted before the bins whose key is not smaller than its own, in a bin of its own or
on top of the first of them (`insertBefore_spec`).  To take an event out of a bin leaves the bin
without it, or no bin (`removeItem_spec`).  In both cases one pointer of the bins before has to be
set, that of the last top among them or `head`.
-/

namespace Gem5Nvm.EventQueue

open Function (update update_of_ne update_self)
open Bins Chain
open List (append_assoc append_cons map_append map_cons mem_append mem_cons mem_cons_of_mem
  mem_cons_self nodup_cons mem_map nodup_append mem_singleton)
open Prod (fst)

variable {q : EventQueue} {e t : EventPtr} {log r : List EventPtr}
  {pre post bins : List (Bin EventPtr)} {b : Bin EventPtr}

theorem lt_iff {a b : EventPtr} : (q.event a).lt (q.event b) = true ↔ q.key a < q.key b := by
  rw [key, key, Prod.Lex.toLex_lt_toLex]
  exact decide_eq_true_iff

theorem le_iff {a b : EventPtr} : (q.event a).le (q.event b) = true ↔ q.key a ≤ q.key b := by
  rw [key, key, Prod.Lex.toLex_le_toLex]
  exact decide_eq_true_iff

theorem eq_iff {a b : EventPtr} : (q.event a).eq (q.event b) = true ↔ q.key a = q.key b := by
  rw [key, key, toLex_inj, Prod.mk.injEq]
  exact decide_eq_true_iff

structure Holds (q : EventQueue) (bins : List (Bin EventPtr)) : Prop where
  tops : Path q.nextBin q.head (bins.map fst) none
  inBin : ∀ b ∈ bins, Path q.nextInBin (some b.1) (b.1 :: b.2) none

theorem length_lt_maxRounds {l : List EventPtr} (h : l.Nodup) : l.length < maxRounds := by
  have := h.length_le_card
  rw [Fintype.card_fin] at this
  exact Nat.lt_succ_of_le this

theorem seek_spec (hH : Holds q (b :: bins)) (hB : Binned q.key log (b :: bins))
    (hlt : q.key b.1 < q.key e) :
    ∃ pre p post, b :: bins = pre ++ p :: post ∧
      q.seek e b.1 = .ok (p.1, (post.map fst).head?) ∧ q.key p.1 < q.key e ∧
      ∀ c ∈ post, q.key e ≤ q.key c.1 := by
  set test : Bin EventPtr → Bool := fun c => (q.event c.1).lt (q.event e) with htest
  obtain ⟨l, l', hl, hl', rfl⟩ : ∃ l l', (∀ c ∈ l, test c = true) ∧
      (∀ c, l'.head? = some c → test c = false) ∧ bins = l ++ l' := by
    refine ⟨bins.takeWhile test, bins.dropWhile test, fun c hc => List.mem_takeWhile_imp hc,
      fun c hc => ?_, (List.takeWhile_append_dropWhile ..).symm⟩
    have := List.head?_dropWhile_not test bins
    rw [hc] at this
    simpa using this
  have htops := hH.tops.2
  rw [map_append] at htops
  have hseek : q.seek e b.1 = .ok ((l.map fst).getLastD b.1, (l'.map fst).head?) := by
    unfold seek whileSim
    refine whileLoop_walk (fun _ _ => rfl) (fun _ _ => rfl) (l.map fst) ?_ htops ?_ ?_
    · have hnodup := hB.nodup_tops
      simp only [map_cons, map_append] at hnodup
      exact length_lt_maxRounds (List.Nodup.of_append_left (nodup_cons.1 hnodup).2)
    · intro x hx
      obtain ⟨c, hc, rfl⟩ := mem_map.1 hx
      exact hl c hc
    · intro y
      cases hl0 : l' with
      | nil => rfl
      | cons c cs => exact hl' c (by rw [hl0]; rfl)
  have hge : ∀ c ∈ l', q.key e ≤ q.key c.1 := by
    intro c hc
    cases l' with
    | nil => cases hc
    | cons d ds =>
      have hd : q.key e ≤ q.key d.1 := by
        have := hl' d rfl
        rw [htest, ← Bool.not_eq_true, lt_iff, not_lt] at this
        exact this
      rcases mem_cons.1 hc with rfl | hc
      · exact hd
      · have hsorted := (List.pairwise_cons.1 hB.sorted).2
        have hds := (List.pairwise_append.1 hsorted).2.1
        exact hd.trans ((List.pairwise_cons.1 hds).1 c hc).le
  rcases List.eq_nil_or_concat l with rfl | ⟨l₀, p, rfl⟩
  · exact ⟨[], b, l', rfl, hseek, hlt, hge⟩
  · refine ⟨b :: l₀, p, l', by simp, ?_, lt_iff.1 (hl p (by simp)), hge⟩
    rw [hseek]
    simp

/-- An event goes into a bin of its own, or on top of the bin of its key. -/
theorem insertBefore_spec (hpath : Path q.nextBin (post.map fst).head? (post.map fst) none)
    (hin : ∀ c ∈ post, Path q.nextInBin (some c.1) (c.1 :: c.2) none)
    (hB : Binned q.key log (pre ++ post)) (he : e ∉ log) (hpre : ∀ c ∈ pre, q.key c.1 < q.key e)
    (hpost : ∀ c ∈ post, q.key e ≤ q.key c.1) :
    ∃ post' nb nib, q.insertBefore e (post.map fst).head?
        = { q with nextBin := update q.nextBin e nb
                   nextInBin := update q.nextInBin e nib } ∧
      Path (update q.nextBin e nb) (some e) (post'.map fst) none ∧
      (∀ c ∈ post', Path (update q.nextInBin e nib) (some c.1) (c.1 :: c.2) none) ∧
      Binned q.key (e :: log) (pre ++ post') := by
  have hstack : ∀ c ∈ post, e ∉ c.1 :: c.2 := fun c hc hec =>
    he (hB.mem_log (List.mem_append_right _ hc) hec).1
  have htops : e ∉ post.map fst := fun h => by
    obtain ⟨c, hc, rfl⟩ := mem_map.1 h
    exact hstack c hc mem_cons_self
  have hkeep : ∀ nib, ∀ c ∈ post,
      Path (update q.nextInBin e nib) (some c.1) (c.1 :: c.2) none := fun nib c hc =>
    (path_update (hstack c hc)).2 (hin c hc)
  cases post with
  | nil =>
    refine ⟨[(e, [])], none, none, rfl, by simp, by simp, ?_⟩
    exact hB.newBin hpre (by simp)
  | cons c cs =>
    by_cases hlt : (q.event e).lt (q.event c.1) = true
    · -- a bin of its own
      refine ⟨(e, []) :: c :: cs, some c.1, none, ?_, ?_, ?_, ?_⟩
      · simp only [map_cons, List.head?_cons, insertBefore, if_pos hlt, setNextBin,
          setNextInBin]
      · rw [map_cons, path_cons, update_self]
        exact ⟨rfl, (path_update htops).2 hpath⟩
      · intro d hd
        rcases mem_cons.1 hd with rfl | hd
        · simp
        · exact hkeep none d hd
      · refine hB.newBin hpre fun d hd => ?_
        have hec := lt_iff.1 hlt
        rcases mem_cons.1 hd with rfl | hd
        · exact hec
        · exact hec.trans (hB.around.2 d hd)
    · have hkey : q.key e = q.key c.1 :=
        le_antisymm (hpost c mem_cons_self) (not_lt.1 fun h => hlt (lt_iff.2 h))
      refine ⟨(e, c.1 :: c.2) :: cs, q.nextBin c.1, some c.1, ?_, ?_, ?_, hB.push hkey⟩
      · simp only [map_cons, List.head?_cons, insertBefore, if_neg hlt, setNextBin,
          setNextInBin]
      · rw [map_cons, path_cons, update_self]
        rw [map_cons, mem_cons, not_or] at htops
        exact ⟨rfl, (path_update htops.2).2 hpath.2⟩
      · intro d hd
        rcases mem_cons.1 hd with rfl | hd
        · rw [path_cons, update_self]
          exact ⟨rfl, hkeep _ c mem_cons_self⟩
        · exact hkeep _ d (mem_cons_of_mem _ hd)

theorem tops_relink {next : EventPtr → Option EventPtr} {head p : Option EventPtr}
    {c : Bin EventPtr} (hnodup : ((pre ++ [c]).map fst).Nodup)
    (hpath : ∃ m, Path q.nextBin head ((pre ++ [c]).map fst) m)
    (hnext : ∀ x ∈ (pre ++ [c]).map fst, next x = q.nextBin x)
    (hpost : Path next p (post.map fst) none) (hc : c.1 ∉ post.map fst) :
    Path (update next c.1 p) head ((pre ++ c :: post).map fst) none := by
  obtain ⟨m, hm⟩ := hpath
  rw [map_append, List.map_singleton] at hm hnodup
  have hpre : c.1 ∉ pre.map fst := fun h =>
    (nodup_append.1 hnodup).2.2 _ h _ mem_cons_self rfl
  have hm' : Path next head (pre.map fst ++ [c.1]) m :=
    (path_congr fun x hx => hnext x (by simpa using hx)).2 hm
  rw [map_append, map_cons, append_cons, path_append]
  exact ⟨p, path_relink hm' hpre, (path_update hc).2 hpost⟩

theorem tops_split (hH : Holds q (pre ++ b :: post)) :
    (∃ m, Path q.nextBin q.head ((pre ++ [b]).map fst) m) ∧
      Path q.nextBin (post.map fst).head? (post.map fst) none := by
  have htops := hH.tops
  rw [append_cons, map_append, path_append] at htops
  obtain ⟨m, hm, hpost⟩ := htops
  exact ⟨⟨m, hm⟩, path_head hpost ▸ hpost⟩

section InsertEqns

theorem insert_empty (h : q.head = none) :
    q.insert e = .ok { q.insertBefore e none with head := some e } := by
  simp only [insert, h]

theorem insert_front (h : q.head = some t) (hle : (q.event e).le (q.event t) = true) :
    q.insert e = .ok { q.insertBefore e (some t) with head := some e } := by
  simp only [insert, h, hle, if_true]

theorem insert_behind (h : q.head = some t) (hle : ¬ (q.event e).le (q.event t) = true)
    {s : EventPtr × Option EventPtr} (hseek : q.seek e t = .ok s) :
    q.insert e = .ok ((q.insertBefore e s.2).setNextBin s.1 (some e)) := by
  simp only [insert, h, if_neg hle, hseek]
  rfl

end InsertEqns

theorem insert_spec (hH : Holds q bins) (hB : Binned q.key log bins) (he : e ∉ log) :
    ∃ head nb nib bins', q.insert e
        = .ok { q with head := head, nextBin := nb, nextInBin := nib } ∧
      Holds { q with head := head, nextBin := nb, nextInBin := nib } bins' ∧
      Binned q.key (e :: log) bins' := by
  cases bins with
  | nil =>
    have hB' : Binned q.key log ([] ++ []) := hB
    obtain ⟨post', nb, nib, hq, htops, hin, hB'⟩ := insertBefore_spec (by simp) (by simp) hB' he
      (by simp) (by simp)
    refine ⟨some e, update q.nextBin e nb, update q.nextInBin e nib, post', ?_,
      ⟨htops, hin⟩, hB'⟩
    rw [insert_empty hH.tops, show q.insertBefore e none = _ from hq]
  | cons b bs =>
    have hhead : q.head = some b.1 := hH.tops.1
    by_cases hle : (q.event e).le (q.event b.1) = true
    · -- before the first bin, or on top of it
      have hpost : ∀ c ∈ b :: bs, q.key e ≤ q.key c.1 := fun c hc =>
        (le_iff.1 hle).trans (hB.least (hB.mem_log hc mem_cons_self).1)
      have hB' : Binned q.key log ([] ++ b :: bs) := hB
      obtain ⟨post', nb, nib, hq, htops, hin, hB'⟩ := insertBefore_spec
        (path_head hH.tops ▸ hH.tops) hH.inBin hB' he (by simp) hpost
      refine ⟨some e, update q.nextBin e nb, update q.nextInBin e nib, post', ?_,
        ⟨htops, hin⟩, hB'⟩
      rw [insert_front hhead hle, show q.insertBefore e (some b.1) = _ from hq]
    · have hlt : q.key b.1 < q.key e := not_le.1 fun h => hle (le_iff.2 h)
      obtain ⟨pre, p, post, hsplit, hseek, hp, hpost⟩ := seek_spec hH hB hlt
      rw [hsplit] at hH hB
      obtain ⟨hpath, hpath'⟩ := tops_split hH
      have hpre : ∀ c ∈ pre ++ [p], q.key c.1 < q.key e := by
        intro c hc
        rcases mem_append.1 hc with hc | hc
        · exact (hB.around.1 c hc).trans hp
        · rw [mem_singleton.1 hc]
          exact hp
      rw [append_cons] at hB
      obtain ⟨post', nb, nib, hq, htops, hin, hB'⟩ := insertBefore_spec hpath'
        (fun c hc => hH.inBin c (by simp [hc])) hB he hpre hpost
      have hmem : ∀ c ∈ pre ++ [p], e ∉ c.1 :: c.2 := fun c hc hec =>
        he (hB.mem_log (List.mem_append_left _ hc) hec).1
      have hnodup := hB'.nodup_tops
      rw [map_append] at hnodup
      refine ⟨q.head, update (update q.nextBin e nb) p.1 (some e),
        update q.nextInBin e nib, pre ++ p :: post', ?_, ⟨?_, ?_⟩,
        by rwa [append_cons]⟩
      · rw [insert_behind hhead hle hseek, hq]
        rfl
      · refine tops_relink (List.Nodup.of_append_left hnodup) hpath (fun x hx => ?_) htops ?_
        · obtain ⟨c, hc, rfl⟩ := mem_map.1 hx
          have hne : c.1 ≠ e := fun h => hmem c hc (h ▸ mem_cons_self)
          exact update_of_ne hne ..
        · intro h
          exact (nodup_append.1 hnodup).2.2 p.1 (by simp) p.1 h rfl
      · intro c hc
        rw [append_cons] at hc
        rcases mem_append.1 hc with hc | hc
        · refine (path_update (hmem c hc)).2 (hH.inBin c ?_)
          rw [append_cons]
          exact List.mem_append_left _ hc
        · exact hin c hc

/-- The bin without the event, or no bin; only links of the bin change. -/
theorem removeItem_spec (hn : log.Nodup) (hB : Binned q.key log (pre ++ b :: post))
    (hpath : Path q.nextBin (some b.1) ((b :: post).map fst) none)
    (hin : Path q.nextInBin (some b.1) (b.1 :: b.2) none) (he : e ∈ b.1 :: b.2) :
    ∃ top nb nib mid, q.removeItem e b.1 = .ok (top, { q with nextBin := nb, nextInBin := nib }) ∧
      mid.length ≤ 1 ∧ (mid.map fun c => c.1 :: c.2).flatten = (b.1 :: b.2).erase e ∧
      Path nb top ((mid ++ post).map fst) none ∧
      (∀ c ∈ mid, Path nib (some c.1) (c.1 :: c.2) none) ∧
      (∀ x, x ∉ b.2 → nb x = q.nextBin x) ∧ ∀ x, x ∉ b.1 :: b.2 → nib x = q.nextInBin x := by
  obtain ⟨t, r⟩ := b
  have hnodup := hB.nodup_stack hn (by simp : (t, r) ∈ pre ++ (t, r) :: post)
  have hr : Path q.nextInBin (q.nextInBin t) r none := hin.2
  have hpost : Path q.nextBin (q.nextBin t) (post.map fst) none := hpath.2
  by_cases het : e = t
  · subst het
    rw [List.erase_cons_head]
    cases r with
    | nil =>
      refine ⟨q.nextBin e, q.nextBin, q.nextInBin, [], ?_, by simp, rfl, hpost, by simp,
        fun _ _ => rfl, fun _ _ => rfl⟩
      have hnext : q.nextInBin e = none := hr
      simp only [removeItem, if_true, hnext]
    | cons n r =>
      have hn : n ∉ post.map fst := by
        intro h
        obtain ⟨c, hc, rfl⟩ := mem_map.1 h
        exact hB.disjoint (b := (e, c.1 :: r)) (c := c) (by simp) (by simp [hc])
          (hB.around.2 c hc).ne (by simp) mem_cons_self
      refine ⟨some n, update q.nextBin n (q.nextBin e), q.nextInBin, [(n, r)], ?_, by simp,
        by simp, ?_, ?_, fun x hx => ?_, fun _ _ => rfl⟩
      · have hnext : q.nextInBin e = some n := hr.1
        simp only [removeItem, if_true, hnext, setNextBin]
      · rw [List.singleton_append, map_cons, path_cons, update_self]
        exact ⟨rfl, (path_update hn).2 hpost⟩
      · intro c hc
        rw [mem_singleton.1 hc]
        exact ⟨rfl, hr.2⟩
      · have hne : x ≠ n := fun h => hx (h ▸ mem_cons_self)
        exact update_of_ne hne ..
  · -- the event is under the top
    have her : e ∈ r := (mem_cons.1 he).resolve_left het
    obtain ⟨r₁, r₂, rfl⟩ := List.append_of_mem her
    have hr₁ : e ∉ r₁ := fun h => by
      have := (nodup_cons.1 hnodup).2
      exact (nodup_append.1 this).2.2 e h e mem_cons_self rfl
    have hloop : q.seekInBin e t = .ok (r₁.getLastD t, (e :: r₂).head?) := by
      unfold seekInBin whileSim
      refine whileLoop_walk (c := fun x => decide (x ≠ e)) (fun x a => by simp) (fun _ _ => rfl) r₁
        ?_ hr ?_ (by simp)
      · exact length_lt_maxRounds (List.Nodup.of_append_left (nodup_cons.1 hnodup).2)
      · intro x hx
        exact decide_eq_true fun h => hr₁ (h ▸ hx)
    obtain ⟨l, curr, hl, hcurr⟩ : ∃ l curr, t :: r₁ = l ++ [curr] ∧ r₁.getLastD t = curr := by
      rcases List.eq_nil_or_concat r₁ with rfl | ⟨l, c, rfl⟩
      · exact ⟨[], t, rfl, rfl⟩
      · exact ⟨t :: l, c, by simp, by simp⟩
    have hall : (l ++ [curr] ++ e :: r₂).Nodup := by
      rw [← hl]
      simpa using hnodup
    have hstart : Path q.nextInBin (some t) (l ++ [curr] ++ e :: r₂) none := by
      rw [← hl]
      exact hin
    obtain ⟨m, hm, hrest⟩ := path_append.1 hstart
    have hcl : curr ∉ l := fun h =>
      (nodup_append.1 (List.Nodup.of_append_left hall)).2.2 curr h curr
        mem_cons_self rfl
    have hcr : curr ∉ r₂ := fun h =>
      (nodup_append.1 hall).2.2 curr (by simp) curr (mem_cons_of_mem _ h) rfl
    refine ⟨some t, q.nextBin, update q.nextInBin curr (q.nextInBin e),
      [(t, r₁ ++ r₂)], ?_, by simp, ?_, ⟨rfl, hpost⟩, ?_, fun _ _ => rfl, fun x hx => ?_⟩
    · simp only [removeItem, if_neg het, hloop, hcurr]
      rfl
    · rw [List.erase_cons_tail (by simpa using Ne.symm het), List.erase_append_right _ hr₁,
        List.erase_cons_head]
      simp
    · intro c hc
      rw [mem_singleton.1 hc]
      change Path _ (some t) (t :: (r₁ ++ r₂)) none
      rw [← List.cons_append, hl, path_append]
      exact ⟨_, path_relink hm hcl, (path_update hcr).2 hrest.2⟩
    · have hne : x ≠ curr := by
        rintro rfl
        refine hx ?_
        have : x ∈ t :: r₁ := by simp [hl]
        simp only [mem_cons, mem_append] at this ⊢
        tauto
      exact update_of_ne hne ..

section RemoveEqns

variable {top : Option EventPtr} {q' : EventQueue}

theorem remove_front (h : q.head = some t) (hq : (q.event e).queued = true)
    (heq : (q.event t).eq (q.event e) = true) (hitem : q.removeItem e t = .ok (top, q')) :
    q.remove e = .ok { q' with head := top } := by
  simp only [remove, h, assert_eq_ok.2 hq, Sim.ok_bind, heq, if_true, hitem]
  rfl

theorem remove_behind {prev curr : EventPtr} (h : q.head = some t) (hq : (q.event e).queued = true)
    (hne : ¬ (q.event t).eq (q.event e) = true) (hseek : q.seek e t = .ok (prev, some curr))
    (heq : (q.event curr).eq (q.event e) = true) (hitem : q.removeItem e curr = .ok (top, q')) :
    q.remove e = .ok (q'.setNextBin prev top) := by
  simp only [remove, h, assert_eq_ok.2 hq, Sim.ok_bind, if_neg hne, hseek, heq, if_true, hitem]
  rfl

end RemoveEqns

theorem remove_spec (hn : log.Nodup) (hH : Holds q bins) (hB : Binned q.key log bins)
    (he : e ∈ log) (hq : (q.event e).queued = true) :
    ∃ head nb nib bins', q.remove e
        = .ok { q with head := head, nextBin := nb, nextInBin := nib } ∧
      Holds { q with head := head, nextBin := nb, nextInBin := nib } bins' ∧
      Binned q.key (log.erase e) bins' := by
  obtain ⟨d, hd, hed⟩ := hB.complete e he
  cases bins with
  | nil => cases hd
  | cons b bs =>
    have hhead : q.head = some b.1 := hH.tops.1
    by_cases heq : (q.event b.1).eq (q.event e) = true
    · -- in the first bin
      have hkey : q.key e = q.key b.1 := (eq_iff.1 heq).symm
      have hB' : Binned q.key log ([] ++ b :: bs) := hB
      have hpath : Path q.nextBin (some b.1) ((b :: bs).map fst) none := hhead ▸ hH.tops
      obtain ⟨top, nb, nib, mid, hitem, hlen, hmid, htops, hin, -, hnib⟩ := removeItem_spec hn hB'
        hpath (hH.inBin b mem_cons_self) (hB.mem_stack mem_cons_self he hkey)
      refine ⟨top, nb, nib, mid ++ bs, remove_front hhead hq heq hitem, ⟨htops, fun c hc => ?_⟩,
        hB'.erase hn hkey hlen hmid⟩
      rcases mem_append.1 hc with hc | hc
      · exact hin c hc
      · refine (path_congr fun x hx => hnib x ?_).2 (hH.inBin c (mem_cons_of_mem _ hc))
        exact hB.disjoint (mem_cons_of_mem _ hc) mem_cons_self
          (hB'.around.2 c hc).ne' hx
    · have hlt : q.key b.1 < q.key e :=
        lt_of_le_of_ne (hB.least he) fun h => heq (eq_iff.2 h)
      obtain ⟨pre, p, post, hsplit, hseek, hp, hpost⟩ := seek_spec hH hB hlt
      rw [hsplit] at hH hB hd
      -- the bin of the event is the first of those after `p`
      have hdpost : d ∈ post := by
        rcases mem_append.1 hd with hd | hd
        · exact absurd (hed ▸ (hB.around.1 d hd).trans hp) (lt_irrefl _)
        · rcases mem_cons.1 hd with rfl | hd
          · exact absurd (hed ▸ hp) (lt_irrefl _)
          · exact hd
      obtain ⟨c, cs, rfl⟩ := List.exists_cons_of_ne_nil (List.ne_nil_of_mem hdpost)
      rw [append_cons] at hB
      have hkey : q.key e = q.key c.1 := by
        rcases mem_cons.1 hdpost with rfl | hdcs
        · exact hed
        · exact absurd ((hB.around.2 d hdcs).trans_eq hed.symm)
            (not_lt.2 (hpost c mem_cons_self))
      obtain ⟨hpath, hpath'⟩ := tops_split hH
      obtain ⟨top, nb, nib, mid, hitem, hlen, hmid, htops, hin, hnb, hnib⟩ := removeItem_spec hn hB
        hpath' (hH.inBin c (by simp)) (hB.mem_stack (by simp) he hkey)
      have hB' := hB.erase hn hkey hlen hmid
      have hnodup := hB'.nodup_tops
      rw [append_assoc, map_append] at hnodup
      have hapart : ∀ x ∈ pre ++ [p], ∀ y ∈ x.1 :: x.2, y ∉ c.1 :: c.2 := fun x hx y hy =>
        hB.disjoint (by simp only [mem_append] at hx ⊢; tauto) (by simp)
          (hB.around.1 x hx).ne hy
      refine ⟨q.head, update nb p.1 top, nib, pre ++ p :: (mid ++ cs),
        remove_behind hhead hq heq hseek (eq_iff.2 hkey.symm) hitem, ⟨?_, fun x hx => ?_⟩, ?_⟩
      · refine tops_relink (List.Nodup.of_append_left hnodup) hpath (fun x hx => ?_) htops ?_
        · obtain ⟨y, hy, rfl⟩ := mem_map.1 hx
          exact hnb _ fun h => hapart y hy y.1 mem_cons_self (mem_cons_of_mem _ h)
        · intro h
          exact (nodup_append.1 hnodup).2.2 p.1 (by simp) p.1 h rfl
      · rw [append_cons, ← append_assoc, mem_append, mem_append] at hx
        rcases hx with (hx | hx) | hx
        · refine (path_congr fun y hy => hnib y (hapart x hx y hy)).2 (hH.inBin x ?_)
          rw [append_cons]
          exact List.mem_append_left _ hx
        · exact hin x hx
        · refine (path_congr fun y hy => hnib y ?_).2 (hH.inBin x (by simp [hx]))
          exact hB.disjoint (by simp [hx]) (by simp) (hB.around.2 x hx).ne' hy
      · rwa [append_cons, ← append_assoc]

end Gem5Nvm.EventQueue
