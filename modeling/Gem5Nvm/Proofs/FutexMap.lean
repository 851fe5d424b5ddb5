import Gem5Nvm.FutexMap

/-!
# The waiters of a futex and the set of waiting contexts

A call that wakes contexts takes them out of a list and out of the set; `requeue` takes those it
wakes out of the list only, and reads the list to move to even if there is none.
-/

namespace Gem5Nvm.FutexMap

open Function (update update_apply update_of_ne update_eq_self)

variable {s s' : FutexMap} {key : FutexKey}

section Loops

/-- The contexts of `ws` have been woken. -/
def Waking.wake (r : Waking) (ws : List WaiterState) : Waking where
  wokenUp := r.wokenUp + ws.length
  activated := r.activated ++ ws.map (·.tc)
  waitingTcs := fun tc => r.waitingTcs tc && !decide (tc ∈ ws.map (·.tc))

theorem wake_nil (r : Waking) : r.wake [] = r := by
  simp [Waking.wake]

theorem wake_cons (r : Waking) (w : WaiterState) (ws : List WaiterState) :
    ((r.activate w).erase w).wake ws = r.wake (w :: ws) := by
  unfold Waking.wake Waking.erase Waking.activate
  congr 1
  · simp only [List.length_cons, Nat.cast_add, Nat.cast_one]
    ring
  · simp
  · funext tc
    by_cases h : tc = w.tc <;> simp [h]

theorem toNat_sub_succ {count woken : ℤ} (h : woken < count) :
    (count - woken).toNat = (count - (woken + 1)).toNat + 1 := by
  omega

theorem wakeupLoop_eq (count : ℤ) : ∀ (l : List WaiterState) (r : Waking), wakeupLoop count l r =
    (l.drop (count - r.wokenUp).toNat, r.wake (l.take (count - r.wokenUp).toNat))
  | [], r => by simp [wakeupLoop, wake_nil]
  | w :: ws, r => by
    rw [wakeupLoop]
    split_ifs with h
    · rw [wakeupLoop_eq count ws, wake_cons, toNat_sub_succ h]
      rfl
    · rw [Int.toNat_of_nonpos (by omega)]
      simp [wake_nil]

theorem bitsetLoop_eq (mask : BitVec 32) : ∀ (l : List WaiterState) (r : Waking),
    bitsetLoop mask l r = (l.filter (!·.checkMask mask), r.wake (l.filter (·.checkMask mask)))
  | [], r => by simp [bitsetLoop, wake_nil]
  | w :: ws, r => by
    rw [bitsetLoop]
    split_ifs with h
    · rw [bitsetLoop_eq mask ws, wake_cons]
      simp [h]
    · rw [bitsetLoop_eq mask ws]
      simp [h]

theorem activated_grows (count : ℤ) : ∀ (l : List WaiterState) (r : Waking),
    r.activated <+: (requeueLoop count l r).2.activated
  | [], r => List.prefix_rfl
  | w :: ws, r => by
    rw [requeueLoop]
    split_ifs
    · exact (List.prefix_append r.activated [w.tc]).trans (activated_grows count ws (r.activate w))
    · exact List.prefix_rfl

theorem requeueLoop_none {count : ℤ} (h : count ≤ 0) (l : List WaiterState) (r : Waking)
    (hr : r.wokenUp = 0) : requeueLoop count l r = (l, r) := by
  rcases l with _ | ⟨w, ws⟩
  · rfl
  · rw [requeueLoop, if_neg (by omega)]

theorem moveLoop_eq (count : ℤ) : ∀ (l : List WaiterState) (n : ℤ) (tmp : List WaiterState),
    moveLoop count l n tmp = (l.drop (count - n).toNat,
      n + (l.take (count - n).toNat).length, tmp ++ l.take (count - n).toNat)
  | [], n, tmp => by simp [moveLoop]
  | w :: ws, n, tmp => by
    rw [moveLoop]
    split_ifs with h
    · rw [moveLoop_eq count ws, toNat_sub_succ h]
      simp only [List.drop_succ_cons, List.take_succ_cons, List.length_cons, Nat.cast_add,
        Nat.cast_one, List.append_assoc, List.cons_append, List.nil_append, Prod.mk.injEq, true_and,
        and_true]
      ring
    · rw [Int.toNat_of_nonpos (by omega)]
      simp

end Loops

/-- The lists and the set agree, and no context is in two places. -/
structure Valid (s : FutexMap) : Prop where
  nonempty : ∀ key, s.lists key ≠ some []
  nodup : ∀ key, (s.names key).Nodup
  apart : ∀ key key' tc, tc ∈ s.names key → tc ∈ s.names key' → key = key'
  waiting : ∀ tc, s.waitingTcs tc = true ↔ ∃ key, tc ∈ s.names key

theorem new_valid : new.Valid :=
  ⟨by simp [new], by simp [names, queue, new], by simp [names, queue, new],
    by simp [names, queue, new]⟩

theorem Valid.waiting_iff (h : s.Valid) (tc : ℕ) : s.isWaiting tc = true ↔ s.InOne tc := by
  rw [isWaiting, h.waiting]
  constructor
  · rintro ⟨key, hmem⟩
    exact ⟨key, List.count_eq_one_of_mem (h.nodup key) hmem,
      fun key' hne hmem' => hne (h.apart _ _ tc hmem' hmem)⟩
  · rintro ⟨key, hcount, -⟩
    exact ⟨key, List.count_pos_iff.1 (by omega)⟩

theorem queue_keep (list : List WaiterState) (w : ℕ → Bool) :
    queue ⟨s.keep key list, w⟩ = update s.queue key list := by
  funext k
  by_cases hk : k = key
  · subst hk
    rcases list <;> simp [queue, keep]
  · simp [queue, keep, hk]

theorem keep_nonempty (h : ∀ k, k ≠ key → s.lists k ≠ some []) (list : List WaiterState)
    (k : FutexKey) : s.keep key list k ≠ some [] := by
  by_cases hk : k = key
  · subst hk
    rcases list <;> simp [keep]
  · simpa [keep, hk] using h k hk

theorem names_of_queue {q : FutexKey → List WaiterState} (h : s.queue = q) (key : FutexKey) :
    s.names key = (q key).map (·.tc) := by
  rw [names, h]

theorem suspendBitset_ok (h : s.Valid) {addr tgid tc : ℕ} (mask : BitVec 32)
    (hfree : ∀ key, tc ∉ s.names key) :
    (s.suspendBitset addr tgid tc mask).queue =
      update s.queue ⟨addr, tgid⟩ (s.queue ⟨addr, tgid⟩ ++ [⟨tc, mask⟩]) ∧
    (s.suspendBitset addr tgid tc mask).Valid := by
  have hq : (s.suspendBitset addr tgid tc mask).queue =
      update s.queue ⟨addr, tgid⟩ (s.queue ⟨addr, tgid⟩ ++ [⟨tc, mask⟩]) := by
    funext k
    by_cases hk : k = ⟨addr, tgid⟩
    · subst hk
      rcases hl : s.lists ⟨addr, tgid⟩ <;> simp [queue, suspendBitset, hl]
    · simp [queue, suspendBitset, hk]
  have hnames : ∀ k, (s.suspendBitset addr tgid tc mask).names k =
      if k = ⟨addr, tgid⟩ then s.names k ++ [tc] else s.names k := by
    intro k
    rw [names_of_queue hq]
    by_cases hk : k = ⟨addr, tgid⟩ <;> simp [hk, names]
  have hmem : ∀ k t, t ∈ (s.suspendBitset addr tgid tc mask).names k ↔
      t ∈ s.names k ∨ (k = ⟨addr, tgid⟩ ∧ t = tc) := by
    intro k t
    rw [hnames]
    by_cases hk : k = ⟨addr, tgid⟩ <;> simp [hk]
  refine ⟨hq, fun k => ?_, fun k => ?_, fun k k' t ht ht' => ?_, fun t => ?_⟩
  · by_cases hk : k = ⟨addr, tgid⟩
    · subst hk
      rcases hl : s.lists ⟨addr, tgid⟩ <;> simp [suspendBitset, hl]
    · simpa [suspendBitset, hk] using h.nonempty k
  · rw [hnames]
    split_ifs
    · exact (h.nodup k).append (List.nodup_singleton tc) (by simpa using hfree k)
    · exact h.nodup k
  · rcases (hmem k t).1 ht with ht | ⟨hk, htc⟩ <;> rcases (hmem k' t).1 ht' with ht' | ⟨hk', htc'⟩
    · exact h.apart k k' t ht ht'
    · exact absurd ht (htc' ▸ hfree k)
    · exact absurd ht' (htc ▸ hfree k')
    · rw [hk, hk']
  · have hset : (s.suspendBitset addr tgid tc mask).waitingTcs t = true ↔
        s.waitingTcs t = true ∨ t = tc := by
      by_cases ht : t = tc <;> simp [suspendBitset, ht]
    rw [hset, h.waiting]
    simp only [hmem, exists_or, exists_eq_left]

/-- What the two kinds of wake-up have in common. -/
theorem wakeWith_ok (h : s.Valid) (key : FutexKey)
    {loop : List WaiterState → Waking → List WaiterState × Waking}
    {woken rest : List WaiterState → List WaiterState} (hloop : ∀ l,
      loop l ⟨0, [], s.waitingTcs⟩ = (rest l, Waking.wake ⟨0, [], s.waitingTcs⟩ (woken l)))
    (hperm : ∀ l, (woken l ++ rest l).Perm l) :
    ∃ s', s.wakeWith loop key = (((woken (s.queue key)).map (·.tc),
        ((woken (s.queue key)).length : ℤ)), s') ∧
      s'.queue = update s.queue key (rest (s.queue key)) ∧ s'.Valid ∧
      ∀ tc ∈ (woken (s.queue key)).map (·.tc), ∀ k, tc ∉ s'.names k := by
  rcases hl : s.lists key with _ | l
  · have hqueue : s.queue key = [] := by simp [queue, hl]
    obtain ⟨hwoken, hrest⟩ := List.append_eq_nil_iff.1 (hperm []).eq_nil
    refine ⟨s, ?_, ?_, h, ?_⟩
    · simp [wakeWith, hl, hqueue, hwoken]
    · rw [hqueue, hrest, ← hqueue, update_eq_self]
    · simp [hqueue, hwoken]
  have hqueue : s.queue key = l := by simp [queue, hl]
  have hp := hperm l
  have hnodup : ((woken l).map (·.tc) ++ (rest l).map (·.tc)).Nodup := by
    rw [← List.map_append, (hp.map _).nodup_iff, ← hqueue]
    exact h.nodup key
  have hsplit : ∀ tc, tc ∈ s.names key ↔
      tc ∈ (woken l).map (·.tc) ∨ tc ∈ (rest l).map (·.tc) := by
    intro tc
    rw [names, hqueue, ← (hp.map _).mem_iff, List.map_append, List.mem_append]
  rw [List.nodup_append] at hnodup
  obtain ⟨-, hrest, hdisj⟩ := hnodup
  rw [wakeWith, hl, hqueue]
  simp only [hloop, Waking.wake, List.nil_append, zero_add]
  refine ⟨_, rfl, queue_keep _ _, ?_⟩
  have hnames : ∀ k, names ⟨s.keep key (rest l), fun tc => s.waitingTcs tc &&
      !decide (tc ∈ (woken l).map (·.tc))⟩ k =
        if k = key then (rest l).map (·.tc) else s.names k := by
    intro k
    rw [names_of_queue (queue_keep _ _)]
    by_cases hk : k = key <;> simp [hk, names]
  have hmem : ∀ k tc, tc ∈ (if k = key then (rest l).map (·.tc) else s.names k) ↔
      tc ∈ s.names k ∧ tc ∉ (woken l).map (·.tc) := by
    intro k tc
    split_ifs with hk
    · subst hk
      rw [hsplit]
      constructor
      · intro hin
        exact ⟨.inr hin, fun hw => hdisj tc hw tc hin rfl⟩
      · exact fun ⟨hor, hnot⟩ => hor.resolve_left hnot
    · refine ⟨fun hin => ⟨hin, fun hw => hk ?_⟩, fun hin => hin.1⟩
      exact h.apart _ _ tc hin ((hsplit tc).2 (.inl hw))
  refine ⟨⟨keep_nonempty (fun k _ => h.nonempty k) _, fun k => ?_, fun k k' tc ht ht' => ?_,
    fun tc => ?_⟩, fun tc htc k hin => ?_⟩
  · rw [hnames]
    split_ifs
    · exact hrest
    · exact h.nodup k
  · rw [hnames, hmem] at ht ht'
    exact h.apart k k' tc ht.1 ht'.1
  · simp only [hnames, hmem, exists_and_right, ← h.waiting, Bool.and_eq_true, Bool.not_eq_true',
      decide_eq_false_iff_not]
  · rw [hnames, hmem] at hin
    exact hin.2 htc

theorem queue_set (lists : FutexKey → Option (List WaiterState)) (w : ℕ → Bool)
    (list : List WaiterState) :
    queue ⟨update lists key (some list), w⟩ = update (queue ⟨lists, w⟩) key list := by
  funext k
  by_cases hk : k = key <;> simp [queue, hk]

/-- The first waiters of a key have been moved to the end of another, or of its own. -/
theorem Valid.moved (h : s.Valid) {key1 key2 : FutexKey} {moved rest : List WaiterState}
    (hl : s.queue key1 = moved ++ rest) (hne : ∀ key, s'.lists key ≠ some [])
    (hw : s'.waitingTcs = s.waitingTcs)
    (hq : s'.queue = update (update s.queue key1 rest) key2
      (update s.queue key1 rest key2 ++ moved)) : s'.Valid := by
  have hsplit : s.names key1 = moved.map (·.tc) ++ rest.map (·.tc) := by
    rw [names, hl, List.map_append]
  have hnodup := h.nodup key1
  rw [hsplit, List.nodup_append] at hnodup
  have hnames : ∀ k, s'.names k = if k = key2 then
      (if key2 = key1 then rest.map (·.tc) else s.names key2) ++ moved.map (·.tc)
      else if k = key1 then rest.map (·.tc) else s.names k := by
    intro k
    rw [names_of_queue hq]
    simp only [update_apply, names, apply_ite (List.map _), List.map_append]
  have hin : ∀ t ∈ moved.map (·.tc), t ∈ s.names key1 := by
    intro t ht
    rw [hsplit]
    exact List.mem_append_left _ ht
  have hmem : ∀ k t, t ∈ s'.names k ↔ (k = key2 ∧ t ∈ moved.map (·.tc)) ∨
      (t ∈ s.names k ∧ ¬ (k = key1 ∧ t ∈ moved.map (·.tc))) := by
    intro k t
    have hdisj : t ∈ moved.map (·.tc) → t ∉ rest.map (·.tc) := fun hm hr => hnodup.2.2 t hm t hr rfl
    have hmem1 : t ∈ s.names key1 ↔ t ∈ moved.map (·.tc) ∨ t ∈ rest.map (·.tc) := by
      rw [hsplit, List.mem_append]
    rw [hnames]
    split_ifs with hk h21 h1
    · simp only [hk, h21, true_and, List.mem_append, hmem1]
      tauto
    · simp only [hk, h21, true_and, false_and, not_false_eq_true, and_true, List.mem_append]
      tauto
    · rw [h1] at hk ⊢
      simp only [hk, true_and, false_and, false_or, hmem1]
      tauto
    · simp [hk, h1]
  refine ⟨hne, fun k => ?_, fun k k' t ht ht' => ?_, fun t => ?_⟩
  · rw [hnames]
    split_ifs with hk h21 h1
    · exact hnodup.2.1.append hnodup.1 fun t hr hm => hnodup.2.2 t hm t hr rfl
    · exact (h.nodup key2).append hnodup.1 fun t ht hm => h21 (h.apart _ _ t ht (hin t hm))
    · exact hnodup.2.1
    · exact h.nodup k
  · rcases (hmem k t).1 ht with ⟨hk, hm⟩ | ⟨ht, hnot⟩ <;>
      rcases (hmem k' t).1 ht' with ⟨hk', hm'⟩ | ⟨ht', hnot'⟩
    · rw [hk, hk']
    · exact absurd ⟨h.apart _ _ t ht' (hin t hm), hm⟩ hnot'
    · exact absurd ⟨h.apart _ _ t ht (hin t hm'), hm'⟩ hnot
    · exact h.apart k k' t ht ht'
  · rw [hw, h.waiting]
    constructor
    · rintro ⟨k, hk⟩
      by_cases hk1 : k = key1 ∧ t ∈ moved.map (·.tc)
      · exact ⟨key2, (hmem key2 t).2 (.inl ⟨rfl, hk1.2⟩)⟩
      · exact ⟨k, (hmem k t).2 (.inr ⟨hk, hk1⟩)⟩
    · rintro ⟨k, hk⟩
      rcases (hmem k t).1 hk with ⟨-, hm⟩ | ⟨hk, -⟩
      · exact ⟨key1, hin t hm⟩
      · exact ⟨k, hk⟩

variable {addr1 tgid addr2 : ℕ}

theorem requeue_ok (h : s.Valid) {count count2 : ℤ}
    (hm : s.Moves (.requeue addr1 tgid count count2 addr2)) :
    ∃ r s', s.requeue addr1 tgid count count2 addr2 = .ok (r, s') ∧
      (r, s'.queue) = s.served (.requeue addr1 tgid count count2 addr2) ∧ s'.Valid ∧
      r.1 = [] := by
  set key1 : FutexKey := ⟨addr1, tgid⟩ with hkey1
  set key2 : FutexKey := ⟨addr2, tgid⟩ with hkey2
  rcases hl : s.lists key1 with _ | l
  · have hqueue : s.queue key1 = [] := by simp [queue, hl]
    refine ⟨([], 0), s, by rw [requeue, ← hkey1, hl], ?_, h, rfl⟩
    simp only [served, ← hkey1, ← hkey2, hqueue, List.take_nil, List.drop_nil, List.map_nil,
      List.length_nil, List.append_nil, update_eq_self, Nat.cast_zero, add_zero]
    rw [← hqueue, update_eq_self]
  obtain ⟨hcount, hdst⟩ : count ≤ 0 ∧ (0 < count2 ∨ s.lists key2 ≠ none) := by
    simpa [Moves, ← hkey1, ← hkey2, hl] using hm
  have hqueue : s.queue key1 = l := by simp [queue, hl]
  have hl0 : l ≠ [] := fun hnil => h.nonempty key1 (by rw [hl, hnil])
  have hmoved : l.take count2.toNat = [] → s.lists key2 ≠ none := by
    intro hnil
    rcases hdst with hpos | hdst
    · rcases List.take_eq_nil_iff.1 hnil with h0 | h0
      · omega
      · exact absurd h0 hl0
    · exact hdst
  set left := update s.lists key1 (some (l.drop count2.toNat)) with hleft
  set list2 := (left key2).getD [] ++ l.take count2.toNat with hlist2
  have hsome : key2 ≠ key1 → list2 ≠ [] := by
    intro hne hnil
    obtain ⟨h2, hnil⟩ := List.append_eq_nil_iff.1 hnil
    obtain ⟨l2, hl2⟩ := Option.ne_none_iff_exists'.1 (hmoved hnil)
    rw [hleft, update_of_ne hne, hl2, Option.getD_some] at h2
    exact h.nonempty key2 (by rw [hl2, h2])
  have hstep : s.requeue addr1 tgid count count2 addr2 =
      .ok (([], ((l.take count2.toNat).length : ℤ)),
        ⟨keep ⟨update left key2 (some list2), s.waitingTcs⟩ key1
          ((update left key2 (some list2) key1).getD []), s.waitingTcs⟩) := by
    rw [requeue, ← hkey1, ← hkey2, hl]
    simp only [requeueLoop_none hcount, moveLoop_eq, sub_zero, List.nil_append, zero_add, ← hleft]
    have hdest : append (left key2) ((l.take count2.toNat).length : ℤ) (l.take count2.toNat)
        = .ok list2 := by
      rcases hk : left key2 with _ | l2
      · have hne : l.take count2.toNat ≠ [] := fun hnil => hmoved hnil (by
          by_cases h21 : key2 = key1
          · simp [hleft, h21] at hk
          · rwa [hleft, update_of_ne h21] at hk)
        rw [append, if_pos (by exact_mod_cast List.length_pos_iff.2 hne), hlist2, hk]
        rfl
      · rw [append, hlist2, hk]
        rfl
    rw [hdest]
    rfl
  have hqueue' : queue ⟨keep ⟨update left key2 (some list2), s.waitingTcs⟩ key1
      ((update left key2 (some list2) key1).getD []), s.waitingTcs⟩ =
      update (update s.queue key1 (l.drop count2.toNat)) key2
        (update s.queue key1 (l.drop count2.toNat) key2 ++ l.take count2.toNat) := by
    have hmid : queue ⟨update left key2 (some list2), s.waitingTcs⟩ = update
        (update s.queue key1 (l.drop count2.toNat)) key2 list2 := by
      rw [queue_set, hleft, queue_set]
    have hget : list2 = update s.queue key1 (l.drop count2.toNat) key2 ++
        l.take count2.toNat := by
      by_cases h21 : key2 = key1 <;> simp [hlist2, hleft, h21, queue]
    rw [queue_keep, hmid, ← hget, ← hmid]
    exact update_eq_self key1 _
  refine ⟨_, _, hstep, ?_, ?_, rfl⟩
  · simp [served, ← hkey1, ← hkey2, hqueue, hqueue', Int.toNat_of_nonpos hcount]
  · refine h.moved (hqueue.trans (List.take_append_drop count2.toNat l).symm) ?_ rfl hqueue'
    refine keep_nonempty (fun k hk => ?_) _
    by_cases h2 : k = key2
    · subst h2
      simpa using hsome hk
    · simpa [h2, hleft, hk] using h.nonempty k

variable {count count2 : ℤ}

theorem requeue_wakes (h : s.Valid) (hm : ¬ s.Moves (.requeue addr1 tgid count count2 addr2)) :
    ¬ s.Exact (.requeue addr1 tgid count count2 addr2) := by
  rintro ⟨r, s', hstep, hserved, hwaiting, hwoken⟩
  simp only [Moves, not_or, not_and, not_lt, not_not] at hm
  obtain ⟨l, hl⟩ := Option.ne_none_iff_exists'.1 hm.1
  have hqueue : s.queue ⟨addr1, tgid⟩ = l := by simp [queue, hl]
  obtain ⟨w, ws, rfl⟩ : ∃ w ws, l = w :: ws := by
    rcases l with _ | ⟨w, ws⟩
    · exact absurd hl (h.nonempty _)
    · exact ⟨w, ws, rfl⟩
  rw [step, requeue, hl] at hstep
  obtain ⟨list2, hlist2, hstep⟩ := Sim.bind_eq_ok.1 hstep
  by_cases hcount : count ≤ 0
  · -- there is nothing to move and no list to move to
    obtain ⟨hcount2, hnone⟩ := hm.2 hcount
    have hne : (⟨addr2, tgid⟩ : FutexKey) ≠ ⟨addr1, tgid⟩ := by
      intro heq
      rw [heq, hl] at hnone
      cases hnone
    simp [append, moveLoop_eq, Int.toNat_of_nonpos hcount2, hne, hnone] at hlist2
  · -- the first waiter is woken and stays in the set
    cases hstep
    have hin : w.tc ∈ (requeueLoop count (w :: ws) ⟨0, [], s.waitingTcs⟩).2.activated := by
      rw [requeueLoop, if_pos (by simpa using hcount)]
      exact (activated_grows count ws _).subset (by simp [Waking.activate])
    have hset : s.waitingTcs w.tc = true := (h.waiting _).2 ⟨_, by
      rw [names, hqueue]
      exact List.mem_cons_self⟩
    obtain ⟨key, hkey, -⟩ := (hwaiting w.tc).1 hset
    exact hwoken w.tc hin key (List.count_pos_iff.1 (by omega))

theorem exact_iff (h : s.Valid) {call : Call} (hlegal : s.Legal call) :
    (s.Exact call ↔ s.Moves call) ∧
      (s.Exact call → ∀ r s', s.step call = .ok (r, s') → s'.Valid) := by
  -- a call that ends well is exact and leaves the lists and the set in agreement
  suffices hcall : s.Moves call → ∃ r s', s.step call = .ok (r, s') ∧
      (r, s'.queue) = s.served call ∧ s'.Valid ∧ ∀ tc ∈ r.1, ∀ key, tc ∉ s'.names key by
    have hmoves : s.Exact call → s.Moves call := by
      intro hexact
      by_contra hm
      cases call with
      | requeue => exact requeue_wakes h hm hexact
      | _ => exact hm trivial
    refine ⟨⟨hmoves, fun hm => ?_⟩, fun hexact r s' hs => ?_⟩
    · obtain ⟨r, s', hs, hserved, hv, hwoken⟩ := hcall hm
      exact ⟨r, s', hs, hserved, hv.waiting_iff, hwoken⟩
    · obtain ⟨r₁, s₁, hs₁, -, hv, -⟩ := hcall (hmoves hexact)
      rw [hs] at hs₁
      cases hs₁
      exact hv
  intro hm
  cases call with
  | suspend addr tgid tc =>
    obtain ⟨hq, hv⟩ := suspendBitset_ok h 0xffffffff#32 hlegal
    exact ⟨_, _, rfl, congrArg (Prod.mk _) hq, hv, by simp⟩
  | suspendBitset addr tgid tc bitmask =>
    obtain ⟨hq, hv⟩ := suspendBitset_ok h bitmask hlegal
    exact ⟨_, _, rfl, congrArg (Prod.mk _) hq, hv, by simp⟩
  | wakeup addr tgid count =>
    obtain ⟨s', hs, hq, hv, hwoken⟩ := wakeWith_ok h ⟨addr, tgid⟩
      (fun l => wakeupLoop_eq count l _) fun l => by simp
    simp only [sub_zero] at hs hq hwoken
    exact ⟨_, s', congrArg Except.ok hs, by rw [hq]; rfl, hv, hwoken⟩
  | wakeupBitset addr tgid bitmask =>
    obtain ⟨s', hs, hq, hv, hwoken⟩ := wakeWith_ok h ⟨addr, tgid⟩
      (fun l => bitsetLoop_eq bitmask l _) fun l => List.filter_append_perm _ l
    exact ⟨_, s', congrArg Except.ok hs, by rw [hq]; rfl, hv, hwoken⟩
  | requeue addr1 tgid count count2 addr2 =>
    obtain ⟨r, s', hs, hserved, hv, hnone⟩ := requeue_ok h hm
    exact ⟨r, s', hs, hserved, hv, by simp [hnone]⟩

/-- Over legal calls each call does what it is for exactly when no `requeue` of a futex with waiters
wakes one, or has neither a waiter to move nor a list to move it to. -/
theorem exact_iff_moves {calls : List Call} (hlegal : Run.Along step Legal new calls) :
    Run.Along step Exact new calls ↔ Run.Along step Moves new calls := by
  have hcongr : Run.Along step (fun s call => s.Legal call ∧ s.Exact call) new calls ↔
      Run.Along step (fun s call => s.Legal call ∧ s.Moves call) new calls :=
    Run.along_congr (I := Valid) (D := fun _ => True)
      (fun s call hv _ => ⟨and_congr_right fun hl => (exact_iff hv hl).1,
        fun hP => (exact_iff hv hP.1).2 hP.2⟩) calls new_valid fun _ _ => trivial
  have hright : ∀ {P : FutexMap → Call → Prop},
      Run.Along step (fun s call => s.Legal call ∧ P s call) new calls →
        Run.Along step P new calls := fun h =>
    Run.along_imp (I := fun _ => True) (fun _ _ _ hP => ⟨hP.2, fun _ _ _ => trivial⟩) calls
      trivial h
  exact ⟨fun h => hright (hcongr.1 (hlegal.and h)), fun h => hright (hcongr.2 (hlegal.and h))⟩

/-- Of two waiters one is moved to another futex and woken there. -/
theorem exact_iff_moves_two : ∃ calls rs s', Run.run step new calls = .ok (rs, s') ∧
    rs.getLast? = some ([1], 1) ∧ Run.Along step Legal new calls ∧
    Run.Along step Exact new calls := by
  have hlegal : Run.Along step Legal new
      [.suspend 0 0 1, .suspend 0 0 2, .requeue 0 0 0 1 8, .wakeup 8 0 5] := by
    refine (Run.along_cons rfl).2 ⟨fun key => by simp [names, queue, new], (Run.along_cons rfl).2
      ⟨fun key => ?_, (Run.along_cons rfl).2 ⟨trivial, (Run.along_cons rfl).2 ⟨trivial, trivial⟩⟩⟩⟩
    by_cases hkey : key = ⟨0, 0⟩ <;> simp [names, queue, suspend, suspendBitset, new, hkey]
  have hmoves : Run.Along step Moves new
      [.suspend 0 0 1, .suspend 0 0 2, .requeue 0 0 0 1 8, .wakeup 8 0 5] :=
    (Run.along_cons rfl).2 ⟨trivial, (Run.along_cons rfl).2 ⟨trivial, (Run.along_cons rfl).2
      ⟨.inr ⟨le_rfl, .inl one_pos⟩, (Run.along_cons rfl).2 ⟨trivial, trivial⟩⟩⟩⟩
  exact ⟨_, _, _, rfl, rfl, hlegal, (exact_iff_moves hlegal).2 hmoves⟩

/-- A context that `requeue` wakes counts as waiting, in no list; and with nothing to move, `requeue`
reads a list that does not exist. -/
theorem requeue_forgets : ∃ s, Run.Reachable step new s ∧
    (∃ s', s.step (.requeue 0 0 1 1 0) = .ok (([1], 1), s') ∧ s'.isWaiting 1 = true ∧
      ∀ key, 1 ∉ s'.names key) ∧
    s.step (.requeue 0 0 0 0 8) = .error (.undefined "it2->second") := by
  refine ⟨_, ⟨[.suspend 0 0 1], _, rfl⟩, ⟨_, rfl, rfl, fun key => ?_⟩, rfl⟩
  by_cases hkey : key = ⟨0, 0⟩
  · subst hkey
    decide
  · simp [names, queue, keep, suspend, suspendBitset, new, hkey]

end Gem5Nvm.FutexMap
