import Gem5Nvm.PageTable

/-!
# What the page table operations change

On a region of one page each loop runs once, so the operations are one update of the table.
-/

namespace Gem5Nvm.EmulationPageTable

open Cursor (next)

variable {t t' : EmulationPageTable}

@[simp] theorem set_pageSize (v : ℕ) (e : Entry) : (t.set v e).pageSize = t.pageSize := rfl

@[simp] theorem erase_pageSize (v : ℕ) : (t.erase v).pageSize = t.pageSize := rfl

theorem set_apply (v : ℕ) (e : Entry) (x : ℕ) :
    (t.set v e).pTable x = if x = v then some e else t.pTable x := Function.update_apply ..

theorem erase_apply (v x : ℕ) :
    (t.erase v).pTable x = if x = v then none else t.pTable x := Function.update_apply ..

/-- What a page of the table may be after `i` rounds of `map`. -/
def MapsTo (t : EmulationPageTable) (vaddr paddr flags i : ℕ) (t' : EmulationPageTable) : Prop :=
  ∀ x, t'.pTable x = t.pTable x ∨ ∃ j < i, x = u64 (vaddr + j * t.pageSize) ∧
    t'.pTable x = some ⟨u64 (paddr + j * t.pageSize), flags⟩

variable {vaddr paddr flags i : ℕ}

theorem MapsTo.next (h : MapsTo t vaddr paddr flags i t') :
    MapsTo t vaddr paddr flags (i + 1) (t'.set (u64 (vaddr + i * t.pageSize))
      ⟨u64 (paddr + i * t.pageSize), flags⟩) := by
  intro x
  rw [set_apply]
  split_ifs with hx
  · exact .inr ⟨i, by omega, hx, rfl⟩
  · rcases h x with h | ⟨j, hj, h⟩
    · exact .inl h
    · exact .inr ⟨j, by omega, h⟩

/-- The loop of `map` after `i` rounds. -/
structure MapRound (t : EmulationPageTable) (vaddr paddr : ℕ) (size : ℤ) (flags i : ℕ)
    (c : Cursor) : Prop where
  pageSize : c.table.pageSize = t.pageSize
  size_eq : c.size = size - i * t.pageSize
  vaddr_eq : c.vaddr = u64 (vaddr + i * t.pageSize)
  other_eq : c.other = u64 (paddr + i * t.pageSize)
  ran : i = 0 ∨ ((i - 1 : ℕ) : ℤ) * t.pageSize < size
  mapsTo : MapsTo t vaddr paddr flags i c.table

theorem u64_add (a b : ℕ) : u64 (u64 a + b) = u64 (a + b) := by
  unfold u64
  rw [Nat.mod_add_mod]

theorem mapPage_round {size : ℤ} {c c' : Cursor} (h : MapRound t vaddr paddr size flags i c)
    (hc : 0 < c.size) (hb : mapPage flags c = .ok c') :
    MapRound t vaddr paddr size flags (i + 1) c' := by
  unfold mapPage at hb
  split_ifs at hb with hmapped
  simp only [Except.ok.injEq] at hb
  subst hb
  have hsize := h.size_eq
  have hmul : (((i + 1 : ℕ) : ℤ)) * t.pageSize = i * t.pageSize + t.pageSize := by push_cast; ring
  have hmul' : (i + 1) * t.pageSize = i * t.pageSize + t.pageSize := by ring
  refine ⟨h.pageSize, ?_, ?_, ?_, .inr ?_, ?_⟩
  · simp only [next, set_pageSize, h.pageSize, hsize, hmul]
    omega
  · simp only [next, set_pageSize, h.pageSize, h.vaddr_eq, u64_add, hmul', Nat.add_assoc]
  · simp only [next, set_pageSize, h.pageSize, h.other_eq, u64_add, hmul', Nat.add_assoc]
  · simp only [Nat.add_sub_cancel]
    omega
  · simp only [next]
    rw [h.vaddr_eq, h.other_eq]
    exact h.mapsTo.next

/-- `map` changes the pages of its region and no other. -/
theorem map_ok {vaddr paddr flags : ℕ} {size : ℤ} (hv : vaddr < 2 ^ 64) (hp : paddr < 2 ^ 64)
    (h : t.map vaddr paddr size flags = .ok t') :
    t.pageOffset vaddr = 0 ∧ t'.pageSize = t.pageSize ∧ ∀ x, t'.pTable x = t.pTable x ∨
      ∃ j : ℕ, (j : ℤ) * t.pageSize < size ∧ x = u64 (vaddr + j * t.pageSize) ∧
        t'.pTable x = some ⟨u64 (paddr + j * t.pageSize), flags⟩ := by
  obtain ⟨u, hassert, c, hloop, h⟩ := Sim.bind₂_eq_ok.1 h
  simp only [Sim.pure_eq, Except.ok.injEq] at h
  subst h
  refine ⟨of_decide_eq_true (assert_eq_ok.1 hassert), ?_⟩
  unfold whileSim at hloop
  have h0 : MapRound t vaddr paddr size flags 0 ⟨t, size, vaddr, paddr⟩ :=
    ⟨rfl, by simp, by simp [u64_of_lt hv], by simp [u64_of_lt hp], .inl rfl, fun x => .inl rfl⟩
  obtain ⟨⟨i, hi⟩, -⟩ := Loop.whileLoop_inv
    (I := fun c => ∃ i, MapRound t vaddr paddr size flags i c)
    (fun c c' hI hc hb => ⟨_, mapPage_round hI.choose_spec (by simpa using hc) hb⟩)
    maxRounds ⟨0, h0⟩ hloop
  refine ⟨hi.pageSize, fun x => (hi.mapsTo x).imp_right ?_⟩
  rintro ⟨j, hj, hx⟩
  refine ⟨j, ?_, hx⟩
  rcases hi.ran with rfl | hran
  · omega
  · have : (j : ℤ) * t.pageSize ≤ ((i - 1 : ℕ) : ℤ) * t.pageSize := by
      exact_mod_cast Nat.mul_le_mul_right _ (by omega)
    omega

section Page

variable {v w : ℕ}

section

variable (hpos : 0 < t.pageSize) (hv : t.pageOffset v = 0)
include hpos hv

/-- `map` of one page sets its entry. -/
theorem map_page {paddr flags : ℕ}
    (hfree : t.pTable v = none ∨ flags &&& MappingFlags.clobber ≠ 0) :
    t.map v paddr t.pageSize flags = .ok (t.set v ⟨paddr, flags⟩) := by
  unfold map
  rw [assert_eq_ok.2 (decide_eq_true hv), Sim.ok_bind]
  have hpage : mapPage flags ⟨t, t.pageSize, v, paddr⟩
      = .ok (next ⟨t, t.pageSize, v, paddr⟩ (t.set v ⟨paddr, flags⟩)) := by
    unfold mapPage
    rw [if_neg]
    rintro ⟨hsome, hflag⟩
    rcases hfree with hfree | hfree
    · simp [hfree] at hsome
    · exact hfree hflag
  rw [whileSim_once (by simpa using hpos) hpage (by simp [next])]
  rfl

theorem unmap_page (hm : (t.pTable v).isSome) : t.unmap v t.pageSize = .ok (t.erase v) := by
  unfold unmap
  rw [assert_eq_ok.2 (decide_eq_true hv), Sim.ok_bind]
  have hpage : unmapPage ⟨t, t.pageSize, v, 0⟩
      = .ok (next ⟨t, t.pageSize, v, 0⟩ (t.erase v)) := by
    unfold unmapPage
    rw [assert_eq_ok.2 hm]
    rfl
  rw [whileSim_once (by simpa using hpos) hpage (by simp [next])]
  rfl

theorem remap_page (hw : t.pageOffset w = 0) {e : Entry} (he : t.pTable v = some e)
    (hn : t.pTable w = none) : t.remap v t.pageSize w = .ok ((t.set w e).erase v) := by
  unfold remap
  rw [assert_eq_ok.2 (decide_eq_true hv), assert_eq_ok.2 (decide_eq_true hw), Sim.ok_bind,
    Sim.ok_bind]
  have hpage : remapPage ⟨t, t.pageSize, v, w⟩
      = .ok (next ⟨t, t.pageSize, v, w⟩ ((t.set w e).erase v)) := by
    simp only [remapPage, he, hn]
  rw [whileSim_once (by simpa using hpos) hpage (by simp [next])]
  rfl

end

theorem remap_page_ok (hpos : 0 < t.pageSize) (h : t.remap v t.pageSize w = .ok t') :
    t.pageOffset v = 0 ∧ t.pageOffset w = 0 ∧
      ∃ e, t.pTable v = some e ∧ t.pTable w = none ∧ t' = (t.set w e).erase v := by
  have h0 := h
  obtain ⟨_, hv, _, hw, h⟩ := Sim.bind₂_eq_ok.1 h
  obtain ⟨c, hloop, h⟩ := Sim.bind_eq_ok.1 h
  have hv := of_decide_eq_true (assert_eq_ok.1 hv)
  have hw := of_decide_eq_true (assert_eq_ok.1 hw)
  have hstuck : ∀ e, remapPage ⟨t, t.pageSize, v, w⟩ ≠ .error e := fun e he => by
    rw [whileSim_error (by simpa using hpos) he] at hloop
    cases hloop
  rcases he : t.pTable v with _ | e
  · exact absurd (by simp only [remapPage, he]; rfl) (hstuck _)
  · rcases hn : t.pTable w with _ | e'
    · rw [remap_page hpos hv hw he hn, Except.ok.injEq] at h0
      exact ⟨hv, hw, e, rfl, rfl, h0.symm⟩
    · exact absurd (by simp only [remapPage, he, hn]; rfl) (hstuck _)

theorem isUnmapped_page (hpos : 0 < t.pageSize) (hv : t.pageOffset v = 0) (hlt : v < 2 ^ 64) :
    t.isUnmapped v t.pageSize = .ok (t.pTable v).isNone := by
  unfold isUnmapped
  rw [assert_eq_ok.2 (decide_eq_true hv), Sim.ok_bind]
  set cond := fun offset : ℕ =>
    decide ((offset : ℤ) < t.pageSize) && (t.pTable (u64 (v + offset))).isNone with hcond
  have h0 : cond 0 = (t.pTable v).isNone := by simp [hcond, u64_of_lt hlt, hpos]
  cases hm : (t.pTable v).isNone with
  | true =>
    have hloop : whileSim cond (fun offset => .ok (offset + t.pageSize)) 0 = .ok (0 + t.pageSize) :=
      whileSim_once (h0.trans hm) rfl (by simp [hcond])
    simp [hloop]
  | false =>
    rw [whileSim_stop (h0.trans hm)]
    simp [hpos]

end Page

end Gem5Nvm.EmulationPageTable
