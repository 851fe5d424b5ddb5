import Gem5Nvm.Proofs.Process
import Gem5Nvm.Proofs.Vma

/-!
# What the operations on an address space do

One lemma for each operation of `MemState` that returns: what it leaves in the list of areas and in
the page table.
-/

namespace Gem5Nvm

open EmulationPageTable
open Sim (bind_eq_ok bind₂_eq_ok ok_bind pure_eq)

namespace EmulationPageTable

variable {t t' : EmulationPageTable} {v w : ℕ}

theorem isUnmapped_page_ok (hpos : 0 < t.pageSize) (hlt : v < 2 ^ 64) {b : Bool}
    (h : t.isUnmapped v t.pageSize = .ok b) : t.pageOffset v = 0 ∧ b = (t.pTable v).isNone := by
  have h0 := h
  obtain ⟨_, hv, -⟩ := bind_eq_ok.1 h
  have hv := of_decide_eq_true (assert_eq_ok.1 hv)
  rw [isUnmapped_page hpos hv hlt, Except.ok.injEq] at h0
  exact ⟨hv, h0.symm⟩

theorem erase_of_none (h : t.pTable v = none) : t.erase v = t := by
  unfold erase
  rw [← h, Function.update_eq_self]

end EmulationPageTable

section Pages

variable {c c' : PageCursor}

theorem unmapRegionPage_ok (hpos : 0 < c.table.pageSize) (hlt : c.start < 2 ^ 64)
    (h : unmapRegionPage c.table.pageSize c = .ok c') :
    c.table.pageOffset c.start = 0 ∧ c' = c.next c.table.pageSize (c.table.erase c.start) := by
  obtain ⟨b, hb, t, ht, h⟩ := bind₂_eq_ok.1 h
  cases h
  obtain ⟨hv, rfl⟩ := isUnmapped_page_ok hpos hlt hb
  refine ⟨hv, ?_⟩
  split_ifs at ht with hm
  · cases ht
    rw [erase_of_none (Option.isNone_iff_eq_none.1 hm)]
  · rw [unmap_page hpos hv (by simpa [Option.isSome_iff_ne_none] using hm)] at ht
    cases ht
    rfl

theorem remapRegionPage_ok (hpos : 0 < c.table.pageSize) (hlt : c.start < 2 ^ 64)
    (h : remapRegionPage c.table.pageSize c = .ok c') :
    c.table.pageOffset c.start = 0 ∧
      (c.table.pTable c.start = none ∧ c' = c.next c.table.pageSize c.table ∨
        ∃ e, c.table.pTable c.start = some e ∧ c.table.pageOffset c.newStart = 0 ∧
          c' = c.next c.table.pageSize ((c.table.set c.newStart e).erase c.start)) := by
  obtain ⟨b, hb, t, ht, h⟩ := bind₂_eq_ok.1 h
  cases h
  obtain ⟨hv, rfl⟩ := isUnmapped_page_ok hpos hlt hb
  refine ⟨hv, ?_⟩
  split_ifs at ht with hm
  · cases ht
    exact .inl ⟨Option.isNone_iff_eq_none.1 hm, rfl⟩
  · obtain ⟨-, hw, e, he, -, rfl⟩ := remap_page_ok hpos ht
    exact .inr ⟨e, he, hw, rfl⟩

/-- The page loops after `k` rounds, from a region of `length` bytes at `start`. -/
structure PageRound (t : EmulationPageTable) (start newStart length k : ℕ) (c : PageCursor) :
    Prop where
  pageSize : c.table.pageSize = t.pageSize
  start_eq : c.start = u64 (start + k * t.pageSize)
  newStart_eq : c.newStart = u64 (newStart + k * t.pageSize)
  length_eq : (c.length + k * t.pageSize) % 2 ^ 64 = length
  length_lt : c.length < 2 ^ 64

variable {t : EmulationPageTable} {start newStart length k : ℕ}

section

variable (h : PageRound t start newStart length k c)
include h

theorem PageRound.start_lt : c.start < 2 ^ 64 := by
  rw [h.start_eq]
  exact Nat.mod_lt _ (by norm_num)

theorem PageRound.next (hps : t.pageSize ≤ 2 ^ 64) {t' : EmulationPageTable}
    (ht' : t'.pageSize = c.table.pageSize) :
    PageRound t start newStart length (k + 1) (c.next c.table.pageSize t') := by
  have hmul : (k + 1) * t.pageSize = k * t.pageSize + t.pageSize := by ring
  have hlen := h.length_eq
  refine ⟨ht'.trans h.pageSize, ?_, ?_, ?_, Nat.mod_lt _ (by norm_num)⟩
  · simp only [PageCursor.next, h.pageSize, h.start_eq, u64_add, hmul, Nat.add_assoc]
  · simp only [PageCursor.next, h.pageSize, h.newStart_eq, u64_add, hmul, Nat.add_assoc]
  · have := h.length_lt
    simp only [PageCursor.next, h.pageSize, usub, hmul]
    omega

theorem PageRound.ended (hend : c.length = 0) (hdvd : t.pageSize ∣ 2 ^ 64) :
    t.pageSize ∣ length ∧ length ≤ k * t.pageSize := by
  have hlen := h.length_eq
  rw [hend, Nat.zero_add] at hlen
  refine ⟨?_, hlen ▸ Nat.mod_le _ _⟩
  rw [← hlen]
  exact (Nat.dvd_mod_iff hdvd).2 (Dvd.intro_left _ rfl)

end

theorem pageRound_zero (hs : start < 2 ^ 64) (hn : newStart < 2 ^ 64) (hl : length < 2 ^ 64) :
    PageRound t start newStart length 0 ⟨t, start, newStart, length⟩ :=
  ⟨rfl, by simp [u64_of_lt hs], by simp [u64_of_lt hn], by simpa using hl, hl⟩

theorem unmapPages_ok (hpos : 0 < t.pageSize) (hdvd : t.pageSize ∣ 2 ^ 64) (hs : start < 2 ^ 64)
    (hl : length < 2 ^ 64)
    (h : doWhileSim (fun c : PageCursor => decide (0 < c.length)) (unmapRegionPage t.pageSize)
      ⟨t, start, 0, length⟩ = .ok c) :
    t.pageOffset start = 0 ∧ c.table.pageSize = t.pageSize ∧
      (∀ v, c.table.pTable v = t.pTable v ∨ c.table.pTable v = none) ∧
      ∀ i, i * t.pageSize < length → c.table.pTable (u64 (start + i * t.pageSize)) = none := by
  have hoff : t.pageOffset start = 0 := by
    obtain ⟨c₁, hb, -⟩ := Loop.bind_eq_ok.1 h
    exact (unmapRegionPage_ok (c := ⟨t, start, 0, length⟩) hpos hs hb).1
  let I : ℕ → PageCursor → Prop := fun k c => PageRound t start 0 length k c ∧
    (∀ v, c.table.pTable v = t.pTable v ∨ c.table.pTable v = none) ∧
    ∀ i < k, c.table.pTable (u64 (start + i * t.pageSize)) = none
  have hstep : ∀ k c c', I k c → unmapRegionPage t.pageSize c = .ok c' → I (k + 1) c' := by
    rintro k c c' ⟨hr, hold, hnone⟩ hb
    rw [← hr.pageSize] at hb
    obtain ⟨-, rfl⟩ := unmapRegionPage_ok (hr.pageSize ▸ hpos) hr.start_lt hb
    refine ⟨hr.next (Nat.le_of_dvd (by norm_num) hdvd) rfl, fun v => ?_, fun i hi => ?_⟩
    · simp only [PageCursor.next, erase_apply]
      split_ifs
      · exact .inr rfl
      · exact hold v
    · simp only [PageCursor.next, erase_apply, hr.start_eq]
      split_ifs with hv
      · rfl
      · exact hnone i (by rcases Nat.lt_succ_iff_lt_or_eq.1 hi with hi | rfl <;> tauto)
  have h0 : I 0 ⟨t, start, 0, length⟩ :=
    ⟨pageRound_zero hs (by norm_num) hl, fun v => .inl rfl, fun i hi => absurd hi (by omega)⟩
  obtain ⟨⟨k, hr, hold, hnone⟩, hend⟩ := Loop.doWhile_inv (I := fun c => ∃ k, I k c)
    (fun c' hb => ⟨1, hstep 0 _ c' h0 hb⟩) (fun c c' hI _ hb => ⟨_, hstep _ c c' hI.choose_spec hb⟩) h
  obtain ⟨-, hle⟩ := hr.ended (by simpa using hend) hdvd
  exact ⟨hoff, hr.pageSize, hold, fun i hi => hnone i (Nat.lt_of_mul_lt_mul_right (hi.trans_le hle))⟩

theorem PageRound.remapped {c' : PageCursor} (hr : PageRound t start newStart length k c)
    (hpos : 0 < t.pageSize) (hdvd : t.pageSize ∣ 2 ^ 64)
    (hb : remapRegionPage t.pageSize c = .ok c') : PageRound t start newStart length (k + 1) c' := by
  have hps := Nat.le_of_dvd (by norm_num) hdvd
  rw [← hr.pageSize] at hb
  obtain ⟨-, ⟨-, rfl⟩ | ⟨e, -, -, rfl⟩⟩ := remapRegionPage_ok (hr.pageSize ▸ hpos) hr.start_lt hb
  · exact hr.next hps rfl
  · exact hr.next hps rfl

theorem remapPages_dvd (hpos : 0 < t.pageSize) (hdvd : t.pageSize ∣ 2 ^ 64) (hs : start < 2 ^ 64)
    (hn : newStart < 2 ^ 64) (hl : length < 2 ^ 64)
    (h : doWhileSim (fun c : PageCursor => decide (0 < c.length)) (remapRegionPage t.pageSize)
      ⟨t, start, newStart, length⟩ = .ok c) : t.pageSize ∣ length := by
  obtain ⟨⟨k, hr⟩, hend⟩ := Loop.doWhile_inv (I := fun c => ∃ k, PageRound t start newStart length k c)
    (fun c' hb => ⟨1, (pageRound_zero hs hn hl).remapped hpos hdvd hb⟩)
    (fun c c' hI _ hb => ⟨_, hI.choose_spec.remapped hpos hdvd hb⟩) h
  exact (hr.ended (by simpa using hend) hdvd).1

/-- What is mapped once `k` pages of a region have been moved: what was mapped and is not among
them, and what they have become. -/
def MovedPages (t : EmulationPageTable) (start newStart k : ℕ) (c : PageCursor) : Prop :=
  ∀ v, c.table.pTable v ≠ none →
    (c.table.pTable v = t.pTable v ∧ ∀ i < k, v ≠ start + i * t.pageSize) ∨
    ∃ j < k, v = newStart + j * t.pageSize ∧ t.pageOffset v = 0 ∧
      t.pTable (start + j * t.pageSize) ≠ none

theorem remapRegionPage_moved {c c' : PageCursor} (hpos : 0 < t.pageSize)
    (hs : start + length < 2 ^ 64) (hn : newStart + length < 2 ^ 64)
    (hapart : newStart < start ∨ start + length ≤ newStart) (hk : k * t.pageSize < length)
    (hr : PageRound t start newStart length k c) (hm : MovedPages t start newStart k c)
    (hb : remapRegionPage t.pageSize c = .ok c') : MovedPages t start newStart (k + 1) c' := by
  have hstart : c.start = start + k * t.pageSize := by rw [hr.start_eq, u64_of_lt (by omega)]
  have hnew : c.newStart = newStart + k * t.pageSize := by
    rw [hr.newStart_eq, u64_of_lt (by omega)]
  rw [← hr.pageSize] at hb
  obtain ⟨-, ⟨hnone, rfl⟩ | ⟨e, he, hoff, rfl⟩⟩ :=
    remapRegionPage_ok (hr.pageSize ▸ hpos) hr.start_lt hb
  · intro v hv
    simp only [PageCursor.next] at hv ⊢
    rcases hm v hv with ⟨hold, hne⟩ | ⟨j, hj, h⟩
    · refine .inl ⟨hold, fun i hi => ?_⟩
      rcases Nat.lt_succ_iff_lt_or_eq.1 hi with hi | rfl
      · exact hne i hi
      · rintro rfl
        exact hv (hstart ▸ hnone)
    · exact .inr ⟨j, by omega, h⟩
  · -- the page met here is the one that was there at first: no page has been moved onto it
    have hfirst : t.pTable (start + k * t.pageSize) ≠ none := by
      rw [hstart] at he
      rcases hm _ (by rw [he]; exact Option.some_ne_none e) with ⟨hold, -⟩ | ⟨j, hj, hjk, -⟩
      · rw [← hold, he]
        exact Option.some_ne_none e
      · have : j * t.pageSize < k * t.pageSize := Nat.mul_lt_mul_of_pos_right hj hpos
        omega
    intro v hv
    simp only [PageCursor.next, erase_apply, set_apply] at hv ⊢
    split_ifs at hv ⊢ with h₁ h₂
    · exact absurd rfl hv
    · refine .inr ⟨k, by omega, h₂.trans hnew, ?_, hfirst⟩
      rw [h₂]
      simpa [pageOffset, hr.pageSize] using hoff
    · rcases hm v hv with ⟨hold, hne⟩ | ⟨j, hj, h⟩
      · refine .inl ⟨hold, fun i hi => ?_⟩
        rcases Nat.lt_succ_iff_lt_or_eq.1 hi with hi | rfl
        · exact hne i hi
        · exact fun h => h₁ (h.trans hstart.symm)
      · exact .inr ⟨j, by omega, h⟩

theorem remapPages_ok (hpos : 0 < t.pageSize) (hdvd : t.pageSize ∣ 2 ^ 64) (hl : 0 < length)
    (hs : start + length < 2 ^ 64) (hn : newStart + length < 2 ^ 64)
    (hapart : newStart < start ∨ start + length ≤ newStart)
    (h : doWhileSim (fun c : PageCursor => decide (0 < c.length)) (remapRegionPage t.pageSize)
      ⟨t, start, newStart, length⟩ = .ok c) :
    t.pageOffset start = 0 ∧ c.table.pageSize = t.pageSize ∧
      ∃ k, k * t.pageSize = length ∧ MovedPages t start newStart k c := by
  have hoff : t.pageOffset start = 0 := by
    obtain ⟨c₁, hb, -⟩ := Loop.bind_eq_ok.1 h
    have hlt : start < 2 ^ 64 := by omega
    exact (remapRegionPage_ok (c := ⟨t, start, newStart, length⟩) hpos hlt hb).1
  obtain ⟨n, hn'⟩ := remapPages_dvd hpos hdvd (by omega) (by omega) (by omega) h
  let I : ℕ → PageCursor → Prop := fun k c =>
    PageRound t start newStart length k c ∧ k * t.pageSize ≤ length ∧ MovedPages t start newStart k c
  have hstep : ∀ k c c', I k c → k * t.pageSize < length →
      remapRegionPage t.pageSize c = .ok c' → I (k + 1) c' := by
    rintro k c c' ⟨hr, -, hm⟩ hk hb
    have hm' := remapRegionPage_moved hpos hs hn hapart hk hr hm hb
    have hk' : (k + 1) * t.pageSize ≤ length := by
      rw [hn', Nat.mul_comm t.pageSize n] at hk ⊢
      exact Nat.mul_le_mul_right _ (Nat.lt_of_mul_lt_mul_right hk)
    exact ⟨hr.remapped hpos hdvd hb, hk', hm'⟩
  have h0 : I 0 ⟨t, start, newStart, length⟩ :=
    ⟨pageRound_zero (by omega) (by omega) (by omega), by omega,
      fun v hv => .inl ⟨rfl, fun i hi => absurd hi (by omega)⟩⟩
  obtain ⟨⟨k, hr, hk, hm⟩, hend⟩ := Loop.doWhile_inv (I := fun c => ∃ k, I k c)
    (fun c' hb => ⟨1, hstep 0 _ c' h0 (by omega) hb⟩)
    (fun c c' hI hc hb => by
      obtain ⟨k, hk⟩ := hI
      have hc : 0 < c.length := by simpa using hc
      have hlen := hk.1.length_eq
      have hlt := hk.1.length_lt
      have hle := hk.2.1
      exact ⟨k + 1, hstep k c c' hk (by omega) hb⟩) h
  obtain ⟨-, hle⟩ := hr.ended (by simpa using hend) hdvd
  exact ⟨hoff, hr.pageSize, k, by omega, hm⟩

end Pages

theorem System.skipNvm_lt {sys : System} {ret ptr r q : ℕ} (hret : ret < 2 ^ 64)
    (h : sys.skipNvm ret ptr = .ok (r, q)) : r < 2 ^ 64 := by
  unfold System.skipNvm whileSim at h
  refine (Loop.whileLoop_inv (I := fun s : ℕ × ℕ => s.1 < 2 ^ 64) ?_ maxRounds hret h).1
  intro s s' _ _ hb
  simp only [Except.ok.injEq] at hb
  subst hb
  exact Nat.mod_lt _ (by norm_num)

theorem System.allocPagesFor_ok {sys sys' : System} {v ret : ℕ} {n : ℤ}
    (h : sys.allocPagesFor v n = .ok (ret, sys')) :
    ret < 2 ^ 64 ∧ sys'.pageShift = sys.pageShift := by
  unfold System.allocPagesFor at h
  split_ifs at h with hv
  · simp only [pure_eq, Except.ok.injEq, System.allocNVMPhysPages, Prod.mk.injEq] at h
    obtain ⟨rfl, rfl⟩ := h
    exact ⟨Nat.mod_lt _ (by norm_num), rfl⟩
  · obtain ⟨⟨r, q⟩, hskip, h⟩ := bind_eq_ok.1 h
    have hr := System.skipNvm_lt (Nat.mod_lt _ (by norm_num)) hskip
    dsimp only at h
    split_ifs at h with hm hfull hfull <;>
      simp only [pure_eq, Except.ok.injEq, Prod.mk.injEq] at h <;> obtain ⟨rfl, rfl⟩ := h
    · exact ⟨by norm_num, rfl⟩
    · exact ⟨hr, rfl⟩

namespace Process

variable {p p' : Process}

theorem Uniform.pos (hu : p.Uniform) : 0 < p.pTable.pageSize := by
  rw [hu.pTable]
  exact System.pageBytes_pos _

theorem Uniform.dvd (hu : p.Uniform) : p.pTable.pageSize ∣ 2 ^ 64 := by
  rw [hu.pTable]
  exact pow_dvd_pow 2 hu.shift.le

theorem Uniform.pageBytes_eq (hu : p.Uniform) : p.memState.pageBytes = p.pTable.pageSize :=
  hu.memState.trans hu.pTable.symm

theorem Uniform.pageBytes_pos (hu : p.Uniform) : 0 < p.memState.pageBytes :=
  hu.pageBytes_eq ▸ hu.pos

theorem Uniform.congr (hu : p.Uniform) (hm : p'.memState.pageBytes = p.memState.pageBytes)
    (ht : p'.pTable.pageSize = p.pTable.pageSize)
    (hs : p'.system.pageShift = p.system.pageShift) : p'.Uniform := by
  have hb : p'.system.pageBytes = p.system.pageBytes := by
    unfold System.pageBytes
    rw [hs]
  exact ⟨hm.trans (hu.memState.trans hb.symm), ht.trans (hu.pTable.trans hb.symm), hs ▸ hu.shift⟩

variable {start length : ℕ}

theorem isUnmapped_true (h : p.isUnmapped start length = .ok true) :
    ∀ v ∈ p.memState.vmaList, v.start ≥ u64 (start + length) ∨ v.end_ ≤ start := by
  unfold isUnmapped at h
  dsimp only at h
  split_ifs at h with hany
  · cases h
  intro v hv
  by_contra hmeet
  exact hany (List.any_eq_true.2 ⟨v, hv, by simpa [Vma.intersects, not_or] using hmeet⟩)

theorem isUnmapped_eq_false {v : Vma} (hv : v ∈ p.memState.vmaList)
    (hmeet : v.start < u64 (start + length) ∧ start < v.end_) :
    p.isUnmapped start length = .ok false := by
  unfold isUnmapped
  dsimp only
  rw [if_pos (List.any_eq_true.2 ⟨v, hv, ?_⟩)]
  simpa [Vma.intersects] using hmeet

section IsUnmapped

variable {start n : ℕ}

/-- The region of `n` pages from `start` on that the loop of `isUnmapped` walks. -/
structure Region (p : Process) (start n : ℕ) : Prop where
  uniform : p.Uniform
  start_dvd : p.pTable.pageSize ∣ start
  lt : start + n * p.pTable.pageSize < 2 ^ 64
  free : ∀ v ∈ p.memState.vmaList, v.start ≥ start + n * p.pTable.pageSize ∨ v.end_ ≤ start

theorem Region.not_any (h : Region p start n) :
    ¬ p.memState.vmaList.any (·.intersects start (u64 (start + n * p.pTable.pageSize))) := by
  rw [List.any_eq_true]
  rintro ⟨v, hv, hmeet⟩
  have hfree := h.free v hv
  rw [u64_of_lt h.lt] at hmeet
  simp only [Vma.intersects, Bool.not_eq_true', decide_eq_false_iff_not, not_or] at hmeet
  omega

theorem lookup_pages {t : EmulationPageTable} (hs : t.pageSize ∣ start) (i : ℕ) :
    t.lookup (start + i * t.pageSize) = t.pTable (start + i * t.pageSize) :=
  lookup_page (Nat.mod_eq_zero_of_dvd (Dvd.dvd.add hs (Dvd.intro_left _ rfl)))

section

variable (h : Region p start n)
include h

theorem Region.checkPage {i : ℕ} (hi : i < n)
    (hnone : p.pTable.pTable (start + i * p.pTable.pageSize) = none) :
    decide (start + i * p.pTable.pageSize < u64 (start + n * p.pTable.pageSize)) = true ∧
      p.checkPage (start + i * p.pTable.pageSize)
        = .ok (start + (i + 1) * p.pTable.pageSize) := by
  have hmul : (i + 1) * p.pTable.pageSize = i * p.pTable.pageSize + p.pTable.pageSize := by ring
  have hle : (i + 1) * p.pTable.pageSize ≤ n * p.pTable.pageSize := Nat.mul_le_mul_right _ hi
  have hpos := h.uniform.pos
  have hlt := h.lt
  refine ⟨decide_eq_true (by rw [u64_of_lt hlt]; omega), ?_⟩
  unfold Process.checkPage
  rw [lookup_pages h.start_dvd, hnone, h.uniform.pageBytes_eq, hmul]
  simp only [Option.isSome_none, Bool.false_eq_true, if_false]
  rw [u64_of_lt (by omega), Nat.add_assoc]

theorem Region.lt_maxRounds : n < maxRounds := by
  have hn : n ≤ n * p.pTable.pageSize := Nat.le_mul_of_pos_right n h.uniform.pos
  have hlt := h.lt
  unfold maxRounds
  omega

theorem Region.isUnmapped
    (hnone : ∀ i < n, p.pTable.pTable (start + i * p.pTable.pageSize) = none) :
    p.isUnmapped start (n * p.pTable.pageSize) = .ok true := by
  have hloop : whileSim (fun s => decide (s < u64 (start + n * p.pTable.pageSize))) p.checkPage start
      = .ok (start + n * p.pTable.pageSize) :=
    Loop.whileLoop_count (fun i => start + i * p.pTable.pageSize) (by simp) h.lt_maxRounds
      (fun i hi => h.checkPage hi (hnone i hi)) (by simp [u64_of_lt h.lt])
  unfold Process.isUnmapped
  dsimp only
  rw [if_neg h.not_any, hloop]
  rfl

theorem Region.isUnmapped_panics {m : ℕ} (hm : m < n)
    (hnone : ∀ i < m, p.pTable.pTable (start + i * p.pTable.pageSize) = none)
    (hsome : p.pTable.pTable (start + m * p.pTable.pageSize) ≠ none) :
    ∃ e, p.isUnmapped start (n * p.pTable.pageSize) = .error e := by
  have hmn : m * p.pTable.pageSize < n * p.pTable.pageSize :=
    Nat.mul_lt_mul_of_pos_right hm h.uniform.pos
  have hlook : (p.pTable.lookup (start + m * p.pTable.pageSize)).isSome = true := by
    rw [lookup_pages h.start_dvd]
    exact Option.isSome_iff_ne_none.2 hsome
  have hend : decide (start + m * p.pTable.pageSize < u64 (start + n * p.pTable.pageSize)) = true := by
    rw [u64_of_lt h.lt]
    exact decide_eq_true (by omega)
  have hloop : ∃ e, whileSim (fun s => decide (s < u64 (start + n * p.pTable.pageSize)))
      p.checkPage start = .error e :=
    ⟨_, Loop.whileLoop_count_error (fun i => start + i * p.pTable.pageSize) (by simp)
      (hm.trans h.lt_maxRounds) (fun i hi => h.checkPage (hi.trans hm) (hnone i hi)) hend
      (if_pos hlook)⟩
  obtain ⟨e, he⟩ := hloop
  unfold Process.isUnmapped
  dsimp only
  rw [if_neg h.not_any, he]
  exact ⟨e, rfl⟩

theorem Region.mapRegion (hn : 0 < n)
    (hnone : ∀ i < n, p.pTable.pTable (start + i * p.pTable.pageSize) = none) (name : String) :
    p.mapRegion start (n * p.pTable.pageSize) name none 0 = .ok (p.setMemState
      { p.memState with
        vmaList := p.memState.vmaList ++ [⟨start, start + n * p.pTable.pageSize, name, none⟩] }) := by
  have hpos := h.uniform.pos
  have hlen : 0 < n * p.pTable.pageSize := Nat.mul_pos hn hpos
  unfold Process.mapRegion
  have hnew : Vma.new p.memState.pageBytes start (u64 (start + n * p.pTable.pageSize)) name none 0
      = .ok ⟨start, start + n * p.pTable.pageSize, name, none⟩ := by
    rw [u64_of_lt h.lt, h.uniform.pageBytes_eq]
    refine Vma.sanityCheck_eq_ok.2 ⟨rfl, ?_, h.start_dvd, ?_⟩
    · exact Nat.lt_add_of_pos_right hlen
    · exact Dvd.dvd.add h.start_dvd (Dvd.intro_left _ rfl)
  rw [h.isUnmapped hnone, ok_bind, assert_eq_ok.2 rfl, ok_bind, hnew]
  rfl

end

end IsUnmapped

variable {start length offset : ℕ}

variable {file : Option HostFile}

/-- An area is added where there was none. -/
theorem mapRegion_ok {name : String} (h : p.mapRegion start length name file offset = .ok p') :
    ∃ v : Vma, p' = p.setMemState { p.memState with vmaList := p.memState.vmaList ++ [v] } ∧
      v.Sane p.memState.pageBytes ∧ v.start = start ∧ v.end_ = u64 (start + length) ∧
      v.name = name ∧ ∀ w ∈ p.memState.vmaList, Disjoint w.bytes v.bytes := by
  obtain ⟨b, hb, _, ha, h⟩ := bind₂_eq_ok.1 h
  obtain ⟨v, hv, h⟩ := bind_eq_ok.1 h
  cases h
  obtain ⟨buf, -, hv⟩ := bind_eq_ok.1 hv
  obtain ⟨rfl, hlt, hs, he⟩ := Vma.sanityCheck_eq_ok.1 hv
  rw [assert_eq_ok.1 ha] at hb
  refine ⟨_, rfl, ⟨hlt, Nat.mod_lt _ (by norm_num), hs, he⟩, rfl, rfl, rfl, fun w hw => ?_⟩
  have := isUnmapped_true hb w hw
  rw [Set.disjoint_left]
  intro a ha ha'
  rw [Vma.mem_bytes] at ha ha'
  dsimp only at ha'
  omega

theorem mapRegion_vmasOk {name : String} (h : p.mapRegion start length name file offset = .ok p')
    (hok : VmasOk p.memState.pageBytes p.memState.vmaList) :
    VmasOk p'.memState.pageBytes p'.memState.vmaList ∧
      covered p.memState.vmaList ⊆ covered p'.memState.vmaList := by
  obtain ⟨v, rfl, hv, -, -, -, hd⟩ := mapRegion_ok h
  refine ⟨vmasOk_append.2 ⟨hok, vmasOk_singleton hv, ?_⟩, ?_⟩
  · rw [Set.disjoint_left]
    rintro a ⟨w, hw, ha⟩ ha'
    rw [covered_cons, covered_nil, Set.union_empty] at ha'
    exact Set.disjoint_left.1 (hd w hw) ha ha'
  · simp only [setMemState, covered_append]
    exact Set.subset_union_left

theorem exists_page {n a b : ℕ} (ha : n ∣ a) (hb : n ∣ b) (hle : b ≤ a) : ∃ i, a = b + i * n := by
  obtain ⟨i, hi⟩ := Nat.dvd_sub ha hb
  exact ⟨i, by rw [Nat.mul_comm, ← hi]; omega⟩

/-- A range is taken out of the areas and of the page table. -/
theorem unmapRegion_ok (hu : p.Uniform) (hs : start + length < 2 ^ 64)
    (hok : VmasOk p.memState.pageBytes p.memState.vmaList)
    (h : p.unmapRegion start length = .ok p') :
    ∃ l t, p' = { p with memState := { p.memState with vmaList := l }, pTable := t } ∧
      VmasOk p.memState.pageBytes l ∧
      covered l = covered p.memState.vmaList \ Set.Ico start (start + length) ∧
      t.pageSize = p.pTable.pageSize ∧
      (∀ v, t.pTable v = p.pTable.pTable v ∨ t.pTable v = none) ∧
      ∀ v, p.pTable.pageSize ∣ v → start ≤ v ∧ v < start + length → t.pTable v = none := by
  obtain ⟨l, hl, c, hc, h⟩ := bind₂_eq_ok.1 h
  cases h
  rw [u64_of_lt hs] at hl
  obtain ⟨hlok, hcov⟩ := unmapVmas_ok (by omega) hok hl
  rw [hu.pageBytes_eq] at hc
  obtain ⟨hoff, hps, hold, hnone⟩ := unmapPages_ok hu.pos hu.dvd (by omega) (by omega) hc
  refine ⟨l, c.table, rfl, hlok, hcov, hps, hold, fun v hv hin => ?_⟩
  obtain ⟨i, hi⟩ := exists_page hv (Nat.dvd_of_mod_eq_zero hoff) hin.1
  rw [← hnone i (by omega), u64_of_lt (by omega), hi]

/-- A range is moved in the areas and in the page table. -/
theorem remapRegion_ok (hu : p.Uniform) {start newStart length : ℕ}
    (hclean : p.MovesCleanly start newStart length)
    (hok : VmasOk p.memState.pageBytes p.memState.vmaList)
    (h : p.remapRegion start newStart length = .ok p') :
    ∃ l t, p' = { p with memState := { p.memState with vmaList := l }, pTable := t } ∧
      VmasOk p.memState.pageBytes l ∧
      (∀ a, a ∈ covered l ↔
        (a ∈ covered p.memState.vmaList ∧ ¬ (start ≤ a ∧ a < start + length)) ∨
          (newStart ≤ a ∧ a < newStart + length) ∧
            a - newStart + start ∈ covered p.memState.vmaList) ∧
      t.pageSize = p.pTable.pageSize ∧
      ∀ v, t.pTable v ≠ none →
        (t.pTable v = p.pTable.pTable v ∧
          (p.pTable.pageSize ∣ v → ¬ (start ≤ v ∧ v < start + length))) ∨
        (newStart ≤ v ∧ v < newStart + length) ∧ p.pTable.pageSize ∣ v ∧
          p.pTable.pTable (v - newStart + start) ≠ none := by
  obtain ⟨l, hl, c, hc, h⟩ := bind₂_eq_ok.1 h
  cases h
  have hpos := hclean.length_pos
  have hsl := hclean.start_lt
  rw [u64_of_lt hsl] at hl
  have hlen : start + length - start = length := by omega
  obtain ⟨hlok, hcov⟩ := remapVmas_ok (by omega) hsl (hlen.symm ▸ hclean.newStart_lt) hok
    (fun a ha => hclean.target a ha) hl
  rw [hlen] at hcov
  rw [hu.pageBytes_eq] at hc
  obtain ⟨hoff, hps, k, hk, hmoved⟩ :=
    remapPages_ok hu.pos hu.dvd hpos hsl hclean.newStart_lt hclean.apart hc
  refine ⟨l, c.table, rfl, hlok, hcov, hps, fun v hv => ?_⟩
  rcases hmoved v hv with ⟨hold, hne⟩ | ⟨j, hj, rfl, hvo, hsrc⟩
  · refine .inl ⟨hold, fun hdvd hin => ?_⟩
    obtain ⟨i, rfl⟩ := exists_page hdvd (Nat.dvd_of_mod_eq_zero hoff) hin.1
    exact hne i (Nat.lt_of_mul_lt_mul_right (by omega : i * p.pTable.pageSize < k * _)) rfl
  · have hjl : j * p.pTable.pageSize < k * p.pTable.pageSize :=
      Nat.mul_lt_mul_of_pos_right hj hu.pos
    refine .inr ⟨by omega, Nat.dvd_of_mod_eq_zero hvo, ?_⟩
    rwa [Nat.add_sub_cancel_left, Nat.add_comm]

theorem allocateMem_ok {v : ℕ} {size : ℤ} {clobber : Bool} (hv : v < 2 ^ 64)
    (h : p.allocateMem v size clobber = .ok p') :
    ∃ sys t, p' = { p with system := sys, pTable := t } ∧
      sys.pageShift = p.system.pageShift ∧ t.pageSize = p.pTable.pageSize ∧
      p.pTable.pageOffset v = 0 ∧
      ∀ x, t.pTable x = p.pTable.pTable x ∨
        ∃ j : ℕ, (j : ℤ) * p.pTable.pageSize < size ∧ x = u64 (v + j * p.pTable.pageSize) := by
  obtain ⟨⟨sys, t⟩, ha, h⟩ := bind_eq_ok.1 h
  cases h
  obtain ⟨⟨paddr, sys⟩, hp, t, ht, ha⟩ := bind₂_eq_ok.1 ha
  cases ha
  obtain ⟨hlt, hshift⟩ := System.allocPagesFor_ok hp
  obtain ⟨hoff, hps, hmap⟩ := map_ok hv hlt ht
  refine ⟨sys, t, rfl, hshift, hps, hoff, fun x => (hmap x).imp_right ?_⟩
  rintro ⟨j, hj, hx, -⟩
  exact ⟨j, hj, hx⟩

theorem extendMmap_ok {length start : ℕ} (hp : p.extendMmap length = .ok (start, p')) :
    ∃ e, p' = p.setMemState { p.memState with mmapEnd := e } := by
  obtain ⟨⟨s, b⟩, -, hp⟩ := bind_eq_ok.1 hp
  cases hp
  exact ⟨_, rfl⟩

theorem map_answer_eq_ok {β : Type} {y : Sim (β × Process)} {f : β → Answer} {a : Answer}
    (h : y.map (fun x => (f x.1, x.2)) = .ok (a, p')) : ∃ b, y = .ok (b, p') := by
  rcases y with e | ⟨b, q⟩
  · cases h
  · cases h
    exact ⟨b, rfl⟩

theorem mmapPlace_ok {start length place : ℕ} {fixed : Bool}
    (h : p.mmapPlace start length fixed = .ok (place, p')) :
    (fixed ∧ place = start ∧ p.unmapRegion start length = .ok p') ∨
      ¬ fixed ∧ ∃ e, p' = p.setMemState { p.memState with mmapEnd := e } := by
  unfold mmapPlace at h
  cases fixed with
  | true =>
    rw [if_pos rfl] at h
    obtain ⟨q, hq, h⟩ := bind_eq_ok.1 h
    cases h
    exact .inl ⟨rfl, rfl, hq⟩
  | false =>
    rw [if_neg (by decide)] at h
    obtain ⟨b, -, h⟩ := bind_eq_ok.1 h
    refine .inr ⟨by decide, ?_⟩
    cases b with
    | true =>
      cases h
      exact ⟨p.memState.mmapEnd, rfl⟩
    | false => exact extendMmap_ok h

theorem mmapFunc_ok {flags : MmapFlags} {fd : Option HostFile} {x : SyscallReturn}
    (h : p.mmapFunc start length flags fd offset = .ok (x, p')) :
    p' = p ∨ ∃ place q name file,
      p.mmapPlace start (roundUp length p.system.pageBytes) flags.fixed = .ok (place, q) ∧
      q.mapRegion place (roundUp length p.system.pageBytes) name file offset = .ok p' := by
  unfold mmapFunc at h
  dsimp only at h
  rcases Classical.em (start % p.system.pageBytes ≠ 0 ∨ offset % p.system.pageBytes ≠ 0 ∨
      (flags.isPrivate ∧ flags.shared) ∨ (¬ flags.isPrivate ∧ ¬ flags.shared) ∨ length = 0)
    with hinval | hinval
  · rw [if_pos hinval] at h
    cases h
    exact .inl rfl
  rw [if_neg hinval] at h
  rcases Classical.em (¬ flags.anonymous ∧ fd.isNone) with hbad | hbad
  · rw [if_pos hbad] at h
    cases h
    exact .inl rfl
  rw [if_neg hbad] at h
  obtain ⟨⟨place, q⟩, hplace, q', hq', h⟩ := bind₂_eq_ok.1 h
  cases h
  exact .inr ⟨place, q, _, _, hplace, hq'⟩

end Process

/-- A process with pages of 4 KiB and an empty address space, whose `mmap` region grows down. -/
def blankProcess (pm : PhysicalMemory) : Process where
  memState := MemState.new 4096 0x10000 0x7fff0000 0x10000 0x7ff00000 0x7f000000
  pTable := .new 4096
  system := sysAt pm 0 0
  memory := fun _ => 0
  mmapGrowsDown := true
  contextIds := [0]

theorem blankProcess_uniform (pm : PhysicalMemory) : (blankProcess pm).Uniform :=
  ⟨rfl, rfl, show 12 < 64 by decide⟩

end Gem5Nvm
