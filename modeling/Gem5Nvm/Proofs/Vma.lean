import Gem5Nvm.Lib.Tiles
import Gem5Nvm.AddressSpace
import Gem5Nvm.Proofs.PageTable

/-!
# What the walks over the areas do

An area that passes its check is in order, so slicing and moving give areas that are, and the walks
of `unmapRegion` and `remapRegion` keep the list in order.
-/

namespace Gem5Nvm

open Tiling EmulationPageTable
open Sim (bind_eq_ok bind₂_eq_ok)
open Set (disjoint_left ext mem_Ico mem_sdiff mem_union)

namespace Vma

variable {v w : Vma} {pageBytes a : ℕ}

variable {v : Vma}

theorem intersects_iff {s e : ℕ} : v.intersects s e = true ↔ ¬ (v.start ≥ e ∨ v.end_ ≤ s) := by
  simp [intersects]

theorem mem_bytes : a ∈ v.bytes ↔ v.start ≤ a ∧ a < v.end_ := Iff.rfl

theorem sanityCheck_eq_ok : sanityCheck pageBytes v = .ok w ↔
    w = v ∧ v.start < v.end_ ∧ pageBytes ∣ v.start ∧ pageBytes ∣ v.end_ := by
  unfold sanityCheck assert
  simp only [Nat.dvd_iff_mod_eq_zero]
  constructor
  · intro h
    split_ifs at h with h₁ h₂ h₃ h₄ <;>
      simp_all [Sim.error_bind]
  · rintro ⟨rfl, h₁, h₂, h₃⟩
    simp [h₁, h₁.ne, h₂, h₃]

theorem sliceRegionRight_ok (hv : v.Sane pageBytes) (ha : a ≤ v.end_)
    (h : v.sliceRegionRight pageBytes a = .ok w) :
    w.Sane pageBytes ∧ w.start = v.start ∧ w.end_ = a := by
  obtain ⟨rfl, hlt, hs, he⟩ := sanityCheck_eq_ok.1 h
  exact ⟨⟨hlt, ha.trans_lt hv.end_lt, hs, he⟩, rfl, rfl⟩

theorem sliceRegionLeft_ok (hv : v.Sane pageBytes) (h : v.sliceRegionLeft pageBytes a = .ok w) :
    w.Sane pageBytes ∧ w.start = a ∧ w.end_ = v.end_ := by
  obtain ⟨rfl, hlt, hs, he⟩ := sanityCheck_eq_ok.1 h
  exact ⟨⟨hlt, hv.end_lt, hs, he⟩, rfl, rfl⟩

theorem remap_ok (hv : v.Sane pageBytes) (h : v.remap pageBytes a = .ok w)
    (ha : a + (v.end_ - v.start) < 2 ^ 64) :
    w.Sane pageBytes ∧ w.start = a ∧ w.end_ = a + (v.end_ - v.start) := by
  obtain ⟨rfl, hlt, hs, he⟩ := sanityCheck_eq_ok.1 h
  have hend : u64 (a + usub v.end_ v.start) = a + (v.end_ - v.start) := by
    rw [usub_of_le hv.start_lt.le hv.end_lt, u64_of_lt ha]
  refine ⟨⟨hlt, Nat.mod_lt _ (by norm_num), hs, he⟩, rfl, hend⟩

end Vma

section Covered

variable {l : List Vma} {pageBytes : ℕ}

@[simp] theorem covered_nil : covered [] = ∅ := by
  ext a
  simp [covered]

@[simp] theorem covered_cons (v : Vma) (l : List Vma) : covered (v :: l) = v.bytes ∪ covered l := by
  ext a
  simp [covered]

@[simp] theorem covered_append (l m : List Vma) : covered (l ++ m) = covered l ∪ covered m := by
  ext a
  simp [covered, or_and_right, exists_or]

theorem vmasOk_iff : VmasOk pageBytes l ↔
    (∀ v ∈ l, v.Sane pageBytes) ∧ Tiles (l.map Vma.bytes) (covered l) := by
  have hunion : covered l = {a | ∃ s ∈ l.map Vma.bytes, a ∈ s} := by
    ext a
    simp [covered]
  constructor
  · rintro ⟨hs, hd⟩
    exact ⟨hs, hd, hunion⟩
  · rintro ⟨hs, ht⟩
    exact ⟨hs, ht.disjoint⟩

theorem covered_eq_of_tiles {S : Set ℕ} (h : Tiles (l.map Vma.bytes) S) : covered l = S := by
  rw [h.union]
  ext a
  simp [covered]

theorem vmasOk_nil : VmasOk pageBytes [] := ⟨by simp, List.Pairwise.nil⟩

theorem vmasOk_cons : VmasOk pageBytes (v :: l) ↔
    v.Sane pageBytes ∧ Disjoint v.bytes (covered l) ∧ VmasOk pageBytes l := by
  rw [vmasOk_iff, vmasOk_iff, List.map_cons, tiles_cons, List.forall_mem_cons]
  constructor
  · rintro ⟨⟨hv, hs⟩, T, hT, hd, -⟩
    obtain rfl : covered l = T := covered_eq_of_tiles hT
    exact ⟨hv, hd, hs, hT⟩
  · rintro ⟨hv, hd, hs, hT⟩
    exact ⟨⟨hv, hs⟩, covered l, hT, hd, covered_cons v l⟩

variable {m : List Vma}

theorem vmasOk_append : VmasOk pageBytes (l ++ m) ↔
    VmasOk pageBytes l ∧ VmasOk pageBytes m ∧ Disjoint (covered l) (covered m) := by
  rw [vmasOk_iff, vmasOk_iff, vmasOk_iff, List.map_append, tiles_append, List.forall_mem_append]
  constructor
  · rintro ⟨⟨hl, hm⟩, T, U, hT, hU, hd, -⟩
    obtain rfl : covered l = T := covered_eq_of_tiles hT
    obtain rfl : covered m = U := covered_eq_of_tiles hU
    exact ⟨⟨hl, hT⟩, ⟨hm, hU⟩, hd⟩
  · rintro ⟨⟨hl, hT⟩, ⟨hm, hU⟩, hd⟩
    exact ⟨⟨hl, hm⟩, _, _, hT, hU, hd, covered_append l m⟩

theorem VmasOk.perm (h : VmasOk pageBytes l) (hp : l.Perm m) : VmasOk pageBytes m := by
  obtain ⟨hs, ht⟩ := vmasOk_iff.1 h
  exact ⟨fun v hv => hs v (hp.mem_iff.2 hv), (ht.perm (hp.map _)).disjoint⟩

theorem covered_perm (hp : l.Perm m) : covered l = covered m := by
  ext a
  simp only [covered, Set.mem_ofPred_eq, hp.mem_iff]

variable {v w : Vma}

theorem VmasOk.shrink {l' : List Vma} (h : VmasOk pageBytes (v :: l)) (hw : w.Sane pageBytes)
    (hs : v.start ≤ w.start) (he : w.end_ ≤ v.end_) (hl : VmasOk pageBytes l')
    (hc : covered l' ⊆ covered l) : VmasOk pageBytes (w :: l') := by
  obtain ⟨-, hd, -⟩ := vmasOk_cons.1 h
  exact vmasOk_cons.2 ⟨hw, hd.mono (Set.Ico_subset_Ico hs he) hc, hl⟩

theorem VmasOk.not_covered (h : VmasOk pageBytes (v :: l)) {a : ℕ} (ha : a ∈ covered l) :
    ¬ (v.start ≤ a ∧ a < v.end_) :=
  fun hv => Set.disjoint_left.1 (vmasOk_cons.1 h).2.1 hv ha

end Covered

section Unmap

variable {pageBytes s e : ℕ}

variable {vs : List Vma}

theorem unmapVmas_split {v back w : Vma} (h : VmasOk pageBytes (v :: vs)) (hse : s ≤ e)
    (hsup : s > v.start ∧ e < v.end_) (hback : v.sliceRegionRight pageBytes s = .ok back)
    (hw : v.sliceRegionLeft pageBytes e = .ok w) :
    VmasOk pageBytes (w :: vs ++ [back]) ∧
      covered (w :: vs ++ [back]) = covered (v :: vs) \ Set.Ico s e := by
  obtain ⟨hv, hd, hvs⟩ := vmasOk_cons.1 h
  obtain ⟨hbs, hb₁, hb₂⟩ := Vma.sliceRegionRight_ok hv (by omega) hback
  obtain ⟨hws, hw₁, hw₂⟩ := Vma.sliceRegionLeft_ok hv hw
  have hperm : (w :: back :: vs).Perm (w :: vs ++ [back]) :=
    ((List.perm_append_singleton back vs).cons w).symm
  have hok : VmasOk pageBytes (back :: vs) :=
    h.shrink hbs (by omega) (by omega) hvs subset_rfl
  refine ⟨VmasOk.perm (vmasOk_cons.2 ⟨hws, ?_, hok⟩) hperm, ?_⟩
  · rw [disjoint_left, covered_cons]
    rintro a ha (hab | hac)
    · rw [Vma.mem_bytes] at ha hab
      omega
    · rw [Vma.mem_bytes] at ha
      exact h.not_covered hac (by omega)
  · rw [← covered_perm hperm]
    ext a
    have hout := @VmasOk.not_covered _ _ v h a
    simp only [covered_cons, mem_union, mem_sdiff, Vma.mem_bytes, mem_Ico, hw₁, hw₂,
      hb₁, hb₂]
    by_cases ha : a ∈ covered vs
    · have := hout ha
      simp only [ha, or_true, true_and, true_iff]
      omega
    · simp only [ha, or_false]
      omega

theorem mem_covered_cons {a : ℕ} :
    a ∈ covered (v :: vs) ↔ (v.start ≤ a ∧ a < v.end_) ∨ a ∈ covered vs := by
  rw [covered_cons]
  exact Iff.rfl

theorem unmapVmas_keep {vs' : List Vma} (h : VmasOk pageBytes (v :: vs)) (hw : w.Sane pageBytes)
    (hs : v.start ≤ w.start) (he : w.end_ ≤ v.end_)
    (hbytes : ∀ a, v.start ≤ a ∧ a < v.end_ → ((w.start ≤ a ∧ a < w.end_) ↔ ¬ (s ≤ a ∧ a < e)))
    (hvs' : VmasOk pageBytes vs' ∧ covered vs' = covered vs \ Set.Ico s e) :
    VmasOk pageBytes (w :: vs') ∧ covered (w :: vs') = covered (v :: vs) \ Set.Ico s e := by
  obtain ⟨hok, hcov⟩ := hvs'
  refine ⟨h.shrink hw hs he hok (hcov ▸ Set.sdiff_subset), ?_⟩
  ext a
  have hout := @VmasOk.not_covered _ _ v h a
  have hin := hbytes a
  simp only [mem_sdiff, mem_covered_cons, mem_Ico, hcov]
  by_cases ha : v.start ≤ a ∧ a < v.end_
  · simp only [hin ha, ha, true_or, true_and, and_self]
    tauto
  · have : ¬ (w.start ≤ a ∧ a < w.end_) := by omega
    simp only [ha, this, false_or]

/-- The addresses of a range are taken out of the areas. -/
theorem unmapVmas_ok (hse : s ≤ e) : ∀ {l l' : List Vma}, VmasOk pageBytes l →
    unmapVmas pageBytes s e l = .ok l' →
      VmasOk pageBytes l' ∧ covered l' = covered l \ Set.Ico s e
  | [], l', _, h => by
    cases h
    exact ⟨vmasOk_nil, by simp⟩
  | v :: vs, l', hl, h => by
    obtain ⟨hv, hd, hvs⟩ := vmasOk_cons.1 hl
    unfold unmapVmas at h
    have hout : ¬ v.isSubset s e → ¬ (v.start ≥ s ∧ v.end_ ≤ e) :=
      fun h h' => h (decide_eq_true h')
    have hinside : ¬ v.isStrictSuperset s e → ¬ (s > v.start ∧ e < v.end_) :=
      fun h h' => h (decide_eq_true h')
    split_ifs at h with hsup hsub hmeet hlt
    · obtain ⟨back, hback, w, hw, h⟩ := bind₂_eq_ok.1 h
      cases h
      exact unmapVmas_split hl hse (of_decide_eq_true hsup) hback hw
    · obtain ⟨hok, hcov⟩ := unmapVmas_ok hse hvs h
      have hsub : v.start ≥ s ∧ v.end_ ≤ e := of_decide_eq_true hsub
      refine ⟨hok, ?_⟩
      rw [hcov]
      ext a
      simp only [mem_sdiff, mem_covered_cons, mem_Ico]
      by_cases ha : a ∈ covered vs
      · simp [ha]
      · simp only [ha, or_false, false_and, false_iff]
        omega
    · obtain ⟨w, hw, vs', hvs', h⟩ := bind₂_eq_ok.1 h
      cases h
      have hsup := hinside hsup
      have hmeet := Vma.intersects_iff.1 hmeet
      obtain ⟨hws, hw₁, hw₂⟩ := Vma.sliceRegionRight_ok hv (by omega) hw
      exact unmapVmas_keep hl hws (by omega) (by omega) (by omega) (unmapVmas_ok hse hvs hvs')
    · obtain ⟨w, hw, vs', hvs', h⟩ := bind₂_eq_ok.1 h
      cases h
      have hsub := hout hsub
      have hmeet := Vma.intersects_iff.1 hmeet
      obtain ⟨hws, hw₁, hw₂⟩ := Vma.sliceRegionLeft_ok hv hw
      exact unmapVmas_keep hl hws (by omega) (by omega) (by omega) (unmapVmas_ok hse hvs hvs')
    · obtain ⟨vs', hvs', h⟩ := bind_eq_ok.1 h
      cases h
      have hmeet := not_not.1 (mt Vma.intersects_iff.2 hmeet)
      exact unmapVmas_keep hl hv le_rfl le_rfl (by omega) (unmapVmas_ok hse hvs hvs')

end Unmap

section Remap

/-- A walk that moves the range from `s` to `e` to `t`, over areas that covered `C` at first: those
in `moved` have moved, those in `out` have not. -/
structure Moved (pageBytes s e t : ℕ) (C : Set ℕ) (out moved : List Vma) : Prop where
  out_ok : VmasOk pageBytes out
  moved_ok : VmasOk pageBytes moved
  total : ∀ a, a ∈ C ↔ a ∈ covered out ∨ (s ≤ a ∧ a < e) ∧ a - s + t ∈ covered moved
  once : ∀ a ∈ covered out, s ≤ a ∧ a < e → a - s + t ∉ covered moved
  within : ∀ a ∈ covered moved, t ≤ a ∧ a < t + (e - s)

variable {pageBytes s e t : ℕ} {C : Set ℕ} {out moved : List Vma}

theorem Moved.perm {out' : List Vma} (h : Moved pageBytes s e t C out moved)
    (hp : out.Perm out') : Moved pageBytes s e t C out' moved := by
  have hc := covered_perm hp
  exact ⟨h.out_ok.perm hp, h.moved_ok, hc ▸ h.total, hc ▸ h.once, h.within⟩

theorem Moved.split {ps : List Vma} (h : Moved pageBytes s e t C (v :: out) moved)
    (hw : w.Sane pageBytes) (hstart : w.start = max v.start s - s + t)
    (hend : w.end_ = min v.end_ e - s + t) (hps : VmasOk pageBytes ps)
    (hleft : covered ps = v.bytes \ Set.Ico s e) :
    Moved pageBytes s e t C (ps ++ out) (w :: moved) := by
  obtain ⟨hv, hd, hout⟩ := vmasOk_cons.1 h.out_ok
  have hlt := hw.start_lt
  have hmem : ∀ a, s ≤ a ∧ a < e →
      ((w.start ≤ a - s + t ∧ a - s + t < w.end_) ↔ (v.start ≤ a ∧ a < v.end_)) := by
    intro a ha
    omega
  refine ⟨vmasOk_append.2 ⟨hps, hout, ?_⟩, vmasOk_cons.2 ⟨hw, ?_, h.moved_ok⟩, ?_, ?_, ?_⟩
  · rw [hleft]
    exact hd.mono_left Set.sdiff_subset
  · -- an address on which two areas came to lie would have been in the range twice
    rw [disjoint_left]
    intro a ha ham
    rw [Vma.mem_bytes] at ha
    have hb : a - t + s - s + t = a := by omega
    refine h.once (a - t + s) ?_ (by omega) (hb.symm ▸ ham)
    rw [mem_covered_cons]
    left
    omega
  · intro a
    rw [h.total, covered_append, mem_union, hleft, mem_covered_cons, mem_covered_cons,
      mem_sdiff, Vma.mem_bytes, mem_Ico]
    by_cases ha : s ≤ a ∧ a < e
    · simp only [ha, hmem a ha, true_and, not_true_eq_false, and_false, false_or, and_self]
      tauto
    · simp only [ha, false_and, or_false, not_false_eq_true, and_true]
  · intro a ha hsa
    rw [covered_append, mem_union, hleft, mem_sdiff] at ha
    rw [mem_covered_cons, hmem a hsa, not_or]
    rcases ha with ⟨-, ha⟩ | ha
    · exact absurd hsa ha
    · exact ⟨h.out_ok.not_covered ha, h.once a (mem_covered_cons.2 (.inr ha)) hsa⟩
  · intro a ha
    rw [mem_covered_cons] at ha
    rcases ha with ha | ha
    · omega
    · exact h.within a ha

/-- The walk of `remapRegion`: the areas behind it have moved or are outside the range. -/
def Walk (pageBytes s e t : ℕ) (C : Set ℕ) (x : List Vma × List Vma) : Prop :=
  ∃ kept moved, x.1.Perm (kept ++ moved) ∧ Moved pageBytes s e t C (kept ++ x.2) moved ∧
    ∀ a ∈ covered kept, ¬ (s ≤ a ∧ a < e)

variable {done rest : List Vma}

theorem Walk.advance {ps : List Vma} (h : Walk pageBytes s e t C (done, v :: rest))
    (hw : w.Sane pageBytes) (hstart : w.start = max v.start s - s + t)
    (hend : w.end_ = min v.end_ e - s + t) (hps : VmasOk pageBytes ps)
    (hleft : covered ps = v.bytes \ Set.Ico s e) :
    Walk pageBytes s e t C (done ++ [w], rest ++ ps) := by
  obtain ⟨kept, moved, hperm, hmoved, hkept⟩ := h
  refine ⟨kept, w :: moved, ?_, ?_, hkept⟩
  · refine List.perm_iff_count.2 fun x => ?_
    have := hperm.count_eq x
    simp only [List.count_append, List.count_cons, List.count_nil] at this ⊢
    omega
  · have hv : (kept ++ v :: rest).Perm (v :: (kept ++ rest)) := List.perm_middle
    refine ((hmoved.perm hv).split hw hstart hend hps hleft).perm ?_
    refine (List.perm_append_comm).trans ?_
    rw [List.append_assoc]

theorem Walk.stop (h : Walk pageBytes s e t C (done, rest))
    (hrest : ∀ a ∈ covered rest, ¬ (s ≤ a ∧ a < e)) :
    Walk pageBytes s e t C (done ++ rest, []) := by
  obtain ⟨kept, moved, hperm, hmoved, hkept⟩ := h
  refine ⟨kept ++ rest, moved, ?_, by simpa using hmoved, ?_⟩
  · refine List.perm_iff_count.2 fun x => ?_
    have := hperm.count_eq x
    simp only [List.count_append] at this ⊢
    omega
  · intro a ha
    rw [covered_append] at ha
    exact ha.elim (hkept a) (hrest a)

theorem Walk.skip (h : Walk pageBytes s e t C (done, v :: rest)) (hv : v.start ≥ e ∨ v.end_ ≤ s) :
    Walk pageBytes s e t C (done ++ [v], rest) := by
  obtain ⟨kept, moved, hperm, hmoved, hkept⟩ := h
  refine ⟨kept ++ [v], moved, ?_, by simpa using hmoved, ?_⟩
  · refine List.perm_iff_count.2 fun x => ?_
    have := hperm.count_eq x
    simp only [List.count_append] at this ⊢
    omega
  · intro a ha
    rw [covered_append, mem_union, mem_covered_cons, covered_nil] at ha
    rcases ha with ha | ha | ha
    · exact hkept a ha
    · omega
    · exact absurd ha (Set.notMem_empty a)

theorem Walk.sane (h : Walk pageBytes s e t C (done, v :: rest)) : v.Sane pageBytes := by
  obtain ⟨kept, moved, -, hmoved, -⟩ := h
  exact hmoved.out_ok.sane v (by simp)

theorem Walk.rest_out (h : Walk pageBytes s e t C (done, v :: rest)) {a : ℕ}
    (ha : a ∈ covered rest) : ¬ (v.start ≤ a ∧ a < v.end_) := by
  obtain ⟨kept, moved, -, hmoved, -⟩ := h
  have hv : (kept ++ v :: rest).Perm (v :: (kept ++ rest)) := List.perm_middle
  exact (hmoved.perm hv).out_ok.not_covered (by simp [ha])

theorem vmasOk_singleton (h : v.Sane pageBytes) : VmasOk pageBytes [v] :=
  vmasOk_cons.2 ⟨h, by simp, vmasOk_nil⟩

theorem remapVma_split {v right left w₀ w₁ w : Vma} (hse : s < e) (ht : t + (e - s) < 2 ^ 64)
    (h : Walk pageBytes s e t C (done, v :: rest)) (hsup : s > v.start ∧ e < v.end_)
    (hright : v.sliceRegionRight pageBytes s = .ok right)
    (hleft : v.sliceRegionLeft pageBytes e = .ok left) (h₀ : v.sliceRegionLeft pageBytes s = .ok w₀)
    (h₁ : w₀.sliceRegionRight pageBytes e = .ok w₁) (h₂ : w₁.remap pageBytes t = .ok w) :
    Walk pageBytes s e t C (done ++ w :: rest ++ [right, left], []) := by
  have hv := h.sane
  obtain ⟨hrs, hr₁, hr₂⟩ := Vma.sliceRegionRight_ok hv (by omega) hright
  obtain ⟨hls, hl₁, hl₂⟩ := Vma.sliceRegionLeft_ok hv hleft
  obtain ⟨hs₀, hb₀, he₀⟩ := Vma.sliceRegionLeft_ok hv h₀
  obtain ⟨hs₁, hb₁, he₁⟩ := Vma.sliceRegionRight_ok hs₀ (by omega) h₁
  obtain ⟨hws, hw₁, hw₂⟩ := Vma.remap_ok hs₁ h₂ (by omega)
  have hpieces : VmasOk pageBytes [right, left] := by
    refine vmasOk_cons.2 ⟨hrs, ?_, vmasOk_singleton hls⟩
    rw [disjoint_left]
    intro a ha ha'
    rw [Vma.mem_bytes] at ha
    simp only [mem_covered_cons, covered_nil, Set.mem_empty_iff_false, or_false] at ha'
    omega
  have hcov : ∀ a, a ∈ covered [right, left] ↔ a ∈ v.bytes \ Set.Ico s e := by
    intro a
    simp only [mem_covered_cons, covered_nil, Set.mem_empty_iff_false, or_false, mem_sdiff,
      Vma.mem_bytes, mem_Ico]
    omega
  have hadv := h.advance hws (by omega) (by omega) hpieces (ext hcov)
  have hout : ∀ a ∈ covered (rest ++ [right, left]), ¬ (s ≤ a ∧ a < e) := by
    intro a ha
    rw [covered_append] at ha
    rcases ha with ha | ha
    · have := h.rest_out ha
      omega
    · exact ((hcov a).1 ha).2
  simpa using hadv.stop hout

theorem remapVma_ok (hse : s < e) (he : e < 2 ^ 64) (ht : t + (e - s) < 2 ^ 64)
    {x y : List Vma × List Vma} (h : Walk pageBytes s e t C x)
    (hy : remapVma pageBytes s e t x = .ok y) : Walk pageBytes s e t C y := by
  obtain ⟨done, _ | ⟨v, rest⟩⟩ := x
  · cases hy
    exact h
  have hv := h.sane
  unfold remapVma at hy
  dsimp only at hy
  split_ifs at hy with hsup hsub hmeet hlt
  · obtain ⟨right, hright, left, hleft, hy⟩ := bind₂_eq_ok.1 hy
    obtain ⟨w₀, h₀, w₁, h₁, hy⟩ := bind₂_eq_ok.1 hy
    obtain ⟨w, h₂, hy⟩ := bind_eq_ok.1 hy
    cases hy
    exact remapVma_split hse ht h (of_decide_eq_true hsup) hright hleft h₀ h₁ h₂
  · obtain ⟨w, h₂, hy⟩ := bind_eq_ok.1 hy
    cases hy
    have hsub : v.start ≥ s ∧ v.end_ ≤ e := of_decide_eq_true hsub
    have hlt := hv.start_lt
    have hnew : u64 (usub v.start s + t) = v.start - s + t := by
      rw [usub_of_le hsub.1 (by omega), u64_of_lt (by omega)]
    rw [hnew] at h₂
    obtain ⟨hws, hw₁, hw₂⟩ := Vma.remap_ok hv h₂ (by omega)
    have hcov : covered [] = v.bytes \ Set.Ico s e := by
      rw [covered_nil, Vma.bytes, Set.sdiff_eq_empty.2 (Set.Ico_subset_Ico hsub.1 hsub.2)]
    simpa using h.advance hws (by omega) (by omega) vmasOk_nil hcov
  · obtain ⟨back, hback, w₀, h₀, hy⟩ := bind₂_eq_ok.1 hy
    obtain ⟨w, h₂, hy⟩ := bind_eq_ok.1 hy
    cases hy
    have hsup : ¬ (s > v.start ∧ e < v.end_) := fun h => hsup (decide_eq_true h)
    have hmeet := Vma.intersects_iff.1 hmeet
    obtain ⟨hbs, hb₁, hb₂⟩ := Vma.sliceRegionRight_ok hv (by omega) hback
    obtain ⟨hs₀, hb₀, he₀⟩ := Vma.sliceRegionLeft_ok hv h₀
    obtain ⟨hws, hw₁, hw₂⟩ := Vma.remap_ok hs₀ h₂ (by omega)
    refine h.advance hws (by omega) (by omega) (vmasOk_singleton hbs) (ext fun a => ?_)
    simp only [mem_covered_cons, covered_nil, Set.mem_empty_iff_false, or_false, mem_sdiff,
      Vma.mem_bytes, mem_Ico]
    omega
  · obtain ⟨back, hback, w₀, h₀, hy⟩ := bind₂_eq_ok.1 hy
    obtain ⟨w, h₂, hy⟩ := bind_eq_ok.1 hy
    cases hy
    have hsub : ¬ (v.start ≥ s ∧ v.end_ ≤ e) := fun h => hsub (decide_eq_true h)
    have hmeet := Vma.intersects_iff.1 hmeet
    obtain ⟨hbs, hb₁, hb₂⟩ := Vma.sliceRegionLeft_ok hv hback
    obtain ⟨hs₀, hb₀, he₀⟩ := Vma.sliceRegionRight_ok hv (by omega) h₀
    have hnew : usub (u64 (t + w₀.start)) s = v.start - s + t := by
      unfold usub u64
      omega
    rw [hnew] at h₂
    obtain ⟨hws, hw₁, hw₂⟩ := Vma.remap_ok hs₀ h₂ (by omega)
    refine h.advance hws (by omega) (by omega) (vmasOk_singleton hbs) (ext fun a => ?_)
    simp only [mem_covered_cons, covered_nil, Set.mem_empty_iff_false, or_false, mem_sdiff,
      Vma.mem_bytes, mem_Ico]
    omega
  · cases hy
    have hmeet := not_not.1 (mt Vma.intersects_iff.2 hmeet)
    exact h.skip hmeet

/-- The areas after `remapRegion` cover what was outside the range, and what was inside of it at its
new place; they are in order if nothing outside the range is in the way. -/
theorem remapVmas_ok {l l' : List Vma} (hse : s < e) (he : e < 2 ^ 64) (ht : t + (e - s) < 2 ^ 64)
    (hl : VmasOk pageBytes l)
    (hfree : ∀ a, s ≤ a ∧ a < e → a ∈ covered l → a - s + t ∈ covered l →
      s ≤ a - s + t ∧ a - s + t < e) (h : remapVmas pageBytes s e t l = .ok l') :
    VmasOk pageBytes l' ∧ ∀ a, a ∈ covered l' ↔
      (a ∈ covered l ∧ ¬ (s ≤ a ∧ a < e)) ∨
        (t ≤ a ∧ a < t + (e - s)) ∧ a - t + s ∈ covered l := by
  obtain ⟨x, hloop, h⟩ := bind_eq_ok.1 h
  cases h
  have h0 : Walk pageBytes s e t (covered l) ([], l) := by
    refine ⟨[], [], by simp, ⟨hl, vmasOk_nil, by simp, by simp, by simp⟩, by simp⟩
  obtain ⟨⟨kept, moved, hperm, hmoved, hkept⟩, hend⟩ := Loop.whileLoop_inv
    (fun x y hx _ hy => remapVma_ok hse he ht hx hy) maxRounds h0 hloop
  obtain ⟨done, rest⟩ := x
  obtain rfl : rest = [] := by simpa using hend
  dsimp only at hperm ⊢
  rw [List.append_nil] at hmoved
  have hpre : ∀ a, a ∈ covered moved →
      (s ≤ a - t + s ∧ a - t + s < e) ∧ a - t + s - s + t = a := by
    intro a ha
    have := hmoved.within a ha
    omega
  have hmem : ∀ a, a ∈ covered moved ↔
      (t ≤ a ∧ a < t + (e - s)) ∧ a - t + s ∈ covered l := by
    intro a
    constructor
    · intro ha
      obtain ⟨hin, hback⟩ := hpre a ha
      refine ⟨hmoved.within a ha, (hmoved.total _).2 (.inr ⟨hin, ?_⟩)⟩
      rwa [hback]
    · rintro ⟨hat, ha⟩
      have hback : a - t + s - s + t = a := by omega
      rcases (hmoved.total _).1 ha with ha | ⟨-, ha⟩
      · exact absurd (by omega) (hkept _ ha)
      · rwa [hback] at ha
  have hout : ∀ a, a ∈ covered kept ↔ a ∈ covered l ∧ ¬ (s ≤ a ∧ a < e) := by
    intro a
    constructor
    · exact fun ha => ⟨(hmoved.total a).2 (.inl ha), hkept a ha⟩
    · rintro ⟨ha, hsa⟩
      exact ((hmoved.total a).1 ha).resolve_right fun h => hsa h.1
  refine ⟨VmasOk.perm (vmasOk_append.2 ⟨hmoved.out_ok, hmoved.moved_ok, ?_⟩) hperm.symm, ?_⟩
  · rw [disjoint_left]
    intro a ha ham
    obtain ⟨hal, hsa⟩ := (hout a).1 ha
    obtain ⟨hin, hback⟩ := hpre a ham
    have := hfree _ hin ((hmem a).1 ham).2 (hback.symm ▸ hal)
    omega
  · intro a
    rw [covered_perm hperm, covered_append, mem_union, hout, hmem]

end Remap

end Gem5Nvm
