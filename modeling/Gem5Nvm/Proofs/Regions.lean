import Gem5Nvm.Backing
import Gem5Nvm.Proofs.MemState

/-!
# What unmapping and moving a region leave

`unmapRegion` and `remapRegion` on whole regions: both return, and what they leave of the areas, of
the files behind them and of the page table is exactly what is outside the region, and for
`remapRegion` what was in it at its new place (`unmapRegion_exact`, `remapRegion_exact`).

The areas a walk leaves are pieces of those it met (`Vma.Piece`); an area is cut by slicing, and
slicing keeps what is behind an address (`Vma.Piece.right`, `Vma.Piece.left`, `Vma.Piece.moved`).
-/

namespace Gem5Nvm

open EmulationPageTable
open Sim (ok_bind pure_eq)
open List (forall_mem_cons forall_mem_append forall_mem_singleton map_nil)
open Function (update_of_ne update update_eq_self)

namespace Vma

variable {v w w' : Vma} {pageBytes a x : ℕ}

theorem contains_iff : v.contains a = true ↔ a ∈ v.bytes := by
  simp [contains, bytes]

theorem sliceRegionRight_window (h : v.sliceRegionRight pageBytes x = .ok w) :
    w.name = v.name ∧ w.window = v.window.take (usub x v.start) := by
  obtain ⟨rfl, -⟩ := sanityCheck_eq_ok.1 h
  refine ⟨rfl, ?_⟩
  cases hb : v.hostBuf <;> simp [window, hb]

theorem sliceRegionLeft_window (h : v.sliceRegionLeft pageBytes x = .ok w) :
    w.name = v.name ∧ w.window = v.window.drop (usub x v.start) := by
  obtain ⟨rfl, -⟩ := sanityCheck_eq_ok.1 h
  refine ⟨rfl, ?_⟩
  cases hb : v.hostBuf with
  | none => simp [window, hb]
  | some buf =>
    simp only [window, hb, Option.bind_some, Option.getD_some]
    split_ifs with hlen
    · exact (List.drop_eq_nil_of_le hlen).symm
    · rfl

theorem remap_window (h : v.remap pageBytes x = .ok w) : w.name = v.name ∧ w.window = v.window := by
  obtain ⟨rfl, -⟩ := sanityCheck_eq_ok.1 h
  exact ⟨rfl, rfl⟩

theorem Piece.refl (h : v.start ≤ v.end_) : Piece v v.start v where
  start_le := le_rfl
  end_le := by omega
  name_eq := rfl
  window_eq := ⟨max (v.end_ - v.start) v.window.length, le_max_left _ _, by simp⟩

section

variable (h : Piece v a w) (hw : w.Sane pageBytes)
include h hw

theorem Piece.right (hdvd : pageBytes ∣ x) (hx : w.start < x) (hxe : x ≤ w.end_) :
    ∃ w', w.sliceRegionRight pageBytes x = .ok w' ∧ w'.Sane pageBytes ∧ w'.start = w.start ∧
      w'.end_ = x ∧ Piece v a w' := by
  obtain ⟨w', hslice⟩ : ∃ w', w.sliceRegionRight pageBytes x = .ok w' :=
    ⟨_, sanityCheck_eq_ok.2 ⟨rfl, hx, hw.start_dvd, hdvd⟩⟩
  obtain ⟨hsane, hs, he⟩ := sliceRegionRight_ok hw hxe hslice
  obtain ⟨hname, hwin⟩ := sliceRegionRight_window hslice
  obtain ⟨n, hn, hnw⟩ := h.window_eq
  have hend := h.end_le
  have hlt := hw.end_lt
  refine ⟨w', hslice, hsane, hs, he, h.start_le, by omega, hname.trans h.name_eq,
    min (x - w.start) n, by omega, ?_⟩
  rw [hwin, hnw, usub_of_le hx.le (by omega), List.take_take]

theorem Piece.left (hdvd : pageBytes ∣ x) (hx : w.start ≤ x) (hxe : x < w.end_) :
    ∃ w', w.sliceRegionLeft pageBytes x = .ok w' ∧ w'.Sane pageBytes ∧ w'.start = x ∧
      w'.end_ = w.end_ ∧ Piece v (a + (x - w.start)) w' := by
  obtain ⟨w', hslice⟩ : ∃ w', w.sliceRegionLeft pageBytes x = .ok w' :=
    ⟨_, sanityCheck_eq_ok.2 ⟨rfl, hxe, hdvd, hw.end_dvd⟩⟩
  obtain ⟨hsane, hs, he⟩ := sliceRegionLeft_ok hw hslice
  obtain ⟨hname, hwin⟩ := sliceRegionLeft_window hslice
  obtain ⟨n, hn, hnw⟩ := h.window_eq
  have hend := h.end_le
  have hstart := h.start_le
  have hlt := hw.end_lt
  refine ⟨w', hslice, hsane, hs, he, by omega, by omega, hname.trans h.name_eq,
    n - (x - w.start), by omega, ?_⟩
  rw [hwin, hnw, usub_of_le hx (by omega), List.drop_take, List.drop_drop]
  congr 2
  omega

theorem Piece.moved (hx : pageBytes ∣ x) (hlt : x + (w.end_ - w.start) < 2 ^ 64) :
    ∃ w', w.remap pageBytes x = .ok w' ∧ w'.start = x ∧ w'.end_ = x + (w.end_ - w.start) ∧
      Piece v a w' := by
  have hpos := hw.start_lt
  have hend : u64 (x + usub w.end_ w.start) = x + (w.end_ - w.start) := by
    rw [usub_of_le hpos.le hw.end_lt, u64_of_lt hlt]
  obtain ⟨w', hmove⟩ : ∃ w', w.remap pageBytes x = .ok w' := by
    refine ⟨_, sanityCheck_eq_ok.2 ⟨rfl, ?_, hx, ?_⟩⟩
    · dsimp only
      omega
    · rw [hend]
      exact dvd_add hx (Nat.dvd_sub hw.end_dvd hw.start_dvd)
  obtain ⟨-, hs, he⟩ := remap_ok hw hmove hlt
  obtain ⟨hname, hwin⟩ := remap_window hmove
  have hsize : w'.end_ - w'.start = w.end_ - w.start := by omega
  refine ⟨w', hmove, hs, he, h.start_le, hsize ▸ h.end_le, hname.trans h.name_eq, ?_⟩
  rw [hsize, hwin]
  exact h.window_eq

end

theorem Piece.hostByte_eq (h : Piece v a w) (hx : w.start ≤ x ∧ x < w.end_) :
    w.hostByte x = v.hostByte (a + (x - w.start)) := by
  obtain ⟨n, hn, hnw⟩ := h.window_eq
  have hstart := h.start_le
  unfold hostByte
  rw [hnw, List.getElem?_take_of_lt (by omega), List.getElem?_drop]
  congr 1
  omega

theorem Piece.mem_bytes (h : Piece v a w) (hx : w.start ≤ x ∧ x < w.end_) :
    a + (x - w.start) ∈ v.bytes := by
  have hstart := h.start_le
  have hend := h.end_le
  constructor <;> omega

end Vma

section Backing

variable {l l' : List Vma} {pageBytes a : ℕ}

theorem backing_eq {v : Vma} (hok : VmasOk pageBytes l) (hv : v ∈ l) (ha : a ∈ v.bytes) :
    backing l a = v.hostByte a := by
  obtain ⟨w, hw⟩ := Option.isSome_iff_exists.1
    (List.find?_isSome.2 ⟨v, hv, Vma.contains_iff.2 ha⟩ : (l.find? (·.contains a)).isSome)
  have hwa : a ∈ w.bytes := Vma.contains_iff.1 (by simpa using List.find?_some hw)
  have hwl := List.mem_of_find?_eq_some hw
  -- two areas that hold the address are the same
  have hwv : w = v := by
    by_contra hne
    have hd := (List.pairwise_map.1 hok.disjoint).forall hwl hv hne
    exact Set.disjoint_left.1 hd hwa ha
  rw [backing, hw, Option.bind_some, hwv]

theorem backing_eq_none (ha : a ∉ covered l) : backing l a = none := by
  have hnone : l.find? (·.contains a) = none := by
    exact List.find?_eq_none.2 fun v hv hc => ha ⟨v, hv, Vma.contains_iff.1 hc⟩
  rw [backing, hnone, Option.bind_none]

end Backing

section Unmap

variable {pageBytes s e : ℕ}

theorem unmapVmas_total (hse : s < e) (hs : pageBytes ∣ s) (he : pageBytes ∣ e) :
    ∀ {l : List Vma}, (∀ v ∈ l, v.Sane pageBytes) → ∃ l', unmapVmas pageBytes s e l = .ok l' ∧
      ∀ w ∈ l', ∃ v ∈ l, Vma.Piece v w.start w
  | [], _ => ⟨[], rfl, by simp⟩
  | v :: vs, hsane => by
    obtain ⟨hv, hvs⟩ := forall_mem_cons.1 hsane
    have hlt := hv.start_lt
    have hself : Vma.Piece v v.start v := .refl hlt.le
    have hrest : ∀ w ∈ vs, ∃ u ∈ v :: vs, Vma.Piece u w.start w := fun w hw =>
      ⟨w, List.mem_cons_of_mem v hw, .refl (hvs w hw).start_lt.le⟩
    obtain ⟨vs', hvs', hpieces⟩ := unmapVmas_total hse hs he hvs
    have hpieces' : ∀ w ∈ vs', ∃ u ∈ v :: vs, Vma.Piece u w.start w := by
      intro w hw
      obtain ⟨u, hu, hp⟩ := hpieces w hw
      exact ⟨u, List.mem_cons_of_mem v hu, hp⟩
    -- a piece of the first area that stays where it is, before the rest
    have hcons : ∀ {w : Vma} {ws : List Vma}, Vma.Piece v w.start w →
        (∀ x ∈ ws, ∃ u ∈ v :: vs, Vma.Piece u x.start x) →
        ∀ x ∈ w :: ws, ∃ u ∈ v :: vs, Vma.Piece u x.start x := fun hw hws =>
      forall_mem_cons.2 ⟨⟨v, List.mem_cons_self, hw⟩, hws⟩
    unfold unmapVmas
    split_ifs with hsup hsub hmeet hleft
    · have hsup : s > v.start ∧ e < v.end_ := of_decide_eq_true hsup
      obtain ⟨back, hback, -, hb₁, -, hbackp⟩ := hself.right hv hs hsup.1 (by omega)
      obtain ⟨w, hw, -, hw₁, -, hwp⟩ := hself.left hv he (by omega) hsup.2
      rw [show v.start + (e - v.start) = w.start by omega] at hwp
      refine ⟨w :: vs ++ [back], by rw [hback, ok_bind, hw, ok_bind, pure_eq], ?_⟩
      refine hcons hwp (forall_mem_append.2 ⟨hrest, ?_⟩)
      simpa [hb₁] using Or.inl hbackp
    · exact ⟨vs', hvs', hpieces'⟩
    · have hmeet := Vma.intersects_iff.1 hmeet
      have hsup : ¬ (s > v.start ∧ e < v.end_) := fun h => hsup (decide_eq_true h)
      obtain ⟨w, hw, -, hw₁, -, hp⟩ := hself.right hv hs hleft (by omega)
      refine ⟨w :: vs', by rw [hw, ok_bind, hvs', ok_bind, pure_eq], hcons ?_ hpieces'⟩
      rwa [hw₁]
    · have hmeet := Vma.intersects_iff.1 hmeet
      have hsub : ¬ (v.start ≥ s ∧ v.end_ ≤ e) := fun h => hsub (decide_eq_true h)
      obtain ⟨w, hw, -, hw₁, -, hp⟩ := hself.left hv he (by omega) (by omega)
      refine ⟨w :: vs', by rw [hw, ok_bind, hvs', ok_bind, pure_eq], hcons ?_ hpieces'⟩
      rwa [show v.start + (e - v.start) = w.start by omega] at hp
    · refine ⟨v :: vs', by rw [hvs', ok_bind, pure_eq], hcons hself hpieces'⟩

end Unmap

section Remap

variable {pageBytes s e t : ℕ} {l : List Vma}

/-- The bytes the areas of a list hold. -/
def totalSize (l : List Vma) : ℕ := (l.map fun v => v.end_ - v.start).sum

theorem ncard_covered : ∀ {l : List Vma}, VmasOk pageBytes l →
    (covered l).Finite ∧ (covered l).ncard = totalSize l
  | [], _ => by simp [totalSize]
  | v :: l, h => by
    obtain ⟨-, hd, hl⟩ := vmasOk_cons.1 h
    obtain ⟨hfin, hcard⟩ := ncard_covered hl
    have hv : v.bytes.Finite := Set.finite_Ico v.start v.end_
    have hsize : v.bytes.ncard = v.end_ - v.start := by
      rw [Vma.bytes, Set.ncard_eq_toFinset_card', Set.toFinset_Ico, Nat.card_Ico]
    rw [covered_cons]
    refine ⟨hv.union hfin, ?_⟩
    rw [Set.ncard_union_eq hd hv hfin, hsize, hcard, totalSize, totalSize, List.map_cons,
      List.sum_cons]

theorem totalSize_le (h : VmasOk pageBytes l) : totalSize l ≤ 2 ^ 64 := by
  have hsub : covered l ⊆ Set.Iio (2 ^ 64) := by
    rintro a ⟨v, hv, ha⟩
    exact ha.2.trans (h.sane v hv).end_lt
  rw [← (ncard_covered h).2]
  calc (covered l).ncard ≤ (Set.Iio (2 ^ 64)).ncard := Set.ncard_le_ncard hsub (Set.finite_Iio _)
    _ = 2 ^ 64 := by rw [Set.ncard_eq_toFinset_card', Set.toFinset_Iio, Nat.card_Iio]

/-- The areas of a walk of `remapRegion` are pieces of those there were: those ahead are where they
were, and those behind may have moved to `t`. -/
structure Cut (l : List Vma) (s e t : ℕ) (x : List Vma × List Vma) : Prop where
  ahead : ∀ w ∈ x.2, ∃ v ∈ l, Vma.Piece v w.start w
  behind : ∀ w ∈ x.1, (∃ v ∈ l, Vma.Piece v w.start w) ∨
    ∃ v ∈ l, (t ≤ w.start ∧ w.end_ ≤ t + (e - s)) ∧ Vma.Piece v (w.start - t + s) w

variable {done rest ps : List Vma} {v w : Vma}

theorem Cut.advance (h : Cut l s e t (done, v :: rest))
    (hw : ∃ v ∈ l, (t ≤ w.start ∧ w.end_ ≤ t + (e - s)) ∧ Vma.Piece v (w.start - t + s) w)
    (hps : ∀ p ∈ ps, ∃ v ∈ l, Vma.Piece v p.start p) : Cut l s e t (done ++ [w], rest ++ ps) := by
  obtain ⟨-, hrest⟩ := forall_mem_cons.1 h.ahead
  refine ⟨forall_mem_append.2 ⟨hrest, hps⟩, forall_mem_append.2 ⟨h.behind, ?_⟩⟩
  exact forall_mem_singleton.2 (.inr hw)

theorem Cut.stop (h : Cut l s e t (done, rest)) : Cut l s e t (done ++ rest, []) :=
  ⟨by simp, forall_mem_append.2 ⟨h.behind, fun w hw => .inl (h.ahead w hw)⟩⟩

theorem Cut.skip (h : Cut l s e t (done, v :: rest)) : Cut l s e t (done ++ [v], rest) := by
  obtain ⟨hv, hrest⟩ := forall_mem_cons.1 h.ahead
  exact ⟨hrest, forall_mem_append.2 ⟨h.behind, forall_mem_singleton.2 (.inl hv)⟩⟩

theorem totalSize_cons : totalSize (v :: rest) = v.end_ - v.start + totalSize rest := by
  simp [totalSize]

theorem totalSize_append : totalSize (done ++ rest) = totalSize done + totalSize rest := by
  simp [totalSize]

section

variable (hse : s < e) (he : e < 2 ^ 64) (ht : t + (e - s) < 2 ^ 64) (hds : pageBytes ∣ s)
  (hde : pageBytes ∣ e) (hdt : pageBytes ∣ t)
include hse he ht hds hde hdt

/-- A round of the walk of `remapRegion` succeeds, and less is ahead after it. -/
theorem remapVma_total (hv : v.Sane pageBytes) (h : Cut l s e t (done, v :: rest)) :
    ∃ y, remapVma pageBytes s e t (done, v :: rest) = .ok y ∧ Cut l s e t y ∧
      totalSize y.2 < totalSize (v :: rest) := by
  have hlt := hv.start_lt
  obtain ⟨u, hu, hp⟩ := h.ahead v List.mem_cons_self
  unfold remapVma
  dsimp only
  split_ifs with hsup hsub hmeet hleft
  · have hsup : s > v.start ∧ e < v.end_ := of_decide_eq_true hsup
    obtain ⟨right, hright, -, hr₁, -, hright'⟩ := hp.right hv hds hsup.1 (by omega)
    obtain ⟨left, hl, -, hl₁, -, hleft'⟩ := hp.left hv hde (by omega) hsup.2
    obtain ⟨w₀, h₀, hs₀, hb₀, he₀, hp₀⟩ := hp.left hv hds (by omega) (by omega)
    obtain ⟨w₁, h₁, hs₁, hb₁, he₁, hp₁⟩ := hp₀.right hs₀ hde (by omega) (by omega)
    obtain ⟨w, h₂, hb₂, he₂, hmid⟩ := hp₁.moved hs₁ hdt (by omega)
    rw [show v.start + (e - v.start) = left.start by omega] at hleft'
    rw [show v.start + (s - v.start) = w.start - t + s by omega] at hmid
    rw [← hr₁] at hright'
    refine ⟨(done ++ w :: rest ++ [right, left], []), ?_, ?_, ?_⟩
    · rw [hright, ok_bind, hl, ok_bind, h₀, ok_bind, h₁, ok_bind, h₂, ok_bind,
        pure_eq]
    · have hadv : Cut l s e t (done ++ [w], rest ++ [right, left]) :=
        h.advance ⟨u, hu, by omega, hmid⟩ (forall_mem_cons.2
          ⟨⟨u, hu, hright'⟩, forall_mem_singleton.2 ⟨u, hu, hleft'⟩⟩)
      simpa using hadv.stop
    · rw [totalSize_cons, totalSize, map_nil, List.sum_nil]
      omega
  · have hsub : v.start ≥ s ∧ v.end_ ≤ e := of_decide_eq_true hsub
    have hnew : u64 (usub v.start s + t) = v.start - s + t := by
      rw [usub_of_le hsub.1 (by omega), u64_of_lt (by omega)]
    rw [hnew]
    obtain ⟨w, h₂, hb₂, he₂, hmid⟩ := hp.moved (x := v.start - s + t) hv
      (dvd_add (Nat.dvd_sub hv.start_dvd hds) hdt) (by omega)
    rw [show v.start = w.start - t + s by omega] at hmid
    refine ⟨(done ++ [w], rest), by rw [h₂, ok_bind, pure_eq], ?_, ?_⟩
    · have hadv : Cut l s e t (done ++ [w], rest ++ []) :=
        h.advance ⟨u, hu, by omega, hmid⟩ (by simp)
      rwa [List.append_nil] at hadv
    · rw [totalSize_cons]
      dsimp only
      omega
  · have hsup : ¬ (s > v.start ∧ e < v.end_) := fun h => hsup (decide_eq_true h)
    have hmeet := Vma.intersects_iff.1 hmeet
    obtain ⟨back, hback, -, hb₁, he₁, hback'⟩ := hp.right hv hds hleft (by omega)
    obtain ⟨w₀, h₀, hs₀, hb₀, he₀, hp₀⟩ := hp.left hv hds (by omega) (by omega)
    obtain ⟨w, h₂, hb₂, he₂, hmid⟩ := hp₀.moved hs₀ hdt (by omega)
    rw [show v.start + (s - v.start) = w.start - t + s by omega] at hmid
    rw [← hb₁] at hback'
    refine ⟨(done ++ [w], rest ++ [back]), ?_, ?_, ?_⟩
    · rw [hback, ok_bind, h₀, ok_bind, h₂, ok_bind, pure_eq]
    · exact h.advance ⟨u, hu, by omega, hmid⟩ (forall_mem_singleton.2 ⟨u, hu, hback'⟩)
    · rw [totalSize_cons, totalSize_append, totalSize_cons, totalSize, totalSize, map_nil,
        List.sum_nil]
      omega
  · have hsub : ¬ (v.start ≥ s ∧ v.end_ ≤ e) := fun h => hsub (decide_eq_true h)
    have hmeet := Vma.intersects_iff.1 hmeet
    obtain ⟨back, hback, -, hb₁, he₁, hback'⟩ := hp.left hv hde (by omega) (by omega)
    obtain ⟨w₀, h₀, hs₀, hb₀, he₀, hp₀⟩ := hp.right hv hde (by omega) (by omega)
    have hnew : usub (u64 (t + w₀.start)) s = v.start - s + t := by
      unfold usub u64
      omega
    obtain ⟨w, h₂, hb₂, he₂, hmid⟩ := hp₀.moved (x := v.start - s + t) hs₀
      (dvd_add (Nat.dvd_sub hv.start_dvd hds) hdt) (by omega)
    rw [show v.start = w.start - t + s by omega] at hmid
    rw [show v.start + (e - v.start) = back.start by omega] at hback'
    refine ⟨(done ++ [w], rest ++ [back]), ?_, ?_, ?_⟩
    · rw [hback, ok_bind, h₀, ok_bind, hnew, h₂, ok_bind, pure_eq]
    · exact h.advance ⟨u, hu, by omega, hmid⟩ (forall_mem_singleton.2 ⟨u, hu, hback'⟩)
    · rw [totalSize_cons, totalSize_append, totalSize_cons, totalSize, totalSize, map_nil,
        List.sum_nil]
      omega
  · refine ⟨(done ++ [v], rest), rfl, h.skip, ?_⟩
    rw [totalSize_cons]
    dsimp only
    omega

theorem remapVmas_total (hl : VmasOk pageBytes l) :
    ∃ l', remapVmas pageBytes s e t l = .ok l' ∧ Cut l s e t (l', []) := by
  have h0 : Walk pageBytes s e t (covered l) ([], l) ∧ Cut l s e t ([], l) :=
    ⟨⟨[], [], by simp, ⟨hl, vmasOk_nil, by simp, by simp, by simp⟩, by simp⟩,
      fun w hw => ⟨w, hw, .refl (hl.sane w hw).start_lt.le⟩, by simp⟩
  have hround : ∀ x, Walk pageBytes s e t (covered l) x ∧ Cut l s e t x → (!x.2.isEmpty) = true →
      ∃ y, remapVma pageBytes s e t x = .ok y ∧
        (Walk pageBytes s e t (covered l) y ∧ Cut l s e t y) ∧ totalSize y.2 < totalSize x.2 := by
    rintro ⟨done, _ | ⟨v, rest⟩⟩ ⟨hwalk, hcut⟩ hc
    · simp at hc
    · obtain ⟨y, hy, hcut', hsize⟩ := remapVma_total hse he ht hds hde hdt hwalk.sane hcut
      exact ⟨y, hy, ⟨remapVma_ok hse he ht hwalk hy, hcut'⟩, hsize⟩
  obtain ⟨⟨done, rest⟩, hloop, ⟨-, hcut⟩, hend⟩ := whileSim_total
    (V := fun x : List Vma × List Vma => totalSize x.2)
    hround h0 (Nat.lt_succ_of_le (totalSize_le hl))
  obtain rfl : rest = [] := by simpa using hend
  refine ⟨done, ?_, hcut⟩
  unfold remapVmas
  rw [hloop]
  rfl

end

end Remap

section Pages

variable {t : EmulationPageTable} {start newStart n k v : ℕ}

/-- The page at `v` is one of the first `k` from `start` on. -/
def Among (t : EmulationPageTable) (start k v : ℕ) : Prop := ∃ i < k, v = start + i * t.pageSize

instance : Decidable (Among t start k v) :=
  inferInstanceAs (Decidable (∃ i < k, v = start + i * t.pageSize))

theorem not_among_zero : ¬ Among t start 0 v := fun ⟨i, hi, _⟩ => absurd hi (by omega)

theorem among_succ : Among t start (k + 1) v ↔ Among t start k v ∨ v = start + k * t.pageSize := by
  constructor
  · rintro ⟨i, hi, rfl⟩
    rcases Nat.lt_succ_iff_lt_or_eq.1 hi with hi | rfl
    · exact .inl ⟨i, hi, rfl⟩
    · exact .inr rfl
  · rintro (⟨i, hi, rfl⟩ | rfl)
    · exact ⟨i, by omega, rfl⟩
    · exact ⟨k, by omega, rfl⟩

theorem among_succ_of_ne (hv : v ≠ start + k * t.pageSize) :
    Among t start (k + 1) v ↔ Among t start k v := by
  rw [among_succ, or_iff_left hv]

theorem among_iff (hpos : 0 < t.pageSize) (hs : t.pageSize ∣ start) :
    Among t start n v ↔ t.pageSize ∣ v ∧ v ∈ Set.Ico start (start + n * t.pageSize) := by
  constructor
  · rintro ⟨i, hi, rfl⟩
    have := Nat.mul_lt_mul_of_pos_right hi hpos
    exact ⟨dvd_add hs (Dvd.intro_left i rfl), by simp, by omega⟩
  · rintro ⟨hv, hin⟩
    obtain ⟨i, rfl⟩ := Process.exists_page hv hs hin.1
    have hlt : i * t.pageSize < n * t.pageSize := Nat.lt_of_add_lt_add_left hin.2
    exact ⟨i, Nat.lt_of_mul_lt_mul_right hlt, rfl⟩

/-- The table once the first `k` pages from `start` on have been unmapped. -/
def without (t : EmulationPageTable) (start k : ℕ) : EmulationPageTable :=
  { t with pTable := fun v => if Among t start k v then none else t.pTable v }

/-- The table once the first `k` pages from `start` on have been moved to `newStart`. -/
def shifted (t : EmulationPageTable) (start newStart k : ℕ) : EmulationPageTable :=
  { t with
    pTable := fun v =>
      if Among t start k v then none
      else if Among t newStart k v then t.pTable (v - newStart + start) else t.pTable v }

/-- Where the page loops are after `k` rounds, with the table `f k`. -/
def cursorAt (t : EmulationPageTable) (f : ℕ → EmulationPageTable) (start newStart n k : ℕ) :
    PageCursor where
  table := f k
  start := u64 (start + k * t.pageSize)
  newStart := u64 (newStart + k * t.pageSize)
  length := (n - k) * t.pageSize

variable {f : ℕ → EmulationPageTable}

theorem cursorAt_next (hk : k < n) (hlt : n * t.pageSize < 2 ^ 64) :
    (cursorAt t f start newStart n k).next t.pageSize (f (k + 1))
      = cursorAt t f start newStart n (k + 1) := by
  have hmul : (k + 1) * t.pageSize = k * t.pageSize + t.pageSize := by ring
  have hlen : (n - k) * t.pageSize = (n - (k + 1)) * t.pageSize + t.pageSize := by
    rw [show n - k = n - (k + 1) + 1 by omega]
    ring
  have hle : (n - k) * t.pageSize ≤ n * t.pageSize := Nat.mul_le_mul_right _ (by omega)
  simp only [cursorAt, PageCursor.next, u64_add, hmul, Nat.add_assoc, PageCursor.mk.injEq, true_and]
  rw [usub_of_le (by omega) (by omega)]
  omega

theorem pageLoop_eq {body : PageCursor → Sim PageCursor} (hpos : 0 < t.pageSize) (hn : 0 < n)
    (hlt : n * t.pageSize < 2 ^ 64)
    (hbody : ∀ k < n, body (cursorAt t f start newStart n k) = .ok (cursorAt t f start newStart n
      (k + 1))) :
    doWhileSim (fun c : PageCursor => decide (0 < c.length)) body
      (cursorAt t f start newStart n 0) = .ok (cursorAt t f start newStart n n) := by
  have hfuel : n - 1 < maxRounds := by
    have : n * 1 ≤ n * t.pageSize := Nat.mul_le_mul_left n hpos
    unfold maxRounds
    omega
  have hloop : whileSim (fun c : PageCursor => decide (0 < c.length)) body
      (cursorAt t f start newStart n 1) = .ok (cursorAt t f start newStart n (n - 1 + 1)) :=
    Loop.whileLoop_count (fun i => cursorAt t f start newStart n (i + 1)) rfl hfuel
      (fun i hi => ⟨decide_eq_true (Nat.mul_pos (by omega) hpos), hbody (i + 1) (by omega)⟩)
      (by simp [cursorAt, show n - 1 + 1 = n by omega])
  rw [show n - 1 + 1 = n by omega] at hloop
  unfold doWhileSim Loop.doWhile
  rw [hbody 0 hn]
  exact hloop

theorem page_eq_iff (hpos : 0 < t.pageSize) {i j : ℕ} :
    start + i * t.pageSize = start + j * t.pageSize ↔ i = j := by
  rw [Nat.add_left_cancel_iff, Nat.mul_right_cancel_iff hpos]

theorem not_among_self (hpos : 0 < t.pageSize) : ¬ Among t start k (start + k * t.pageSize) := by
  rintro ⟨i, hi, h⟩
  exact hi.ne' ((page_eq_iff hpos).1 h)

theorem without_succ :
    without t start (k + 1) = (without t start k).erase (start + k * t.pageSize) := by
  unfold without erase
  congr 1
  funext v
  by_cases hv : v = start + k * t.pageSize
  · simp [among_succ, hv]
  · simp only [among_succ_of_ne hv, update_of_ne hv]

theorem unmapRegionPage_eq {c : PageCursor} (hpos : 0 < c.table.pageSize)
    (hv : c.table.pageOffset c.start = 0) (hlt : c.start < 2 ^ 64) :
    unmapRegionPage c.table.pageSize c
      = .ok (c.next c.table.pageSize (c.table.erase c.start)) := by
  unfold unmapRegionPage
  rw [isUnmapped_page hpos hv hlt, ok_bind]
  rcases hm : c.table.pTable c.start with _ | e
  · simp [erase_of_none hm]
  · simp [unmap_page hpos hv (by simp [hm])]

theorem unmapPages_eq (hpos : 0 < t.pageSize) (hs : t.pageSize ∣ start) (hn : 0 < n)
    (hlt : start + n * t.pageSize < 2 ^ 64) :
    doWhileSim (fun c : PageCursor => decide (0 < c.length)) (unmapRegionPage t.pageSize)
        ⟨t, start, 0, n * t.pageSize⟩ = .ok (cursorAt t (without t start) start 0 n n) := by
  have h0 : (⟨t, start, 0, n * t.pageSize⟩ : PageCursor)
      = cursorAt t (without t start) start 0 n 0 := by
    simp [cursorAt, without, not_among_zero, u64_of_lt (show start < 2 ^ 64 by omega),
      u64_of_lt (show 0 < 2 ^ 64 by omega)]
  rw [h0]
  refine pageLoop_eq hpos hn (by omega) fun k hk => ?_
  have hkn : k * t.pageSize < n * t.pageSize := Nat.mul_lt_mul_of_pos_right hk hpos
  have hat : u64 (start + k * t.pageSize) = start + k * t.pageSize := u64_of_lt (by omega)
  have hpage := unmapRegionPage_eq (c := cursorAt t (without t start) start 0 n k) hpos
    (by
      simp only [cursorAt, hat, pageOffset, without]
      exact Nat.mod_eq_zero_of_dvd (dvd_add hs (Dvd.intro_left k rfl)))
    (u64_lt _)
  refine hpage.trans (congrArg Except.ok ?_)
  rw [← cursorAt_next hk (by omega)]
  simp only [cursorAt, hat, without_succ]
  rfl

theorem remapRegionPage_eq {c : PageCursor} (hpos : 0 < c.table.pageSize)
    (hv : c.table.pageOffset c.start = 0) (hlt : c.start < 2 ^ 64)
    (hw : c.table.pageOffset c.newStart = 0) (hfree : c.table.pTable c.newStart = none)
    {t' : EmulationPageTable}
    (ht' : t' = { c.table with
      pTable := update (update c.table.pTable c.newStart
        (c.table.pTable c.start)) c.start none }) :
    remapRegionPage c.table.pageSize c = .ok (c.next c.table.pageSize t') := by
  unfold remapRegionPage
  rw [isUnmapped_page hpos hv hlt, ok_bind]
  rcases hm : c.table.pTable c.start with _ | e
  · have hsame : t' = c.table := by
      rw [ht', hm, ← hfree, update_eq_self, hfree, ← hm, update_eq_self]
    simp [hsame]
  · rw [hm] at ht'
    simp [remap_page hpos hv hw hm hfree, ht', EmulationPageTable.set, erase]

section Move

/-- The two regions have no page in common, and no page is mapped where the pages move to. -/
structure Apart (t : EmulationPageTable) (start newStart n : ℕ) : Prop where
  disjoint : ∀ i < n, ∀ j < n, start + i * t.pageSize ≠ newStart + j * t.pageSize
  free : ∀ j < n, t.pTable (newStart + j * t.pageSize) = none

variable (h : Apart t start newStart n)
include h

theorem Apart.shifted_source (hpos : 0 < t.pageSize) (hk : k < n) :
    (shifted t start newStart k).pTable (start + k * t.pageSize)
      = t.pTable (start + k * t.pageSize) := by
  have hout : ¬ Among t newStart k (start + k * t.pageSize) := by
    rintro ⟨j, hj, hjk⟩
    exact h.disjoint k hk j (by omega) hjk
  simp only [shifted, not_among_self hpos, hout, if_false]

theorem Apart.shifted_target (hpos : 0 < t.pageSize) (hk : k < n) :
    (shifted t start newStart k).pTable (newStart + k * t.pageSize) = none := by
  have hout : ¬ Among t start k (newStart + k * t.pageSize) := by
    rintro ⟨i, hi, hik⟩
    exact h.disjoint i (by omega) k hk hik.symm
  simp only [shifted, not_among_self hpos, hout, if_false, h.free k hk]

theorem Apart.shifted_succ (hpos : 0 < t.pageSize) (hk : k < n) :
    shifted t start newStart (k + 1) = { shifted t start newStart k with
      pTable := update (update (shifted t start newStart k).pTable
        (newStart + k * t.pageSize)
        ((shifted t start newStart k).pTable (start + k * t.pageSize)))
        (start + k * t.pageSize) none } := by
  rw [h.shifted_source hpos hk]
  simp only [shifted, EmulationPageTable.mk.injEq, true_and]
  funext v
  by_cases hv : v = start + k * t.pageSize
  · simp [among_succ, hv]
  by_cases hw : v = newStart + k * t.pageSize
  · have hout : ¬ Among t start k v := by
      rintro ⟨i, hi, hik⟩
      exact h.disjoint i (by omega) k hk (hik.symm.trans hw)
    rw [update_of_ne hv, hw, Function.update_self, ← hw, if_neg, if_pos, hw]
    · congr 1
      omega
    · exact among_succ.2 (.inr hw)
    · rw [among_succ]
      exact fun hor => hor.elim hout hv
  · simp only [among_succ_of_ne hv, among_succ_of_ne hw, update_of_ne hv,
      update_of_ne hw]

theorem Apart.remapPages_eq (hpos : 0 < t.pageSize) (hs : t.pageSize ∣ start)
    (hns : t.pageSize ∣ newStart) (hn : 0 < n) (hlt : start + n * t.pageSize < 2 ^ 64)
    (hnlt : newStart + n * t.pageSize < 2 ^ 64) :
    doWhileSim (fun c : PageCursor => decide (0 < c.length)) (remapRegionPage t.pageSize)
        ⟨t, start, newStart, n * t.pageSize⟩
      = .ok (cursorAt t (shifted t start newStart) start newStart n n) := by
  have h0 : (⟨t, start, newStart, n * t.pageSize⟩ : PageCursor)
      = cursorAt t (shifted t start newStart) start newStart n 0 := by
    simp [cursorAt, shifted, not_among_zero, u64_of_lt (show start < 2 ^ 64 by omega),
      u64_of_lt (show newStart < 2 ^ 64 by omega)]
  rw [h0]
  refine pageLoop_eq hpos hn (by omega) fun k hk => ?_
  have hkn : k * t.pageSize < n * t.pageSize := Nat.mul_lt_mul_of_pos_right hk hpos
  have hat : u64 (start + k * t.pageSize) = start + k * t.pageSize := u64_of_lt (by omega)
  have hnat : u64 (newStart + k * t.pageSize) = newStart + k * t.pageSize := u64_of_lt (by omega)
  have haligned : ∀ x, t.pageSize ∣ x → (x + k * t.pageSize) % t.pageSize = 0 := fun x hx =>
    Nat.mod_eq_zero_of_dvd (dvd_add hx (Dvd.intro_left k rfl))
  have hpage : remapRegionPage t.pageSize (cursorAt t (shifted t start newStart) start newStart n k)
      = .ok ((cursorAt t (shifted t start newStart) start newStart n k).next t.pageSize
        (shifted t start newStart (k + 1))) :=
    remapRegionPage_eq hpos
      (by simpa only [cursorAt, hat, pageOffset, shifted] using haligned start hs) (u64_lt _)
      (by simpa only [cursorAt, hnat, pageOffset, shifted] using haligned newStart hns)
      (by simpa only [cursorAt, hnat] using h.shifted_target hpos hk)
      (by simpa only [cursorAt, hat, hnat] using h.shifted_succ hpos hk)
  exact hpage.trans (congrArg Except.ok (cursorAt_next hk (by omega)))

end Move

end Pages

namespace EmulationPageTable

variable {t : EmulationPageTable} {start newStart length a : ℕ}

theorem pageAlign_region (hs : t.pageSize ∣ start) (hl : t.pageSize ∣ length)
    (ha : a ∈ Set.Ico start (start + length)) :
    t.pageSize ∣ t.pageAlign a ∧ t.pageAlign a ∈ Set.Ico start (start + length) := by
  obtain ⟨i, rfl⟩ := hs
  have hle : t.pageSize * i ≤ t.pageSize * (a / t.pageSize) := by
    refine Nat.mul_le_mul_left _ ((Nat.le_div_iff_mul_le ?_).2 (by rw [Nat.mul_comm]; exact ha.1))
    obtain ⟨j, rfl⟩ := hl
    have := ha.1.trans_lt ha.2
    exact Nat.pos_of_ne_zero fun h => by simp [h] at this
  have hdiv := Nat.div_add_mod a t.pageSize
  have halign : t.pageAlign a = t.pageSize * (a / t.pageSize) := by
    unfold pageAlign
    omega
  have := ha.2
  rw [halign]
  exact ⟨Dvd.intro _ rfl, hle, by omega⟩

theorem pageAlign_outside (hpos : 0 < t.pageSize) (hs : t.pageSize ∣ start)
    (hl : t.pageSize ∣ length) (ha : a ∉ Set.Ico start (start + length)) :
    t.pageAlign a ∉ Set.Ico start (start + length) := by
  intro hin
  obtain ⟨j, hj⟩ : t.pageSize ∣ start + length := dvd_add hs hl
  have hdiv := Nat.div_add_mod a t.pageSize
  have halign : t.pageAlign a = t.pageSize * (a / t.pageSize) := by
    unfold pageAlign
    omega
  have hlt : a / t.pageSize < j := by
    refine Nat.lt_of_mul_lt_mul_left (a := t.pageSize) ?_
    rw [← halign, ← hj]
    exact hin.2
  refine ha ⟨hin.1.trans (Nat.sub_le _ _), ?_⟩
  rw [hj]
  exact (Nat.div_lt_iff_lt_mul hpos).1 hlt |>.trans_eq (Nat.mul_comm _ _)

theorem mod_shift (hs : t.pageSize ∣ start) (hn : t.pageSize ∣ newStart) (ha : start ≤ a) :
    (a - start + newStart) % t.pageSize = a % t.pageSize := by
  obtain ⟨i, rfl⟩ := hs
  obtain ⟨j, rfl⟩ := hn
  rw [Nat.add_mul_mod_self_left, ← Nat.add_mul_mod_self_left (a - t.pageSize * i) t.pageSize i,
    Nat.sub_add_cancel ha]

theorem pageAlign_shift (hs : t.pageSize ∣ start) (hn : t.pageSize ∣ newStart) (ha : start ≤ a)
    (hpage : start ≤ t.pageAlign a) :
    t.pageAlign (a - start + newStart) = t.pageAlign a - start + newStart := by
  unfold pageAlign at hpage ⊢
  rw [mod_shift hs hn ha]
  have := Nat.mod_le a t.pageSize
  omega

end EmulationPageTable

theorem without_lookup {t : EmulationPageTable} {start n a : ℕ} (hpos : 0 < t.pageSize)
    (hs : t.pageSize ∣ start) : (without t start n).lookup a
      = if start ≤ a ∧ a < start + n * t.pageSize then none else t.lookup a := by
  show (if Among t start n (t.pageAlign a) then none else t.lookup a) = _
  refine if_congr ?_ rfl rfl
  rw [among_iff hpos hs]
  constructor
  · rintro ⟨-, hin⟩
    by_contra ha
    exact pageAlign_outside hpos hs (Dvd.intro_left n rfl) ha hin
  · exact fun ha => pageAlign_region hs (Dvd.intro_left n rfl) ha

namespace Process

variable {p : Process} {start newStart length : ℕ}

/-- `unmapRegion` takes the region out of the areas and out of the page table, and nothing else:
what is left of an area is where it was, with the part of its file that was behind it. -/
theorem unmapRegion_exact (hp : p.Paged) (hs : p.memState.pageBytes ∣ start)
    (hl : p.memState.pageBytes ∣ length) (hlen : 0 < length) (hlt : start + length < 2 ^ 64) :
    ∃ l t, p.unmapRegion start length
        = .ok { p with memState := { p.memState with vmaList := l }, pTable := t } ∧
      covered l = covered p.memState.vmaList \ region start length ∧
      VmasOk p.memState.pageBytes l ∧
      (∀ w ∈ l, ∃ v ∈ p.memState.vmaList, Vma.Piece v w.start w) ∧
      (∀ a ∉ region start length, backing l a = backing p.memState.vmaList a) ∧
      t.pageSize = p.pTable.pageSize ∧
      (∀ v, t.pTable v = if p.memState.pageBytes ∣ v ∧ start ≤ v ∧ v < start + length then none
        else p.pTable.pTable v) ∧
      ∀ a, t.lookup a = if start ≤ a ∧ a < start + length then none else p.pTable.lookup a := by
  obtain ⟨hpage, hpos, hok⟩ := hp
  obtain ⟨n, hn⟩ := hl
  have hlen' : length = n * p.pTable.pageSize := by rw [hn, hpage, Nat.mul_comm]
  have hnpos : 0 < n := Nat.pos_of_ne_zero fun h => by simp [hn, h] at hlen
  rw [hpage] at hpos
  have hs' : p.pTable.pageSize ∣ start := hpage ▸ hs
  obtain ⟨l, hwalk, hpieces⟩ := unmapVmas_total (e := start + length) (by omega) hs
    (dvd_add hs (hn ▸ Dvd.intro n rfl)) hok.sane
  obtain ⟨hlok, hcov⟩ := unmapVmas_ok (by omega) hok hwalk
  have hpages := unmapPages_eq (n := n) hpos hs' hnpos (hlen' ▸ hlt)
  refine ⟨l, without p.pTable start n, ?_, hcov, hlok, hpieces, fun a ha => ?_, rfl, fun v => ?_,
    fun a => ?_⟩
  · unfold unmapRegion
    rw [u64_of_lt hlt, hwalk, ok_bind, hpage, hlen', hpages]
    rfl
  · by_cases hal : a ∈ covered l
    · obtain ⟨w, hw, haw⟩ := hal
      obtain ⟨v, hv, hp⟩ := hpieces w hw
      have haddr : w.start + (a - w.start) = a := Nat.add_sub_cancel' haw.1
      rw [backing_eq hlok hw haw, hp.hostByte_eq haw, haddr]
      exact (backing_eq hok hv (haddr ▸ hp.mem_bytes haw)).symm
    · rw [backing_eq_none hal, backing_eq_none]
      exact fun h => hal (hcov ▸ ⟨h, ha⟩)
  · rw [hlen', hpage]
    exact if_congr (among_iff hpos hs') rfl rfl
  · rw [hlen']
    exact without_lookup hpos hs'

def fileBytes : List UInt8 := List.replicate 0x2800 7

theorem fileBytes_getElem? {i : ℕ} (hi : i < 0x2800) : fileBytes[i]? = some 7 := by
  rw [fileBytes, List.getElem?_replicate_of_lt hi]

/-- A process with one area of three pages, a file of which ends in the last one, and its middle
page mapped. -/
def filedProcess (pm : PhysicalMemory) : Process :=
  { blankProcess pm with
    memState := { (blankProcess pm).memState with
      vmaList := [⟨0x1000, 0x4000, "file", some fileBytes⟩] }
    pTable := (EmulationPageTable.new 4096).set 0x2000 ⟨0x5000, 0⟩ }

theorem filedProcess_paged (pm : PhysicalMemory) : (filedProcess pm).Paged where
  pageSize := rfl
  pos := show 0 < 4096 by omega
  vmas := vmasOk_singleton
    ⟨show 0x1000 < 0x4000 by omega, show 0x4000 < 2 ^ 64 by omega,
      show 4096 ∣ 0x1000 by omega, show 4096 ∣ 0x4000 by omega⟩

/-- The middle page is unmapped, and the file is still behind the other two. -/
theorem unmapRegion_exact_middle : ∃ pm l t, System.new wideParams = .ok (sysAt pm 0 0) ∧
    (filedProcess pm).unmapRegion 0x2000 0x1000 = .ok
      { filedProcess pm with
        memState := { (filedProcess pm).memState with vmaList := l }, pTable := t } ∧
    covered l = covered (filedProcess pm).memState.vmaList \ region 0x2000 0x1000 ∧
    backing l 0x3000 = some 7 ∧ t.pTable 0x2000 = none := by
  obtain ⟨pm, hpm⟩ := new_wideParams
  obtain ⟨l, t, hrun, hcov, -, -, hback, -, ht, -⟩ := unmapRegion_exact
    (filedProcess_paged (wide pm)) (show 4096 ∣ 0x2000 by omega) (show 4096 ∣ 0x1000 by omega)
    (by omega) (by omega)
  refine ⟨_, l, t, hpm, hrun, hcov, ?_, ?_⟩
  · rw [hback _ (by simp [region])]
    simp [backing, filedProcess, Vma.contains, Vma.hostByte, Vma.window, fileBytes_getElem?]
  · rw [ht, if_pos]
    exact ⟨show 4096 ∣ 0x2000 by omega, by omega, by omega⟩

end Process

section Shifted

variable {t : EmulationPageTable} {start newStart n a : ℕ}

section

variable (hpos : 0 < t.pageSize) (hs : t.pageSize ∣ start) (hns : t.pageSize ∣ newStart)
include hpos hs hns

theorem shifted_lookup_moved
    (hapart : Disjoint (Set.Ico newStart (newStart + n * t.pageSize))
      (Set.Ico start (start + n * t.pageSize))) (ha : a ∈ Set.Ico start (start + n * t.pageSize)) :
    (shifted t start newStart n).lookup (a - start + newStart) = t.lookup a ∧
      (shifted t start newStart n).lookup a = none := by
  obtain ⟨hd, hin⟩ := pageAlign_region hs (Dvd.intro_left n rfl) ha
  have hshift := pageAlign_shift hs hns ha.1 hin.1
  have hmoved : t.pageAlign a - start + newStart
      ∈ Set.Ico newStart (newStart + n * t.pageSize) := by
    have := hin.1
    have := hin.2
    constructor <;> omega
  constructor
  · show (shifted t start newStart n).pTable (t.pageAlign (a - start + newStart)) = _
    simp only [shifted]
    rw [hshift, if_neg, if_pos]
    · show t.pTable _ = t.pTable _
      have := hin.1
      congr 1
      omega
    · exact (among_iff hpos hns).2 ⟨dvd_add (Nat.dvd_sub hd hs) hns, hmoved⟩
    · rw [among_iff hpos hs]
      exact fun h => Set.disjoint_left.1 hapart hmoved h.2
  · exact if_pos ((among_iff hpos hs).2 ⟨hd, hin⟩)

theorem shifted_lookup_other (ha : a ∉ Set.Ico start (start + n * t.pageSize))
    (han : a ∉ Set.Ico newStart (newStart + n * t.pageSize)) :
    (shifted t start newStart n).lookup a = t.lookup a := by
  have hout := pageAlign_outside hpos hs (Dvd.intro_left n rfl) ha
  have hnout := pageAlign_outside hpos hns (Dvd.intro_left n rfl) han
  show (shifted t start newStart n).pTable (t.pageAlign a) = _
  simp only [shifted]
  rw [if_neg, if_neg]
  · rfl
  · rw [among_iff hpos hns]
    exact fun h => hnout h.2
  · rw [among_iff hpos hs]
    exact fun h => hout h.2

section

variable
  (hapart : Disjoint (Set.Ico newStart (newStart + n * t.pageSize)) (Set.Ico start (start + n *
    t.pageSize)))
include hapart

theorem apart_of_disjoint
    (hfree : ∀ a ∈ Set.Ico newStart (newStart + n * t.pageSize), t.lookup a = none) :
    Apart t start newStart n where
  disjoint i hi j hj h :=
    Set.disjoint_left.1 hapart ((among_iff hpos hns).1 ⟨j, hj, rfl⟩).2
      (h ▸ ((among_iff hpos hs).1 ⟨i, hi, rfl⟩).2)
  free j hj := by
    obtain ⟨hd, hin⟩ := (among_iff hpos hns).1 ⟨j, hj, rfl⟩
    have hpage := hfree _ hin
    rwa [lookup, pageAlign, Nat.mod_eq_zero_of_dvd hd, Nat.sub_zero] at hpage

theorem shifted_translate_moved (ha : a ∈ Set.Ico start (start + n * t.pageSize)) :
    (shifted t start newStart n).translate (a - start + newStart) = t.translate a := by
  obtain ⟨hmoved, -⟩ := shifted_lookup_moved hpos hs hns hapart ha
  have hoff : (shifted t start newStart n).pageOffset (a - start + newStart) = t.pageOffset a :=
    mod_shift hs hns ha.1
  unfold EmulationPageTable.translate
  rw [hmoved, hoff]

end

end

end Shifted

namespace Process

variable {p : Process} {start newStart length : ℕ}

/-- `remapRegion` moves what is in the region to its new place, in the areas and in the page table
alike, with the part of its file that was behind it. -/
theorem remapRegion_exact (hp : p.Paged) (hm : p.Movable start newStart length) (hlen : 0 < length)
    (hlt : start + length < 2 ^ 64) (hnlt : newStart + length < 2 ^ 64) :
    ∃ l t, p.remapRegion start newStart length
        = .ok { p with memState := { p.memState with vmaList := l }, pTable := t } ∧
      covered l = (covered p.memState.vmaList \ region start length) ∪
        Set.image (fun a => a - start + newStart)
          (covered p.memState.vmaList ∩ region start length) ∧
      VmasOk p.memState.pageBytes l ∧
      (∀ w ∈ l, ∃ v ∈ p.memState.vmaList,
        Vma.Piece v w.start w ∨ Vma.Piece v (w.start - newStart + start) w) ∧
      (∀ a ∈ region start length,
        backing l (a - start + newStart) = backing p.memState.vmaList a) ∧
      (∀ a ∉ region start length, a ∉ region newStart length →
        backing l a = backing p.memState.vmaList a) ∧
      (∀ a ∈ region start length,
        t.translate (a - start + newStart) = p.pTable.translate a ∧ t.lookup a = none) ∧
      ∀ a ∉ region start length, a ∉ region newStart length →
        t.lookup a = p.pTable.lookup a := by
  obtain ⟨hpage, hpos, hok⟩ := hp
  obtain ⟨hs, hns, hl, hapart, hvmas, hfree⟩ := hm
  obtain ⟨n, hn⟩ := hl
  have hlen' : length = n * p.pTable.pageSize := by rw [hn, hpage, Nat.mul_comm]
  have hnpos : 0 < n := Nat.pos_of_ne_zero fun h => by simp [hn, h] at hlen
  have hsub : start + length - start = length := by omega
  obtain ⟨l, hwalk, hcut⟩ := remapVmas_total (e := start + length) (t := newStart) (by omega) hlt
    (hsub.symm ▸ hnlt) hs (dvd_add hs (hn ▸ Dvd.intro n rfl)) hns hok
  have hout : ∀ a, newStart ≤ a ∧ a < newStart + length → a ∉ covered p.memState.vmaList :=
    fun a ha => Set.disjoint_left.1 hvmas ha
  obtain ⟨hlok, hcov⟩ := remapVmas_ok (by omega) hlt (hsub.symm ▸ hnlt) hok
    (fun a ha _ hc => absurd hc (hout _ (by omega))) hwalk
  rw [hsub] at hcov
  rw [hpage] at hpos
  have hs' : p.pTable.pageSize ∣ start := hpage ▸ hs
  have hns' : p.pTable.pageSize ∣ newStart := hpage ▸ hns
  have hpages := (apart_of_disjoint (n := n) hpos hs' hns' (hlen' ▸ hapart)
    (hlen' ▸ hfree)).remapPages_eq hpos hs' hns' hnpos (hlen' ▸ hlt) (hlen' ▸ hnlt)
  refine ⟨l, shifted p.pTable start newStart n, ?_, ?_, hlok, ?_, ?_, ?_, ?_, ?_⟩
  · unfold remapRegion
    rw [u64_of_lt hlt, hwalk, ok_bind, hpage, hlen', hpages]
    rfl
  · ext a
    rw [hcov, Set.mem_union, Set.mem_sdiff, Set.mem_image]
    refine or_congr Iff.rfl ⟨?_, ?_⟩
    · rintro ⟨ha, hc⟩
      exact ⟨a - newStart + start, ⟨hc, by omega, by omega⟩, by omega⟩
    · rintro ⟨b, ⟨hb, hbs, hbe⟩, rfl⟩
      rw [show b - start + newStart - newStart + start = b by omega]
      exact ⟨by omega, hb⟩
  · intro w hw
    rcases hcut.behind w hw with ⟨v, hv, hp⟩ | ⟨v, hv, -, hp⟩
    · exact ⟨v, hv, .inl hp⟩
    · exact ⟨v, hv, .inr hp⟩
  · intro a ha
    have hat : newStart ≤ a - start + newStart ∧ a - start + newStart < newStart + length := by
      have := ha.1
      have := ha.2
      omega
    have hback : a - start + newStart - newStart + start = a := by
      have := ha.1
      omega
    by_cases hal : a ∈ covered p.memState.vmaList
    · obtain ⟨w, hw, haw⟩ := (hcov (a - start + newStart)).2 (.inr ⟨hat, hback.symm ▸ hal⟩)
      rcases hcut.behind w hw with ⟨v, hv, hp⟩ | ⟨v, hv, hwin, hp⟩
      · -- an area that has not moved has no address where the region moves to
        have haddr := hp.mem_bytes haw
        rw [Nat.add_sub_cancel' haw.1] at haddr
        exact absurd ⟨v, hv, haddr⟩ (hout _ hat)
      · have haddr : w.start - newStart + start + (a - start + newStart - w.start) = a := by
          have := haw.1
          have := ha.1
          omega
        rw [backing_eq hlok hw haw, hp.hostByte_eq haw, haddr]
        exact (backing_eq hok hv (haddr ▸ hp.mem_bytes haw)).symm
    · rw [backing_eq_none hal, backing_eq_none]
      rw [hcov, hback]
      exact fun h => h.elim (fun h => hout _ hat h.1) fun h => hal h.2
  · intro a ha han
    by_cases hal : a ∈ covered l
    · obtain ⟨w, hw, haw⟩ := hal
      rcases hcut.behind w hw with ⟨v, hv, hp⟩ | ⟨v, hv, hwin, hp⟩
      · have haddr : w.start + (a - w.start) = a := Nat.add_sub_cancel' haw.1
        rw [backing_eq hlok hw haw, hp.hostByte_eq haw, haddr]
        exact (backing_eq hok hv (haddr ▸ hp.mem_bytes haw)).symm
      · have := haw.1
        have := haw.2
        exact absurd ⟨by omega, by omega⟩ han
    · rw [backing_eq_none hal, backing_eq_none]
      exact fun h => hal ((hcov a).2 (.inl ⟨h, ha⟩))
  · intro a ha
    rw [hlen'] at hapart ha
    exact ⟨shifted_translate_moved hpos hs' hns' hapart ha,
      (shifted_lookup_moved hpos hs' hns' hapart ha).2⟩
  · intro a ha han
    rw [hlen'] at ha han
    exact shifted_lookup_other hpos hs' hns' ha han

theorem filedProcess_lookup (pm : PhysicalMemory) {a : ℕ} (ha : a < 0x2000 ∨ 0x3000 ≤ a) :
    (filedProcess pm).pTable.lookup a = none := by
  have hne : a - a % 4096 ≠ 0x2000 := by omega
  simp [filedProcess, lookup, pageAlign, EmulationPageTable.set, EmulationPageTable.new, hne]

theorem filedProcess_movable (pm : PhysicalMemory) {start newStart length : ℕ}
    (hs : 4096 ∣ start) (hn : 4096 ∣ newStart) (hl : 4096 ∣ length) (hlow : 0x4000 ≤ newStart)
    (hapart : start + length ≤ newStart ∨ newStart + length ≤ start) :
    (filedProcess pm).Movable start newStart length where
  start_dvd := hs
  newStart_dvd := hn
  length_dvd := hl
  apart := Set.disjoint_left.2 fun a ha ha' => by
    obtain ⟨h₁, h₂⟩ := ha
    obtain ⟨h₃, h₄⟩ := ha'
    omega
  vmas := Set.disjoint_left.2 fun a ha ha' => by
    obtain ⟨v, hv, -, hlt⟩ := ha'
    obtain rfl := List.mem_singleton.1 hv
    have := ha.1
    dsimp only at hlt
    omega
  pages a ha := filedProcess_lookup pm (.inr (by have := ha.1; omega))

/-- The middle page is moved, with the file behind it and the memory it translates to. -/
theorem remapRegion_exact_middle : ∃ pm l t, System.new wideParams = .ok (sysAt pm 0 0) ∧
    (filedProcess pm).remapRegion 0x2000 0x8000 0x1000 = .ok
      { filedProcess pm with
        memState := { (filedProcess pm).memState with vmaList := l }, pTable := t } ∧
    VmasOk 4096 l ∧ backing l 0x8010 = some 7 ∧ t.translate 0x8010 = some 0x5010 ∧
    t.lookup 0x2010 = none := by
  obtain ⟨pm, hpm⟩ := new_wideParams
  have hmovable : (filedProcess (wide pm)).Movable 0x2000 0x8000 0x1000 :=
    filedProcess_movable _ (by omega) (by omega) (by omega) (by omega) (by omega)
  obtain ⟨l, t, hrun, -, hok, -, hback, -, ht, -⟩ := remapRegion_exact (filedProcess_paged _)
    hmovable (by omega) (by omega) (by omega)
  have hin : 0x2010 ∈ region 0x2000 0x1000 := by simp [region]
  have hbyte := hback _ hin
  obtain ⟨hmoved, hgone⟩ := ht _ hin
  simp only [Nat.reduceSub, Nat.reduceAdd] at hbyte hmoved
  refine ⟨_, l, t, hpm, hrun, hok, ?_, ?_, hgone⟩
  · rw [hbyte]
    simp [backing, filedProcess, Vma.contains, Vma.hostByte, Vma.window, fileBytes_getElem?]
  · rw [hmoved]
    show ((EmulationPageTable.new 4096).set 0x2000 ⟨0x5000, 0⟩).translate 0x2010 = some 0x5010
    rfl

/-- An area has no room for a region without a length, nor for the last page of the address space,
whose end is the address zero: the checks stop the simulation. -/
theorem remapRegion_degenerate : ∃ pm, System.new wideParams = .ok (sysAt pm 0 0) ∧
    (filedProcess pm).Paged ∧
    ((filedProcess pm).Movable 0x2000 0x8000 0 ∧
      (filedProcess pm).remapRegion 0x2000 0x8000 0
        = .error (.assertion "_addrRange.start() != _addrRange.end()")) ∧
    ((filedProcess pm).Movable 0xfffffffffffff000 0x8000 0x1000 ∧
      (filedProcess pm).remapRegion 0xfffffffffffff000 0x8000 0x1000
        = .error (.assertion "_addrRange.start() < _addrRange.end()")) ∧
    (filedProcess pm).Movable 0x2000 0xfffffffffffff000 0x1000 ∧
      (filedProcess pm).remapRegion 0x2000 0xfffffffffffff000 0x1000
        = .error (.assertion "_addrRange.start() < _addrRange.end()") := by
  obtain ⟨pm, hpm⟩ := new_wideParams
  have hfail : ∀ {start newStart length : ℕ} {e : Abort},
      remapVma 4096 start (u64 (start + length)) newStart
        ([], (filedProcess (wide pm)).memState.vmaList) = .error e →
          (filedProcess (wide pm)).remapRegion start newStart length = .error e := by
    intro start newStart length e h
    have hloop : whileSim (fun x : List Vma × List Vma => !x.2.isEmpty)
        (remapVma 4096 start (u64 (start + length)) newStart)
        ([], (filedProcess (wide pm)).memState.vmaList) = .error e := whileSim_error rfl h
    exact congrArg (fun x => (x >>= fun s => pure s.1) >>= _) hloop
  refine ⟨_, hpm, filedProcess_paged _, ⟨?_, hfail rfl⟩, ⟨?_, hfail rfl⟩, ?_, hfail rfl⟩
  all_goals exact filedProcess_movable _ (by omega) (by omega) (by omega) (by omega) (by omega)

end Process

end Gem5Nvm
