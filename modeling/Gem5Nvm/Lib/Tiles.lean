import Mathlib

/-!
# Lists of pairwise disjoint sets

`Tiles l S` says that the members of `l` are pairwise disjoint and that their union is `S`.  The
order of the list does not matter (`Tiles.perm`), and a member may be replaced by a tiling of it
(`tiles_cons`, `tiles_append`).
-/

namespace Tiling

variable {α : Type*}

/-- The members of `l` are pairwise disjoint and make up `S`. -/
structure Tiles (l : List (Set α)) (S : Set α) : Prop where
  disjoint : l.Pairwise Disjoint
  union : S = {a | ∃ s ∈ l, a ∈ s}

variable {l m : List (Set α)} {s S : Set α}

theorem Tiles.perm (h : Tiles l S) (hp : l.Perm m) : Tiles m S := by
  refine ⟨(hp.pairwise_iff fun hd => hd.symm).1 h.disjoint, ?_⟩
  rw [h.union]
  ext a
  simp only [Set.mem_ofPred_eq, hp.mem_iff]

theorem tiles_cons : Tiles (s :: l) S ↔ ∃ T, Tiles l T ∧ Disjoint s T ∧ S = s ∪ T := by
  constructor
  · intro h
    obtain ⟨hs, hl⟩ := List.pairwise_cons.1 h.disjoint
    refine ⟨_, ⟨hl, rfl⟩, ?_, ?_⟩
    · rw [Set.disjoint_left]
      rintro a ha ⟨t, ht, hat⟩
      exact Set.disjoint_left.1 (hs t ht) ha hat
    · rw [h.union]
      ext a
      simp
  · rintro ⟨T, hT, hd, rfl⟩
    refine ⟨List.pairwise_cons.2 ⟨fun t ht => hd.mono_right ?_, hT.disjoint⟩, ?_⟩
    · rw [hT.union]
      exact fun a ha => ⟨t, ht, ha⟩
    · rw [hT.union]
      ext a
      simp

theorem tiles_append :
    Tiles (l ++ m) S ↔ ∃ T U, Tiles l T ∧ Tiles m U ∧ Disjoint T U ∧ S = T ∪ U := by
  constructor
  · intro h
    obtain ⟨hl, hm, hd⟩ := List.pairwise_append.1 h.disjoint
    refine ⟨_, _, ⟨hl, rfl⟩, ⟨hm, rfl⟩, ?_, ?_⟩
    · rw [Set.disjoint_left]
      rintro a ⟨t, ht, hat⟩ ⟨u, hu, hau⟩
      exact Set.disjoint_left.1 (hd t ht u hu) hat hau
    · rw [h.union]
      ext a
      simp [or_and_right, exists_or]
  · rintro ⟨T, U, hT, hU, hd, rfl⟩
    refine ⟨List.pairwise_append.2 ⟨hT.disjoint, hU.disjoint, fun t ht u hu => ?_⟩, ?_⟩
    · refine hd.mono ?_ ?_
      · rw [hT.union]
        exact fun a ha => ⟨t, ht, ha⟩
      · rw [hU.union]
        exact fun a ha => ⟨u, hu, ha⟩
    · rw [hT.union, hU.union]
      ext a
      simp [or_and_right, exists_or]

end Tiling
