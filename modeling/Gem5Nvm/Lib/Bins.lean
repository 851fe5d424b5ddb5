import Mathlib

/-!
# Bins

Elements with a key, kept in bins of equal key in increasing order, each bin a non-empty stack.
`Binned key log bins` says that these are the bins of the elements `log`, listed from the newest to
the oldest.  The lemmas say what becomes of the bins when an element is added or taken out.
-/

namespace Bins

open List (pairwise_append mem_append mem_filter)

variable {α κ : Type*} [LinearOrder κ] {key : α → κ} {log : List α} {e : α}

/-- The top of a stack, and the elements under it. -/
abbrev Bin (α : Type*) := α × List α

structure Binned (key : α → κ) (log : List α) (bins : List (Bin α)) : Prop where
  sorted : bins.Pairwise fun b c => key b.1 < key c.1
  stack : ∀ b ∈ bins, b.1 :: b.2 = log.filter fun x => key x = key b.1
  complete : ∀ x ∈ log, ∃ b ∈ bins, key x = key b.1

variable {pre post bins : List (Bin α)} {b : Bin α}

theorem binned_nil : Binned key [] [] := ⟨List.Pairwise.nil, by simp, by simp⟩

section

variable (h : Binned key log bins)
include h

theorem Binned.mem_log (hb : b ∈ bins) {x : α} (hx : x ∈ b.1 :: b.2) :
    x ∈ log ∧ key x = key b.1 := by
  rw [h.stack b hb] at hx
  simpa using hx

theorem Binned.mem_stack (hb : b ∈ bins) {x : α} (hx : x ∈ log) (hk : key x = key b.1) :
    x ∈ b.1 :: b.2 := by
  rw [h.stack b hb]
  simp [hx, hk]

theorem Binned.nodup_tops : (bins.map Prod.fst).Nodup := by
  rw [List.Nodup, List.pairwise_map]
  exact h.sorted.imp fun hlt heq => hlt.ne (congrArg key heq)

theorem Binned.nodup_stack (hn : log.Nodup) (hb : b ∈ bins) : (b.1 :: b.2).Nodup := by
  rw [h.stack b hb]
  exact hn.filter _

theorem Binned.disjoint {c : Bin α} (hb : b ∈ bins) (hc : c ∈ bins) (hne : key b.1 ≠ key c.1)
    {x : α} (hx : x ∈ b.1 :: b.2) : x ∉ c.1 :: c.2 := fun hx' =>
  hne ((h.mem_log hb hx).2.symm.trans (h.mem_log hc hx').2)

theorem Binned.congr {key' : α → κ} (hkey : ∀ x ∈ log, key' x = key x) : Binned key' log bins := by
  have htop : ∀ b ∈ bins, key' b.1 = key b.1 := fun b hb =>
    hkey _ (h.mem_log hb List.mem_cons_self).1
  refine ⟨h.sorted.imp_of_mem fun hb hc hlt => ?_, fun b hb => ?_, fun x hx => ?_⟩
  · rwa [htop _ hb, htop _ hc]
  · rw [h.stack b hb, htop b hb]
    exact List.filter_congr fun x hx => by rw [hkey x hx]
  · obtain ⟨b, hb, hxb⟩ := h.complete x hx
    exact ⟨b, hb, by rw [hkey x hx, htop b hb, hxb]⟩

end

theorem Binned.least (h : Binned key log (b :: bins)) {x : α} (hx : x ∈ log) : key b.1 ≤ key x := by
  obtain ⟨c, hc, hxc⟩ := h.complete x hx
  rcases List.mem_cons.1 hc with rfl | hc
  · exact hxc.ge
  · exact ((List.pairwise_cons.1 h.sorted).1 c hc).le.trans_eq hxc.symm

/-- Bins change at one place: those before it and those after it keep their keys and elements. -/
theorem Binned.replace {log' : List α} {mid mid' : List (Bin α)} {k : κ}
    (h : Binned key log (pre ++ mid ++ post))
    (hmid : ∀ b ∈ mid', key b.1 = k ∧ b.1 :: b.2 = log'.filter fun x => key x = k)
    (hlen : mid'.length ≤ 1) (hk : ∀ b ∈ mid, key b.1 = k) (hpre : ∀ b ∈ pre, key b.1 < k)
    (hpost : ∀ b ∈ post, k < key b.1)
    (hother : ∀ j, j ≠ k → (log'.filter fun x => key x = j) = log.filter fun x => key x = j)
    (hcomplete : ∀ x ∈ log', key x = k → mid' ≠ []) : Binned key log' (pre ++ mid' ++ post) := by
  have hsorted := h.sorted
  rw [List.append_assoc, pairwise_append, pairwise_append] at hsorted
  obtain ⟨hs₁, ⟨-, hs₂, -⟩, hs₃⟩ := hsorted
  have hstack : ∀ b ∈ pre ++ post, b.1 :: b.2 = log'.filter fun x => key x = key b.1 := by
    intro b hb
    have hne : key b.1 ≠ k := by
      rcases mem_append.1 hb with hb | hb
      · exact (hpre b hb).ne
      · exact (hpost b hb).ne'
    rw [hother _ hne]
    refine h.stack b ?_
    simp only [mem_append] at hb ⊢
    tauto
  refine ⟨?_, fun b hb => ?_, fun x hx => ?_⟩
  · rw [List.append_assoc, pairwise_append, pairwise_append]
    refine ⟨hs₁, ⟨?_, hs₂, fun b hb c hc => ?_⟩, fun b hb c hc => ?_⟩
    · match mid', hlen with
      | [], _ => exact List.Pairwise.nil
      | [b], _ => exact List.pairwise_singleton _ _
    · rw [(hmid b hb).1]
      exact hpost c hc
    · rcases mem_append.1 hc with hc | hc
      · rw [(hmid c hc).1]
        exact hpre b hb
      · exact hs₃ b hb c (List.mem_append_right _ hc)
  · simp only [mem_append] at hb
    rcases hb with (hb | hb) | hb
    · exact hstack b (List.mem_append_left _ hb)
    · rw [(hmid b hb).1]
      exact (hmid b hb).2
    · exact hstack b (List.mem_append_right _ hb)
  · by_cases hxk : key x = k
    · obtain ⟨b, hb⟩ := List.exists_mem_of_ne_nil _ (hcomplete x hx hxk)
      exact ⟨b, by simp [hb], hxk.trans (hmid b hb).1.symm⟩
    · have hxlog : x ∈ log := by
        have : x ∈ log'.filter fun y => key y = key x := by simp [hx]
        rw [hother _ hxk] at this
        exact (mem_filter.1 this).1
      obtain ⟨b, hb, hxb⟩ := h.complete x hxlog
      refine ⟨b, ?_, hxb⟩
      simp only [mem_append] at hb ⊢
      rcases hb with (hb | hb) | hb
      · exact .inl (.inl hb)
      · exact absurd (hxb.trans (hk b hb)) hxk
      · exact .inr hb

theorem Binned.around (h : Binned key log (pre ++ b :: post)) :
    (∀ c ∈ pre, key c.1 < key b.1) ∧ ∀ c ∈ post, key b.1 < key c.1 := by
  obtain ⟨-, hpost, hpre⟩ := pairwise_append.1 h.sorted
  exact ⟨fun c hc => hpre c hc b List.mem_cons_self, (List.pairwise_cons.1 hpost).1⟩

theorem filter_cons_key (j : κ) (hj : j ≠ key e) :
    ((e :: log).filter fun x => key x = j) = log.filter fun x => key x = j := by
  rw [List.filter_cons_of_neg]
  simpa using hj.symm

theorem Binned.newBin (h : Binned key log (pre ++ post)) (hpre : ∀ b ∈ pre, key b.1 < key e)
    (hpost : ∀ b ∈ post, key e < key b.1) : Binned key (e :: log) (pre ++ (e, []) :: post) := by
  have hnone : (log.filter fun x => key x = key e) = [] := by
    rw [List.filter_eq_nil_iff]
    intro x hx hxe
    obtain ⟨b, hb, hxb⟩ := h.complete x hx
    have hbe : key b.1 = key e := hxb.symm.trans (of_decide_eq_true hxe)
    rcases mem_append.1 hb with hb | hb
    · exact (hpre b hb).ne hbe
    · exact (hpost b hb).ne' hbe
  have h' : Binned key log (pre ++ [] ++ post) := by simpa using h
  have hnew : Binned key (e :: log) (pre ++ [(e, [])] ++ post) :=
    h'.replace (by simp [hnone]) le_rfl (by simp) hpre hpost filter_cons_key (by simp)
  simpa using hnew

theorem Binned.push (h : Binned key log (pre ++ b :: post)) (hk : key e = key b.1) :
    Binned key (e :: log) (pre ++ (e, b.1 :: b.2) :: post) := by
  obtain ⟨hpre, hpost⟩ := h.around
  rw [← hk] at hpre hpost
  have hstack := h.stack b (by simp)
  rw [← hk] at hstack
  have h' : Binned key log (pre ++ [b] ++ post) := by simpa using h
  have hnew : Binned key (e :: log) (pre ++ [(e, b.1 :: b.2)] ++ post) :=
    h'.replace (by simp [hstack]) le_rfl (by simp [hk]) hpre hpost filter_cons_key (by simp)
  simpa using hnew

variable [DecidableEq α]

theorem filter_erase (hn : log.Nodup) (p : α → Bool) :
    (log.erase e).filter p = (log.filter p).erase e := by
  rw [hn.erase_eq_filter, (hn.filter p).erase_eq_filter, List.filter_filter, List.filter_filter]
  exact List.filter_congr fun x _ => Bool.and_comm _ _

theorem Binned.erase (h : Binned key log (pre ++ b :: post)) (hn : log.Nodup)
    (hk : key e = key b.1) {mid : List (Bin α)} (hlen : mid.length ≤ 1)
    (hmid : (mid.map fun c => c.1 :: c.2).flatten = (b.1 :: b.2).erase e) :
    Binned key (log.erase e) (pre ++ mid ++ post) := by
  obtain ⟨hpre, hpost⟩ := h.around
  have hstack := h.stack b (by simp)
  have hbin : (mid.map fun c => c.1 :: c.2).flatten
      = (log.erase e).filter fun x => key x = key b.1 := by
    rw [hmid, hstack, filter_erase hn]
  have h' : Binned key log (pre ++ [b] ++ post) := by simpa using h
  refine h'.replace (fun c hc => ?_) hlen (by simp) hpre hpost (fun j hj => ?_)
    fun x hx hxk hnil => ?_
  · obtain rfl : mid = [c] := by
      match mid, hlen, hc with
      | [d], _, hc => rw [List.mem_singleton.1 hc]
    have hc1 : c.1 ∈ (log.erase e).filter fun x => key x = key b.1 := by
      rw [← hbin]
      simp
    refine ⟨by simpa using (mem_filter.1 hc1).2, ?_⟩
    rw [← hbin]
    simp
  · rw [filter_erase hn, List.erase_of_not_mem]
    intro he
    exact hj (by rw [← hk]; exact (of_decide_eq_true (mem_filter.1 he).2).symm)
  · have hx' : x ∈ (log.erase e).filter fun x => key x = key b.1 := by simp [hx, hxk]
    rw [← hbin, hnil] at hx'
    simp at hx'

end Bins
