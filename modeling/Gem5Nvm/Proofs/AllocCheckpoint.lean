import Gem5Nvm.Proofs.Alloc

/-!
# Checkpoints and the physical allocators

A checkpoint of a system holds `pagePtr` only, so a system restored from it starts its NVM pages
again.  What an NVM request returns depends on `pageNVMPtr` through the address it stands for, so
the restored system goes on as the saved one would exactly when that address is the first of the
window.
-/

namespace Gem5Nvm

namespace System

/-- Systems that differ at most in an NVM pointer that stands for the same address. -/
structure Alike (s t : System) : Prop where
  pageShift : s.pageShift = t.pageShift
  physmem : s.physmem = t.physmem
  m5opRange : s.m5opRange = t.m5opRange
  pagePtr : s.pagePtr = t.pagePtr
  nvmAddr : s.pageAddr s.pageNVMPtr = t.pageAddr t.pageNVMPtr

theorem pageAddr_advance_congr {s : System} {p q : ℕ} (n : ℤ)
    (h : s.pageAddr p = s.pageAddr q) : s.pageAddr (advance p n) = s.pageAddr (advance q n) := by
  have key : ∀ r : ℕ, ((s.pageAddr (advance r n) : ℕ) : ℤ)
      = ((s.pageAddr r : ℕ) + n * 2 ^ s.pageShift) % 2 ^ 64 := by
    intro r
    have hr : (((r + n) % 2 ^ 64).toNat : ℤ) = (r + n) % 2 ^ 64 :=
      Int.toNat_of_nonneg (Int.emod_nonneg _ (by norm_num))
    simp only [pageAddr, advance, u64, Nat.shiftLeft_eq, Int.natCast_emod, Int.natCast_mul, hr,
      Int.natCast_pow, Nat.cast_ofNat, Int.emod_add_emod, ← add_mul]
    exact (Int.mod_modEq _ _).mul_right _
  have hk := key p
  rw [h, ← key q] at hk
  exact_mod_cast hk

theorem allocStep_alike {s t : System} (h : Alike s t) (op : AllocOp) :
    Run.StepsAlike Alike (s.allocStep op) (t.allocStep op) := by
  obtain ⟨ss, pm, m5, p, q⟩ := s
  obtain ⟨ts, tpm, tm5, tp, tq⟩ := t
  obtain ⟨hs, hpm, hm5, hp, hq⟩ := h
  simp only at hs hpm hm5 hp hq
  subst hs hpm hm5 hp
  cases op with
  | phys n =>
    -- the NVM pointer is not read
    have hskip : (⟨ss, pm, m5, p, q⟩ : System).skipNvm = (⟨ss, pm, m5, p, tq⟩ : System).skipNvm :=
      rfl
    have haddr : (⟨ss, pm, m5, p, q⟩ : System).pageAddr = (⟨ss, pm, m5, p, tq⟩ : System).pageAddr :=
      rfl
    simp only [allocStep, allocPhysPages, hskip, haddr]
    rcases skipNvm _ _ _ with e | ⟨r, p'⟩
    · exact .inl ⟨e, rfl, rfl⟩
    · simp only [Sim.ok_bind]
      split_ifs
      · exact .inl ⟨_, rfl, rfl⟩
      · exact .inr ⟨_, _, _, rfl, rfl, rfl, rfl, rfl, rfl, hq⟩
      · exact .inl ⟨_, rfl, rfl⟩
      · exact .inr ⟨_, _, _, rfl, rfl, rfl, rfl, rfl, rfl, hq⟩
  | nvm n =>
    have haddr : (⟨ss, pm, m5, p, tq⟩ : System).pageAddr q
        = (⟨ss, pm, m5, p, tq⟩ : System).pageAddr tq := hq
    refine .inr ⟨(⟨ss, pm, m5, p, q⟩ : System).block (u64
      ((⟨ss, pm, m5, p, q⟩ : System).pageAddr q + nvmStartAddr)) n,
      ⟨ss, pm, m5, p, advance q n⟩, ⟨ss, pm, m5, p, advance tq n⟩, rfl, ?_, rfl, rfl, rfl, rfl,
      pageAddr_advance_congr n haddr⟩
    simp only [allocStep, allocNVMPhysPages, hq]
    rfl

theorem new_pageNVMPtr {p : SystemParams} {sys : System} (h : System.new p = .ok sys) :
    sys.pageNVMPtr = 0 := by
  obtain ⟨pm, -, h⟩ := Sim.bind_eq_ok.1 h
  cases h
  rfl

/-- What a system is built from does not change. -/
structure SameBuild (s t : System) : Prop where
  pageShift : s.pageShift = t.pageShift
  physmem : s.physmem = t.physmem
  m5opRange : s.m5opRange = t.m5opRange

theorem allocStep_sameBuild {s s' : System} {op : AllocOp} {b : Block}
    (h : s.allocStep op = .ok (b, s')) : SameBuild s' s := by
  cases op with
  | phys n =>
    obtain ⟨⟨r, s₁⟩, ha, h⟩ := Sim.bind_eq_ok.1 h
    simp only [Sim.pure_eq, Except.ok.injEq, Prod.mk.injEq] at h
    obtain ⟨-, rfl⟩ := h
    obtain ⟨⟨r', p⟩, -, h⟩ := Sim.bind_eq_ok.1 ha
    dsimp only at h
    split_ifs at h <;> simp only [Sim.pure_eq, Except.ok.injEq, Prod.mk.injEq] at h <;>
      obtain ⟨-, rfl⟩ := h <;> exact ⟨rfl, rfl, rfl⟩
  | nvm n =>
    simp only [allocStep, allocNVMPhysPages, Except.ok.injEq, Prod.mk.injEq] at h
    obtain ⟨-, rfl⟩ := h
    exact ⟨rfl, rfl, rfl⟩

theorem Reachable.sameBuild {s t : System} (h : Run.Reachable allocStep s t) : SameBuild t s := by
  refine h.inv (I := fun t => SameBuild t s) ⟨rfl, rfl, rfl⟩ fun t op r t' ht hstep => ?_
  obtain ⟨h1, h2, h3⟩ := allocStep_sameBuild hstep
  exact ⟨h1.trans ht.pageShift, h2.trans ht.physmem, h3.trans ht.m5opRange⟩

end System

/-- A system restored from a checkpoint of `s` answers every sequence of requests as `s` does
exactly when the next NVM page of `s` is the first of the window. -/
theorem restore_answers_iff {p : SystemParams} {fresh s : System} (hnew : System.new p = .ok fresh)
    (hs : Run.Reachable System.allocStep fresh s) :
    (∀ ops, Run.answers System.allocStep (fresh.unserialize s.serialize) ops
        = Run.answers System.allocStep s ops) ↔ s.pageAddr s.pageNVMPtr = 0 := by
  obtain ⟨hshift, hpm, hm5⟩ := System.Reachable.sameBuild hs
  have h0 := System.new_pageNVMPtr hnew
  have hzero : fresh.pageAddr 0 = 0 := by simp [System.pageAddr, u64]
  constructor
  · intro h
    have h1 := h [.nvm 1]
    simp only [Run.answers, Run.run, System.allocStep, System.allocNVMPhysPages, System.block,
      System.unserialize, Except.bind, Except.map, Except.ok.injEq, List.cons.injEq, Block.mk.injEq,
      h0] at h1
    have h2 := h1.1.1
    have hlt : s.pageAddr s.pageNVMPtr < 2 ^ 64 := Nat.mod_lt _ (by norm_num)
    have hz : System.pageAddr ⟨fresh.pageShift, fresh.physmem, fresh.m5opRange,
        s.serialize.pagePtr, 0⟩ 0 = 0 := hzero
    rw [hz] at h2
    simp only [u64, nvmStartAddr] at h2
    omega
  · intro h ops
    refine Run.answers_eq_of_bisim (fun s t o hst => System.allocStep_alike hst o) ops ?_
    refine ⟨hshift.symm, hpm.symm, hm5.symm, rfl, ?_⟩
    simp only [System.unserialize, h0, h]
    exact hzero

/-- After volatile requests only, a system is restored as it was. -/
theorem restore_answers_iff_wide : ∃ fresh s, System.new wideParams = .ok fresh ∧
    Run.run System.allocStep fresh [.phys 2] = .ok ([⟨0, 0x2000⟩], s) ∧
    ∀ ops, Run.answers System.allocStep (fresh.unserialize s.serialize) ops
      = Run.answers System.allocStep s ops := by
  obtain ⟨pm, hnew⟩ := new_wideParams
  have hrun : Run.run System.allocStep (sysAt (wide pm) 0 0) [.phys 2]
      = .ok ([⟨0, 0x2000⟩], sysAt (wide pm) 2 0) := by
    cbv
  exact ⟨_, _, hnew, hrun, (restore_answers_iff hnew ⟨_, _, hrun⟩).2 rfl⟩

/-- A page of the NVM handed out before the checkpoint is handed out again after it. -/
theorem restore_repeats_nvm_page : ∃ fresh s, System.new wideParams = .ok fresh ∧
    Run.run System.allocStep fresh [.nvm 1] = .ok ([⟨0x30000000, 0x1000⟩], s) ∧
    Run.answers System.allocStep s [.nvm 1] = .ok [⟨0x30001000, 0x1000⟩] ∧
    Run.answers System.allocStep (fresh.unserialize s.serialize) [.nvm 1]
      = .ok [⟨0x30000000, 0x1000⟩] := by
  obtain ⟨pm, hnew⟩ := new_wideParams
  exact ⟨_, sysAt (wide pm) 0 1, hnew, by cbv, by cbv, by cbv⟩

end Gem5Nvm
