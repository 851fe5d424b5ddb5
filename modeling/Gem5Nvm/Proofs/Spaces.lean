import Gem5Nvm.Proofs.Process
import Gem5Nvm.Spaces

/-!
# Pages stay in their memory space

The loop of `allocPhysPages` ends off the window, and its pointer stays off it, so a request that
does not run over the window gets pages off it, even when the loop moves it
(`allocPhysPages_space`).  What a call maps is then a page of the space of its virtual page.
-/

namespace Gem5Nvm

open Sim (bind_eq_ok bind₂_eq_ok pure_eq)
open Function (update update_self update_of_ne)
open EmulationPageTable (map_ok lookup pageAlign pageOffset new)

namespace System

variable {sys sys' : System} {ret : ℕ}

theorem SameSpace.congr (h : sys'.pageShift = sys.pageShift) {v a : ℕ} (hs : sys.SameSpace v a) :
    sys'.SameSpace v a := by
  unfold SameSpace pageBytes at *
  rwa [h]

/-- The pages from `ret` on, off the window. -/
def PagesOff (sys : System) (ret n : ℕ) : Prop :=
  ∀ i < n, u64 (ret + i * sys.pageBytes) + sys.pageBytes ≤ nvmStartAddr ∨
    nvmEndAddr ≤ u64 (ret + i * sys.pageBytes)

variable {n : ℕ}

theorem pagesOff_above (hret : nvmEndAddr ≤ ret) (hfit : ret + n * sys.pageBytes ≤ 2 ^ 64) :
    sys.PagesOff ret n := by
  intro i hi
  have hmul : (i + 1) * sys.pageBytes ≤ n * sys.pageBytes := Nat.mul_le_mul_right _ hi
  have hpos := sys.pageBytes_pos
  rw [Nat.add_mul] at hmul
  rw [u64_of_lt (by omega)]
  omega

theorem pagesOff_below (hfit : ret + n * sys.pageBytes ≤ nvmStartAddr) : sys.PagesOff ret n := by
  intro i hi
  have hnvm := nvm_window
  have hmul : (i + 1) * sys.pageBytes ≤ n * sys.pageBytes := Nat.mul_le_mul_right _ hi
  have hpos := sys.pageBytes_pos
  rw [Nat.add_mul] at hmul
  rw [u64_of_lt (by omega)]
  omega

theorem skipNvm_space (hshift : sys.pageShift < 32) (hlo : ¬ inNvm (sys.pageAddr sys.pagePtr))
    (hn : n < 2 ^ 31) (hroom : sys.HasRoom false n) {p : ℕ}
    (h : sys.skipNvm (sys.pageAddr sys.pagePtr) (advance sys.pagePtr n) = .ok (ret, p)) :
    ret < 2 ^ 64 ∧ ¬ inNvm (sys.pageAddr p) ∧ sys.PagesOff ret n := by
  have hnvm := nvm_window
  obtain ⟨hfit, hspan⟩ : _ ∧ _ := hroom
  have hP : sys.pageBytes ≤ 2 ^ 31 := Nat.pow_le_pow_right two_pos (by omega)
  have hnP : n * sys.pageBytes ≤ 2 ^ 31 * 2 ^ 31 := Nat.mul_le_mul hn.le hP
  have hmul : (sys.pagePtr + n) * sys.pageBytes
      = sys.pagePtr * sys.pageBytes + n * sys.pageBytes := Nat.add_mul _ _ _
  have hle := sys.le_mul_pageBytes (sys.pagePtr + n)
  have hret : sys.pageAddr sys.pagePtr = sys.pagePtr * sys.pageBytes := pageAddr_eq (by omega)
  have hnext : sys.pageAddr (sys.pagePtr + n) = (sys.pagePtr + n) * sys.pageBytes :=
    pageAddr_eq hfit
  rw [advance_natCast (by omega)] at h
  by_cases hin : inNvm (sys.pageAddr (sys.pagePtr + n))
  · -- moved past the window
    rw [inNvm_iff, hnext] at hin
    have hpos : 0 < sys.pagePtr + n := by
      rcases Nat.eq_zero_or_pos (sys.pagePtr + n) with h0 | h0
      · rw [h0] at hin
        omega
      · exact h0
    have hbytes : sys.pageBytes ≤ nvmEndAddr := (Nat.le_mul_of_pos_left _ hpos).trans hin.2
    obtain ⟨q, hq, -, hqlo, hqhi⟩ := skipNvm_window sys (sys.pageAddr sys.pagePtr)
      (sys.pagePtr + n) hin.1 (.inl hin.2) hbytes
    rw [hq] at h
    simp only [Except.ok.injEq, Prod.mk.injEq] at h
    obtain ⟨rfl, rfl⟩ := h
    have hq1 : (q + 1) * sys.pageBytes = q * sys.pageBytes + sys.pageBytes := by ring
    refine ⟨by omega, ?_, pagesOff_above hqlo.le (by omega)⟩
    rw [pageAddr_eq (by omega), inNvm_iff]
    omega
  · rw [skipNvm_stop hlo hin] at h
    simp only [Except.ok.injEq, Prod.mk.injEq] at h
    obtain ⟨rfl, rfl⟩ := h
    refine ⟨by omega, hin, ?_⟩
    rw [inNvm_iff, hnext] at hin
    rw [inNvm_iff, hret] at hlo
    rw [hret]
    rcases Nat.lt_or_ge (sys.pagePtr * sys.pageBytes) nvmStartAddr with hbelow | habove
    · exact pagesOff_below (by omega)
    · exact pagesOff_above (by omega) (by omega)

theorem allocPhysPages_space (hshift : sys.pageShift < 32)
    (hlo : ¬ inNvm (sys.pageAddr sys.pagePtr)) (hn : n < 2 ^ 31) (hroom : sys.HasRoom false n)
    (h : sys.allocPhysPages n = .ok (ret, sys')) :
    ret < 2 ^ 64 ∧ (∃ p, sys' = { sys with pagePtr := p } ∧ ¬ inNvm (sys.pageAddr p)) ∧
      sys.PagesOff ret n := by
  have hend : nvmEndAddr = 0x50000000 := rfl
  obtain ⟨⟨r, p⟩, hskip, h⟩ := bind_eq_ok.1 h
  obtain ⟨hr, hp, hoff⟩ := skipNvm_space hshift hlo hn hroom hskip
  by_cases hm5 : sys.m5opRange.contains (sys.pageAddr p) = true
  · -- the m5ops range sends the request past the window
    simp only [hm5, if_true] at h
    split_ifs at h with hsize
    simp only [pure_eq, Except.ok.injEq, Prod.mk.injEq] at h
    obtain ⟨rfl, rfl⟩ := h
    have hP : sys.pageBytes ≤ 2 ^ 31 := Nat.pow_le_pow_right two_pos (by omega)
    have hnP : n * sys.pageBytes ≤ 2 ^ 31 * 2 ^ 31 := Nat.mul_le_mul hn.le hP
    refine ⟨by norm_num, ⟨_, rfl, ?_⟩, pagesOff_above (by rw [hend]; norm_num) (by omega)⟩
    have := m5_pageAddr hshift
    rw [inNvm_iff]
    omega
  · simp only [hm5, Bool.false_eq_true, if_false] at h
    split_ifs at h with hsize
    simp only [pure_eq, Except.ok.injEq, Prod.mk.injEq] at h
    obtain ⟨rfl, rfl⟩ := h
    exact ⟨hr, ⟨p, rfl, hp⟩, hoff⟩

theorem allocNVMPhysPages_space (hn : 1 ≤ n) (hroom : sys.HasRoom true n) :
    (sys.allocNVMPhysPages n).1 < 2 ^ 64 ∧
      (∃ q, (sys.allocNVMPhysPages n).2 = { sys with pageNVMPtr := q }) ∧
      ∀ i < n, nvmStartAddr ≤ u64 ((sys.allocNVMPhysPages n).1 + i * sys.pageBytes) ∧
        u64 ((sys.allocNVMPhysPages n).1 + i * sys.pageBytes) + sys.pageBytes ≤ nvmEndAddr := by
  have hnvm := nvm_window
  have hroom' : nvmStartAddr + (sys.pageNVMPtr + n) * sys.pageBytes ≤ nvmEndAddr := hroom
  obtain ⟨hret, hsys⟩ := allocNVMPhysPages_serves sys (n := n) (by omega) hroom'
  have hmul : (sys.pageNVMPtr + n) * sys.pageBytes
      = sys.pageNVMPtr * sys.pageBytes + n * sys.pageBytes := Nat.add_mul _ _ _
  refine ⟨by omega, ⟨_, hsys⟩, fun i hi => ?_⟩
  have hi' : (i + 1) * sys.pageBytes ≤ n * sys.pageBytes := Nat.mul_le_mul_right _ hi
  have hpos := sys.pageBytes_pos
  rw [Nat.add_mul] at hi'
  rw [hret, u64_of_lt (by omega)]
  omega

theorem allocPagesFor_space {v n : ℕ} (hshift : sys.pageShift < 32)
    (hlo : ¬ inNvm (sys.pageAddr sys.pagePtr)) (hn : 1 ≤ n ∧ n < 2 ^ 31)
    (hroom : sys.HasRoom (inNvm v) n) (h : sys.allocPagesFor v n = .ok (ret, sys')) :
    ret < 2 ^ 64 ∧ sys'.pageShift = sys.pageShift ∧ ¬ inNvm (sys'.pageAddr sys'.pagePtr) ∧
      ∀ i < n, ∀ v', inNvm v' = inNvm v → sys.SameSpace v' (u64 (ret + i * sys.pageBytes)) := by
  unfold allocPagesFor at h
  by_cases hv : inNvm v = true
  · rw [if_pos hv, pure_eq, Except.ok.injEq] at h
    rw [hv] at hroom
    obtain ⟨hret, ⟨q, hq⟩, hpages⟩ := allocNVMPhysPages_space hn.1 hroom
    rw [h] at hret hq hpages
    obtain rfl : sys' = _ := hq
    refine ⟨hret, rfl, hlo, fun i hi v' hv' => ?_⟩
    unfold SameSpace
    rw [if_pos (hv'.trans hv)]
    exact hpages i hi
  · rw [if_neg hv] at h
    rw [Bool.eq_false_iff.2 hv] at hroom
    obtain ⟨hret, ⟨p, rfl, hp⟩, hpages⟩ := allocPhysPages_space hshift hlo hn.2 hroom h
    refine ⟨hret, rfl, hp, fun i hi v' hv' => ?_⟩
    unfold SameSpace
    rw [if_neg (by rw [hv']; exact hv)]
    exact hpages i hi

end System

namespace World

variable {w w' : World}

structure Apart (w : World) : Prop where
  shift_lt : w.system.pageShift < 32
  pagePtr : ¬ inNvm (w.system.pageAddr w.system.pagePtr)
  pageSize : ∀ pid, (w.tables pid).pageSize = w.system.pageBytes
  paddr_lt : ∀ pid v e, (w.tables pid).pTable v = some e → e.paddr < 2 ^ 64
  apart : w.SpacesApart

variable {pid : ℕ}

theorem Apart.setTable (h : w.Apart) {sys : System} {mem : PhysBytes} {t : EmulationPageTable}
    (hshift : sys.pageShift = w.system.pageShift) (hptr : ¬ inNvm (sys.pageAddr sys.pagePtr))
    (hsize : t.pageSize = w.system.pageBytes)
    (ht : ∀ v e, t.pTable v = some e → (w.tables pid).pTable v = some e ∨ e.paddr < 2 ^ 64 ∧
      w.system.SameSpace v e.paddr) : Apart ⟨sys, mem, update w.tables pid t⟩ := by
  have hbytes : sys.pageBytes = w.system.pageBytes := by
    unfold System.pageBytes
    rw [hshift]
  have hentry : ∀ pid' v e, (update w.tables pid t pid').pTable v = some e →
      e.paddr < 2 ^ 64 ∧ w.system.SameSpace v e.paddr := by
    intro pid' v e he
    rcases eq_or_ne pid' pid with rfl | hne
    · rw [update_self] at he
      rcases ht v e he with hold | hnew
      · exact ⟨h.paddr_lt _ _ _ hold, h.apart _ _ _ hold⟩
      · exact hnew
    · rw [update_of_ne hne] at he
      exact ⟨h.paddr_lt _ _ _ he, h.apart _ _ _ he⟩
  refine ⟨by simpa only [hshift] using h.shift_lt, hptr, fun pid' => ?_,
    fun pid' v e he => (hentry pid' v e he).1,
    fun pid' v e he => (hentry pid' v e he).2.congr hshift⟩
  simp only [hbytes]
  rcases eq_or_ne pid' pid with rfl | hne
  · rw [update_self, hsize]
  · rw [update_of_ne hne, h.pageSize]

theorem divCeil_pos {size : ℤ} {b : ℕ} (hb : 0 < b) (hsize : 1 ≤ size) :
    1 ≤ divCeil size b ∧ ∀ i : ℕ, (i : ℤ) * b < size → (i : ℤ) < divCeil size b := by
  have hb' : (0 : ℤ) < b := by omega
  have hceil : divCeil size b = (size + b - 1) / b := by
    unfold divCeil
    exact Int.tdiv_eq_ediv_of_nonneg (by omega)
  rw [hceil]
  constructor
  · rw [Int.le_ediv_iff_mul_le hb']
    omega
  · intro i hi
    rw [Int.lt_iff_add_one_le, Int.le_ediv_iff_mul_le hb', add_mul]
    omega

theorem toInt32_of_lt {n : ℤ} (h0 : 0 ≤ n) (h : n < 2 ^ 31) : toInt32 n = n := by
  unfold toInt32
  omega

theorem allocateMem_apart (h : w.Apart) {vaddr : UInt64} {size : ℤ} {clobber : Bool}
    (hop : w.StaysApart (.allocateMem pid vaddr size clobber))
    (hstep : w.step (.allocateMem pid vaddr size clobber) = .ok ((), w')) : w'.Apart := by
  obtain ⟨⟨sys, t⟩, halloc, hw⟩ := bind_eq_ok.1 hstep
  obtain ⟨⟨paddr, sys₁⟩, hpages, t₁, hmap, halloc⟩ := bind₂_eq_ok.1 halloc
  simp only [pure_eq, Except.ok.injEq, Prod.mk.injEq, true_and] at halloc hw
  obtain ⟨rfl, rfl⟩ := halloc
  subst hw
  obtain ⟨hsize, hn, hside, hroom⟩ := hop
  obtain ⟨hpos, hlast⟩ := divCeil_pos w.system.pageBytes_pos hsize
  obtain ⟨n, hnn⟩ : ∃ n : ℕ, divCeil size w.system.pageBytes = n := ⟨_, (Int.toNat_of_nonneg
    (by omega)).symm⟩
  rw [hnn] at hn hside hroom hpos hlast
  rw [toInt32_of_lt (by omega) (by rw [hnn]; exact hn), hnn] at hpages
  obtain ⟨hp, hshift, hptr, hspace⟩ := System.allocPagesFor_space h.shift_lt h.pagePtr
    (by omega) hroom hpages
  obtain ⟨-, hts, hmapped⟩ := map_ok vaddr.toNat_lt hp hmap
  refine h.setTable hshift hptr (hts.trans (h.pageSize pid)) fun v e he => ?_
  rcases hmapped v with hsame | ⟨j, hj, rfl, hnew⟩
  · exact .inl (hsame ▸ he)
  · rw [h.pageSize] at hj hnew
    obtain rfl : _ = e := Option.some.inj (hnew.symm.trans (h.pageSize pid ▸ he))
    have hjn := hlast j hj
    refine .inr ⟨Nat.mod_lt _ (by norm_num), hspace j (by omega) _ ?_⟩
    rw [h.pageSize]
    exact hside j hjn

theorem replicatePage_apart (h : w.Apart) {old new vaddr newPaddr : ℕ} {allocate : Bool}
    (hv : vaddr < 2 ^ 64)
    (hown : allocate = false → newPaddr < 2 ^ 64 ∧
      ((w.tables new).pageOffset vaddr = 0 → w.system.SameSpace vaddr newPaddr))
    (hroom : allocate = true → w.system.HasRoom (inNvm vaddr) 1)
    (hstep : w.replicatePage old new vaddr newPaddr allocate = .ok w') : w'.Apart := by
  obtain ⟨⟨paddr, sys⟩, hpage, buf, -, hstep⟩ := bind₂_eq_ok.1 hstep
  obtain ⟨t, hmap, mem, -, hstep⟩ := bind₂_eq_ok.1 hstep
  simp only [pure_eq, Except.ok.injEq] at hstep
  subst hstep
  have hspace : paddr < 2 ^ 64 ∧ sys.pageShift = w.system.pageShift ∧
      ¬ inNvm (sys.pageAddr sys.pagePtr) ∧
      ((w.tables new).pageOffset vaddr = 0 → w.system.SameSpace vaddr paddr) := by
    cases allocate with
    | false =>
      simp only [Bool.false_eq_true, if_false, Except.ok.injEq, Prod.mk.injEq] at hpage
      obtain ⟨rfl, rfl⟩ := hpage
      exact ⟨(hown rfl).1, rfl, h.pagePtr, (hown rfl).2⟩
    | true =>
      simp only [if_true] at hpage
      obtain ⟨hp, hshift, hptr, hpages⟩ := System.allocPagesFor_space (n := 1) h.shift_lt h.pagePtr
        (by norm_num) (hroom rfl) hpage
      refine ⟨hp, hshift, hptr, fun _ => ?_⟩
      have := hpages 0 (by norm_num) vaddr rfl
      rwa [Nat.zero_mul, Nat.add_zero, u64_of_lt hp] at this
  obtain ⟨hp, hshift, hptr, hside⟩ := hspace
  have hbytes : sys.pageBytes = w.system.pageBytes := by
    unfold System.pageBytes
    rw [hshift]
  obtain ⟨hoff, hts, hmapped⟩ := map_ok hv hp hmap
  refine h.setTable hshift hptr (hts.trans (h.pageSize new)) fun v e he => ?_
  rcases hmapped v with hsame | ⟨j, hj, hx, hnew⟩
  · exact .inl (hsame ▸ he)
  · obtain rfl : j = 0 := by
      rw [h.pageSize, hbytes] at hj
      by_contra hj0
      have : w.system.pageBytes ≤ j * w.system.pageBytes := Nat.le_mul_of_pos_left _ (by omega)
      omega
    obtain rfl : _ = e := Option.some.inj (hnew.symm.trans he)
    rw [Nat.zero_mul, Nat.add_zero, u64_of_lt hv] at hx
    subst hx
    simp only [Nat.zero_mul, Nat.add_zero, u64_of_lt hp]
    exact .inr ⟨hp, hside hoff⟩

theorem step_apart (h : w.Apart) {op : Op} (hop : w.StaysApart op)
    (hstep : w.step op = .ok ((), w')) : w'.Apart := by
  cases op with
  | allocateMem pid vaddr size clobber => exact allocateMem_apart h hop hstep
  | replicatePage old new vaddr =>
    obtain ⟨w₁, hclone, hw⟩ := bind_eq_ok.1 hstep
    simp only [pure_eq, Except.ok.injEq, Prod.mk.injEq, true_and] at hw
    subst hw
    unfold clonePage at hclone
    rcases htr : (w.tables new).translate vaddr.toNat with _ | paddr
    · rw [htr] at hclone
      exact replicatePage_apart h vaddr.toNat_lt (by simp) (fun _ => hop htr) hclone
    · rw [htr] at hclone
      refine replicatePage_apart h vaddr.toNat_lt (fun _ => ?_) (by simp) hclone
      obtain ⟨e, he, rfl⟩ := Option.map_eq_some_iff.1 htr
      refine ⟨Nat.mod_lt _ (by norm_num), fun hoff => ?_⟩
      -- the child's page is aligned, so it is looked up under its own address
      have hlook : (w.tables new).pTable vaddr.toNat = some e := by
        unfold lookup pageAlign at he
        unfold pageOffset at hoff
        rwa [hoff, Nat.sub_zero] at he
      rw [hoff, Nat.zero_add, u64_of_lt (h.paddr_lt _ _ _ hlook)]
      exact h.apart _ _ _ hlook

theorem staysApart_page {v : UInt64} {clobber : Bool} (hroom : w.system.HasRoom (inNvm v.toNat) 1) :
    w.StaysApart (.allocateMem pid v w.system.pageBytes clobber) := by
  have hpos := w.system.pageBytes_pos
  have hone := divCeil_self hpos
  refine ⟨by omega, by rw [hone]; norm_num, fun i hi => ?_, by rw [hone]; exact hroom⟩
  rw [hone] at hi
  obtain rfl : i = 0 := by omega
  rw [Nat.zero_mul, Nat.add_zero, u64_of_lt v.toNat_lt]

theorem fresh_apart {p : SystemParams} {sys : System} {mem : PhysBytes} (hshift : p.pageShift < 32)
    (hnew : System.new p = .ok sys) : (fresh sys mem).Apart := by
  obtain ⟨pm, -, h⟩ := bind_eq_ok.1 hnew
  simp only [pure_eq, Except.ok.injEq] at h
  subst h
  refine ⟨hshift, ?_, fun _ => rfl, fun _ _ _ he => ?_, fun _ _ _ he => ?_⟩
  · simp [fresh, System.pageAddr, u64, inNvm, nvmStartAddr]
  · cases he
  · cases he

end World

/-- In a run of page requests from a fresh system, each of which stays apart, every virtual page is
mapped to a physical page of its memory space. -/
theorem spaces_apart {p : SystemParams} {sys : System} {mem : PhysBytes} {ops : List World.Op}
    {rs : List Unit} {w : World} (hshift : p.pageShift < 32) (hnew : System.new p = .ok sys)
    (hops : Run.Along World.step World.StaysApart (.fresh sys mem) ops)
    (hrun : Run.run World.step (.fresh sys mem) ops = .ok (rs, w)) : w.SpacesApart :=
  (Run.run_inv (fun _ _ _ _ h hop hstep => World.step_apart h hop hstep)
    (World.fresh_apart hshift hnew) hops hrun).apart

theorem sysAt_hasRoom_phys {pm : PhysicalMemory} {p q : ℕ}
    (hfit : (p + 1) * 4096 < 0x30000000) : (sysAt pm p q).HasRoom false 1 := by
  refine ⟨hfit.trans (by norm_num), fun h => ?_⟩
  have : nvmEndAddr < (p + 1) * 4096 := h.2
  simp only [nvmEndAddr] at this
  omega

/-- A process gets a page of each space, and a child a copy of one. -/
theorem spaces_apart_wide : ∃ sys rs w, System.new wideParams = .ok sys ∧
    Run.run World.step (.fresh sys fun _ => 0)
      [.allocateMem 0 0x1000 0x1000 false, .allocateMem 0 0x30000000 0x1000 false,
        .replicatePage 0 1 0x1000] = .ok (rs, w) ∧ w.SpacesApart := by
  obtain ⟨pm, hnew⟩ := new_wideParams
  set mem : PhysBytes := fun _ => 0
  set w₀ : World := .fresh (sysAt (wide pm) 0 0) mem
  set t₁ := (new 0x1000).set 0x1000 ⟨0, 0⟩
  set w₁ : World := ⟨sysAt (wide pm) 1 0, mem, update w₀.tables 0 t₁⟩
  set t₂ := t₁.set 0x30000000 ⟨0x30000000, 0⟩
  set w₂ : World := ⟨sysAt (wide pm) 1 1, mem, update w₁.tables 0 t₂⟩
  have h₁ : w₀.step (.allocateMem 0 0x1000 0x1000 false) = .ok ((), w₁) := by
    cbv
  have h₂ : w₁.step (.allocateMem 0 0x30000000 0x1000 false) = .ok ((), w₂) := by
    cbv
  have hpage : (sysAt (wide pm) 1 1).allocPagesFor 0x1000 1 =
      .ok (0x1000, sysAt (wide pm) 2 1) := by
    cbv
  have h₃ : w₂.step (.replicatePage 0 1 0x1000) = .ok ((), _) :=
    bind_eq_ok.2 ⟨_, World.replicatePage_eq (v := 0x1000) (e := ⟨0, 0⟩) hpage rfl rfl
      (show 0x1000 % 2 ^ 12 = 0 by decide) rfl, rfl⟩
  have hrun := Run.run_cons h₁ (Run.run_cons h₂ (Run.run_cons h₃ (Run.run_nil _)))
  refine ⟨_, _, _, hnew, hrun, spaces_apart (show 12 < 32 by decide) hnew ?_ hrun⟩
  rw [Run.along_cons h₁, Run.along_cons h₂, Run.along_cons h₃]
  exact ⟨World.staysApart_page (sysAt_hasRoom_phys (by decide)),
    World.staysApart_page (show 0x30000000 + (0 + 1) * 4096 ≤ 0x50000000 by decide),
    fun _ => sysAt_hasRoom_phys (by decide), trivial⟩

/-- A region of two pages that starts below the window ends in it: its second page is a page of the
window backed by volatile memory. -/
theorem spaces_mixed : ∃ sys rs w, System.new wideParams = .ok sys ∧
    Run.run World.step (.fresh sys fun _ => 0) [.allocateMem 0 0x2ffff000 0x2000 false]
      = .ok (rs, w) ∧ ¬ w.SpacesApart := by
  obtain ⟨pm, hnew⟩ := new_wideParams
  have hstep : World.step (.fresh (sysAt (wide pm) 0 0) fun _ => 0)
      (.allocateMem 0 0x2ffff000 0x2000 false) = .ok ((), ⟨sysAt (wide pm) 2 0, fun _ => 0,
        update (fun _ => .new 0x1000) 0 (((new 0x1000).set 0x2ffff000
          ⟨0, 0⟩).set 0x30000000 ⟨0x1000, 0⟩)⟩) := by
    cbv
  refine ⟨_, _, _, hnew, Run.run_cons hstep (Run.run_nil _), fun h => ?_⟩
  have hpage := h 0 0x30000000 ⟨0x1000, 0⟩ rfl
  exact absurd hpage.1 (show ¬ 0x30000000 ≤ 0x1000 by decide)

end Gem5Nvm
