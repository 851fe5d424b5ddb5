import Gem5Nvm.AllocRun

/-!
# The physical allocators hand out disjoint blocks

The loop that steps over the NVM window moves up one page at a time, so it ends on the first page
past the window, with the next page reserved (`skipNvm_window`).  A volatile request the system
`Serves` therefore lies above the pages handed out before and off the window, and an NVM request
above the NVM pages handed out before and inside it.
-/

namespace Gem5Nvm

theorem nvm_window : nvmStartAddr = 0x30000000 ∧ nvmEndAddr = 0x50000000 := ⟨rfl, rfl⟩

namespace System

variable {sys : System}

theorem pageAddr_eq {ptr : ℕ} (h : ptr * sys.pageBytes < 2 ^ 64) :
    sys.pageAddr ptr = ptr * sys.pageBytes := by
  unfold pageAddr u64
  rw [Nat.shiftLeft_eq]
  exact Nat.mod_eq_of_lt h

theorem pageBytes_pos (sys : System) : 0 < sys.pageBytes := Nat.two_pow_pos _

theorem le_mul_pageBytes (sys : System) (n : ℕ) : n ≤ n * sys.pageBytes :=
  Nat.le_mul_of_pos_right n sys.pageBytes_pos

theorem inNvm_iff {a : ℕ} : inNvm a = true ↔ nvmStartAddr ≤ a ∧ a ≤ nvmEndAddr := by
  simp [inNvm]

theorem advance_natCast {p n : ℕ} (h : p + n < 2 ^ 64) : advance p (n : ℤ) = p + n := by
  unfold advance
  omega

theorem skipNvm_stop {ret ptr : ℕ} (hr : ¬ inNvm ret) (hn : ¬ inNvm (sys.pageAddr ptr)) :
    sys.skipNvm ret ptr = .ok (ret, ptr) :=
  Loop.whileLoop_stop (by decide) (by simp [hr, hn])

/-- What a round of the loop leaves: a page at or past the start of the window, and the next. -/
def SkipPast (sys : System) (ptr : ℕ) (s : ℕ × ℕ) : Prop :=
  ∃ q, s = (q * sys.pageBytes, q + 1) ∧ ptr ≤ q ∧ nvmStartAddr ≤ q * sys.pageBytes ∧
    q * sys.pageBytes ≤ nvmEndAddr + sys.pageBytes

theorem skip_round (q : ℕ) {ret ptr : ℕ} (hbytes : sys.pageBytes ≤ nvmEndAddr)
    (hlo : nvmStartAddr ≤ q * sys.pageBytes) (hhi : q * sys.pageBytes ≤ nvmEndAddr + sys.pageBytes)
    (hle : ptr ≤ q) :
    ∃ s, (Except.ok (sys.pageAddr q, u64 (q + 1)) : Sim (ℕ × ℕ)) = .ok s ∧
      (s = (ret, ptr) ∨ sys.SkipPast ptr s) ∧ nvmEndAddr + 3 - s.2 < nvmEndAddr + 3 - q := by
  have hnvm := nvm_window
  have hq : q ≤ nvmEndAddr + 1 := by
    by_contra hgt
    have h1 : (nvmEndAddr + 2) * sys.pageBytes ≤ q * sys.pageBytes :=
      Nat.mul_le_mul_right _ (by omega)
    have h2 : nvmEndAddr ≤ nvmEndAddr * sys.pageBytes := sys.le_mul_pageBytes _
    have h3 := sys.pageBytes_pos
    rw [Nat.add_mul] at h1
    omega
  have hu : u64 (q + 1) = q + 1 := Nat.mod_eq_of_lt (by omega)
  rw [pageAddr_eq (by omega), hu]
  exact ⟨_, rfl, .inr ⟨q, rfl, hle, hlo, hhi⟩, by simp only; omega⟩

theorem skipNvm_window (sys : System) (ret ptr : ℕ) (hlo : nvmStartAddr ≤ ptr * sys.pageBytes)
    (hhi : ptr * sys.pageBytes ≤ nvmEndAddr ∨ inNvm ret ∧ ptr * sys.pageBytes = ret + sys.pageBytes)
    (hbytes : sys.pageBytes ≤ nvmEndAddr) :
    ∃ q, sys.skipNvm ret ptr = .ok (q * sys.pageBytes, q + 1) ∧ ptr ≤ q ∧
      nvmEndAddr < q * sys.pageBytes ∧ q * sys.pageBytes ≤ nvmEndAddr + sys.pageBytes := by
  have hnvm := nvm_window
  have hloop : ∃ s, sys.skipNvm ret ptr = .ok s ∧ (s = (ret, ptr) ∨ sys.SkipPast ptr s) ∧
      (inNvm (sys.pageAddr s.2) || inNvm s.1) = false := by
    unfold skipNvm whileSim
    refine Loop.whileLoop_total (I := fun s => s = (ret, ptr) ∨ sys.SkipPast ptr s)
      (V := fun s => nvmEndAddr + 3 - s.2) ?_ maxRounds (.inl rfl) (by simp only [maxRounds]; omega)
    rintro s (rfl | hs) hc
    · exact skip_round ptr hbytes hlo (by simp only [inNvm_iff] at hhi; omega) le_rfl
    · obtain ⟨q, rfl, hle, hq1, hq2⟩ := hs
      have hq1' : (q + 1) * sys.pageBytes = q * sys.pageBytes + sys.pageBytes := by ring
      have hq : sys.pageAddr (q + 1) = (q + 1) * sys.pageBytes := pageAddr_eq (by omega)
      simp only [Bool.or_eq_true, inNvm_iff, hq] at hc
      exact skip_round (q + 1) hbytes (by omega) (by omega) (by omega)
  obtain ⟨s, hskip, hI, hstop⟩ := hloop
  simp only [Bool.or_eq_false_iff] at hstop
  rcases hI with rfl | ⟨q, rfl, hle, hq1, hq2⟩
  · -- the loop runs at least once
    exfalso
    rcases hhi with h | ⟨h, -⟩
    · have hin : inNvm (sys.pageAddr ptr) = true :=
        inNvm_iff.2 (by rw [pageAddr_eq (by omega)]; exact ⟨hlo, h⟩)
      exact absurd hstop.1 (by simp [hin])
    · exact absurd hstop.2 (by simp [h])
  · refine ⟨q, hskip, hle, ?_, hq2⟩
    have := hstop.2
    simp only [inNvm, decide_eq_false_iff_not] at this
    omega

theorem m5_pageAddr (hlt : sys.pageShift < 32) :
    2 ^ 31 ≤ sys.pageAddr (0xffffffff >>> sys.pageShift) := by
  have hdiv : 0xffffffff / 2 ^ sys.pageShift * 2 ^ sys.pageShift ≤ 0xffffffff :=
    Nat.div_mul_le_self _ _
  have hpow : 2 ^ (31 - sys.pageShift) * 2 ^ sys.pageShift = 2 ^ 31 := by
    rw [← pow_add]
    congr 1
    omega
  have hle : 2 ^ (31 - sys.pageShift) ≤ 0xffffffff / 2 ^ sys.pageShift := by
    rw [Nat.le_div_iff_mul_le (Nat.two_pow_pos _), hpow]
    norm_num
  have hmul := Nat.mul_le_mul_right (2 ^ sys.pageShift) hle
  rw [pageAddr_eq] <;> rw [Nat.shiftRight_eq_div_pow] <;> unfold pageBytes <;> omega

variable {n : ℤ}

theorem allocPhysPages_of_skip {r p : ℕ}
    (hskip : sys.skipNvm (sys.pageAddr sys.pagePtr) (advance sys.pagePtr n) = .ok (r, p))
    (hm5 : sys.m5opRange.contains (sys.pageAddr p) = false)
    (hsize : sys.pageAddr p ≤ sys.physmem.totalSize) :
    sys.allocPhysPages n = .ok (r, { sys with pagePtr := p }) := by
  simp [allocPhysPages, hskip, hm5, Nat.not_lt.2 hsize]

variable {sys' : System}

/-- What a volatile request the system serves returns: pages of its own, above the pointer before
the call, below the pointer after it, and off the window. -/
theorem allocPhysPages_serves {ret : ℕ} (hn : 1 ≤ n) (hm5 : sys.m5opRange = .contiguous 1 0)
    (hs : sys.Serves (.phys n)) (h : sys.allocPhysPages n = .ok (ret, sys')) :
    (∃ p, sys' = { sys with pagePtr := p } ∧ ret + n.toNat * sys.pageBytes ≤ p * sys.pageBytes) ∧
      sys.pagePtr * sys.pageBytes ≤ ret ∧
      (ret + n.toNat * sys.pageBytes ≤ nvmStartAddr ∨ nvmEndAddr < ret) := by
  have hnvm := nvm_window
  obtain ⟨k, rfl⟩ : ∃ k : ℕ, n = k := ⟨n.toNat, by omega⟩
  obtain ⟨hfit, hcase⟩ := hs
  simp only [Int.toNat_natCast] at hfit hcase ⊢
  set P := sys.pageBytes with hP
  have hmul : (sys.pagePtr + k) * P = sys.pagePtr * P + k * P := Nat.add_mul _ _ _
  have hk : P ≤ k * P := Nat.le_mul_of_pos_left P (by omega)
  have hpos : 0 < P := sys.pageBytes_pos
  have hle := sys.le_mul_pageBytes (sys.pagePtr + k)
  rw [← hP] at hle
  have hret : sys.pageAddr sys.pagePtr = sys.pagePtr * P := pageAddr_eq (by rw [← hP]; omega)
  have hnext : sys.pageAddr (sys.pagePtr + k) = (sys.pagePtr + k) * P := pageAddr_eq hfit
  have hadv : advance sys.pagePtr (k : ℤ) = sys.pagePtr + k := advance_natCast (by omega)
  simp only [allocPhysPages, hret, hadv] at h
  obtain ⟨⟨r, p⟩, hskip, h⟩ := Sim.bind_eq_ok.1 h
  have hm : sys.m5opRange.contains (sys.pageAddr p) = false := by
    simp [hm5, AddrRange.contains, AddrRange.contiguous]
  simp only [hm, Bool.false_eq_true, if_false] at h
  split_ifs at h
  simp only [Sim.pure_eq, Except.ok.injEq, Prod.mk.injEq] at h
  obtain ⟨rfl, rfl⟩ := h
  by_cases hin : inNvm (sys.pagePtr * P) ∨ inNvm ((sys.pagePtr + k) * P)
  · -- only a single page comes to the window
    simp only [inNvm_iff] at hin
    have hPE : P ≤ nvmEndAddr := by
      rcases hin with hin | hin
      · have h0 : 0 < sys.pagePtr := by
          rcases Nat.eq_zero_or_pos sys.pagePtr with h0 | h0
          · rw [h0] at hin
            omega
          · exact h0
        have := Nat.le_mul_of_pos_left P h0
        omega
      · omega
    have hk1 : k = 1 := by omega
    subst hk1
    obtain ⟨q, hq, hle', hlt, -⟩ := skipNvm_window sys (sys.pagePtr * P)
      (sys.pagePtr + 1) (by rw [← hP]; omega)
      (by rw [← hP, inNvm_iff]; omega) hPE
    rw [hq] at hskip
    simp only [Except.ok.injEq, Prod.mk.injEq] at hskip
    obtain ⟨rfl, rfl⟩ := hskip
    rw [← hP] at hlt ⊢
    have hqP : (sys.pagePtr + 1) * P ≤ q * P := Nat.mul_le_mul_right _ hle'
    exact ⟨⟨q + 1, rfl, by rw [Nat.add_mul]⟩, by omega, .inr hlt⟩
  · push Not at hin
    rw [skipNvm_stop (by simpa using hin.1) (by rw [hnext]; simpa using hin.2)] at hskip
    simp only [Except.ok.injEq, Prod.mk.injEq] at hskip
    obtain ⟨rfl, rfl⟩ := hskip
    refine ⟨⟨_, rfl, by omega⟩, le_rfl, ?_⟩
    simp only [ne_eq, inNvm_iff] at hin
    omega

theorem allocNVMPhysPages_serves (sys : System) (hn : 1 ≤ n) (hs : sys.Serves (.nvm n)) :
    (sys.allocNVMPhysPages n).1 = nvmStartAddr + sys.pageNVMPtr * sys.pageBytes ∧
      (sys.allocNVMPhysPages n).2 = { sys with pageNVMPtr := sys.pageNVMPtr + n.toNat } := by
  have hnvm := nvm_window
  obtain ⟨k, rfl⟩ : ∃ k : ℕ, n = k := ⟨n.toNat, by omega⟩
  simp only [Serves, Int.toNat_natCast] at hs ⊢
  have hmul : (sys.pageNVMPtr + k) * sys.pageBytes
      = sys.pageNVMPtr * sys.pageBytes + k * sys.pageBytes := Nat.add_mul _ _ _
  have hle := sys.le_mul_pageBytes (sys.pageNVMPtr + k)
  have hret : sys.pageAddr sys.pageNVMPtr = sys.pageNVMPtr * sys.pageBytes :=
    pageAddr_eq (by omega)
  refine ⟨?_, ?_⟩
  · simp only [allocNVMPhysPages, hret, u64]
    omega
  · simp only [allocNVMPhysPages, advance_natCast (p := sys.pageNVMPtr) (n := k) (by omega)]

/-- A block handed out, below the pointer of its allocator and on its side of the window. -/
def Placed (sys : System) (b : Block) : Prop :=
  (b.addr + b.length ≤ sys.pagePtr * sys.pageBytes ∧
      (b.addr + b.length ≤ nvmStartAddr ∨ nvmEndAddr < b.addr)) ∨
    (nvmStartAddr ≤ b.addr ∧ b.addr + b.length ≤ nvmEndAddr ∧
      b.addr + b.length ≤ nvmStartAddr + sys.pageNVMPtr * sys.pageBytes)

/-- What a run of served requests keeps of the blocks handed out so far. -/
structure AllocInv (blocks : List Block) (sys : System) : Prop where
  m5op : sys.m5opRange = .contiguous 1 0
  placed : ∀ b ∈ blocks, sys.Placed b
  disjoint : blocks.Pairwise fun b c => Disjoint b.bytes c.bytes

theorem disjoint_of_le {b c : Block} (h : b.addr + b.length ≤ c.addr) :
    Disjoint b.bytes c.bytes := by
  rw [Block.bytes, Block.bytes, Set.Ico_disjoint_Ico]
  exact (min_le_left _ _).trans (h.trans (le_max_right _ _))

variable {blocks : List Block}

theorem AllocInv.snoc {b : Block} (hI : AllocInv blocks sys) (hm5 : sys'.m5opRange = sys.m5opRange)
    (hkeep : ∀ c ∈ blocks, sys'.Placed c) (hb : sys'.Placed b)
    (hd : ∀ c ∈ blocks, Disjoint c.bytes b.bytes) : AllocInv (blocks ++ [b]) sys' := by
  refine ⟨hm5.trans hI.m5op, fun c hc => ?_, ?_⟩
  · rcases List.mem_append.1 hc with hc | hc
    · exact hkeep c hc
    · rw [List.mem_singleton.1 hc]
      exact hb
  · rw [List.pairwise_append]
    exact ⟨hI.disjoint, List.pairwise_singleton _ _, fun c hc d hd' => by
      rw [List.mem_singleton.1 hd']
      exact hd c hc⟩

theorem allocStep_inv {op : AllocOp} {b : Block} (hI : AllocInv blocks sys)
    (hop : 1 ≤ op.npages ∧ sys.Serves op) (h : sys.allocStep op = .ok (b, sys')) :
    AllocInv (blocks ++ [b]) sys' := by
  have hnvm := nvm_window
  obtain ⟨hn, hs⟩ := hop
  cases op with
  | phys n =>
    change 1 ≤ n at hn
    obtain ⟨⟨ret, s'⟩, ha, h⟩ := Sim.bind_eq_ok.1 h
    simp only [Sim.pure_eq, Except.ok.injEq, Prod.mk.injEq] at h
    obtain ⟨rfl, rfl⟩ := h
    obtain ⟨⟨p, rfl, hp⟩, hlo, hside⟩ := allocPhysPages_serves hn hI.m5op hs ha
    have hbytes : ({ sys with pagePtr := p } : System).pageBytes = sys.pageBytes := rfl
    refine hI.snoc rfl (fun c hc => ?_) (.inl ⟨hp, hside⟩) fun c hc => ?_
    · rcases hI.placed c hc with ⟨h1, h2⟩ | h1
      · exact .inl ⟨by rw [hbytes]; simp only; omega, h2⟩
      · exact .inr h1
    · rcases hI.placed c hc with ⟨h1, h2⟩ | ⟨h1, h2, -⟩
      · exact disjoint_of_le (by simp only [block]; omega)
      · rcases hside with hside | hside
        · exact (disjoint_of_le (by simp only [block]; omega)).symm
        · exact disjoint_of_le (by simp only [block]; omega)
  | nvm n =>
    change 1 ≤ n at hn
    obtain ⟨hret, hsys⟩ := allocNVMPhysPages_serves sys hn hs
    simp only [allocStep, Except.ok.injEq, Prod.mk.injEq, hret, hsys] at h
    obtain ⟨rfl, rfl⟩ := h
    simp only [Serves] at hs
    have hbytes : ({ sys with pageNVMPtr := sys.pageNVMPtr + n.toNat } : System).pageBytes
      = sys.pageBytes := rfl
    have hmul : (sys.pageNVMPtr + n.toNat) * sys.pageBytes
      = sys.pageNVMPtr * sys.pageBytes + n.toNat * sys.pageBytes := Nat.add_mul _ _ _
    refine hI.snoc rfl (fun c hc => ?_) (.inr ?_) fun c hc => ?_
    · rcases hI.placed c hc with h1 | ⟨h1, h2, h3⟩
      · exact .inl h1
      · exact .inr ⟨h1, h2, by rw [hbytes]; simp only; omega⟩
    · rw [hbytes]
      simp only [block]
      omega
    · rcases hI.placed c hc with ⟨h1, h2 | h2⟩ | ⟨h1, h2, h3⟩
      · exact disjoint_of_le (by simp only [block]; omega)
      · exact (disjoint_of_le (by simp only [block]; omega)).symm
      · exact disjoint_of_le (by simp only [block]; omega)

end System

/-- In a run of requests for at least one page, with the m5ops range disabled, each of which the
allocators serve with pages of its own, no byte is handed out twice. -/
theorem alloc_blocks_disjoint {sys sys' : System} (hm5 : sys.m5opRange = .contiguous 1 0)
    {ops : List AllocOp} {blocks : List Block}
    (hops : Run.Along System.allocStep (fun s op => 1 ≤ op.npages ∧ s.Serves op) sys ops)
    (hrun : Run.run System.allocStep sys ops = .ok (blocks, sys')) :
    blocks.Pairwise fun b c => Disjoint b.bytes c.bytes := by
  have h0 : System.AllocInv [] sys := ⟨hm5, by simp, List.Pairwise.nil⟩
  have := Run.run_inv_answers (I := System.AllocInv)
    (fun rs s o r s' hI hP h => System.allocStep_inv hI hP h) ops [] h0 hops hrun
  simpa using this.disjoint

/-- A system with memory on both sides of the NVM. -/
def wideParams : SystemParams where
  pageShift := 12
  memories := [.over "mem_ctrl" 0 0x30000000, .nvmCtrl,
    .over "high_ctrl" 0x50000000 0x80000000]
  sharedBackstore := ""
  m5opsBase := 0

/-- A system over `pm` with pages of 4 KiB and no m5ops range, its pointers moved to `p` and `q`. -/
def sysAt (pm : PhysicalMemory) (p q : ℕ) : System := ⟨12, pm, .contiguous 1 0, p, q⟩

def wide (pm : PhysicalMemory) : PhysicalMemory := { pm with size := 0x80000000 }

theorem new_wideParams : ∃ pm, System.new wideParams = .ok (sysAt (wide pm) 0 0) := by
  obtain ⟨pm, hsize, hnew⟩ : ∃ pm, pm.size = 0x80000000 ∧
      System.new wideParams = .ok (sysAt pm 0 0) := ⟨_, rfl, rfl⟩
  exact ⟨pm, by rw [hnew, wide, ← hsize]⟩

/-- The allocators serve a few small requests of a fresh system. -/
theorem alloc_blocks_disjoint_wide : ∃ sys blocks sys', System.new wideParams = .ok sys ∧
    Run.run System.allocStep sys [.phys 2, .nvm 3, .phys 1] = .ok (blocks, sys') ∧
    blocks.Pairwise fun b c => Disjoint b.bytes c.bytes := by
  obtain ⟨pm, hnew⟩ := new_wideParams
  have h1 : (sysAt (wide pm) 0 0).allocStep (.phys 2) = .ok (⟨0, 0x2000⟩, sysAt (wide pm) 2 0) := by
    cbv
  have h2 : (sysAt (wide pm) 2 0).allocStep (.nvm 3) =
      .ok (⟨0x30000000, 0x3000⟩, sysAt (wide pm) 2 3) := by
    cbv
  have h3 : (sysAt (wide pm) 2 3).allocStep (.phys 1) =
      .ok (⟨0x2000, 0x1000⟩, sysAt (wide pm) 3 3) := by
    cbv
  have hrun := Run.run_cons h1 (Run.run_cons h2 (Run.run_cons h3 (Run.run_nil _)))
  refine ⟨_, _, _, hnew, hrun, alloc_blocks_disjoint rfl ?_ hrun⟩
  rw [Run.along_cons h1, Run.along_cons h2, Run.along_cons h3]
  refine ⟨⟨show (1 : ℤ) ≤ 2 by decide, show (0 + 2) * 2 ^ 12 < 2 ^ 64 by decide, .inl
      (show (0 + 2) * 2 ^ 12 < 0x30000000 by decide)⟩,
    ⟨show (1 : ℤ) ≤ 3 by decide, show 0x30000000 + (0 + 3) * 2 ^ 12 ≤ 0x50000000 by decide⟩,
    ⟨show (1 : ℤ) ≤ 1 by decide, show (2 + 1) * 2 ^ 12 < 2 ^ 64 by decide, .inl
      (show (2 + 1) * 2 ^ 12 < 0x30000000 by decide)⟩, trivial⟩

/-- A request of four pages that ends inside the window is moved past it with one page reserved,
so the next request gets the second of its pages. -/
theorem alloc_blocks_overlap : ∃ sys blocks sys', System.new wideParams = .ok sys ∧
    Run.run System.allocStep sys [.phys 0x2fffe, .phys 4, .phys 1] = .ok (blocks, sys') ∧
    ¬ blocks.Pairwise fun b c => Disjoint b.bytes c.bytes := by
  obtain ⟨pm, hnew⟩ := new_wideParams
  have h1 : (sysAt (wide pm) 0 0).allocStep (.phys 0x2fffe) =
      .ok (⟨0, 0x2fffe000⟩, sysAt (wide pm) 0x2fffe 0) := by
    cbv
  -- the loop steps over every page of the window
  have h2 : (sysAt (wide pm) 0x2fffe 0).allocStep (.phys 4) =
      .ok (⟨0x50001000, 0x4000⟩, sysAt (wide pm) 0x50002 0) := by
    obtain ⟨q, hq, -, hlo, hhi⟩ := System.skipNvm_window (sysAt (wide pm) 0x2fffe 0)
      0x2fffe000 0x30002 (by simp [System.pageBytes, sysAt, nvmStartAddr])
      (by simp [System.pageBytes, sysAt, nvmEndAddr])
      (by simp [System.pageBytes, sysAt, nvmEndAddr])
    simp only [System.pageBytes, sysAt, nvmEndAddr] at hlo hhi
    obtain rfl : q = 0x50001 := by omega
    exact Sim.bind_eq_ok.2 ⟨_, System.allocPhysPages_of_skip hq rfl (by
      simp [System.pageAddr, sysAt, wide, PhysicalMemory.totalSize, u64, Nat.shiftLeft_eq]), rfl⟩
  have h3 : (sysAt (wide pm) 0x50002 0).allocStep (.phys 1) =
      .ok (⟨0x50002000, 0x1000⟩, sysAt (wide pm) 0x50003 0) := by
    cbv
  refine ⟨_, _, _, hnew, Run.run_cons h1 (Run.run_cons h2 (Run.run_cons h3 (Run.run_nil _))), ?_⟩
  intro h
  have hd := (List.pairwise_cons.1 (List.pairwise_cons.1 h).2).1 _ (List.mem_singleton.2 rfl)
  exact Set.disjoint_left.1 hd (show 0x50002000 ∈ _ by simp [Block.bytes]) (by simp [Block.bytes])

end Gem5Nvm
