import Gem5Nvm.Clone
import Gem5Nvm.Proofs.Process

/-!
# Cloning an address space

A single page from a system that is `Ready` is clear of every frame the allocators have moved past
(`Ready.served`).  So the loop of `clone` never writes to a frame of the child it has filled, nor to
one of the parent that it is not handed itself (`Copied.next`).  It drops the attributes of the
pages, and takes NVM frames without looking whether there are any left.
-/

namespace Gem5Nvm

open MappingFlags (clobber uncacheable)

namespace System

variable {sys : System}

theorem Ready.pageBytes_le (h : sys.Ready) : sys.pageBytes ≤ 2 ^ 28 :=
  Nat.pow_le_pow_right two_pos h.shift_le

theorem Ready.allocPhysPages (h : sys.Ready) :
    sys.allocPhysPages 1 = .error (.fatal "Out of memory, please increase size of physical memory.")
    ∨ ∃ k, sys.allocPhysPages 1 = .ok (k * sys.pageBytes, { sys with pagePtr := k + 1 }) ∧
      sys.pagePtr ≤ k ∧ (k + 1) * sys.pageBytes ≤ sys.physmem.totalSize ∧
      ((k + 1) * sys.pageBytes < nvmStartAddr ∨ nvmEndAddr < k * sys.pageBytes) := by
  have hnvm := nvm_window
  have hP := h.pageBytes_le
  have hoff := h.pagePtr_off
  have hle := h.pagePtr_le
  have hsize := h.size_lt
  have hmul : (sys.pagePtr + 1) * sys.pageBytes = sys.pagePtr * sys.pageBytes + sys.pageBytes := by
    ring
  have hptr := sys.le_mul_pageBytes (sys.pagePtr + 1)
  have hret : sys.pageAddr sys.pagePtr = sys.pagePtr * sys.pageBytes := pageAddr_eq (by omega)
  have hnext : sys.pageAddr (sys.pagePtr + 1) = (sys.pagePtr + 1) * sys.pageBytes :=
    pageAddr_eq (by omega)
  have hadv : advance sys.pagePtr 1 = sys.pagePtr + 1 := advance_natCast (n := 1) (by omega)
  rw [inNvm_iff] at hoff
  have hskip : ∃ k, sys.skipNvm (sys.pageAddr sys.pagePtr) (advance sys.pagePtr 1)
      = .ok (k * sys.pageBytes, k + 1) ∧ sys.pagePtr ≤ k ∧ (k + 1) * sys.pageBytes < 2 ^ 64 ∧
        ((k + 1) * sys.pageBytes < nvmStartAddr ∨ nvmEndAddr < k * sys.pageBytes) := by
    rw [hret, hadv]
    by_cases hin : inNvm ((sys.pagePtr + 1) * sys.pageBytes)
    · have hin' := inNvm_iff.1 hin
      obtain ⟨q, hq, hge, hlo, hhi⟩ := skipNvm_window sys (sys.pagePtr * sys.pageBytes)
        (sys.pagePtr + 1) hin'.1 (.inl hin'.2) (by omega)
      have hq1 : (q + 1) * sys.pageBytes = q * sys.pageBytes + sys.pageBytes := by ring
      exact ⟨q, hq, by omega, by omega, .inr hlo⟩
    · refine ⟨sys.pagePtr, skipNvm_stop ?_ (hnext ▸ hin), le_rfl, by omega, ?_⟩
      · rw [inNvm_iff]
        exact hoff
      · rw [inNvm_iff] at hin
        omega
  obtain ⟨k, hskip, hk, hlt, hside⟩ := hskip
  have hpk : sys.pageAddr (k + 1) = (k + 1) * sys.pageBytes := pageAddr_eq hlt
  by_cases hm5 : sys.m5opRange.contains (sys.pageAddr (k + 1)) = true
  · have hjump := h.m5op _ hm5
    left
    simp [System.allocPhysPages, hskip, hm5, hjump]
  · by_cases hfull : sys.physmem.totalSize < sys.pageAddr (k + 1)
    · left
      simp [System.allocPhysPages, hskip, hm5, hfull]
    · exact .inr ⟨k, allocPhysPages_of_skip hskip (by simpa using hm5) (by omega), hk, by omega,
        hside⟩

variable {a k : ℕ}

theorem Ready.phys (h : sys.Ready) (hk : (k + 1) * sys.pageBytes ≤ sys.physmem.totalSize)
    (hside : (k + 1) * sys.pageBytes < nvmStartAddr ∨ nvmEndAddr < k * sys.pageBytes) :
    Ready { sys with pagePtr := k + 1 } := by
  refine ⟨h.shift_le, ?_, hk, h.size_lt, h.m5op⟩
  have hmul : (k + 1) * sys.pageBytes = k * sys.pageBytes + sys.pageBytes := by ring
  rw [inNvm_iff]
  change ¬ (nvmStartAddr ≤ (k + 1) * sys.pageBytes ∧ (k + 1) * sys.pageBytes ≤ nvmEndAddr)
  omega

theorem Ready.nvm (h : sys.Ready) {q : ℕ} : Ready { sys with pageNVMPtr := q } :=
  ⟨h.shift_le, h.pagePtr_off, h.pagePtr_le, h.size_lt, h.m5op⟩

theorem Ready.allocPagesFor (h : sys.Ready) (v : ℕ) :
    sys.allocPagesFor v 1
      = .error (.fatal "Out of memory, please increase size of physical memory.") ∨
    (inNvm v = false ∧ ∃ k, sys.allocPagesFor v 1
        = .ok (k * sys.pageBytes, { sys with pagePtr := k + 1 }) ∧
      sys.pagePtr ≤ k ∧ (k + 1) * sys.pageBytes ≤ sys.physmem.totalSize ∧
      ((k + 1) * sys.pageBytes < nvmStartAddr ∨ nvmEndAddr < k * sys.pageBytes)) ∨
    (inNvm v = true ∧ sys.allocPagesFor v 1 = .ok (u64 (sys.pageAddr sys.pageNVMPtr + nvmStartAddr),
      { sys with pageNVMPtr := advance sys.pageNVMPtr 1 })) := by
  unfold System.allocPagesFor
  cases hv : inNvm v with
  | true => exact .inr (.inr ⟨rfl, rfl⟩)
  | false =>
    rcases h.allocPhysPages with herr | hok
    · exact .inl herr
    · exact .inr (.inl ⟨rfl, hok⟩)

theorem pageAddr_advance_one : sys.pageAddr (advance sys.pageNVMPtr 1)
    = u64 (sys.pageAddr sys.pageNVMPtr + sys.pageBytes) := by
  have hadv : advance sys.pageNVMPtr 1 = (sys.pageNVMPtr + 1) % 2 ^ 64 := by
    unfold advance
    omega
  unfold pageAddr u64 pageBytes
  rw [hadv, Nat.shiftLeft_eq, Nat.shiftLeft_eq, Nat.mod_mul_mod, Nat.mod_add_mod, Nat.add_mul,
    Nat.one_mul]

/-- Two frames without a byte in common. -/
def Clear (sys : System) (a b : ℕ) : Prop :=
  a + sys.pageBytes ≤ b ∨ b + sys.pageBytes ≤ a

theorem clear_iff_disjoint {b : ℕ} : sys.Clear a b ↔
    Disjoint (Set.Ico a (a + sys.pageBytes)) (Set.Ico b (b + sys.pageBytes)) := by
  have hpos := sys.pageBytes_pos
  rw [Set.Ico_disjoint_Ico, Clear]
  omega

theorem HandedOut.phys (h : sys.HandedOut a) (hk : sys.pagePtr ≤ k)
    (hside : (k + 1) * sys.pageBytes < nvmStartAddr ∨ nvmEndAddr < k * sys.pageBytes) :
    sys.Clear a (k * sys.pageBytes) ∧ HandedOut { sys with pagePtr := k + 1 } a := by
  have hmul : (k + 1) * sys.pageBytes = k * sys.pageBytes + sys.pageBytes := by ring
  have hle : sys.pagePtr * sys.pageBytes ≤ k * sys.pageBytes := Nat.mul_le_mul_right _ hk
  rcases h with ⟨h, hs⟩ | ⟨⟨h1, h2⟩, h3⟩
  · exact ⟨.inl (by omega), .inl ⟨show a + sys.pageBytes ≤ (k + 1) * sys.pageBytes by omega, hs⟩⟩
  · refine ⟨?_, .inr ⟨⟨h1, h2⟩, h3⟩⟩
    unfold Clear
    omega

theorem HandedOut.nvm (h : sys.HandedOut a)
    (hroom : sys.pageAddr sys.pageNVMPtr + sys.pageBytes ≤ nvmEndAddr - nvmStartAddr) :
    sys.Clear a (u64 (sys.pageAddr sys.pageNVMPtr + nvmStartAddr)) ∧
      HandedOut { sys with pageNVMPtr := advance sys.pageNVMPtr 1 } a := by
  have hnvm := nvm_window
  rw [u64_of_lt (by omega)]
  unfold Clear
  rcases h with ⟨h, hs⟩ | ⟨⟨h1, h2⟩, h3⟩
  · exact ⟨by omega, .inl ⟨h, hs⟩⟩
  · refine ⟨by omega, .inr ⟨⟨h1, h2⟩, ?_⟩⟩
    change a + sys.pageBytes ≤ nvmStartAddr + sys.pageAddr (advance sys.pageNVMPtr 1)
    rw [pageAddr_advance_one, u64_of_lt (by omega)]
    omega

/-- A page with room for it: a frame of the space of `v`, clear of those handed out. -/
structure Fresh (sys : System) (v paddr : ℕ) (sys' : System) : Prop where
  space : sys.InWindow paddr ↔ inNvm v = true
  handedOut : sys'.HandedOut paddr
  clear : ∀ a, sys.HandedOut a → sys.Clear a paddr ∧ sys'.HandedOut a

variable {v : ℕ}

theorem fresh_phys (hv : inNvm v = false) (hk : sys.pagePtr ≤ k)
    (hside : (k + 1) * sys.pageBytes < nvmStartAddr ∨ nvmEndAddr < k * sys.pageBytes) :
    sys.Fresh v (k * sys.pageBytes) { sys with pagePtr := k + 1 } := by
  have hmul : (k + 1) * sys.pageBytes = k * sys.pageBytes + sys.pageBytes := by ring
  have hpos := sys.pageBytes_pos
  refine ⟨?_, .inl ⟨hmul.ge, ?_⟩, fun a ha => ha.phys hk hside⟩
  · rw [hv, InWindow]
    simp only [Bool.false_eq_true, iff_false]
    omega
  · change k * sys.pageBytes + sys.pageBytes ≤ nvmStartAddr ∨ nvmEndAddr ≤ k * sys.pageBytes
    omega

theorem fresh_nvm (hv : inNvm v = true)
    (hroom : sys.pageAddr sys.pageNVMPtr + sys.pageBytes ≤ nvmEndAddr - nvmStartAddr) :
    sys.Fresh v (u64 (sys.pageAddr sys.pageNVMPtr + nvmStartAddr))
      { sys with pageNVMPtr := advance sys.pageNVMPtr 1 } := by
  have hnvm := nvm_window
  have hu : u64 (sys.pageAddr sys.pageNVMPtr + nvmStartAddr)
      = sys.pageAddr sys.pageNVMPtr + nvmStartAddr := u64_of_lt (by omega)
  have hin : sys.InWindow (sys.pageAddr sys.pageNVMPtr + nvmStartAddr) := by
    unfold InWindow
    omega
  refine ⟨?_, .inr ?_, fun a ha => ha.nvm hroom⟩
  · rw [hu, hv]
    exact iff_of_true hin rfl
  · rw [hu]
    refine ⟨hin, ?_⟩
    change _ + sys.pageBytes ≤ nvmStartAddr + sys.pageAddr (advance sys.pageNVMPtr 1)
    rw [pageAddr_advance_one, u64_of_lt (by omega)]
    omega

/-- A page for `v`, whether or not there was room for it. -/
structure Served (sys : System) (v paddr : ℕ) (sys' : System) : Prop where
  alloc : sys.allocPagesFor v 1 = .ok (paddr, sys')
  ready : sys'.Ready
  shift : sys'.pageShift = sys.pageShift
  nvmPtr : sys'.pageAddr sys'.pageNVMPtr
    = if inNvm v then u64 (sys.pageAddr sys.pageNVMPtr + sys.pageBytes)
      else sys.pageAddr sys.pageNVMPtr
  nvm : inNvm v = true → paddr = u64 (sys.pageAddr sys.pageNVMPtr + nvmStartAddr)
  fresh : (inNvm v = true →
      sys.pageAddr sys.pageNVMPtr + sys.pageBytes ≤ nvmEndAddr - nvmStartAddr) →
    sys.Fresh v paddr sys'

theorem Ready.served (h : sys.Ready) (v : ℕ) :
    sys.allocPagesFor v 1
      = .error (.fatal "Out of memory, please increase size of physical memory.") ∨
    ∃ paddr sys', sys.Served v paddr sys' := by
  rcases h.allocPagesFor v with herr | ⟨hv, k, hok, hk, hsize, hside⟩ | ⟨hv, hok⟩
  · exact .inl herr
  · exact .inr ⟨_, _, hok, h.phys hsize hside, rfl, by rw [hv]; rfl, by simp [hv],
      fun _ => fresh_phys hv hk hside⟩
  · refine .inr ⟨_, _, hok, h.nvm, rfl, ?_, fun _ => rfl, fun hroom => fresh_nvm hv (hroom hv)⟩
    rw [if_pos hv]
    exact pageAddr_advance_one

end System

namespace World

open EmulationPageTable

variable {w w₁ : World} {old new : ℕ} {l : List (ℕ × Entry)}

/-- A page of the child filled from the frame `src`. -/
def filled (w : World) (new v src paddr : ℕ) (sys : System) : World where
  system := sys
  memory := storeBytes w.memory paddr (frame w.memory src w.system.pageBytes)
  tables := Function.update w.tables new
    ((w.tables new).set v ⟨paddr, clobber⟩)

section ClonePage

variable {v : ℕ} {e : Entry} (hold : (w.tables old).pageSize = w.system.pageBytes)
  (hnew : (w.tables new).pageSize = w.system.pageBytes) (hv : v % w.system.pageBytes = 0)
  (he : (w.tables old).pTable v = some e) (hnone : (w.tables new).pTable v = none)
include hnew hv hnone

theorem clonePage_unmapped : w.clonePage old new v = w.replicatePage old new v 0 true := by
  have hoff : (w.tables new).pageOffset v = 0 := by
    rw [pageOffset, hnew]
    exact hv
  unfold clonePage
  rw [translate_page hoff, hnone]
  rfl

include hold he

variable {sys : System}

theorem clonePage_eq_filled {paddr : ℕ} (hshift : sys.pageShift = w.system.pageShift)
    (halloc : w.system.allocPagesFor v 1 = .ok (paddr, sys)) :
    w.clonePage old new v = .ok (w.filled new v e.paddr paddr sys) := by
  have hbytes : sys.pageBytes = w.system.pageBytes := by
    unfold System.pageBytes
    rw [hshift]
  have hpage : (if true then w.system.allocPagesFor v 1 else .ok (0, w.system))
    = .ok (paddr, sys) := halloc
  rw [clonePage_unmapped hnew hv hnone, filled, ← hbytes]
  rw [← hbytes] at hold hnew hv
  exact replicatePage_eq hpage hold hnew hv he

theorem clonePage_cases (hr : w.system.Ready) :
    w.clonePage old new v
      = .error (.fatal "Out of memory, please increase size of physical memory.") ∨
    ∃ paddr sys, w.clonePage old new v = .ok (w.filled new v e.paddr paddr sys) ∧
      w.system.Served v paddr sys := by
  rcases hr.served v with herr | ⟨paddr, sys, hserved⟩
  · left
    rw [clonePage_unmapped hnew hv hnone]
    unfold replicatePage
    rw [if_pos rfl, herr]
    rfl
  · exact .inr ⟨paddr, sys, clonePage_eq_filled hold hnew hv he hnone hserved.shift
      hserved.alloc, hserved⟩

end ClonePage

/-- The loop of `clone` after the mappings `pre`. -/
structure Cloning (w : World) (old new : ℕ) (pre : List (ℕ × ℕ)) (w₁ : World) : Prop where
  ready : w₁.system.Ready
  shift : w₁.system.pageShift = w.system.pageShift
  parent : w₁.tables old = w.tables old
  childSize : (w₁.tables new).pageSize = w.system.pageBytes
  mapped : ∀ v, ((w₁.tables new).pTable v).isSome ↔ v ∈ pre.map Prod.fst
  flags : ∀ v e, (w₁.tables new).pTable v = some e → e.flags = clobber
  nvmPtr : w₁.system.pageAddr w₁.system.pageNVMPtr
    = u64 (w.system.pageAddr w.system.pageNVMPtr + nvmPages pre * w.system.pageBytes)
  room : (∀ v e, (w₁.tables new).pTable v = some e → inNvm v = true → w.system.InWindow e.paddr) →
    NvmRoom w.system pre
  handed : ∃ frames, (∀ rest, w.system.framesFor (pre.map Prod.fst ++ rest)
      = (w₁.system.framesFor rest).map (frames ++ ·)) ∧
    ∀ f ∈ frames, ∃ v e, (w₁.tables new).pTable v = some e ∧ e.paddr = f

variable {pre : List (ℕ × ℕ)}

theorem Cloning.pageBytes (h : Cloning w old new pre w₁) :
    w₁.system.pageBytes = w.system.pageBytes := by
  unfold System.pageBytes
  rw [h.shift]

theorem nvmPages_snoc (pre : List (ℕ × ℕ)) (m : ℕ × ℕ) :
    nvmPages (pre ++ [m]) = nvmPages pre + if inNvm m.1 then 1 else 0 := by
  unfold nvmPages
  rw [List.countP_append, List.countP_singleton]

theorem Cloning.nvmPtr_eq (h : Cloning w old new pre w₁) (hroom : NvmRoom w.system pre) :
    w₁.system.pageAddr w₁.system.pageNVMPtr
      = w.system.pageAddr w.system.pageNVMPtr + nvmPages pre * w.system.pageBytes := by
  have hnvm := nvm_window
  rw [h.nvmPtr]
  rcases hroom with h0 | hroom
  · rw [h0, Nat.zero_mul, Nat.add_zero]
    exact u64_of_lt (Nat.mod_lt _ (by norm_num))
  · exact u64_of_lt (by omega)

theorem filled_child (v src paddr : ℕ) (sys : System) (x : ℕ) :
    ((w.filled new v src paddr sys).tables new).pTable x
      = if x = v then some ⟨paddr, clobber⟩ else (w.tables new).pTable x := by
  simp [filled, set_apply]

variable {m : ℕ × ℕ}

theorem Cloning.next {src paddr : ℕ} (h : Cloning w old new pre w₁) (hne : old ≠ new)
    (hm : m.1 ∉ pre.map Prod.fst) (hs : w₁.system.Served m.1 paddr sys) :
    Cloning w old new (pre ++ [m]) (w₁.filled new m.1 src paddr sys) := by
  have hnvm := nvm_window
  have hnone : (w₁.tables new).pTable m.1 = none := by
    have := (h.mapped m.1).not.2 hm
    simpa using this
  refine ⟨hs.ready, hs.shift.trans h.shift, ?_, ?_, fun x => ?_, fun x e hx => ?_, ?_,
    fun hin => ?_, ?_⟩
  · simp only [filled, Function.update_of_ne hne, h.parent]
  · simpa [filled] using h.childSize
  · rw [filled_child, List.map_append, List.mem_append, ← h.mapped]
    split_ifs with hx <;> simp [hx]
  · rw [filled_child] at hx
    split_ifs at hx with hxm
    · cases hx
      rfl
    · exact h.flags x e hx
  · change sys.pageAddr sys.pageNVMPtr = _
    rw [hs.nvmPtr, h.nvmPtr, h.pageBytes, nvmPages_snoc]
    split_ifs
    · rw [u64_add, Nat.add_mul, Nat.one_mul, Nat.add_assoc]
    · rw [Nat.add_zero]
  · -- the older pages are in the window, so the pointer is where the pages copied have left it
    have hroom : NvmRoom w.system pre := h.room fun x e hx hxn => by
      refine hin x e ?_ hxn
      rw [filled_child, if_neg, hx]
      rintro rfl
      rw [hnone] at hx
      cases hx
    unfold NvmRoom
    rw [nvmPages_snoc]
    split_ifs with hmn
    · have hpage := hin m.1 ⟨paddr, clobber⟩ (by rw [filled_child, if_pos rfl]) hmn
      rw [hs.nvm hmn, h.nvmPtr_eq hroom] at hpage
      obtain ⟨hlo, hhi⟩ := hpage
      rw [Nat.add_mul, Nat.one_mul]
      have hlt : w₁.system.pageAddr w₁.system.pageNVMPtr < 2 ^ 64 := Nat.mod_lt _ (by norm_num)
      rw [h.nvmPtr_eq hroom] at hlt
      simp only [u64] at hlo hhi
      omega
    · rw [Nat.add_zero]
      exact hroom
  · obtain ⟨frames, hrest, hmem⟩ := h.handed
    refine ⟨frames ++ [paddr], fun rest => ?_, fun f hf => ?_⟩
    · rw [List.map_append, List.append_assoc, hrest]
      simp only [List.map_cons, List.map_nil, List.cons_append, List.nil_append, System.framesFor,
        hs.alloc]
      change Except.map _ (Except.map _ (sys.framesFor rest)) = Except.map _ (sys.framesFor rest)
      cases sys.framesFor rest <;> simp [Except.map]
    · rcases List.mem_append.1 hf with hf | hf
      · obtain ⟨v, e, hv, he⟩ := hmem f hf
        refine ⟨v, e, ?_, he⟩
        rw [filled_child, if_neg, hv]
        rintro rfl
        rw [hnone] at hv
        cases hv
      · exact ⟨m.1, ⟨paddr, clobber⟩, by rw [filled_child, if_pos rfl],
          (List.mem_singleton.1 hf).symm⟩

/-- The frames after the mappings copied so far. -/
structure Copied (w : World) (old new : ℕ) (w₁ : World) : Prop where
  kept : ∀ v e, (w.tables old).pTable v = some e →
    frame w₁.memory e.paddr w.system.pageBytes = frame w.memory e.paddr w.system.pageBytes
  childHandedOut : ∀ v e, (w₁.tables new).pTable v = some e → w₁.system.HandedOut e.paddr
  bytes : ∀ v e e', (w.tables old).pTable v = some e → (w₁.tables new).pTable v = some e' →
    frame w₁.memory e'.paddr w.system.pageBytes = frame w.memory e.paddr w.system.pageBytes
  spaces : ∀ v e', (w₁.tables new).pTable v = some e' →
    (w.system.InWindow e'.paddr ↔ inNvm v = true)
  clear : ∀ v e v' e', (w.tables old).pTable v = some e → (w₁.tables new).pTable v' = some e' →
    w.system.Clear e.paddr e'.paddr

theorem Copied.next {v paddr : ℕ} {e : Entry} (hc : Cloning w old new pre w₁)
    (h : Copied w old new w₁) (he : (w.tables old).pTable v = some e)
    (hs : w₁.system.Fresh v paddr sys)
    (hapart : ∀ x ex, (w.tables old).pTable x = some ex → w.system.Clear ex.paddr paddr) :
    Copied w old new (w₁.filled new v e.paddr paddr sys) := by
  have hP := hc.pageBytes
  have hclear : ∀ a, w₁.system.HandedOut a → w.system.Clear a paddr := by
    intro a ha
    have := (hs.clear a ha).1
    unfold System.Clear at this ⊢
    rwa [hP] at this
  have hframe : ∀ a, w.system.Clear a paddr →
      frame (w₁.filled new v e.paddr paddr sys).memory a w.system.pageBytes
        = frame w₁.memory a w.system.pageBytes := by
    intro a ha
    unfold System.Clear at ha
    exact frame_storeBytes_clear (by rw [frame_length]; omega)
  have hfill : frame (w₁.filled new v e.paddr paddr sys).memory paddr w.system.pageBytes
      = frame w.memory e.paddr w.system.pageBytes := by
    have := frame_storeBytes w₁.memory paddr (frame w₁.memory e.paddr w₁.system.pageBytes)
    rw [frame_length, hP] at this
    rw [filled, hP, this]
    exact h.kept v e he
  refine ⟨fun x ex hx => ?_, fun x ex hx => ?_, fun x ex ex' hx hx' => ?_, fun x ex hx => ?_,
    fun x ex y ey hx hy => ?_⟩
  · rw [hframe _ (hapart x ex hx)]
    exact h.kept x ex hx
  · rw [filled_child] at hx
    split_ifs at hx
    · cases hx
      exact hs.handedOut
    · exact (hs.clear _ (h.childHandedOut x ex hx)).2
  · rw [filled_child] at hx'
    split_ifs at hx' with hxv
    · cases hx'
      subst hxv
      cases he.symm.trans hx
      exact hfill
    · rw [hframe _ (hclear _ (h.childHandedOut x ex' hx'))]
      exact h.bytes x ex ex' hx hx'
  · rw [filled_child] at hx
    split_ifs at hx with hxv
    · cases hx
      subst hxv
      have := hs.space
      unfold System.InWindow at this ⊢
      rwa [hP] at this
    · exact h.spaces x ex hx
  · rw [filled_child] at hy
    split_ifs at hy
    · cases hy
      exact hapart x ex hx
    · exact h.clear x ex y ey hx hy

theorem keys_getMappings : (getMappings l).map Prod.fst = l.map Prod.fst := by
  simp [getMappings, Function.comp_def]

theorem mem_keys {t : EmulationPageTable} (hl : t.Enumerates l) :
    v ∈ (getMappings l).map Prod.fst ↔ (t.pTable v).isSome := by
  rw [keys_getMappings, List.mem_map, Option.isSome_iff_exists]
  constructor
  · rintro ⟨⟨_, e⟩, hmem, rfl⟩
    exact ⟨e, (hl.mem _ _).1 hmem⟩
  · rintro ⟨e, he⟩
    exact ⟨(v, e), (hl.mem _ _).2 he, rfl⟩

variable {rest : List (ℕ × ℕ)}

theorem clone_round (hw : w.Cloneable old new) (hl : (w.tables old).Enumerates l)
    (hsplit : getMappings l = pre ++ m :: rest) (h : Cloning w old new pre w₁) :
    w₁.clonePage old new m.1
      = .error (.fatal "Out of memory, please increase size of physical memory.") ∨
    ∃ e paddr sys, (w.tables old).pTable m.1 = some e ∧
      w₁.clonePage old new m.1 = .ok (w₁.filled new m.1 e.paddr paddr sys) ∧
      w₁.system.Served m.1 paddr sys ∧
      Cloning w old new (pre ++ [m]) (w₁.filled new m.1 e.paddr paddr sys) := by
  have hkeys := (mem_keys hl (v := m.1)).1 (by simp [hsplit])
  obtain ⟨e, he⟩ := Option.isSome_iff_exists.1 hkeys
  have hfresh : m.1 ∉ pre.map Prod.fst := by
    have hnodup := hl.nodup
    rw [← keys_getMappings, hsplit, List.map_append, List.map_cons, List.nodup_append] at hnodup
    exact fun hmem => hnodup.2.2 _ hmem _ List.mem_cons_self rfl
  have hnone : (w₁.tables new).pTable m.1 = none := by
    have := (h.mapped m.1).not.2 hfresh
    simpa using this
  have hP := h.pageBytes
  rcases clonePage_cases (by rw [h.parent, hw.parentSize, hP]) (by rw [h.childSize, hP])
    (by rw [hP]; exact hw.aligned _ _ he) (by rw [h.parent]; exact he) hnone h.ready
    with herr | ⟨paddr, sys, hok, hs⟩
  · exact .inl herr
  · exact .inr ⟨e, paddr, sys, he, hok, hs, h.next hw.ne hfresh hs⟩

theorem Cloneable.cloning (hw : w.Cloneable old new) : Cloning w old new [] w := by
  refine ⟨hw.ready, rfl, rfl, hw.childSize, fun v => ?_, fun v e he => ?_, ?_, fun _ => .inl rfl,
    [], fun rest => ?_, by simp⟩
  · simp [hw.empty]
  · rw [hw.empty] at he
    cases he
  · rw [nvmPages, List.countP_nil, Nat.zero_mul, Nat.add_zero]
    exact (u64_of_lt (Nat.mod_lt _ (by norm_num))).symm
  · cases hf : w.system.framesFor rest <;> simp [hf, Except.map]

theorem Cloneable.copied (hw : w.Cloneable old new) : Copied w old new w := by
  refine ⟨fun _ _ _ => rfl, ?_, ?_, ?_, ?_⟩ <;> simp [hw.empty]

theorem Cloning.page_room {mappings rest : List (ℕ × ℕ)} (h : Cloning w old new pre w₁)
    (hsplit : mappings = pre ++ m :: rest) (hroom : NvmRoom w.system mappings)
    (hm : inNvm m.1 = true) :
    w₁.system.pageAddr w₁.system.pageNVMPtr + w₁.system.pageBytes ≤ nvmEndAddr - nvmStartAddr := by
  have hcount : nvmPages pre + 1 ≤ nvmPages mappings := by
    unfold nvmPages
    rw [hsplit, List.countP_append, List.countP_cons, if_pos hm]
    omega
  have hmul : (nvmPages pre + 1) * w.system.pageBytes ≤ nvmPages mappings * w.system.pageBytes :=
    Nat.mul_le_mul_right _ hcount
  rw [Nat.add_mul, Nat.one_mul] at hmul
  rcases hroom with h0 | hroom
  · omega
  · rw [h.nvmPtr_eq (.inr (by omega)), h.pageBytes]
    omega

/-- The frame of the page copied next is among those handed out. -/
theorem Cloning.mem_frames {paddr : ℕ} {all : List ℕ} (h : Cloning w old new pre w₁)
    (hs : w₁.system.Served m.1 paddr sys)
    (hall : w.system.framesFor ((pre ++ m :: rest).map Prod.fst) = .ok all) : paddr ∈ all := by
  obtain ⟨frames, hrest, -⟩ := h.handed
  rw [List.map_append, hrest, List.map_cons, System.framesFor, hs.alloc] at hall
  change Except.map _ (Except.map _ (sys.framesFor (rest.map Prod.fst))) = _ at hall
  cases hf : sys.framesFor (rest.map Prod.fst) with
  | error e => simp [hf, Except.map] at hall
  | ok fs =>
    simp only [hf, Except.map, Except.ok.injEq] at hall
    simp [← hall]

variable {w' : World}

theorem clone_copied (hw : w.Cloneable old new) (hl : (w.tables old).Enumerates l)
    (hroom : NvmRoom w.system (getMappings l)) (hapart : w.FramesApart old (getMappings l))
    (h : w.clone old new (getMappings l) = .ok w') : Copied w old new w' := by
  obtain ⟨all, hall, hdisj⟩ := hapart
  have hstep : ∀ pre m rest w₁ w₂, getMappings l = pre ++ m :: rest →
      Cloning w old new pre w₁ ∧ Copied w old new w₁ → w₁.clonePage old new m.1 = .ok w₂ →
      Cloning w old new (pre ++ [m]) w₂ ∧ Copied w old new w₂ := by
    rintro pre m rest w₁ w₂ hsplit ⟨hc, hcopied⟩ hok
    rcases clone_round hw hl hsplit hc with herr | ⟨e, paddr, sys, he, hok', hs, hnext⟩
    · rw [herr] at hok
      cases hok
    · cases hok'.symm.trans hok
      refine ⟨hnext, hcopied.next hc he (hs.fresh (hc.page_room hsplit hroom)) fun x ex hx => ?_⟩
      exact System.clear_iff_disjoint.2 (hdisj _ (hc.mem_frames hs (hsplit ▸ hall)) x ex hx)
  exact (Loop.foldlM_inv (I := fun pre w₁ => Cloning w old new pre w₁ ∧ Copied w old new w₁)
    hstep (getMappings l) [] rfl ⟨hw.cloning, hw.copied⟩ h).2

theorem clone_cloning (hw : w.Cloneable old new) (hl : (w.tables old).Enumerates l)
    (hfatal : ∀ msg, w.clone old new (getMappings l) ≠ .error (.fatal msg)) :
    ∃ w', w.clone old new (getMappings l) = .ok w' ∧ Cloning w old new (getMappings l) w' := by
  have hstep : ∀ pre m rest w₁, getMappings l = pre ++ m :: rest → Cloning w old new pre w₁ →
      w₁.clonePage old new m.1
        = .error (.fatal "Out of memory, please increase size of physical memory.") ∨
      ∃ w₂, w₁.clonePage old new m.1 = .ok w₂ ∧ Cloning w old new (pre ++ [m]) w₂ := by
    intro pre m rest w₁ hsplit hc
    rcases clone_round hw hl hsplit hc with herr | ⟨e, paddr, sys, -, hok, -, hnext⟩
    · exact .inl herr
    · exact .inr ⟨_, hok, hnext⟩
  rcases Loop.foldlM_or hstep (getMappings l) [] rfl hw.cloning with herr | hok
  · exact absurd herr (hfatal _)
  · exact hok

theorem Cloning.plainFlags (hc : Cloning w old new (getMappings l) w') (h : w.Copy old new w') :
    PlainFlags (w.tables old) := by
  intro v e he
  obtain ⟨e', he'⟩ := Option.isSome_iff_exists.1 ((h.pages v).2 (by simp [he]))
  obtain ⟨h1, h2⟩ := h.attributes v e e' he he'
  rw [hc.flags v e' he'] at h1 h2
  exact ⟨h1.symm, h2.symm⟩

theorem Cloning.framesApart (hc : Cloning w old new (getMappings l) w') (h : w.Copy old new w') :
    w.FramesApart old (getMappings l) := by
  obtain ⟨frames, hrest, hmem⟩ := hc.handed
  have hall := hrest []
  rw [List.append_nil] at hall
  refine ⟨frames ++ [], hall, fun f hf v e he => ?_⟩
  rw [List.append_nil] at hf
  obtain ⟨v', e', he', rfl⟩ := hmem f hf
  exact h.isolated v e v' e' he he'

/-- The mappings of a process with a page of each memory space. -/
def twoPages (flags : ℕ) : List (ℕ × Entry) :=
  [(0x1000, ⟨0, flags⟩), (0x30000000, ⟨0x30000000, 0⟩)]

/-- A system where process 0 has these pages and process 1 none. -/
def twoPagesWorld (pm : PhysicalMemory) (flags : ℕ) : World where
  system := sysAt pm 1 1
  memory := fun _ => 0
  tables pid :=
    if pid = 0 then
      ((EmulationPageTable.new 0x1000).set 0x1000 ⟨0, flags⟩).set 0x30000000 ⟨0x30000000, 0⟩
    else .new 0x1000

section TwoPages

variable {pm : PhysicalMemory} {flags : ℕ}

theorem twoPages_lookup (v : ℕ) : ((twoPagesWorld pm flags).tables 0).pTable v
    = if v = 0x30000000 then some ⟨0x30000000, 0⟩
      else if v = 0x1000 then some ⟨0, flags⟩ else none := by
  simp only [twoPagesWorld, if_true, set_apply]
  rfl

theorem twoPages_enumerates : ((twoPagesWorld pm flags).tables 0).Enumerates (twoPages flags) := by
  refine ⟨by simp [twoPages], fun v e => ?_⟩
  rw [twoPages_lookup]
  split_ifs with h1 h2
  · simp [twoPages, h1, eq_comm]
  · simp [twoPages, h2, eq_comm]
  · simp [twoPages, h1, h2]

theorem twoPages_cloneable : (twoPagesWorld (wide pm) flags).Cloneable 0 1 := by
  have hP : (twoPagesWorld (wide pm) flags).system.pageBytes = 0x1000 := rfl
  refine ⟨⟨show 12 ≤ 28 by decide, show ¬ inNvm (1 * 2 ^ 12) by decide,
    show 1 * 2 ^ 12 ≤ 0x80000000 by decide, show 0x80000000 + 2 ^ 12 < 2 ^ 64 by decide, ?_⟩,
    by decide, rfl, rfl, fun v => rfl, fun v e he => ?_⟩
  · intro a ha
    simp [twoPagesWorld, sysAt, AddrRange.contains, AddrRange.contiguous] at ha
  · rw [twoPages_lookup] at he
    rw [hP]
    split_ifs at he with h1 h2
    · rw [h1]
    · rw [h2]

theorem twoPages_alloc (pm : PhysicalMemory) :
    (sysAt (wide pm) 1 1).allocPagesFor 0x1000 1 = .ok (0x1000, sysAt (wide pm) 2 1) ∧
      (sysAt (wide pm) 2 1).allocPagesFor 0x30000000 1
        = .ok (0x30001000, sysAt (wide pm) 2 2) := by
  constructor <;> cbv

theorem twoPages_apart :
    (twoPagesWorld (wide pm) flags).FramesApart 0 (getMappings (twoPages flags)) := by
  obtain ⟨a₁, a₂⟩ := twoPages_alloc pm
  refine ⟨[0x1000, 0x30001000], Sim.bind_eq_ok.2 ⟨_, a₁, Sim.bind_eq_ok.2 ⟨[0x30001000],
    Sim.bind_eq_ok.2 ⟨_, a₂, rfl⟩, rfl⟩⟩, fun f hf v e he => ?_⟩
  rw [twoPages_lookup] at he
  refine System.clear_iff_disjoint.1 ?_
  change e.paddr + 0x1000 ≤ f ∨ f + 0x1000 ≤ e.paddr
  split_ifs at he <;> cases he <;> simp at hf ⊢ <;> omega

theorem twoPages_clone (msg : String) :
    (twoPagesWorld (wide pm) flags).clone 0 1 (getMappings (twoPages flags)) ≠
      .error (.fatal msg) := by
  obtain ⟨a₁, a₂⟩ := twoPages_alloc pm
  set w₁ := (twoPagesWorld (wide pm) flags).filled 1 0x1000 0 0x1000 (sysAt (wide pm) 2 1) with hw₁
  have hparent : w₁.tables 0 = (twoPagesWorld (wide pm) flags).tables 0 := rfl
  have h₁ : (twoPagesWorld (wide pm) flags).clonePage 0 1 0x1000 = .ok w₁ :=
    clonePage_eq_filled (e := ⟨0, flags⟩) rfl rfl (show 0x1000 % 2 ^ 12 = 0 by decide)
      (by rw [twoPages_lookup]; rfl) rfl rfl a₁
  have h₂ : w₁.clonePage 0 1 0x30000000
      = .ok (w₁.filled 1 0x30000000 0x30000000 0x30001000 (sysAt (wide pm) 2 2)) :=
    clonePage_eq_filled (e := ⟨0x30000000, 0⟩) rfl rfl (show 0x30000000 % 2 ^ 12 = 0 by decide)
      (by rw [hparent, twoPages_lookup]; rfl)
      (by rw [hw₁, filled_child, if_neg (by decide)]; rfl) rfl a₂
  have hclone : (twoPagesWorld (wide pm) flags).clone 0 1 (getMappings (twoPages flags)) = .ok _ :=
    Sim.bind_eq_ok.2 ⟨w₁, h₁, Sim.bind_eq_ok.2 ⟨_, h₂, rfl⟩⟩
  rw [hclone]
  exact fun h => by cases h

end TwoPages

end World

end Gem5Nvm
