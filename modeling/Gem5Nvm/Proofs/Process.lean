import Gem5Nvm.Proofs.Alloc
import Gem5Nvm.Proofs.PageTable
import Gem5Nvm.Process

/-!
# One page at a time

`readBlob` and `writeBlob` of a whole page make one access, and `allocateMem` of a page sets one
entry.
-/

namespace Gem5Nvm

open EmulationPageTable

variable {t : EmulationPageTable} {v : ℕ}

theorem chunks_page {pageBytes fuel : ℕ} (hpos : 0 < pageBytes) (hf : 0 < fuel)
    (hv : v % pageBytes = 0) : chunks pageBytes fuel v pageBytes = [(v, pageBytes)] := by
  obtain ⟨n, rfl⟩ : ∃ n, fuel = n + 1 := ⟨fuel - 1, by omega⟩
  have hrest : ∀ a, chunks pageBytes n a 0 = [] := fun a => by
    cases n <;> simp [chunks]
  simp [chunks, hv, hpos.ne', hrest]

theorem lookup_page (hv : t.pageOffset v = 0) : t.lookup v = t.pTable v := by
  unfold lookup pageAlign
  unfold pageOffset at hv
  rw [hv, Nat.sub_zero]

theorem translate_page (hv : t.pageOffset v = 0) :
    t.translate v = (t.pTable v).map fun e => u64 e.paddr := by
  unfold EmulationPageTable.translate
  rw [lookup_page hv, hv]
  simp

theorem translateFunctional_page (hv : t.pageOffset v = 0) :
    translateFunctional t v = (t.pTable v).map Entry.paddr := by
  unfold translateFunctional
  rw [lookup_page hv, hv]
  simp

@[simp] theorem frame_length (mem : PhysBytes) (paddr size : ℕ) :
    (frame mem paddr size).length = size := by
  simp [frame]

theorem frame_congr {mem mem' : PhysBytes} {paddr size : ℕ}
    (h : ∀ a, paddr ≤ a → a < paddr + size → mem' a = mem a) :
    frame mem' paddr size = frame mem paddr size := by
  refine List.map_congr_left fun i hi => h _ (by omega) ?_
  have := List.mem_range.1 hi
  omega

variable {mem : PhysBytes}

theorem storeBytes_off {paddr a : ℕ} {buf : List UInt8} (h : a < paddr ∨ paddr + buf.length ≤ a) :
    storeBytes mem paddr buf a = mem a := by
  unfold storeBytes
  rw [if_neg (by omega)]

theorem frame_storeBytes (mem : PhysBytes) (paddr : ℕ) (buf : List UInt8) :
    frame (storeBytes mem paddr buf) paddr buf.length = buf := by
  refine List.ext_getElem (by simp) fun i h₁ h₂ => ?_
  simp only [frame, List.getElem_map, List.getElem_range, storeBytes]
  rw [if_pos (by omega), Nat.add_sub_cancel_left, List.getD_eq_getElem _ _ h₂]

variable {buf : List UInt8}

theorem frame_storeBytes_clear {paddr a size : ℕ} (h : a + size ≤ paddr ∨ paddr + buf.length ≤ a) :
    frame (storeBytes mem paddr buf) a size = frame mem a size :=
  frame_congr fun _ _ _ => storeBytes_off (by omega)

variable {e : Entry}

theorem readBlob_page (hpos : 0 < t.pageSize) (hv : t.pageOffset v = 0) (he : t.pTable v = some e) :
    readBlob t mem v t.pageSize = .ok (frame mem e.paddr t.pageSize) := by
  unfold readBlob
  rw [chunks_page hpos hpos hv]
  simp [translateFunctional_page hv, he]

theorem writeBlob_page (hpos : 0 < t.pageSize) (hv : t.pageOffset v = 0) (he : t.pTable v = some e)
    (hbuf : buf.length = t.pageSize) :
    writeBlob t mem v buf = .ok (storeBytes mem e.paddr buf) := by
  unfold writeBlob
  rw [hbuf, chunks_page hpos hpos hv]
  have htake : buf.take t.pageSize = buf := List.take_of_length_le hbuf.le
  simp [translateFunctional_page hv, he, htake]

/-- The bytes of a frame are copied to another. -/
theorem World.replicatePage_eq {w : World} {old new newPaddr paddr : ℕ} {allocate : Bool}
    {sys : System}
    (hpage : (if allocate then w.system.allocPagesFor v 1 else .ok (newPaddr, w.system)) = .ok
      (paddr, sys)) (hold : (w.tables old).pageSize = sys.pageBytes)
    (hnew : (w.tables new).pageSize = sys.pageBytes) (hv : v % sys.pageBytes = 0)
    (he : (w.tables old).pTable v = some e) :
    w.replicatePage old new v newPaddr allocate
      = .ok ⟨sys, storeBytes w.memory paddr (frame w.memory e.paddr sys.pageBytes),
        Function.update w.tables new ((w.tables new).set v ⟨paddr, MappingFlags.clobber⟩)⟩ := by
  have hpos : 0 < sys.pageBytes := Nat.two_pow_pos _
  set child := (w.tables new).set v ⟨paddr, MappingFlags.clobber⟩ with hchild
  have hread : readBlob (w.tables old) w.memory v sys.pageBytes
      = .ok (frame w.memory e.paddr sys.pageBytes) := by
    rw [← hold] at hv hpos ⊢
    exact readBlob_page hpos hv he
  have hmap : (w.tables new).map v paddr sys.pageBytes MappingFlags.clobber = .ok child := by
    rw [← hnew] at hv hpos ⊢
    exact map_page hpos hv (.inr (by decide))
  have hwrite : writeBlob child w.memory v (frame w.memory e.paddr sys.pageBytes)
      = .ok (storeBytes w.memory paddr (frame w.memory e.paddr sys.pageBytes)) := by
    have hsize : child.pageSize = sys.pageBytes := hnew
    have hset : child.pTable v = some ⟨paddr, MappingFlags.clobber⟩ := by
      rw [hchild, set_apply, if_pos rfl]
    rw [← hsize] at hv hpos ⊢
    exact writeBlob_page hpos hv hset (frame_length ..)
  unfold replicatePage
  rw [hpage]
  simp only [Sim.ok_bind, hread, hmap, hwrite]
  rfl

theorem divCeil_self {b : ℕ} (hpos : 0 < b) : divCeil b b = 1 := by
  unfold divCeil
  rw [Int.tdiv_eq_ediv_of_nonneg (by omega), show (b : ℤ) + b - 1 = b - 1 + 1 * b by ring,
    Int.add_mul_ediv_right _ _ (by omega), Int.ediv_eq_zero_of_lt (by omega) (by omega)]
  rfl

end Gem5Nvm
