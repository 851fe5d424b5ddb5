import Gem5Nvm.ProcessCheckpoint
import Gem5Nvm.Proofs.AddressSpace
import Gem5Nvm.Proofs.Heap

/-!
# Restoring an address space

No call changes the page size, the direction of the `mmap` region or the thread contexts, and every
area a call leaves has passed its check (`step_frame`); so a checkpoint can be read back, and what
is read back differs from what was saved in the furthest point mapped for the break and in the host
buffers only (`restore_eq`).
-/

namespace Gem5Nvm

open Run
open Sim (bind_eq_ok bind₂_eq_ok ok_bind pure_eq)

namespace EmulationPageTable

variable {t t' : EmulationPageTable}

theorem whileSim_pageSize {cond : Cursor → Bool} {body : Cursor → Sim Cursor} {c c' : Cursor}
    (hbody : ∀ c c', body c = .ok c' → c'.table.pageSize = c.table.pageSize)
    (h : whileSim cond body c = .ok c') : c'.table.pageSize = c.table.pageSize :=
  (Loop.whileLoop_inv (I := fun d => d.table.pageSize = c.table.pageSize)
    (fun d d' hd _ hb => (hbody d d' hb).trans hd) maxRounds rfl h).1

variable {size : ℤ}

theorem map_pageSize {v paddr flags : ℕ} (h : t.map v paddr size flags = .ok t') :
    t'.pageSize = t.pageSize := by
  obtain ⟨_, -, c, hc, h⟩ := bind₂_eq_ok.1 h
  cases h
  refine whileSim_pageSize (fun d d' hb => ?_) hc
  unfold mapPage at hb
  split_ifs at hb
  cases hb
  rfl

theorem unmap_pageSize {v : ℕ} (h : t.unmap v size = .ok t') : t'.pageSize = t.pageSize := by
  obtain ⟨_, -, c, hc, h⟩ := bind₂_eq_ok.1 h
  cases h
  refine whileSim_pageSize (fun d d' hb => ?_) hc
  obtain ⟨_, -, hb⟩ := bind_eq_ok.1 hb
  cases hb
  rfl

theorem remap_pageSize {v w : ℕ} (h : t.remap v size w = .ok t') : t'.pageSize = t.pageSize := by
  obtain ⟨_, -, _, -, h⟩ := bind₂_eq_ok.1 h
  obtain ⟨c, hc, h⟩ := bind_eq_ok.1 h
  cases h
  refine whileSim_pageSize (fun d d' hb => ?_) hc
  unfold remapPage at hb
  split at hb <;> cases hb
  rfl

theorem unserialize_apply (l : List (ℕ × Entry)) (t : EmulationPageTable) (v : ℕ) :
    (t.unserialize l).pTable v =
      (t.pTable v).or ((l.find? fun x => x.1 = v).map Prod.snd) := by
  induction l generalizing t with
  | nil => simp [unserialize]
  | cons x l ih =>
    have hcons : t.unserialize (x :: l) = (t.emplace x).unserialize l := rfl
    rw [hcons, ih, emplace, List.find?_cons]
    by_cases hx : x.1 = v
    · subst hx
      by_cases hs : (t.pTable x.1).isSome
      · obtain ⟨e, he⟩ := Option.isSome_iff_exists.1 hs
        simp [he]
      · rw [if_neg hs, set_apply, if_pos rfl]
        simp [Option.not_isSome_iff_eq_none.1 hs]
    · have hkeep : (if (t.pTable x.1).isSome then t else t.set x.1 x.2).pTable v = t.pTable v := by
        split_ifs
        · rfl
        · rw [set_apply, if_neg (fun h => hx h.symm)]
      rw [hkeep]
      simp [hx]

variable {l : List (ℕ × Entry)}

theorem unserialize_new (h : t.Enumerates l) :
    (EmulationPageTable.new t.pageSize).unserialize l = t := by
  have hsize : ∀ (l : List (ℕ × Entry)) (u : EmulationPageTable),
      (u.unserialize l).pageSize = u.pageSize := by
    intro l
    induction l with
    | nil => exact fun u => rfl
    | cons x l ih =>
      intro u
      have hcons : u.unserialize (x :: l) = (u.emplace x).unserialize l := rfl
      rw [hcons, ih, emplace]
      split_ifs <;> rfl
  have htable : ((EmulationPageTable.new t.pageSize).unserialize l).pTable = t.pTable := by
    funext v
    rw [unserialize_apply]
    rcases hv : l.find? fun x => x.1 = v with _ | ⟨w, e⟩
    · rcases he : t.pTable v with _ | e
      · simp [EmulationPageTable.new, hv]
      · have := List.find?_eq_none.1 hv (v, e) ((h.mem v e).2 he)
        simp at this
    · have hw : w = v := by simpa using List.find?_some hv
      subst hw
      have he := (h.mem w e).1 (List.mem_of_find?_eq_some hv)
      simp [EmulationPageTable.new, hv, he]
  calc (EmulationPageTable.new t.pageSize).unserialize l
      = ⟨((EmulationPageTable.new t.pageSize).unserialize l).pageSize,
          ((EmulationPageTable.new t.pageSize).unserialize l).pTable⟩ := rfl
    _ = t := by
        rw [hsize, htable]
        rfl

end EmulationPageTable

def Checked (pageBytes : ℕ) (l : List Vma) : Prop := ∀ v ∈ l, v.sanityCheck pageBytes = .ok v

section Checked

variable {pageBytes s e t : ℕ}

variable {v : Vma}

variable {l : List Vma}

theorem checked_cons :
    Checked pageBytes (v :: l) ↔ v.sanityCheck pageBytes = .ok v ∧ Checked pageBytes l :=
  List.forall_mem_cons

theorem checked_append {m : List Vma} :
    Checked pageBytes (l ++ m) ↔ Checked pageBytes l ∧ Checked pageBytes m :=
  List.forall_mem_append

theorem Checked.cons {w : Vma} (h : v.sanityCheck pageBytes = .ok w) (hl : Checked pageBytes l) :
    Checked pageBytes (w :: l) := by
  obtain ⟨rfl, hrest⟩ := Vma.sanityCheck_eq_ok.1 h
  exact checked_cons.2 ⟨Vma.sanityCheck_eq_ok.2 ⟨rfl, hrest⟩, hl⟩

theorem Checked.concat {w : Vma} (hl : Checked pageBytes l) (h : v.sanityCheck pageBytes = .ok w) :
    Checked pageBytes (l ++ [w]) :=
  checked_append.2 ⟨hl, .cons h (List.forall_mem_nil _)⟩

theorem unmapVmas_checked : ∀ {l l' : List Vma}, Checked pageBytes l →
    unmapVmas pageBytes s e l = .ok l' → Checked pageBytes l'
  | [], l', h, hl => by
    cases hl
    exact h
  | v :: vs, l', h, hl => by
    obtain ⟨hv, hvs⟩ := checked_cons.1 h
    unfold unmapVmas at hl
    split_ifs at hl
    · obtain ⟨back, hback, w, hw, hl⟩ := bind₂_eq_ok.1 hl
      cases hl
      exact .concat (.cons hw hvs) hback
    · exact unmapVmas_checked hvs hl
    iterate 2
      obtain ⟨w, hw, vs', hvs', hl⟩ := bind₂_eq_ok.1 hl
      cases hl
      exact .cons hw (unmapVmas_checked hvs hvs')
    · obtain ⟨vs', hvs', hl⟩ := bind_eq_ok.1 hl
      cases hl
      exact .cons hv (unmapVmas_checked hvs hvs')

theorem remapVma_checked {x y : List Vma × List Vma} (hx : Checked pageBytes (x.1 ++ x.2))
    (h : remapVma pageBytes s e t x = .ok y) : Checked pageBytes (y.1 ++ y.2) := by
  obtain ⟨done, _ | ⟨v, rest⟩⟩ := x
  · cases h
    exact hx
  obtain ⟨hdone, hrest⟩ := checked_append.1 hx
  obtain ⟨hv, hrest⟩ := checked_cons.1 hrest
  simp only [remapVma] at h
  split_ifs at h
  · obtain ⟨right, hright, left, hleft, h⟩ := bind₂_eq_ok.1 h
    obtain ⟨w₀, -, w₁, -, h⟩ := bind₂_eq_ok.1 h
    obtain ⟨w, hw, h⟩ := bind_eq_ok.1 h
    cases h
    simpa using Checked.concat (.concat (checked_append.2 ⟨hdone, .cons hw hrest⟩) hright) hleft
  · obtain ⟨w, hw, h⟩ := bind_eq_ok.1 h
    cases h
    exact checked_append.2 ⟨hdone.concat hw, hrest⟩
  iterate 2
    obtain ⟨back, hback, w₀, -, h⟩ := bind₂_eq_ok.1 h
    obtain ⟨w, hw, h⟩ := bind_eq_ok.1 h
    cases h
    exact checked_append.2 ⟨hdone.concat hw, hrest.concat hback⟩
  · cases h
    exact checked_append.2 ⟨hdone.concat hv, hrest⟩

theorem remapVmas_checked {l' : List Vma} (hl : Checked pageBytes l)
    (h : remapVmas pageBytes s e t l = .ok l') : Checked pageBytes l' := by
  obtain ⟨x, hx, h⟩ := bind_eq_ok.1 h
  cases h
  have hinv := (Loop.whileLoop_inv
    (I := fun x : List Vma × List Vma => Checked pageBytes (x.1 ++ x.2))
    (fun x y hx _ hb => remapVma_checked hx hb) maxRounds (by simpa using hl) hx).1
  exact (checked_append.1 hinv).1

end Checked

namespace Process

variable {p q r p' : Process}

structure Frame (p p' : Process) : Prop where
  pageBytes : p'.memState.pageBytes = p.memState.pageBytes
  pageSize : p'.pTable.pageSize = p.pTable.pageSize
  mmapGrowsDown : p'.mmapGrowsDown = p.mmapGrowsDown
  contextIds : p'.contextIds = p.contextIds
  checked : Checked p.memState.pageBytes p.memState.vmaList →
    Checked p.memState.pageBytes p'.memState.vmaList

theorem Frame.refl (p : Process) : Frame p p := ⟨rfl, rfl, rfl, rfl, id⟩

theorem Frame.trans (h₁ : Frame p q) (h₂ : Frame q r) : Frame p r :=
  ⟨h₂.pageBytes.trans h₁.pageBytes, h₂.pageSize.trans h₁.pageSize,
    h₂.mmapGrowsDown.trans h₁.mmapGrowsDown, h₂.contextIds.trans h₁.contextIds,
    fun h => h₁.pageBytes ▸ h₂.checked (h₁.pageBytes.symm ▸ h₁.checked h)⟩

theorem frame_setMemState (p : Process) {ms : MemState} (hb : ms.pageBytes = p.memState.pageBytes)
    (hl : ms.vmaList = p.memState.vmaList) : Frame p (p.setMemState ms) :=
  ⟨hb, rfl, rfl, rfl, fun h => by simpa [setMemState, hl] using h⟩

variable {length newLength oldLength start : ℕ}

theorem mapRegion_frame {offset : ℕ} {name : String} {file : Option HostFile}
    (h : p.mapRegion start length name file offset = .ok p') : Frame p p' := by
  obtain ⟨v, rfl, hv, -⟩ := mapRegion_ok h
  refine ⟨rfl, rfl, rfl, rfl, fun hl => hl.concat (v := v) ?_⟩
  exact Vma.sanityCheck_eq_ok.2 ⟨rfl, hv.start_lt, hv.start_dvd, hv.end_dvd⟩

theorem doWhileSim_pageSize {cond : PageCursor → Bool} {body : PageCursor → Sim PageCursor}
    {c c' : PageCursor} (hbody : ∀ c c', body c = .ok c' → c'.table.pageSize = c.table.pageSize)
    (h : doWhileSim cond body c = .ok c') : c'.table.pageSize = c.table.pageSize :=
  (Loop.doWhile_inv (I := fun d => d.table.pageSize = c.table.pageSize) (fun d hb => hbody c d hb)
    (fun d d' hd _ hb => (hbody d d' hb).trans hd) h).1

theorem unmapRegion_frame (h : p.unmapRegion start length = .ok p') : Frame p p' := by
  obtain ⟨l, hl, c, hc, h⟩ := bind₂_eq_ok.1 h
  cases h
  refine ⟨rfl, doWhileSim_pageSize (fun d d' hb => ?_) hc, rfl, rfl,
    fun hch => unmapVmas_checked hch hl⟩
  obtain ⟨b, -, t, ht, hb⟩ := bind₂_eq_ok.1 hb
  cases hb
  split_ifs at ht
  · cases ht
    rfl
  · exact EmulationPageTable.unmap_pageSize ht

theorem remapRegion_frame {newStart : ℕ} (h : p.remapRegion start newStart length = .ok p') :
    Frame p p' := by
  obtain ⟨l, hl, c, hc, h⟩ := bind₂_eq_ok.1 h
  cases h
  refine ⟨rfl, doWhileSim_pageSize (fun d d' hb => ?_) hc, rfl, rfl,
    fun hch => remapVmas_checked hch hl⟩
  obtain ⟨b, -, t, ht, hb⟩ := bind₂_eq_ok.1 hb
  cases hb
  split_ifs at ht
  · cases ht
    rfl
  · exact EmulationPageTable.remap_pageSize ht

theorem allocateMem_frame {v : ℕ} {size : ℤ} {clobber : Bool}
    (h : p.allocateMem v size clobber = .ok p') : Frame p p' := by
  obtain ⟨⟨sys, t⟩, ha, h⟩ := bind_eq_ok.1 h
  cases h
  obtain ⟨x, -, t, ht, ha⟩ := bind₂_eq_ok.1 ha
  cases ha
  exact ⟨rfl, EmulationPageTable.map_pageSize ht, rfl, rfl, id⟩

theorem growStack_frame (h : p.growStack = .ok p') : Frame p p' := by
  unfold growStack at h
  dsimp only at h
  split_ifs at h
  exact (frame_setMemState p (by rfl) (by rfl)).trans (allocateMem_frame h)

theorem fixupFault_frame {a : ℕ} {b : Bool} (h : p.fixupFault a = .ok (b, p')) : Frame p p' := by
  unfold fixupFault at h
  dsimp only at h
  split at h
  · obtain ⟨q, hq, mem, -, h⟩ := bind₂_eq_ok.1 h
    cases h
    have hf := allocateMem_frame hq
    exact ⟨hf.pageBytes, hf.pageSize, hf.mmapGrowsDown, hf.contextIds, hf.checked⟩
  · split_ifs at h
    · obtain ⟨q, hq, h⟩ := bind_eq_ok.1 h
      cases h
      exact allocateMem_frame hq
    · obtain ⟨q, hq, h⟩ := bind_eq_ok.1 h
      cases h
      exact (Loop.whileLoop_inv (I := fun q => Frame p q)
        (fun q q' hI _ hb => hI.trans (growStack_frame hb)) maxRounds (Frame.refl p) hq).1
    · cases h
      exact Frame.refl p

variable {x : SyscallReturn}

theorem brkFunc_frame {new : ℕ} (h : p.brkFunc new = .ok (x, p')) : Frame p p' := by
  unfold brkFunc at h
  dsimp only at h
  split_ifs at h
  · cases h
    exact Frame.refl p
  obtain ⟨q, hq, h⟩ := bind_eq_ok.1 h
  cases h
  unfold updateBrkRegion at hq
  dsimp only at hq
  split_ifs at hq
  · cases hq
    exact frame_setMemState p rfl rfl
  · obtain ⟨b, -, hq⟩ := bind_eq_ok.1 hq
    split_ifs at hq
    · obtain ⟨r, hr, hq⟩ := bind_eq_ok.1 hq
      cases hq
      exact (mapRegion_frame hr).trans (frame_setMemState r rfl rfl)
    · cases hq
      exact Frame.refl p
  · cases hq
    exact frame_setMemState p rfl rfl

theorem mmapFunc_frame {offset : ℕ} {flags : MmapFlags} {fd : Option HostFile}
    (h : p.mmapFunc start length flags fd offset = .ok (x, p')) : Frame p p' := by
  obtain rfl | ⟨place, q, name, file, hplace, hmap⟩ := mmapFunc_ok h
  · exact Frame.refl _
  obtain ⟨-, rfl, hunmap⟩ | ⟨-, e, rfl⟩ := mmapPlace_ok hplace
  · exact (unmapRegion_frame hunmap).trans (mapRegion_frame hmap)
  · refine Frame.trans ?_ (mapRegion_frame hmap)
    exact frame_setMemState p rfl rfl

theorem munmapFunc_frame (h : p.munmapFunc start length = .ok (x, p')) : Frame p p' := by
  unfold munmapFunc at h
  dsimp only at h
  split_ifs at h
  · cases h
    exact Frame.refl p
  · obtain ⟨q, hq, h⟩ := bind_eq_ok.1 h
    cases h
    exact unmapRegion_frame hq

theorem mremapMove_frame {provided : ℕ} {fixed : Bool}
    (h : p.mremapMove start oldLength newLength fixed provided = .ok (x, p')) : Frame p p' := by
  obtain ⟨q, hq, r, hr, h⟩ := bind₂_eq_ok.1 h
  cases h
  refine Frame.trans ?_ ((allocateMem_frame hq).trans (remapRegion_frame hr))
  split_ifs
  · exact Frame.refl p
  · exact frame_setMemState p rfl rfl

theorem mremapShrink_frame {provided : ℕ} {fixed : Bool}
    (h : p.mremapShrink start oldLength newLength fixed provided = .ok (x, p')) : Frame p p' := by
  obtain ⟨q, hq, r, hr, h⟩ := bind₂_eq_ok.1 h
  cases h
  have hpq : Frame p q := by
    split_ifs at hq
    · exact remapRegion_frame hq
    · cases hq
      exact Frame.refl p
  refine hpq.trans ?_
  split_ifs at hr
  · exact unmapRegion_frame hr
  · cases hr
    exact Frame.refl _

theorem mremapFunc_frame {vararg : ℕ} {flags : MremapFlags}
    (h : p.mremapFunc start oldLength newLength flags vararg = .ok (x, p')) : Frame p p' := by
  unfold mremapFunc at h
  dsimp only at h
  generalize (if flags.fixed then vararg else 0) = provided at h
  split_ifs at h
  · cases h
    exact Frame.refl p
  · obtain ⟨q, hq, h⟩ := bind_eq_ok.1 h
    cases h
    exact (mapRegion_frame hq).trans (frame_setMemState q rfl rfl)
  · cases h
    exact Frame.refl p
  · exact mremapMove_frame h
  · exact mremapShrink_frame h

theorem step_frame {o : Op} {a : Answer} (h : p.step o = .ok (a, p')) : Frame p p' := by
  cases o with
  | brk new =>
    obtain ⟨x, hx⟩ := map_answer_eq_ok h
    exact brkFunc_frame hx
  | mmap start length flags fd offset =>
    obtain ⟨x, hx⟩ := map_answer_eq_ok h
    exact mmapFunc_frame hx
  | munmap start length =>
    obtain ⟨x, hx⟩ := map_answer_eq_ok h
    exact munmapFunc_frame hx
  | mremap start oldLength newLength flags vararg =>
    obtain ⟨x, hx⟩ := map_answer_eq_ok h
    exact mremapFunc_frame hx
  | fault vaddr =>
    obtain ⟨x, hx⟩ := map_answer_eq_ok h
    exact fixupFault_frame hx

theorem readVmas_eq {pageBytes : ℕ} : ∀ {l : List Vma} (acc : List Vma), Checked pageBytes l →
    (l.map fun v => (v.name, v.start, v.end_)).foldlM (MemState.readVma pageBytes) acc
      = .ok (acc ++ l.map fun v => { v with hostBuf := none })
  | [], acc, _ => by simp
  | v :: l, acc, h => by
    obtain ⟨hv, hl⟩ := checked_cons.1 h
    have hnew : Vma.new pageBytes v.start v.end_ v.name none 0
        = .ok { v with hostBuf := none } := by
      obtain ⟨-, hrest⟩ := Vma.sanityCheck_eq_ok.1 hv
      exact Vma.sanityCheck_eq_ok.2 ⟨rfl, hrest⟩
    have hround : MemState.readVma pageBytes acc (v.name, v.start, v.end_)
        = .ok (acc ++ [{ v with hostBuf := none }]) := by
      unfold MemState.readVma
      rw [hnew]
      rfl
    rw [List.map_cons, List.foldlM_cons, hround, ok_bind, readVmas_eq _ hl]
    simp

theorem restore_eq {ps : ProcessParams} (hb : p.memState.pageBytes = ps.pageBytes)
    (hs : p.pTable.pageSize = ps.pageBytes) (hd : p.mmapGrowsDown = ps.mmapGrowsDown)
    (hc : p.contextIds = ps.contextIds) (hch : Checked ps.pageBytes p.memState.vmaList)
    (hl : p.pTable.Enumerates l) :
    restore ps p l = .ok (p.setMemState { p.memState with
      endBrkPoint := ps.brkPoint
      vmaList := p.memState.vmaList.map fun v => { v with hostBuf := none } }) := by
  have htable : (EmulationPageTable.new ps.pageBytes).unserialize l = p.pTable := by
    rw [← hs]
    exact EmulationPageTable.unserialize_new hl
  have hread := readVmas_eq [] hch
  unfold restore MemState.unserialize
  simp only [Process.new, MemState.new, MemState.serialize, hread, htable, ok_bind, pure_eq,
    List.nil_append]
  rw [← hd, ← hc, ← hb]
  rfl

theorem reachable_frame (hr : Reachable step p q) : Frame p q :=
  hr.inv (I := fun q => Frame p q) (Frame.refl p)
    fun _ _ _ _ hI hs => hI.trans (step_frame hs)

end Process

/-- A process whose heap has not outgrown the initial break, and none of whose areas has a host
buffer, goes on from a checkpoint as it would have without it. -/
theorem checkpoint_transparent {ps : ProcessParams} {p₀ p : Process} (h₀ : Process.Started ps p₀)
    (hr : Reachable Process.step p₀ p) (hend : p.memState.endBrkPoint = ps.brkPoint)
    (hbuf : ∀ v ∈ p.memState.vmaList, v.hostBuf = none) : Process.Transparent ps p := by
  intro l hl
  have hf := Process.reachable_frame hr
  have hch : Checked ps.pageBytes p.memState.vmaList := by
    have hkept := hf.checked (h₀.pageBytes.symm ▸ h₀.checked)
    rwa [h₀.pageBytes] at hkept
  have hrestore := Process.restore_eq (hf.pageBytes.trans h₀.pageBytes)
    (hf.pageSize.trans h₀.pageSize) (hf.mmapGrowsDown.trans h₀.mmapGrowsDown)
    (hf.contextIds.trans h₀.contextIds) hch hl
  have hmap : (p.memState.vmaList.map fun v => { v with hostBuf := none }) =
      p.memState.vmaList := by
    refine (List.map_congr_left fun v hv => ?_).trans (List.map_id _)
    rw [← hbuf v hv]
    rfl
  rw [hmap, ← hend] at hrestore
  exact ⟨p, hrestore, fun ops => rfl⟩

/-- The parameters of `blankProcess`. -/
def blankParams : ProcessParams :=
  ⟨4096, 0x10000, 0x7fff0000, 0x10000, 0x7ff00000, 0x7f000000, true, [0]⟩

theorem blankProcess_started (pm : PhysicalMemory) :
    Process.Started blankParams (blankProcess pm) :=
  ⟨rfl, rfl, rfl, rfl, by simp [blankProcess, MemState.new], rfl⟩

/-- A process that has mapped a page and touched it. -/
theorem checkpoint_transparent_mapped : ∃ pm p, System.new wideParams = .ok (sysAt pm 0 0) ∧
    Reachable Process.step (blankProcess pm) p ∧ p.memState.vmaList ≠ [] ∧
    p.pTable.pTable 0x7efff000 = some ⟨0, 0⟩ ∧ Process.Transparent blankParams p := by
  obtain ⟨pm, hpm⟩ := new_wideParams
  have hreach := ((Reachable.refl _).tail (blankProcess_mmap (wide pm))).tail
    (mappedProcess_fault pm)
  refine ⟨_, _, hpm, hreach, List.cons_ne_nil _ _, rfl, ?_⟩
  exact checkpoint_transparent (blankProcess_started _) hreach rfl
    (List.forall_mem_singleton.2 rfl)

/-- A checkpoint of a process that has grown its heap: the restored process cannot grow it on. -/
theorem checkpoint_loses_heap_end : ∃ pm p, System.new wideParams = .ok (sysAt pm 0 0) ∧
    Process.Started blankParams (blankProcess pm) ∧
    Reachable Process.step (blankProcess pm) p ∧ ¬ Process.Transparent blankParams p := by
  obtain ⟨pm, hpm⟩ := new_wideParams
  have hgrow : (blankProcess (wide pm)).step (.brk 0x11000) =
      .ok (.syscall (.value 0x11000), heapProcess (wide pm) 0x11000 0x11000) := by
    cbv
  refine ⟨_, _, hpm, blankProcess_started _, (Reachable.refl _).tail hgrow, fun htrans => ?_⟩
  have hempty : (heapProcess (wide pm) 0x11000 0x11000).pTable.Enumerates [] :=
    ⟨List.nodup_nil, fun v e => ⟨fun h => absurd h List.not_mem_nil,
      fun h => absurd (show none = some e from h) (Option.some_ne_none e).symm⟩⟩
  obtain ⟨q, hq, hsame⟩ := htrans [] hempty
  have hrestored : Process.restore blankParams (heapProcess (wide pm) 0x11000 0x11000) [] =
      .ok (heapProcess (wide pm) 0x11000 0x10000) := by
    cbv
  rw [hrestored, Except.ok.injEq] at hq
  subst hq
  have hblocked : (heapProcess (wide pm) 0x11000 0x10000).step (.brk 0x12000) =
      .ok (.syscall (.value 0x11000), heapProcess (wide pm) 0x11000 0x10000) := by
    cbv
  have hgrown : (heapProcess (wide pm) 0x11000 0x11000).step (.brk 0x12000) =
      .ok (.syscall (.value 0x12000), (blankProcess (wide pm)).setMemState
        { (blankProcess (wide pm)).memState with
          brkPoint := 0x12000
          endBrkPoint := 0x12000
          vmaList := [⟨0x10000, 0x11000, "heap", none⟩, ⟨0x11000, 0x12000, "heap", none⟩] }) := by
    cbv
  have hruns := hsame [.brk 0x12000]
  rw [run_cons hblocked (run_nil _), run_cons hgrown (run_nil _)] at hruns
  simp [Except.map, Process.shown] at hruns

end Gem5Nvm
