import Gem5Nvm.Proofs.MemState

/-!
# The areas account for the pages

`Tracks p p'` says that a call that leads from `p` to `p'` keeps the areas in order, keeps every
page accounted for, and maps no other.  Calls that do so compose (`Tracks.trans`), and every careful
call does (`step_tracks`), so a run of careful calls does.
-/

namespace Gem5Nvm

open Run EmulationPageTable
open Sim (bind_eq_ok bind₂_eq_ok)

namespace Process

/-- What an address space keeps of itself. -/
structure Sound (p : Process) : Prop where
  uniform : p.Uniform
  vmasOk : VmasOk p.memState.pageBytes p.memState.vmaList
  stackMin_le : p.memState.stackMin ≤ p.memState.stackBase
  stackBase_lt : p.memState.stackBase < 2 ^ 64

/-- The page at `v` starts in an area, or meets the stack region. -/
def Placed (p : Process) (v : ℕ) : Prop :=
  v ∈ covered p.memState.vmaList ∨
    ∃ a ∈ Set.Ico v (v + p.memState.pageBytes), p.memState.stackMin ≤ a ∧ a < p.memState.stackBase

structure Tracks (p p' : Process) : Prop where
  sound : p'.Sound
  pageBytes : p'.memState.pageBytes = p.memState.pageBytes
  kept : ∀ v, p.memState.pageBytes ∣ v → p.Placed v → p'.pTable.pTable v ≠ none →
    p'.pTable.pTable v = p.pTable.pTable v → p'.Placed v
  new : ∀ v, p'.pTable.pTable v ≠ none → p'.pTable.pTable v ≠ p.pTable.pTable v →
    p.memState.pageBytes ∣ v ∧ p'.Placed v

variable {p q r p' : Process}

theorem Tracks.refl (h : p.Sound) : Tracks p p :=
  ⟨h, rfl, fun _ _ hp _ _ => hp, fun _ _ hne => absurd rfl hne⟩

theorem Tracks.trans (h₁ : Tracks p q) (h₂ : Tracks q r) : Tracks p r := by
  refine ⟨h₂.sound, h₂.pageBytes.trans h₁.pageBytes, fun v hv hp hr hrp => ?_,
    fun v hr hrp => ?_⟩
  · by_cases hqp : q.pTable.pTable v = p.pTable.pTable v
    · have hqr := hrp.trans hqp.symm
      exact h₂.kept v (h₁.pageBytes ▸ hv) (h₁.kept v hv hp (hqr ▸ hr) hqp) hr hqr
    · exact (h₂.new v hr fun h => hqp (h ▸ hrp)).2
  · by_cases hrq : r.pTable.pTable v = q.pTable.pTable v
    · obtain ⟨hv, hq⟩ := h₁.new v (hrq ▸ hr) fun h => hrp (hrq.trans h)
      exact ⟨hv, h₂.kept v (h₁.pageBytes ▸ hv) hq hr hrq⟩
    · obtain ⟨hv, hr⟩ := h₂.new v hr hrq
      exact ⟨h₁.pageBytes ▸ hv, hr⟩

theorem Tracks.of_pTable (hs : p'.Sound) (hm : p'.memState.pageBytes = p.memState.pageBytes)
    (ht : p'.pTable = p.pTable) (hcov : covered p.memState.vmaList ⊆ covered p'.memState.vmaList)
    (hmin : p'.memState.stackMin = p.memState.stackMin)
    (hbase : p'.memState.stackBase = p.memState.stackBase) : Tracks p p' := by
  refine ⟨hs, hm, fun v _ hp _ _ => ?_, fun v _ hne => absurd (by rw [ht]) hne⟩
  rcases hp with hc | ha
  · exact .inl (hcov hc)
  · right
    rwa [hm, hmin, hbase]

theorem tracks_setMemState (h : p.Sound) (brk end_ mmapEnd : ℕ) :
    Tracks p (p.setMemState
      { p.memState with brkPoint := brk, endBrkPoint := end_, mmapEnd := mmapEnd }) := by
  refine Tracks.of_pTable ⟨?_, h.vmasOk, h.stackMin_le, h.stackBase_lt⟩ rfl rfl subset_rfl rfl rfl
  exact h.uniform.congr rfl rfl rfl

variable {length offset start v : ℕ}

variable {file : Option HostFile}

theorem mapRegion_tracks (h : p.Sound) {name : String}
    (hp : p.mapRegion start length name file offset = .ok p') : Tracks p p' := by
  obtain ⟨hok, hcov⟩ := mapRegion_vmasOk hp h.vmasOk
  obtain ⟨v, rfl, -⟩ := mapRegion_ok hp
  exact Tracks.of_pTable ⟨h.uniform.congr rfl rfl rfl, hok, h.stackMin_le, h.stackBase_lt⟩ rfl rfl
    hcov rfl rfl

theorem unmapRegion_tracks (h : p.Sound) (hlt : start + length < 2 ^ 64)
    (hp : p.unmapRegion start length = .ok p') : Tracks p p' := by
  obtain ⟨l, t, rfl, hok, hcov, hps, hold, hnone⟩ := unmapRegion_ok h.uniform hlt h.vmasOk hp
  refine ⟨⟨h.uniform.congr rfl hps rfl, hok, h.stackMin_le, h.stackBase_lt⟩, rfl,
    fun v hv hplaced hne _ => ?_, fun v hne hch => ?_⟩
  · rcases hplaced with hc | hstack
    · left
      show v ∈ covered l
      rw [hcov]
      refine ⟨hc, fun hin => hne (hnone v ?_ hin)⟩
      rwa [← h.uniform.pageBytes_eq]
    · exact .inr hstack
  · rcases hold v with hv | hv
    · exact absurd hv hch
    · exact absurd hv hne

theorem remapRegion_tracks (h : p.Sound) {newStart : ℕ}
    (hclean : p.MovesCleanly start newStart length)
    (hp : p.remapRegion start newStart length = .ok p') : Tracks p p' := by
  obtain ⟨l, t, rfl, hok, hcov, hps, hmoved⟩ := remapRegion_ok h.uniform hclean h.vmasOk hp
  have hpb := h.uniform.pageBytes_eq
  -- a page that has come from the region is where its area has come
  have htarget : ∀ v, newStart ≤ v ∧ v < newStart + length →
      p.pTable.pTable (v - newStart + start) ≠ none → v ∈ covered l := by
    intro v hin hne
    exact (hcov v).2 (.inr ⟨hin, hclean.pages _ (Set.mem_Ico.2 (by omega)) hne⟩)
  refine ⟨⟨h.uniform.congr rfl hps rfl, hok, h.stackMin_le, h.stackBase_lt⟩, rfl,
    fun v hv hplaced hne _ => ?_, fun v hne hch => ?_⟩
  · rcases hmoved v hne with ⟨-, hout⟩ | ⟨hin, -, hsrc⟩
    · rcases hplaced with hc | hstack
      · exact .inl ((hcov v).2 (.inl ⟨hc, hout (hpb ▸ hv)⟩))
      · exact .inr hstack
    · exact .inl (htarget v hin hsrc)
  · rcases hmoved v hne with ⟨hold, -⟩ | ⟨hin, hdvd, hsrc⟩
    · exact absurd hold hch
    · exact ⟨hpb ▸ hdvd, .inl (htarget v hin hsrc)⟩

theorem allocateMem_tracks (h : p.Sound) {size : ℤ} {clobber : Bool} (hv : v < 2 ^ 64)
    (hplaced : ∀ j : ℕ, (j : ℤ) * p.pTable.pageSize < size →
      p.Placed (u64 (v + j * p.pTable.pageSize))) (hp : p.allocateMem v size clobber = .ok p') :
    Tracks p p' := by
  obtain ⟨sys, t, rfl, hshift, hps, hoff, hmap⟩ := allocateMem_ok hv hp
  refine ⟨⟨h.uniform.congr rfl hps hshift, h.vmasOk, h.stackMin_le, h.stackBase_lt⟩, rfl,
    fun v _ hp _ _ => hp, fun x _ hch => ?_⟩
  obtain ⟨j, hj, rfl⟩ := (hmap x).resolve_left hch
  refine ⟨?_, hplaced j hj⟩
  rw [h.uniform.pageBytes_eq]
  refine (Nat.dvd_mod_iff h.uniform.dvd).2 (Dvd.dvd.add ?_ (Dvd.intro_left _ rfl))
  exact Nat.dvd_of_mod_eq_zero hoff

theorem allocatePage_tracks (h : p.Sound) {clobber : Bool} (hv : v < 2 ^ 64) (hplaced : p.Placed v)
    (hp : p.allocateMem v p.memState.pageBytes clobber = .ok p') : Tracks p p' := by
  refine allocateMem_tracks h hv (fun j hj => ?_) hp
  have hpos := h.uniform.pos
  obtain rfl : j = 0 := by
    rw [h.uniform.pageBytes_eq] at hj
    by_contra hne
    have : (1 : ℤ) * p.pTable.pageSize ≤ j * p.pTable.pageSize := by
      exact_mod_cast Nat.mul_le_mul_right _ (by omega : 1 ≤ j)
    omega
  simpa [u64_of_lt hv] using hplaced

theorem growStack_tracks (h : p.Sound) {a : ℕ} (ha : a < p.memState.stackMin)
    (hp : p.growStack = .ok p') : Tracks p p' := by
  unfold growStack at hp
  dsimp only at hp
  split_ifs at hp with hmax
  set ms : MemState :=
    { p.memState with stackMin := usub p.memState.stackMin p.memState.pageBytes } with hms
  have hlt : usub p.memState.stackMin p.memState.pageBytes < 2 ^ 64 := Nat.mod_lt _ (by norm_num)
  -- the page is aligned, so the one below the stack does not wrap around
  obtain ⟨-, -, -, -, -, hoff, -⟩ := allocateMem_ok hlt hp
  have hdvd : p.memState.pageBytes ∣ usub p.memState.stackMin p.memState.pageBytes := by
    rw [h.uniform.pageBytes_eq] at hoff ⊢
    exact Nat.dvd_of_mod_eq_zero hoff
  have hle : p.memState.pageBytes ≤ 2 ^ 64 :=
    Nat.le_of_dvd (by norm_num) (h.uniform.pageBytes_eq ▸ h.uniform.dvd)
  have hbelow : usub p.memState.stackMin p.memState.pageBytes + p.memState.pageBytes
      = p.memState.stackMin := by
    have hbase := h.stackBase_lt
    have hmin := h.stackMin_le
    have hword : p.memState.pageBytes ∣ 2 ^ 64 := h.uniform.pageBytes_eq ▸ h.uniform.dvd
    by_contra hne
    have hwrap : usub p.memState.stackMin p.memState.pageBytes + p.memState.pageBytes
        = p.memState.stackMin + 2 ^ 64 := by
      unfold usub at hne ⊢
      omega
    have hmult : p.memState.pageBytes ∣ p.memState.stackMin := by
      refine (Nat.dvd_add_left hword).1 ?_
      rw [← hwrap]
      exact Dvd.dvd.add hdvd dvd_rfl
    have := Nat.le_of_dvd (by omega) hmult
    unfold usub at hwrap
    omega
  have hpos := h.uniform.pageBytes_pos
  have hsound : (p.setMemState ms).Sound :=
    ⟨h.uniform.congr rfl rfl rfl, h.vmasOk, le_trans (by simp only [setMemState, hms]; omega)
      h.stackMin_le, h.stackBase_lt⟩
  have hset : Tracks p (p.setMemState ms) := by
    refine ⟨hsound, rfl, fun v _ hv _ _ => ?_, fun v _ hne => absurd rfl hne⟩
    rcases hv with hc | ⟨a, ha, hmin, hbase⟩
    · exact .inl hc
    · exact .inr ⟨a, ha, le_trans (by simp only [setMemState, hms]; omega) hmin, hbase⟩
  refine hset.trans (allocatePage_tracks hsound hlt (.inr ?_) hp)
  refine ⟨usub p.memState.stackMin p.memState.pageBytes, ⟨le_rfl, ?_⟩, le_rfl, ?_⟩
  · simp only [setMemState, hms]
    omega
  · have := h.stackMin_le
    simp only [setMemState, hms]
    omega

theorem roundDown_le (a n : ℕ) : roundDown a n ≤ a := Nat.div_mul_le_self a n

theorem lt_roundDown_add (a : ℕ) {n : ℕ} (hn : 0 < n) : a < roundDown a n + n :=
  Nat.lt_div_mul_add hn

theorem fixupFault_tracks (h : p.Sound) {a : ℕ} (ha : a < 2 ^ 64) {b : Bool}
    (hp : p.fixupFault a = .ok (b, p')) : Tracks p p' := by
  have hpos := h.uniform.pageBytes_pos
  have hpage := lt_roundDown_add a hpos
  have hle := roundDown_le a p.memState.pageBytes
  unfold fixupFault at hp
  dsimp only at hp
  split at hp
  · next w hw =>
    -- an area: its first address is aligned, so the page of `a` starts in it
    obtain ⟨q, hq, mem, -, hp⟩ := bind₂_eq_ok.1 hp
    cases hp
    have hmem := List.mem_of_find?_eq_some hw
    have hcontains : w.contains a = true := by simpa using List.find?_some hw
    have hin : w.start ≤ a ∧ a < w.end_ := of_decide_eq_true hcontains
    have hstart : w.start ≤ roundDown a p.memState.pageBytes := by
      obtain ⟨k, hk⟩ := (h.vmasOk.sane w hmem).start_dvd
      unfold roundDown
      rw [hk, Nat.mul_comm] at hin ⊢
      exact Nat.mul_le_mul_right _ ((Nat.le_div_iff_mul_le hpos).2 hin.1)
    have htr := allocatePage_tracks h (by omega)
      (.inl ⟨w, hmem, Set.mem_Ico.2 ⟨hstart, by omega⟩⟩) hq
    exact ⟨⟨htr.sound.uniform.congr rfl rfl rfl, htr.sound.vmasOk, htr.sound.stackMin_le,
      htr.sound.stackBase_lt⟩, htr.pageBytes, htr.kept, htr.new⟩
  · split_ifs at hp with hstack hgrow
    · obtain ⟨q, hq, hp⟩ := bind_eq_ok.1 hp
      cases hp
      exact allocatePage_tracks h (by omega) (.inr ⟨a, ⟨hle, hpage⟩, hstack⟩) hq
    · obtain ⟨q, hq, hp⟩ := bind_eq_ok.1 hp
      cases hp
      exact (Loop.whileLoop_inv (I := fun q => Tracks p q)
        (fun q q' hI hc hb => hI.trans (growStack_tracks hI.sound (of_decide_eq_true hc) hb))
        maxRounds (Tracks.refl h) hq).1
    · cases hp
      exact Tracks.refl h

theorem updateBrkRegion_tracks (h : p.Sound) {old new : ℕ}
    (hp : p.updateBrkRegion old new = .ok p') : Tracks p p' := by
  unfold updateBrkRegion at hp
  dsimp only at hp
  split_ifs at hp with hlt hend
  · cases hp
    exact tracks_setMemState h ..
  · obtain ⟨b, -, hp⟩ := bind_eq_ok.1 hp
    split_ifs at hp with hb
    · obtain ⟨q, hq, hp⟩ := bind_eq_ok.1 hp
      cases hp
      have hmap := mapRegion_tracks h hq
      exact hmap.trans (tracks_setMemState hmap.sound ..)
    · cases hp
      exact Tracks.refl h
  · cases hp
    exact tracks_setMemState h ..

variable {x : SyscallReturn}

theorem brkFunc_tracks (h : p.Sound) {new : ℕ} (hp : p.brkFunc new = .ok (x, p')) :
    Tracks p p' := by
  unfold brkFunc at hp
  dsimp only at hp
  split_ifs at hp with hsame
  · cases hp
    exact Tracks.refl h
  · obtain ⟨q, hq, hp⟩ := bind_eq_ok.1 hp
    cases hp
    exact updateBrkRegion_tracks h hq

theorem roundUp_lt (a n : ℕ) : roundUp a n < 2 ^ 64 :=
  (Nat.div_mul_le_self _ n).trans_lt (Nat.mod_lt _ (by norm_num))

theorem munmapFunc_tracks (h : p.Sound) {start length : UInt64}
    (hcare : p.Careful (.munmap start length))
    (hp : p.munmapFunc start.toNat length.toNat = .ok (x, p')) : Tracks p p' := by
  unfold munmapFunc at hp
  dsimp only at hp
  split_ifs at hp with hinval
  · cases hp
    exact Tracks.refl h
  · obtain ⟨q, hq, hp⟩ := bind_eq_ok.1 hp
    cases hp
    exact unmapRegion_tracks h (hcare (by omega)) hq

theorem mapRegion_lt {name : String} (hs : start < 2 ^ 64) (hl : length < 2 ^ 64)
    (hp : p.mapRegion start length name file offset = .ok p') : start + length < 2 ^ 64 := by
  obtain ⟨v, -, hv, hstart, hend, -⟩ := mapRegion_ok hp
  have hlt := hv.start_lt
  rw [hstart, hend] at hlt
  unfold u64 at hlt
  omega

theorem mmapFunc_tracks (h : p.Sound) {flags : MmapFlags} {fd : Option HostFile}
    (hs : start < 2 ^ 64) (hp : p.mmapFunc start length flags fd offset = .ok (x, p')) :
    Tracks p p' := by
  have hround : roundUp length p.system.pageBytes < 2 ^ 64 := roundUp_lt ..
  obtain rfl | ⟨place, q, name, file, hplace, hmap⟩ := mmapFunc_ok hp
  · exact Tracks.refl h
  obtain ⟨-, rfl, hunmap⟩ | ⟨-, e, rfl⟩ := mmapPlace_ok hplace
  · -- what the region held is taken away first; a region that wraps around fails afterwards
    have hunmap := unmapRegion_tracks h (mapRegion_lt hs hround hmap) hunmap
    exact hunmap.trans (mapRegion_tracks hunmap.sound hmap)
  · have hset : Tracks p (p.setMemState { p.memState with mmapEnd := e }) :=
      tracks_setMemState h ..
    exact hset.trans (mapRegion_tracks hset.sound hmap)

theorem toInt64_le (x : ℕ) : toInt64 x ≤ x := by
  unfold toInt64
  split_ifs <;> omega

theorem MovesCleanly.congr {newStart : ℕ} (h : p.MovesCleanly start newStart length)
    (hl : q.memState.vmaList = p.memState.vmaList)
    (ht : ∀ v ∈ Set.Ico start (start + length), q.pTable.pTable v = p.pTable.pTable v) :
    q.MovesCleanly start newStart length :=
  ⟨h.length_pos, h.start_lt, h.newStart_lt, h.apart,
    fun v hv hne => hl ▸ h.pages v hv (ht v hv ▸ hne), hl ▸ h.target⟩

variable {oldLength newLength provided : ℕ}

theorem mremapMove_tracks (h : p.Sound) {fixed : Bool} (hnew : oldLength < newLength)
    (hclean : p.MovesCleanly start (if fixed then provided else (p.mremapTarget newLength).1)
      oldLength)
    (hlt : (if fixed then provided else (p.mremapTarget newLength).1) + newLength < 2 ^ 64)
    (hextra : ∀ v ∈ Set.Ico ((if fixed then provided else (p.mremapTarget newLength).1) + oldLength)
        ((if fixed then provided else (p.mremapTarget newLength).1) + newLength),
      v ∈ covered p.memState.vmaList ∧ v ∉ Set.Ico start (start + oldLength))
    (hp : p.mremapMove start oldLength newLength fixed provided = .ok (x, p')) : Tracks p p' := by
  unfold mremapMove at hp
  dsimp only at hp
  set target := if fixed then provided else (p.mremapTarget newLength).1 with htarget
  set p₁ := if fixed then p
    else p.setMemState { p.memState with mmapEnd := (p.mremapTarget newLength).2 } with hp₁
  obtain ⟨p₂, hp₂, p₃, hp₃, hp⟩ := bind₂_eq_ok.1 hp
  cases hp
  have h₁ : Tracks p p₁ ∧ p₁.memState.vmaList = p.memState.vmaList ∧ p₁.pTable = p.pTable := by
    rw [hp₁]
    split_ifs
    · exact ⟨Tracks.refl h, rfl, rfl⟩
    · exact ⟨tracks_setMemState h .., rfl, rfl⟩
  obtain ⟨htr₁, hl₁, ht₁⟩ := h₁
  rw [u64_of_lt (by omega), usub_of_le (by omega) (by omega)] at hp₂
  -- the pages added are those from the end of the old region to the end of the new one
  have hadded : ∀ j : ℕ, (j : ℤ) * p₁.pTable.pageSize < toInt64 (newLength - oldLength) →
      u64 (target + oldLength + j * p₁.pTable.pageSize)
        ∈ Set.Ico (target + oldLength) (target + newLength) := by
    intro j hj
    have hle := toInt64_le (newLength - oldLength)
    have hj' : j * p₁.pTable.pageSize < newLength - oldLength := by
      have : ((j * p₁.pTable.pageSize : ℕ) : ℤ) < ((newLength - oldLength : ℕ) : ℤ) := by
        push_cast
        omega
      exact_mod_cast this
    rw [u64_of_lt (by omega), Set.mem_Ico]
    omega
  have htr₂ : Tracks p₁ p₂ := by
    refine allocateMem_tracks htr₁.sound (by omega) (fun j hj => .inl ?_) hp₂
    rw [hl₁]
    exact (hextra _ (hadded j hj)).1
  obtain ⟨sys, t, rfl, -, -, -, hmap⟩ := allocateMem_ok (by omega) hp₂
  refine (htr₁.trans htr₂).trans (remapRegion_tracks htr₂.sound ?_ hp₃)
  refine hclean.congr hl₁ fun v hv => ?_
  rw [← ht₁]
  refine (hmap v).resolve_right ?_
  rintro ⟨j, hj, rfl⟩
  exact (hextra _ (hadded j hj)).2 hv

theorem mremapShrink_tracks (h : p.Sound) {fixed : Bool} (hold : oldLength < 2 ^ 64)
    (hnew : newLength ≤ oldLength)
    (hclean : fixed ∧ provided ≠ start → p.MovesCleanly start provided newLength)
    (hlt : newLength ≠ oldLength → u64 (start + newLength) + (oldLength - newLength) < 2 ^ 64)
    (hp : p.mremapShrink start oldLength newLength fixed provided = .ok (x, p')) : Tracks p p' := by
  obtain ⟨p₁, hp₁, p₂, hp₂, hp⟩ := bind₂_eq_ok.1 hp
  cases hp
  have htr₁ : Tracks p p₁ := by
    split_ifs at hp₁ with hmove
    · exact remapRegion_tracks h (hclean hmove) hp₁
    · cases hp₁
      exact Tracks.refl h
  refine htr₁.trans ?_
  split_ifs at hp₂ with hne
  · rw [usub_of_le hnew hold] at hp₂
    exact unmapRegion_tracks htr₁.sound (hlt hne) hp₂
  · cases hp₂
    exact Tracks.refl htr₁.sound

theorem mremapFunc_tracks (h : p.Sound) {start oldLength newLength vararg : UInt64}
    {flags : MremapFlags} (hcare : p.Careful (.mremap start oldLength newLength flags vararg))
    (hp : p.mremapFunc start.toNat oldLength.toNat newLength.toNat flags vararg.toNat
      = .ok (x, p')) : Tracks p p' := by
  unfold mremapFunc at hp
  simp only [Careful] at hcare
  dsimp only at hp
  set provided := if flags.fixed then vararg.toNat else 0 with hprovided
  by_cases hinval : start.toNat % p.system.pageBytes ≠ 0 ∨ provided % p.system.pageBytes ≠ 0
  · rw [if_pos hinval] at hp
    cases hp
    exact Tracks.refl h
  rw [if_neg hinval] at hp
  have hcare := hcare (by omega) (by omega)
  by_cases hgrow : roundUp newLength.toNat p.system.pageBytes > oldLength.toNat
  · rw [if_pos hgrow] at hp hcare
    by_cases hplace : u64 (start.toNat + oldLength.toNat) = p.memState.mmapEnd ∧
        (¬ flags.fixed ∨ provided = start.toNat)
    · rw [if_pos hplace] at hp
      obtain ⟨q, hq, hp⟩ := bind_eq_ok.1 hp
      cases hp
      have hmap := mapRegion_tracks h hq
      exact hmap.trans (tracks_setMemState hmap.sound ..)
    rw [if_neg hplace] at hp
    by_cases hstay : ¬ flags.fixed ∧ ¬ flags.mayMove
    · rw [if_pos hstay] at hp
      cases hp
      exact Tracks.refl h
    rw [if_neg hstay] at hp
    obtain ⟨hclean, hlt, hextra⟩ := (hcare.resolve_left hplace).resolve_left hstay
    exact mremapMove_tracks h hgrow hclean hlt hextra hp
  · rw [if_neg hgrow] at hp hcare
    exact mremapShrink_tracks h oldLength.toNat_lt (by omega) hcare.1 hcare.2 hp

theorem step_tracks (h : p.Sound) {o : Op} {a : Answer} (hcare : p.Careful o)
    (hp : p.step o = .ok (a, p')) : Tracks p p' := by
  cases o with
  | brk new =>
    obtain ⟨x, hx⟩ := map_answer_eq_ok hp
    exact brkFunc_tracks h hx
  | mmap start length flags fd offset =>
    obtain ⟨x, hx⟩ := map_answer_eq_ok hp
    exact mmapFunc_tracks h start.toNat_lt hx
  | munmap start length =>
    obtain ⟨x, hx⟩ := map_answer_eq_ok hp
    exact munmapFunc_tracks h hcare hx
  | mremap start oldLength newLength flags vararg =>
    obtain ⟨x, hx⟩ := map_answer_eq_ok hp
    exact mremapFunc_tracks h hcare hx
  | fault vaddr =>
    obtain ⟨x, hx⟩ := map_answer_eq_ok hp
    exact fixupFault_tracks h vaddr.toNat_lt hx

theorem Placed.accounted (h : p.Sound) (hv : p.memState.pageBytes ∣ v) (hp : p.Placed v) :
    p.Accounted v := by
  refine hp.imp_left ?_
  rintro ⟨w, hw, hin⟩
  refine ⟨w, hw, Set.Ico_subset_Ico hin.1 ?_⟩
  obtain ⟨i, hi⟩ := hv
  obtain ⟨j, hj⟩ := (h.vmasOk.sane w hw).end_dvd
  have hlt : v < w.end_ := hin.2
  rw [hi, hj] at hlt ⊢
  have hij : i + 1 ≤ j := Nat.lt_of_mul_lt_mul_left hlt
  calc p.memState.pageBytes * i + p.memState.pageBytes
      = p.memState.pageBytes * (i + 1) := by ring
    _ ≤ p.memState.pageBytes * j := Nat.mul_le_mul_left _ hij

end Process

namespace Traced

/-- What a run of careful calls keeps. -/
structure Inv (t : Traced) : Prop where
  sound : t.process.Sound
  created : ∀ v ∈ t.created, t.process.memState.pageBytes ∣ v ∧ t.process.Placed v

variable {a : Process.Answer}

theorem step_inv {t t' : Traced} {o : Process.Op} (hI : t.Inv) (hcare : t.Careful o)
    (h : t.step o = .ok (a, t')) : t'.Inv := by
  obtain ⟨⟨b, p'⟩, hp, h⟩ := bind_eq_ok.1 h
  cases h
  have htr := Process.step_tracks hI.sound hcare hp
  refine ⟨htr.sound, ?_⟩
  rintro v ⟨hne, hv⟩
  rw [htr.pageBytes]
  by_cases hch : p'.pTable.pTable v = t.process.pTable.pTable v
  · obtain ⟨hdvd, hplaced⟩ := hI.created v (hv.resolve_right fun h => h hch)
    exact ⟨hdvd, htr.kept v hdvd hplaced hne hch⟩
  · exact htr.new v hne hch

theorem step_eq {p p' : Process} {o : Process.Op} (g : Set ℕ) (h : p.step o = .ok (a, p')) :
    step ⟨p, g⟩ o = .ok (a, ⟨p', pages p p' g⟩) := by
  unfold step
  rw [h]
  rfl

theorem Inv.inOrder {t : Traced} (h : t.Inv) : t.InOrder :=
  ⟨h.sound.vmasOk, fun v hv => (h.created v hv).2.accounted h.sound (h.created v hv).1⟩

end Traced

/-- Along careful calls the areas stay non-empty, page-aligned and pairwise disjoint, and every page
the calls have mapped lies in an area or in the stack region. -/
theorem address_space_in_order {p : Process} (hu : p.Uniform)
    (hok : VmasOk p.memState.pageBytes p.memState.vmaList)
    (hmin : p.memState.stackMin ≤ p.memState.stackBase) (hbase : p.memState.stackBase < 2 ^ 64)
    {ops : List Process.Op} {as : List Process.Answer} {t : Traced}
    (hcare : Along Traced.step Traced.Careful ⟨p, ∅⟩ ops)
    (hrun : run Traced.step ⟨p, ∅⟩ ops = .ok (as, t)) : t.InOrder := by
  have h0 : Traced.Inv ⟨p, ∅⟩ :=
    ⟨⟨hu, hok, hmin, hbase⟩, fun v hv => absurd hv (Set.notMem_empty v)⟩
  exact (run_inv (I := Traced.Inv) (fun t o a t' hI hc h => Traced.step_inv hI hc h) h0 hcare
    hrun).inOrder

section Blank

variable (pm : PhysicalMemory)

/-- `blankProcess` with a page mapped by `mmap` under the end of its region. -/
def mappedProcess : Process :=
  (blankProcess pm).setMemState { (blankProcess pm).memState with
    mmapEnd := 0x7efff000
    vmaList := [⟨0x7efff000, 0x7f000000, "anon", none⟩] }

/-- An anonymous private mapping of a page, anywhere. -/
def mapPageOp : Process.Op := .mmap 0 0x1000 ⟨true, false, true, false⟩ none 0

theorem blankProcess_mmap : (blankProcess pm).step mapPageOp
    = .ok (.syscall (.value 0x7efff000), mappedProcess pm) := by
  cbv

/-- `p` with its first physical page at `v`. -/
def withPage (p : Process) (v : ℕ) : Process :=
  { p with system := sysAt pm 1 0, pTable := (EmulationPageTable.new 4096).set v ⟨0, 0⟩ }

end Blank

theorem mappedProcess_fault (pm : PhysicalMemory) :
    (mappedProcess (wide pm)).step (.fault 0x7efff123) =
      .ok (.fixed true, withPage (wide pm) (mappedProcess (wide pm)) 0x7efff000) := by
  cbv

/-- A page moved to a fixed address. -/
def moveOp : Process.Op := .mremap 0x7efff000 0x1000 0x1000 ⟨true, true⟩ 0x60000000

/-- `mappedProcess` once its page has been touched and moved. -/
def relocatedProcess (pm : PhysicalMemory) : Process :=
  { mappedProcess pm with
    memState := { (mappedProcess pm).memState with
      vmaList := [⟨0x60000000, 0x60001000, "anon", none⟩] }
    system := sysAt pm 1 0
    pTable := (((EmulationPageTable.new 4096).set 0x7efff000 ⟨0, 0⟩).set 0x60000000 ⟨0, 0⟩).erase
      0x7efff000 }

/-- A page that is mapped, touched and moved. -/
theorem address_space_in_order_moved : ∃ pm as t, System.new wideParams = .ok (sysAt pm 0 0) ∧
    run Traced.step ⟨blankProcess pm, ∅⟩ [mapPageOp, .fault 0x7efff123, moveOp] = .ok (as, t) ∧
    0x60000000 ∈ t.created ∧ t.InOrder := by
  obtain ⟨pm, hpm⟩ := new_wideParams
  have hmove : (withPage (wide pm) (mappedProcess (wide pm)) 0x7efff000).step moveOp =
      .ok (.syscall (.value 0x60000000), relocatedProcess (wide pm)) := by
    cbv
  have h₁ := Traced.step_eq ∅ (blankProcess_mmap (wide pm))
  have h₂ := fun g => Traced.step_eq g (mappedProcess_fault pm)
  have h₃ := fun g => Traced.step_eq g hmove
  have hrun := run_cons h₁ (run_cons (h₂ _) (run_cons (h₃ _) (run_nil _)))
  refine ⟨_, _, _, hpm, hrun, ⟨Option.some_ne_none _, .inr (Option.some_ne_none _)⟩, ?_⟩
  refine address_space_in_order (blankProcess_uniform _) vmasOk_nil
    (show usub 0x7fff0000 0x10000 ≤ 0x7fff0000 by decide) (show 0x7fff0000 < 2 ^ 64 by decide)
    ?_ hrun
  refine (along_cons h₁).2 ⟨trivial, (along_cons (h₂ _)).2 ⟨trivial, (along_cons (h₃ _)).2
    ⟨fun _ _ => ?_, trivial⟩⟩⟩
  have hround : roundUp 0x1000 4096 = 0x1000 := by decide
  have hclean : (withPage (wide pm) (mappedProcess (wide pm)) 0x7efff000).MovesCleanly
      0x7efff000 0x60000000 (roundUp 0x1000 4096) := by
    rw [hround]
    refine ⟨by decide, by decide, by decide, by decide,
      fun v hv _ => ⟨_, List.mem_singleton_self _, hv⟩, ?_⟩
    rintro a ⟨-, ha⟩ - ⟨v, hv, hin⟩
    cases List.mem_singleton.1 hv
    have hlo : 0x7efff000 ≤ a - 0x7efff000 + 0x60000000 := hin.1
    omega
  exact (iff_of_eq (if_neg (show ¬ roundUp 0x1000 4096 > 0x1000 by decide))).2
    ⟨fun _ => hclean, fun h => absurd hround h⟩

/-- `mappedProcess` once its region has been moved to make room for a second page. -/
def movedProcess (pm : PhysicalMemory) : Process :=
  { withPage pm (mappedProcess pm) 0x7effe000 with
    memState := { (mappedProcess pm).memState with
      mmapEnd := 0x7effd000
      vmaList := [⟨0x7effd000, 0x7effe000, "anon", none⟩] } }

/-- A region of a page grown to two, wherever there is room. -/
def growOp : Process.Op := .mremap 0x7efff000 0x1000 0x2000 ⟨true, false⟩ 0

/-- A region that is moved to grow: its second page is mapped, but no area has it. -/
theorem address_space_mremap_unaccounted :
    ∃ pm as t, System.new wideParams = .ok (sysAt pm 0 0) ∧
      run Traced.step ⟨blankProcess pm, ∅⟩ [mapPageOp, growOp] = .ok (as, t) ∧ ¬ t.InOrder := by
  obtain ⟨pm, hpm⟩ := new_wideParams
  have hgrow : (mappedProcess (wide pm)).step growOp =
      .ok (.syscall (.value 0x7effd000), movedProcess (wide pm)) := by
    cbv
  have h₁ := Traced.step_eq ∅ (blankProcess_mmap (wide pm))
  have h₂ := Traced.step_eq (Traced.pages (blankProcess (wide pm)) (mappedProcess (wide pm)) ∅)
    hgrow
  refine ⟨_, _, _, hpm, run_cons h₁ (run_cons h₂ (run_nil _)), ?_⟩
  rintro ⟨-, hpages⟩
  rcases hpages 0x7effe000 ⟨Option.some_ne_none _, .inr (Option.some_ne_none _)⟩ with
    ⟨w, hw, hsub⟩ | ⟨a, ha, hstack⟩
  · obtain rfl : w = ⟨0x7effd000, 0x7effe000, "anon", none⟩ := List.mem_singleton.1 hw
    have hlt : 0x7effe000 < 0x7effe000 :=
      (hsub (show 0x7effe000 ∈ Set.Ico 0x7effe000 (0x7effe000 + 4096) by simp)).2
    exact absurd hlt (lt_irrefl _)
  · have hlo : usub 0x7fff0000 0x10000 ≤ a := hstack.1
    have hhi : a < 0x7effe000 + 4096 := ha.2
    rw [show usub 0x7fff0000 0x10000 = 0x7ffe0000 by decide] at hlo
    omega

end Gem5Nvm
