import Gem5Nvm.DictionaryCompressor

/-!
# Dictionary accesses and sizes of compressed lines

The search of `compressValue` reads valid entries only and settles on a smallest pattern (`Chosen`).
A pattern that no entry took part in has the location `-1`, which `decompressValue` takes for entry
255.  The size of a line, modulo a byte, comes from the sizes of the pattern classes.
-/

namespace Gem5Nvm.Compressor

open Sim (bind_eq_ok ok_bind pure_eq)
open List (length_cons mem_cons_of_mem mem_cons_self range replicate)
open Run (run run_cons_eq_ok)
open Matcher (isPattern masked)

variable {w : ℕ} {c : DictionaryCompressor w} {d d' : Dictionary w} {bytes : BitVec w}
  {p : Pattern w} {i k : ℕ}

/-! ## The dictionary -/

namespace Dictionary

def valid (d : Dictionary w) : List (BitVec w) := d.dictionary.take d.numEntries

theorem read_eq_ok_iff : (∃ e, d.read i = .ok e) ↔ i < d.size := by
  rw [read, size]
  rcases h : d.dictionary[i]? with _ | e
  · simpa using h
  · exact ⟨fun _ => (List.getElem?_eq_some_iff.1 h).1, fun _ => ⟨e, rfl⟩⟩

theorem read_valid (hd : d.numEntries ≤ d.size) (hi : i < d.numEntries) :
    ∃ e ∈ d.valid, d.read i = .ok e ∧ d.valid[i]? = some e := by
  have hlt : i < d.dictionary.length := lt_of_lt_of_le hi hd
  have hget : d.valid[i]? = some (d.dictionary[i]) := by
    rw [valid, List.getElem?_take_of_lt hi, List.getElem?_eq_getElem hlt]
  exact ⟨_, List.mem_of_getElem? hget, by rw [read, List.getElem?_eq_getElem hlt], hget⟩

theorem length_valid (hd : d.numEntries ≤ d.size) : d.valid.length = d.numEntries := by
  rw [valid, List.length_take]
  exact Nat.min_eq_left hd

theorem write_eq_ok (hi : i < d.size) :
    d.write i bytes = .ok { d with dictionary := d.dictionary.set i bytes } := if_pos hi

/-- A new entry comes after the valid ones. -/
structure Pushed (d : Dictionary w) (bytes : BitVec w) (d' : Dictionary w) : Prop where
  size : d'.size = d.size
  numEntries : d'.numEntries = d.numEntries + 1
  valid : d'.valid = d.valid ++ [bytes]

theorem push_ok (d : Dictionary w) (bytes : BitVec w) (h : d.numEntries < d.size) :
    ∃ d', d.push bytes = .ok d' ∧ d.Pushed bytes d' := by
  refine ⟨⟨d.dictionary.set d.numEntries bytes, d.numEntries + 1⟩, ?_, ?_, rfl, ?_⟩
  · rw [push, assert, if_pos (decide_eq_true h), ok_bind, write_eq_ok h, ok_bind]
    rfl
  · exact List.length_set
  · rw [valid, valid, List.take_add_one, List.getElem?_set_self h, List.take_set_of_le le_rfl]
    rfl

end Dictionary

/-! ## The choice of a pattern -/

open DictionaryCompressor

/-- What the search of `compressValue` settles on. -/
structure Chosen (c : DictionaryCompressor w) (d : Dictionary w) (n : ℕ) (bytes : BitVec w)
    (p : Pattern w) : Prop where
  origin : p = c.getPattern bytes 0 (-1) ∨
    ∃ i e, i < n ∧ d.valid[i]? = some e ∧ p = c.getPattern bytes e i
  le_noMatch : p.getSizeBits ≤ (c.getPattern bytes 0 (-1)).getSizeBits
  le_entry : ∀ i e, i < n → d.valid[i]? = some e →
    p.getSizeBits ≤ (c.getPattern bytes e i).getSizeBits
  eq_of_noMatch : p.getSizeBits = (c.getPattern bytes 0 (-1)).getSizeBits →
    p = c.getPattern bytes 0 (-1)

variable {D n : ℕ}

theorem improve_ok (hd : d.numEntries ≤ d.size) (hn : n < d.numEntries) (h : Chosen c d n bytes p) :
    ∃ p', c.improve d bytes p n = .ok p' ∧ Chosen c d (n + 1) bytes p' := by
  obtain ⟨e, -, hread, hget⟩ := Dictionary.read_valid hd hn
  rw [improve, hread, ok_bind]
  dsimp only
  have hcases : ∀ {i e'}, i < n + 1 → d.valid[i]? = some e' → i < n ∨ i = n ∧ e' = e := by
    intro i e' hi hi'
    rcases Nat.lt_succ_iff_lt_or_eq.1 hi with hi | rfl
    · exact .inl hi
    · exact .inr ⟨rfl, Option.some.inj (hi'.symm.trans hget)⟩
  split_ifs with hlt
  · refine ⟨_, rfl, .inr ⟨n, e, Nat.lt_succ_self n, hget, rfl⟩, hlt.le.trans h.le_noMatch, ?_, ?_⟩
    · intro i e' hi hi'
      rcases hcases hi hi' with hi | ⟨rfl, rfl⟩
      · exact hlt.le.trans (h.le_entry i e' hi hi')
      · exact le_rfl
    · exact fun heq => absurd (heq ▸ hlt) (not_lt.2 h.le_noMatch)
  · refine ⟨_, rfl, ?_, h.le_noMatch, ?_, h.eq_of_noMatch⟩
    · rcases h.origin with h | ⟨i, e', hi, h⟩
      · exact .inl h
      · exact .inr ⟨i, e', hi.trans (Nat.lt_succ_self n), h⟩
    · intro i e' hi hi'
      rcases hcases hi hi' with hi | ⟨rfl, rfl⟩
      · exact h.le_entry i e' hi hi'
      · exact not_lt.1 hlt

theorem search_ok (c : DictionaryCompressor w) (bytes : BitVec w) (hd : d.numEntries ≤ d.size) :
    ∃ p, (range d.numEntries).foldlM (c.improve d bytes) (c.getPattern bytes 0 (-1)) = .ok p ∧
      Chosen c d d.numEntries bytes p := by
  suffices h : ∀ n ≤ d.numEntries, ∃ p, (range n).foldlM (c.improve d bytes)
      (c.getPattern bytes 0 (-1)) = .ok p ∧ Chosen c d n bytes p from h _ le_rfl
  intro n hn
  induction n with
  | zero => exact ⟨_, rfl, .inl rfl, le_rfl, fun i e hi => by omega, fun _ => rfl⟩
  | succ n ih =>
    obtain ⟨p, hrun, hp⟩ := ih (by omega)
    obtain ⟨p', himprove, hp'⟩ := improve_ok hd hn hp
    refine ⟨p', ?_, hp'⟩
    rw [List.range_succ, List.foldlM_append, hrun]
    simp only [List.foldlM_cons, List.foldlM_nil, ok_bind, himprove]
    rfl

/-- The pattern of a word and the dictionary after it. -/
structure Steps (c : DictionaryCompressor w) (d : Dictionary w) (bytes : BitVec w) (p : Pattern w)
    (d' : Dictionary w) : Prop where
  chosen : Chosen c d d.numEntries bytes p
  keeps : p.shouldAllocate = false → d' = d
  adds : p.shouldAllocate = true → c.addToDictionary d bytes = .ok d'

theorem compressValue_steps (hd : d.numEntries ≤ d.size)
    (h : c.compressValue d bytes = .ok (p, d')) : Steps c d bytes p d' := by
  obtain ⟨q, hsearch, hq⟩ := search_ok c bytes hd
  rw [compressValue, hsearch, ok_bind] at h
  rcases halloc : q.shouldAllocate with _ | _
  · rw [halloc] at h
    obtain ⟨rfl, rfl⟩ := Prod.mk.inj (Except.ok.inj h)
    exact ⟨hq, fun _ => rfl, fun h => absurd (halloc.symm.trans h) (by decide)⟩
  · rw [halloc, if_pos rfl] at h
    obtain ⟨d₁, hadd, h⟩ := bind_eq_ok.1 h
    obtain ⟨rfl, rfl⟩ := Prod.mk.inj (Except.ok.inj h)
    exact ⟨hq, fun h => absurd (halloc.symm.trans h) (by decide), fun _ => hadd⟩

/-- The dictionary stays within its bounds while `R` has words left. -/
structure Roomy (c : DictionaryCompressor w) (R : ℕ → Dictionary w → Prop) : Prop where
  le : ∀ {k d}, R k d → d.numEntries ≤ d.size
  weaken : ∀ {k d}, R (k + 1) d → R k d
  add : ∀ {k d}, R (k + 1) d → ∀ bytes, ∃ d', c.addToDictionary d bytes = .ok d' ∧ R k d' ∧
    d'.size = d.size

theorem push_roomy (hc : c.addToDictionary = Dictionary.push) :
    Roomy c fun k d => d.numEntries + k ≤ d.size where
  le h := by omega
  weaken h := by omega
  add {k d} h bytes := by
    obtain ⟨d', hpush, hpushed⟩ := d.push_ok bytes (by omega)
    refine ⟨d', by rw [hc, hpush], ?_, hpushed.size⟩
    rw [hpushed.size, hpushed.numEntries]
    omega

theorem fpcd_roomy : Roomy fpcd fun _ d => d.numEntries ≤ 2 ∧ 2 ≤ d.size where
  le h := h.1.trans h.2
  weaken h := h
  add {k d} h bytes := by
    obtain ⟨hle, hsize⟩ := h
    by_cases hfull : d.numEntries = 2
    · obtain ⟨e, he⟩ := Dictionary.read_eq_ok_iff.2 (show 1 < d.size by omega)
      refine ⟨⟨(d.dictionary.set 0 e).set 1 bytes, d.numEntries⟩, ?_, ⟨hle, ?_⟩, ?_⟩
      · show FPCD.addToDictionary d bytes = _
        rw [FPCD.addToDictionary, if_pos hfull, FPCD.previousIndex, he, ok_bind,
          FPCD.penultimateIndex, Dictionary.write_eq_ok (by omega), ok_bind,
          Dictionary.write_eq_ok]
        simp only [Dictionary.size, List.length_set] at hsize ⊢
        omega
      · simpa [Dictionary.size] using hsize
      · simp [Dictionary.size]
    · refine ⟨⟨d.dictionary.set d.numEntries bytes, d.numEntries + 1⟩, ?_, ⟨?_, ?_⟩, ?_⟩
      · show FPCD.addToDictionary d bytes = _
        rw [FPCD.addToDictionary, if_neg hfull, Dictionary.write_eq_ok (by omega)]
        rfl
      · show d.numEntries + 1 ≤ 2
        omega
      · simpa [Dictionary.size] using hsize
      · simp [Dictionary.size]

section Room

variable {R : ℕ → Dictionary w → Prop} (hR : Roomy c R)

include hR

theorem compressValue_ok (h : R (k + 1) d) (bytes : BitVec w) :
    ∃ p d', c.compressValue d bytes = .ok (p, d') ∧ R k d' ∧ d'.size = d.size := by
  obtain ⟨p, hsearch, -⟩ := search_ok c bytes (hR.le h)
  rw [compressValue, hsearch, ok_bind]
  split_ifs
  · obtain ⟨d', hadd, hd'⟩ := hR.add h bytes
    exact ⟨p, d', by rw [hadd]; rfl, hd'⟩
  · exact ⟨p, d, rfl, hR.weaken h, rfl⟩

variable {chunks : List (BitVec w)}

theorem run_compressValue (h : R chunks.length d) :
    ∃ ps d', run c.compressValue d chunks = .ok (ps, d') ∧ R 0 d' ∧ ps.length = chunks.length ∧
      ∀ p ∈ ps, p.cls ∈ c.uncompressed :: c.factory ∧
        (p.matchLocation = -1 ∨ 0 ≤ p.matchLocation ∧ p.matchLocation < d.size) := by
  induction chunks generalizing d with
  | nil => exact ⟨[], d, rfl, h, rfl, fun p hp => by cases hp⟩
  | cons bytes chunks ih =>
    obtain ⟨p, d₁, hstep, hd₁, hsize⟩ := compressValue_ok hR h bytes
    obtain ⟨ps, d', hrun, hd', hlen, hps⟩ := ih hd₁
    refine ⟨p :: ps, d', Run.run_cons hstep hrun, hd', by simp [hlen], ?_⟩
    rintro q (_ | ⟨_, hq⟩)
    · have hcls : ∀ e l, (c.getPattern bytes e l).cls ∈ c.uncompressed :: c.factory := by
        intro e l
        rw [getPattern]
        dsimp only
        rcases hfind : c.factory.find? _ with _ | cls
        · exact mem_cons_self
        · exact mem_cons_of_mem _ (List.mem_of_find?_eq_some hfind)
      have hle := hR.le h
      rcases (compressValue_steps hle hstep).chosen.origin with rfl | ⟨i, e, hi, -, rfl⟩
      · exact ⟨hcls _ _, .inl rfl⟩
      · refine ⟨hcls _ _, .inr ⟨?_, ?_⟩⟩
        · simp [getPattern]
        · simp only [getPattern]
          omega
    · rw [← hsize]
      exact hps q hq

theorem run_decompressValue {ps : List (Pattern w)} (h : R ps.length d) :
    (∃ values d', run c.decompressValue d ps = .ok (values, d') ∧ values.length = ps.length) ↔
      ∀ p ∈ ps, p.getMatchLocation < d.size := by
  induction ps generalizing d with
  | nil => exact ⟨fun _ p hp => absurd hp List.not_mem_nil, fun _ => ⟨[], d, rfl, rfl⟩⟩
  | cons p ps ih =>
    have hstep : ∀ e, d.read p.getMatchLocation = .ok e → ∃ v d₁,
        c.decompressValue d p = .ok (v, d₁) ∧ R ps.length d₁ ∧ d₁.size = d.size := by
      intro e he
      rw [decompressValue, he, ok_bind]
      dsimp only
      split_ifs
      · obtain ⟨d₁, hadd, hd₁⟩ := hR.add h (p.decompress e)
        exact ⟨_, d₁, by rw [hadd]; rfl, hd₁⟩
      · exact ⟨_, d, rfl, hR.weaken h, rfl⟩
    constructor
    · rintro ⟨values, d', hrun, hlen⟩
      obtain ⟨v, d₁, vs, hv, hvs, rfl⟩ := run_cons_eq_ok.1 hrun
      obtain ⟨e, he, -⟩ := bind_eq_ok.1 hv
      obtain ⟨v', d₁', hv', hd₁, hsize⟩ := hstep e he
      obtain ⟨rfl, rfl⟩ := Prod.mk.inj (Except.ok.inj (hv.symm.trans hv'))
      have hrest := (ih hd₁).1 ⟨vs, d', hvs, by simpa using hlen⟩
      rintro q (_ | ⟨_, hq⟩)
      · exact Dictionary.read_eq_ok_iff.1 ⟨e, he⟩
      · exact hsize ▸ hrest q hq
    · intro hlt
      obtain ⟨e, he⟩ := Dictionary.read_eq_ok_iff.2 (hlt p mem_cons_self)
      obtain ⟨v, d₁, hv, hd₁, hsize⟩ := hstep e he
      obtain ⟨vs, d', hvs, hlen⟩ := (ih hd₁).2 fun q hq => hsize ▸ hlt q (mem_cons_of_mem _ hq)
      exact ⟨v :: vs, d', Run.run_cons hv hvs, by simp [hlen]⟩

end Room

/-! ## Lines -/

def bitsOf (ps : List (Pattern w)) : ℕ := (ps.map Pattern.getSizeBits).sum

theorem foldl_addEntry (ps : List (Pattern w)) (data : CompData w) :
    ps.foldl CompData.addEntry data = ⟨data.entries ++ ps, data.sizeBits + bitsOf ps⟩ := by
  induction ps generalizing data with
  | nil => simp [bitsOf]
  | cons p ps ih =>
    rw [List.foldl_cons, ih]
    simp [CompData.addEntry, CompData.getSizeBits, bitsOf, Nat.add_assoc]

variable {ps : List (Pattern w)}

theorem bitsOf_mod {r : ℕ} (h : ∀ p ∈ ps, p.getSizeBits % 8 = r) :
    bitsOf ps % 8 = r * ps.length % 8 := by
  induction ps with
  | nil => rfl
  | cons p ps ih =>
    have hp := h p mem_cons_self
    have hps := ih fun q hq => h q (mem_cons_of_mem _ hq)
    have hsum : bitsOf (p :: ps) = p.getSizeBits + bitsOf ps := by simp [bitsOf]
    rw [hsum, length_cons, Nat.mul_succ]
    omega

theorem getMatchLocation_lt_iff
    (h : p.matchLocation = -1 ∨ 0 ≤ p.matchLocation ∧ p.matchLocation < D) :
    p.getMatchLocation < D ↔ (p.matchLocation = -1 → 256 ≤ D) := by
  rw [Pattern.getMatchLocation]
  omega

theorem foldlM_ok {f : BitVec 64 → ℕ → Sim (BitVec 64)} {js : List ℕ}
    (h : ∀ j ∈ js, ∀ word, ∃ word', f word j = .ok word') (word : BitVec 64) :
    ∃ word', js.foldlM f word = .ok word' := by
  induction js generalizing word with
  | nil => exact ⟨word, rfl⟩
  | cons j js ih =>
    obtain ⟨word₁, h₁⟩ := h j mem_cons_self word
    rw [List.foldlM_cons, h₁]
    exact ih (fun j hj => h j (mem_cons_of_mem _ hj)) word₁

theorem concatenate_ok (values : List (BitVec w)) (h : 64 / w * (i + 1) ≤ values.length) :
    ∃ word, concatenate values i = .ok word := by
  rw [concatenate]
  refine foldlM_ok (fun j hj word => ?_) 0
  have hlt : 64 / w * i + j < values.length := by
    rw [Nat.mul_succ] at h
    have hj : j < 64 / w := by simpa using hj
    omega
  rw [List.getElem?_eq_getElem hlt]
  exact ⟨_, rfl⟩

theorem concatenate_all (values : List (BitVec w)) (h : 64 / w * n ≤ values.length) :
    ∃ line, (range n).mapM (concatenate values) = .ok line := by
  suffices hall : ∀ is : List ℕ, (∀ i ∈ is, i < n) → ∃ line,
      is.mapM (concatenate values) = .ok line from hall _ fun i hi => List.mem_range.1 hi
  intro is
  induction is with
  | nil => exact fun _ => ⟨[], rfl⟩
  | cons i is ih =>
    intro his
    have hi := his i mem_cons_self
    obtain ⟨word, hword⟩ := concatenate_ok values (i := i)
      ((Nat.mul_le_mul_left _ hi).trans h)
    obtain ⟨line, hline⟩ := ih fun i hi => his i (mem_cons_of_mem _ hi)
    refine ⟨word :: line, ?_⟩
    rw [List.mapM_cons, hword, ok_bind, hline]
    rfl

theorem le_eight_mul_div_iff : n ≤ 8 * (n / 8) ↔ 8 ∣ n := by
  omega

variable {R : ℕ → Dictionary w → Prop}

theorem sound_iff_of_run (hR : Roomy c R) (hreset : c.resetDictionary D = .ok d)
    (hsize : d.size = D) (hroom : R chunks.length d)
    (hrun : run c.compressValue d chunks = .ok (ps, d'))
    (hreport : c.report (chunks.length * (w / 8)) d'.numEntries (bitsOf ps) = .ok n)
    (hw : w = 16 ∨ w = 32 ∨ w = 64) :
    c.Sound D chunks ↔ (∀ p ∈ ps, p.matchLocation = -1 → 256 ≤ D) ∧ 8 ∣ n := by
  have hwords : 64 / w * (chunks.length * (w / 8) / 8) ≤ chunks.length := by
    rcases hw with rfl | rfl | rfl <;> omega
  rw [Sound]
  set blkSize := chunks.length * (w / 8)
  obtain ⟨ps', d'', hrun', -, hlen, hps⟩ := run_compressValue hR hroom
  obtain ⟨rfl, rfl⟩ := Prod.mk.inj (Except.ok.inj (hrun.symm.trans hrun'))
  have hcompress : c.compress D blkSize chunks = .ok ⟨ps, n⟩ := by
    rw [compress, hreset, ok_bind, hrun, ok_bind]
    simp only [foldl_addEntry, CompData.getSizeBits, List.nil_append, Nat.zero_add, hreport,
      ok_bind, pure_eq]
  have hdecompress : (∃ line, c.decompress D blkSize ⟨ps, n⟩ = .ok line) ↔
      ∀ p ∈ ps, p.getMatchLocation < d.size := by
    rw [← run_decompressValue hR (hlen ▸ hroom)]
    constructor
    · rintro ⟨line, hline⟩
      rw [decompress, hreset, ok_bind] at hline
      obtain ⟨⟨values, d₁⟩, hvalues, -⟩ := bind_eq_ok.1 hline
      exact ⟨values, d₁, hvalues, Run.length_of_run hvalues⟩
    · rintro ⟨values, d₁, hvalues, hlength⟩
      obtain ⟨line, hline⟩ := concatenate_all values (n := blkSize / 8)
        (by rw [hlength, hlen]; exact hwords)
      refine ⟨line, ?_⟩
      rw [decompress, hreset, ok_bind, hvalues, ok_bind]
      exact hline
  have hlocations : (∀ p ∈ ps, p.getMatchLocation < d.size) ↔
      ∀ p ∈ ps, p.matchLocation = -1 → 256 ≤ D := by
    refine forall₂_congr fun p hp => ?_
    rw [getMatchLocation_lt_iff (hps p hp).2, hsize]
  rw [← hlocations, ← hdecompress, hcompress]
  constructor
  · rintro ⟨data, line, hdata, hline, hbytes⟩
    obtain rfl := Except.ok.inj hdata
    exact ⟨⟨line, hline⟩, le_eight_mul_div_iff.1 hbytes⟩
  · rintro ⟨⟨line, hline⟩, hdvd⟩
    exact ⟨_, line, rfl, hline, le_eight_mul_div_iff.2 hdvd⟩

/-! ## Starting dictionaries -/

theorem reset_of_zeroBase_eq_false (hc : c.zeroBase = false) (D : ℕ) :
    ∃ d, c.resetDictionary D = .ok d ∧ d.size = D ∧ d.numEntries = 0 ∧ d.valid = [] := by
  refine ⟨⟨replicate D 0, 0⟩, ?_, List.length_replicate, rfl, rfl⟩
  rw [resetDictionary, hc]
  rfl

theorem exists_noMatch (hd : d.numEntries = 0) (hne : chunks ≠ [])
    (hrun : run c.compressValue d chunks = .ok (ps, d')) : ∃ p ∈ ps, p.matchLocation = -1 := by
  obtain ⟨bytes, chunks, rfl⟩ := List.exists_cons_of_ne_nil hne
  obtain ⟨p, d₁, ps, hstep, -, rfl⟩ := run_cons_eq_ok.1 hrun
  refine ⟨p, mem_cons_self, ?_⟩
  rcases (compressValue_steps (by omega) hstep).chosen.origin with rfl | ⟨i, e, hi, -⟩
  · rfl
  · omega

theorem noMatch_iff (hd : d.numEntries = 0) (hne : chunks ≠ [])
    (hrun : run c.compressValue d chunks = .ok (ps, d')) {P : Prop} :
    (∀ p ∈ ps, p.matchLocation = -1 → P) ↔ P := by
  obtain ⟨p, hp, hloc⟩ := exists_noMatch hd hne hrun
  exact ⟨fun h => h p hp hloc, fun h _ _ _ => h⟩

theorem bitsOf_mod_of_run (hR : Roomy c R) {r : ℕ}
    (hc : ∀ cls ∈ c.uncompressed :: c.factory, cls.sizeBits % 8 = r) (hroom : R chunks.length d)
    (hrun : run c.compressValue d chunks = .ok (ps, d')) :
    bitsOf ps % 8 = r * chunks.length % 8 := by
  obtain ⟨ps', d'', hrun', -, hlen, hps⟩ := run_compressValue hR hroom
  obtain ⟨rfl, rfl⟩ := Prod.mk.inj (Except.ok.inj (hrun.symm.trans hrun'))
  rw [← hlen]
  exact bitsOf_mod fun p hp => hc _ (hps p hp).1

/-! ## Bases and deltas -/

namespace BaseDelta

variable {b : ℕ} {E : List (BitVec w)} {chunks : List (BitVec w)}

theorem getPattern_noMatch :
    (baseDelta w b).getPattern bytes 0 (-1) = ⟨patternX w b, -1, bytes⟩ := by
  simp [getPattern, baseDelta, patternM, isPattern]

theorem getPattern_entry {e : BitVec w} : (baseDelta w b).getPattern bytes e i
    = ⟨if isValidDelta b bytes e then patternM w b else patternX w b, i, bytes⟩ := by
  by_cases h : isValidDelta b bytes e <;>
    simp [getPattern, baseDelta, patternM, isPattern, h]

theorem steps_cases (hsize : (patternM w b).sizeBits < (patternX w b).sizeBits)
    (hd : d.numEntries ≤ d.size) (h : Steps (baseDelta w b) d bytes p d') :
    (∃ e ∈ d.valid, isValidDelta b bytes e = true) ∧ d' = d ∧ p.matchLocation ≠ -1 ∨
      (¬ ∃ e ∈ d.valid, isValidDelta b bytes e = true) ∧ d.push bytes = .ok d' ∧
        p.matchLocation = -1 := by
  have hnone : ((baseDelta w b).getPattern bytes 0 (-1)).getSizeBits = (patternX w b).sizeBits := by
    rw [getPattern_noMatch]
    rfl
  by_cases hnear : ∃ e ∈ d.valid, isValidDelta b bytes e = true
  · refine .inl ⟨hnear, ?_⟩
    obtain ⟨e, he, hvalid⟩ := hnear
    obtain ⟨i, hi⟩ := List.mem_iff_getElem?.1 he
    have hlt : i < d.numEntries := by
      rw [← Dictionary.length_valid hd]
      exact (List.getElem?_eq_some_iff.1 hi).1
    have hle := h.chosen.le_entry i e hlt hi
    rw [getPattern_entry, hvalid] at hle
    have hp : p.getSizeBits < (patternX w b).sizeBits := hle.trans_lt hsize
    rcases h.chosen.origin with rfl | ⟨j, e', -, -, rfl⟩
    · exact absurd hnone hp.ne
    · rw [getPattern_entry] at h hp ⊢
      by_cases hvalid' : isValidDelta b bytes e' = true
      · rw [if_pos hvalid'] at h ⊢
        refine ⟨h.keeps rfl, ?_⟩
        dsimp only
        omega
      · rw [if_neg hvalid'] at hp
        exact absurd rfl hp.ne
  · refine .inr ⟨hnear, ?_⟩
    have hp : p = ⟨patternX w b, -1, bytes⟩ := by
      rw [← getPattern_noMatch]
      apply h.chosen.eq_of_noMatch
      rcases h.chosen.origin with rfl | ⟨j, e, -, he, rfl⟩
      · rfl
      · rw [getPattern_entry, if_neg fun hv => hnear ⟨e, List.mem_of_getElem? he, hv⟩, hnone]
        rfl
    subst hp
    exact ⟨h.adds rfl, rfl⟩

/-- The bases once some words have been compressed. -/
def bases (b : ℕ) : List (BitVec w) → List (BitVec w) → List (BitVec w)
  | E, [] => E
  | E, c :: cs => if ∃ e ∈ E, isValidDelta b c e = true then bases b E cs else bases b (E ++ [c]) cs

theorem prefix_bases (chunks : List (BitVec w)) : E <+: bases b E chunks := by
  induction chunks generalizing E with
  | nil => exact List.prefix_rfl
  | cons c cs ih =>
    rw [bases]
    split_ifs
    · exact ih
    · exact (List.prefix_append E [c]).trans ih

theorem bases_append_ne {c : BitVec w} : bases b (E ++ [c]) chunks ≠ E := by
  intro h
  have hle := (prefix_bases (b := b) (E := E ++ [c]) chunks).length_le
  rw [h] at hle
  simp at hle

theorem bases_eq_iff : bases b E chunks = E ↔ ∀ c ∈ chunks, ∃ e ∈ E, isValidDelta b c e = true := by
  induction chunks with
  | nil => simp [bases]
  | cons c cs ih =>
    rw [bases]
    split_ifs with hc
    · rw [ih]
      constructor
      · rintro h _ (_ | ⟨_, hx⟩)
        · exact hc
        · exact h _ hx
      · exact fun h x hx => h x (mem_cons_of_mem _ hx)
    · exact ⟨fun h => absurd h bases_append_ne, fun h => absurd (h c mem_cons_self) hc⟩

theorem run_bases (hsize : (patternM w b).sizeBits < (patternX w b).sizeBits)
    (hd : d.numEntries + chunks.length ≤ d.size) {ps : List (Pattern w)}
    (hrun : run (baseDelta w b).compressValue d chunks = .ok (ps, d')) :
    d'.valid = bases b d.valid chunks ∧ d'.numEntries ≤ d'.size ∧
      ((∀ p ∈ ps, p.matchLocation ≠ -1) ↔ bases b d.valid chunks = d.valid) := by
  induction chunks generalizing d ps with
  | nil =>
    obtain ⟨rfl, rfl⟩ := Prod.mk.inj (Except.ok.inj hrun)
    refine ⟨rfl, by omega, ?_⟩
    simp [bases]
  | cons c cs ih =>
    rw [length_cons] at hd
    obtain ⟨p, d₁, ps, hstep, hrest, rfl⟩ := run_cons_eq_ok.1 hrun
    rw [bases]
    rcases steps_cases hsize (by omega) (compressValue_steps (by omega) hstep) with
      ⟨hnear, rfl, hloc⟩ | ⟨hfar, hpush, hloc⟩
    · obtain ⟨hvalid, hle, hps⟩ := ih (by omega) hrest
      rw [if_pos hnear, ← hps]
      refine ⟨hvalid, hle, ?_⟩
      simp [hloc]
    · obtain ⟨d₂, hpush', hpushed⟩ := d.push_ok c (by omega)
      obtain rfl := Except.ok.inj (hpush'.symm.trans hpush)
      obtain ⟨hvalid, hle, -⟩ := ih (by rw [hpushed.size, hpushed.numEntries]; omega) hrest
      rw [if_neg hfar, ← hpushed.valid]
      refine ⟨hvalid, hle, ?_⟩
      rw [hpushed.valid]
      refine ⟨fun h => absurd hloc (h p mem_cons_self), fun h => absurd h bases_append_ne⟩

theorem isValidDelta_self (c : BitVec w) : isValidDelta b c c = true := by
  simp only [isValidDelta, BitVec.sub_self, BitVec.toInt_zero]
  split_ifs <;> simp

theorem length_bases_le_iff : (bases b [0] chunks).length ≤ 2 ↔ FewBases b chunks := by
  induction chunks with
  | nil => simp [bases, FewBases]
  | cons c cs ih =>
    rw [bases]
    by_cases hc : isValidDelta b c 0 = true
    · rw [if_pos ⟨0, List.mem_singleton_self 0, hc⟩, ih, FewBases, FewBases,
        List.find?_cons_of_neg (by rw [hc]; decide)]
      refine forall₂_congr fun base _ => ?_
      rw [List.forall_mem_cons]
      exact ⟨fun h => ⟨.inl hc, h⟩, fun h => h.2⟩
    · rw [if_neg (by simpa using hc), FewBases, List.find?_cons_of_pos (by simpa using hc)]
      have hle := (prefix_bases (b := b) (E := [0] ++ [c]) cs).length_le
      have hiff : (bases b ([0] ++ [c]) cs).length ≤ 2 ↔
          bases b ([0] ++ [c]) cs = [0] ++ [c] := by
        constructor
        · exact fun h => ((prefix_bases _).eq_of_length_le h).symm
        · rintro h
          rw [h]
          rfl
      rw [hiff, bases_eq_iff]
      simp [isValidDelta_self]

theorem reset (hD : 1 ≤ D) : ∃ d, (baseDelta w b).resetDictionary D = .ok d ∧ d.size = D ∧
    d.numEntries = 1 ∧ d.valid = [0] := by
  obtain ⟨d, hpush, hpushed⟩ := Dictionary.push_ok (w := w) ⟨replicate D 0, 0⟩ 0
    (by simpa [Dictionary.size, Nat.succ_le_iff] using hD)
  exact ⟨d, hpush, by simpa [Dictionary.size] using hpushed.size, hpushed.numEntries, hpushed.valid⟩

end BaseDelta

/-! ## Words of `CPack` -/

namespace CPack

variable {b e : BitVec 32} {d d' : Dictionary 32} {p : Pattern 32} {chunks : List (BitVec 32)}

theorem small_zero : Small 0 := by decide

variable {l : ℤ}

theorem isPattern_ZZZZ : patternZZZZ.matcher.isPattern b e l = decide (b = 0) := by
  have hones : b &&& 0xFFFFFFFF = b := BitVec.and_allOnes
  simp only [patternZZZZ, maskedValuePattern, isPattern, hones]
  exact decide_eq_decide.2 eq_comm

theorem isPattern_ZZZX : patternZZZX.matcher.isPattern b e l = decide (Small b) := by
  simp only [patternZZZX, maskedValuePattern, isPattern]
  exact decide_eq_decide.2 eq_comm

theorem isPattern_MMMM :
    patternMMMM.matcher.isPattern b e l = (decide (l ≥ 0) && decide (b = e)) := by
  have hones : ∀ x : BitVec 32, x &&& 0xFFFFFFFF = x := fun x => BitVec.and_allOnes
  simp only [patternMMMM, maskedPattern, isPattern, hones]
  rfl

/-- The class of a word that no entry takes part in. -/
def freshClass (b : BitVec 32) : PatternClass 32 :=
  if b = 0 then patternZZZZ else if Small b then patternZZZX else patternXXXX

/-- The class of a word next to an entry. -/
def entryClass (b e : BitVec 32) : PatternClass 32 :=
  if b = 0 then patternZZZZ else if b = e then patternMMMM else if Small b then patternZZZX
  else if b &&& 0xFFFFFF00 = e &&& 0xFFFFFF00 then patternMMMX
  else if b &&& 0xFFFF0000 = e &&& 0xFFFF0000 then patternMMXX else patternXXXX

theorem getPattern_noMatch : cPack.getPattern b 0 (-1) = ⟨freshClass b, -1, b⟩ := by
  have hmasked : ∀ m : BitVec 32, (masked m).isPattern b 0 (-1) = false := fun _ => rfl
  simp only [getPattern, cPack, List.find?_cons, isPattern_ZZZZ, isPattern_ZZZX, patternMMMM,
    patternMMMX, patternMMXX, maskedPattern, hmasked, List.find?_nil, freshClass]
  by_cases h0 : b = 0
  · rw [decide_eq_true h0, if_pos h0]
    rfl
  · rw [decide_eq_false h0, if_neg h0]
    by_cases hs : Small b
    · rw [decide_eq_true hs, if_pos hs]
      rfl
    · rw [decide_eq_false hs, if_neg hs]
      rfl

theorem getPattern_entry {i : ℕ} : cPack.getPattern b e i = ⟨entryClass b e, i, b⟩ := by
  have hmasked : ∀ m : BitVec 32, (masked m).isPattern b e i
      = decide (b &&& m = e &&& m) := by
    intro m
    simp only [isPattern, ge_iff_le, Int.natCast_nonneg, decide_true, Bool.true_and]
    rfl
  simp only [getPattern, cPack, List.find?_cons, isPattern_ZZZZ, isPattern_ZZZX, isPattern_MMMM,
    patternMMMX, patternMMXX, maskedPattern, hmasked, List.find?_nil, ge_iff_le, Int.natCast_nonneg,
    decide_true, Bool.true_and, entryClass]
  by_cases h0 : b = 0
  · rw [decide_eq_true h0, if_pos h0]
    rfl
  rw [decide_eq_false h0, if_neg h0]
  by_cases he : b = e
  · rw [decide_eq_true he, if_pos he]
    rfl
  rw [decide_eq_false he, if_neg he]
  by_cases hs : Small b
  · rw [decide_eq_true hs, if_pos hs]
    rfl
  rw [decide_eq_false hs, if_neg hs]
  by_cases h24 : b &&& 0xFFFFFF00 = e &&& 0xFFFFFF00
  · rw [decide_eq_true h24, if_pos h24]
    rfl
  rw [decide_eq_false h24, if_neg h24]
  by_cases h16 : b &&& 0xFFFF0000 = e &&& 0xFFFF0000
  · rw [decide_eq_true h16, if_pos h16]
    rfl
  · rw [decide_eq_false h16, if_neg h16]
    rfl

theorem upper_eq (h : b &&& 0xFFFFFF00 = e &&& 0xFFFFFF00) :
    b &&& 0xFFFF0000 = e &&& 0xFFFF0000 := by
  have hand : ∀ x : BitVec 32, x &&& 0xFFFF0000 = x &&& 0xFFFFFF00 &&& 0xFFFF0000 := by
    intro x
    rw [BitVec.and_assoc]
    rfl
  rw [hand b, hand e, h]

theorem class_cases (h : Chosen cPack d d.numEntries b p) (hd : d.numEntries ≤ d.size) :
    (p.cls = freshClass b ∨ ∃ e ∈ d.valid, p.cls = entryClass b e) ∧
      p.cls.sizeBits ≤ (freshClass b).sizeBits ∧
      ∀ e ∈ d.valid, p.cls.sizeBits ≤ (entryClass b e).sizeBits := by
  refine ⟨?_, ?_, fun e he => ?_⟩
  · rcases h.origin with rfl | ⟨i, e, -, he, rfl⟩
    · exact .inl (by rw [getPattern_noMatch])
    · exact .inr ⟨e, List.mem_of_getElem? he, by rw [getPattern_entry]⟩
  · have hle := h.le_noMatch
    rw [getPattern_noMatch] at hle
    exact hle
  · obtain ⟨i, hi⟩ := List.mem_iff_getElem?.1 he
    have hlt : i < d.numEntries := by
      rw [← Dictionary.length_valid hd]
      exact (List.getElem?_eq_some_iff.1 hi).1
    have hle := h.le_entry i e hlt hi
    rw [getPattern_entry] at hle
    exact hle

theorem steps_small (hs : Small b) (hE : ∀ e ∈ d.valid, ¬ Small e) (hd : d.numEntries ≤ d.size)
    (h : Steps cPack d b p d') : d' = d ∧ p.getSizeBits = if b = 0 then 2 else 12 := by
  have hcls : p.cls = if b = 0 then patternZZZZ else patternZZZX := by
    rcases (class_cases h.chosen hd).1 with hcls | ⟨e, he, hcls⟩
    · rw [hcls, freshClass, if_pos hs]
    · have hne : b ≠ e := by
        rintro rfl
        exact hE b he hs
      rw [hcls, entryClass, if_neg hne, if_pos hs]
  refine ⟨h.keeps ?_, ?_⟩
  · rw [Pattern.shouldAllocate, hcls]
    split_ifs <;> rfl
  · rw [Pattern.getSizeBits, hcls]
    split_ifs <;> decide

/-- Another word becomes an entry. -/
theorem steps_large (hs : ¬ Small b) (hd : d.numEntries ≤ d.size) (h : Steps cPack d b p d') :
    d.push b = .ok d' ∧ p.getSizeBits % 8 = if b ∈ d.valid then 6
      else if b &&& 0xFFFF0000 ∈ d.valid.map (· &&& 0xFFFF0000) then 0 else 2 := by
  have h0 : b ≠ 0 := by
    rintro rfl
    exact hs small_zero
  obtain ⟨hcls, hfresh, hentry⟩ := class_cases h.chosen hd
  have hfreshClass : freshClass b = patternXXXX := by rw [freshClass, if_neg h0, if_neg hs]
  have hentryClass : ∀ e, entryClass b e = if b = e then patternMMMM
      else if b &&& 0xFFFFFF00 = e &&& 0xFFFFFF00 then patternMMMX
      else if b &&& 0xFFFF0000 = e &&& 0xFFFF0000 then patternMMXX else patternXXXX := by
    intro e
    rw [entryClass, if_neg h0, if_neg hs]
  rw [hfreshClass] at hcls
  refine ⟨h.adds ?_, ?_⟩
  · rw [Pattern.shouldAllocate]
    rcases hcls with hcls | ⟨e, -, hcls⟩
    · rw [hcls]
      rfl
    · rw [hcls, hentryClass]
      split_ifs <;> rfl
  · rw [Pattern.getSizeBits]
    split_ifs with hmem hupper
    · have hle := hentry b hmem
      rw [hentryClass, if_pos rfl] at hle
      rcases hcls with hcls | ⟨e, -, hcls⟩
      · rw [hcls] at hle
        exact absurd hle (by decide)
      · rw [hcls, hentryClass] at hle ⊢
        split_ifs at hle ⊢
        · decide
        all_goals exact absurd hle (by decide)
    · obtain ⟨e, he, hee⟩ := List.mem_map.1 hupper
      have hle := hentry e he
      have hne : b ≠ e := by
        rintro rfl
        exact hmem he
      rw [hentryClass, if_neg hne] at hle
      have hle : p.cls.sizeBits ≤ 24 := by
        refine hle.trans ?_
        rw [if_pos hee.symm]
        split_ifs <;> decide
      rcases hcls with hcls | ⟨e', he', hcls⟩
      · rw [hcls] at hle
        exact absurd hle (by decide)
      · have hne' : b ≠ e' := by
          rintro rfl
          exact hmem he'
        rw [hcls, hentryClass, if_neg hne'] at hle ⊢
        split_ifs at hle ⊢
        · decide
        · decide
        · exact absurd hle (by decide)
    · rcases hcls with hcls | ⟨e, he, hcls⟩
      · rw [hcls]
        decide
      · have hfar : ¬ b &&& 0xFFFF0000 = e &&& 0xFFFF0000 := fun h =>
          hupper (List.mem_map.2 ⟨e, he, h.symm⟩)
        have hne : b ≠ e := by
          rintro rfl
          exact hmem he
        rw [hcls, hentryClass, if_neg hne, if_neg fun h => hfar (upper_eq h), if_neg hfar]
        decide

/-- The distinct words and the distinct upper halves of some words. -/
def kinds (E : List (BitVec 32)) : ℕ :=
  E.toFinset.card + (E.map (· &&& 0xFFFF0000)).toFinset.card

theorem kinds_append_singleton (E : List (BitVec 32)) : kinds (E ++ [b]) = kinds E +
    (if b ∈ E then 0 else if b &&& 0xFFFF0000 ∈ E.map (· &&& 0xFFFF0000) then 1 else 2) := by
  have hcard : ∀ (l : List (BitVec 32)) (x : BitVec 32), (l ++ [x]).toFinset.card
      = l.toFinset.card + if x ∈ l then 0 else 1 := by
    intro l x
    have hinsert : (l ++ [x]).toFinset = insert x l.toFinset := by
      ext y
      simp
    rw [hinsert]
    split_ifs with hx
    · rw [Finset.insert_eq_of_mem (List.mem_toFinset.2 hx), Nat.add_zero]
    · rw [Finset.card_insert_of_notMem (by simpa using hx)]
  rw [kinds, kinds, List.map_append, List.map_singleton, hcard, hcard]
  split_ifs with h1 h2
  · omega
  · exact absurd (List.mem_map_of_mem h1) h2
  · omega
  · omega

/-- The bits of words compressed with the entries `E` there, in pairs and modulo four. -/
def looseFrom (E chunks : List (BitVec 32)) : ℕ :=
  chunks.count 0 + 2 * (chunks.countP fun c => decide (Small c ∧ c ≠ 0)) +
    3 * (large chunks).length + kinds (E ++ large chunks)

theorem run_bits {ps : List (Pattern 32)} (hd : d.numEntries + chunks.length ≤ d.size)
    (hE : ∀ e ∈ d.valid, ¬ Small e) (hrun : run cPack.compressValue d chunks = .ok (ps, d')) :
    (bitsOf ps + 2 * kinds d.valid) % 8 = 2 * looseFrom d.valid chunks % 8 := by
  induction chunks generalizing d ps with
  | nil =>
    obtain ⟨rfl, rfl⟩ := Prod.mk.inj (Except.ok.inj hrun)
    simp [bitsOf, looseFrom, large]
  | cons b chunks ih =>
    rw [length_cons] at hd
    obtain ⟨p, d₁, ps, hstep, hrest, rfl⟩ := run_cons_eq_ok.1 hrun
    have hsum : bitsOf (p :: ps) = p.getSizeBits + bitsOf ps := by simp [bitsOf]
    have hsteps := compressValue_steps (by omega) hstep
    by_cases hs : Small b
    · obtain ⟨rfl, hsize⟩ := steps_small hs hE (by omega) hsteps
      have hih := ih (by omega) hE hrest
      have hlarge : large (b :: chunks) = large chunks :=
        List.filter_cons_of_neg (by simpa using hs)
      rw [looseFrom] at hih ⊢
      rw [hsum, hsize, hlarge, List.count_cons, List.countP_cons]
      by_cases h0 : b = 0
      · rw [if_pos h0, if_pos (beq_iff_eq.2 h0), if_neg (by simp [h0])]
        omega
      · rw [if_neg h0, if_neg (by simpa using h0), if_pos (decide_eq_true ⟨hs, h0⟩)]
        omega
    · obtain ⟨hpush, hsize⟩ := steps_large hs (by omega) hsteps
      obtain ⟨d₂, hpush', hpushed⟩ := d.push_ok b (by omega)
      obtain rfl := Except.ok.inj (hpush'.symm.trans hpush)
      have hE' : ∀ e ∈ d₂.valid, ¬ Small e := by
        rw [hpushed.valid]
        intro e he
        rcases List.mem_append.1 he with he | he
        · exact hE e he
        · rwa [List.mem_singleton.1 he]
      have hih := ih (by rw [hpushed.size, hpushed.numEntries]; omega) hE' hrest
      have hlarge : large (b :: chunks) = b :: large chunks :=
        List.filter_cons_of_pos (by simpa using hs)
      have h0 : b ≠ 0 := by
        rintro rfl
        exact hs small_zero
      have hbeq : (b == 0) = false := beq_eq_false_iff_ne.2 h0
      have hkinds := kinds_append_singleton (b := b) d.valid
      rw [hpushed.valid, looseFrom, List.append_assoc, List.singleton_append, hkinds] at hih
      rw [hsum, looseFrom, hlarge, List.count_cons, List.countP_cons, hbeq, length_cons]
      simp only [hs, false_and, decide_false, Bool.false_eq_true, if_false, Nat.add_zero]
      split_ifs at hsize hih <;> omega

end CPack

/-! ## The compressors -/

theorem sound_iff_of_empty (hR : Roomy c R) (hc : c.zeroBase = false)
    (hroom : ∀ d : Dictionary w, d.size = D → d.numEntries = 0 → R chunks.length d)
    (hne : chunks ≠ []) (hw : w = 16 ∨ w = 32 ∨ w = 64) {P : Prop}
    (hsize : ∀ d d' ps, d.numEntries = 0 → d.valid = [] → R chunks.length d →
      run c.compressValue d chunks = .ok (ps, d') →
      ∃ n, c.report (chunks.length * (w / 8)) d'.numEntries (bitsOf ps) = .ok n ∧ (8 ∣ n ↔ P)) :
    c.Sound D chunks ↔ 256 ≤ D ∧ P := by
  obtain ⟨d, hreset, hsizeD, hnum, hvalid⟩ := reset_of_zeroBase_eq_false hc D
  have hr := hroom d hsizeD hnum
  obtain ⟨ps, d', hrun, -, -, -⟩ := run_compressValue hR hr
  obtain ⟨n, hreport, hn⟩ := hsize d d' ps hnum hvalid hr hrun
  rw [sound_iff_of_run hR hreset hsizeD hr hrun hreport hw, noMatch_iff hnum hne hrun, hn]

theorem baseDelta_sound_iff {b : ℕ}
    (hclasses : (BaseDelta.patternM w b).sizeBits < (BaseDelta.patternX w b).sizeBits ∧
      (BaseDelta.patternM w b).sizeBits % 8 = 1 ∧ (BaseDelta.patternX w b).sizeBits % 8 = 1)
    (hw : w = 16 ∨ w = 32 ∨ w = 64) (hD : chunks.length + 1 ≤ D) :
    (baseDelta w b).Sound D chunks ↔
      (256 ≤ D ∨ ∀ c ∈ chunks, isValidDelta b c 0 = true) ∧
      (8 ∣ chunks.length ∨ ¬ FewBases b chunks) := by
  obtain ⟨hlt, hM, hX⟩ := hclasses
  obtain ⟨d, hreset, hsize, hnum, hvalid⟩ := BaseDelta.reset (w := w) (b := b) (D := D) (by omega)
  have hR : Roomy (baseDelta w b) fun k d => d.numEntries + k ≤ d.size := push_roomy rfl
  have hroom : d.numEntries + chunks.length ≤ d.size := by omega
  obtain ⟨ps, d', hrun, -, -, -⟩ := run_compressValue hR hroom
  obtain ⟨hbases, hle, hlocs⟩ := BaseDelta.run_bases hlt hroom hrun
  rw [hvalid] at hbases hlocs
  have hmod : bitsOf ps % 8 = chunks.length % 8 := by
    rw [← Nat.one_mul chunks.length]
    refine bitsOf_mod_of_run hR ?_ hroom hrun
    rintro cls (_ | ⟨_, _ | ⟨_, ⟨⟩⟩⟩)
    · exact hX
    · exact hM
  have hentries : d'.numEntries ≤ 2 ↔ FewBases b chunks := by
    rw [← BaseDelta.length_bases_le_iff, ← hbases, Dictionary.length_valid hle]
  rw [sound_iff_of_run hR hreset hsize hroom hrun (n := if d'.numEntries ≤ 2 then
    bitsOf ps + w * (2 - d'.numEntries) else chunks.length * (w / 8) * 8) ?_ hw]
  · refine and_congr ?_ ?_
    · rw [← (show (∀ c ∈ chunks, ∃ e ∈ [(0 : BitVec w)], isValidDelta b c e = true) ↔
        ∀ c ∈ chunks, isValidDelta b c 0 = true by simp only [List.mem_singleton,
          exists_eq_left]), ← BaseDelta.bases_eq_iff, ← hlocs]
      constructor
      · intro h
        by_cases hD : 256 ≤ D
        · exact .inl hD
        · exact .inr fun p hp hloc => hD (h p hp hloc)
      · rintro (hD | h) p hp hloc
        · exact hD
        · exact absurd hloc (h p hp)
    · rw [← hentries]
      split_ifs with hfew
      · have hdvd : 8 ∣ w * (2 - d'.numEntries) := by
          rcases hw with rfl | rfl | rfl <;> omega
        simp only [hfew, not_true_eq_false, or_false]
        omega
      · simp only [hfew, not_false_eq_true, or_true, iff_true]
        exact Nat.dvd_mul_left 8 _
  · show BaseDelta.report w _ _ _ = _
    rw [BaseDelta.report, BaseDelta.defaultMaxNumBases]
    congr 1
    by_cases hfew : d'.numEntries ≤ 2
    · rw [if_pos hfew, if_neg (by push_cast; omega)]
      split_ifs with hpos
      · congr 2
        omega
      · have : d'.numEntries = 2 := by
          push_cast at hpos
          omega
        rw [this, Nat.sub_self, Nat.mul_zero, Nat.add_zero]
    · rw [if_neg hfew, if_pos (by push_cast; omega)]

theorem cPack_sound_iff {chunks : List (BitVec 32)} (hne : chunks ≠ [])
    (hD : chunks.length + 1 ≤ D) : cPack.Sound D chunks ↔ 256 ≤ D ∧ 4 ∣ CPack.loose chunks := by
  have hR : Roomy cPack fun k d => d.numEntries + k ≤ d.size := push_roomy rfl
  refine sound_iff_of_empty hR rfl (fun d hsize hnum => by omega) hne (by decide) ?_
  intro d d' ps hnum hvalid hroom hrun
  refine ⟨bitsOf ps, rfl, ?_⟩
  have hbits := CPack.run_bits hroom (by simp [hvalid]) hrun
  have hloose : CPack.looseFrom [] chunks = CPack.loose chunks := by
    rw [CPack.looseFrom, CPack.loose, CPack.kinds, List.nil_append]
    omega
  rw [hvalid, hloose, show CPack.kinds [] = 0 from rfl] at hbits
  omega

theorem fpcd_sound_iff {chunks : List (BitVec 32)} (hne : chunks ≠ []) (hD : 2 ≤ D) :
    fpcd.Sound D chunks ↔ 256 ≤ D ∧ 2 ∣ chunks.length := by
  refine sound_iff_of_empty fpcd_roomy rfl (fun d hsize hnum => by omega) hne (by decide) ?_
  intro d d' ps hnum hvalid hroom hrun
  refine ⟨bitsOf ps, rfl, ?_⟩
  have hbits := bitsOf_mod_of_run fpcd_roomy (r := 4) (by decide) hroom hrun
  omega

theorem numEntries_le_of_run (hc : c.addToDictionary = Dictionary.push)
    (hd : d.numEntries + chunks.length ≤ d.size)
    (hrun : run c.compressValue d chunks = .ok (ps, d')) : d.numEntries ≤ d'.numEntries := by
  induction chunks generalizing d ps with
  | nil =>
    obtain ⟨rfl, rfl⟩ := Prod.mk.inj (Except.ok.inj hrun)
    exact le_rfl
  | cons b chunks ih =>
    rw [length_cons] at hd
    obtain ⟨p, d₁, ps, hstep, hrest, rfl⟩ := run_cons_eq_ok.1 hrun
    have hsteps := compressValue_steps (by omega) hstep
    rcases halloc : p.shouldAllocate with _ | _
    · obtain rfl := hsteps.keeps halloc
      exact ih (by omega) hrest
    · have hadd := hsteps.adds halloc
      obtain ⟨d₂, hpush, hpushed⟩ := d.push_ok b (by omega)
      rw [hc, hpush] at hadd
      obtain rfl := Except.ok.inj hadd
      have := ih (by rw [hpushed.size, hpushed.numEntries]; omega) hrest
      rw [hpushed.numEntries] at this
      omega

theorem repeatedQwords_sound_iff {chunks : List (BitVec 64)} (hne : chunks ≠ [])
    (hD : chunks.length + 1 ≤ D) : repeatedQwords.Sound D chunks ↔ 256 ≤ D ∧ True := by
  have hR : Roomy repeatedQwords fun k d => d.numEntries + k ≤ d.size := push_roomy rfl
  refine sound_iff_of_empty hR rfl (fun d hsize hnum => by omega) hne (by decide) ?_
  intro d d' ps hnum hvalid hroom hrun
  have hbits := bitsOf_mod_of_run hR (r := 0) (by decide) hroom hrun
  -- the first word becomes an entry
  have hone : 1 ≤ d'.numEntries := by
    obtain ⟨b, chunks, rfl⟩ := List.exists_cons_of_ne_nil hne
    rw [length_cons] at hroom
    obtain ⟨p, d₁, ps, hstep, hrest, rfl⟩ := run_cons_eq_ok.1 hrun
    have hsteps := compressValue_steps (by omega) hstep
    obtain ⟨d₂, hpush, hpushed⟩ := d.push_ok b (by omega)
    have hp : p.shouldAllocate = true := by
      rcases hsteps.chosen.origin with rfl | ⟨i, e, hi, -⟩
      · rfl
      · omega
    obtain rfl := Except.ok.inj (hpush.symm.trans (hsteps.adds hp))
    have := numEntries_le_of_run (c := repeatedQwords) rfl
      (by rw [hpushed.size, hpushed.numEntries]; omega) hrest
    rw [hpushed.numEntries] at this
    omega
  refine ⟨if d'.numEntries > 1 then chunks.length * (64 / 8) * 8 else bitsOf ps, ?_, ?_⟩
  · show RepeatedQwords.report _ _ _ = _
    rw [RepeatedQwords.report, assert, if_pos (decide_eq_true hone)]
    rfl
  · rw [iff_true]
    split_ifs
    · exact Nat.dvd_mul_left 8 _
    · omega

theorem zero_sound_iff {chunks : List (BitVec 64)} (hne : chunks ≠ [])
    (hD : chunks.length + 1 ≤ D) : zero.Sound D chunks ↔ 256 ≤ D ∧ True := by
  have hR : Roomy zero fun k d => d.numEntries + k ≤ d.size := push_roomy rfl
  refine sound_iff_of_empty hR rfl (fun d hsize hnum => by omega) hne (by decide) ?_
  intro d d' ps hnum hvalid hroom hrun
  have hbits := bitsOf_mod_of_run hR (r := 0) (by decide) hroom hrun
  refine ⟨_, rfl, ?_⟩
  rw [iff_true]
  split_ifs
  · exact Nat.dvd_mul_left 8 _
  · omega

theorem Kind.fits_dictionarySize (k : Kind) (hn : n ≠ 0) :
    k.Fits (k.dictionarySize (n * (k.chunkSizeBits / 8))) n := by
  cases k <;> simp only [Kind.Fits, Kind.dictionarySize, Kind.chunkSizeBits] <;> omega

/-- A line is sound if its bits fill bytes, and entry 255 is there or no word comes without one. -/
theorem lines_sound_iff (k : Kind) (chunks : List (BitVec k.chunkSizeBits)) (hne : chunks ≠ []) :
    k.Fits (k.dictionarySize (chunks.length * (k.chunkSizeBits / 8))) chunks.length ∧
    ∀ D, k.Fits D chunks.length → (k.compressor.Sound D chunks ↔
      (256 ≤ D ∨ k.Immediate chunks) ∧ k.WholeBytes chunks) := by
  refine ⟨k.fits_dictionarySize (by simpa using hne), fun D hfits => ?_⟩
  have hdelta : ∀ {w b : ℕ} {chunks : List (BitVec w)}, (∃ bits, some b = some bits ∧
      ∀ c ∈ chunks, isValidDelta bits c 0 = true) ↔ ∀ c ∈ chunks, isValidDelta b c 0 = true := by
    intro w b chunks
    simp only [Option.some.injEq, exists_eq_left']
  have hnone : ∀ {w : ℕ} {chunks : List (BitVec w)} {P : Prop}, (P ∨ ∃ bits, none = some bits ∧
      ∀ c ∈ chunks, isValidDelta bits c 0 = true) ↔ P := by
    intro w chunks P
    simp
  rw [Kind.Immediate]
  cases k
  case base64Delta8 | base64Delta16 | base64Delta32 | base32Delta8 | base32Delta16 | base16Delta8 =>
    exact (baseDelta_sound_iff (by decide) (by decide) hfits).trans (by rw [← hdelta]; rfl)
  case cPack => exact (cPack_sound_iff hne hfits).trans (and_congr_left' hnone.symm)
  case fpcd => exact (fpcd_sound_iff hne hfits).trans (and_congr_left' hnone.symm)
  case repeatedQwords =>
    exact (repeatedQwords_sound_iff hne hfits).trans (and_congr_left' hnone.symm)
  case zero => exact (zero_sound_iff hne hfits).trans (and_congr_left' hnone.symm)

/-- Eight deltas of the zero base. -/
theorem lines_sound_iff_deltas : ∃ chunks : List (BitVec 64), chunks ≠ [] ∧
    (baseDelta 64 8).Sound 64 chunks := by
  have hne : replicate 8 (1 : BitVec 64) ≠ [] := List.cons_ne_nil _ _
  have himm : Kind.base64Delta8.Immediate (replicate 8 (1 : BitVec 64)) := by
    refine ⟨8, rfl, fun c hc => ?_⟩
    rw [List.eq_of_mem_replicate hc]
    decide
  have hwhole : Kind.base64Delta8.WholeBytes (replicate 8 (1 : BitVec 64)) :=
    .inl (dvd_of_eq List.length_replicate.symm)
  have hfits : Kind.base64Delta8.Fits 64 (replicate 8 (1 : BitVec 64)).length := by
    rw [List.length_replicate]
    exact (by decide : 8 + 1 ≤ 64)
  exact ⟨_, hne, ((lines_sound_iff .base64Delta8 _ hne).2 64 hfits).2 ⟨.inr himm, hwhole⟩⟩

/-- A line of 64 bytes whose first word is one and whose other words are zero comes to 42 bits, or 5
bytes, and `decompress` reads entry 255 of a dictionary of 64 entries. -/
theorem first_word_reads_entry_255 :
    ∃ data, cPack.compress 64 64 (1 :: replicate 15 0) = .ok data ∧
      data.getSizeBits = 42 ∧ data.getSize = 5 ∧
      (data.entries.map Pattern.getMatchLocation).head? = some 255 ∧
      cPack.decompress 64 64 data = .error (.undefined "dictionary[i]") := by
  refine ⟨⟨⟨CPack.patternZZZX, -1, 1⟩ :: replicate 15 ⟨CPack.patternZZZZ, -1, 0⟩, 42⟩, ?_⟩
  decide +kernel

end Gem5Nvm.Compressor
