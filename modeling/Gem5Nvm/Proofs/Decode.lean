import Gem5Nvm.Proofs.IntMath
import Gem5Nvm.Proofs.Stripes

/-!
# The place of an address in a memory

`decodePacket` takes the number of a burst apart: part of the column, the bank, the rank, the rest
of the column and the row.  All divisors are powers of two, so the parts give back the number, and
only the column is left out of the place.  Without a divisor that is zero in 32 bits, this is what
the claims of its assertions need; with one, no packet is decoded.
-/

namespace Gem5Nvm

open Sim (bind_eq_ok bind₂_eq_ok ok_bind pure_eq)
open Nat (clog mod_eq_of_lt mod_lt mul_one pow_div two_pow_pos)

section Digits

variable {d e banks ranks rows x y : ℕ}

theorem row_lt (hx : x < d * banks * ranks * e * rows) : x / d / banks / ranks / e < rows := by
  rw [Nat.div_div_eq_div_mul, Nat.div_div_eq_div_mul, Nat.div_div_eq_div_mul, ← Nat.mul_assoc,
    ← Nat.mul_assoc]
  exact Nat.div_lt_of_lt_mul hx

theorem burst_of_parts (hcol : x % d = y % d) (hbank : x / d % banks = y / d % banks)
    (hrank : x / d / banks % ranks = y / d / banks % ranks)
    (hcol' : x / d / banks / ranks % e = y / d / banks / ranks % e)
    (hrow : x / d / banks / ranks / e = y / d / banks / ranks / e) : x = y :=
  Nat.ext_div_mod (Nat.ext_div_mod (Nat.ext_div_mod (Nat.ext_div_mod hrow hcol') hrank) hbank) hcol

theorem encard_bursts_le (hd : 0 < d) (he : 0 < e) (banks ranks rows bank rank row : ℕ) {S : Set ℕ}
    (hS : ∀ x ∈ S, x < d * banks * ranks * e * rows ∧ x / d % banks = bank ∧
      x / d / banks % ranks = rank ∧ x / d / banks / ranks / e % rows = row) :
    S.encard ≤ (d * e : ℕ) := by
  have hmaps : Set.MapsTo (fun x => (x % d, x / d / banks / ranks % e)) S
      ↑(Finset.range d ×ˢ Finset.range e) := by
    intro x _
    simp only [Finset.coe_product, Finset.coe_range, Set.mem_prod, Set.mem_Iio]
    exact ⟨mod_lt _ hd, mod_lt _ he⟩
  have hinj : Set.InjOn (fun x => (x % d, x / d / banks / ranks % e)) S := by
    intro x hx y hy hxy
    obtain ⟨hcol, hcol'⟩ := Prod.mk.inj hxy
    obtain ⟨hxlt, hxb, hxr, hxrow⟩ := hS x hx
    obtain ⟨hylt, hyb, hyr, hyrow⟩ := hS y hy
    rw [mod_eq_of_lt (row_lt hxlt)] at hxrow
    rw [mod_eq_of_lt (row_lt hylt)] at hyrow
    exact burst_of_parts hcol (hxb.trans hyb.symm) (hxr.trans hyr.symm) hcol'
      (hxrow.trans hyrow.symm)
  calc S.encard ≤ (↑(Finset.range d ×ˢ Finset.range e) : Set (ℕ × ℕ)).encard :=
        Set.encard_le_encard_of_injOn hmaps hinj
    _ = (d * e : ℕ) := by
        rw [Set.encard_coe_eq_coe_finsetCard, Finset.card_product, Finset.card_range,
          Finset.card_range]

end Digits

namespace MemInterface

variable {i : MemInterface} {a x : ℕ}

theorem divide_of_pos {a b : ℕ} (hb : 0 < b) : divide a b = .ok (a / b) := if_neg (by omega)

theorem modulo_of_pos {a b : ℕ} (hb : 0 < b) : modulo a b = .ok (a % b) := if_neg (by omega)

theorem divide_eq_ok {a b c : ℕ} (h : divide a b = .ok c) : 0 < b ∧ c = a / b := by
  rw [divide] at h
  split_ifs at h with hb
  exact ⟨by omega, (Except.ok.inj h).symm⟩

theorem modulo_eq_ok {a b c : ℕ} (h : modulo a b = .ok c) : 0 < b ∧ c = a % b := by
  rw [modulo] at h
  split_ifs at h with hb
  exact ⟨by omega, (Except.ok.inj h).symm⟩

/-- `burstsPerRowBuffer`. -/
def perRow (i : MemInterface) : ℕ := i.rowBufferSize / i.burstSize

/-- `burstsPerStripe`. -/
def perStripe (i : MemInterface) : ℕ :=
  if i.range.interleaved then u32 (i.range.granularity / i.burstSize) else 1

/-- The bursts of the lower part of the column. -/
def lowerColumns (i : MemInterface) : ℕ :=
  match i.addrMapping with
  | .roRaBaChCo | .roRaBaCoCh => i.perRow
  | .roCoRaBaCh => if i.perStripe > i.perRow then i.perRow else i.perStripe

/-- The number of upper parts of the column. -/
def upperColumns (i : MemInterface) : ℕ :=
  match i.addrMapping with
  | .roRaBaChCo | .roRaBaCoCh => 1
  | .roCoRaBaCh => if i.perStripe < i.perRow then i.perRow / i.perStripe else 1

theorem divide_one (a : ℕ) : divide a 1 = .ok a := by
  rw [divide_of_pos Nat.one_pos, Nat.div_one]

theorem decodeAddr_parts : i.decodeAddr a = (do
    let o ← i.getCtrlAddr a
    let addr ← divide (o / i.burstSize) i.lowerColumns
    let (bank, rank, addr) ← i.bankAndRank addr
    let addr ← divide addr i.upperColumns
    return (rank, bank, ← modulo addr i.rowsPerBank)) := by
  rcases hmap : i.addrMapping with _ | _ | _ <;>
    simp only [decodeAddr, lowerColumns, upperColumns, perRow, perStripe, hmap, divide_one,
      ok_bind]
  split_ifs <;> simp only [divide_one, ok_bind]

/-- What decoding needs: divisors that are not zero, and bursts that the rows make up. -/
structure Ready (i : MemInterface) : Prop where
  columns : i.lowerColumns * i.upperColumns = i.perRow
  columns_pos : 0 < i.perRow
  banks_pos : 0 < i.banksPerRank
  banks_le : i.banksPerRank ≤ 256
  ranks_pos : 0 < i.ranksPerChannel
  ranks_le : i.ranksPerChannel ≤ 256
  rows_pos : 0 < i.rowsPerBank
  rows_lt : i.rowsPerBank < 2 ^ 32
  bursts : ∀ a, i.range.contains a = true → ∃ o, i.getCtrlAddr a = .ok o ∧ o / i.burstSize
    < i.lowerColumns * i.banksPerRank * i.ranksPerChannel * i.upperColumns * i.rowsPerBank

section Ready

variable (h : i.Ready)

include h

theorem Ready.lower_pos : 0 < i.lowerColumns :=
  Nat.pos_of_mul_pos_right (h.columns ▸ h.columns_pos)

theorem Ready.upper_pos : 0 < i.upperColumns :=
  Nat.pos_of_mul_pos_left (h.columns ▸ h.columns_pos)

theorem Ready.bankAndRank_eq (addr : ℕ) : i.bankAndRank addr = .ok (addr % i.banksPerRank,
    addr / i.banksPerRank % i.ranksPerChannel, addr / i.banksPerRank / i.ranksPerChannel) := by
  have hbank := (mod_lt addr h.banks_pos).trans_le h.banks_le
  have hrank := (mod_lt (addr / i.banksPerRank) h.ranks_pos).trans_le h.ranks_le
  rw [bankAndRank, modulo_of_pos h.banks_pos, ok_bind, divide_of_pos h.banks_pos, ok_bind,
    modulo_of_pos h.ranks_pos, ok_bind, divide_of_pos h.ranks_pos, ok_bind, pure_eq,
    show 2 ^ 8 = 256 from rfl, mod_eq_of_lt hbank, mod_eq_of_lt hrank]

theorem Ready.decodeAddr_eq {o : ℕ} (ho : i.getCtrlAddr a = .ok o) :
    i.decodeAddr a = .ok
      (o / i.burstSize / i.lowerColumns / i.banksPerRank % i.ranksPerChannel,
        o / i.burstSize / i.lowerColumns % i.banksPerRank,
        o / i.burstSize / i.lowerColumns / i.banksPerRank / i.ranksPerChannel / i.upperColumns
          % i.rowsPerBank) := by
  rw [decodeAddr_parts, ho, ok_bind, divide_of_pos h.lower_pos, ok_bind, h.bankAndRank_eq,
    ok_bind]
  dsimp only
  rw [divide_of_pos h.upper_pos, ok_bind, modulo_of_pos h.rows_pos, ok_bind, pure_eq]

theorem Ready.decodes : i.Decodes := by
  refine ⟨fun a ha curTick ptr pkt size isRead isDram => ?_,
    fun rank bank row curTick ptr pkt size isRead isDram => ?_⟩
  · obtain ⟨o, ho, -⟩ := h.bursts a ha
    have hrank := mod_lt (o / i.burstSize / i.lowerColumns / i.banksPerRank) h.ranks_pos
    have hbank := mod_lt (o / i.burstSize / i.lowerColumns) h.banks_pos
    have hrow := mod_lt (o / i.burstSize / i.lowerColumns / i.banksPerRank /
      i.ranksPerChannel / i.upperColumns) h.rows_pos
    have hno := lt_of_lt_of_le hrow (show _ ≤ Bank.noRow from Nat.le_pred_of_lt h.rows_lt)
    rw [decodePacket, h.decodeAddr_eq ho]
    simp only [ok_bind, assert, hrank, hbank, hrow, hno, decide_true, if_true, pure_eq]
    exact ⟨_, rfl, hrank, hbank, hrow⟩
  · refine (encard_bursts_le h.lower_pos h.upper_pos i.banksPerRank i.ranksPerChannel
      i.rowsPerBank bank rank row ?_).trans (by rw [h.columns, perRow])
    rintro x ⟨a, p, ha, ⟨o, ho, rfl⟩, hp, rfl, rfl, rfl⟩
    obtain ⟨o', ho', hlt⟩ := h.bursts a ha
    obtain rfl := Except.ok.inj (ho.symm.trans ho')
    rw [decodePacket, h.decodeAddr_eq ho, ok_bind] at hp
    obtain ⟨-, -, -, -, hp⟩ := bind₂_eq_ok.1 hp
    obtain ⟨-, -, -, -, hp⟩ := bind₂_eq_ok.1 hp
    obtain rfl := Except.ok.inj hp
    exact ⟨hlt, rfl, rfl, rfl⟩

end Ready

section Construct

variable {j : MemInterface} {k : ℕ}

theorem u32_of_lt {n : ℕ} (h : n < 2 ^ 32) : u32 n = n := mod_eq_of_lt h

theorem u32_two_pow_ne_zero : u32 (2 ^ k) ≠ 0 ↔ 2 ^ k < 2 ^ 32 := by
  rw [Nat.pow_lt_pow_iff_right one_lt_two]
  constructor
  · intro hne
    by_contra hk
    obtain ⟨d, rfl⟩ := Nat.exists_eq_add_of_le (not_lt.1 hk)
    rw [u32, pow_add, Nat.mul_mod_right] at hne
    exact hne rfl
  · intro hk
    rw [u32_of_lt (Nat.pow_lt_pow_right one_lt_two hk)]
    exact (two_pow_pos k).ne'

theorem perStripe_two_pow (h : i.perStripe ≠ 0) : ∃ k, i.perStripe = 2 ^ k := by
  obtain ⟨b, -, hb⟩ := i.burst_pow2
  rw [perStripe] at h ⊢
  split_ifs at h ⊢ with hint
  · obtain ⟨g, hg⟩ : ∃ g, i.range.granularity = 2 ^ g := by
      rw [AddrRange.granularity, if_pos hint]
      exact ⟨_, rfl⟩
    rw [hb, hg] at h ⊢
    have hbg : b ≤ g := by
      by_contra hlt
      rw [Nat.div_eq_of_lt (Nat.pow_lt_pow_right one_lt_two (not_le.1 hlt))] at h
      exact h rfl
    rw [pow_div hbg two_pos] at h ⊢
    exact ⟨g - b, u32_of_lt (u32_two_pow_ne_zero.1 h)⟩
  · exact ⟨0, rfl⟩

theorem columns_eq {q : ℕ} (hrow : i.perRow = 2 ^ q)
    (hstripe : i.addrMapping = .roCoRaBaCh → i.perStripe ≠ 0) :
    i.lowerColumns * i.upperColumns = i.perRow := by
  rcases hmap : i.addrMapping with _ | _ | _
  iterate 2 simp only [lowerColumns, upperColumns, hmap, mul_one]
  · obtain ⟨s, hs⟩ := perStripe_two_pow (hstripe hmap)
    simp only [lowerColumns, upperColumns, hmap]
    rcases lt_trichotomy i.perStripe i.perRow with hlt | heq | hgt
    · rw [if_neg hlt.not_gt, if_pos hlt]
      refine Nat.mul_div_cancel' ?_
      rw [hs, hrow] at hlt ⊢
      exact pow_dvd_pow 2 ((Nat.pow_lt_pow_iff_right one_lt_two).1 hlt).le
    · rw [if_neg (by omega), if_neg (by omega), heq, mul_one]
    · rw [if_pos hgt, if_neg hgt.not_gt, mul_one]

theorem perRow_pos_of_lower (h : 0 < i.lowerColumns) :
    0 < i.perRow ∧ (i.addrMapping = .roCoRaBaCh → i.perStripe ≠ 0) := by
  rcases hmap : i.addrMapping with _ | _ | _ <;> simp only [lowerColumns, hmap] at h
  · exact ⟨h, fun hm => by cases hm⟩
  · exact ⟨h, fun hm => by cases hm⟩
  · split_ifs at h with hgt
    · exact ⟨h, fun _ => by omega⟩
    · exact ⟨by omega, fun _ => by omega⟩

theorem size_lt : i.range.size < 2 ^ 64 := by
  rw [AddrRange.size, Nat.shiftRight_eq_div_pow]
  exact (Nat.div_le_self _ _).trans_lt (mod_lt _ (by decide))

section Geometry

variable (hg : i.Geometry)

include hg

theorem Geometry.offset (hapart : ¬ (0 ∈ i.range.masks.map ctz64 ∧ 1 ∈ i.range.masks.map ctz64))
    (ha : i.range.contains a = true) : ∃ o < i.range.size, i.getCtrlAddr a = .ok o := by
  rcases hg.range with ⟨hnil, hend⟩ | ⟨hm, hal⟩
  · have hin : i.range.start ≤ a ∧ a < i.range.end_ := by
      rw [AddrRange.contains, decide_eq_true_eq] at ha
      exact ⟨ha.1, ha.2.1⟩
    have hsize : i.range.size = i.range.end_ - i.range.start := by
      rw [AddrRange.size, hnil, usub_of_le (by omega) hend]
      rfl
    refine ⟨a - i.range.start, by omega, ?_⟩
    rw [getCtrlAddr, AddrRange.getOffset, if_pos hin, if_neg]
    rw [AddrRange.interleaved, hnil]
    decide
  · exact (hm.striped hal hapart).offset i.range.intlvMatch hm.match_lt a ha

theorem Geometry.apart_of_ok {o : ℕ} (ha : i.range.contains a = true)
    (ho : i.getCtrlAddr a = .ok o) :
    ¬ (0 ∈ i.range.masks.map ctz64 ∧ 1 ∈ i.range.masks.map ctz64) := by
  rintro ⟨h0, h1⟩
  rcases hg.range with ⟨hnil, -⟩ | ⟨hm, -⟩
  · rw [hnil] at h0
    cases h0
  · rw [AddrRange.contains, decide_eq_true_eq] at ha
    have hint : i.range.interleaved = true :=
      decide_eq_true (List.length_pos_of_ne_nil hm.interleaved)
    rw [getCtrlAddr, AddrRange.getOffset, if_pos ⟨ha.1, ha.2.1⟩, if_pos hint] at ho
    obtain ⟨b, hb, -⟩ := bind_eq_ok.1 ho
    exact hm.remove_error h0 h1 b hb

theorem Geometry.product_two_pow :
    ∃ p, i.rowBufferSize * i.banksPerRank * i.ranksPerChannel = 2 ^ p := by
  obtain ⟨r, -, hr⟩ := hg.rowBuffer
  obtain ⟨b, -, hb⟩ := hg.banks
  obtain ⟨n, -, hn⟩ := hg.ranks
  exact ⟨r + b + n, by rw [hr, hb, hn, pow_add, pow_add]⟩

theorem Geometry.rows_two_pow : ∃ k, 2 ^ clog 2 i.range.size
      / (i.rowBufferSize * i.banksPerRank * i.ranksPerChannel) = 2 ^ k ∧
    2 ^ clog 2 i.range.size
      = i.rowBufferSize * i.banksPerRank * i.ranksPerChannel * 2 ^ k := by
  obtain ⟨p, hp⟩ := hg.product_two_pow
  have hle := hg.fits
  rw [hp, Nat.pow_le_pow_iff_right one_lt_two] at hle
  rw [hp, pow_div hle two_pos]
  exact ⟨_, rfl, by rw [← pow_add, Nat.add_sub_cancel' hle]⟩

omit hg in
theorem capacity_eq (hpos : 0 < i.range.size) (hlt : 2 ^ clog 2 i.range.size < 2 ^ 64) :
    i.capacity = .ok (2 ^ clog 2 i.range.size) := by
  rw [Nat.pow_lt_pow_iff_right one_lt_two] at hlt
  rw [capacity, ceilLog2_eq hpos size_lt, ok_bind, if_neg (by omega), pure_eq]

theorem Geometry.construct_eq (hd : i.Divisible) :
    i.construct = .ok { i with rowsPerBank := 2 ^ clog 2 i.range.size
      / (i.rowBufferSize * i.banksPerRank * i.ranksPerChannel) } := by
  obtain ⟨a, ha⟩ := hg.inhabited
  obtain ⟨o, ho, -⟩ := hg.offset hd.apart ha
  obtain ⟨p, hp⟩ := hg.product_two_pow
  have hpos : 0 < i.rowBufferSize * i.banksPerRank * i.ranksPerChannel := by
    rw [hp]
    exact two_pow_pos p
  have hcap : 2 ^ clog 2 i.range.size < 2 ^ 64 := by
    obtain ⟨k, hk, hprod⟩ := hg.rows_two_pow
    have hk' := hd.rows_lt
    rw [hk] at hk'
    rw [hprod]
    calc i.rowBufferSize * i.banksPerRank * i.ranksPerChannel * 2 ^ k < 2 ^ 32 * 2 ^ 32 :=
          Nat.mul_lt_mul'' hd.product_lt hk'
      _ = 2 ^ 64 := by norm_num
  rw [construct, capacity_eq (by omega) hcap, ok_bind, u32_of_lt hd.product_lt,
    divide_of_pos hpos, ok_bind, pure_eq, u32_of_lt hd.rows_lt]

theorem Geometry.ready (hd : i.Divisible) : ∃ j, i.construct = .ok j ∧ j.Ready := by
  obtain ⟨r, -, hr⟩ := hg.rowBuffer
  obtain ⟨b, -, hb⟩ := i.burst_pow2
  obtain ⟨bk, hbk, hbanks⟩ := hg.banks
  obtain ⟨rk, hrk, hranks⟩ := hg.ranks
  obtain ⟨k, hrows, hcap⟩ := hg.rows_two_pow
  have hle := hd.burst_le
  rw [hb, hr, Nat.pow_le_pow_iff_right one_lt_two] at hle
  have hrow : i.perRow = 2 ^ (r - b) := by rw [perRow, hr, hb, pow_div hle two_pos]
  have hstripe : i.addrMapping = .roCoRaBaCh → i.perStripe ≠ 0 := by
    intro hmap
    rw [perStripe]
    split_ifs with hint
    · exact hd.stripe hmap hint
    · exact Nat.one_ne_zero
  have hcols := columns_eq hrow hstripe
  have hbuf : i.rowBufferSize = i.burstSize * i.perRow := by
    rw [hr, hb, hrow, ← pow_add, Nat.add_sub_cancel' hle]
  have hlt := hd.rows_lt
  rw [hrows] at hlt
  refine ⟨_, hg.construct_eq hd, hcols, ?_, ?_, ?_, ?_, ?_, ?_, ?_, fun a ha => ?_⟩
  · exact hrow ▸ two_pow_pos _
  · exact hbanks ▸ two_pow_pos _
  · exact hbanks ▸ Nat.pow_le_pow_right two_pos hbk
  · exact hranks ▸ two_pow_pos _
  · exact hranks ▸ Nat.pow_le_pow_right two_pos hrk
  · exact hrows ▸ two_pow_pos _
  · exact hrows ▸ hlt
  · obtain ⟨o, ho, hrun⟩ := hg.offset hd.apart ha
    refine ⟨o, hrun, Nat.div_lt_of_lt_mul ?_⟩
    have hsize := Nat.le_pow_clog one_lt_two i.range.size
    calc o < 2 ^ clog 2 i.range.size := by omega
      _ = i.burstSize * (i.lowerColumns * i.upperColumns) * i.banksPerRank * i.ranksPerChannel
          * 2 ^ k := by rw [hcap, hbuf, hcols]
      _ = i.burstSize * (i.lowerColumns * i.banksPerRank * i.ranksPerChannel * i.upperColumns
          * 2 ^ k) := by ring
      _ = _ := by rw [hrows]; rfl

omit hg in
theorem Decodes.divisors (hj : j.Decodes) (ha : j.range.contains a = true) :
    (∃ o, j.getCtrlAddr a = .ok o) ∧ 0 < j.lowerColumns ∧ 0 < j.rowsPerBank := by
  obtain ⟨p, hp, -⟩ := hj.place a ha 0 0 ⟨0, 0⟩ 0 true true
  obtain ⟨place, hplace, -⟩ := bind_eq_ok.1 hp
  rw [decodeAddr_parts] at hplace
  obtain ⟨o, ho, addr, haddr, hplace⟩ := bind₂_eq_ok.1 hplace
  obtain ⟨parts, -, upper, -, hplace⟩ := bind₂_eq_ok.1 hplace
  obtain ⟨row, hrow, -⟩ := bind_eq_ok.1 hplace
  exact ⟨⟨o, ho⟩, (divide_eq_ok haddr).1, (modulo_eq_ok hrow).1⟩

theorem Geometry.divisible (hrun : i.construct = .ok j) (hj : j.Decodes) : i.Divisible := by
  obtain ⟨a, ha⟩ := hg.inhabited
  obtain ⟨cap, hcap, rows, hrows, hrun⟩ := bind₂_eq_ok.1 hrun
  obtain rfl := Except.ok.inj hrun
  obtain ⟨⟨o, ho⟩, hlower, hrow⟩ := hj.divisors ha
  obtain ⟨hcolumns, hstripe⟩ := perRow_pos_of_lower hlower
  have hapart := hg.apart_of_ok ha ho
  obtain ⟨o', ho', -⟩ := hg.offset hapart ha
  -- the divisor of the constructor
  obtain ⟨hprod, rfl⟩ := divide_eq_ok hrows
  obtain ⟨e, he⟩ := hg.product_two_pow
  have hprod' : i.rowBufferSize * i.banksPerRank * i.ranksPerChannel < 2 ^ 32 := by
    rw [he] at hprod ⊢
    exact u32_two_pow_ne_zero.1 hprod.ne'
  have hcap' : cap = 2 ^ clog 2 i.range.size := by
    rw [capacity, ceilLog2_eq (by omega) size_lt, ok_bind] at hcap
    split_ifs at hcap with hn
    exact (Except.ok.inj hcap).symm
  refine ⟨?_, hprod', ?_, fun hmap hint => ?_, hapart⟩
  · by_contra hlt
    exact hcolumns.ne' (Nat.div_eq_of_lt (not_le.1 hlt))
  · obtain ⟨k, hk, -⟩ := hg.rows_two_pow
    dsimp only at hrow
    rw [u32_of_lt hprod', hcap', hk] at hrow
    rw [hk]
    exact u32_two_pow_ne_zero.1 hrow.ne'
  · have hne := hstripe hmap
    rw [perStripe] at hne
    exact (if_pos hint).symm.trans_ne hne

end Geometry

end Construct

theorem nvm2400_burst : ∃ k < 32, 64 = 2 ^ k := ⟨6, by decide, rfl⟩

/-- `NVM_2400_1x64` on the first `size` bytes; its rows are found by the constructor. -/
def nvm2400 (size : ℕ) : MemInterface where
  range := .contiguous 0 size
  addrMapping := .roRaBaCoCh
  burstSize := 64
  rowBufferSize := 256
  ranksPerChannel := 1
  banksPerRank := 16
  rowsPerBank := 0
  burst_pow2 := nvm2400_burst

theorem nvm2400_geometry (size : ℕ) (hlow : 2 ^ 12 ≤ size) (hlt : size < 2 ^ 64) :
    (nvm2400 size).Geometry := by
  have hsize : (nvm2400 size).range.size = size := by
    show usub size 0 >>> 0 = size
    rw [usub_of_le (Nat.zero_le _) hlt]
    rfl
  refine ⟨⟨8, by decide, rfl⟩, ⟨4, by decide, rfl⟩, ⟨0, by decide, rfl⟩, .inl ⟨rfl, hlt⟩, ⟨0, ?_⟩,
    ?_⟩
  · exact decide_eq_true ⟨le_rfl, (two_pow_pos 12).trans_le hlow, rfl⟩
  · rw [hsize]
    exact le_trans (by simpa [nvm2400] using hlow) (Nat.le_pow_clog one_lt_two size)

end MemInterface

end Gem5Nvm
