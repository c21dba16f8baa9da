import OpenWrt.Map.Proofs.Safety

/-!
# The addresses and ports of a MAP rule

`bmemcpy` and `bmemcpys64` move bit strings; with that the IPv4 address, the PSID and the
interface identifier are read off bit by bit, and the port sets are the ports whose middle
bits are the PSID.
-/

namespace OpenWrt.Map

open Lib Lib.Traced Function Option

variable {a b : Buffer} {asize bsize n frombits i : Nat} {r : Rule}

/-! ## Copies of bit strings -/

theorem testBit_mask {k j : Nat} (hj : j < 8) :
    (UInt8.ofNat (2 ^ k - 1)).toNat.testBit j = decide (j < k) := by
  rw [UInt8.toNat_ofNat', Nat.testBit_mod_two_pow, Nat.testBit_two_pow_sub_one,
    decide_eq_true hj, Bool.true_and]

theorem testBit_not (x : UInt8) {j : Nat} (hj : j < 8) :
    (~~~x).toNat.testBit j = !x.toNat.testBit j := by
  have hbit : (~~~x.toBitVec).getLsbD j = (decide (j < 8) && !x.toBitVec.getLsbD j) :=
    BitVec.getLsbD_not
  rw [decide_eq_true hj] at hbit
  exact hbit

theorem testBit_merge (x y : UInt8) {k j : Nat} (hj : j < 8) :
    ((x &&& UInt8.ofNat (2 ^ k - 1)) ||| (~~~UInt8.ofNat (2 ^ k - 1) &&& y)).toNat.testBit j =
      if j < k then x.toNat.testBit j else y.toNat.testBit j := by
  rw [UInt8.toNat_or, UInt8.toNat_and, UInt8.toNat_and, Nat.testBit_or, Nat.testBit_and,
    Nat.testBit_and, testBit_not _ hj, testBit_mask hj]
  by_cases h : j < k
  · simp [h]
  · simp [h]

theorem bit_bmemcpy :
    bit (bmemcpy asize bsize a b n).val i = if i < n then bit b i else bit a i := by
  by_cases hn : 0 < n % 8
  · have hval : (bmemcpy asize bsize a b n).val = update (memcpy a 0 b 0 (n / 8)) (n / 8)
        ((memcpy a 0 b 0 (n / 8) (n / 8) &&& UInt8.ofNat (2 ^ (8 - n % 8) - 1)) |||
          (~~~UInt8.ofNat (2 ^ (8 - n % 8) - 1) &&& b (n / 8))) := by
      simp only [bmemcpy, val_bind, if_pos hn, val_pure]
    rw [hval, bit]
    rcases lt_trichotomy (i / 8) (n / 8) with hlt | heq | hgt
    · rw [update_of_ne (ne_of_lt hlt), memcpy_inside (by omega), if_pos (by omega),
        Nat.sub_zero, zero_add, bit]
    · rw [heq, update_self, testBit_merge _ _ (by omega), memcpy_outside (by omega)]
      by_cases hi : i < n
      · rw [if_neg (by omega), if_pos hi, bit, heq]
      · rw [if_pos (by omega), if_neg hi, bit, heq]
    · rw [update_of_ne (ne_of_gt hgt), memcpy_outside (by omega), if_neg (by omega),
        bit]
  · have hval : (bmemcpy asize bsize a b n).val = memcpy a 0 b 0 (n / 8) := by
      simp only [bmemcpy, val_bind, if_neg hn, val_pure]
    rw [hval, bit]
    by_cases hi : i < n
    · rw [memcpy_inside (by omega), if_pos hi, Nat.sub_zero, zero_add, bit]
    · rw [memcpy_outside (by omega), if_neg hi, bit]

theorem bit_bmemcpys64 (hfit : frombits % 8 + n < 64) :
    bit (bmemcpys64 asize bsize a b frombits n).val i =
      if i < n then bit b (frombits + i) else bit a i := by
  simp only [bmemcpys64, val_bind]
  rw [bit_bmemcpy]
  by_cases hi : i < n
  · have hshift : ∀ buf : Buffer,
        bit (beStore buf 0 8 (beNat buf 0 8 * 2 ^ (frombits % 8) % 2 ^ 64)) i =
          bit buf (i + frombits % 8) := by
      intro buf
      have hbit : bit (beStore buf 0 8 (beNat buf 0 8 * 2 ^ (frombits % 8) % 2 ^ (8 * 8)))
          (8 * 0 + i) = bit buf (8 * 0 + (i + frombits % 8)) := bit_beStore_shift (by omega)
      rwa [Nat.zero_add, Nat.zero_add] at hbit
    have hdiv : (frombits + i) / 8 = frombits / 8 + (i + frombits % 8) / 8 := by omega
    have hmod : (frombits + i) % 8 = (i + frombits % 8) % 8 := by omega
    rw [if_pos hi, if_pos hi, hshift, bit, bit, memcpy_inside (by omega), Nat.sub_zero, hdiv, hmod]
  · rw [if_neg hi, if_neg hi]

/-! ## The PSID -/

def eaPsid (r : Rule) : Nat :=
  bitsNat r.pd (r.prefix6len + r.ealen - r.psidlen).toNat r.psidlen.toNat

/-- The PSID: the one that was given, cut to its length, or the one in the EA bits. -/
def psidOf (r : Rule) : Nat :=
  if r.psid < 0 then eaPsid r else r.psid.toNat / 2 ^ (16 - r.psidlen).toNat

theorem beNat_bmemcpys64 {l : Nat} (hl : l ≤ 16) :
    beNat (bmemcpys64 asize bsize (fun _ => 0) b frombits l).val 0 2 =
      bitsNat b frombits l * 2 ^ (16 - l) := by
  apply Nat.eq_of_testBit_eq
  intro j
  rw [Nat.testBit_mul_two_pow, testBit_bitsNat]
  by_cases hj : j < 16
  · rw [testBit_beNat (by omega), bit_bmemcpys64 (by omega)]
    by_cases hlow : 16 - l ≤ j
    · have hpos : 8 * 0 + (8 * 2 - 1 - j) = l - 1 - (j - (16 - l)) := by omega
      rw [if_pos (by omega), decide_eq_true hlow, decide_eq_true (by omega), hpos]
      rfl
    · rw [if_neg (by omega), decide_eq_false hlow]
      simp [bit]
  · have hpow : 2 ^ (8 * 2) ≤ 2 ^ j := Nat.pow_le_pow_right (by decide) (by omega)
    have hhigh : ¬j - (16 - l) < l := by omega
    rw [Nat.testBit_lt_two_pow ((beNat_lt _ _ _).trans_le hpow), decide_eq_false hhigh,
      Bool.false_and, Bool.and_false]

theorem bitsNat_lt (b : Buffer) (off n : Nat) : bitsNat b off n < 2 ^ n := by
  induction n with
  | zero => exact one_pos
  | succ n ih =>
    have hdigit := Bool.toNat_lt (bit b (off + n))
    rw [bitsNat]
    omega

structure Rule.Ready (r : Rule) : Prop extends r.Lengths where
  fresh : r.Fresh
  psid : r.psid ≤ 65535
  auto : r.psidlen = 0 → r.psid < 0
  pdlen : 0 ≤ r.pdlen

theorem psidOf_lt (h : r.Ready) : psidOf r < 2 ^ r.psidlen.toNat := by
  have hpsidlen := h.psidlen
  have hpsid := h.psid
  unfold psidOf
  split
  · exact bitsNat_lt _ _ _
  · have hsum : (16 - r.psidlen).toNat + r.psidlen.toNat = 16 := by omega
    rw [Nat.div_lt_iff_lt_mul (Nat.two_pow_pos _), ← pow_add, add_comm, hsum]
    omega

theorem readPsid_eq (h : r.Ready) : ∃ psid16 x,
    (readPsid r).val = { r with psid16, psid := (x : Nat) } ∧ x < 65536 ∧
      x / 2 ^ (16 - r.psidlen).toNat = psidOf r ∧
      (r.psidlen = 0 → beNat psid16 0 2 = psidOf r ∧ x = 0) := by
  have hpsidlen := h.psidlen
  have hpdlen := h.pdlen
  by_cases hneg : r.psid < 0
  · have hlen : (16 - r.psidlen).toNat = 16 - r.psidlen.toNat := by omega
    have hread : r.psid < 0 ∧ 0 ≤ r.psidlen ∧ 0 ≤ r.pdlen := ⟨hneg, hpsidlen.1, hpdlen⟩
    obtain ⟨psid16, hpsid16⟩ : ∃ psid16, psid16 = (bmemcpys64 2 16 (fun _ => 0) r.pd
        (r.prefix6len + r.ealen - r.psidlen).toNat r.psidlen.toNat).val := ⟨_, rfl⟩
    have hpsid : psidOf r =
        bitsNat r.pd (r.prefix6len + r.ealen - r.psidlen).toNat r.psidlen.toNat := if_pos hneg
    have hbits : beNat psid16 0 2 = psidOf r * 2 ^ (16 - r.psidlen.toNat) := by
      rw [hpsid16, hpsid]
      exact beNat_bmemcpys64 (by omega)
    refine ⟨psid16, beNat psid16 0 2, ?_, beNat_lt _ 0 2, ?_, ?_⟩
    · rw [readPsid, if_pos hread, hpsid16, ← h.fresh.psid16]
      rfl
    · rw [hbits, hlen, Nat.mul_div_cancel _ (Nat.two_pow_pos _)]
    · intro hzero
      have hnone : psidOf r = 0 := by
        rw [hpsid, hzero]
        rfl
      rw [hbits, hnone, zero_mul]
      exact ⟨rfl, rfl⟩
  · have hpsid : psidOf r = r.psid.toNat / 2 ^ (16 - r.psidlen).toNat := if_neg hneg
    have hle := h.psid
    refine ⟨r.psid16, r.psid.toNat, ?_, by omega, hpsid.symm, ?_⟩
    · rw [readPsid, if_neg (fun hread => hneg hread.1), Int.toNat_of_nonneg (by omega)]
      rfl
    · intro hzero
      exact absurd (h.auto hzero) hneg

theorem psid_eq (h : r.Ready) : ∃ psid16,
    (alignPsid (readPsid r).val).val =
      { r with psid16, psid := (psidOf r * 2 ^ (16 - r.psidlen).toNat : Nat) } ∧
      beNat psid16 0 2 = psidOf r := by
  have hpsidlen := h.psidlen
  obtain ⟨psid16, x, hread, hlt, hdiv, hzero⟩ := readPsid_eq h
  rw [hread]
  by_cases hpos : 0 < r.psidlen
  · have hshift : ((x : Int) >>> (16 - r.psidlen).toNat) = (psidOf r : Nat) := by
      rw [Int.shiftRight_eq_div_pow]
      norm_cast
    have hsmall : psidOf r < 65536 := by
      rw [← hdiv]
      exact (Nat.div_le_self _ _).trans_lt hlt
    refine ⟨beStore psid16 0 2 (psidOf r), ?_, beNat_beStore hsmall⟩
    rw [alignPsid, if_pos hpos]
    simp only [hshift]
    have hmod : ((psidOf r : Int) % 65536).toNat = psidOf r := by omega
    rw [hmod]
    rfl
  · have hnone : r.psidlen = 0 := by omega
    obtain ⟨hpsid16, hx⟩ := hzero hnone
    refine ⟨psid16, ?_, hpsid16⟩
    rw [alignPsid, if_neg hpos, ← hdiv, hx]
    simp

/-! ## The addresses -/

theorem bit_shiftRight {s : Nat} (hs : s ≤ i) (hi : i < 32) :
    bit (beStore a 0 4 (beNat a 0 4 >>> s)) i = bit a (i - s) := by
  have hbit : bit (beStore a 0 4 (beNat a 0 4 >>> s)) (8 * 0 + i) = bit a (8 * 0 + (i - s)) :=
    bit_beStore_shiftRight hs hi
  rwa [Nat.zero_add, Nat.zero_add] at hbit

theorem readIpv4_eq (h : r.Lengths) (hpd : 0 ≤ r.pdlen)
    (hea : r.ealen = 32 - r.prefix4len + r.psidlen) : ∃ addr,
    (readIpv4 r).val = { r with ipv4addr := addr } ∧
      bits addr 0 32 = bits r.ipv4prefixAddr 0 r.prefix4len.toNat ++
        bits r.pd r.prefix6len.toNat (r.ealen - r.psidlen).toNat := by
  have h4 := h.prefix4len
  have hpsidlen := h.psidlen
  have hlong : ¬r.prefix4len + r.ealen < 32 := by omega
  have hsum : 32 = r.prefix4len.toNat + (r.ealen - r.psidlen).toNat := by omega
  rw [readIpv4, if_pos (.inl hpd)]
  simp only [if_neg hlong]
  refine ⟨_, rfl, ?_⟩
  rw [hsum, bits_append]
  congr 1
  · apply bits_congr
    intro i hi
    rw [bit_bmemcpy, if_pos (by omega)]
  · apply bits_congr
    intro i hi
    rw [bit_bmemcpy, if_neg (by omega), bit_shiftRight (by omega) (by omega),
      bit_bmemcpys64 (by omega), if_pos (by omega)]
    congr 1
    omega

theorem bmemcpy_outside {j : Nat} (hj : n ≤ 8 * j) : (bmemcpy asize bsize a b n).val j = a j := by
  by_cases hn : 0 < n % 8
  · simp only [bmemcpy, val_bind, if_pos hn, val_pure]
    rw [update_of_ne (by omega), memcpy_outside (by omega)]
  · simp only [bmemcpy, val_bind, if_neg hn, val_pure]
    rw [memcpy_outside (by omega)]

theorem makeIpv6_eq (legacy : Bool) (hpd : 0 ≤ r.pdlen) (hle : r.pdlen ≤ 64) : ∃ ipv6addr,
    (makeIpv6 legacy r).val = { r with ipv6addr } ∧
      bits ipv6addr 0 r.pdlen.toNat = bits r.pd 0 r.pdlen.toNat ∧
      slice ipv6addr (v4offset legacy) 4 = slice r.ipv4addr 0 4 ∧
      beNat ipv6addr (v4offset legacy + 4) 2 = beNat r.psid16 0 2 := by
  have hoffset : 9 ≤ v4offset legacy := by cases legacy <;> decide
  rw [makeIpv6, if_pos hpd]
  refine ⟨_, rfl, ?_, ?_, ?_⟩
  · apply bits_congr
    intro i hi
    rw [bit_bmemcpy, if_pos (by omega)]
  · apply slice_congr
    intro i hi
    rw [bmemcpy_outside (by omega), memcpy_outside (by omega), memcpy_inside (by omega)]
    congr 1
    omega
  · apply beNat_congr
    intro i hi
    rw [bmemcpy_outside (by omega), memcpy_inside (by omega)]
    congr 1
    omega

/-! ## The ports -/

/-- The ports of a rule: the bits behind the first `offset` are the PSID, and those are not
all zero. -/
def PortOf (offset psidlen psid p : Nat) : Prop :=
  0 < p ∧ p < 65536 ∧ p / 2 ^ (16 - offset - psidlen) % 2 ^ psidlen = psid ∧
    (0 < offset → p / 2 ^ (16 - offset) ≠ 0)

instance (offset psidlen psid p : Nat) : Decidable (PortOf offset psidlen psid p) :=
  inferInstanceAs (Decidable (_ ∧ _))

structure PortRule (r : Rule) (o l psid : Nat) : Prop where
  offset : r.offset = o
  psidlen : r.psidlen = l
  fits : o + l ≤ 16
  psid_lt : psid < 2 ^ l
  /-- Left-aligned. -/
  psid_eq : r.psid = (psid * 2 ^ (16 - l) : Nat)

section Ports

variable {o l psid p k : Nat} (h : PortRule r o l psid)

include h

/-- `(k << (16 - offset)) | (psid >> offset)`: the operands have no bits in common. -/
theorem PortRule.start_eq (k : Nat) :
    (k * 2 ^ (16 - r.offset).toNat) ||| (r.psid.toNat / 2 ^ r.offset.toNat) =
      (k * 2 ^ l + psid) * 2 ^ (16 - o - l) := by
  have hfits := h.fits
  have ho : r.offset.toNat = o := by rw [h.offset]; exact Int.toNat_natCast o
  have hsub : (16 - r.offset).toNat = l + (16 - o - l) := by
    rw [h.offset]
    omega
  have hshift : psid * 2 ^ (16 - l) / 2 ^ o = psid * 2 ^ (16 - o - l) := by
    have hexp : 16 - l = 16 - o - l + o := by omega
    rw [hexp, pow_add, ← mul_assoc, Nat.mul_div_cancel _ (Nat.two_pow_pos o)]
  have hlow : psid * 2 ^ (16 - o - l) < 2 ^ (l + (16 - o - l)) := by
    rw [pow_add]
    exact Nat.mul_lt_mul_of_pos_right h.psid_lt (Nat.two_pow_pos _)
  rw [h.psid_eq, Int.toNat_natCast, ho, hsub, hshift, mul_comm k,
    ← Nat.two_pow_add_eq_or_of_lt hlow, pow_add, add_mul, mul_comm k, mul_assoc,
    mul_assoc, mul_comm k]

theorem PortRule.mem_portset (k p : Nat) :
    (∃ range ∈ (portset r k).val, range.1 ≤ p ∧ p ≤ range.2) ↔
      0 < p ∧ p / 2 ^ (16 - o - l) = k * 2 ^ l + psid := by
  have hwidth : (16 - r.offset - r.psidlen).toNat = 16 - o - l := by
    rw [h.offset, h.psidlen]
    omega
  have hpos := Nat.two_pow_pos (16 - o - l)
  simp only [portset, val_bind, val_pure, h.start_eq k, hwidth]
  rw [Nat.div_eq_iff hpos]
  generalize (k * 2 ^ l + psid) * 2 ^ (16 - o - l) = start
  -- port 0 is left out of the first set
  generalize hfirst : (if start = 0 then 1 else start) = first
  have hport : first ≤ p ↔ 0 < p ∧ start ≤ p := by
    rw [← hfirst]
    split <;> omega
  by_cases hempty : first ≤ start + 2 ^ (16 - o - l) - 1
  · rw [if_pos hempty]
    simp only [mem_def, some.injEq, exists_eq_left', hport, and_assoc]
  · rw [if_neg hempty]
    simp only [mem_def, reduceCtorEq, false_and, exists_false, false_iff]
    rintro ⟨hp, hle, hlast⟩
    exact hempty ((hport.mpr ⟨hp, hle⟩).trans hlast)

theorem PortRule.mem_portsetLoop (n k p : Nat) :
    (∃ range ∈ (portsetLoop r n k).val, range.1 ≤ p ∧ p ≤ range.2) ↔
      0 < p ∧ ∃ j, k ≤ j ∧ j < k + n ∧ p / 2 ^ (16 - o - l) = j * 2 ^ l + psid := by
  induction n generalizing k with
  | zero =>
    simp only [portsetLoop, val_pure, List.not_mem_nil, false_and, exists_false, false_iff]
    rintro ⟨-, j, hle, hlt, -⟩
    omega
  | succ n ih =>
    have hone := h.mem_portset k p
    have hrest := ih (k + 1)
    simp only [portsetLoop, val_bind, val_pure, List.mem_append, mem_toList, or_and_right,
      exists_or]
    simp only [mem_def] at hone
    rw [hone, hrest]
    constructor
    · rintro (⟨hp, heq⟩ | ⟨hp, j, hle, hlt, heq⟩)
      · exact ⟨hp, k, le_refl k, by omega, heq⟩
      · exact ⟨hp, j, by omega, by omega, heq⟩
    · rintro ⟨hp, j, hle, hlt, heq⟩
      rcases Nat.lt_or_eq_of_le hle with hgt | rfl
      · exact .inr ⟨hp, j, hgt, by omega, heq⟩
      · exact .inl ⟨hp, heq⟩

theorem PortRule.portOf_iff (p : Nat) : PortOf o l psid p ↔
    0 < p ∧ ∃ j, (if o = 0 then 0 else 1) ≤ j ∧ j < 2 ^ o ∧
      p / 2 ^ (16 - o - l) = j * 2 ^ l + psid := by
  have hfits := h.fits
  have hsets : p / 2 ^ (16 - o) = p / 2 ^ (16 - o - l) / 2 ^ l := by
    rw [Nat.div_div_eq_div_mul, ← Nat.pow_add]
    congr 2
    omega
  have hall : p < 65536 ↔ p / 2 ^ (16 - o) < 2 ^ o := by
    rw [Nat.div_lt_iff_lt_mul (Nat.two_pow_pos _), ← Nat.pow_add]
    have hexp : o + (16 - o) = 16 := by omega
    rw [hexp]
  have hsplit : ∀ j, p / 2 ^ (16 - o - l) = j * 2 ^ l + psid ↔
      p / 2 ^ (16 - o) = j ∧ p / 2 ^ (16 - o - l) % 2 ^ l = psid := by
    intro j
    rw [hsets, Nat.div_mod_unique (Nat.two_pow_pos l), and_iff_left h.psid_lt, add_comm,
      mul_comm, eq_comm]
  unfold PortOf
  rw [hall]
  constructor
  · rintro ⟨hp, hlt, hpsid, hzero⟩
    refine ⟨hp, p / 2 ^ (16 - o), ?_, hlt, (hsplit _).mpr ⟨rfl, hpsid⟩⟩
    split
    · exact Nat.zero_le _
    · exact Nat.pos_of_ne_zero (hzero (by omega))
  · rintro ⟨hp, j, hle, hlt, heq⟩
    obtain ⟨rfl, hpsid⟩ := (hsplit j).mp heq
    refine ⟨hp, hlt, hpsid, fun ho => ?_⟩
    rw [if_neg (by omega)] at hle
    omega

theorem PortRule.portsets_eq (hpos : 0 < l) : ∃ ps, (portsets r).val = some ps ∧
    ∀ p, (∃ range ∈ ps, range.1 ≤ p ∧ p ≤ range.2) ↔ PortOf o l psid p := by
  have hprint : 0 < r.psidlen ∧ 0 ≤ r.psid := by
    rw [h.psidlen, h.psid_eq]
    omega
  have ho : r.offset.toNat = o := by rw [h.offset]; exact Int.toNat_natCast o
  have hfirst : (if r.offset = 0 then 0 else 1) = if o = 0 then 0 else 1 := by
    rw [h.offset]
    simp only [Nat.cast_eq_zero]
  have hone : (if o = 0 then 0 else 1) ≤ 2 ^ o := by
    split
    · exact Nat.zero_le _
    · exact Nat.one_le_two_pow
  rw [portsets, if_pos hprint]
  refine ⟨_, rfl, fun p => ?_⟩
  rw [ho, hfirst, h.mem_portsetLoop, h.portOf_iff, Nat.add_sub_cancel' hone]

end Ports

/-! ## The rule -/

/-- The lengths of a MAP rule whose EA bits are the rest of the IPv4 address and the PSID. -/
structure IsMapRule (r : Rule) : Prop where
  prefix4len : 0 ≤ r.prefix4len ∧ r.prefix4len ≤ 32
  prefix6len : 0 ≤ r.prefix6len
  pdlen : r.prefix6len + r.ealen ≤ r.pdlen ∧ r.pdlen ≤ 64
  ealen : r.ealen = 32 - r.prefix4len + r.psidlen
  offset : r.offset + r.psidlen ≤ 16

/-- The lines printed are those of the mapping with this IPv4 address and PSID. -/
structure Maps (legacy : Bool) (r : Rule) (psid : Nat) (out : Printed) (addr ipv6addr : Buffer) :
    Prop where
  ipv4 : bits addr 0 32 = bits r.ipv4prefixAddr 0 r.prefix4len.toNat ++
    bits r.pd r.prefix6len.toNat (r.ealen - r.psidlen).toNat
  ipv4_line : out.ipv4addr = if beNat addr 0 4 = 0 then none else some (addr, 32)
  ipv6_line : out.pd = some (r.pd, r.pdlen, ipv6addr)
  ipv6_front : bits ipv6addr 0 r.pdlen.toNat = bits r.pd 0 r.pdlen.toNat
  iid_ipv4 : slice ipv6addr (v4offset legacy) 4 = slice addr 0 4
  iid_psid : beNat ipv6addr (v4offset legacy + 4) 2 = psid
  ports : 0 < r.psidlen → ∃ ps, out.portsets = some ps ∧ ∀ p,
    (∃ range ∈ ps, range.1 ≤ p ∧ p ≤ range.2) ↔ PortOf r.offset.toNat r.psidlen.toNat psid p
  all_ports : r.psidlen = 0 → out.portsets = none

def Rule.computed (r : Rule) (psid16 addr ipv6addr : Buffer) : Rule :=
  { r with
    psid16
    psid := (psidOf r * 2 ^ (16 - r.psidlen).toNat : Nat)
    ipv4addr := addr
    ipv6addr }

theorem Rule.Ready.portRule (h : r.Ready) (hfits : r.offset + r.psidlen ≤ 16)
    (psid16 addr ipv6addr : Buffer) :
    PortRule (r.computed psid16 addr ipv6addr) r.offset.toNat r.psidlen.toNat (psidOf r) := by
  have hpsidlen := h.psidlen
  have hoffset := h.offset
  have hexp : (16 - r.psidlen).toNat = 16 - r.psidlen.toNat := by omega
  refine ⟨(Int.toNat_of_nonneg hoffset.1).symm, (Int.toNat_of_nonneg hpsidlen.1).symm, by omega,
    psidOf_lt h, ?_⟩
  rw [Rule.computed, hexp]

theorem compute_maps (env : Env) (h : r.Ready) (hmap : IsMapRule r) : ∃ out addr ipv6addr,
    (compute env r).val = some out ∧ Maps env.legacy r (psidOf r) out addr ipv6addr := by
  obtain ⟨psid16, hpsid, hpsid16⟩ := psid_eq h
  have hlengths : Rule.Lengths (r.computed psid16 r.ipv4addr r.ipv6addr) :=
    ⟨h.prefix4len, h.prefix6len, h.offset, h.psidlen, h.ealen⟩
  obtain ⟨addr, haddr, hbits⟩ := readIpv4_eq hlengths h.pdlen hmap.ealen
  have hpd : 0 ≤ (r.computed psid16 addr r.ipv6addr).pdlen := h.pdlen
  obtain ⟨ipv6addr, hipv6, hfront, hiid, hiidPsid⟩ := makeIpv6_eq env.legacy hpd hmap.pdlen.2
  have hports := h.portRule hmap.offset psid16 addr ipv6addr
  refine ⟨(r.computed psid16 addr ipv6addr).print (portsets (r.computed psid16 addr ipv6addr)).val,
    addr, ipv6addr, ?_, ?_⟩
  · have hskip : ¬((r.computed psid16 addr r.ipv6addr).pdlen < 0 ∧
        (r.computed psid16 addr r.ipv6addr).fmr = false) :=
      fun hneg => absurd hneg.1 (Int.not_lt.mpr hpd)
    change (alignPsid (readPsid r).val).val = r.computed psid16 r.ipv4addr r.ipv6addr at hpsid
    change _ = r.computed psid16 addr r.ipv6addr at haddr
    change _ = r.computed psid16 addr ipv6addr at hipv6
    simp only [compute, val_bind, hpsid, haddr]
    rw [if_neg hskip]
    simp only [val_bind, hipv6, val_pure]
  · refine ⟨hbits, ?_, if_pos h.pdlen, hfront, hiid, hiidPsid.trans hpsid16, ?_, ?_⟩
    · simp only [Rule.print, Rule.computed, h.fresh.addr4len]
    · intro hpos
      exact hports.portsets_eq (by omega)
    · intro hzero
      have hnone : ¬(0 < (r.computed psid16 addr ipv6addr).psidlen ∧
          0 ≤ (r.computed psid16 addr ipv6addr).psid) := by
        rintro ⟨hpos, -⟩
        exact absurd hzero (Int.ne_of_gt hpos)
      rw [portsets, if_neg hnone]
      rfl

theorem IsMapRule.valid (hmap : IsMapRule r) (h : r.Resolved) : r.Valid := by
  obtain ⟨h4, h6, hpdlen, healen, hfits⟩ := hmap
  have hpsidlen := h.psidlen
  have hoffset := h.offset
  unfold Rule.Valid
  omega

theorem Resolved.compute_maps (env : Env) (h : r.Resolved) (hmap : IsMapRule r) :
    ∃ out addr ipv6addr, (if r.Valid then compute env r else return none).val = some out ∧
      Maps env.legacy r (psidOf r) out addr ipv6addr := by
  have hvalid := hmap.valid h
  have hlengths := h.valid hvalid
  have hpdlen := hmap.pdlen.1
  have hea := hlengths.ealen
  have hpsidlen := h.psidlen
  have h6 := hmap.prefix6len
  rw [if_pos hvalid]
  exact Map.compute_maps env ⟨hlengths, h.fresh, h.psid, h.auto, by omega⟩ hmap

/-- A rule is printed with the mapping that its lengths, its prefixes and its PSID define. -/
theorem mapRule_maps (env : Env) (opts : List Opt) (hmap : IsMapRule (resolve env opts).val) :
    ∃ out addr ipv6addr, (mapRule env opts).val = some out ∧
      Maps env.legacy (resolve env opts).val (psidOf (resolve env opts).val) out addr ipv6addr :=
  Resolved.compute_maps env (resolve_spec env opts).1 hmap

theorem isMapRule_mapeOpts : IsMapRule (resolve noDump mapeOpts).val := by
  constructor <;> decide

theorem mapeOpts_maps : IsMapRule (resolve noDump mapeOpts).val ∧
    ∃ out addr ipv6addr, (mapRule noDump mapeOpts).val = some out ∧
      Maps false (resolve noDump mapeOpts).val 0 out addr ipv6addr := by
  have hmaps := mapRule_maps noDump mapeOpts isMapRule_mapeOpts
  exact ⟨isMapRule_mapeOpts, hmaps⟩

def givenPsidOpts : List Opt := mapeOpts ++ [.psidlen (some 8), .psid (some 0x1200)]

/-- A PSID that is given takes the place of the one in the EA bits. -/
theorem given_psid_not_eaPsid :
    IsMapRule (resolve noDump givenPsidOpts).val ∧ eaPsid (resolve noDump givenPsidOpts).val = 0 ∧
      psidOf (resolve noDump givenPsidOpts).val = 0x12 ∧
      ¬∃ out addr ipv6addr, (mapRule noDump givenPsidOpts).val = some out ∧
        Maps false (resolve noDump givenPsidOpts).val (eaPsid (resolve noDump givenPsidOpts).val)
          out addr ipv6addr := by
  have hea : eaPsid (resolve noDump givenPsidOpts).val = 0 := by decide
  have hprinted : ((mapRule noDump givenPsidOpts).val.bind (·.pd)).map
      (fun pd => beNat pd.2.2 14 2) =
      some 0x12 := by decide +kernel
  refine ⟨by constructor <;> decide, hea, by decide, ?_⟩
  rintro ⟨out, addr, ipv6addr, hout, hmaps⟩
  rw [hout, bind_some, hmaps.ipv6_line, map_some, some.injEq] at hprinted
  have hpsid := hmaps.iid_psid
  exact absurd (hpsid.symm.trans hprinted) (by decide)

/-! ## Sharing an address -/

def eaAddress (r : Rule) : List Bool := bits r.pd r.prefix6len.toNat (r.ealen - r.psidlen).toNat

structure SameRule (r r' : Rule) : Prop where
  prefix4len : r'.prefix4len = r.prefix4len
  psidlen : r'.psidlen = r.psidlen
  offset : r'.offset = r.offset
  psid : r.psid < 0 ∧ r'.psid < 0

def Apart (out out' : Printed) : Prop :=
  out.ipv4addr ≠ out'.ipv4addr ∨ ∃ ps ps', out.portsets = some ps ∧ out'.portsets = some ps' ∧
    ∀ p, ¬((∃ range ∈ ps, range.1 ≤ p ∧ p ≤ range.2) ∧ ∃ range ∈ ps', range.1 ≤ p ∧ p ≤ range.2)

theorem bits_of_beNat (h : beNat a 0 4 = beNat b 0 4) : bits a 0 32 = bits b 0 32 := by
  apply bits_congr
  intro i hi
  have hbit := congrArg (Nat.testBit · (31 - i)) h
  have hpos : 8 * 0 + (8 * 4 - 1 - (31 - i)) = 0 + i := by omega
  simp only [testBit_beNat (show 31 - i < 8 * 4 by omega), hpos] at hbit
  exact hbit

/-- Customers with different EA bits never share both an address and a port. -/
theorem no_shared_port (env env' : Env) (opts opts' : List Opt)
    (hmap : IsMapRule (resolve env opts).val) (hmap' : IsMapRule (resolve env' opts').val)
    (hsame : SameRule (resolve env opts).val (resolve env' opts').val)
    (hea : eaAddress (resolve env opts).val ≠ eaAddress (resolve env' opts').val ∨
      eaPsid (resolve env opts).val ≠ eaPsid (resolve env' opts').val) :
    ∃ out out', (mapRule env opts).val = some out ∧ (mapRule env' opts').val = some out' ∧
      Apart out out' := by
  have hresolved := (resolve_spec env opts).1
  obtain ⟨out, addr, ipv6addr, hout, hmaps⟩ := Resolved.compute_maps env hresolved hmap
  obtain ⟨out', addr', ipv6addr', hout', hmaps'⟩ :=
    Resolved.compute_maps env' (resolve_spec env' opts').1 hmap'
  refine ⟨out, out', hout, hout', or_iff_not_imp_left.mpr fun hline => ?_⟩
  generalize (resolve env opts).val = r at *
  generalize (resolve env' opts').val = r' at *
  -- one address printed twice: its bits behind the prefix are the EA bits
  have haddr : bits addr 0 32 = bits addr' 0 32 := by
    rw [not_not, hmaps.ipv4_line, hmaps'.ipv4_line] at hline
    apply bits_of_beNat
    split_ifs at hline with hzero hzero'
    · rw [hzero, hzero']
    · simp only [some.injEq, Prod.mk.injEq, and_true] at hline
      rw [hline]
  rw [hmaps.ipv4, hmaps'.ipv4, hsame.prefix4len] at haddr
  have hpsid : eaPsid r ≠ eaPsid r' :=
    hea.resolve_left (not_not.mpr (List.append_inj haddr (by simp [bits])).2)
  have hpos : 0 < r.psidlen := by
    by_contra hzero
    have hlen : r.psidlen.toNat = 0 := by omega
    exact hpsid (by rw [eaPsid, eaPsid, hsame.psidlen, hlen, bitsNat, bitsNat])
  obtain ⟨ps, hps, hports⟩ := hmaps.ports hpos
  obtain ⟨ps', hps', hports'⟩ := hmaps'.ports (by rw [hsame.psidlen]; exact hpos)
  rw [psidOf, if_pos hsame.psid.1] at hports
  rw [psidOf, if_pos hsame.psid.2, hsame.offset, hsame.psidlen] at hports'
  refine ⟨ps, ps', hps, hps', fun p => ?_⟩
  rw [hports, hports']
  exact fun h => hpsid (h.1.2.2.1.symm.trans h.2.2.2.1)

def neighbourOpts : List Opt := mapeOpts ++ [.pd (some fun i => if i = 6 then 1 else 0)]

theorem no_shared_port_neighbour :
    ∃ out out', (mapRule noDump mapeOpts).val = some out ∧
      (mapRule noDump neighbourOpts).val = some out' ∧ Apart out out' :=
  no_shared_port noDump noDump mapeOpts neighbourOpts isMapRule_mapeOpts
    (by constructor <;> decide) ⟨by decide, by decide, by decide, by decide⟩ (.inr (by decide))

end OpenWrt.Map
