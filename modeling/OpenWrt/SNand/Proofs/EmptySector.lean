import OpenWrt.SNand.Driver

/-!
# Repairing an erased sector

`mtk_ecc_fixup_empty_sector` counts the zero bits of a sector with a byte loop, a word loop
and a bit loop, each of which may give up early.  Together they are one count over the bits
that the ECC covers, compared once with the number of bits it can correct.
-/

namespace OpenWrt.SNand

open Lib List Nat

/-! ## Bits of a buffer -/

/-- The first `n` bits from byte `off` on, as pairs of byte and bit. -/
def bitsFrom (off n : Nat) : List (Nat × Nat) := (range n).map fun k => (off + k / 8, k % 8)

def bitAt (b : Buffer) (p : Nat × Nat) : Bool := (b p.1).toNat.testBit p.2

def zeroBits (b : Buffer) (ps : List (Nat × Nat)) : Nat := ps.countP fun p => !bitAt b p

def Snf.sectorBits (snf : Snf) (sect : Nat) : List (Nat × Nat) :=
  bitsFrom (sect * snf.soc.sectorSize) (8 * snf.soc.sectorSize) ++
    (bitsFrom (snf.writesize + sect * snf.soc.fdmSize) (8 * snf.soc.fdmEccSize) ++
      bitsFrom (snf.eccPtr sect) (snf.eccStrength * fls (snf.soc.sectorSize * 8)))

def Snf.flipped (snf : Snf) (cache : Buffer) (sect : Nat) : Finset (Nat × Nat) :=
  (snf.sectorBits sect).toFinset.filter fun p => bitAt cache p = false

variable {b : Buffer} {off n : Nat} {p : Nat × Nat}

theorem mem_bitsFrom : p ∈ bitsFrom off n ↔ off ≤ p.1 ∧ p.2 < 8 ∧ 8 * (p.1 - off) + p.2 < n := by
  obtain ⟨a, i⟩ := p
  simp only [bitsFrom, mem_map, mem_range, Prod.mk.injEq]
  constructor
  · rintro ⟨k, hk, rfl, rfl⟩
    omega
  · rintro ⟨ha, hi, hn⟩
    exact ⟨8 * (a - off) + i, hn, by omega, by omega⟩

theorem bitsFrom_nodup (off n : Nat) : (bitsFrom off n).Nodup := by
  apply List.Nodup.map_on _ nodup_range
  intro x _ y _ heq
  simp only [Prod.mk.injEq] at heq
  omega

theorem zeroBits_append (b : Buffer) (ps qs : List (Nat × Nat)) :
    zeroBits b (ps ++ qs) = zeroBits b ps + zeroBits b qs :=
  countP_append

theorem bitsFrom_add (off n m : Nat) :
    bitsFrom off (8 * n + m) = bitsFrom off (8 * n) ++ bitsFrom (off + n) m := by
  simp only [bitsFrom, range_add, map_append, map_map]
  congr 1
  apply map_congr_left
  intro k _
  simp only [Function.comp_apply, Prod.mk.injEq]
  omega

def zeros (xs : List UInt8) : Nat := (xs.map fun x => 8 - hweight8 x).sum

theorem zeros_cons (x : UInt8) (xs : List UInt8) :
    zeros (x :: xs) = 8 - hweight8 x + zeros xs := rfl

theorem zeros_append (xs ys : List UInt8) : zeros (xs ++ ys) = zeros xs + zeros ys := by
  simp [zeros]

theorem hweight8_le (x : UInt8) : hweight8 x ≤ 8 :=
  countP_le_length.trans (by simp)

theorem sub_hweight8 (x : UInt8) :
    8 - hweight8 x = (range 8).countP fun i => !x.toNat.testBit i := by
  have h := length_eq_countP_add_countP (fun i => x.toNat.testBit i) (l := range 8)
  have hnot : (range 8).countP (fun i => decide ¬x.toNat.testBit i = true) =
      (range 8).countP fun i => !x.toNat.testBit i := by
    apply countP_congr
    intro i _
    simp
  rw [length_range] at h
  unfold hweight8
  omega

theorem zeroBits_byte (b : Buffer) (off : Nat) {m : Nat} (hm : m ≤ 8) :
    zeroBits b (bitsFrom off m) = (range m).countP fun i => !(b off).toNat.testBit i := by
  rw [zeroBits, bitsFrom, countP_map]
  apply countP_congr
  intro k hk
  have hk := mem_range.mp hk
  have hdiv : k / 8 = 0 := by omega
  have hmod : k % 8 = k := by omega
  simp [bitAt, hdiv, hmod]

theorem zeros_slice (b : Buffer) (off len : Nat) :
    zeros (slice b off len) = zeroBits b (bitsFrom off (8 * len)) := by
  induction len generalizing off with
  | zero => rfl
  | succ len ih =>
    have hsplit : 8 * (len + 1) = 8 * 1 + 8 * len := by omega
    rw [slice_succ, zeros_cons, ih, hsplit, bitsFrom_add, zeroBits_append,
      zeroBits_byte b off (le_refl 8), sub_hweight8]

/-! ## The three loops -/

def limited (strength n : Nat) : Option Nat := if n ≤ strength then some n else none

variable {strength : Nat}

theorem bytesBitflips_eq (xs : List UInt8) (hn : n ≤ strength) :
    bytesBitflips strength xs n = limited strength (n + zeros xs) := by
  induction xs generalizing n with
  | nil => exact (if_pos hn).symm
  | cons x xs ih =>
    rw [bytesBitflips, zeros_cons, ← add_assoc]
    split
    · rename_i hgt
      exact (if_neg (by omega)).symm
    · rename_i hle
      exact ih (by omega)

/-- A word counts like its four bytes, also when it is skipped. -/
theorem word_zeros (x0 x1 x2 x3 : UInt8) (xs : List UInt8) (n : Nat) :
    (if x0 = 0xff ∧ x1 = 0xff ∧ x2 = 0xff ∧ x3 = 0xff then n
      else n + (32 - (hweight8 x0 + hweight8 x1 + hweight8 x2 + hweight8 x3))) + zeros xs =
      n + zeros (x0 :: x1 :: x2 :: x3 :: xs) := by
  have hw0 := hweight8_le x0
  have hw1 := hweight8_le x1
  have hw2 := hweight8_le x2
  have hw3 := hweight8_le x3
  simp only [zeros_cons]
  split
  · rename_i hall
    obtain ⟨rfl, rfl, rfl, rfl⟩ := hall
    have hff : hweight8 0xff = 8 := by decide
    omega
  · omega

theorem wordsBitflips_bind (xs : List UInt8) (hn : n ≤ strength) :
    ((wordsBitflips strength xs n).bind fun r => bytesBitflips strength r.1 r.2) =
      limited strength (n + zeros xs) := by
  fun_induction wordsBitflips strength xs n with
  | case1 x0 x1 x2 x3 xs n flips hgt =>
    have hword : flips + zeros xs = n + zeros (x0 :: x1 :: x2 :: x3 :: xs) :=
      word_zeros x0 x1 x2 x3 xs n
    exact (if_neg (by omega)).symm
  | case2 x0 x1 x2 x3 xs n flips hle ih =>
    have hword : flips + zeros xs = n + zeros (x0 :: x1 :: x2 :: x3 :: xs) :=
      word_zeros x0 x1 x2 x3 xs n
    rw [ih (by omega), hword]
  | case3 xs n hne => exact bytesBitflips_eq xs hn

theorem eccCheckBufBitflips_eq (addr : Nat) (buf : List UInt8) (hn : n ≤ strength) :
    eccCheckBufBitflips strength addr buf n = limited strength (n + zeros buf) := by
  have hsplit : zeros buf = zeros (buf.take ((4 - addr % 4) % 4)) +
      zeros (buf.drop ((4 - addr % 4) % 4)) := by
    rw [← zeros_append, take_append_drop]
  rw [eccCheckBufBitflips, bytesBitflips_eq _ hn, hsplit, ← add_assoc]
  generalize hlead : n + zeros (buf.take ((4 - addr % 4) % 4)) = m
  by_cases hm : m ≤ strength
  · rw [limited, if_pos hm]
    have hwords := wordsBitflips_bind (buf.drop ((4 - addr % 4) % 4)) hm
    rw [← hwords]
    dsimp only
    cases wordsBitflips strength (buf.drop ((4 - addr % 4) % 4)) m with
    | none => rfl
    | some r => rfl
  · rw [limited, if_neg hm, limited, if_neg (by omega)]

theorem eccCheckParityBitflips_eq (addr : Nat) (b : Buffer) (off bits : Nat) (hn : n ≤ strength) :
    eccCheckParityBitflips strength addr (slice b off (bits / 8 + 1)) bits n =
      limited strength (n + zeroBits b (bitsFrom off bits)) := by
  have htake : (slice b off (bits / 8 + 1)).take (bits / 8) = slice b off (bits / 8) := by
    rw [slice_append, take_left' length_slice]
  have hbits : bitsFrom off bits =
      bitsFrom off (8 * (bits / 8)) ++ bitsFrom (off + bits / 8) (bits % 8) := by
    rw [← bitsFrom_add, div_add_mod]
  rw [eccCheckParityBitflips, htake, eccCheckBufBitflips_eq _ _ hn, zeros_slice, hbits,
    zeroBits_append, ← add_assoc, zeroBits_byte _ _ (mod_lt _ (by decide)).le]
  generalize hfull : n + zeroBits b (bitsFrom off (8 * (bits / 8))) = m
  by_cases hm : m ≤ strength
  · rw [limited, if_pos hm]
    dsimp only
    split
    · rename_i hzero
      rw [hzero, range_zero, countP_nil, add_zero, limited, if_pos hm]
    rw [getD_slice (lt_succ_self _), limited]
    split
    · rename_i hgt
      rw [if_neg (by omega)]
    · rename_i hle
      rw [if_pos (by omega)]
  · rw [limited, if_neg hm, limited, if_neg (by omega)]

/-! ## A sector -/

variable {snf : Snf} {sect : Nat}

theorem sector_count (snf : Snf) (addr : Nat) (cache : Buffer) (sect : Nat) :
    ((eccCheckBufBitflips snf.eccStrength (addr + sect * snf.soc.sectorSize)
        (slice cache (sect * snf.soc.sectorSize) snf.soc.sectorSize) 0).bind fun n =>
      (eccCheckBufBitflips snf.eccStrength (addr + (snf.writesize + sect * snf.soc.fdmSize))
        (slice cache (snf.writesize + sect * snf.soc.fdmSize) snf.soc.fdmEccSize) n).bind fun n =>
      eccCheckParityBitflips snf.eccStrength
        (addr + snf.eccPtr sect)
        (slice cache (snf.eccPtr sect) (snf.eccStrength * fls (snf.soc.sectorSize * 8) / 8 + 1))
        (snf.eccStrength * fls (snf.soc.sectorSize * 8)) n) =
      limited snf.eccStrength (zeroBits cache (snf.sectorBits sect)) := by
  rw [eccCheckBufBitflips_eq _ _ (zero_le _), zero_add, Snf.sectorBits, zeroBits_append,
    zeroBits_append, zeros_slice]
  generalize hdata : zeroBits cache (bitsFrom (sect * snf.soc.sectorSize) _) = m
  by_cases hm : m ≤ snf.eccStrength
  · rw [limited, if_pos hm, Option.bind_some, eccCheckBufBitflips_eq _ _ hm, zeros_slice]
    generalize hfdm : m + zeroBits cache (bitsFrom (snf.writesize + sect * snf.soc.fdmSize) _) = k
    by_cases hk : k ≤ snf.eccStrength
    · rw [limited, if_pos hk, Option.bind_some, eccCheckParityBitflips_eq _ _ _ _ hk, ← hfdm,
        add_assoc]
    · rw [limited, if_neg hk, limited, if_neg (by omega)]
      rfl
  · rw [limited, if_neg hm, limited, if_neg (by omega)]
    rfl

/-! ### Setting the bits -/

theorem bitAt_ff {b : Buffer} (h : b p.1 = 0xff) (hp : p.2 < 8) : bitAt b p := by
  have hall : ∀ i < 8, (0xff : UInt8).toNat.testBit i := by decide
  rw [bitAt, h]
  exact hall p.2 hp

theorem bitAt_memset (b : Buffer) (off len : Nat) (hp : p.2 < 8) :
    bitAt (memset b off 0xff len) p = (decide (p ∈ bitsFrom off (8 * len)) || bitAt b p) := by
  by_cases hin : off ≤ p.1 ∧ p.1 < off + len
  · have hmem : p ∈ bitsFrom off (8 * len) := mem_bitsFrom.mpr ⟨hin.1, hp, by omega⟩
    rw [bitAt_ff (memset_inside hin) hp, decide_eq_true hmem, Bool.true_or]
  · have hmem : p ∉ bitsFrom off (8 * len) := by
      rw [mem_bitsFrom]
      omega
    rw [decide_eq_false hmem, Bool.false_or, bitAt, bitAt, memset_outside (by omega)]

theorem bitAt_low (b : Buffer) (off : Nat) {r : Nat} (hr : r ≤ 8) (hp : p.2 < 8) :
    bitAt (memset b off (b off ||| UInt8.ofNat (2 ^ r - 1)) 1) p =
      (decide (p ∈ bitsFrom off r) || bitAt b p) := by
  by_cases hin : p.1 = off
  · have hpow : 2 ^ r ≤ 2 ^ 8 := Nat.pow_le_pow_right (by decide) hr
    have hmask : (UInt8.ofNat (2 ^ r - 1)).toNat = 2 ^ r - 1 := by
      exact mod_eq_of_lt (by omega)
    have hmem : p ∈ bitsFrom off r ↔ p.2 < r := by
      rw [mem_bitsFrom]
      omega
    rw [bitAt, bitAt, memset_inside (by omega), UInt8.toNat_or, testBit_or, hmask,
      testBit_two_pow_sub_one, hin, Bool.or_comm]
    simp only [hmem]
  · have hmem : p ∉ bitsFrom off r := by
      rw [mem_bitsFrom]
      omega
    rw [decide_eq_false hmem, Bool.false_or, bitAt, bitAt, memset_outside (by omega)]

theorem bitAt_eccResetParity (b : Buffer) (off bits : Nat) (hp : p.2 < 8) :
    bitAt (eccResetParity b off bits) p = (decide (p ∈ bitsFrom off bits) || bitAt b p) := by
  have hbits : bitsFrom off bits =
      bitsFrom off (8 * (bits / 8)) ++ bitsFrom (off + bits / 8) (bits % 8) := by
    rw [← bitsFrom_add, div_add_mod]
  have hfull := bitAt_memset b off (bits / 8) hp
  rw [hbits]
  simp only [eccResetParity, mem_append, Bool.decide_or]
  split
  · rename_i hzero
    have hnone : p ∉ bitsFrom (off + bits / 8) (bits % 8) := by
      rw [mem_bitsFrom]
      omega
    rw [hfull, decide_eq_false hnone, Bool.or_false]
  · rw [bitAt_low _ _ (mod_lt _ (by decide)).le hp, hfull, ← Bool.or_assoc,
      Bool.or_comm (decide _) (decide _)]

def Snf.repaired (snf : Snf) (cache : Buffer) (sect : Nat) : Buffer :=
  eccResetParity
    (memset (memset cache (sect * snf.soc.sectorSize) 0xff snf.soc.sectorSize)
      (snf.writesize + sect * snf.soc.fdmSize) 0xff snf.soc.fdmEccSize)
    (snf.eccPtr sect) (snf.eccStrength * fls (snf.soc.sectorSize * 8))

theorem bitAt_repaired (snf : Snf) (cache : Buffer) (sect : Nat) (hp : p.2 < 8) :
    bitAt (snf.repaired cache sect) p = (decide (p ∈ snf.sectorBits sect) || bitAt cache p) := by
  rw [Snf.repaired, bitAt_eccResetParity _ _ _ hp, bitAt_memset _ _ _ hp, bitAt_memset _ _ _ hp]
  simp only [Snf.sectorBits, mem_append, Bool.decide_or]
  ac_rfl

theorem eccFixupEmptySector_eq (snf : Snf) (addr : Nat) (cache : Buffer) (sect : Nat) :
    eccFixupEmptySector snf addr cache sect =
      match limited snf.eccStrength (zeroBits cache (snf.sectorBits sect)) with
      | none => (none, cache)
      | some 0 => (some 0, cache)
      | some n => (some n, snf.repaired cache sect) := by
  rw [← sector_count snf addr cache sect]
  rfl

theorem sectorBits_nodup (hsize : snf.eccSteps * snf.soc.sectorSize ≤ snf.writesize)
    (hfdm : snf.soc.fdmEccSize ≤ snf.soc.fdmSize) (hsect : sect < snf.eccSteps) :
    (snf.sectorBits sect).Nodup := by
  have hdata : sect * snf.soc.sectorSize + snf.soc.sectorSize ≤
      snf.eccSteps * snf.soc.sectorSize := by
    rw [← succ_mul]
    exact mul_le_mul_right _ hsect
  have hspare : sect * snf.soc.fdmSize + snf.soc.fdmSize ≤ snf.eccSteps * snf.soc.fdmSize := by
    rw [← succ_mul]
    exact mul_le_mul_right _ hsect
  have hparity : snf.writesize + snf.eccSteps * snf.soc.fdmSize ≤ snf.eccPtr sect :=
    le_add_right _ _
  refine (bitsFrom_nodup _ _).append ((bitsFrom_nodup _ _).append (bitsFrom_nodup _ _) ?_) ?_
  · intro p hp hp'
    rw [mem_bitsFrom] at hp hp'
    omega
  · intro p hp hp'
    rw [mem_append, mem_bitsFrom, mem_bitsFrom] at hp'
    rw [mem_bitsFrom] at hp
    rcases hp' with hp' | hp'
    · omega
    · omega

theorem zeroBits_eq_card (cache : Buffer) (hnodup : (snf.sectorBits sect).Nodup) :
    zeroBits cache (snf.sectorBits sect) = (snf.flipped cache sect).card := by
  have hset : snf.flipped cache sect =
      ((snf.sectorBits sect).filter fun p => !bitAt cache p).toFinset := by
    simp [Snf.flipped]
  rw [hset, toFinset_card_of_nodup (hnodup.filter _), zeroBits, countP_eq_length_filter]

theorem zeroBits_of_ff {ps : List (Nat × Nat)} (h : ∀ p ∈ ps, p.2 < 8 ∧ b p.1 = 0xff) :
    zeroBits b ps = 0 := by
  rw [zeroBits, countP_eq_zero]
  intro p hp
  rw [bitAt_ff (h p hp).2 (h p hp).1]
  decide

theorem bitAt_of_zeroBits {ps : List (Nat × Nat)} (h : zeroBits b ps = 0) (hp : p ∈ ps) :
    bitAt b p := by
  simpa using countP_eq_zero.mp h p hp

/-- The repair counts the zero bits of the sector, and sets them if there are not too many;
it does nothing else. -/
theorem eccFixupEmptySector_exact (snf : Snf) (addr : Nat) (cache : Buffer) (sect : Nat)
    (hsize : snf.eccSteps * snf.soc.sectorSize ≤ snf.writesize)
    (hfdm : snf.soc.fdmEccSize ≤ snf.soc.fdmSize) (hsect : sect < snf.eccSteps) :
    ((snf.flipped cache sect).card ≤ snf.eccStrength →
      (eccFixupEmptySector snf addr cache sect).1 = some (snf.flipped cache sect).card ∧
        ∀ p, p.2 < 8 → bitAt (eccFixupEmptySector snf addr cache sect).2 p =
          (decide (p ∈ snf.sectorBits sect) || bitAt cache p)) ∧
    (snf.eccStrength < (snf.flipped cache sect).card →
      eccFixupEmptySector snf addr cache sect = (none, cache)) := by
  rw [← zeroBits_eq_card cache (sectorBits_nodup hsize hfdm hsect), eccFixupEmptySector_eq, limited]
  constructor
  · intro hle
    rw [if_pos hle]
    cases hcount : zeroBits cache (snf.sectorBits sect) with
    | zero =>
      refine ⟨rfl, fun p hp => ?_⟩
      change bitAt cache p = _
      by_cases hmem : p ∈ snf.sectorBits sect
      · rw [bitAt_of_zeroBits hcount hmem, Bool.or_true]
      · rw [decide_eq_false hmem, Bool.false_or]
    | succ n => exact ⟨rfl, fun p hp => bitAt_repaired snf cache sect hp⟩
  · intro hlt
    rw [if_neg (by omega)]

theorem eccFixupEmptySector_one_flip :
    ∃ snf, setup .mt7622 2048 64 = some snf ∧
      (eccFixupEmptySector snf 2 (fun a => if a = 2047 then 0xfe else 0xff) 3).1 = some 1 := by
  have hsetup : setup .mt7622 2048 64 = some ⟨Soc.mt7622.data, 2048, 64, 4, 16, 528, 4⟩ := by rfl
  refine ⟨_, hsetup, ?_⟩
  have hcount : zeroBits (fun a => if a = 2047 then 0xfe else 0xff)
      (Snf.sectorBits ⟨Soc.mt7622.data, 2048, 64, 4, 16, 528, 4⟩ 3) = 1 := by
    decide +kernel
  rw [zeroBits_eq_card _ (sectorBits_nodup (by decide) (by decide) (by decide))] at hcount
  have hexact := (eccFixupEmptySector_exact ⟨Soc.mt7622.data, 2048, 64, 4, 16, 528, 4⟩ 2
    (fun a => if a = 2047 then 0xfe else 0xff) 3 (by decide) (by decide) (by decide)).1
    (by rw [hcount]; decide)
  rw [hexact.1, hcount]

end OpenWrt.SNand
