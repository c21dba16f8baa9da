import Mathlib.Data.Nat.Bitwise
import OpenWrt.Lib.Buffer

/-!
# Bit strings in buffers

Bit 0 of a buffer is the most significant bit of its first byte, as in network
addresses.  `beNat` reads a big-endian number and `beStore` writes one; the rules
below say which bit of the buffer is which bit of the number.
-/

namespace OpenWrt.Lib

def bit (b : Buffer) (i : Nat) : Bool := (b (i / 8)).toNat.testBit (7 - i % 8)

def bits (b : Buffer) (off len : Nat) : List Bool := (List.range len).map fun i => bit b (off + i)

/-- The number that the `n` bits from `off` on are the digits of. -/
def bitsNat (b : Buffer) (off : Nat) : Nat → Nat
  | 0 => 0
  | n + 1 => 2 * bitsNat b off n + (bit b (off + n)).toNat

def beNat (b : Buffer) (off : Nat) : Nat → Nat
  | 0 => 0
  | n + 1 => beNat b off n * 256 + (b (off + n)).toNat

/-- The buffer with the low `n` bytes of `x` at `off`, big-endian. -/
def beStore (b : Buffer) (off n x : Nat) : Buffer :=
  fun a => if off ≤ a ∧ a < off + n then UInt8.ofNat (x / 2 ^ (8 * (n - 1 - (a - off)))) else b a

variable {b b' : Buffer} {i j n off off' len x : Nat}

theorem bits_congr (h : ∀ i < len, bit b (off + i) = bit b' (off' + i)) :
    bits b off len = bits b' off' len := by
  apply List.map_congr_left
  intro i hi
  exact h i (List.mem_range.mp hi)

theorem bits_append (b : Buffer) (off m n : Nat) :
    bits b off (m + n) = bits b off m ++ bits b (off + m) n := by
  simp only [bits, List.range_add, List.map_append, List.map_map]
  congr 1
  apply List.map_congr_left
  intro i _
  simp [add_assoc]

theorem testBit_bitsNat :
    (bitsNat b off n).testBit j = (decide (j < n) && bit b (off + (n - 1 - j))) := by
  induction n generalizing j with
  | zero => simp [bitsNat]
  | succ n ih =>
    have hdigit : (bit b (off + n)).toNat < 2 ^ 1 := Bool.toNat_lt _
    rw [bitsNat, Nat.testBit_two_pow_mul_add _ hdigit]
    cases j with
    | zero => cases hb : bit b (off + n) <;> simp [hb]
    | succ j =>
      have hpos : n - 1 - j = n + 1 - 1 - (j + 1) := by omega
      simp [ih, hpos]

/-! ## Big-endian numbers -/

theorem testBit_beNat (h : j < 8 * n) :
    (beNat b off n).testBit j = bit b (8 * off + (8 * n - 1 - j)) := by
  induction n generalizing j with
  | zero => omega
  | succ n ih =>
    have hbyte : (b (off + n)).toNat < 2 ^ 8 := UInt8.toNat_lt _
    rw [beNat, mul_comm, Nat.testBit_two_pow_mul_add _ hbyte]
    by_cases hj : j < 8
    · have hdiv : (8 * off + (8 * (n + 1) - 1 - j)) / 8 = off + n := by omega
      have hmod : 7 - (8 * off + (8 * (n + 1) - 1 - j)) % 8 = j := by omega
      rw [if_pos hj, bit, hdiv, hmod]
    · rw [if_neg hj, ih (by omega)]
      congr 1
      omega

theorem beNat_lt (b : Buffer) (off n : Nat) : beNat b off n < 2 ^ (8 * n) := by
  induction n with
  | zero => exact Nat.one_pos
  | succ n ih =>
    have hbyte : (b (off + n)).toNat < 256 := UInt8.toNat_lt _
    have hpow : 2 ^ (8 * (n + 1)) = 2 ^ (8 * n) * 256 := by rw [Nat.mul_succ, Nat.pow_add]
    rw [beNat]
    omega

theorem beNat_congr (h : ∀ i < n, b (off + i) = b' (off' + i)) :
    beNat b off n = beNat b' off' n := by
  induction n with
  | zero => rfl
  | succ n ih => rw [beNat, beNat, ih (fun i hi => h i (by omega)), h n (by omega)]

theorem bit_beStore (h : i < 8 * n) :
    bit (beStore b off n x) (8 * off + i) = x.testBit (8 * n - 1 - i) := by
  rw [bit, beStore, if_pos (by omega), UInt8.toNat_ofNat',
    Nat.testBit_mod_two_pow, Nat.testBit_div_two_pow, decide_eq_true (by omega), Bool.true_and]
  congr 1
  omega

theorem bit_beStore_shift {s : Nat} (h : i + s < 8 * n) :
    bit (beStore b off n (beNat b off n * 2 ^ s % 2 ^ (8 * n))) (8 * off + i) =
      bit b (8 * off + (i + s)) := by
  rw [bit_beStore (by omega), Nat.testBit_mod_two_pow, Nat.testBit_mul_two_pow,
    decide_eq_true (by omega), decide_eq_true (by omega), Bool.true_and, Bool.true_and,
    testBit_beNat (by omega)]
  congr 1
  omega

theorem bit_beStore_shiftRight {s : Nat} (hs : s ≤ i) (hi : i < 8 * n) :
    bit (beStore b off n (beNat b off n >>> s)) (8 * off + i) = bit b (8 * off + (i - s)) := by
  rw [bit_beStore hi, Nat.testBit_shiftRight, testBit_beNat (by omega)]
  congr 1
  omega

theorem beNat_beStore (hx : x < 2 ^ (8 * n)) : beNat (beStore b off n x) off n = x := by
  apply Nat.eq_of_testBit_eq
  intro j
  by_cases hj : j < 8 * n
  · rw [testBit_beNat hj, bit_beStore (by omega)]
    congr 1
    omega
  · have hpow : 2 ^ (8 * n) ≤ 2 ^ j := Nat.pow_le_pow_right (by decide) (by omega)
    rw [Nat.testBit_lt_two_pow ((beNat_lt _ _ _).trans_le hpow),
      Nat.testBit_lt_two_pow (hx.trans_le hpow)]

end OpenWrt.Lib
