import Mathlib.Data.Int.ModEq

/-!
# Machine integers of C

The width of `size_t` and its difference, an `int` that wraps around, and the conversion from
the one to the other.
-/

namespace OpenWrt.Lib

inductive SizeT where
  | bits32
  | bits64
  deriving DecidableEq, Repr

def SizeT.values : SizeT → Nat
  | .bits32 => 4294967296
  | .bits64 => 18446744073709551616

theorem values_large (w : SizeT) : 4294967296 ≤ w.values := by
  cases w with
  | bits32 => decide
  | bits64 => decide

theorem values_le (w : SizeT) : w.values ≤ 18446744073709551616 := by
  cases w with
  | bits32 => decide
  | bits64 => decide

theorem values_pos (w : SizeT) : 0 < w.values :=
  lt_of_lt_of_le (by decide) (values_large w)

def SizeT.sub (w : SizeT) (a b : Nat) : Nat := (a + w.values - b) % w.values

theorem sub_of_le {w : SizeT} {a b : Nat} (h : b ≤ a) : w.sub a b = (a - b) % w.values := by
  rw [SizeT.sub, Nat.sub_add_comm h, Nat.add_mod_right]

theorem sub_of_lt {w : SizeT} {a b : Nat} (h : a < b) (hb : b < w.values) :
    w.sub a b = a + w.values - b := by
  rw [SizeT.sub, Nat.mod_eq_of_lt (by omega)]

/-- The value that an `int` of 32 bits has after an overflow. -/
def wrapInt (n : Int) : Int := (n + 2147483648) % 4294967296 - 2147483648

def SizeT.ofInt (w : SizeT) (n : Int) : Nat := (n % w.values).toNat

theorem wrapInt_add (a b : Int) : wrapInt (wrapInt a + b) = wrapInt (a + b) := by
  rw [wrapInt, wrapInt, wrapInt]
  omega

theorem ofInt_wrapInt_bits32 (n : Nat) : SizeT.bits32.ofInt (wrapInt n) = n % 4294967296 := by
  rw [SizeT.ofInt, wrapInt, SizeT.values]
  omega

theorem ofInt_wrapInt_bits64_pos {n : Nat} (h : n % 4294967296 < 2147483648) :
    SizeT.bits64.ofInt (wrapInt n) = n % 4294967296 := by
  rw [SizeT.ofInt, wrapInt, SizeT.values]
  omega

theorem ofInt_wrapInt_bits64_neg {n : Nat} (h : 2147483648 ≤ n % 4294967296) :
    SizeT.bits64.ofInt (wrapInt n) = 18446744069414584320 + n % 4294967296 := by
  rw [SizeT.ofInt, wrapInt, SizeT.values]
  omega

end OpenWrt.Lib
