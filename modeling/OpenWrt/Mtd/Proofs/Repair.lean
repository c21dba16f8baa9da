import Mathlib
import OpenWrt.Mtd.Repair

/-!
# Masks, fields and rewritten blocks
-/

namespace OpenWrt.Mtd.Repair

open Lib

variable {w k x : Nat}

theorem blockOf_eq (hk : k ≤ w) (hx : x < 2 ^ w) : blockOf w (2 ^ k) x = x / 2 ^ k * 2 ^ k := by
  have hmask : 2 ^ w - 2 ^ k = (2 ^ (w - k) - 1) * 2 ^ k := by
    rw [Nat.sub_mul, one_mul, ← pow_add, Nat.sub_add_cancel hk]
  apply Nat.eq_of_testBit_eq
  intro i
  rw [blockOf, hmask, Nat.testBit_and, Nat.testBit_mul_two_pow, Nat.testBit_mul_two_pow,
    Nat.testBit_div_two_pow]
  by_cases hki : k ≤ i
  · by_cases hiw : i < w
    · have hlow : i - k < w - k := by omega
      simp [hki, hlow]
    · have hhigh : x.testBit i = false :=
        Nat.testBit_lt_two_pow (hx.trans_le (Nat.pow_le_pow_right (by decide) (by omega)))
      simp [hki, hhigh]
  · simp [hki]

theorem inBlock_eq (k x : Nat) : inBlock (2 ^ k) x = x % 2 ^ k := Nat.and_two_pow_sub_one_eq_mod x k

theorem sizeT_eq {n : Nat} (h : n < 2 ^ w) : sizeT w (n : Nat) = n := by
  exact Nat.mod_eq_of_lt h

theorem field_ok {es off : Nat} {big : Bool} {block : Buffer} (h : off + 4 ≤ es) :
    field es big block off = .ok (word big block off) := if_pos h

theorem field_overrun {es off : Nat} {big : Bool} {block : Buffer} (h : es < off + 4) :
    field es big block off = .error .overrun := if_neg (not_le.mpr h)

theorem program_erased {flash flash' block : Buffer} {off es : Nat}
    (hin : ∀ i < es, block i = flash' (off + i))
    (hout : ∀ a, a < off ∨ off + es ≤ a → flash' a = flash a) :
    programRange (eraseRange flash off es) off (slice block 0 es) = flash' := by
  funext a
  by_cases ha : off ≤ a ∧ a < off + es
  · obtain ⟨i, rfl⟩ := Nat.exists_eq_add_of_le ha.1
    have hi : i < es := by omega
    rw [programRange, eraseRange, length_slice, if_pos ha, if_pos ha, Nat.add_sub_cancel_left,
      getD_slice hi, zero_add, hin i hi, UInt8.and_comm]
    exact UInt8.and_neg_one
  · rw [programRange, eraseRange, length_slice, if_neg ha, if_neg ha, hout a (by omega)]

end OpenWrt.Mtd.Repair
