import Mathlib.Algebra.Order.Group.Nat

/-!
# Offsets in blocks

Offset `i * n + r` with `r < n` is byte `r` of block `i`.
-/

namespace OpenWrt.Lib

variable {i j n r r' k : Nat}

theorem block_div (h : r < n) : (i * n + r) / n = i := by
  rw [mul_comm, Nat.mul_add_div (by omega), Nat.div_eq_of_lt h, add_zero]

theorem block_mod (h : r < n) : (i * n + r) % n = r := by
  rw [mul_comm, Nat.mul_add_mod, Nat.mod_eq_of_lt h]

theorem block_lt (hi : i < k) (h : r < n) : i * n + r < k * n := by
  calc i * n + r < i * n + n := by omega
    _ = (i + 1) * n := by rw [Nat.add_mul, Nat.one_mul]
    _ ≤ k * n := Nat.mul_le_mul_right n hi

theorem block_inj (h : r < n) (h' : r' < n) (heq : i * n + r = j * n + r') : i = j ∧ r = r' := by
  constructor
  · rw [← block_div (i := i) h, heq, block_div h']
  · rw [← block_mod (i := i) h, heq, block_mod h']

theorem block_split (a n : Nat) : a / n * n + a % n = a := Nat.div_add_mod' a n

theorem div_lt_of_lt_blocks {a : Nat} (h : a < k * n) : a / n < k :=
  Nat.div_lt_of_lt_mul (by rwa [mul_comm])

end OpenWrt.Lib
