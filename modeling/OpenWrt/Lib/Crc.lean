import Mathlib.Logic.Function.Iterate

/-!
# CRC-32

The reflected CRC of polynomial 0xedb88320, bit by bit, from any seed and without the final
complement, and the step by a table of 256 words.
-/

namespace OpenWrt.Lib

open BitVec

def crc32Bit (crc : BitVec 32) : BitVec 32 :=
  crc >>> 1 ^^^ (if crc.getLsbD 0 then 0xedb88320 else 0#32)

def crc32Byte (crc : BitVec 32) (b : UInt8) : BitVec 32 :=
  crc32Bit (crc32Bit (crc32Bit (crc32Bit (crc32Bit (crc32Bit (crc32Bit (crc32Bit
    (crc ^^^ BitVec.ofNat 32 b.toNat))))))))

def crc32 (seed : BitVec 32) (bs : List UInt8) : BitVec 32 := bs.foldl crc32Byte seed

theorem crc32_append (seed : BitVec 32) (bs bs' : List UInt8) :
    crc32 seed (bs ++ bs') = crc32 (crc32 seed bs) bs' :=
  List.foldl_append

theorem crc32_replicate_zero (n : Nat) : crc32 0 (List.replicate n 0) = 0 := by
  induction n with
  | zero => rfl
  | succ n ih =>
    exact ih

/-! ## The table -/

theorem crc32Bit_xor (a b : BitVec 32) : crc32Bit (a ^^^ b) = crc32Bit a ^^^ crc32Bit b := by
  simp only [crc32Bit, getLsbD_xor, ushiftRight_xor_distrib]
  cases a.getLsbD 0 <;> cases b.getLsbD 0 <;> simp only [Bool.xor_false, Bool.xor_true,
    Bool.not_true, Bool.false_eq_true, if_true, if_false, xor_zero]
  · ac_rfl
  · ac_rfl
  · rw [xor_assoc, BitVec.xor_comm 0xedb88320,
      BitVec.xor_assoc, BitVec.xor_self, BitVec.xor_zero]

theorem crc32Bit_iterate_xor (n : Nat) (a b : BitVec 32) :
    crc32Bit^[n] (a ^^^ b) = crc32Bit^[n] a ^^^ crc32Bit^[n] b := by
  induction n generalizing a b with
  | zero => rfl
  | succ n ih => rw [Function.iterate_succ_apply, crc32Bit_xor, ih,
      Function.iterate_succ_apply, Function.iterate_succ_apply]

theorem crc32Bit_iterate_clear {n : Nat} {x : BitVec 32} (hx : ∀ i < n, x.getLsbD i = false) :
    crc32Bit^[n] x = x >>> n := by
  induction n with
  | zero => exact (ushiftRight_zero x).symm
  | succ n ih =>
    have hbit : (x >>> n).getLsbD 0 = false := by
      exact hx n (Nat.lt_succ_self n)
    rw [Function.iterate_succ_apply', ih fun i hi => hx i (Nat.lt_succ_of_lt hi), crc32Bit,
      hbit, if_neg Bool.false_ne_true, xor_zero, shiftRight_add]

theorem testBit_255 (i : Nat) : Nat.testBit 255 i = decide (i < 8) :=
  Nat.testBit_two_pow_sub_one 8 i

theorem crc32Bit_iterate_eight (x : BitVec 32) :
    crc32Bit^[8] x = crc32Bit^[8] (x &&& 0xff#32) ^^^ x >>> 8 := by
  have hsplit : (x &&& 0xff#32) ^^^ (x &&& ~~~0xff#32) = x := by
    ext i hi
    simp only [getElem_xor, getElem_and, getElem_not]
    cases x[i] <;> cases (0xff#32)[i] <;> rfl
  have hclear : crc32Bit^[8] (x &&& ~~~0xff#32) = (x &&& ~~~0xff#32) >>> 8 := by
    apply crc32Bit_iterate_clear
    intro i hi
    simp only [getLsbD_and, getLsbD_not, getLsbD_ofNat, testBit_255]
    simp [hi]
  have hshift : (x &&& ~~~0xff#32) >>> 8 = x >>> 8 := by
    apply eq_of_getLsbD_eq
    intro i _
    simp only [getLsbD_ushiftRight, getLsbD_and, getLsbD_not,
      getLsbD_ofNat, testBit_255]
    by_cases hi : 8 + i < 32
    · simp [hi]
    · simp [getLsbD_of_ge x (8 + i) (by omega)]
  rw [← hshift, ← hclear, ← crc32Bit_iterate_xor, hsplit]

/-- The word of a byte in the table. -/
def crc32Word (i : BitVec 32) : BitVec 32 := crc32Bit^[8] i

theorem crc32Byte_word (crc : BitVec 32) (b : UInt8) :
    crc32Byte crc b =
      crc32Word ((crc ^^^ BitVec.ofNat 32 b.toNat) &&& 0xff#32) ^^^ crc >>> 8 := by
  have hb : BitVec.ofNat 32 b.toNat >>> 8 = 0#32 := by
    apply eq_of_toNat_eq
    have := b.toNat_lt
    simp
    omega
  have height : crc32Byte crc b = crc32Bit^[8] (crc ^^^ BitVec.ofNat 32 b.toNat) := rfl
  rw [height, crc32Bit_iterate_eight, ushiftRight_xor_distrib, hb, xor_zero]
  rfl

end OpenWrt.Lib
