import Mathlib.Data.Nat.Bitwise
import OpenWrt.Lib.Buffer
import OpenWrt.Lib.Crc
import OpenWrt.Mtd.Write

/-!
# What the repairs of image headers have in common

`mtd fixtrx` has one implementation per header format in `package/system/mtd/src`: `trx.c`
and `imagetag.c`.  Both read the erase block the header starts in, correct the header in
memory, and erase and rewrite the block.  `size_t` has `w` bits; the masks with
`erasesize - 1` are the source's.
-/

namespace OpenWrt.Mtd.Repair

open Lib

inductive Halt where
  | exit
  | overrun
  | spin
  deriving DecidableEq

structure FlashState where
  flash : Buffer
  ops : List DevOp

def sizeT (w : Nat) (x : Int) : Nat := (x % 2 ^ w).toNat

/-- `x & ~(erasesize - 1)`. -/
def blockOf (w erasesize x : Nat) : Nat := x &&& (2 ^ w - erasesize)

/-- `x & (erasesize - 1)`. -/
def inBlock (erasesize x : Nat) : Nat := x &&& (erasesize - 1)

/-- A `pread` whose caller exits if it does not deliver all that was asked for. -/
def pread (d : Device) (flash : Buffer) (count offset : Nat) : Except Halt (List UInt8) :=
  if offset + count ≤ d.mtdsize then .ok (slice flash offset count) else .error .exit

/-- A word of the block in memory, which has `erasesize` bytes. -/
def field (erasesize : Nat) (big : Bool) (block : Buffer) (off : Nat) : Except Halt Nat :=
  if off + 4 ≤ erasesize then .ok (word big block off) else .error .overrun

/-- `crc32buf`: the checksum starts with `0xFFFFFFFF` and is not complemented. -/
def crc32buf (buf : List UInt8) : Nat := (crc32 0xffffffff buf).toNat

/-- Erase and rewrite the block; `erases` and `writes` are the kernel's answers. -/
def rewrite (d : Device) (erases writes : Bool) (blockOffset : Nat) (block : Buffer)
    (s : FlashState) :
    Except Halt FlashState :=
  if erases = false then .error .exit
  else if writes = false then .error .exit
  else .ok {
    flash := programRange (eraseRange s.flash blockOffset d.erasesize) blockOffset
      (slice block 0 d.erasesize)
    ops := s.ops ++ [.erase blockOffset, .program blockOffset d.erasesize] }

end OpenWrt.Mtd.Repair
