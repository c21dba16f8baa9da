import OpenWrt.Lib.Buffer
import OpenWrt.Lib.Loop
import OpenWrt.Lib.SizeT

/-!
# Splitting a firmware partition

The device and the search for a root file system, `drivers/mtd/mtdsplit/mtdsplit.c`.  Loops
have a fuel; a parser that runs out of it has no result.
-/

namespace OpenWrt.Mtdsplit

open Lib

def ENOMEM : Int := 12
def ENODEV : Int := 19
def EINVAL : Int := 22

structure Mtd where
  size : Nat
  erasesize : Nat
  flash : Buffer
  fails : Nat → Nat → Option Int
  fails_neg : ∀ ofs len err, fails ofs len = some err → err < 0

theorem readable_fails_neg (_ _ : Nat) (err : Int) (h : none = some err) : err < 0 := by
  cases h

def Mtd.readError (m : Mtd) (ofs len : Nat) : Option Int :=
  if m.size < ofs + len then some (- EINVAL) else m.fails ofs len

def Mtd.inside (m : Mtd) (offset : Nat) : Bool := decide (offset < m.size)

structure Machine where
  w : SizeT
  big : Bool

/-- `mtd_rounddown_to_eb`, with a product of 32 bits. -/
def rounddownToEb (m : Mtd) (sz : Nat) : Nat :=
  if sz % m.erasesize = 0 then sz
  else sz / m.erasesize % 4294967296 * m.erasesize % 4294967296

/-- `mtd_next_eb` as a `size_t`. -/
def nextEb (w : SizeT) (m : Mtd) (offset : Nat) : Nat :=
  (rounddownToEb m offset + m.erasesize) % w.values

/-! ## Root file systems -/

inductive PartType where
  | squashfs
  | jffs2
  | ubi
  deriving DecidableEq, Repr

def SQUASHFS_MAGIC : Nat := 0x73717368
def JFFS2_MAGIC : Nat := 0x19852003
def UBI_EC_MAGIC : Nat := 0x55424923

def checkRootfsMagic (big : Bool) (m : Mtd) (offset : Nat) : Except Int PartType :=
  match m.readError offset 4 with
  | some err => .error err
  | none =>
    if word false m.flash offset = SQUASHFS_MAGIC then .ok .squashfs
    else if word big m.flash offset = JFFS2_MAGIC then .ok .jffs2
    else if word true m.flash offset = UBI_EC_MAGIC then .ok .ubi
    else .error (- EINVAL)

/-- A round of the search; a division by an erase size of 0 is stuck. -/
def rootfsRound (c : Machine) (m : Mtd) (limit offset : Nat) :
    Round Nat (Except Int (Nat × PartType)) :=
  if limit ≤ offset then .done (.error (- ENODEV))
  else
    match checkRootfsMagic c.big m offset with
    | .ok type => .done (.ok (offset, type))
    | .error _ => if m.erasesize = 0 then .stuck else .next (nextEb c.w m offset)

def findRootfsFrom (c : Machine) (m : Mtd) (limit fuel start : Nat) :
    Option (Except Int (Nat × PartType)) :=
  loop (rootfsRound c m limit) fuel start

/-- The device has the magic number of a root file system at `offset`. -/
def IsRootfs (big : Bool) (m : Mtd) (offset : Nat) : Prop :=
  m.readError offset 4 = none ∧
    (word false m.flash offset = SQUASHFS_MAGIC ∨ word big m.flash offset = JFFS2_MAGIC ∨
      word true m.flash offset = UBI_EC_MAGIC)

instance (big : Bool) (m : Mtd) (offset : Nat) : Decidable (IsRootfs big m offset) :=
  inferInstanceAs (Decidable (_ ∧ _))

/-- The first root file system in the order of the search from `start`. -/
def FirstRootfs (c : Machine) (m : Mtd) (limit start offset : Nat) : Prop :=
  Comes (rootfsRound c m limit) start offset ∧ offset < limit ∧ IsRootfs c.big m offset

/-! ## Images at the start of a block -/

/-- What a parser makes of a block: it fails, or it goes on with the next block, or it stays at
this one.  In the last two cases it has a value `a`, such as the size of an image. -/
inductive Look (α : Type) where
  | fail (err : Int)
  | skip (a : α)
  | found (a : α)

section

variable {α : Type} (w : SizeT) (m : Mtd) (more : Nat → Bool) (look : Nat → Look α)

/-- A round of `for (offset = 0; more(offset); offset += erasesize)`.  At the end of the loop the
value of the last block is left over. -/
def blockRound : Nat × α → Round (Nat × α) (Except Int (Nat × α))
  | (offset, a) =>
    if more offset then
      match look offset with
      | .fail err => .done (.error err)
      | .skip b => .next ((offset + m.erasesize) % w.values, b)
      | .found b => .done (.ok (offset, b))
    else .done (.ok (offset, a))

def searchLoop (a : α) (fuel : Nat) : Option (Except Int (Nat × α)) :=
  loop (blockRound w m more look) fuel (0, a)

def Visits (a : α) (offset : Nat) : Prop := ∃ b, Comes (blockRound w m more look) (0, a) (offset, b)

end

/-! ## The result -/

structure Range where
  offset : Nat
  size : Nat
  deriving DecidableEq, Repr

def Range.stop (r : Range) : Nat := r.offset + r.size

structure Parts where
  kernel : Range
  rootfs : Range
  deriving DecidableEq, Repr

def Range.Apart (r s : Range) : Prop := r.stop ≤ s.offset ∨ s.stop ≤ r.offset

end OpenWrt.Mtdsplit
