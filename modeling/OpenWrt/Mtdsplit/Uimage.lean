import OpenWrt.Mtdsplit.Basic

/-!
# uImage firmware

`__mtdsplit_parse_uimage` of `drivers/mtd/mtdsplit/mtdsplit_uimage.c`.
-/

namespace OpenWrt.Mtdsplit.Uimage

open Lib

def headerLen : Nat := 64

def IH_MAGIC : Nat := 0x27051956
def IH_OS_LINUX : Nat := 5
def IH_TYPE_KERNEL : Nat := 2

/-- The settings of `uimage_parse_dt`, with their defaults. -/
structure Dt where
  extralen : Int := 0
  ihMagic : Nat := IH_MAGIC
  ihType : Nat := IH_TYPE_KERNEL
  headerOffset : Nat := 0
  partMagic : Nat := 0

section

variable (m : Mtd) (dt : Dt) (offset : Nat)

def verifyDefault : Prop :=
  word true m.flash (offset + dt.headerOffset) = dt.ihMagic ∧
    (m.flash (offset + dt.headerOffset + 28)).toNat = IH_OS_LINUX ∧
    (m.flash (offset + dt.headerOffset + 30)).toNat = dt.ihType

/-- The header at `offset` can be read and passes the checks. -/
def IsHeader : Prop :=
  m.readError offset (headerLen + dt.headerOffset) = none ∧
    (dt.headerOffset ≠ 0 ∧ dt.partMagic ≠ 0 → word true m.flash offset = dt.partMagic) ∧
    verifyDefault m dt offset

instance : Decidable (verifyDefault m dt offset) := inferInstanceAs (Decidable (_ ∧ _))

instance : Decidable (IsHeader m dt offset) := inferInstanceAs (Decidable (_ ∧ _))

def imageSize : Int :=
  headerLen + word true m.flash (offset + dt.headerOffset + 12) + dt.headerOffset + dt.extralen

end

section

variable (c : Machine) (m : Mtd) (dt : Dt) (offset : Nat)

def uimageSize : Nat := (imageSize m dt offset % c.w.values).toNat

/-- The image does not exceed the device, with a sum in a `size_t`. -/
def Fits : Prop := (offset + uimageSize c m dt offset) % c.w.values ≤ m.size

instance : Decidable (Fits c m dt offset) := inferInstanceAs (Decidable (_ ≤ _))

def lookUimage : Look Nat :=
  if IsHeader m dt offset then
    if Fits c m dt offset then .found (uimageSize c m dt offset)
    else .skip (uimageSize c m dt offset)
  else .skip 0

end

structure Split where
  kernel : Range
  rootfs : Range
  type : PartType
  deriving DecidableEq, Repr

def splitBehind (c : Machine) (m : Mtd) : Nat × PartType → Option (Except Int Split)
  | (rootfs, type) =>
    if (m.size - rootfs) % c.w.values = 0 then some (.error (- ENODEV))
    else some (.ok ⟨⟨0, rootfs⟩, ⟨rootfs, (m.size - rootfs) % c.w.values⟩, type⟩)

def splitBefore (offset size : Nat) : Except Int PartType → Except Int Split
  | .error err => .error err
  | .ok type => .ok ⟨⟨offset, size⟩, ⟨0, offset⟩, type⟩

def splitUimage (c : Machine) (m : Mtd) (fuel : Nat) : Nat × Nat → Option (Except Int Split)
  | (offset, size) =>
    if size = 0 then some (.error (- ENODEV))
    else if offset = 0 then
      andThen (findRootfsFrom c m (m.size % c.w.values) fuel size) (splitBehind c m)
    else some (splitBefore offset size (checkRootfsMagic c.big m 0))

/-- There is no result if the header is outside of the buffer that it is read into. -/
def parseUimage (c : Machine) (m : Mtd) (dt : Dt) (memory : Bool) (fuel : Nat) :
    Option (Except Int Split) :=
  if ¬memory then some (.error (- ENOMEM))
  else if c.w.values ≤ headerLen + dt.headerOffset then none
  else andThen (searchLoop c.w m m.inside (lookUimage c m dt) 0 fuel) (splitUimage c m fuel)

def Parses (c : Machine) (m : Mtd) (dt : Dt) (memory : Bool) (s : Split) : Prop :=
  ∃ fuel, parseUimage c m dt memory fuel = some (.ok s)

/-! ## Sound splits -/

structure Sound (c : Machine) (m : Mtd) (dt : Dt) (s : Split) : Prop where
  apart : s.kernel.Apart s.rootfs
  kernelInside : s.kernel.stop ≤ m.size
  rootfsInside : s.rootfs.stop ≤ m.size
  eraseBlock : m.erasesize ∣ s.kernel.offset
  header : IsHeader m dt s.kernel.offset
  covers : imageSize m dt s.kernel.offset ≤ s.kernel.size
  rootfs : IsRootfs c.big m s.rootfs.offset

def Found (c : Machine) (m : Mtd) (dt : Dt) (offset : Nat) : Prop :=
  Visits c.w m m.inside (lookUimage c m dt) 0 offset ∧ offset < m.size ∧
    IsHeader m dt offset ∧ Fits c m dt offset ∧ uimageSize c m dt offset ≠ 0

/-- The last block, with an image that exceeds the device. -/
def LeftOver (c : Machine) (m : Mtd) (dt : Dt) (offset : Nat) : Prop :=
  Visits c.w m m.inside (lookUimage c m dt) 0 offset ∧ offset < m.size ∧
    m.size ≤ (offset + m.erasesize) % c.w.values ∧ IsHeader m dt offset ∧ ¬Fits c m dt offset

/-- No arithmetic in a `size_t` goes wrong, and no size is left over. -/
structure InRange (c : Machine) (m : Mtd) (dt : Dt) : Prop where
  /-- The root file system behind an image at 0 is behind the end of the image. -/
  behind : Found c m dt 0 → ∀ r, FirstRootfs c m (m.size % c.w.values) (uimageSize c m dt 0) r →
    (m.size - r) % c.w.values ≠ 0 → imageSize m dt 0 ≤ r
  /-- The end of an image behind a root file system does not overflow, nor has the offset. -/
  before : ∀ offset, Found c m dt offset → offset ≠ 0 → IsRootfs c.big m 0 →
    imageSize m dt offset < c.w.values ∧
      (offset + uimageSize c m dt offset < c.w.values ∨
        offset + uimageSize c m dt offset ≤ m.size) ∧ m.erasesize ∣ offset
  /-- The last block of a device with a root file system at 0 has no image that exceeds it. -/
  leftOver : ∀ offset, LeftOver c m dt offset → ¬IsRootfs c.big m 0

end OpenWrt.Mtdsplit.Uimage
