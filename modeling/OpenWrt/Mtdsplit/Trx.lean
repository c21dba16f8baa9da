import OpenWrt.Mtdsplit.Basic

/-!
# trx images

`mtdsplit_parse_trx` of `drivers/mtd/mtdsplit/mtdsplit_trx.c`.
-/

namespace OpenWrt.Mtdsplit.Trx

open Lib

/-- `sizeof(struct trx_header)`. -/
def headerLen : Nat := 32

def TRX_MAGIC : Nat := 0x30524448

section

variable (m : Mtd) (offset : Nat)

def IsTrx : Prop :=
  m.readError offset headerLen = none ∧ word false m.flash offset = TRX_MAGIC

instance : Decidable (IsTrx m offset) := inferInstanceAs (Decidable (_ ∧ _))

def trxLen : Nat := word false m.flash (offset + 4)

/-- `offset[i]` of the header, in the byte order of the file format. -/
def leOffset (i : Nat) : Nat := word false m.flash (offset + 16 + 4 * i)

/-- `offset[i]` of the header as the parser reads it, in the byte order of the CPU. -/
def cpuOffset (big : Bool) (i : Nat) : Nat := word big m.flash (offset + 16 + 4 * i)

end

/-- The image does not exceed the device, with a sum in a `size_t`. -/
def Fits (w : SizeT) (m : Mtd) (offset : Nat) : Prop :=
  (offset + trxLen m offset) % w.values ≤ m.size

instance (w : SizeT) (m : Mtd) (offset : Nat) : Decidable (Fits w m offset) :=
  inferInstanceAs (Decidable (_ ≤ _))

/-- The body of the loop over erase blocks, with the size of the image and the place of its
header. -/
def lookTrx (w : SizeT) (m : Mtd) (offset : Nat) : Look (Nat × Nat) :=
  if IsTrx m offset then
    if Fits w m offset then .found (trxLen m offset, offset) else .skip (trxLen m offset, offset)
  else .skip (0, offset)

structure Split where
  hdr : Nat
  parts : Parts
  deriving DecidableEq, Repr

/-- The place that `offset[i]` of the header at `hdr` stands for, at the end of the loop. -/
def place (c : Machine) (m : Mtd) (hdr offset i : Nat) : Nat :=
  (offset + cpuOffset m hdr c.big i) % c.w.values

def splitParts (c : Machine) (m : Mtd) (hdr offset : Nat) : Split :=
  ⟨hdr,
    ⟨place c m hdr offset 0, c.w.sub (place c m hdr offset 1) (place c m hdr offset 0)⟩,
    ⟨place c m hdr offset 1, c.w.sub m.size (place c m hdr offset 1)⟩⟩

def splitTrx (c : Machine) (m : Mtd) : Nat × Nat × Nat → Option (Except Int Split)
  | (offset, size, hdr) =>
    if size = 0 then some (.error (- ENODEV))
    else if c.w.sub m.size (place c m hdr offset 1) = 0 then some (.error (- ENODEV))
    else some (.ok (splitParts c m hdr offset))

/-- Before the first header the size is 0. -/
def parseTrx (c : Machine) (m : Mtd) (memory : Bool) (fuel : Nat) : Option (Except Int Split) :=
  if ¬memory then some (.error (- ENOMEM))
  else andThen (searchLoop c.w m m.inside (lookTrx c.w m) (0, 0) fuel) (splitTrx c m)

def Parses (c : Machine) (m : Mtd) (memory : Bool) (s : Split) : Prop :=
  ∃ fuel, parseTrx c m memory fuel = some (.ok s)

/-! ## Sound splits -/

structure Sound (m : Mtd) (s : Split) : Prop where
  header : IsTrx m s.hdr
  length : s.hdr + trxLen m s.hdr ≤ m.size
  kernelPos : 0 < s.parts.kernel.size
  rootfsPos : 0 < s.parts.rootfs.size
  apart : s.parts.kernel.Apart s.parts.rootfs
  kernelInside : s.parts.kernel.stop ≤ m.size
  rootfsInside : s.parts.rootfs.stop ≤ m.size
  kernelStart : s.parts.kernel.offset = s.hdr + leOffset m s.hdr 0
  rootfsStart : s.parts.rootfs.offset = s.hdr + leOffset m s.hdr 1

section

variable (c : Machine) (m : Mtd) (offset : Nat)

def Found : Prop :=
  Visits c.w m m.inside (lookTrx c.w m) (0, 0) offset ∧ offset < m.size ∧ IsTrx m offset ∧
    Fits c.w m offset ∧ trxLen m offset ≠ 0

/-- The last block, with an image that exceeds the device. -/
def LeftOver : Prop :=
  Visits c.w m m.inside (lookTrx c.w m) (0, 0) offset ∧ offset < m.size ∧
    m.size ≤ (offset + m.erasesize) % c.w.values ∧ IsTrx m offset ∧ ¬Fits c.w m offset

/-- The offsets of a header are those of a kernel and a root file system behind it; on a device
that is too large for a `size_t`, the kernel may be behind the root file system. -/
def Ordered : Prop :=
  leOffset m offset 0 < leOffset m offset 1 ∧ offset + leOffset m offset 1 ≤ m.size ∨
    leOffset m offset 1 < leOffset m offset 0 ∧
      c.w.values + (offset + leOffset m offset 1) ≤ m.size ∧
      offset + leOffset m offset 1 + (m.size - (offset + leOffset m offset 1)) % c.w.values ≤
        offset + leOffset m offset 0

/-- The header of an image is one that the parser reads as it is. -/
structure GoodHeader : Prop where
  length : offset + trxLen m offset < c.w.values ∨ offset + trxLen m offset ≤ m.size
  kernel : (offset + cpuOffset m offset c.big 0) % c.w.values = offset + leOffset m offset 0
  rootfs : (offset + cpuOffset m offset c.big 1) % c.w.values = offset + leOffset m offset 1
  ordered : Ordered c m offset

end

structure Fine (c : Machine) (m : Mtd) : Prop where
  /-- The header of the image is good, or its root file system is at the end of the device. -/
  found : ∀ offset, Found c m offset →
    (offset + cpuOffset m offset c.big 1) % c.w.values = m.size % c.w.values ∨ GoodHeader c m offset
  /-- An image that is left over has its root file system at the end of the device. -/
  leftOver : ∀ offset, LeftOver c m offset →
    ((offset + m.erasesize) % c.w.values + cpuOffset m offset c.big 1) % c.w.values =
      m.size % c.w.values

end OpenWrt.Mtdsplit.Trx
