import OpenWrt.Mtdsplit.Basic

/-!
# FIT images

`mtdsplit_fit_parse` of `drivers/mtd/mtdsplit/mtdsplit_fit.c`.
-/

namespace OpenWrt.Mtdsplit.Fit

open Lib

def hdrLen : Nat := 40

def OF_DT_HEADER : Nat := 0xd00dfeed

def totalsize (m : Mtd) (offset : Nat) : Nat := word true m.flash (offset + 4)

def more (w : SizeT) (m : Mtd) (offset : Nat) : Bool :=
  decide ((offset + hdrLen) % w.values ≤ m.size)

def lookFit (m : Mtd) (offset : Nat) : Look Nat :=
  match m.readError offset hdrLen with
  | some err => .fail err
  | none =>
    if word true m.flash offset = OF_DT_HEADER then .found (totalsize m offset)
    else .skip (totalsize m offset)

def kernelSize (m : Mtd) (fitSize : Nat) : Nat := rounddownToEb m fitSize + m.erasesize

def splitParts (c : Machine) (m : Mtd) (fitOffset fitSize rootfs : Nat) : Parts :=
  ⟨⟨fitOffset, kernelSize m fitSize⟩, ⟨rootfs, (m.size - rootfs) % c.w.values⟩⟩

def makeParts (c : Machine) (m : Mtd) (memory : Bool) (fitOffset fitSize : Nat) :
    Nat × PartType → Option (Except Int Parts)
  | (rootfs, _) =>
    if ¬memory then some (.error (- ENOMEM))
    -- a division by 0
    else if m.erasesize = 0 then none
    else some (.ok (splitParts c m fitOffset fitSize rootfs))

def splitFit (c : Machine) (m : Mtd) (memory : Bool) (fuel : Nat) :
    Nat × Nat → Option (Except Int Parts)
  | (fitOffset, fitSize) =>
    if fitSize = 0 then some (.error (- ENODEV))
    else
      andThen
        (findRootfsFrom c m (m.size % c.w.values) fuel ((fitOffset + fitSize) % c.w.values))
        (makeParts c m memory fitOffset fitSize)

/-- `hdr` is what is in the header before the first read. -/
def fitParse (c : Machine) (m : Mtd) (hdr : Buffer) (memory : Bool) (fuel : Nat) :
    Option (Except Int Parts) :=
  andThen (searchLoop c.w m (more c.w m) (lookFit m) (word true hdr 4) fuel)
    (splitFit c m memory fuel)

def Parses (c : Machine) (m : Mtd) (hdr : Buffer) (memory : Bool) (p : Parts) : Prop :=
  ∃ fuel, fitParse c m hdr memory fuel = some (.ok p)

/-! ## Sound splits -/

def IsFit (m : Mtd) (offset : Nat) : Prop :=
  offset + hdrLen ≤ m.size ∧ word true m.flash offset = OF_DT_HEADER

structure Sound (m : Mtd) (p : Parts) : Prop where
  header : IsFit m p.kernel.offset
  covers : totalsize m p.kernel.offset ≤ p.kernel.size
  kernelInside : p.kernel.stop ≤ m.size
  rootfsInside : p.rootfs.stop ≤ m.size
  apart : p.kernel.Apart p.rootfs

section

variable (c : Machine) (m : Mtd) (hdr : Buffer)

def Found (offset : Nat) : Prop :=
  Visits c.w m (more c.w m) (lookFit m) (word true hdr 4) offset ∧
    (offset + hdrLen) % c.w.values ≤ m.size ∧ m.readError offset hdrLen = none ∧
    word true m.flash offset = OF_DT_HEADER ∧ totalsize m offset ≠ 0

/-- The loop ends at `offset` without an image, with the size in the header that it has read
last, or that was in the memory before. -/
def RunsOff (offset size : Nat) : Prop :=
  m.size < (offset + hdrLen) % c.w.values ∧ size ≠ 0 ∧
    (offset = 0 ∧ size = word true hdr 4 ∨
      ∃ y, Visits c.w m (more c.w m) (lookFit m) (word true hdr 4) y ∧
        (y + hdrLen) % c.w.values ≤ m.size ∧ m.readError y hdrLen = none ∧
        word true m.flash y ≠ OF_DT_HEADER ∧ size = totalsize m y ∧
        offset = (y + m.erasesize) % c.w.values)

/-- No number behind an image at `offset` is too large for its type. -/
def NoWrap (offset : Nat) : Prop :=
  m.size + m.erasesize ≤ 4294967296 ∧ offset + totalsize m offset < c.w.values

/-- The first root file system in the order of the search behind an image. -/
def Behind (offset size r : Nat) : Prop :=
  FirstRootfs c m (m.size % c.w.values) ((offset + size) % c.w.values) r

structure Fine : Prop where
  /-- There is no root file system at the end of the image. -/
  gap : ∀ offset, Found c m hdr offset → NoWrap c m offset →
    ¬IsRootfs c.big m (offset + totalsize m offset)
  /-- The root file system is behind the kernel partition, or the kernel is behind what a
  `size_t` can address. -/
  wraps : ∀ offset r, Found c m hdr offset → ¬NoWrap c m offset →
    Behind c m offset (totalsize m offset) r →
    offset + kernelSize m (totalsize m offset) ≤ r ∨
      m.size % c.w.values ≤ offset ∧ offset + kernelSize m (totalsize m offset) ≤ m.size
  /-- Without an image there is no root file system either. -/
  runsOff : ∀ offset size r, RunsOff c m hdr offset size → ¬Behind c m offset size r

end

end OpenWrt.Mtdsplit.Fit
