import OpenWrt.Mtd.Repair

/-!
# Repairing a Broadcom image tag

Model of `mtd_fixtrx` in `package/system/mtd/src/imagetag.c`.  The tag is written with the
firmware; on the first boot the root file system is taken out of what its lengths and
checksums speak of.  Lengths and addresses in the tag are decimal strings.  `erasesize` is
a global variable that `mtd_check_open` sets, which is called when it has been used already.
-/

namespace OpenWrt.Mtd.Imagetag

open Lib OpenWrt.Mtd.Repair

structure Call where
  dev : Device
  /-- Erase blocks have a power of two of bytes. -/
  eraseBits : Nat
  erasesize_eq : dev.erasesize = 2 ^ eraseBits
  /-- `mtdsize` is an `int`. -/
  isInt : dev.mtdsize < 2147483648
  /-- `erasesize` on entry: 0, or that of the device an `-e` option has erased. -/
  erasesizeBefore : Nat
  before : erasesizeBefore = 0 ∨ ∃ k < 31, erasesizeBefore = 2 ^ k
  w : Nat
  wide : 32 ≤ w
  big : Bool
  opens : Bool := true
  mallocs : Bool := true
  offset : Nat

/-! ## `struct bcm_tag` -/

def totalLength : Nat := 62

def cfeLength : Nat := 84

def flashImageStart : Nat := 94

def rootLength : Nat := 106

def kernelAddress : Nat := 116

def kernelLength : Nat := 128

def fskernelCrc : Nat := 196

def imageCrc : Nat := 216

def rootfsCrc : Nat := 220

def kernelCrc : Nat := 224

def headerCrc : Nat := 236

def tagSize : Nat := 256

def imageLen : Nat := 10

def addressLen : Nat := 12

/-! ## Numbers in strings -/

def isSpace (c : UInt8) : Bool := c = 32 || (9 ≤ c && c ≤ 13)

def isDigit (c : UInt8) : Bool := 48 ≤ c && c ≤ 57

def decimal (str : List UInt8) : Nat :=
  (str.takeWhile isDigit).foldl (fun n c => 10 * n + (c.toNat - 48)) 0

/-- `strtoul(str, NULL, 10)` for an `unsigned long` of `w` bits. -/
def strtoul (w : Nat) (str : List UInt8) : Nat :=
  let str := str.dropWhile isSpace
  let digits := if str.head? = some 43 ∨ str.head? = some 45 then str.tail else str
  if 2 ^ w ≤ decimal digits then 2 ^ w - 1
  else if str.head? = some 45 then (2 ^ w - decimal digits) % 2 ^ w
  else decimal digits

/-- `strntoul` of the bytes in front of the first NUL. -/
def strntoul (w : Nat) (str : List UInt8) : Nat := strtoul w str % 4294967296

/-- The bytes that `strncpy` copies from a block of `erasesize` bytes. -/
def readString (erasesize : Nat) (block : Buffer) : Nat → Nat → Except Halt (List UInt8)
  | _, 0 => .ok []
  | off, n + 1 =>
    if erasesize ≤ off then .error .overrun
    else if block off = 0 then .ok []
    else do
      let str ← readString erasesize block (off + 1) n
      return block off :: str

/-! ## The repair -/

/-- The first loop of `compute_crc32` and the rest; a `pread` at the end of the device is
short.  `none` is a loop that is never left. -/
def computeCrc32 (d : Device) (flash : Buffer) : Nat → BitVec 32 → Nat → Nat → Option (BitVec 32)
  | 0, _, _, _ => none
  | fuel + 1, crc, offset, computeLen =>
    if 1024 ≤ computeLen then
      let res := min 1024 (d.mtdsize - offset)
      computeCrc32 d flash fuel (crc32 crc (slice flash offset res)) (offset + res)
        (computeLen - res)
    else
      let res := min computeLen (d.mtdsize - offset)
      some (crc32 crc (slice flash offset res))

/-- `strncpy` of a string to a field of `n` bytes. -/
def padded (n : Nat) (str : List UInt8) : List UInt8 := str ++ List.replicate (n - str.length) 0

/-- The stores to the tag at `off`.  `header_crc` is the last of its fields in use and has
been read when they are made. -/
def fixTag (big : Bool) (b : Buffer) (off : Nat) : Buffer :=
  -- `sprintf(&tag->root_length[0], "%u", 0)`
  let b := storeBytes b (off + rootLength) [48, 0]
  let b := storeBytes b (off + totalLength)
    (padded imageLen ((slice b (off + kernelLength) imageLen).takeWhile (· ≠ 0)))
  let b := storeBytes b (off + imageCrc) (slice b (off + kernelCrc) 4)
  let b := storeBytes b (off + fskernelCrc) (slice b (off + kernelCrc) 4)
  let b := storeBytes b (off + rootfsCrc) (wordBytes big 0xffffffff)
  storeBytes b (off + headerCrc) (wordBytes big (crc32buf (slice b off headerCrc)))

def fixBlock (c : Call) (erases writes : Bool) (blockOffset off : Nat) (buf : Buffer)
    (s : FlashState) : Except Halt FlashState := do
  let cfelen ← readString c.dev.erasesize buf (off + cfeLength) imageLen
  if strntoul c.w cfelen ≠ 0 then .error .exit
  else
    -- the tag is verified on the device, at its offset in memory
    match computeCrc32 c.dev s.flash (headerCrc + 1) 0xffffffff off headerCrc with
    | none => .error .spin
    | some headercrc => do
        let found ← field c.dev.erasesize c.big buf (off + headerCrc)
        if headercrc.toNat ≠ found then .error .exit
        else do
          let rootfslen ← readString c.dev.erasesize buf (off + rootLength) imageLen
          if strntoul c.w rootfslen = 0 then return s
          else rewrite c.dev erases writes blockOffset (fixTag c.big buf off) s

def mtdFixtrx (c : Call) (erases writes : Bool) (s : FlashState) : Except Halt FlashState :=
  let blockOffset := blockOf c.w c.erasesizeBefore c.offset
  let off := c.offset - blockOffset
  if c.opens = false then .error .exit
  else if c.dev.mtdsize < blockOffset + c.dev.erasesize then .error .exit
  else if c.mallocs = false then .error .exit
  else do
    let data ← pread c.dev s.flash c.dev.erasesize blockOffset
    fixBlock c erases writes blockOffset off (fun i => data.getD i 0) s

/-! ## What it is for -/

def Call.number (c : Call) (flash : Buffer) (field len : Nat) : Nat :=
  strntoul c.w ((slice flash (c.offset + field) len).takeWhile (· ≠ 0))

def Call.crc (c : Call) (flash : Buffer) (field : Nat) : Nat := word c.big flash (c.offset + field)

/-- An image tag lies at the offset, inside one erase block. -/
structure Call.HasTag (c : Call) (flash : Buffer) : Prop where
  inside : c.offset % c.dev.erasesize + tagSize ≤ c.dev.erasesize
  onDevice : c.offset + tagSize ≤ c.dev.mtdsize
  header : c.crc flash headerCrc = crc32buf (slice flash c.offset headerCrc)

/-- The checksum of the bytes that the tag names by an address and a length; `position` is
where on the device an address is. -/
def Call.dataCrc (c : Call) (position : Nat → Nat) (flash : Buffer) (address length : Nat) : Nat :=
  crc32buf (slice flash (position (c.number flash address addressLen))
    (c.number flash length imageLen))

structure Call.DataMatches (c : Call) (position : Nat → Nat) (flash : Buffer) : Prop where
  kernel : c.crc flash kernelCrc = c.dataCrc position flash kernelAddress kernelLength
  image : c.crc flash imageCrc = c.dataCrc position flash flashImageStart totalLength
  length : c.number flash totalLength imageLen =
    c.number flash kernelLength imageLen + c.number flash rootLength imageLen

/-- A call that returns 0 leaves a tag that is right, and changes nothing else; none leaves
the block in memory. -/
def Call.Repairs (c : Call) (position : Nat → Nat) (erases writes : Bool) (s : FlashState) : Prop :=
  mtdFixtrx c erases writes s = .error .exit ∨
    ∃ s', mtdFixtrx c erases writes s = .ok s' ∧
      c.crc s'.flash headerCrc = crc32buf (slice s'.flash c.offset headerCrc) ∧
      c.DataMatches position s'.flash ∧
      ∀ a, a < c.offset ∨ c.offset + tagSize ≤ a → s'.flash a = s.flash a

/-- The position of the tag in the memory that is read: the offset in its block only if
`erasesize` was set before. -/
def Call.off (c : Call) : Nat :=
  if c.erasesizeBefore = 0 then c.offset else c.offset % c.erasesizeBefore

/-- The checksums of kernel and image are those that the tag has already: its own if it was
repaired before, else the kernel's for both.  Data that the tag is not part of are the same
on the repaired flash. -/
structure Call.DataRight (c : Call) (position : Nat → Nat) (flash : Buffer) : Prop where
  repaired : c.number flash rootLength imageLen = 0 → c.DataMatches position flash
  kernel : c.number flash rootLength imageLen ≠ 0 →
    c.crc flash kernelCrc =
      crc32buf (slice (fixTag c.big flash c.offset)
        (position (c.number flash kernelAddress addressLen)) (c.number flash kernelLength imageLen))
  image : c.number flash rootLength imageLen ≠ 0 →
    c.crc flash kernelCrc =
      crc32buf (slice (fixTag c.big flash c.offset)
        (position (c.number flash flashImageStart addressLen))
        (c.number flash kernelLength imageLen))

def Call.blockOffset (c : Call) : Nat := blockOf c.w c.erasesizeBefore c.offset

/-- The device can be opened, there is memory, and the block is on the device. -/
structure Call.Starts (c : Call) : Prop where
  opens : c.opens = true
  mallocs : c.mallocs = true
  block : c.blockOffset + c.dev.erasesize ≤ c.dev.mtdsize

/-- What makes a call give up on a tag in the block that is read: one with a boot loader, a
checksum that is not that of the bytes at `off` on the device, or a device that cannot be
rewritten. -/
def Call.GivesUp (c : Call) (erases writes : Bool) (flash : Buffer) : Prop :=
  c.number flash cfeLength imageLen ≠ 0 ∨
    crc32buf (slice flash c.off headerCrc) ≠ c.crc flash headerCrc ∨
    c.number flash rootLength imageLen ≠ 0 ∧ (erases = false ∨ writes = false)

end OpenWrt.Mtd.Imagetag
