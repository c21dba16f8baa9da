import Mathlib
import OpenWrt.Lib.Buffer

/-!
# The SPI-NAND controller driver: page format

Model of the page path of `drivers/mtd/mtk-snand/mtk-snand.c` and
`mtk-snand-ecc.c`: the choice of the page format, the bad-mark swaps, and
`mtk_snand_do_write_page` / `mtk_snand_do_read_page`.  The SPI commands
themselves are taken to succeed; what the controller does with a page in
auto-format mode is the structure `Controller`.
-/

namespace OpenWrt.SNand

open Lib List

def EBADMSG : Int := -74
def ENOTSUPP : Int := -524
def SNF_GPRAM_SIZE : Nat := 0xa0

structure SocData where
  sectorSize : Nat
  maxSectors : Nat
  fdmSize : Nat
  fdmEccSize : Nat
  bbmSwap : Bool
  spareSizes : List Nat

inductive Soc where
  | mt7622 | mt7629 | mt7981 | mt7986
  deriving DecidableEq

def mt7622SpareSizes : List Nat := [16, 26, 27, 28]

def mt7981SpareSizes : List Nat :=
  [16, 26, 27, 28, 32, 36, 40, 44, 48, 49, 50, 51, 52, 62, 61, 63, 64, 67, 74]

def mt7986SpareSizes : List Nat :=
  [16, 26, 27, 28, 32, 36, 40, 44, 48, 49, 50, 51, 52, 62, 61, 63, 64, 67, 74]

def Soc.data : Soc → SocData
  | .mt7622 => ⟨512, 8, 8, 1, false, mt7622SpareSizes⟩
  | .mt7629 => ⟨512, 8, 8, 1, true, mt7622SpareSizes⟩
  | .mt7981 => ⟨1024, 16, 8, 1, true, mt7981SpareSizes⟩
  | .mt7986 => ⟨1024, 16, 8, 1, true, mt7986SpareSizes⟩

structure Snf where
  soc : SocData
  writesize : Nat
  oobsize : Nat
  eccSteps : Nat
  sparePerSector : Nat
  rawSectorSize : Nat
  eccStrength : Nat

def selectSparePerSector (snf : Snf) : Option (Nat × Nat) :=
  let mul := if snf.soc.sectorSize = 1024 then 2 else 1
  let sparePerStep := snf.oobsize / snf.eccSteps / mul
  match (snf.soc.spareSizes.zipIdx.reverse).find? (fun x => x.1 ≤ sparePerStep) with
  | some (spare, i) => some (i, spare * mul)
  | none => none

def supportedPageSizes : List Nat := [512, 2048, 4096, 8192, 16384]

/-- `mtk_snand_pagefmt_setup`.  The test of the spare index is on an unsigned
variable: a failed selection is not noticed and leaves `spare_per_sector`. -/
def pagefmtSetup (snf : Snf) : Option Snf :=
  if snf.writesize ∈ supportedPageSizes then
    let spare :=
      match selectSparePerSector snf with
      | some (_, spare) => spare
      | none => snf.sparePerSector
    some { snf with
      sparePerSector := spare
      rawSectorSize := snf.soc.sectorSize + spare }
  else none

/-- `ecc_bytes` of the page functions, an unsigned difference. -/
def Snf.eccBytes (snf : Snf) : Nat :=
  if snf.soc.fdmSize ≤ snf.sparePerSector then snf.sparePerSector - snf.soc.fdmSize
  else 2 ^ 32 - (snf.soc.fdmSize - snf.sparePerSector)

/-- Where the page cache has the parity of a sector, behind the FDM bytes. -/
def Snf.eccPtr (snf : Snf) (sect : Nat) : Nat :=
  snf.writesize + snf.eccSteps * snf.soc.fdmSize + sect * snf.eccBytes % 2 ^ 32

def fls (n : Nat) : Nat := if n = 0 then 0 else Nat.log2 n + 1

def Soc.eccCaps : Soc → List Nat
  | .mt7622 | .mt7629 => [4, 6, 8, 10, 12]
  | .mt7981 | .mt7986 => [4, 6, 8, 10, 12, 14, 16, 18, 20, 22, 24]

/-- `mtk_ecc_setup`: the strongest code the spare bytes have room for.  The loop
counter is unsigned, so that without one the search would leave the table: `none`. -/
def eccSetup (soc : Soc) (snf : Snf) (maxEccBytes msgSize : Nat) : Option Snf :=
  let eccParityBits := fls (1 + 8 * msgSize)
  let eccStrength := maxEccBytes * 8 % 2 ^ 32 / eccParityBits
  match soc.eccCaps.reverse.find? (fun cap => cap ≤ eccStrength) with
  | some cap => some { snf with eccStrength := cap }
  | none => none

/-- `mtk_snand_setup`: memory organisation, page format and ECC.  A 512-byte page
with 1 KiB sectors has `ecc_steps = 0`, by which the selection of the spare size
divides; the quotient is 0 here, as on arm64. -/
def setup (soc : Soc) (pagesize sparesize : Nat) : Option Snf :=
  let snf : Snf :=
    { soc := soc.data
      writesize := pagesize
      oobsize := sparesize
      eccSteps := pagesize / soc.data.sectorSize
      sparePerSector := 0
      rawSectorSize := 0
      eccStrength := 0 }
  if snf.eccSteps > snf.soc.maxSectors then none
  else
    (pagefmtSetup snf).bind fun snf =>
      eccSetup soc snf snf.eccBytes (snf.soc.sectorSize + snf.soc.fdmEccSize)

/-! ## Bad-mark swaps -/

/-- The swaps do nothing without `bbm_swap` and on one-sector pages. -/
def Snf.noSwap (snf : Snf) : Bool := !snf.soc.bbmSwap || snf.eccSteps == 1

def bmSwapRaw (snf : Snf) (cache : Buffer) : Buffer :=
  if snf.noSwap then cache
  else swapBytes cache ((snf.eccSteps - 1) * snf.rawSectorSize + snf.soc.sectorSize) snf.writesize

def bmSwap (snf : Snf) (cache : Buffer) : Buffer :=
  if snf.noSwap then cache
  else swapBytes cache (snf.writesize + (snf.eccSteps - 1) * snf.soc.fdmSize)
    (snf.writesize - (snf.eccSteps - 1) * snf.sparePerSector)

def fdmBmSwapRaw (snf : Snf) (cache : Buffer) : Buffer :=
  if snf.noSwap then cache
  else swapBytes cache snf.soc.sectorSize
    ((snf.eccSteps - 1) * snf.rawSectorSize + snf.soc.sectorSize)

def fdmBmSwap (snf : Snf) (cache : Buffer) : Buffer :=
  if snf.noSwap then cache
  else swapBytes cache snf.writesize (snf.writesize + (snf.eccSteps - 1) * snf.soc.fdmSize)

/-! ## Empty sectors with bit flips -/

def hweight8 (x : UInt8) : Nat := (range 8).countP fun i => x.toNat.testBit i

/-- One byte at a time, giving up past the correctable number of flips. -/
def bytesBitflips (strength : Nat) : List UInt8 → Nat → Option Nat
  | [], bitflips => some bitflips
  | x :: xs, bitflips =>
    let bitflips := bitflips + (8 - hweight8 x)
    if bitflips > strength then none else bytesBitflips strength xs bitflips

/-- Aligned words; returns what is left after the last whole word. -/
def wordsBitflips (strength : Nat) : List UInt8 → Nat → Option (List UInt8 × Nat)
  | x0 :: x1 :: x2 :: x3 :: xs, bitflips =>
    let bitflips :=
      if x0 = 0xff ∧ x1 = 0xff ∧ x2 = 0xff ∧ x3 = 0xff then bitflips
      else bitflips + (32 - (hweight8 x0 + hweight8 x1 + hweight8 x2 + hweight8 x3))
    if bitflips > strength then none else wordsBitflips strength xs bitflips
  | xs, bitflips => some (xs, bitflips)

/-- `mtk_ecc_check_buf_bitflips` for a buffer at address `addr`; `none` is
`-EBADMSG`. -/
def eccCheckBufBitflips (strength addr : Nat) (buf : List UInt8) (bitflips : Nat) : Option Nat :=
  let lead := (4 - addr % 4) % 4
  match bytesBitflips strength (buf.take lead) bitflips with
  | none => none
  | some bitflips =>
    match wordsBitflips strength (buf.drop lead) bitflips with
    | none => none
    | some (rest, bitflips) => bytesBitflips strength rest bitflips

def eccCheckParityBitflips (strength addr : Nat) (buf : List UInt8) (bits bitflips : Nat) :
    Option Nat :=
  match eccCheckBufBitflips strength addr (buf.take (bits / 8)) bitflips with
  | none => none
  | some n =>
    if bits % 8 = 0 then some n
    else
      let last := buf.getD (bits / 8) 0xff
      let n := n + (range (bits % 8)).countP fun i => !last.toNat.testBit i
      if n > strength then none else some n

/-- `mtk_ecc_reset_parity`: only bits protected by ECC become 1. -/
def eccResetParity (b : Buffer) (off bits : Nat) : Buffer :=
  let b := memset b off 0xff (bits / 8)
  if bits % 8 = 0 then b
  else memset b (off + bits / 8) (b (off + bits / 8) ||| UInt8.ofNat (2 ^ (bits % 8) - 1)) 1

/-- `mtk_ecc_fixup_empty_sector`, with the page cache at address `addr`. -/
def eccFixupEmptySector (snf : Snf) (addr : Nat) (cache : Buffer) (sect : Nat) :
    Option Nat × Buffer :=
  let oob := snf.writesize
  let dataPtr := sect * snf.soc.sectorSize
  let fdmPtr := oob + sect * snf.soc.fdmSize
  let eccPtr := snf.eccPtr sect
  let parityBits := fls (snf.soc.sectorSize * 8)
  let eccBits := snf.eccStrength * parityBits
  let flips :=
    (eccCheckBufBitflips snf.eccStrength (addr + dataPtr)
      (slice cache dataPtr snf.soc.sectorSize) 0).bind fun n =>
    (eccCheckBufBitflips snf.eccStrength (addr + fdmPtr)
      (slice cache fdmPtr snf.soc.fdmEccSize) n).bind fun n =>
    eccCheckParityBitflips snf.eccStrength (addr + eccPtr)
      (slice cache eccPtr (eccBits / 8 + 1)) eccBits n
  match flips with
  | none => (none, cache)
  | some 0 => (some 0, cache)
  | some n =>
    -- Reset the data of this sector to 0xff
    let cache := memset cache dataPtr 0xff snf.soc.sectorSize
    let cache := memset cache fdmPtr 0xff snf.soc.fdmEccSize
    (some n, eccResetParity cache eccPtr eccBits)

/-! ## The controller -/

/-- What the NAND controller adds to a page in auto-format mode, and what its
decoder reports: the number of corrected bits with the corrected bytes, or
nothing for an uncorrectable sector.  `attempt` counts the sampling delays the
driver tries.  A sector read back with its own parity is clean; an erased sector
(all bytes `0xff`, the parity too) is either clean or uncorrectable. -/
structure Controller where
  parity : List UInt8 → List UInt8 → Nat → UInt8
  decode : (attempt : Nat) → (data fdm parity : List UInt8) →
    Option (Nat × List UInt8 × List UInt8)
  decode_parity : ∀ attempt data fdm n,
    decode attempt data fdm ((range n).map (parity data fdm)) = some (0, data, fdm)
  decode_erased : ∀ attempt data fdm par, (∀ x ∈ data ++ fdm ++ par, x = 0xff) →
    decode attempt data fdm par = some (0, data, fdm) ∨ decode attempt data fdm par = none

/-- The two FDM registers of a sector, filled byte by byte as in
`mtk_snand_write_fdm`. -/
def packFdm (fdmSize : Nat) (b : Nat → UInt8) : Nat × Nat :=
  let byte j := if j < fdmSize then (b j).toNat else 0xff
  (byte 0 ||| byte 1 <<< 8 ||| byte 2 <<< 16 ||| byte 3 <<< 24,
    byte 4 ||| byte 5 <<< 8 ||| byte 6 <<< 16 ||| byte 7 <<< 24)

/-- Byte `j` of a pair of FDM registers, as `mtk_snand_read_fdm` takes it. -/
def unpackFdm (reg : Nat × Nat) (j : Nat) : UInt8 :=
  UInt8.ofNat ((if j ≥ 4 then reg.2 else reg.1) >>> (j % 4 * 8))

def writeFdm (snf : Snf) (cache : Buffer) (i : Nat) : Nat × Nat :=
  packFdm snf.soc.fdmSize fun j => cache (snf.writesize + i * snf.soc.fdmSize + j)

/-- Programming in auto-format mode: data, FDM registers and parity, sector by
sector; the rest of the page stays erased. -/
def programAutoFormat (ctl : Controller) (snf : Snf) (cache : Buffer) : Buffer := fun a =>
  let i := a / snf.rawSectorSize
  let r := a % snf.rawSectorSize
  let reg := writeFdm snf cache i
  if i < snf.eccSteps then
    if r < snf.soc.sectorSize then cache (i * snf.soc.sectorSize + r)
    else if r < snf.soc.sectorSize + snf.soc.fdmSize then unpackFdm reg (r - snf.soc.sectorSize)
    else ctl.parity (slice cache (i * snf.soc.sectorSize) snf.soc.sectorSize)
      ((range snf.soc.fdmEccSize).map (unpackFdm reg))
      (r - snf.soc.sectorSize - snf.soc.fdmSize)
  else 0xff

def programRaw (snf : Snf) (cache : Buffer) : Buffer := fun a =>
  if a < snf.eccSteps * snf.rawSectorSize then cache a else 0xff

def readCacheRaw (snf : Snf) (page cache : Buffer) : Buffer := fun a =>
  if a < snf.eccSteps * snf.rawSectorSize then page a else cache a

def decodeSector (ctl : Controller) (snf : Snf) (attempt : Nat) (page : Buffer) (i : Nat) :
    Option (Nat × List UInt8 × List UInt8) :=
  let base := i * snf.rawSectorSize
  ctl.decode attempt (slice page base snf.soc.sectorSize)
    (slice page (base + snf.soc.sectorSize) snf.soc.fdmEccSize)
    (slice page (base + snf.soc.sectorSize + snf.soc.fdmSize) snf.eccBytes)

/-- The cache after the DMA and `mtk_snand_read_fdm`: corrected bytes where the
decoder could, else the bytes on flash.  FDM bytes beyond `fdm_ecc_size` are not
covered by ECC. -/
def readAutoFormat (ctl : Controller) (snf : Snf) (attempt : Nat) (page cache : Buffer) :
    Buffer := fun a =>
  if a < snf.writesize then
    let i := a / snf.soc.sectorSize
    let r := a % snf.soc.sectorSize
    match decodeSector ctl snf attempt page i with
    | some (_, data, _) => data.getD r 0xff
    | none => page (i * snf.rawSectorSize + r)
  else if a < snf.writesize + snf.eccSteps * snf.soc.fdmSize then
    let i := (a - snf.writesize) / snf.soc.fdmSize
    let j := (a - snf.writesize) % snf.soc.fdmSize
    let stored := fun j => page (i * snf.rawSectorSize + snf.soc.sectorSize + j)
    let byte j :=
      if j < snf.soc.fdmEccSize then
        match decodeSector ctl snf attempt page i with
        | some (_, _, fdm) => fdm.getD j 0xff
        | none => stored j
      else stored j
    unpackFdm (packFdm snf.soc.fdmSize byte) j
  else cache a

/-- `mtk_snand_read_ecc_parity`: the parity bytes of the sector, from flash.  They come
through the GPRAM with the four bytes of the command. -/
def readEccParity (snf : Snf) (page cache : Buffer) (sect : Nat) : Option Buffer :=
  if 4 + snf.eccBytes > SNF_GPRAM_SIZE then none
  else
    some (memcpy cache (snf.eccPtr sect) page
      (sect * snf.rawSectorSize + snf.soc.sectorSize + snf.soc.fdmSize) snf.eccBytes)

/-- `mtk_snand_check_ecc_result`, sectors `sects` still to be looked at.
`ret` is 0 or `-EBADMSG`; without the parity of a sector the others are not looked at. -/
def checkEccResult (ctl : Controller) (snf : Snf) (addr attempt : Nat) (page : Buffer) :
    List Nat → (cache : Buffer) → (ret : Int) → (maxBitflips : Nat) → Int × Buffer
  | [], cache, ret, maxBitflips => (if ret ≠ 0 then ret else maxBitflips, cache)
  | i :: sects, cache, ret, maxBitflips =>
    match decodeSector ctl snf attempt page i with
    | some (n, _, _) =>
      checkEccResult ctl snf addr attempt page sects cache ret (max maxBitflips n)
    | none =>
      match readEccParity snf page cache i with
      | none => (ENOTSUPP, cache)
      | some cache =>
        match eccFixupEmptySector snf addr cache i with
        | (none, cache) =>
          checkEccResult ctl snf addr attempt page sects cache EBADMSG maxBitflips
        | (some n, cache) =>
          checkEccResult ctl snf addr attempt page sects cache ret (max maxBitflips n)

def readCacheEcc (ctl : Controller) (snf : Snf) (addr attempt : Nat) (page cache : Buffer) :
    Int × Buffer :=
  checkEccResult ctl snf addr attempt page (range snf.eccSteps)
    (readAutoFormat ctl snf attempt page cache) 0 0

/-- The `retry` loop of `mtk_snand_do_read_page`: at most 16 more attempts with
another sampling delay. -/
def readCacheRetry (ctl : Controller) (snf : Snf) (addr : Nat) (page : Buffer) :
    Nat → Nat → Buffer → Int × Buffer
  | 0, attempt, cache => readCacheEcc ctl snf addr attempt page cache
  | left + 1, attempt, cache =>
    match readCacheEcc ctl snf addr attempt page cache with
    | (ret, cache') =>
      if ret = EBADMSG then readCacheRetry ctl snf addr page left (attempt + 1) cache'
      else (ret, cache')

/-! ## Reading and writing a page -/

structure PageBuf where
  data : Buffer
  oob : Buffer

/-- `mtk_snand_from_raw_page`: data, FDM bytes and, behind them, the parity. -/
def fromRawPage (snf : Snf) (cache : Buffer) : PageBuf where
  data := fun a =>
    cache (a / snf.soc.sectorSize * snf.rawSectorSize + a % snf.soc.sectorSize)
  oob := fun a =>
    if a < snf.eccSteps * snf.soc.fdmSize then
      cache (a / snf.soc.fdmSize * snf.rawSectorSize + snf.soc.sectorSize + a % snf.soc.fdmSize)
    else
      let e := a - snf.eccSteps * snf.soc.fdmSize
      cache (e / snf.eccBytes * snf.rawSectorSize + snf.soc.sectorSize + snf.soc.fdmSize +
        e % snf.eccBytes)

def doReadPage (ctl : Controller) (snf : Snf) (addr : Nat) (page cache : Buffer)
    (raw format : Bool) : Int × PageBuf :=
  if raw then
    let cache := readCacheRaw snf page cache
    if format then (0, fromRawPage snf (fdmBmSwapRaw snf (bmSwapRaw snf cache)))
    else
      (0, { data := cache
            oob := memcpy (fun _ => 0xff) 0 cache snf.writesize
              (snf.eccSteps * snf.sparePerSector) })
  else
    match readCacheRetry ctl snf addr page 16 0 cache with
    | (ret, cache) =>
      let cache := fdmBmSwap snf (bmSwap snf cache)
      (ret, { data := cache
              oob := memcpy (fun _ => 0xff) 0 cache snf.writesize
                (snf.eccSteps * snf.soc.fdmSize) })

def toRawPage (snf : Snf) (buf oob : Option Buffer) (emptyEcc : Bool) : Buffer := fun a =>
  let i := a / snf.rawSectorSize
  let r := a % snf.rawSectorSize
  if i < snf.eccSteps then
    if r < snf.soc.sectorSize then
      match buf with
      | some buf => buf (i * snf.soc.sectorSize + r)
      | none => 0xff
    else
      match oob with
      | some oob =>
        if r < snf.soc.sectorSize + snf.soc.fdmSize then
          oob (i * snf.soc.fdmSize + (r - snf.soc.sectorSize))
        else if emptyEcc then 0xff
        else oob (snf.eccSteps * snf.soc.fdmSize + i * snf.eccBytes +
          (r - snf.soc.sectorSize - snf.soc.fdmSize))
      | none => 0xff
  else 0xff

def isEmptyPage (snf : Snf) (buf oob : Option Buffer) : Bool :=
  (match buf with
    | some buf => (range snf.writesize).all fun i => buf i == 0xff
    | none => true) &&
  (match oob with
    | some oob => (range snf.eccSteps).all fun j =>
      (range snf.soc.fdmEccSize).all fun i => oob (j * snf.soc.fdmSize + i) == 0xff
    | none => true)

/-- The page cache of `mtk_snand_do_write_page`: everything `0xff` but `buf` and
the first `n` bytes of `oob`. -/
def fillCache (snf : Snf) (buf oob : Option Buffer) (n : Nat) : Buffer :=
  let cache : Buffer := fun _ => 0xff
  let cache := match buf with
    | some buf => memcpy cache 0 buf 0 snf.writesize
    | none => cache
  match oob with
  | some oob => memcpy cache snf.writesize oob 0 n
  | none => cache

def doWritePage (ctl : Controller) (snf : Snf) (buf oob : Option Buffer) (raw format : Bool) :
    Buffer :=
  -- A page that is all 0xff is written raw, with 0xff for its parity.
  let emptyEcc := !raw && isEmptyPage snf buf oob
  let raw := raw || emptyEcc
  let format := format || emptyEcc
  if raw then
    if format then
      programRaw snf (bmSwapRaw snf (fdmBmSwapRaw snf (toRawPage snf buf oob emptyEcc)))
    else programRaw snf (fillCache snf buf oob (snf.eccSteps * snf.sparePerSector))
  else
    programAutoFormat ctl snf (bmSwap snf (fdmBmSwap snf
      (fillCache snf buf oob (snf.eccSteps * snf.soc.fdmSize))))

def blockIsbad (ctl : Controller) (snf : Snf) (addr : Nat) (page cache : Buffer) : Bool :=
  -- With `bbm_swap` the mark is where the chip maker puts it, else in the first FDM byte.
  let format := !snf.soc.bbmSwap
  (doReadPage ctl snf addr page cache true format).2.oob 0 != 0xff

end OpenWrt.SNand
