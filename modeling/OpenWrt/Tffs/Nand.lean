import OpenWrt.Lib.Buffer
import OpenWrt.Lib.SizeT

/-!
# TFFS on NAND flash

`package/utils/fritz-tools/src/fritz_tffs_nand_read.c`: the device, and the scan for good sectors
in `scan_mtd`.  The arrays are lists; an access outside of one has no result.
-/

namespace OpenWrt.Tffs

open Lib

def TFFS_SECTOR_SIZE : Nat := 0x0800
def TFFS_SECTORS_PER_PAGE : Nat := 2
def TFFS_BLOCK_HEADER_MAGIC : Nat := 0x41564d5f54464653

structure Device where
  size : Nat
  erasesize : Nat
  size_lt : size < 4294967296
  flash : Buffer
  readable : Nat → Bool
  /-- `MEMREADOOB` at a position. -/
  oob : Nat → Option Buffer

/-- How the numbers on the device are read (`swap_bytes` and the CPU), and
`read_oob_sector_health`. -/
structure Reader where
  big : Bool
  health : Bool

def Device.sector (d : Device) (pos : Nat) : Option Buffer :=
  if pos + TFFS_SECTOR_SIZE ≤ d.size ∧ d.readable pos then some fun i => d.flash (pos + i) else none

def Device.numSectors (d : Device) : Nat := d.size / TFFS_SECTOR_SIZE

/-- `read_uint64`. -/
def dword (big : Bool) (b : Buffer) (off : Nat) : Nat :=
  if big then word big b off * 4294967296 + word big b (off + 4)
  else word big b (off + 4) * 4294967296 + word big b off

/-! ## Good and bad sectors -/

/-- `0x80 >> (num % 8)`, which is 0 for a negative number. -/
def sectorBit (num : Int) : UInt8 := if num < 0 then 0 else 0x80 >>> UInt8.ofNat (num.toNat % 8)

/-- The index `num / 8`, if it is in a bitmap of `len` bytes. -/
def bitmapIndex (len : Nat) (num : Int) : Option Nat :=
  if 0 ≤ num.tdiv 8 ∧ num.tdiv 8 < len then some (num.tdiv 8).toNat else none

def sectorMarkBad (sectors : List UInt8) (num : Int) : Option (List UInt8) :=
  (bitmapIndex sectors.length num).map fun i =>
    sectors.set i (sectors.getD i 0 &&& ~~~sectorBit num)

def sectorGetGood (sectors : List UInt8) (num : Int) : Option Bool :=
  (bitmapIndex sectors.length num).map fun i => sectors.getD i 0 &&& sectorBit num ≠ 0

structure Scan where
  sectors : List UInt8
  ids : List Nat
  blockOk : Bool
  validBlocks : Nat
  crashed : Bool

section

variable (r : Reader) (d : Device)

def checkSector (pos : Nat) : Bool :=
  if ¬r.health then true
  else
    match d.oob pos with
    | none => false
    | some b => b 0 = 0xff ∧ b 1 = 0xff

/-- The number of a bad sector in the header of a block, as the `int` that marks it. -/
def badSector (buf : Buffer) (sector i : Nat) : Int :=
  wrapInt (sector + dword r.big buf (0x1c + 8 * i) : Nat)

def noteId (ids : List Nat) (i id : Nat) : Option (List Nat) :=
  if i < ids.length then some (ids.set i id) else none

def IsHeader (buf : Buffer) : Prop :=
  dword r.big buf 0 = TFFS_BLOCK_HEADER_MAGIC ∧ word r.big buf 0x0c = TFFS_SECTORS_PER_PAGE

instance (buf : Buffer) : Decidable (IsHeader r buf) := inferInstanceAs (Decidable (_ ∧ _))

def checkBlock (pos sector : Nat) (st : Scan) : Option (Bool × Scan) :=
  if ¬checkSector r d pos then some (false, st)
  else
    match d.sector pos with
    | none => some (false, st)
    | some buf => do
        let ids ← noteId st.ids (pos / TFFS_SECTOR_SIZE) (word r.big buf 0)
        if ¬IsHeader r buf then some (false, { st with ids })
        else
          -- the number of bad sectors is read from the field of the sectors per page
          let sectors ← (List.range (word r.big buf 0x0c)).foldlM
            (fun sectors i => sectorMarkBad sectors (badSector r buf sector i)) st.sectors
          some (true, { st with ids, sectors })

def scanBlock (sector : Nat) (st : Scan) : Option Scan := do
  let (ok, st) ← checkBlock r d (sector * TFFS_SECTOR_SIZE) sector st
  let sectors ← sectorMarkBad st.sectors sector
  some { st with sectors, blockOk := ok, validBlocks := st.validBlocks + if ok then 1 else 0 }

def markBad (sector : Nat) (st : Scan) : Option Scan :=
  (sectorMarkBad st.sectors sector).map fun sectors => { st with sectors }

def scanOther (sector : Nat) (st : Scan) : Option Scan :=
  if ¬st.blockOk then markBad sector st
  else
    match sectorGetGood st.sectors sector with
    | none => none
    | some good =>
      if ¬good ∨ ¬checkSector r d (sector * TFFS_SECTOR_SIZE) then markBad sector st
      else some st

def scanSector (st : Scan) (sector : Nat) : Option Scan :=
  if st.crashed then some st
  else if d.erasesize = 0 then some { st with crashed := true }
  else if sector * TFFS_SECTOR_SIZE % d.erasesize = 0 then scanBlock r d sector st
  else scanOther r d sector st

def Device.positions (d : Device) : Nat := (d.size + (TFFS_SECTOR_SIZE - 1)) / TFFS_SECTOR_SIZE

def Device.start (d : Device) : Scan where
  sectors := List.replicate ((d.numSectors + 7) / 8) 0xff
  ids := List.replicate d.numSectors 0
  blockOk := false
  validBlocks := 0
  crashed := false

def scanMtd : Option Scan := (List.range d.positions).foldlM (scanSector r d) d.start

def ScanSafe : Prop := ∃ st, scanMtd r d = some st

/-- The sectors of the device, or the number of a bad sector, are in the bitmap. -/
def InBitmap (num : Int) : Prop := -8 < num ∧ num.tdiv 8 < ((d.numSectors + 7) / 8 : Nat)

def ValidBlock (pos : Nat) (buf : Buffer) : Prop :=
  pos % d.erasesize = 0 ∧ checkSector r d pos = true ∧ d.sector pos = some buf ∧ IsHeader r buf

/-- A sector at the end of the device that is not full has a bit, and the two bad sectors of each
header are sectors of the device. -/
structure HeadersOk : Prop where
  size : d.size % TFFS_SECTOR_SIZE = 0 ∨ d.numSectors % 8 ≠ 0
  bad : ∀ sector buf, sector < d.positions → ValidBlock r d (sector * TFFS_SECTOR_SIZE) buf →
    ∀ i < 2, InBitmap d (badSector r buf sector i)

end

end OpenWrt.Tffs
