import OpenWrt.Mtd.Repair

/-!
# Repairing a trx header

Model of `mtd_fixtrx` in `package/system/mtd/src/trx.c`: the bytes behind the header are
read in pieces of at most one erase block, without those in bad blocks, and the header's
length and checksum are corrected by rewriting the erase block it starts in.
-/

namespace OpenWrt.Mtd.Trx

open Lib OpenWrt.Mtd.Repair

structure Call where
  dev : Device
  /-- Erase blocks have a power of two of bytes, and the device is made of them. -/
  eraseBits : Nat
  erasesize_eq : dev.erasesize = 2 ^ eraseBits
  blocks : dev.erasesize ∣ dev.mtdsize
  isInt : dev.mtdsize < 2147483648
  w : Nat
  wide : 32 ≤ w
  trxmagic : Nat
  opens : Bool := true
  malloc : Nat → Bool := fun _ => true
  offset : Nat
  dataSize : Nat

def trxCrc32DataOffset : Nat := 12

def trxCrc32DataSize : Nat := 16

def Call.size (c : Call) : Nat :=
  if c.dataSize ≠ 0 then sizeT c.w (c.dataSize + trxCrc32DataSize : Nat)
  else sizeT c.w (c.dev.erasesize - trxCrc32DataOffset : Int)

/-- The `while (data_size)` loop; the first argument is at least `data_size`. -/
def readLoop (d : Device) (w : Nat) (flash : Buffer) :
    Nat → Nat → Nat → List UInt8 → Except Halt (List UInt8)
  | 0, _, _, buf => .ok buf
  | fuel + 1, dataOffset, dataSize, buf =>
    if dataSize = 0 then .ok buf
    else do
      let readChunk := min (d.erasesize - inBlock d.erasesize dataOffset) dataSize
      match mtdBlockIsBad d (blockOf w d.erasesize dataOffset) with
      | none => .error .exit
      | some true => readLoop d w flash fuel (dataOffset + readChunk) (dataSize - readChunk) buf
      | some false =>
        let data ← pread d flash readChunk dataOffset
        readLoop d w flash fuel (dataOffset + readChunk) (dataSize - readChunk) (buf ++ data)

def setField (erasesize : Nat) (block : Buffer) (off value : Nat) : Except Halt Buffer :=
  if off + 4 ≤ erasesize then .ok (storeBytes block off (wordBytes false value))
    else .error .overrun

/-- `trx->len == len && trx->crc32 == crc`, with the header at `off`. -/
def alreadyFixed (erasesize : Nat) (block : Buffer) (off len crc : Nat) : Except Halt Bool := do
  let found ← field erasesize false block (off + 4)
  if found = len then do
    let found ← field erasesize false block (off + 8)
    return found = crc
  else return false

def fixHeader (d : Device) (erases writes : Bool) (blockOffset off : Nat) (block : Buffer)
    (buf : List UInt8) (s : FlashState) : Except Halt FlashState := do
  let fixed ← alreadyFixed d.erasesize block off (buf.length + trxCrc32DataOffset) (crc32buf buf)
  if fixed then return s
  else do
    -- `offsetof(struct trx_header, flag_version)`
    let block ← setField d.erasesize block (off + 4) (buf.length + 12)
    let block ← setField d.erasesize block (off + 8) (crc32buf buf)
    rewrite d erases writes blockOffset block s

def mtdFixtrx (c : Call) (erases writes : Bool) (s : FlashState) : Except Halt FlashState :=
  let d := c.dev
  let dataOffset := sizeT c.w (c.offset + trxCrc32DataOffset : Nat)
  let blockOffset := blockOf c.w d.erasesize c.offset
  let off := c.offset - blockOffset
  if c.opens = false then .error .exit
  else if d.mtdsize < sizeT c.w (dataOffset + c.size : Nat) then .error .exit
  else if c.malloc d.erasesize = false then .error .exit
  else do
    let firstBlock ← pread d s.flash d.erasesize blockOffset
    let block : Buffer := fun i => firstBlock.getD i 0
    let magic ← field d.erasesize true block off
    if magic ≠ c.trxmagic then .error .exit
    else if c.malloc c.size = false then .error .exit
    else do
      let buf ← readLoop d c.w s.flash c.size dataOffset c.size []
      fixHeader d erases writes blockOffset off block buf s

/-! ## What it is for -/

def goodBytes (d : Device) (flash : Buffer) (off n : Nat) : List UInt8 :=
  ((List.range n).filter fun i => !(d.nandflash && d.bad ((off + i) / d.erasesize))).map
    fun i => flash (off + i)

def Call.covered (c : Call) (flash : Buffer) : List UInt8 :=
  goodBytes c.dev flash (c.offset + trxCrc32DataOffset) c.size

/-- There is a header at the offset, and the data behind it is on the device. -/
structure Call.Accepted (c : Call) (flash : Buffer) : Prop where
  opens : c.opens = true
  malloc : ∀ n, c.malloc n = true
  magic : word true flash c.offset = c.trxmagic
  range : c.offset + trxCrc32DataOffset + c.size ≤ c.dev.mtdsize

/-- The header is right, nothing else has changed, and another call has nothing to do. -/
structure Call.Fixed (c : Call) (s s' : FlashState) : Prop where
  len : word false s'.flash (c.offset + 4) = (c.covered s'.flash).length + 12
  crc32 : word false s'.flash (c.offset + 8) = crc32buf (c.covered s'.flash)
  frame : ∀ a, a < c.offset + 4 ∨ c.offset + 12 ≤ a → s'.flash a = s.flash a
  again : ∀ erases writes, mtdFixtrx c erases writes s' = .ok s'

/-- A call that returns 0 has repaired the header, and none leaves `first_block`. -/
def Call.Repairs (c : Call) (erases writes : Bool) (s : FlashState) : Prop :=
  mtdFixtrx c erases writes s = .error .exit ∨
    ∃ s', mtdFixtrx c erases writes s = .ok s' ∧ c.Fixed s s'

end OpenWrt.Mtd.Trx
