import OpenWrt.Lib.Buffer
import OpenWrt.Lib.Program

/-!
# NMBM: the chip and the instance

The lower NAND device with its sizes, the instance structure of NMBM, and the
functions of `nmbm-core.c` that work on single pages and blocks.  A device has a state
of its own, so each of its operations may end in any way and depend on all that
happened before.  Block sizes and page sizes are powers of two in the source, where
the shifts and masks are the divisions and remainders below.
-/

namespace OpenWrt.Nmbm

open Lib

def NMBM_MAGIC_SIGNATURE : Nat := 0x304d4d4e
def NMBM_MAGIC_INFO_TABLE : Nat := 0x314d4d4e
/-- `NMBM_VERSION_MAKE(1, 0)`. -/
def NMBM_VER : Nat := 1
def NMBM_SPARE_BLOCK_MULTI : Nat := 1
def NMBM_SPARE_BLOCK_DIV : Nat := 2
def NMBM_SPARE_BLOCK_MIN : Nat := 2
def NMBM_MGMT_DIV : Nat := 16
def NMBM_MGMT_BLOCKS_MIN : Nat := 32
def NMBM_TRY_COUNT : Nat := 3
def NMBM_BITMAP_UNIT_SIZE : Nat := 4
def NMBM_BITMAP_BITS_PER_BLOCK : Nat := 2
def NMBM_BITMAP_BLOCKS_PER_UNIT : Nat := 16

def BLOCK_ST_BAD : BitVec 32 := 0
def BLOCK_ST_NEED_REMAP : BitVec 32 := 2
def BLOCK_ST_GOOD : BitVec 32 := 3
def BLOCK_ST_MASK : BitVec 32 := 3

def eio : Int := 5
def enodev : Int := 19
def einval : Int := 22
def erofs : Int := 30
def ebadmsg : Int := 74

def sub32 (a b : Nat) : Nat := if b ≤ a then a - b else a + 4294967296 - b

def add64 (a b : Nat) : Nat := (a + b) % 18446744073709551616

def NMBM_ALIGN (v a : Nat) : Nat := (v + a - 1) / a * a

inductive OobMode where
  | placeOob
  | autoOob
  | raw

structure PageRead where
  ret : Int
  data : Buffer
  oob : Buffer

/-- `struct nmbm_lower_device`, with the byte order of the machine.  Pages do not cross
blocks, a block fits on the chip, and the sizes that NMBM computes fit in `uint32_t`. -/
structure Lower (D : Type) where
  maxRatio : Nat
  maxReservedBlocks : Nat
  create : Bool
  emptyPageEccOk : Bool
  readOnly : Bool
  size : Nat
  erasesize : Nat
  writesize : Nat
  oobsize : Nat
  bigEndian : Bool
  resetChip : D → D
  readPage : Nat → (buf oob : Bool) → OobMode → D → PageRead × D
  writePage : Nat → (buf oob : Option Buffer) → OobMode → D → Int × D
  eraseBlock : Nat → D → Int × D
  isBadBlock : Option (Nat → D → Bool × D)
  markBadBlock : Option (Nat → D → Int × D)
  page_dvd : writesize ∣ erasesize
  block_le : erasesize ≤ size
  small : size / erasesize * 64 + 4 * writesize < 4294967296

/-- `struct nmbm_header` and the rest of `struct nmbm_info_table_header`. -/
structure InfoTableHeader where
  magic : Nat
  version : Nat
  size : Nat
  checksum : Nat
  writeCount : Nat
  stateTableOff : Nat
  mappingTableOff : Nat
  padding : Nat

structure Signature where
  magic : Nat
  version : Nat
  size : Nat
  checksum : Nat
  nandSize : Nat
  blockSize : Nat
  pageSize : Nat
  spareSize : Nat
  mgmtStartPb : Nat
  maxTryCount : UInt8

/-- The members of `struct nmbm_instance` that change.  The two counters are `uint32_t`: the state
of a block gets worse at most twice and each mapping takes a spare block, so that they stay
below three times the number of blocks. -/
structure Instance where
  signature : Signature
  infoTableCache : Buffer
  infoTable : InfoTableHeader
  blockState : Nat → BitVec 32
  blockStateChanged : Nat
  blockMapping : Nat → BitVec 32
  blockMappingChanged : Nat
  pageCache : Buffer
  isProtected : Bool
  dataBlockCount : Nat
  mgmtStartBa : Nat
  mainTableBa : Nat
  backupTableBa : Nat
  mappingBlocksBa : Nat
  mappingBlocksTopBa : Nat
  signatureBa : Nat

/-- What a proof wants to know about a run: a block that table management is about to
erase, a block that a logic block is about to be mapped to, the start of the management
area that the signature on the chip gives, and the instance as it was when the info
tables on the chip had been found. -/
inductive Event where
  | touch (ba : Nat) (ni : Instance)
  | remap (pb : Nat) (ni : Instance)
  | adopt (mgmtStartBa : Nat)
  | load (ni : Instance)

/-- The device and the instance.  The ends of the two info tables, the events and the blocks
that table management found marked bad, or could not erase or program, are kept for the
proofs; no function reads them. -/
structure World (D : Type) where
  dev : D
  ni : Instance
  mainTableEnd : Nat
  backupTableEnd : Nat
  log : List Event
  failed : List Nat

abbrev M (D : Type) := Prog (World D)

variable {D α : Type}

def getNi : M D Instance := Prog.read (·.ni)

def modifyNi (f : Instance → Instance) : M D Unit :=
  Prog.update fun w => { w with ni := f w.ni }

def note (e : Instance → Event) : M D Unit :=
  Prog.update fun w => { w with log := e w.ni :: w.log }

def noteFailed (ba : Nat) : M D Unit :=
  Prog.update fun w => { w with failed := ba :: w.failed }

def lower (f : D → α × D) : M D α :=
  Prog.call fun w => ((f w.dev).1, { w with dev := (f w.dev).2 })

/-! ## Sizes -/

namespace Lower

variable (nld : Lower D)

def blockCount : Nat := nld.size / nld.erasesize

def pagesPerBlock : Nat := nld.erasesize / nld.writesize

def rawpageSize : Nat := nld.writesize + nld.oobsize

def stateTableSize : Nat :=
  (nld.blockCount + NMBM_BITMAP_BLOCKS_PER_UNIT - 1) / NMBM_BITMAP_BLOCKS_PER_UNIT *
    NMBM_BITMAP_UNIT_SIZE

def mappingTableSize : Nat := nld.blockCount * 4

def headerSize : Nat := 32

def stateTableOff : Nat := NMBM_ALIGN headerSize nld.writesize

def mappingTableOff : Nat := nld.stateTableOff + NMBM_ALIGN nld.stateTableSize nld.writesize

def infoTableSize : Nat := nld.mappingTableOff + NMBM_ALIGN nld.mappingTableSize nld.writesize

def addr2ba (addr : Nat) : Nat := addr / nld.erasesize

def ba2addr (ba : Nat) : Nat := ba * nld.erasesize

def size2blk (size : Nat) : Nat := (size + nld.erasesize - 1) / nld.erasesize

end Lower

def getSpareBlockCount (blockCount : Nat) : Nat :=
  let val := (blockCount + NMBM_SPARE_BLOCK_DIV / 2) / NMBM_SPARE_BLOCK_DIV *
    NMBM_SPARE_BLOCK_MULTI
  if val < NMBM_SPARE_BLOCK_MIN then NMBM_SPARE_BLOCK_MIN else val

def Lower.infoTableSpareBlocks (nld : Lower D) : Nat :=
  getSpareBlockCount (nld.size2blk nld.infoTableSize)

/-! ## Pages and blocks of the chip -/

variable (nld : Lower D)

def resetChip : M D Unit := lower fun d => ((), nld.resetChip d)

/-- An operation that is tried once more `n` times; the chip is reset after a failure. -/
def retry (ok : α → Bool) (op : M D α) : Nat → M D α
  | 0 => do
      let r ← op
      if ok r then pure r
      else do
        resetChip nld
        pure r
  | n + 1 => do
      let r ← op
      if ok r then pure r
      else do
        resetChip nld
        retry ok op n

def readPhysPage (addr : Nat) (buf oob : Bool) (mode : OobMode) : M D PageRead :=
  retry nld (fun r => decide (0 ≤ r.ret)) (lower (nld.readPage addr buf oob mode))
    (NMBM_TRY_COUNT - 1)

def writePhysPage (addr : Nat) (data oob : Option Buffer) (mode : OobMode) : M D Bool :=
  if nld.readOnly then pure false
  else do
    let ret ← retry nld (· == 0) (lower (nld.writePage addr data oob mode)) (NMBM_TRY_COUNT - 1)
    pure (ret == 0)

def erasePhysBlock (addr : Nat) : M D Bool :=
  if nld.readOnly then pure false
  else do
    let ret ← retry nld (· == 0) (lower (nld.eraseBlock addr)) (NMBM_TRY_COUNT - 1)
    pure (ret == 0)

def readPageCache (addr : Nat) : M D PageRead := do
  let r ← readPhysPage nld addr true false .placeOob
  modifyNi fun ni => { ni with pageCache := memcpy ni.pageCache 0 r.data 0 nld.writesize }
  pure r

def checkBadPhysBlock (ba : Nat) : M D Bool :=
  match nld.isBadBlock with
  | some isBad => lower (isBad (nld.ba2addr ba))
  | none => do
      let r ← readPhysPage nld (nld.ba2addr ba) false true .raw
      modifyNi fun ni =>
        { ni with pageCache := memcpy ni.pageCache nld.writesize r.oob 0 nld.oobsize }
      let ni ← getNi
      -- An ECC error counts as a successful read.
      pure (decide (r.ret < 0 ∧ r.ret ≠ -ebadmsg ∨ ni.pageCache nld.writesize ≠ 0xff))

/-- `page_cache` written to `n` pages from `addr` on, whatever comes of it. -/
def writePages (addr : Nat) : Nat → M D Unit
  | 0 => pure ()
  | n + 1 => do
      let ni ← getNi
      let _ ← writePhysPage nld addr (some ni.pageCache)
        (some fun a => ni.pageCache (nld.writesize + a)) .raw
      writePages (addr + nld.writesize) n

def markPhysBadBlock (ba : Nat) : M D Unit :=
  if nld.readOnly then pure ()
  else
    match nld.markBadBlock with
    | some markBad => do
        let _ ← lower (markBad (nld.ba2addr ba))
        pure ()
    | none => do
        modifyNi fun ni => { ni with pageCache := memset ni.pageCache 0 0 nld.rawpageSize }
        writePages nld (nld.ba2addr ba) nld.pagesPerBlock

def checkEmptyPages (addr : Nat) : Nat → M D Bool
  | 0 => pure true
  | n + 1 => do
      let r ← readPageCache nld addr
      if r.ret = -ebadmsg then pure false
      else checkEmptyPages (addr + nld.writesize) n

def eraseBlockAndCheck (ba : Nat) : M D Bool := do
  let success ← erasePhysBlock nld (nld.ba2addr ba)
  if !success then pure false
  else if !nld.emptyPageEccOk then pure true
  else checkEmptyPages nld (nld.ba2addr ba) nld.pagesPerBlock

def readDataLoop : Nat → (off : Nat) → (data : Buffer) → (ptr sizeremain : Nat) →
    M D (Int × Buffer)
  | 0, _, data, _, _ => pure (0, data)
  | n + 1, off, data, ptr, sizeremain =>
    if sizeremain = 0 then pure (0, data)
    else
      let leading := off % nld.writesize
      let chunksize := min (nld.writesize - leading) sizeremain
      if chunksize = nld.writesize then do
        let r ← readPhysPage nld (off - leading) true false .placeOob
        let data := memcpy data ptr r.data 0 nld.writesize
        if r.ret < 0 then pure (r.ret, data)
        else readDataLoop n (off + chunksize) data (ptr + chunksize) (sizeremain - chunksize)
      else do
        let r ← readPageCache nld (off - leading)
        if r.ret < 0 then pure (r.ret, data)
        else do
          let ni ← getNi
          readDataLoop n (off + chunksize) (memcpy data ptr ni.pageCache leading chunksize)
            (ptr + chunksize) (sizeremain - chunksize)

def readData (addr : Nat) (data : Buffer) (ptr size : Nat) : M D (Int × Buffer) :=
  readDataLoop nld size addr data ptr size

def writeVerifyLoop (data : Buffer) : Nat → (off ptr sizeremain : Nat) → M D Bool
  | 0, _, _, _ => pure true
  | n + 1, off, ptr, sizeremain =>
    if sizeremain = 0 then pure true
    else do
      let leading := off % nld.writesize
      let chunksize := min (nld.writesize - leading) sizeremain
      modifyNi fun ni =>
        { ni with pageCache :=
            memcpy (memset ni.pageCache 0 0xff nld.rawpageSize) leading data ptr chunksize }
      let ni ← getNi
      let success ← writePhysPage nld (off - leading) (some ni.pageCache) none .placeOob
      if !success then pure false
      else do
        let r ← readPageCache nld (off - leading)
        if r.ret < 0 then pure false
        else do
          let ni ← getNi
          if slice ni.pageCache leading chunksize ≠ slice data ptr chunksize then pure false
          else
            writeVerifyLoop data n (off + chunksize) (ptr + chunksize)
              (sizeremain - chunksize)

def writeVerifyData (addr : Nat) (data : Buffer) (ptr size : Nat) : M D Bool :=
  writeVerifyLoop nld data size addr ptr size

/-! ## Block states -/

def getBlockStateRaw (blockState : Nat → BitVec 32) (ba : Nat) : BitVec 32 :=
  (blockState (ba / NMBM_BITMAP_BLOCKS_PER_UNIT) >>>
    (ba % NMBM_BITMAP_BLOCKS_PER_UNIT * NMBM_BITMAP_BITS_PER_BLOCK)) &&& BLOCK_ST_MASK

def Instance.getBlockState (ni : Instance) (ba : Nat) : BitVec 32 :=
  getBlockStateRaw ni.blockState ba

def putBlockState (blockState : Nat → BitVec 32) (ba : Nat) (state : BitVec 32) :
    Nat → BitVec 32 :=
  let unit := ba / NMBM_BITMAP_BLOCKS_PER_UNIT
  let shift := ba % NMBM_BITMAP_BLOCKS_PER_UNIT * NMBM_BITMAP_BITS_PER_BLOCK
  let uv := blockState unit &&& ~~~(BLOCK_ST_MASK <<< shift)
  Function.update blockState unit (uv ||| (state &&& BLOCK_ST_MASK) <<< shift)

def setBlockState (ba : Nat) (state : BitVec 32) : M D Unit :=
  modifyNi fun ni =>
    { ni with
      blockState := putBlockState ni.blockState ba state
      blockStateChanged :=
        if ni.getBlockState ba ≠ state &&& BLOCK_ST_MASK then ni.blockStateChanged + 1
        else ni.blockStateChanged }

def walkAsc (blockState : Nat → BitVec 32) : Nat → (ba : Nat) → (nblock : Int) → Option Nat
  | 0, _, _ => none
  | n + 1, ba, nblock =>
    let nblock := if getBlockStateRaw blockState ba = BLOCK_ST_GOOD then nblock - 1 else nblock
    if nblock < 0 then some ba else walkAsc blockState n (ba + 1) nblock

def walkDesc (blockState : Nat → BitVec 32) : Nat → (ba : Nat) → (nblock : Int) → Option Nat
  | 0, _, _ => none
  | n + 1, ba, nblock =>
    let nblock := if getBlockStateRaw blockState ba = BLOCK_ST_GOOD then nblock - 1 else nblock
    if nblock < 0 then some ba else walkDesc blockState n (ba - 1) nblock

def clipLimit (limit : Nat) : Nat :=
  if limit ≥ nld.blockCount then sub32 nld.blockCount 1 else limit

def blockWalkAsc (blockState : Nat → BitVec 32) (ba : Nat) (count : Int) (limit : Nat) :
    Option Nat :=
  walkAsc blockState (clipLimit nld limit - ba) ba count

def blockWalkDesc (blockState : Nat → BitVec 32) (ba : Nat) (count : Int) (limit : Nat) :
    Option Nat :=
  walkDesc blockState (ba - clipLimit nld limit) ba count

/-- `nmbm_block_walk`; the signed limit is passed on as a `uint32_t`. -/
def blockWalk (blockState : Nat → BitVec 32) (ascending : Bool) (ba : Nat) (count : Int)
    (limit : Nat) : Option Nat :=
  if ascending then blockWalkAsc nld blockState ba count limit
  else blockWalkDesc nld blockState ba count limit

/-- As many good blocks of `count`, but not under `minCount`, as can be skipped. -/
def tryReserveBlocks (blockState : Nat → BitVec 32) (ba count minCount limit : Nat) :
    Option Nat :=
  (List.range' minCount (count + 1 - minCount)).reverse.findSome? fun nblocks =>
    blockWalk nld blockState true ba (Int.ofNat nblocks) limit

end OpenWrt.Nmbm
