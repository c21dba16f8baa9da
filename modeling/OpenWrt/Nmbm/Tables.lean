import OpenWrt.Lib.Crc
import OpenWrt.Nmbm.Chip

/-!
# NMBM: writing the info tables

The part of `nmbm-core.c` that keeps the main and the backup info table up to date:
the table image with its checksum, the writing of an image around bad blocks, and the
procedures that rebuild, rescue and update the two tables.  A `goto` of the source goes
to a function of its own here.
-/

namespace OpenWrt.Nmbm

open Lib

variable {D : Type}

/-! ## Images of the tables -/

def nmbmCrc32 (crcval : BitVec 32) (bs : List UInt8) : BitVec 32 := crc32 crcval bs

def NMBM_HEADER_SIZE : Nat := 16

def checkHeader (big : Bool) (data : Buffer) (size : Nat) : Bool :=
  let headerSize := word big data 8
  if headerSize > size then false
  else
    let nhdr := storeBytes data 12 (wordBytes big 0)
    let crc := nmbmCrc32 0 (slice nhdr 0 NMBM_HEADER_SIZE)
    let crc :=
      if headerSize > NMBM_HEADER_SIZE then
        nmbmCrc32 crc (slice data NMBM_HEADER_SIZE (headerSize - NMBM_HEADER_SIZE))
      else crc
    word big data 12 == crc.toNat

def updateChecksum (big : Bool) (data : Buffer) : Buffer :=
  let data := storeBytes data 12 (wordBytes big 0)
  storeBytes data 12 (wordBytes big (nmbmCrc32 0 (slice data 0 (word big data 8))).toNat)

def wordsBuffer (big : Bool) (f : Nat → BitVec 32) : Buffer :=
  fun a => (wordBytes big (f (a / 4)).toNat).getD (a % 4) 0

namespace InfoTableHeader

def bytes (big : Bool) (h : InfoTableHeader) : List UInt8 :=
  wordBytes big h.magic ++ wordBytes big h.version ++ wordBytes big h.size ++
    wordBytes big h.checksum ++ wordBytes big h.writeCount ++ wordBytes big h.stateTableOff ++
    wordBytes big h.mappingTableOff ++ wordBytes big h.padding

def ofBuffer (big : Bool) (b : Buffer) : InfoTableHeader where
  magic := word big b 0
  version := word big b 4
  size := word big b 8
  checksum := word big b 12
  writeCount := word big b 16
  stateTableOff := word big b 20
  mappingTableOff := word big b 24
  padding := word big b 28

end InfoTableHeader

def tableWords (big : Bool) (b : Buffer) (off : Nat) : Nat → BitVec 32 :=
  fun i => BitVec.ofNat 32 (word big b (off + 4 * i))

def tableImage (nld : Lower D) (ni : Instance) (infoTable : InfoTableHeader) : Buffer :=
  let cache := memset ni.infoTableCache 0 0xff nld.infoTableSize
  let cache := memcpy cache infoTable.stateTableOff (wordsBuffer nld.bigEndian ni.blockState) 0
    nld.stateTableSize
  let cache := memcpy cache infoTable.mappingTableOff
    (wordsBuffer nld.bigEndian ni.blockMapping) 0 nld.mappingTableSize
  updateChecksum nld.bigEndian (storeBytes cache 0 (infoTable.bytes nld.bigEndian))

variable (nld : Lower D)

def Instance.dirty (ni : Instance) : Bool :=
  ni.blockStateChanged != 0 || ni.blockMappingChanged != 0

/-- The header of the next image; its write count goes up when there is a change. -/
def nextInfoTable (ni : Instance) : InfoTableHeader :=
  { ni.infoTable with
    magic := NMBM_MAGIC_INFO_TABLE
    version := NMBM_VER
    size := nld.infoTableSize
    writeCount :=
      if ni.dirty then (ni.infoTable.writeCount + 1) % 4294967296
      else ni.infoTable.writeCount }

def Instance.generated (ni : Instance) : Instance :=
  { ni with
    infoTable := nextInfoTable nld ni
    infoTableCache := tableImage nld ni (nextInfoTable nld ni) }

/-- `nmbm_generate_info_table_cache`: whether there was a change. -/
def generateInfoTableCache : M D Bool := do
  let ni ← getNi
  modifyNi (Instance.generated nld)
  pure ni.dirty

/-! ## Writing an image -/

def usableBlock (ba : Nat) : M D Bool := do
  let ni ← getNi
  if ni.getBlockState ba ≠ BLOCK_ST_GOOD then pure false
  else do
    let bad ← checkBadPhysBlock nld ba
    if bad then do
      noteFailed ba
      setBlockState ba BLOCK_ST_BAD
      pure false
    else pure true

def condemnBlock (ba : Nat) : M D Unit := do
  markPhysBadBlock nld ba
  setBlockState ba BLOCK_ST_BAD

def eraseRangeLoop : Nat → (ba : Nat) → M D Unit
  | 0, _ => pure ()
  | n + 1, ba => do
      let usable ← usableBlock nld ba
      if !usable then eraseRangeLoop n (ba + 1)
      else do
        note (.touch ba)
        let success ← eraseBlockAndCheck nld ba
        if success then eraseRangeLoop n (ba + 1)
        else do
          noteFailed ba
          condemnBlock nld ba
          eraseRangeLoop n (ba + 1)

def eraseRange (ba limit : Nat) : M D Unit := eraseRangeLoop nld (limit - ba) ba

def writeChunk (ba : Nat) (data : Buffer) (ptr chunksize : Nat) : M D Bool := do
  note (.touch ba)
  let success ← eraseBlockAndCheck nld ba
  if !success then pure false
  else writeVerifyData nld (nld.ba2addr ba) data ptr chunksize

/-- The loop of `nmbm_write_mgmt_range`, of at most `n` blocks; `start` is the block of the
first chunk. -/
def writeMgmtLoop (data : Buffer) (size : Nat) : Nat → (ba sizeremain start : Nat) →
    M D (Option (Nat × Nat))
  | 0, ba, sizeremain, start => pure (if sizeremain = 0 then some (start, ba) else none)
  | n + 1, ba, sizeremain, start =>
    if sizeremain = 0 then pure (some (start, ba))
    else do
      let chunksize := min sizeremain nld.erasesize
      let usable ← usableBlock nld ba
      if !usable then writeMgmtLoop data size n (ba + 1) sizeremain start
      else do
        let success ← writeChunk nld ba data (size - sizeremain) chunksize
        if success then
          writeMgmtLoop data size n (ba + 1) (sizeremain - chunksize)
            (if sizeremain = size then ba else start)
        else do
          noteFailed ba
          condemnBlock nld ba
          writeMgmtLoop data size n (ba + 1) sizeremain start

def writeMgmtRange (ba limit : Nat) (data : Buffer) (size : Nat) : M D (Option (Nat × Nat)) :=
  writeMgmtLoop nld data size (limit - ba) ba size 0

def writeInfoTable (ba limit : Nat) : M D (Option (Nat × Nat)) := do
  let ni ← getNi
  writeMgmtRange nld ba limit ni.infoTableCache nld.infoTableSize

/-! ## The two tables -/

def markTablesClean : M D Unit :=
  modifyNi fun ni => { ni with blockStateChanged := 0, blockMappingChanged := 0 }

def recordMain (startBa endBa : Nat) : M D Unit :=
  Prog.update fun w =>
    { w with ni := { w.ni with mainTableBa := startBa }, mainTableEnd := endBa }

def recordBackup (startBa endBa : Nat) : M D Unit :=
  Prog.update fun w =>
    { w with ni := { w.ni with backupTableBa := startBa }, backupTableEnd := endBa }

def promoteBackup : M D Unit :=
  Prog.update fun w =>
    { w with
      ni := { w.ni with mainTableBa := w.ni.backupTableBa, backupTableBa := 0 }
      mainTableEnd := w.backupTableEnd
      backupTableEnd := 0 }

def setMappingBlocksBa (ba : Nat) : M D Unit :=
  modifyNi fun ni => { ni with mappingBlocksBa := ba }

def protect : M D Unit := modifyNi fun ni => { ni with isProtected := true }

def reserveForTable (ni : Instance) (ba : Nat) : Option Nat :=
  tryReserveBlocks nld ni.blockState ba nld.infoTableSpareBlocks 0
    (sub32 ni.mappingBlocksTopBa (nld.size2blk nld.infoTableSize))

def rebuildInfoTable : M D Bool := do
  recordMain 0 0
  recordBackup 0 0
  modifyNi fun ni => { ni with mappingBlocksBa := ni.mappingBlocksTopBa }
  let ni ← getNi
  match ← writeInfoTable nld ni.mgmtStartBa ni.mappingBlocksTopBa with
  | none => do
      protect
      pure false
  | some (startBa, endBa) => do
      recordMain startBa endBa
      setMappingBlocksBa endBa
      markTablesClean
      let ni ← getNi
      match reserveForTable nld ni endBa with
      | none => pure true
      | some nextBa =>
        match ← writeInfoTable nld nextBa ni.mappingBlocksTopBa with
        | none => pure true
        | some (startBa', endBa') => do
            recordBackup startBa' endBa'
            setMappingBlocksBa endBa'
            eraseRange nld endBa startBa'
            pure true

/-- Tries to write a table from `writeBa` on, and then from each block below it down to
`lowest`.  Below block 0 the counter wraps. -/
def writeTableDown (lowest : Nat) : Nat → (writeBa : Nat) → M D (Option (Nat × Nat))
  | 0, _ => Prog.diverge
  | fuel + 1, writeBa =>
    if writeBa < lowest then pure none
    else do
      let ni ← getNi
      match ← writeInfoTable nld writeBa ni.mappingBlocksTopBa with
      | some table => pure (some table)
      | none => writeTableDown lowest fuel (sub32 writeBa 1)

variable (fuel : Nat)

def rescueBehind : M D Bool := do
  let ni ← getNi
  match reserveForTable nld ni ni.mappingBlocksBa with
  | none => pure false
  | some writeBa =>
    match ← writeTableDown nld ni.mappingBlocksBa fuel writeBa with
    | none => pure false
    | some (startBa, endBa) => do
        eraseRange nld ni.mappingBlocksBa startBa
        recordBackup startBa endBa
        setMappingBlocksBa endBa
        markTablesClean
        pure true

def rescueSingleInfoTable : M D Bool := do
  let w ← Prog.read id
  match ← writeInfoTable nld w.ni.mgmtStartBa w.ni.mainTableBa with
  | some (startBa, endBa) => do
      recordBackup w.ni.mainTableBa w.mainTableEnd
      recordMain startBa endBa
      markTablesClean
      eraseRange nld endBa w.ni.mainTableBa
      pure true
  | none => rescueBehind nld fuel

def updateSingleInfoTable (updateMainTable : Bool) : M D Bool := do
  let ni ← getNi
  if updateMainTable then
    match ← writeInfoTable nld ni.mainTableBa ni.backupTableBa with
    | some (startBa, endBa) => do
        recordMain startBa endBa
        markTablesClean
        pure true
    | none => do
        promoteBackup
        rescueSingleInfoTable nld fuel
  else
    match ← writeInfoTable nld ni.backupTableBa ni.mappingBlocksTopBa with
    | some (startBa, endBa) => do
        recordBackup startBa endBa
        setMappingBlocksBa endBa
        markTablesClean
        pure true
    | none => do
        setMappingBlocksBa ni.backupTableBa
        recordBackup 0 0
        pure false

/-- The end of `nmbm_rescue_main_info_table`, for a main table that ran over the temporary
one. -/
def rewriteBackup (mainEnd : Nat) : M D Bool := do
  setMappingBlocksBa mainEnd
  let ni ← getNi
  match reserveForTable nld ni mainEnd with
  | none => do
      recordBackup 0 0
      pure true
  | some writeBa =>
    match ← writeTableDown nld mainEnd fuel writeBa with
    | none => do
        recordBackup 0 0
        pure true
    | some (startBa, endBa) => do
        recordBackup startBa endBa
        setMappingBlocksBa endBa
        eraseRange nld mainEnd startBa
        pure true

def rescueMainInfoTable : M D Bool := do
  let ni ← getNi
  match reserveForTable nld ni ni.mappingBlocksBa with
  | none => do
      promoteBackup
      pure true
  | some writeBa =>
    match ← writeTableDown nld ni.mappingBlocksBa fuel writeBa with
    | none => do
        promoteBackup
        pure true
    | some (tmpStart, tmpEnd) => do
        setMappingBlocksBa tmpEnd
        match ← writeInfoTable nld ni.mgmtStartBa tmpStart with
        | none => do
            recordMain tmpStart tmpEnd
            recordBackup 0 0
            markTablesClean
            pure true
        | some (mainStart, mainEnd) => do
            recordMain mainStart mainEnd
            markTablesClean
            if mainEnd ≤ tmpStart then do
              recordBackup tmpStart tmpEnd
              pure true
            else rewriteBackup nld fuel mainEnd

def writeMainTable (mainTableLimit : Nat) : M D Bool := do
  let ni ← getNi
  if ni.mainTableBa = 0 then rebuildInfoTable nld
  else
    match ← writeInfoTable nld ni.mainTableBa mainTableLimit with
    | none =>
      if ni.backupTableBa = 0 then rebuildInfoTable nld
      else rescueMainInfoTable nld fuel
    | some (startBa, endBa) => do
        recordMain startBa endBa
        if ni.backupTableBa = 0 then setMappingBlocksBa endBa else pure ()
        markTablesClean
        pure true

def updateInfoTableOnce (force : Bool) : M D Bool := do
  let changed ← generateInfoTableCache nld
  if !changed && !force then pure true
  else do
    let ni ← getNi
    if ni.backupTableBa = 0 then writeMainTable nld fuel ni.mappingBlocksTopBa
    else
      match ← writeInfoTable nld ni.backupTableBa ni.mappingBlocksTopBa with
      | none => do
          setMappingBlocksBa ni.backupTableBa
          recordBackup 0 0
          writeMainTable nld fuel ni.mappingBlocksTopBa
      | some (startBa, endBa) => do
          recordBackup startBa endBa
          setMappingBlocksBa endBa
          markTablesClean
          writeMainTable nld fuel startBa

def updateLoop : Nat → M D Bool
  | 0 => Prog.diverge
  | n + 1 => do
      let ni ← getNi
      if ni.dirty then do
        let success ← updateInfoTableOnce nld fuel false
        if !success then pure false else updateLoop n
      else pure true

def updateInfoTable : M D Bool := do
  let ni ← getNi
  if ni.isProtected then pure true else updateLoop nld fuel fuel

def mapBlock (lb : Nat) : M D Bool := do
  let ni ← getNi
  if ni.mappingBlocksBa = ni.mappingBlocksTopBa then pure false
  else
    match blockWalk nld ni.blockState false ni.mappingBlocksTopBa 0 ni.mappingBlocksBa with
    | none => do
        let _ ← updateInfoTable nld fuel
        modifyNi fun ni => { ni with mappingBlocksTopBa := ni.mappingBlocksBa }
        pure false
    | some pb => do
        note (.remap pb)
        modifyNi fun ni =>
          { ni with
            blockMapping := Function.update ni.blockMapping lb (BitVec.ofNat 32 pb)
            mappingBlocksTopBa := sub32 ni.mappingBlocksTopBa 1
            blockMappingChanged := ni.blockMappingChanged + 1 }
        pure true

end OpenWrt.Nmbm
