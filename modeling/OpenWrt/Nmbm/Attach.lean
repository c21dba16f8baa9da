import OpenWrt.Nmbm.Tables

/-!
# NMBM: attaching to a chip

`nmbm_attach` looks for the signature block.  Without one it creates the management
area; with one it loads the info tables, and creates them anew when there are none.
-/

namespace OpenWrt.Nmbm

open Lib

variable {D : Type}

/-! ## Checks of the lower device -/

def isPowerOf2 (n : Nat) : Bool := n != 0 && n &&& (n - 1) == 0

def checkLowerMembers (nld : Lower D) : Option (Lower D) :=
  if !isPowerOf2 nld.size then none
  else if !isPowerOf2 nld.erasesize then none
  else if !isPowerOf2 nld.writesize then none
  else if nld.oobsize = 0 then none
  else
    let nld := { nld with maxRatio := if nld.maxRatio = 0 then 1 else nld.maxRatio }
    if nld.maxRatio ≥ NMBM_MGMT_DIV - 1 then none
    else if nld.maxReservedBlocks ≠ 0 ∧ nld.maxReservedBlocks < NMBM_MGMT_BLOCKS_MIN then none
    else some nld

/-! ## The signature -/

def NMBM_SIGNATURE_SIZE : Nat := 48

namespace Signature

def bytes (big : Bool) (s : Signature) : List UInt8 :=
  let lo := wordBytes big (s.nandSize % 4294967296)
  let hi := wordBytes big (s.nandSize / 4294967296)
  wordBytes big s.magic ++ wordBytes big s.version ++ wordBytes big s.size ++
    wordBytes big s.checksum ++ (if big then hi ++ lo else lo ++ hi) ++
    wordBytes big s.blockSize ++ wordBytes big s.pageSize ++ wordBytes big s.spareSize ++
    wordBytes big s.mgmtStartPb ++ [s.maxTryCount, 0, 0, 0] ++ [0, 0, 0, 0]

def ofBuffer (big : Bool) (b : Buffer) : Signature where
  magic := word big b 0
  version := word big b 4
  size := word big b 8
  checksum := word big b 12
  nandSize :=
    if big then word big b 16 * 4294967296 + word big b 20
    else word big b 16 + word big b 20 * 4294967296
  blockSize := word big b 24
  pageSize := word big b 28
  spareSize := word big b 32
  mgmtStartPb := word big b 36
  maxTryCount := b 40

end Signature

variable (nld : Lower D)

def newSignature (mgmtStartBa : Nat) : Signature :=
  let signature : Signature :=
    { magic := NMBM_MAGIC_SIGNATURE
      version := NMBM_VER
      size := NMBM_SIGNATURE_SIZE
      checksum := 0
      nandSize := nld.size
      blockSize := nld.erasesize
      pageSize := nld.writesize
      spareSize := nld.oobsize
      mgmtStartPb := mgmtStartBa
      maxTryCount := UInt8.ofNat NMBM_TRY_COUNT }
  { signature with checksum := (nmbmCrc32 0 (signature.bytes nld.bigEndian)).toNat }

def writeRepeatedLoop (data : Buffer) (size : Nat) : Nat → (addr : Nat) → M D Bool
  | 0, _ => pure true
  | n + 1, addr => do
      modifyNi fun ni =>
        { ni with pageCache :=
            memset (memcpy ni.pageCache 0 data 0 size) size 0xff (nld.rawpageSize - size) }
      let ni ← getNi
      let success ← writePhysPage nld addr (some ni.pageCache) none .placeOob
      if !success then pure false
      else do
        let r ← readPageCache nld addr
        if r.ret < 0 then pure false
        else do
          let ni ← getNi
          if slice ni.pageCache 0 size ≠ slice data 0 size then pure false
          else writeRepeatedLoop data size n (addr + nld.writesize)

def writeRepeatedData (ba : Nat) (data : Buffer) (size : Nat) : M D Bool :=
  if size > nld.writesize then pure false
  else writeRepeatedLoop nld data size nld.pagesPerBlock (nld.ba2addr ba)

def writeSignatureLoop (data : Buffer) : Nat → (ba : Nat) → M D (Option Nat)
  | 0, _ => pure none
  | n + 1, ba => do
      let usable ← usableBlock nld ba
      if !usable then writeSignatureLoop data n (ba - 1)
      else do
        let erased ← eraseBlockAndCheck nld ba
        let success ←
          if erased then writeRepeatedData nld ba data NMBM_SIGNATURE_SIZE else pure false
        if success then pure (some ba)
        else do
          condemnBlock nld ba
          writeSignatureLoop data n (ba - 1)

def writeSignature (limit : Nat) (signature : Signature) : M D (Option Nat) :=
  let ba := sub32 nld.blockCount 1
  writeSignatureLoop nld (storeBytes (fun _ => 0) 0 (signature.bytes nld.bigEndian)) (ba - limit) ba

def searchPages : Nat → (addr : Nat) → M D (Option Signature)
  | 0, _ => pure none
  | n + 1, addr => do
      let (ret, sig) ← readData nld addr (fun _ => 0) 0 NMBM_SIGNATURE_SIZE
      if ret ≠ 0 then searchPages n (addr + nld.writesize)
      else if !checkHeader nld.bigEndian sig NMBM_SIGNATURE_SIZE then
        searchPages n (addr + nld.writesize)
      else if word nld.bigEndian sig 0 = NMBM_MAGIC_SIGNATURE then
        pure (some (Signature.ofBuffer nld.bigEndian sig))
      else searchPages n (addr + nld.writesize)

/-- The loop of `nmbm_find_signature`.  The counter of blocks is a `uint32_t`. -/
def findSignatureLoop (limit : Nat) : Nat → (ba : Nat) → M D (Option (Signature × Nat))
  | 0, _ => Prog.diverge
  | fuel + 1, ba =>
    if ba < limit then pure none
    else do
      let ba := sub32 ba 1
      let bad ← checkBadPhysBlock nld ba
      if bad then findSignatureLoop limit fuel ba
      else
        match ← searchPages nld nld.pagesPerBlock (nld.ba2addr ba) with
        | some signature => pure (some (signature, ba))
        | none => findSignatureLoop limit fuel ba

def findSignature (fuel : Nat) : M D (Option (Signature × Nat)) :=
  let limit := nld.blockCount / NMBM_MGMT_DIV * (NMBM_MGMT_DIV - nld.maxRatio)
  let limit :=
    if nld.maxReservedBlocks ≠ 0 ∧ nld.blockCount - limit > nld.maxReservedBlocks then
      nld.blockCount - nld.maxReservedBlocks
    else limit
  findSignatureLoop nld limit fuel nld.blockCount

/-! ## A new chip -/

def scanLoop : Nat → (ba : Nat) → M D Unit
  | 0, _ => pure ()
  | n + 1, ba => do
      let bad ← checkBadPhysBlock nld ba
      if bad then setBlockState ba BLOCK_ST_BAD else pure ()
      scanLoop n (ba + 1)

def scanBadblocks : M D Unit := scanLoop nld nld.blockCount 0

def dataBlocks (ni : Instance) : List Nat :=
  (List.range ni.mgmtStartBa).filter fun pb => decide (ni.getBlockState pb ≠ BLOCK_ST_BAD)

def buildMappingTable : M D Unit :=
  modifyNi fun ni =>
    let blocks := dataBlocks ni
    { ni with
      blockMapping := fun lb =>
        match blocks[lb]? with
        | some pb => BitVec.ofNat 32 pb
        | none => if lb < nld.blockCount then BitVec.allOnes 32 else ni.blockMapping lb
      dataBlockCount := blocks.length }

variable (fuel : Nat)

/-- Logic blocks at the end of the data area, while there are spare blocks. -/
def remapTail : Nat → (lb : Nat) → M D Unit
  | 0, _ => pure ()
  | n + 1, lb => do
      let success ← mapBlock nld fuel lb
      if !success then pure ()
      else do
        modifyNi fun ni => { ni with dataBlockCount := ni.dataBlockCount + 1 }
        remapTail n (lb + 1)

def createInfoTable : M D Bool := do
  let ni ← getNi
  match blockWalk nld ni.blockState false ni.signatureBa 1 ni.mgmtStartBa with
  | none => pure false
  | some topBa => do
      modifyNi fun ni => { ni with mappingBlocksTopBa := topBa }
      let _ ← generateInfoTableCache nld
      let success ← rebuildInfoTable nld
      if !success then pure false
      else do
        let ni ← getNi
        remapTail nld fuel (ni.mgmtStartBa - ni.dataBlockCount) ni.dataBlockCount
        updateInfoTable nld fuel

/-- The boundary of the management blocks; the product is a `uint32_t`. -/
def newMgmtStartBa : Nat :=
  let ba := nld.blockCount * (NMBM_MGMT_DIV - nld.maxRatio) % 4294967296 / NMBM_MGMT_DIV
  if nld.maxReservedBlocks ≠ 0 ∧ nld.blockCount - ba > nld.maxReservedBlocks then
    nld.blockCount - nld.maxReservedBlocks
  else ba

def createNew : M D Bool := do
  modifyNi fun ni => { ni with mgmtStartBa := newMgmtStartBa nld }
  scanBadblocks nld
  buildMappingTable nld
  let signature := newSignature nld (newMgmtStartBa nld)
  modifyNi fun ni => { ni with signature := signature }
  if nld.readOnly then pure true
  else
    match ← writeSignature nld (newMgmtStartBa nld) signature with
    | none => pure false
    | some signatureBa => do
        modifyNi fun ni => { ni with signatureBa := signatureBa }
        createInfoTable nld fuel

/-! ## Loading the tables -/

def checkInfoTableHeader (h : InfoTableHeader) : Bool :=
  h.magic == NMBM_MAGIC_INFO_TABLE && h.size == nld.infoTableSize &&
    decide (nld.stateTableSize ≤ sub32 h.mappingTableOff h.stateTableOff) &&
    decide (nld.mappingTableSize ≤ sub32 nld.infoTableSize h.mappingTableOff)

/-- The lowest block behind `endBa` that a logic block is mapped to, or `minimum`. -/
def lowestMapping (mapping : Nat → BitVec 32) (endBa : Nat) (dataBlockCount minimum : Nat) : Nat :=
  (List.range dataBlockCount).foldl
    (fun minimum lb =>
      if endBa ≤ (mapping lb).toNat ∧ (mapping lb).toNat < minimum then (mapping lb).toNat
      else minimum)
    minimum

/-- `nmbm_check_info_table`: the top of the spare blocks, if the table is valid. -/
def checkInfoTable (ni : Instance) (startBa endBa : Nat) (table : Buffer) : Option Nat :=
  let h := InfoTableHeader.ofBuffer nld.bigEndian table
  let mapping := tableWords nld.bigEndian table h.mappingTableOff
  let state := tableWords nld.bigEndian table h.stateTableOff
  if (List.range ni.dataBlockCount).any fun lb =>
      decide (ni.dataBlockCount ≤ (mapping lb).toNat ∧ (mapping lb).toNat < endBa ∨
        (mapping lb).toNat = ni.signatureBa) then none
  else if (List.range' startBa (endBa - startBa)).any fun ba =>
      decide (ni.getBlockState ba = BLOCK_ST_GOOD ∧
        getBlockStateRaw state ba ≠ BLOCK_ST_GOOD) then none
  else some (sub32 (lowestMapping mapping endBa ni.dataBlockCount ni.signatureBa) 1)

/-- The loop of `nmbm_try_load_info_table`, of at most `n` blocks: first block of the table
and block after its end.  `startBa` is `none` until the header has been checked. -/
def loadLoop : Nat → (ba sizeremain : Nat) → (startBa : Option Nat) → M D (Option (Nat × Nat))
  | 0, ba, sizeremain, startBa => pure (if sizeremain = 0 then some (startBa.getD 0, ba) else none)
  | n + 1, ba, sizeremain, startBa =>
    if sizeremain = 0 then pure (some (startBa.getD 0, ba))
    else do
      let usable ← usableBlock nld ba
      if !usable then loadLoop n (ba + 1) sizeremain startBa
      else do
        let chunksize := min sizeremain nld.erasesize
        let off := nld.infoTableSize - sizeremain
        let ni ← getNi
        let (ret, cache) ← readData nld (nld.ba2addr ba) ni.infoTableCache off chunksize
        modifyNi fun ni => { ni with infoTableCache := cache }
        if ret < 0 then do
          -- The block is bad in memory only.
          setBlockState ba BLOCK_ST_BAD
          loadLoop n (ba + 1) sizeremain startBa
        else if ret > 0 then pure none
        else
          match startBa with
          | some _ => loadLoop n (ba + 1) (sizeremain - chunksize) startBa
          | none =>
            if checkInfoTableHeader nld
                (InfoTableHeader.ofBuffer nld.bigEndian fun a => cache (off + a)) then
              loadLoop n (ba + 1) (sizeremain - chunksize) (some ba)
            else pure none

structure FoundTable where
  startBa : Nat
  endBa : Nat
  writeCount : Nat
  topBa : Nat

def takeTables (ni : Instance) (h : InfoTableHeader) : Instance :=
  { ni with
    infoTable := h
    blockState := fun i =>
      if i < nld.stateTableSize / 4 then
        tableWords nld.bigEndian ni.infoTableCache h.stateTableOff i
      else ni.blockState i
    blockMapping := fun i =>
      if i < nld.blockCount then
        tableWords nld.bigEndian ni.infoTableCache h.mappingTableOff i
      else ni.blockMapping i }

def tryLoadInfoTable (ba : Nat) (tableLoaded : Bool) : M D (Option FoundTable) := do
  match ← loadLoop nld (nld.size2blk nld.infoTableSize) ba nld.infoTableSize none with
  | none => pure none
  | some (startBa, endBa) => do
      let ni ← getNi
      let h := InfoTableHeader.ofBuffer nld.bigEndian ni.infoTableCache
      if !checkHeader nld.bigEndian ni.infoTableCache nld.infoTableSize then pure none
      else
        match checkInfoTable nld ni startBa endBa ni.infoTableCache with
        | none => pure none
        | some topBa => do
            if !tableLoaded || decide (h.writeCount > ni.infoTable.writeCount) then
              modifyNi fun ni => takeTables nld ni h
            else pure ()
            pure (some ⟨ba, endBa, h.writeCount, topBa⟩)

def searchLoop (tableLoaded : Bool) : Nat → (ba : Nat) → M D (Option FoundTable)
  | 0, _ => pure none
  | n + 1, ba => do
      match ← tryLoadInfoTable nld ba tableLoaded with
      | some t => pure (some t)
      | none => searchLoop tableLoaded n (ba + 1)

def searchInfoTable (ba limit : Nat) (tableLoaded : Bool) : M D (Option FoundTable) :=
  searchLoop nld tableLoaded (sub32 limit (nld.size2blk nld.infoTableSize) - ba) ba

/-- The number of logic blocks up to the last one that is mapped. -/
def mappedCount (mapping : Nat → BitVec 32) : Nat → Option Nat
  | 0 => none
  | i + 1 => if 0 ≤ (mapping i).toInt then some (i + 1) else mappedCount mapping i

/-- The first part of `nmbm_load_info_table`: the tables on the chip are found and the newer
one is taken.  Returns the tables found. -/
def findInfoTables (ba limit : Nat) : M D (Option (FoundTable × Option FoundTable)) := do
  recordMain 0 0
  recordBackup 0 0
  modifyNi fun ni =>
    { ni with
      infoTable := { ni.infoTable with writeCount := 0 }
      mappingBlocksTopBa := sub32 ni.signatureBa 1
      dataBlockCount := ni.signature.mgmtStartPb }
  match ← searchInfoTable nld ba limit false with
  | none => pure none
  | some main => do
      recordMain main.startBa main.endBa
      let backup ← searchInfoTable nld main.endBa limit true
      match backup with
      | none => pure ()
      | some backup => recordBackup backup.startBa backup.endBa
      let last := backup.getD main
      let newer :=
        match backup with
        | none => main
        | some backup => if main.writeCount ≥ backup.writeCount then main else backup
      modifyNi fun ni =>
        { ni with
          mappingBlocksTopBa := newer.topBa
          mappingBlocksBa := last.endBa
          dataBlockCount :=
            (mappedCount ni.blockMapping ni.signature.mgmtStartPb).getD ni.dataBlockCount }
      pure (some (main, backup))

/-- The end of `nmbm_load_info_table`: a missing or an older table is written, and without
spare blocks or a second table the device is read-only. -/
def completeTables (main : FoundTable) (backup : Option FoundTable) : M D Unit := do
  let success ←
    match backup with
    | none => rescueSingleInfoTable nld fuel
    | some backup =>
      if main.writeCount ≠ backup.writeCount then do
        modifyNi fun ni => { ni with blockStateChanged := 1, blockMappingChanged := 1 }
        updateSingleInfoTable nld fuel (decide (main.writeCount < backup.writeCount))
      else pure true
  let ni ← getNi
  if ni.mappingBlocksBa = ni.mappingBlocksTopBa || !success then protect else pure ()

def loadInfoTable (ba limit : Nat) : M D Bool := do
  match ← findInfoTables nld ba limit with
  | none => pure false
  | some (main, backup) => do
      let loaded ← getNi
      let _ ← generateInfoTableCache nld
      if nld.readOnly then pure () else completeTables nld fuel main backup
      note fun _ => .load loaded
      pure true

def loadExisting : M D Bool := do
  modifyNi fun ni => { ni with mgmtStartBa := ni.signature.mgmtStartPb }
  let ni ← getNi
  let success ← loadInfoTable nld fuel ni.mgmtStartBa ni.signatureBa
  if success then pure true
  else if !nld.create then pure false
  else do
    scanBadblocks nld
    buildMappingTable nld
    if nld.readOnly then pure true else createInfoTable nld fuel

/-! ## Attaching -/

/-- The memory of an instance after `nmbm_init_structure`. -/
def initStructure : Instance where
  signature := ⟨0, 0, 0, 0, 0, 0, 0, 0, 0, 0⟩
  infoTableCache := fun _ => 0
  infoTable := ⟨0, 0, 0, 0, 0, nld.stateTableOff, nld.mappingTableOff, 0⟩
  blockState := fun _ => BitVec.allOnes 32
  blockStateChanged := 0
  blockMapping := fun _ => 0
  blockMappingChanged := 0
  pageCache := fun _ => 0
  isProtected := false
  dataBlockCount := 0
  mgmtStartBa := 0
  mainTableBa := 0
  backupTableBa := 0
  mappingBlocksBa := 0
  mappingBlocksTopBa := 0
  signatureBa := 0

def attachChecked : M D Int := do
  match ← findSignature nld fuel with
  | none =>
    if !nld.create then pure (-enodev)
    else do
      let success ← createNew nld fuel
      pure (if success then 0 else -enodev)
  | some (signature, signatureBa) => do
      modifyNi fun ni => { ni with signature := signature, signatureBa := signatureBa }
      if signature.version ≠ NMBM_VER then pure (-einval)
      else if signature.nandSize ≠ nld.size ∨ signature.blockSize ≠ nld.erasesize ∨
          signature.pageSize ≠ nld.writesize ∨ signature.spareSize ≠ nld.oobsize then
        pure (-einval)
      else do
        let success ← loadExisting nld fuel
        note fun _ => .adopt signature.mgmtStartPb
        pure (if success then 0 else -enodev)

/-- `nmbm_attach` to a device in state `dev`: the device as checked, the return value and
the world. -/
def attach (dev : D) : Option (Lower D × Int × World D) :=
  match checkLowerMembers nld with
  | none => none
  | some nld =>
    (attachChecked nld fuel ⟨dev, initStructure nld, 0, 0, [], []⟩).map fun r => (nld, r.1, r.2)

end OpenWrt.Nmbm
