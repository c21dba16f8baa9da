import OpenWrt.Nmbm.Attach

/-!
# NMBM: operations on logic blocks

The calls that the MTD driver makes on an attached instance, and their runs.
-/

namespace OpenWrt.Nmbm

open Lib

variable {D : Type} (nld : Lower D) (fuel : Nat)

/-! ## Erasing -/

/-- The label `remap_logic_block` of `nmbm_erase_logic_block`; says whether to retry. -/
def remapLogicBlock (lb pb : Nat) : M D Bool := do
  let success ← mapBlock nld fuel lb
  if success then pure ()
  else modifyNi fun ni =>
    { ni with blockMapping := Function.update ni.blockMapping lb (BitVec.allOnes 32) }
  let ni ← getNi
  if ni.getBlockState pb ≠ BLOCK_ST_NEED_REMAP then setBlockState pb BLOCK_ST_BAD else pure ()
  let _ ← updateInfoTable nld fuel
  pure success

def eraseLogicBlockOnce (lb : Nat) : M D (Option Int) := do
  let ni ← getNi
  let pb := (ni.blockMapping lb).toNat
  if (ni.blockMapping lb).toInt < 0 then pure (some (-eio))
  else do
    let remapped : M D (Option Int) := do
      let again ← remapLogicBlock nld fuel lb pb
      pure (if again then none else some (-eio))
    if ni.getBlockState pb = BLOCK_ST_BAD ∨ ni.getBlockState pb = BLOCK_ST_NEED_REMAP then
      remapped
    else do
      let bad ← checkBadPhysBlock nld pb
      if bad then do
        setBlockState pb BLOCK_ST_BAD
        remapped
      else do
        let success ← eraseBlockAndCheck nld pb
        if success then pure (some 0)
        else do
          condemnBlock nld pb
          remapped

/-- `nmbm_erase_logic_block`, of at most `n` passes. -/
def eraseLogicBlock (lb : Nat) : Nat → M D Int
  | 0 => Prog.diverge
  | n + 1 => do
      match ← eraseLogicBlockOnce nld fuel lb with
      | some ret => pure ret
      | none => eraseLogicBlock lb n

def eraseBlocks : Nat → (ba : Nat) → M D Int
  | 0, _ => pure 0
  | n + 1, ba => do
      let ret ← eraseLogicBlock nld fuel ba fuel
      if ret ≠ 0 then pure ret else eraseBlocks n (ba + 1)

def Instance.forcedReadOnly (ni : Instance) : Bool := ni.isProtected || nld.readOnly

def eraseBlockRange (addr size : Nat) : M D Int := do
  let ni ← getNi
  if ni.forcedReadOnly nld then pure (-erofs)
  else if addr ≥ nld.ba2addr ni.dataBlockCount then pure (-einval)
  else if add64 addr size > nld.ba2addr ni.dataBlockCount then pure (-einval)
  else if size = 0 then pure 0
  else
    let startBa := nld.addr2ba addr
    let endBa := nld.addr2ba (add64 addr (size - 1)) % 4294967296
    eraseBlocks nld fuel (endBa + 1 - startBa) startBa

/-! ## Reading -/

/-- The physical address of a logic one, unless the logic block is unusable. -/
def physAddr (ni : Instance) (addr : Nat) : Option Nat :=
  let pb := ni.blockMapping (nld.addr2ba addr)
  if pb.toInt < 0 then none
  else if ni.getBlockState pb.toNat = BLOCK_ST_BAD then none
  else some (nld.ba2addr pb.toNat + addr % nld.erasesize)

/-- `nmbm_read_logic_page`; without a page nothing is read. -/
def readLogicPage (addr : Nat) (buf oob : Bool) (mode : OobMode) : M D (Int × Option PageRead) := do
  let ni ← getNi
  match physAddr nld ni addr with
  | none => pure (-eio, none)
  | some paddr => do
      let r ← readPhysPage nld paddr buf oob mode
      pure (r.ret, some r)

def readSinglePage (addr : Nat) (buf oob : Bool) (mode : OobMode) :
    M D (Int × Option PageRead) := do
  let ni ← getNi
  if ni.isProtected then pure (-erofs, none)
  else if addr ≥ nld.ba2addr ni.dataBlockCount then pure (-einval, none)
  else readLogicPage nld addr buf oob mode

structure ReadState where
  data : Buffer
  retlen : Nat
  ret : Int
  hasEccErr : Bool
  maxBitflips : Int

/-- The bytes of a page that was read; a part of a page goes through `page_cache`. -/
def stageRead (chunksize : Nat) : Option PageRead → M D Buffer
  | none => pure fun _ => 0
  | some r =>
    if chunksize = nld.writesize then pure r.data
    else do
      modifyNi fun ni => { ni with pageCache := memcpy ni.pageCache 0 r.data 0 nld.writesize }
      let ni ← getNi
      pure ni.pageCache

/-- The loop of `nmbm_read_range`, of at most `n` pages. -/
def readRangeLoop (mode : OobMode) : Nat → (off sizeremain : Nat) → ReadState → M D ReadState
  | 0, _, _, s => pure s
  | n + 1, off, sizeremain, s =>
    if sizeremain = 0 then pure s
    else do
      let leading := off % nld.writesize
      let chunksize := min (nld.writesize - leading) sizeremain
      let (ret, page) ← readLogicPage nld (off - leading) true false mode
      let pageData ← stageRead nld chunksize page
      if ret < 0 ∧ ret ≠ -ebadmsg then pure { s with ret := ret }
      else
        readRangeLoop mode n (off + chunksize) (sizeremain - chunksize)
          { data := memcpy s.data s.retlen pageData leading chunksize
            retlen := s.retlen + chunksize
            ret := ret
            hasEccErr := s.hasEccErr || decide (ret = -ebadmsg)
            maxBitflips := max s.maxBitflips ret }

/-- `nmbm_read_range` into `data`: return value, data and the length read. -/
def readRange (addr size : Nat) (data : Buffer) (mode : OobMode) : M D (Int × Buffer × Nat) := do
  let ni ← getNi
  if ni.isProtected then pure (-erofs, data, 0)
  else if addr ≥ nld.ba2addr ni.dataBlockCount then pure (-einval, data, 0)
  else if add64 addr size > nld.ba2addr ni.dataBlockCount then pure (-einval, data, 0)
  else if size = 0 then pure (0, data, 0)
  else do
    let s ← readRangeLoop nld mode size addr size ⟨data, 0, 0, false, 0⟩
    if s.ret < 0 ∧ s.ret ≠ -ebadmsg then pure (s.ret, s.data, s.retlen)
    else if s.hasEccErr then pure (-ebadmsg, s.data, s.retlen)
    else pure (s.maxBitflips, s.data, s.retlen)

/-! ## Writing -/

def writeLogicPage (addr : Nat) (data oob : Option Buffer) (mode : OobMode) : M D Int := do
  let ni ← getNi
  match physAddr nld ni addr with
  | none => pure (-eio)
  | some paddr => do
      let success ← writePhysPage nld paddr data oob mode
      if success then pure 0
      else do
        -- The block is mapped anew when it is erased.
        setBlockState (ni.blockMapping (nld.addr2ba addr)).toNat BLOCK_ST_NEED_REMAP
        let _ ← updateInfoTable nld fuel
        pure (-eio)

def writeSinglePage (addr : Nat) (data oob : Option Buffer) (mode : OobMode) : M D Int := do
  let ni ← getNi
  if ni.forcedReadOnly nld then pure (-erofs)
  else if addr ≥ nld.ba2addr ni.dataBlockCount then pure (-einval)
  else writeLogicPage nld fuel addr data oob mode

/-- The page to be written; a part of a page goes through `page_cache`. -/
def stageWrite (data : Buffer) (ptr leading chunksize : Nat) : M D Buffer :=
  if chunksize = nld.writesize then pure fun a => data (ptr + a)
  else do
    modifyNi fun ni =>
      { ni with pageCache :=
          memcpy (memset ni.pageCache 0 0xff leading) leading data ptr chunksize }
    let ni ← getNi
    pure ni.pageCache

/-- The loop of `nmbm_write_range`, of at most `n` pages: return value and the length left. -/
def writeRangeLoop (data : Buffer) (mode : OobMode) : Nat → (off ptr sizeremain : Nat) →
    M D (Int × Nat)
  | 0, _, _, sizeremain => pure (0, sizeremain)
  | n + 1, off, ptr, sizeremain =>
    if sizeremain = 0 then pure (0, sizeremain)
    else do
      let leading := off % nld.writesize
      let chunksize := min (nld.writesize - leading) sizeremain
      let page ← stageWrite nld data ptr leading chunksize
      let ret ← writeLogicPage nld fuel (off - leading) (some page) none mode
      if ret ≠ 0 then pure (ret, sizeremain)
      else
        writeRangeLoop data mode n (off + chunksize) (ptr + chunksize) (sizeremain - chunksize)

def writeRange (addr size : Nat) (data : Buffer) (mode : OobMode) : M D (Int × Nat) := do
  let ni ← getNi
  if ni.forcedReadOnly nld then pure (-erofs, 0)
  else if addr ≥ nld.ba2addr ni.dataBlockCount then pure (-einval, 0)
  else if add64 addr size > nld.ba2addr ni.dataBlockCount then pure (-einval, 0)
  else if size = 0 then pure (0, 0)
  else do
    let (ret, sizeremain) ← writeRangeLoop nld fuel data mode size addr 0 size
    pure (ret, size - sizeremain)

/-! ## Bad blocks -/

def checkBadBlock (addr : Nat) : M D Int := do
  let ni ← getNi
  if addr ≥ nld.ba2addr ni.dataBlockCount then pure (-einval)
  else
    let pb := ni.blockMapping (nld.addr2ba addr)
    pure (if pb.toInt < 0 ∨ ni.getBlockState pb.toNat = BLOCK_ST_BAD then 1 else 0)

def markBadBlock (addr : Nat) : M D Int := do
  let ni ← getNi
  if ni.forcedReadOnly nld then pure (-erofs)
  else if addr ≥ nld.ba2addr ni.dataBlockCount then pure (-einval)
  else
    let lb := nld.addr2ba addr
    let pb := ni.blockMapping lb
    if pb.toInt < 0 then pure 0
    else do
      modifyNi fun ni =>
        { ni with blockMapping := Function.update ni.blockMapping lb (BitVec.allOnes 32) }
      condemnBlock nld pb.toNat
      let _ ← updateInfoTable nld fuel
      pure 0

def detach : M D Int := do
  if nld.readOnly then pure ()
  else do
    let _ ← updateInfoTable nld fuel
    pure ()
  pure 0

/-! ## Runs -/

inductive Call where
  | erase (addr size : Nat)
  | readPage (addr : Nat) (buf oob : Bool) (mode : OobMode)
  | read (addr size : Nat) (data : Buffer) (mode : OobMode)
  | writePage (addr : Nat) (data oob : Option Buffer) (mode : OobMode)
  | write (addr size : Nat) (data : Buffer) (mode : OobMode)
  | checkBad (addr : Nat)
  | markBad (addr : Nat)
  | detach

def run : Call → M D Int
  | .erase addr size => eraseBlockRange nld fuel addr size
  | .readPage addr buf oob mode => do
      let r ← readSinglePage nld addr buf oob mode
      pure r.1
  | .read addr size data mode => do
      let r ← readRange nld addr size data mode
      pure r.1
  | .writePage addr data oob mode => writeSinglePage nld fuel addr data oob mode
  | .write addr size data mode => do
      let r ← writeRange nld fuel addr size data mode
      pure r.1
  | .checkBad addr => checkBadBlock nld addr
  | .markBad addr => markBadBlock nld fuel addr
  | .detach => detach nld fuel

inductive Runs (nld : Lower D) (w : World D) : World D → Prop
  | refl : Runs nld w w
  | call {fuel : Nat} {c : Call} {ret : Int} {w' w'' : World D} (hruns : Runs nld w w')
      (hrun : run nld fuel c w' = some (ret, w'')) : Runs nld w w''

end OpenWrt.Nmbm
