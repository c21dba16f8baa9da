import OpenWrt.Nmbm.Api

/-!
# NMBM: the MTD layer

The reads and writes of `nmbm-mtd.c` with data and OOB.  The driver has a page buffer of its
own: `datcache` is its main part and `oobcache` the part behind it, each of them used if the
caller wants data or OOB at all.  Data and OOB are moved page by page, at different rates.
The lock that is held during a call is left out.
-/

namespace OpenWrt.Nmbm

open Lib

variable {D : Type}

/-- The lower MTD device of a `struct nmbm_mtd`. -/
structure NmbmMtd (D : Type) where
  nld : Lower D
  oobavail : Nat
  oobavail_le : oobavail ≤ nld.oobsize

/-- `struct mtd_oob_ops`; a buffer may be `NULL`. -/
structure OobOps where
  mode : OobMode
  len : Nat
  retlen : Nat
  ooblen : Nat
  oobretlen : Nat
  ooboffs : Nat
  datbuf : Option Buffer
  oobbuf : Option Buffer

structure MtdCache where
  datcache : Buffer
  oobcache : Buffer

namespace NmbmMtd

variable (nm : NmbmMtd D)

/-- `mtd_oobavail`, the same for the upper and the lower device. -/
def maxooblen : OobMode → Nat
  | .autoOob => nm.oobavail
  | .placeOob => nm.nld.oobsize
  | .raw => nm.nld.oobsize

def pageAddr (addr : Nat) : Nat := addr % 4294967296 / nm.nld.writesize * nm.nld.writesize

def size (ni : Instance) : Nat := nm.nld.ba2addr ni.dataBlockCount

end NmbmMtd

/-! ## What is left to be moved -/

/-- Where the next byte goes in a page, the bytes that are left and those that were moved:
`col`, `len` and `retlen`, or `ooboffs`, `ooblen` and `oobretlen`. -/
structure Stream where
  offs : Nat
  len : Nat
  ret : Nat

namespace Stream

def chklen (s : Stream) (unit : Nat) : Nat := min (unit - s.offs) s.len

def next (s : Stream) (unit : Nat) : Stream :=
  if s.len ≠ 0 then ⟨0, s.len - s.chklen unit, s.ret + s.chklen unit⟩ else s

def take (s : Stream) (unit : Nat) (buf cache : Buffer) : Buffer :=
  if s.len ≠ 0 then memcpy buf s.ret cache s.offs (s.chklen unit) else buf

/-- The bytes of a page moved from the caller, with 0xff around them in a cache of `total` bytes. -/
def stage (s : Stream) (unit total : Nat) (buf cache : Buffer) : Buffer :=
  if s.len ≠ 0 then
    memset (memcpy (memset cache 0 0xff s.offs) s.offs buf s.ret (s.chklen unit))
      (s.offs + s.chklen unit) 0xff (total - s.offs - s.chklen unit)
  else cache

end Stream

/-! ## Reading -/

/-- What `nmbm_mtd_read_data` has come to. -/
structure MtdRead where
  cache : MtdCache
  datbuf : Buffer
  oobbuf : Buffer
  dat : Stream
  oob : Stream
  hasEccErr : Bool
  maxBitflips : Int

def MtdRead.result (s : MtdRead) : Int := if s.hasEccErr then -ebadmsg else s.maxBitflips

variable (nm : NmbmMtd D)

def MtdCache.fill (cache : MtdCache) (mode : OobMode) (hasDat hasOob : Bool) :
    Option PageRead → MtdCache
  | none => cache
  | some r =>
    { datcache := if hasDat then memcpy cache.datcache 0 r.data 0 nm.nld.writesize
        else cache.datcache
      oobcache := if hasOob then memcpy cache.oobcache 0 r.oob 0 (nm.maxooblen mode)
        else cache.oobcache }

def MtdRead.move (s : MtdRead) (mode : OobMode) (cache : MtdCache) (ret : Int) : MtdRead where
  cache := cache
  datbuf := s.dat.take nm.nld.writesize s.datbuf cache.datcache
  oobbuf := s.oob.take (nm.maxooblen mode) s.oobbuf cache.oobcache
  dat := s.dat.next nm.nld.writesize
  oob := s.oob.next (nm.maxooblen mode)
  hasEccErr := s.hasEccErr || decide (ret = -ebadmsg)
  maxBitflips := max s.maxBitflips ret

/-- The loop of `nmbm_mtd_read_data`, of at most `n` pages. -/
def mtdReadPages (mode : OobMode) (hasDat hasOob : Bool) : Nat → (addr : Nat) → MtdRead →
    M D (Int × MtdRead)
  | 0, _, s => pure (s.result, s)
  | n + 1, addr, s =>
    if s.dat.len = 0 ∧ s.oob.len = 0 then pure (s.result, s)
    else do
      let (ret, page) ← readSinglePage nm.nld addr hasDat hasOob mode
      let cache := s.cache.fill nm mode hasDat hasOob page
      if ret < 0 ∧ ret ≠ -ebadmsg then pure (ret, { s with cache := cache })
      else mtdReadPages mode hasDat hasOob n (addr + nm.nld.writesize) (s.move nm mode cache ret)

/-- `nmbm_mtd_read_data`, for an `ooboffs` below `maxooblen`. -/
def mtdReadData (addr : Nat) (ops : OobOps) (cache : MtdCache) : M D (Int × MtdRead) :=
  mtdReadPages nm ops.mode (ops.len ≠ 0) (ops.ooblen ≠ 0) (ops.len + ops.ooblen)
    (nm.pageAddr addr)
    { cache := cache
      datbuf := ops.datbuf.getD fun _ => 0
      oobbuf := ops.oobbuf.getD fun _ => 0
      dat := ⟨addr % nm.nld.writesize, ops.len, 0⟩
      oob := ⟨ops.ooboffs, ops.ooblen, 0⟩
      hasEccErr := false
      maxBitflips := 0 }

def NmbmMtd.oobRefused (ni : Instance) (addr : Nat) (ops : OobOps) : Bool :=
  decide (ops.ooboffs ≥ nm.maxooblen ops.mode) ||
    decide (addr ≥ nm.size ni ∨ ops.ooboffs + ops.ooblen >
      (nm.size ni / nm.nld.writesize - addr / nm.nld.writesize) * nm.maxooblen ops.mode)

def mtdReadOob (addr : Nat) (ops : OobOps) (cache : MtdCache) :
    M D (Int × OobOps × MtdCache) := do
  let ni ← getNi
  if ops.oobbuf.isNone ∧ ops.datbuf.isNone then
    pure (if ops.ooblen ≠ 0 ∨ ops.len ≠ 0 then -einval else 0, ops, cache)
  else if ops.datbuf.isSome ∧ add64 addr ops.len > nm.size ni then pure (-einval, ops, cache)
  else if ops.oobbuf.isNone then do
    let (ret, data, retlen) ← readRange nm.nld addr ops.len (ops.datbuf.getD fun _ => 0) ops.mode
    pure (ret, { ops with datbuf := some data, retlen := retlen }, cache)
  else if nm.oobRefused ni addr ops then pure (-einval, ops, cache)
  else do
    let (ret, s) ← mtdReadData nm addr ops cache
    pure (ret,
      { ops with
        datbuf := ops.datbuf.map fun _ => s.datbuf
        oobbuf := some s.oobbuf
        retlen := s.dat.ret
        oobretlen := s.oob.ret },
      s.cache)

/-! ## Writing -/

/-- What `nmbm_mtd_write_data` has come to. -/
structure MtdWrite where
  cache : MtdCache
  dat : Stream
  oob : Stream

def MtdWrite.stage (s : MtdWrite) (mode : OobMode) (datbuf oobbuf : Buffer) : MtdWrite where
  cache :=
    { datcache := s.dat.stage nm.nld.writesize nm.nld.writesize datbuf s.cache.datcache
      oobcache := s.oob.stage (nm.maxooblen mode) nm.nld.oobsize oobbuf s.cache.oobcache }
  dat := s.dat.next nm.nld.writesize
  oob := s.oob.next (nm.maxooblen mode)

variable (fuel : Nat)

/-- The loop of `nmbm_mtd_write_data`, of at most `n` pages. -/
def mtdWritePages (mode : OobMode) (datbuf oobbuf : Buffer) (hasDat hasOob : Bool) :
    Nat → (addr : Nat) → MtdWrite → M D (Int × MtdWrite)
  | 0, _, s => pure (0, s)
  | n + 1, addr, s =>
    if s.dat.len = 0 ∧ s.oob.len = 0 then pure (0, s)
    else do
      let s := s.stage nm mode datbuf oobbuf
      let ret ← writeSinglePage nm.nld fuel addr
        (if hasDat then some s.cache.datcache else none)
        (if hasOob then some s.cache.oobcache else none) mode
      if ret ≠ 0 then pure (ret, s)
      else mtdWritePages mode datbuf oobbuf hasDat hasOob n (addr + nm.nld.writesize) s

/-- `nmbm_mtd_write_data`, for an `ooboffs` below `maxooblen`. -/
def mtdWriteData (addr : Nat) (ops : OobOps) (cache : MtdCache) : M D (Int × MtdWrite) :=
  mtdWritePages nm fuel ops.mode (ops.datbuf.getD fun _ => 0) (ops.oobbuf.getD fun _ => 0)
    (ops.len ≠ 0) (ops.ooblen ≠ 0) (ops.len + ops.ooblen) (nm.pageAddr addr)
    { cache := cache
      dat := ⟨addr % nm.nld.writesize, ops.len, 0⟩
      oob := ⟨ops.ooboffs, ops.ooblen, 0⟩ }

def mtdWriteOob (addr : Nat) (ops : OobOps) (cache : MtdCache) :
    M D (Int × OobOps × MtdCache) := do
  let ni ← getNi
  if ops.oobbuf.isNone ∧ ops.datbuf.isNone then
    pure (if ops.ooblen ≠ 0 ∨ ops.len ≠ 0 then -einval else 0, ops, cache)
  else if ops.datbuf.isSome ∧ add64 addr ops.len > nm.size ni then pure (-einval, ops, cache)
  else if ops.oobbuf.isNone then do
    let (ret, retlen) ←
      writeRange nm.nld fuel addr ops.len (ops.datbuf.getD fun _ => 0) ops.mode
    pure (ret, { ops with retlen := retlen }, cache)
  else if nm.oobRefused ni addr ops then pure (-einval, ops, cache)
  else do
    let (ret, s) ← mtdWriteData nm fuel addr ops cache
    pure (ret, { ops with retlen := s.dat.ret, oobretlen := s.oob.ret }, s.cache)

end OpenWrt.Nmbm
