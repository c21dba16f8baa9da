import Mathlib

/-!
# The RedBoot partition table

Model of `fis_validate` and `fis_remap` in `package/system/mtd/src/fis.c`.  The FIS
directory is one erase block of descriptors of 256 bytes, which `fis_open` maps to memory.
`fis_remap` replaces the descriptors of some images by those of other images, moves the
descriptors behind them, and gives the new images the flash that the old ones had.  Pointers
to descriptors are positions in the table.
-/

namespace OpenWrt.Mtd.Fis

structure FisImageDesc where
  name : Vector UInt8 16
  flashBase : UInt32
  memBase : UInt32
  size : UInt32
  entryPoint : UInt32
  dataLength : UInt32
  pad : Vector UInt8 212
  crcDesc : UInt32
  crcFile : UInt32
  deriving DecidableEq

structure FisPart where
  name : Vector UInt8 16
  loadaddr : UInt32
  size : UInt32
  length : UInt32
  crc : UInt32
  deriving DecidableEq

inductive Halt where
  | null
  | overrun
  deriving DecidableEq

def FisImageDesc.zero : FisImageDesc :=
  ⟨Vector.replicate 16 0, 0, 0, 0, 0, 0, Vector.replicate 212 0, 0, 0⟩

def FisImageDesc.erased : FisImageDesc :=
  ⟨Vector.replicate 16 0xff, 0xffffffff, 0xffffffff, 0xffffffff, 0xffffffff, 0xffffffff,
    Vector.replicate 212 0xff, 0xffffffff, 0xffffffff⟩

def FisImageDesc.inUse (desc : FisImageDesc) : Bool := desc.name[0] ≠ 0 && desc.name[0] ≠ 0xff

def sameName (a b : Vector UInt8 16) : Bool :=
  a.toList.takeWhile (· ≠ 0) = b.toList.takeWhile (· ≠ 0)

def isOld (old : List FisPart) (desc : FisImageDesc) : Bool :=
  old.any fun part => sameName desc.name part.name

/-! ## `fis_validate` -/

def countOld (old : List FisPart) : List FisImageDesc → Nat
  | [] => 0
  | desc :: table =>
    if desc.inUse = false then 0
    else (if isOld old desc then 1 else 0) + countOld old table

def fisValidate (desc : Option (List FisImageDesc)) (old new : List FisPart) : Int :=
  match desc with
  | none => -1
  | some table =>
    -- only the last partition can detect the size automatically
    if new.dropLast.any (·.size = 0) then -1
    else if countOld old table = old.length then 1
    else -1

/-! ## `fis_remap` -/

structure Scan where
  offset : UInt32 := 0
  first : Option Nat := none
  last : Option Nat := none
  deriving DecidableEq

def Scan.step (old : List FisPart) (i : Nat) (desc : FisImageDesc) (s : Scan) : Scan where
  offset := if s.offset < desc.flashBase then desc.flashBase else s.offset
  first := if isOld old desc ∧ s.first = none then some i else s.first
  last := if isOld old desc then some i else s.last

def scan (old : List FisPart) : Nat → List FisImageDesc → Scan → Scan
  | _, [], s => s
  | i, desc :: table, s =>
    if desc.inUse = false then s else scan old (i + 1) table (s.step old i desc)

def nextBase (lastBase : UInt32) : List FisImageDesc → UInt32 → UInt32
  | [], offset => offset
  | desc :: table, offset =>
    if desc.inUse = false then offset
    else nextBase lastBase table
      (if lastBase < desc.flashBase ∧ desc.flashBase < offset then desc.flashBase else offset)

/-- The descriptor a pointer points to. -/
def flashBaseAt (table : List FisImageDesc) (i : Nat) : UInt32 :=
  (table.getD i .erased).flashBase

/-- `memmove` of `len` descriptors; a negative length is a `size_t` above the size of any
block. -/
def memmove (table : List FisImageDesc) (dst src : Nat) (len : Int) :
    Except Halt (List FisImageDesc) :=
  if 0 ≤ len ∧ dst + len ≤ table.length ∧ src + len ≤ table.length then
    .ok (table.take dst ++ (table.drop src).take len.toNat ++ table.drop (dst + len.toNat))
  else .error .overrun

/-- `memset` of `len` descriptors to `0xff`. -/
def memset (table : List FisImageDesc) (dst : Nat) (len : Int) : Except Halt (List FisImageDesc) :=
  if 0 ≤ len ∧ dst + len ≤ table.length then
    .ok (table.take dst ++ List.replicate len.toNat .erased ++ table.drop (dst + len.toNat))
  else .error .overrun

/-- The move of what is behind the old images at `last` to `desc`; `stop` is the end of the
block. -/
def moveTable (table : List FisImageDesc) (desc last stop : Nat) :
    Except Halt (List FisImageDesc) :=
  if desc = last then .ok table
  else do
    let moved ← memmove table desc last (stop - (if last < desc then desc else last) : Int)
    if desc < last then
      -- `memset(tmp, 0xff, tmp - end)` with `tmp = end - (last - desc)`
      memset moved (stop - (last - desc)) ((stop - (last - desc) : Nat) - stop : Int)
    else .ok moved

/-- `desc->hdr.size`. -/
def partSize (part : FisPart) (size : UInt32) : UInt32 := if 0 < part.size then part.size else size

def partDesc (part : FisPart) (offset size : UInt32) : FisImageDesc :=
  { FisImageDesc.zero with
    name := part.name
    crcDesc := 0
    crcFile := part.crc
    flashBase := offset
    memBase := part.loadaddr
    entryPoint := part.loadaddr
    size := partSize part size
    dataLength := if 0 < part.length then part.length else partSize part size }

structure Remap where
  table : List FisImageDesc
  /-- The subtractions `size -= desc->hdr.size`. -/
  taken : List (UInt32 × UInt32)
  deriving DecidableEq

def writeParts : List FisPart → Nat → UInt32 → UInt32 → List FisImageDesc → Except Halt Remap
  | [], _, _, _, table => .ok ⟨table, []⟩
  | part :: parts, i, offset, size, table =>
    if i < table.length then do
      let r ← writeParts parts (i + 1) (offset + partSize part size) (size - partSize part size)
        (table.set i (partDesc part offset size))
      return ⟨r.table, (size, partSize part size) :: r.taken⟩
    else .error .overrun

/-- `first_fb`, the lower on the flash of the two. -/
def firstFb (table : List FisImageDesc) (first last : Nat) : Nat :=
  if flashBaseAt table last < flashBaseAt table first then last else first

def lastFb (table : List FisImageDesc) (first last : Nat) : Nat :=
  if flashBaseAt table last < flashBaseAt table first then first else last

/-- `fis_remap` behind the first loop, which has found the old images from `first` to `last`. -/
def remapFrom (table : List FisImageDesc) (new : List FisPart) (offset : UInt32)
    (first last : Nat) : Except Halt Remap :=
  let low := flashBaseAt table (firstFb table first last)
  let size := nextBase (flashBaseAt table (lastFb table first last)) table offset - low
  do
    let moved ← moveTable table (first + new.length) (last + 1) table.length
    writeParts new first low size moved

def fisRemap (desc : Option (List FisImageDesc)) (old new : List FisPart) :
    Except Halt (Option Remap) :=
  match desc with
  | none => .ok none
  | some table =>
    let s := scan old 0 table {}
    match s.first, s.last with
    | some first, some last => (remapFrom table new s.offset first last).map some
    | _, _ => .error .null

/-! ## What it is for -/

structure Layout (old : List FisPart) (table : List FisImageDesc) where
  before : List FisImageDesc
  olds : List FisImageDesc
  after : List FisImageDesc
  table_eq : table.takeWhile FisImageDesc.inUse = before ++ olds ++ after
  isOld_before : ∀ d ∈ before, isOld old d = false
  isOld_olds : ∀ d ∈ olds, isOld old d = true
  isOld_after : ∀ d ∈ after, isOld old d = false

structure Describes (part : FisPart) (desc : FisImageDesc) : Prop where
  name : desc.name = part.name
  memBase : desc.memBase = part.loadaddr
  entryPoint : desc.entryPoint = part.loadaddr
  crcFile : desc.crcFile = part.crc
  size : part.size ≠ 0 → desc.size = part.size
  dataLength : desc.dataLength = if 0 < part.length then part.length else desc.size

/-- The images follow one another on the flash from `base` on. -/
def Consecutive : Nat → List FisImageDesc → Prop
  | _, [] => True
  | base, desc :: descs =>
    desc.flashBase.toNat = base ∧ Consecutive (base + desc.size.toNat) descs

variable {old : List FisPart} {table : List FisImageDesc}

def Layout.Lowest (l : Layout old table) (base : Nat) : Prop :=
  (∃ d ∈ l.olds, d.flashBase.toNat = base) ∧ ∀ d ∈ l.olds, base ≤ d.flashBase.toNat

def totalSize (descs : List FisImageDesc) : Nat := (descs.map fun d => d.size.toNat).sum

/-- A consistent table with the new images in the place of the old ones. -/
structure Layout.Rewritten (l : Layout old table) (new : List FisPart) (r : Remap)
    (descs rest : List FisImageDesc) (base : Nat) : Prop where
  kept : r.table = l.before ++ descs ++ l.after ++ rest
  length : r.table.length = table.length
  describes : List.Forall₂ Describes new descs
  tail : List.replicate (l.olds.length - new.length) .erased <:+ rest
  lowest : l.Lowest base
  consecutive : Consecutive base descs
  ending : ∀ d ∈ l.before ++ l.after, base ≤ d.flashBase.toNat →
    base + totalSize descs ≤ d.flashBase.toNat
  noWrap : ∀ p ∈ r.taken, p.2 ≤ p.1

/-- `fis_remap` stays inside of the block and leaves a consistent table. -/
def Layout.Remaps (l : Layout old table) (new : List FisPart) : Prop :=
  ∃ r descs rest base, fisRemap (some table) old new = .ok (some r) ∧
    l.Rewritten new r descs rest base

/-! ## When it does -/

def Layout.firstBase (l : Layout old table) : Nat := (l.olds.head?.map (·.flashBase.toNat)).getD 0

def Layout.lastBase (l : Layout old table) : Nat := (l.olds.getLast?.map (·.flashBase.toNat)).getD 0

def Layout.start (l : Layout old table) : Nat := min l.firstBase l.lastBase

def Layout.top (l : Layout old table) : Nat := max l.firstBase l.lastBase

/-- The least flash address in the table above `top`, or `top`. -/
def Layout.stop (l : Layout old table) : Nat :=
  (((l.before ++ l.olds ++ l.after).map (·.flashBase.toNat)).filter (l.top < ·)).min?.getD l.top

def sizes (new : List FisPart) : Nat := (new.map fun part => part.size.toNat).sum

def Layout.total (l : Layout old table) (new : List FisPart) : Nat :=
  if ∃ part ∈ new, part.size = 0 then l.stop - l.start else sizes new

structure Layout.Fits (l : Layout old table) (new : List FisPart) : Prop where
  some_old : l.olds ≠ []
  not_fewer : l.olds.length ≤ new.length
  room : l.before.length + new.length + l.after.length ≤ table.length
  lowest : ∀ d ∈ l.olds, l.start ≤ d.flashBase.toNat
  avail : sizes new ≤ l.stop - l.start
  ending : ∀ d ∈ l.before ++ l.after, l.start ≤ d.flashBase.toNat →
    l.start + l.total new ≤ d.flashBase.toNat

end OpenWrt.Mtd.Fis
