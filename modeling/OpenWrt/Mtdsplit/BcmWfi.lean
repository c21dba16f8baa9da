import OpenWrt.Lib.Crc
import OpenWrt.Mtdsplit.Basic

/-!
# Broadcom whole flash images

`drivers/mtd/mtdsplit/mtdsplit_bcm_wfi.c`: the search for a file in a JFFS2 image, the split of
an image, and the parser for a flash with two of them.  A `loff_t` is a number below 2^63; a sum
that is too large for it is stuck, as is a read outside of the block buffer.
-/

namespace OpenWrt.Mtdsplit.BcmWfi

open Lib

def ENOENT : Int := 2

def JFFS2_MAGIC_BITMASK : Nat := 0x1985
def JFFS2_NODETYPE_DIRENT : Nat := 0xE001
def UBI_MAGIC : Nat := 0x55424923

def CFERAM_NAME : List UInt8 := ascii "cferam"
def KERNEL_NAME : List UInt8 := ascii "vmlinux.lz"
def OPENWRT_NAME : List UInt8 := ascii "1-openwrt"

/-- Number of the values of a `loff_t` that are not negative. -/
def loffValues : Nat := 9223372036854775808

/-! ## Nodes -/

section

variable (big : Bool) (buf : Buffer) (len : Nat)

/-- `jffs2_dirent_valid` for the node at `pos` of a buffer of `len` bytes; there is no result if
it reads outside. -/
def direntValid (pos : Nat) : Option Bool :=
  if len < pos + 2 then none
  else if half big buf pos ≠ JFFS2_MAGIC_BITMASK then some false
  else if len < pos + 4 then none
  else if half big buf (pos + 2) ≠ JFFS2_NODETYPE_DIRENT then some false
  else if len < pos + 24 then none
  else if word big buf (pos + 20) = 0 then some false
  else if len < pos + 36 then none
  else some (decide (word big buf (pos + 32) = (crc32 0 (slice buf pos 32)).toNat))

def nameIs (pos : Nat) (name : List UInt8) : Option Bool :=
  if len < pos + 40 + name.length then none
  else some (decide (slice buf (pos + 40) name.length = name))

inductive Kind where
  | free
  | openwrt
  | file
  | other
  deriving DecidableEq, Repr

def nodeKind (name : List UInt8) (pos : Nat) : Option Kind := do
  if ← direntValid big buf len pos then
    if ← nameIs buf len pos OPENWRT_NAME then some .openwrt
    else if ← nameIs buf len pos name then some .file
    else some .other
  else some .free

/-- The place behind a node, in an `unsigned int`. -/
def behind (pos : UInt32) : Kind → UInt32
  | .free => pos + 4
  | _ => (pos + UInt32.ofNat (word big buf (pos.toNat + 4)) + 3) &&& 0xFFFFFFFC

def kstrndup (pos : Nat) : Nat → Option (List UInt8)
  | 0 => some []
  | n + 1 =>
    if len ≤ pos then none
    else if buf pos = 0 then some []
    else (kstrndup (pos + 1) n).map (buf pos :: ·)

end

/-! ## Files -/

def block (m : Mtd) (offs : Nat) : Buffer := fun i => m.flash (offs + i)

/-- A file: its block, and its name and the length of the name, if they are asked for. -/
structure File where
  offs : Nat
  name : List UInt8
  nsize : Nat
  deriving DecidableEq, Repr

def fileOf (m : Mtd) (want : Bool) (offs pos : Nat) : Option File :=
  if want then
    (kstrndup (block m offs) m.erasesize (pos + 40) (block m offs (pos + 28)).toNat).map fun name =>
      ⟨offs, name, (block m offs (pos + 28)).toNat⟩
  else some ⟨offs, [], 0⟩

inductive State where
  | block (offs : Nat) (valid : Bool)
  | node (offs : Nat) (pos : UInt32) (valid : Bool)
  deriving DecidableEq

def toNextBlock {ρ : Type} (m : Mtd) (offs : Nat) (valid : Bool) : Round State ρ :=
  if offs + m.erasesize < loffValues then .next (.block (offs + m.erasesize) valid) else .stuck

section

variable (big : Bool) (m : Mtd) (name : List UInt8) (want : Bool) (stop : Nat)

def Skipped (offs : Nat) : Prop :=
  m.readError offs 2 ≠ none ∨ half big m.flash offs ≠ JFFS2_MAGIC_BITMASK

instance (offs : Nat) : Decidable (Skipped big m offs) := inferInstanceAs (Decidable (_ ∨ _))

def blockStep (offs : Nat) (valid : Bool) : Round State (Except Int File) :=
  if stop ≤ offs then .done (.error (- ENOENT))
  else if Skipped big m offs then toNextBlock m offs valid
  else
    match m.readError offs m.erasesize with
    | some err => .done (.error err)
    | none => .next (.node offs 0 valid)

def atFile (offs : Nat) (pos : UInt32) (valid : Bool) : Round State (Except Int File) :=
  if valid then
    match fileOf m want offs pos.toNat with
    | none => .stuck
    | some f => .done (.ok f)
  else .done (.error (- EINVAL))

def nodeStep (offs : Nat) (pos : UInt32) (valid : Bool) : Round State (Except Int File) :=
  if m.erasesize ≤ pos.toNat then toNextBlock m offs valid
  else
    match nodeKind big (block m offs) m.erasesize name pos.toNat with
    | none => .stuck
    | some .file => atFile m want offs pos valid
    | some kind => .next (.node offs (behind big (block m offs) pos kind)
      (valid || kind = .openwrt))

def findRound : State → Round State (Except Int File)
  | .block offs valid => blockStep big m stop offs valid
  | .node offs pos valid => nodeStep big m name want offs pos valid

/-- `stop` is the sum of the offset and the size that the function is called with. -/
def jffs2FindFile (start fuel : Nat) : Option (Except Int File) :=
  if loffValues ≤ stop then none
  else loop (findRound big m name want stop) fuel (.block start false)

end

def IsUbi (m : Mtd) (offs : Nat) : Prop :=
  m.readError offs 4 = none ∧ word true m.flash offs = UBI_MAGIC

instance (m : Mtd) (offs : Nat) : Decidable (IsUbi m offs) := inferInstanceAs (Decidable (_ ∧ _))

def ubiRound (m : Mtd) (stop offs : Nat) : Round Nat (Except Int Nat) :=
  if stop ≤ offs then .done (.error (- ENOENT))
  else if IsUbi m offs then .done (.ok offs)
  else if offs + m.erasesize < loffValues then .next (offs + m.erasesize)
  else .stuck

def ubifsFind (m : Mtd) (stop start fuel : Nat) : Option (Except Int Nat) :=
  loop (ubiRound m stop) fuel start

/-! ## The split of an image -/

structure Part where
  name : String
  range : Range
  masked : Bool
  deriving DecidableEq, Repr

/-- The result of `parse_bcm_wfi`, and the places it has found. -/
structure Wfi where
  cferam : Option Nat
  kernel : Nat
  rootfs : Nat
  parts : List Part
  deriving DecidableEq, Repr

section

variable (big : Bool) (m : Mtd) (memory : Bool) (off size : Nat)

def wfiOf (cferam : Option Nat) (kernel rootfs : Nat) : Wfi :=
  ⟨cferam, kernel, rootfs,
    (cferam.map fun cfe => ⟨"cferam", ⟨cfe, kernel - cfe⟩, true⟩).toList ++
      [⟨"firmware", ⟨kernel, off + size - kernel⟩, false⟩,
       ⟨"kernel", ⟨kernel, rootfs - kernel⟩, false⟩,
       ⟨"ubi", ⟨rootfs, off + size - rootfs⟩, false⟩]⟩

def makeWfi (cferam : Option Nat) (kernel rootfs : Nat) : Option (Except Int Wfi) :=
  if memory then some (.ok (wfiOf off size cferam kernel rootfs)) else some (.error (- ENOMEM))

def fromRootfs (fuel : Nat) (cferam : Option Nat) (kernel : File) : Option (Except Int Wfi) :=
  if loffValues ≤ kernel.offs + m.erasesize then none
  else
    andThen (ubifsFind m (off + size) (kernel.offs + m.erasesize) fuel)
      (makeWfi memory off size cferam kernel.offs)

def fromKernel (fuel : Nat) (cferam : Option Nat) (start : Nat) : Option (Except Int Wfi) :=
  if loffValues ≤ start then none
  else
    andThen (jffs2FindFile big m KERNEL_NAME false (off + size) start fuel)
      (fromRootfs m memory off size fuel cferam)

/-- The name that `parse_bcm_wfi` compares with: all but the last character. -/
def searchName (cferamName : List UInt8) : List UInt8 := (cferamName.take 32).dropLast

def parseBcmWfi (cferamName : List UInt8) (cfePart : Bool) (fuel : Nat) :
    Option (Except Int Wfi) :=
  if cfePart then
    andThen (jffs2FindFile big m (searchName cferamName) false (off + size) off fuel)
      fun f => fromKernel big m memory off size fuel (some f.offs) (f.offs + m.erasesize)
  else fromKernel big m memory off size fuel none off

end

/-! ## Two images -/

def charToNum (c : UInt8) : Nat := if 48 ≤ c ∧ c ≤ 57 then c.toNat - 48 else 0

/-- The value of a copied name; `heap` is what is in the memory of the copy and behind it. -/
def cferamBootflagValue (heap : Buffer) (len : Nat) : Option (List UInt8) → Int
  | none => - ENOENT
  | some s =>
    let b := storeBytes heap 0 (s ++ [0])
    if 10 ≤ len ∧ slice b 0 7 = ascii "cferam." then
      (charToNum (b 7) * 100 + charToNum (b 8) * 10 + charToNum (b 9) : Nat)
    else - ENOENT

/-- What the allocator does in a run of `mtdsplit_parse_bcm_wfi_split`. -/
structure Memory where
  buf : Bool
  name1 : Bool
  name2 : Bool
  heap1 : Buffer
  heap2 : Buffer
  parts : Bool
  all : Bool
  halves : Bool

def bootflag (copied : Bool) (heap : Buffer) : Except Int File → Int
  | .error _ => cferamBootflagValue heap 0 none
  | .ok f => cferamBootflagValue heap f.nsize (if copied then some f.name else none)

section

variable (m : Mtd)

def img1 : Range := ⟨0, m.size / 2⟩

def img2 : Range := ⟨m.size / 2, m.size - m.size / 2⟩

def halves : List Part := [⟨"img1", img1 m, false⟩, ⟨"img2", img2 m, false⟩]

def active (bf1 bf2 : Int) : Range := if bf2 ≤ bf1 then img1 m else img2 m

def inactive (bf1 bf2 : Int) : Part :=
  if bf2 ≤ bf1 then ⟨"img2", img2 m, false⟩ else ⟨"img1", img1 m, false⟩

/-- The return value and the partitions, from what `parse_bcm_wfi` has returned for the active
half.  The fall-back does not check its allocation. -/
def finishSplit (mem : Memory) (bf1 bf2 : Int) : Except Int Wfi → Option (Int × List Part)
  | .ok w =>
    if mem.all then some (w.parts.length + 1, w.parts ++ [inactive m bf1 bf2])
    else some (- ENOMEM, w.parts)
  | .error err => if mem.halves then some (err, halves m) else none

def splitActive (big : Bool) (cferamName : List UInt8) (mem : Memory) (fuel : Nat)
    (bf1 bf2 : Int) : Option (Int × List Part) :=
  (parseBcmWfi big m mem.parts (active m bf1 bf2).offset (active m bf1 bf2).size cferamName true
    fuel).bind (finishSplit m mem bf1 bf2)

def findName (big : Bool) (half : Range) (fuel : Nat) : Option (Except Int File) :=
  jffs2FindFile big m CFERAM_NAME true half.stop half.offset fuel

def parseBcmWfiSplit (big : Bool) (cferamName : List UInt8) (mem : Memory) (fuel : Nat) :
    Option (Int × List Part) :=
  if ¬mem.buf then some (- ENOMEM, [])
  else
    (findName m big (img1 m) fuel).bind fun r1 =>
      (findName m big (img2 m) fuel).bind fun r2 =>
        splitActive m big cferamName mem fuel (bootflag mem.name1 mem.heap1 r1)
          (bootflag mem.name2 mem.heap2 r2)

end

/-! ## The properties -/

section

variable (big : Bool) (m : Mtd) (name : List UInt8) (want : Bool) (stop start : Nat)

/-- The search ends, and reads inside of the block buffer only. -/
def FindTotal : Prop := Halts (jffs2FindFile big m name want stop start)

def Reaches (s : State) : Prop := Comes (findRound big m name want stop) (.block start false) s

def nextNode (offs : Nat) (pos : UInt32) : Option UInt32 :=
  if m.erasesize ≤ pos.toNat then none
  else
    match nodeKind big (block m offs) m.erasesize name pos.toNat with
    | none => none
    | some .file => none
    | some kind => some (behind big (block m offs) pos kind)

def Room (offs : Nat) : Prop := m.erasesize ≠ 0 ∧ offs + m.erasesize < loffValues

structure FindSafe : Prop where
  stop_lt : stop < loffValues
  /-- Where the search looks at a node, what it reads is inside of the block. -/
  inside : ∀ offs pos valid, Reaches big m name want stop start (.node offs pos valid) →
    pos.toNat < m.erasesize →
    ∃ kind, nodeKind big (block m offs) m.erasesize name pos.toNat = some kind ∧
      (kind = .file → valid = true → fileOf m want offs pos.toNat ≠ none)
  /-- The nodes of a block lead to no place twice. -/
  noRepeat : ∀ offs valid, Reaches big m name want stop start (.node offs 0 valid) →
    NoRepeat (nextNode big m name offs) 0
  skip : ∀ offs valid, Reaches big m name want stop start (.block offs valid) → offs < stop →
    Skipped big m offs → Room m offs
  leave : ∀ offs pos valid, Reaches big m name want stop start (.node offs pos valid) →
    m.erasesize ≤ pos.toNat → Room m offs

/-- The search comes to a file, behind a `1-openwrt`. -/
def Finds (f : File) : Prop :=
  stop < loffValues ∧ ∃ pos, Reaches big m name want stop start (.node f.offs pos true) ∧
    pos.toNat < m.erasesize ∧
    nodeKind big (block m f.offs) m.erasesize name pos.toNat = some .file ∧
    fileOf m want f.offs pos.toNat = some f

end

section

variable (m : Mtd) (stop start : Nat)

def UbiAt (rootfs : Nat) : Prop :=
  Comes (ubiRound m stop) start rootfs ∧ rootfs < stop ∧ IsUbi m rootfs

def UbiSafe : Prop :=
  ∀ offs, Comes (ubiRound m stop) start offs → offs < stop → ¬IsUbi m offs → Room m offs

end

section

variable (big : Bool) (m : Mtd) (memory : Bool) (off size : Nat) (cferamName : List UInt8)
  (cfePart : Bool)

def KernelStart (cferam : Option Nat) (start : Nat) : Prop :=
  cfePart = false ∧ cferam = none ∧ start = off ∨
    cfePart = true ∧ ∃ f, Finds big m (searchName cferamName) false (off + size) off f ∧
      cferam = some f.offs ∧ start = f.offs + m.erasesize

/-- The image has a `cferam` if it is asked for, a kernel behind it, and UBI behind that. -/
def Parsable (w : Wfi) : Prop :=
  memory = true ∧ ∃ cferam start f rootfs,
    KernelStart big m off size cferamName cfePart cferam start ∧ start < loffValues ∧
    Finds big m KERNEL_NAME false (off + size) start f ∧ f.offs + m.erasesize < loffValues ∧
    UbiAt m (off + size) (f.offs + m.erasesize) rootfs ∧ w = wfiOf off size cferam f.offs rootfs

/-- None of the searches reads outside of the block buffer or goes on for ever. -/
structure ParseSafe : Prop where
  cferam : cfePart = true → FindSafe big m (searchName cferamName) false (off + size) off
  kernel : ∀ cfe start, KernelStart big m off size cferamName cfePart cfe start →
    start < loffValues ∧ FindSafe big m KERNEL_NAME false (off + size) start
  rootfs : ∀ cfe start f, KernelStart big m off size cferamName cfePart cfe start →
    Finds big m KERNEL_NAME false (off + size) start f →
    f.offs + m.erasesize < loffValues ∧ UbiSafe m (off + size) (f.offs + m.erasesize)

/-- The places are in order, and the partitions are inside of the image. -/
structure Placed (w : Wfi) : Prop where
  cferam : ∀ cfe, w.cferam = some cfe → off ≤ cfe ∧ cfe < w.kernel
  kernel : off ≤ w.kernel ∧ w.kernel < w.rootfs
  rootfs : w.rootfs < off + size
  inside : ∀ p ∈ w.parts, off ≤ p.range.offset ∧ p.range.stop ≤ off + size

structure Sound (w : Wfi) : Prop extends Placed off size w where
  apart : w.parts.Pairwise fun p q => p.range.Apart q.range

def ParseSound : Prop :=
  ∀ w, Yields (parseBcmWfi big m memory off size cferamName cfePart) (.ok w) → Sound off size w

end

section

variable (big : Bool) (m : Mtd) (cferamName : List UInt8) (mem : Memory)

/-- If the active half cannot be parsed, the return value is the number of the partitions. -/
def SplitCounts : Prop :=
  ∀ ret, Yields (parseBcmWfiSplit m big cferamName mem) (ret, halves m) →
    ret = (halves m).length

def Flag (copied : Bool) (heap : Buffer) (half : Range) (bf : Int) : Prop :=
  (∃ f, Finds big m CFERAM_NAME true half.stop half.offset f ∧ bf = bootflag copied heap (.ok f)) ∨
    FindSafe big m CFERAM_NAME true half.stop half.offset ∧
      (∀ f, ¬Finds big m CFERAM_NAME true half.stop half.offset f) ∧ bf = - ENOENT

/-- If the parser gets as far as the active half and the searches in it end, it can be parsed. -/
def ActiveParsable : Prop :=
  mem.buf = true → mem.halves = true → ∀ bf1 bf2, Flag big m mem.name1 mem.heap1 (img1 m) bf1 →
    Flag big m mem.name2 mem.heap2 (img2 m) bf2 →
    ParseSafe big m (active m bf1 bf2).offset (active m bf1 bf2).size cferamName true →
    ∃ w, Parsable big m mem.parts (active m bf1 bf2).offset (active m bf1 bf2).size cferamName
      true w

end

end OpenWrt.Mtdsplit.BcmWfi
