import OpenWrt.Lib.Buffer
import OpenWrt.Lib.Trace
import OpenWrt.Lib.Walk
import OpenWrt.Mtd.Jffs2

/-!
# Reading a JFFS2 block byte by byte

Model of `mtd_parse_jffs2data` in `package/system/mtd/src/jffs2.c` on the bytes of an erase
block, as they come from the flash.  Each node gives the place of the next one by its length;
`ofs` is an `unsigned int`.  The log has the position and the number of bytes of every read.
-/

namespace OpenWrt.Mtd.Jffs2

open Lib

structure RawBlock where
  erasesize : Nat
  isInt : erasesize < 2147483648
  big : Bool
  buf : Buffer

def magicBitmask : Nat := 0x1985

def nodetypeDirent : Nat := 0xe001

def PAD (x : UInt32) : UInt32 := (x + 3) &&& ~~~3

namespace RawBlock

variable (b : RawBlock)

def field (off : Nat) : UInt32 := UInt32.ofNat (word b.big b.buf off)

def byte (off : Nat) : UInt8 := b.buf off

abbrev Reads (α : Type) := Traced (Nat × Nat) α

def readHalf (off : Nat) : Reads Nat := do
  Traced.note (off, 2)
  return half b.big b.buf off

def readField (off : Nat) : Reads UInt32 := do
  Traced.note (off, 4)
  return b.field off

def readByte (off : Nat) : Reads UInt8 := do
  Traced.note (off, 1)
  return b.byte off

/-- `!strncmp(buf + off, dir, n)`; behind `dir` there is a NUL. -/
def strncmp : Nat → Nat → List UInt8 → Reads Bool
  | 0, _, _ => pure true
  | _ + 1, off, [] => do
      let c ← b.readByte off
      return c == 0
  | n + 1, off, d :: dir => do
      let c ← b.readByte off
      if c ≠ d then return false
      else if c = 0 then return true
      else strncmp n (off + 1) dir

/-- `target_ino` after an entry of the root directory. -/
def rootTarget (dir : List UInt8) (ofs : Nat) (target : UInt32) : Reads UInt32 := do
  let nsize ← b.readByte (ofs + 28)
  let same ← b.strncmp nsize.toNat (ofs + 40) dir
  if same then b.readField (ofs + 20) else return target

/-- `target_ino` after the entry at `ofs`. -/
def targetIno (dir : List UInt8) (ofs : Nat) (target : UInt32) : Reads UInt32 :=
  if dir = [] then pure target
  else do
    let pino ← b.readField (ofs + 12)
    if pino ≠ 1 then return target else b.rootTarget dir ofs target

def parseDirent (dir : List UInt8) (ofs : Nat) (c : Counters) : Reads Counters := do
  let target ← b.targetIno dir ofs c.targetIno
  let ino ← b.readField (ofs + 20)
  let version ← b.readField (ofs + 16)
  return {
    targetIno := target
    lastIno := if c.lastIno < ino then ino else c.lastIno
    lastVersion := if c.lastVersion < version then version else c.lastVersion }

def parseNode (dir : List UInt8) (ofs : Nat) (c : Counters) : Reads Counters := do
  let nodetype ← b.readHalf (ofs + 2)
  if nodetype = nodetypeDirent then b.parseDirent dir ofs c else return c

/-- `mtd_parse_jffs2data` from `ofs` on; `none` if the loop is not left in `fuel` rounds. -/
def mtdParseJffs2data (dir : List UInt8) : Nat → UInt32 → Counters → Reads (Option Counters)
  | 0, _, _ => pure none
  | fuel + 1, ofs, c =>
    if ofs.toNat < b.erasesize then do
      let magic ← b.readHalf ofs.toNat
      if magic ≠ magicBitmask then return some c
      else do
        let totlen ← b.readField (ofs.toNat + 4)
        let c ← b.parseNode dir ofs.toNat c
        mtdParseJffs2data dir fuel (ofs + PAD totlen) c
    else return some c

/-- The loop is left, and reads nothing outside of the block. -/
def ParsesSafely (dir : List UInt8) (c : Counters) : Prop :=
  (∃ fuel, (b.mtdParseJffs2data dir fuel 0 c).val ≠ none) ∧
    ∀ fuel, (b.mtdParseJffs2data dir fuel 0 c).All fun e => e.1 + e.2 ≤ b.erasesize

/-! ## When it does -/

def HasMagic (ofs : Nat) : Prop := half b.big b.buf ofs = magicBitmask

instance (ofs : Nat) : Decidable (b.HasMagic ofs) := inferInstanceAs (Decidable (_ = _))

def next (ofs : UInt32) : Option UInt32 :=
  if ofs.toNat < b.erasesize ∧ b.HasMagic ofs.toNat then
    some (ofs + PAD (b.field (ofs.toNat + 4)))
  else none

/-- Bytes at `off` that a comparison of at most `n` bytes with `dir` looks at: those up to the
first difference. -/
def compared : Nat → Nat → List UInt8 → Nat
  | 0, _, _ => 0
  | _ + 1, _, [] => 1
  | n + 1, off, d :: dir =>
    if b.byte off ≠ d ∨ b.byte off = 0 then 1 else compared n (off + 1) dir + 1

/-- An entry of the root directory, whose name is compared. -/
structure NameInside (dir : List UInt8) (ofs : Nat) : Prop where
  nsize : ofs + 29 ≤ b.erasesize
  name : (b.byte (ofs + 28)).toNat ≠ 0 →
    ofs + 40 + b.compared (b.byte (ofs + 28)).toNat (ofs + 40) dir ≤ b.erasesize

structure DirentInside (dir : List UInt8) (ofs : Nat) : Prop where
  ino : ofs + 24 ≤ b.erasesize
  name : dir ≠ [] → b.field (ofs + 12) = 1 → b.NameInside dir ofs

/-- What is looked at of the node at `ofs` is in the block. -/
structure NodeInside (dir : List UInt8) (ofs : Nat) : Prop where
  magic : ofs + 2 ≤ b.erasesize
  totlen : b.HasMagic ofs → ofs + 8 ≤ b.erasesize
  dirent : b.HasMagic ofs → half b.big b.buf (ofs + 2) = nodetypeDirent → b.DirentInside dir ofs

/-! ## Nodes in a block -/

/-- The bytes at `ofs` are those of the node, as far as its header says what it is. -/
def NodeAt (ofs : Nat) : Node → Prop
  | .dirent de =>
      half b.big b.buf (ofs + 2) = nodetypeDirent ∧ b.field (ofs + 12) = de.pino ∧
        b.field (ofs + 16) = de.version ∧ b.field (ofs + 20) = de.ino ∧
        (b.byte (ofs + 28)).toNat = de.name.bytes.length ∧
        slice b.buf (ofs + 40) de.name.bytes.length = de.name.bytes ∧ 0 ∉ de.name.bytes
  | _ => half b.big b.buf (ofs + 2) ≠ nodetypeDirent

/-- From `ofs` on the block holds the nodes, one behind the other. -/
def Holds : UInt32 → List Node → Prop
  | ofs, [] => b.next ofs = none
  | ofs, n :: ns => b.NodeAt ofs.toNat n ∧ ∃ ofs', b.next ofs = some ofs' ∧ Holds ofs' ns

end RawBlock

end OpenWrt.Mtd.Jffs2
