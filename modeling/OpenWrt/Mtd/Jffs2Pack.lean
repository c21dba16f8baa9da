import Mathlib
import OpenWrt.Lib.Fields
import OpenWrt.Mtd.Jffs2

/-!
# The bytes of the JFFS2 writer

Model of `pad`, `add_data`, `prep_eraseblock`, `add_dirent`, `add_dir` and `add_file` of
`package/system/mtd/src/jffs2.c` on the bytes of `buf`.  The fields of a node are stored in
the order of the source; a checksum is taken of what is in memory at that point.  A buffer
that `pad` hands to the device is kept in `flushed`: what becomes of it there is modelled in
`OpenWrt.Mtd.Jffs2`.
-/

namespace OpenWrt.Mtd.Jffs2.Pack

open Lib

structure Target where
  erasesize : Nat
  big : Bool
  aligned : erasesize % 4 = 0
  large : 4096 ≤ erasesize
  /-- `erasesize` is an `int`. -/
  isInt : erasesize < 2147483648

structure Placed where
  /-- Number of buffers that were written before. -/
  block : Nat
  pos : Nat
  node : Node

structure Packer where
  ofs : Nat
  buf : Buffer
  lastIno : UInt32
  lastVersion : UInt32
  flushed : List Buffer
  nodes : List Placed

section Writer

variable (t : Target)

def cleanmarker : List UInt8 :=
  if t.big then [0x19, 0x85, 0x20, 0x03, 0x00, 0x00, 0x00, 0x0c, 0xf0, 0x60, 0xdc, 0x98]
  else [0x85, 0x19, 0x03, 0x20, 0x0c, 0x00, 0x00, 0x00, 0xb1, 0xb0, 0x1e, 0xe4]

/-- A store to `buf`, which has `erasesize` bytes. -/
def store (off : Nat) (bs : List UInt8) (s : Packer) : Except Halt Packer :=
  if t.erasesize < off + bs.length then .error .overrun
  else .ok { s with buf := storeBytes s.buf off bs }

def append (bs : List UInt8) (s : Packer) : Except Halt Packer := do
  let s' ← store t s.ofs bs s
  return { s' with ofs := s.ofs + bs.length }

/-- The end of `pad`: a full buffer goes to the device. -/
def wrap (s : Packer) : Packer :=
  if s.ofs % t.erasesize = 0 then { s with ofs := 0, flushed := s.flushed ++ [s.buf] }
  else { s with ofs := s.ofs % t.erasesize }

def pad (size : Nat) (s : Packer) : Except Halt Packer :=
  if s.ofs % size = 0 ∧ s.ofs < t.erasesize then .ok s
  else if s.ofs < t.erasesize then do
    let s ← append t (List.replicate (size - s.ofs % size) 0xff) s
    return wrap t s
  else .ok (wrap t s)

def rbytes (s : Packer) : Nat := t.erasesize - s.ofs % t.erasesize

/-- There is room for the clean marker in an empty buffer, so `add_data` does not call
`prep_eraseblock` again. -/
def prepEraseblock (s : Packer) : Except Halt Packer :=
  if 0 < s.ofs then .ok s else append t (cleanmarker t) s

def onlyIf (c : Prop) [Decidable c] (f : Packer → Except Halt Packer) (s : Packer) :
    Except Halt Packer :=
  if c then f s else .ok s

def nextEraseblock (s : Packer) : Except Halt Packer := do
  let s ← pad t t.erasesize s
  prepEraseblock t s

def addData (bs : List UInt8) (s : Packer) : Except Halt Packer := do
  let s ← onlyIf (t.erasesize < s.ofs + bs.length) (nextEraseblock t) s
  append t bs s

/-! ## Nodes in memory -/

/-- `JFFS2_MAGIC_BITMASK` and the node type. -/
def typeFields (nodetype : Nat) : List Field :=
  [(0, halfBytes t.big 0x1985), (2, halfBytes t.big nodetype)]

def u32 (x : UInt32) : List UInt8 := wordBytes t.big x.toNat

def crcBytes (bs : List UInt8) : List UInt8 := wordBytes t.big (crc32 0 bs).toNat

/-- The fields of an entry that are set before `hdr_crc`. -/
def direntFields (de : Dirent) : List Field :=
  typeFields t 0xe001 ++ [(29, [de.type]), (36, crcBytes t de.name.bytes), (20, u32 t de.ino),
    (12, u32 t de.pino), (4, wordBytes t.big (direntSize + de.name.bytes.length))]

/-- Those that are set before `node_crc`. -/
def direntRest (de : Dirent) : List Field :=
  [(16, u32 t de.version), (24, u32 t 0), (28, [UInt8.ofNat de.name.bytes.length])]

def storeDirent (b : Buffer) (at_ : Nat) (de : Dirent) : Buffer :=
  let b := storeBytes b at_ (List.replicate direntSize 0)
  let b := putFields b at_ (direntFields t de)
  let b := putCrc t.big b at_ 8 8
  let b := putFields b at_ (direntRest t de)
  let b := putCrc t.big b at_ 32 32
  putFields b at_ [(direntSize, de.name.bytes)]

/-- The local variable `ri` after its `memset`. -/
def zeroInode : Buffer := storeBytes (fun _ => 0) 0 (List.replicate inodeSize 0)

/-- The fields of a directory's inode that are set behind `hdr_crc`. -/
def dirFields (inode : UInt32) : List Field :=
  [(12, u32 t inode), (20, u32 t 0x41ed), (26, halfBytes t.big 0), (24, halfBytes t.big 0),
    (36, u32 t 0), (40, u32 t 0), (32, u32 t 0), (52, u32 t 0), (48, u32 t 0), (28, u32 t 0),
    (16, u32 t 1)]

def dirInode (inode : UInt32) : Buffer :=
  let ri := putFields zeroInode 0 (typeFields t 0xe002 ++ [(4, wordBytes t.big inodeSize)])
  let ri := putCrc t.big ri 0 8 8
  let ri := putFields ri 0 (dirFields t inode)
  let ri := putCrc t.big ri 0 64 60
  putFields ri 0 [(60, u32 t 0)]

/-- The fields of a file's inode that are set before the first data is read. -/
def fileFields (ri : RawInode) : List Field :=
  typeFields t 0xe002 ++ [(12, u32 t ri.ino), (20, u32 t ri.mode), (26, halfBytes t.big 0),
    (24, halfBytes t.big 0), (32, u32 t ri.atime), (40, u32 t ri.ctime), (36, u32 t ri.mtime),
    (28, u32 t ri.isize), (56, [0]), (57, [0])]

/-- Those that are set behind `hdr_crc` for each node. -/
def chunkFields (ri : RawInode) : List Field :=
  [(16, u32 t ri.version), (44, u32 t ri.offset), (52, wordBytes t.big ri.data.length),
    (48, wordBytes t.big ri.data.length)]

/-- `ri` when a node is written; it keeps the fields of the last one. -/
def chunkInode (b : Buffer) (ri : RawInode) : Buffer :=
  let b := putFields b 0 [(4, wordBytes t.big (inodeSize + ri.data.length))]
  let b := putCrc t.big b 0 8 8
  let b := putFields b 0 (chunkFields t ri)
  let b := putCrc t.big b 0 64 60
  putFields b 0 [(60, crcBytes t ri.data)]

/-! ## Directory entries and files -/

def place (s : Packer) (pos : Nat) (node : Node) : Packer :=
  { s with nodes := s.nodes ++ [⟨s.flushed.length, pos, node⟩] }

def addDirent (name : Name) (type : UInt8) (parent : UInt32) (s : Packer) :
    Except Halt (Packer × UInt32) := do
  let s ← onlyIf (sizeT ((s.ofs : Int) - t.erasesize) < direntSize + name.bytes.length)
    (pad t t.erasesize) s
  let s ← prepEraseblock t s
  if t.erasesize < s.ofs + (direntSize + name.bytes.length) then .error .overrun
  else do
    let de : Dirent := ⟨parent, s.lastVersion, s.lastIno + 1, type, name⟩
    let s' ← pad t 4 { place s s.ofs (.dirent de) with
      buf := storeDirent t s.buf s.ofs de
      ofs := s.ofs + (direntSize + name.bytes.length)
      lastIno := s.lastIno + 1 + 1
      lastVersion := s.lastVersion + 1 }
    return (s', s.lastIno + 1)

def addDir (name : Name) (parent : UInt32) (s : Packer) : Except Halt Packer := do
  let (s, inode) ← addDirent t name dtDir parent s
  let s ← onlyIf (rbytes t s < inodeSize) (pad t t.erasesize) s
  let s ← prepEraseblock t s
  let s ← addData t (slice (dirInode t inode) 0 inodeSize) s
  pad t 4 (place s (s.ofs - inodeSize) (.inode ⟨inode, 1, 0x41ed, 0, 0, 0, 0, 0, []⟩))

def makeRoom (s : Packer) : Except Halt (Packer × Nat) :=
  if inodeSize + 128 < rbytes t s then .ok (s, rbytes t s - inodeSize)
  else do
    let s ← nextEraseblock t s
    if inodeSize + 128 < rbytes t s then .ok (s, rbytes t s - inodeSize) else .error .spin

def addDataNode (b : Buffer) (ri : RawInode) (s : Packer) : Except Halt Packer := do
  let s ← addData t (slice b 0 inodeSize) { s with lastVersion := ri.version }
  let s ← addData t ri.data (place s (s.ofs - inodeSize) (.inode ri))
  let s ← pad t 4 s
  prepEraseblock t s

/-- The outer loop of `add_file`; `b` is the variable `ri` in memory.  The first argument is
at least the number of bytes left. -/
def addFileLoop (ri : RawInode) : Nat → Buffer → UInt32 → List UInt8 → Packer → Except Halt Packer
  | 0, _, _, _, s => do
      let (s, _) ← makeRoom t s
      return s
  | fuel + 1, b, fOffset, content, s => do
      let (s, len) ← makeRoom t s
      let wbuf := content.take (min len 4096)
      if wbuf = [] then .ok s
      else do
        let ri := { ri with version := s.lastVersion + 1, offset := fOffset, data := wbuf }
        let s ← addDataNode t (chunkInode t b ri) ri s
        addFileLoop ri fuel (chunkInode t b ri) (fOffset + UInt32.ofNat wbuf.length)
          (content.drop wbuf.length) s

def addFile (f : File) (parent : UInt32) (s : Packer) : Except Halt Packer := do
  let (s, inode) ← addDirent t f.fname dtReg parent s
  let ri : RawInode :=
    ⟨inode, 0, f.mode, UInt32.ofNat f.content.length, f.atime, f.mtime, f.ctime, 0, []⟩
  if f.opens then
    addFileLoop t ri f.content.length (putFields zeroInode 0 (fileFields t ri)) 0 f.content s
  else return s

inductive Op where
  | addDirent (name : Name) (type : UInt8) (parent : UInt32)
  | addDir (name : Name) (parent : UInt32)
  | addFile (f : File) (parent : UInt32)

def Op.run : Op → Packer → Except Halt Packer
  | .addDirent name type parent, s => (Pack.addDirent t name type parent s).map Prod.fst
  | .addDir name parent, s => Pack.addDir t name parent s
  | .addFile f parent, s => Pack.addFile t f parent s

end Writer

/-! ## What a legal node is -/

/-- All fields of a node but the two checksums of its header, and what follows it. -/
def nodeFields (t : Target) : Node → List Field
  | .dirent de => direntFields t de ++ (direntRest t de ++ [(direntSize, de.name.bytes)])
  | .inode ri =>
    fileFields t ri ++ ([(4, wordBytes t.big (inodeSize + ri.data.length))] ++
      (chunkFields t ri ++ ([(60, crcBytes t ri.data)] ++ [(inodeSize, ri.data)])))
  | .other _ => []

def totlen : Node → Nat
  | .dirent de => direntSize + de.name.bytes.length
  | .inode ri => inodeSize + ri.data.length
  | .other totlen => totlen

/-- Where `node_crc` is, and the number of bytes it covers. -/
def nodeCrc : Node → Nat × Nat
  | .dirent _ => (32, 32)
  | _ => (64, 60)

/-- The node lies at its place in the block, behind the clean marker. -/
structure Legal (t : Target) (b : Buffer) (n : Placed) : Prop where
  entry : n.node.isEntry = true
  aligned : n.pos % 4 = 0
  behind : 12 ≤ n.pos
  marker : slice b 0 12 = cleanmarker t
  inside : n.pos + totlen n.node ≤ t.erasesize
  fields : HasFields b n.pos (nodeFields t n.node)
  hdrCrc : HasCrc t.big b n.pos 8 8
  nodeCrc : HasCrc t.big b n.pos (nodeCrc n.node).1 (nodeCrc n.node).2

def Packer.block (s : Packer) (k : Nat) : Buffer := (s.flushed ++ [s.buf]).getD k s.buf

def extent : Node → Option (Nat × Nat)
  | .inode ri => some (ri.offset.toNat, ri.data.length)
  | _ => none

def Packer.extents (s : Packer) : List (Nat × Nat) := s.nodes.filterMap fun n => extent n.node

/-- The ranges follow one another from `start` to `stop`. -/
def Tiles : Nat → List (Nat × Nat) → Nat → Prop
  | start, [], stop => start = stop
  | start, (off, len) :: rest, stop => off = start ∧ Tiles (start + len) rest stop

def Op.size : Op → Nat
  | .addFile f _ => f.content.length
  | _ => 0

/-- A buffer as the calls before left it; the log of nodes is empty. -/
structure Ready (t : Target) (s : Packer) : Prop where
  aligned : s.ofs % 4 = 0
  inside : s.ofs < t.erasesize
  marker : 0 < s.ofs → 12 ≤ s.ofs ∧ slice s.buf 0 12 = cleanmarker t
  fresh : s.nodes = []

/-- The call returns without a store behind the buffer, its nodes are legal, and the data
nodes cover the file. -/
def Packs (t : Target) (op : Op) (s : Packer) : Prop :=
  ∃ s', op.run t s = .ok s' ∧ (∀ n ∈ s'.nodes, Legal t (s'.block n.block) n) ∧
    Tiles 0 s'.extents op.size

/-! ## When all nodes are legal -/

/-- `PAD(x)` of a small number. -/
def padded (x : Nat) : Nat := (x + 3) / 4 * 4

def Op.name : Op → Name
  | .addDirent name _ _ => name
  | .addDir name _ => name
  | .addFile f _ => f.fname

def start (ofs : Nat) : Nat := if 0 < ofs then ofs else 12

def Op.direntEnd (op : Op) (s : Packer) : Nat :=
  start s.ofs + (direntSize + op.name.bytes.length)

/-- Where the next data node goes, and the room for its data. -/
def nodePos (t : Target) (ofs : Nat) : Nat :=
  if inodeSize + 128 < t.erasesize - ofs then ofs else 12

def nodeRoom (t : Target) (ofs : Nat) : Nat := min (t.erasesize - nodePos t ofs - inodeSize) 4096

/-- The sizes of the data nodes of `left` bytes from `ofs` on. -/
def dataSizes (t : Target) : Nat → Nat → Nat → List Nat
  | 0, _, _ => []
  | fuel + 1, ofs, left =>
    if left = 0 then []
    else
      min (nodeRoom t ofs) left ::
        dataSizes t fuel
          (start (padded (nodePos t ofs + (inodeSize + min (nodeRoom t ofs) left)) % t.erasesize))
          (left - min (nodeRoom t ofs) left)

/-- The file can be read, does not start in a new block, and its last node starts below 4 GiB. -/
structure FileFits (t : Target) (f : File) (direntEnd : Nat) : Prop where
  opens : f.opens = true
  inBlock : padded direntEnd < t.erasesize
  offsets : (dataSizes t f.content.length (padded direntEnd) f.content.length).dropLast.sum <
    4294967296

def Fits (t : Target) (op : Op) (s : Packer) : Prop :=
  op.direntEnd s ≤ t.erasesize ∧
    ∀ f parent, op = .addFile f parent → f.content ≠ [] → FileFits t f (op.direntEnd s)

end OpenWrt.Mtd.Jffs2.Pack
