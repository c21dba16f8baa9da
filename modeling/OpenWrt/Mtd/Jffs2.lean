import Mathlib.Algebra.GroupWithZero.Nat
import Mathlib.Data.List.Basic

/-!
# Appending a file to a JFFS2 partition

Model of `package/system/mtd/src/jffs2.c` as `mtd jffs2write` runs it: the scan
of the partition in `mtd_write_jffs2` and `mtd_parse_jffs2data`, and the writer
(`pad`, `add_data`, `prep_eraseblock`, `add_dirent`, `add_dir`, `add_file`).

A block is the list of nodes in it, in the order of their offsets; `ofs` counts
the bytes of the buffer in use as in the source.  `mtdofs` and the file pointer
of the device only move by whole erase blocks and are counted in blocks.  The
node fields are the `uint32_t` of `jffs2.h`; `last_ino` and `last_version` are
assigned from and compared with them and wrap like them.
-/

namespace OpenWrt.Mtd.Jffs2

/-- A file name; its length is stored in a byte. -/
structure Name where
  bytes : List UInt8
  short : bytes.length ≤ 255
  deriving DecidableEq

structure Dirent where
  pino : UInt32
  version : UInt32
  ino : UInt32
  type : UInt8
  name : Name
  deriving DecidableEq

structure RawInode where
  ino : UInt32
  version : UInt32
  mode : UInt32
  isize : UInt32
  atime : UInt32
  mtime : UInt32
  ctime : UInt32
  offset : UInt32
  data : List UInt8
  deriving DecidableEq

inductive Node where
  | dirent (de : Dirent)
  | inode (ri : RawInode)
  | other (totlen : Nat)
  deriving DecidableEq

/-- What an erase block starts with, and the nodes in it. -/
inductive Block where
  | erased
  /-- Starts with `JFFS2_MAGIC_BITMASK`. -/
  | nodes (first : Node) (rest : List Node)
  /-- Starts with the magic of the other byte order, 0x8519. -/
  | swapped
  | other
  deriving DecidableEq

structure Partition where
  erasesize : Nat
  erasesize_pos : 0 < erasesize
  /-- `mtdtype == MTD_NANDFLASH`. -/
  nandflash : Bool
  bad : Nat → Bool
  blocks : List Block

/-- The host's file: what `stat`, `open` and `read` make of it. -/
structure File where
  path : List UInt8
  mode : UInt32
  atime : UInt32
  mtime : UInt32
  ctime : UInt32
  opens : Bool
  content : List UInt8
  short : (path.reverse.takeWhile (· ≠ 47)).reverse.length ≤ 255

/-- `strrchr(name, '/')`: the part behind the last slash. -/
def File.fname (f : File) : Name :=
  ⟨(f.path.reverse.takeWhile (· ≠ 47)).reverse, f.short⟩

inductive Halt where
  /-- `exit(1)` in `mtd_block_is_bad`. -/
  | exit
  /-- A store behind the end of `buf`. -/
  | overrun
  | spin
  deriving DecidableEq

structure Flush where
  nodes : List Node
  /-- `mtdofs`, the block that `mtd_erase_block` was asked to erase. -/
  block : Nat
  /-- The file pointer, where `write` goes. -/
  pos : Nat
  erased : Bool
  programmed : Bool
  deriving DecidableEq

/-- Static variables of the file, the device, and the answers it will give. -/
structure State where
  flash : List Block
  pos : Nat
  mtdofs : Nat
  lastIno : UInt32
  lastVersion : UInt32
  /-- Nodes in the first `ofs` bytes of `buf`. -/
  buf : List Node
  ofs : Nat
  erases : List Bool
  writes : List Bool
  flushes : List Flush

section Writer

variable (p : Partition)

/-- `mtd_block_is_bad`; `none` is the `exit(1)` on a failing ioctl. -/
def mtdBlockIsBad (block : Nat) : Option Bool :=
  if p.nandflash then
    if block < p.blocks.length then some (p.bad block) else none
  else some false

/-- The `while` loop of `pad`.  The file pointer moves along over a bad block. -/
def skipBadBlocks : Nat → State → Except Halt State
  | 0, _ => .error .exit
  | fuel + 1, s =>
    match mtdBlockIsBad p s.mtdofs with
    | none => .error .exit
    | some bad =>
      if bad = true ∧ s.mtdofs < p.blocks.length then
        skipBadBlocks fuel { s with mtdofs := s.mtdofs + 1, pos := s.pos + 1 }
      else .ok s

/-- Programming an erased block stores the buffer; nothing is known of a block
that was programmed twice. -/
def Block.program : Block → List Node → Block
  | .erased, n :: ns => .nodes n ns
  | _, _ => .other

/-- `mtd_erase_block`, with `MEMERASE` failing outside of the device. -/
def mtdEraseBlock (s : State) : State × Bool :=
  if s.mtdofs < p.blocks.length ∧ s.erases.headD true = true then
    ({ s with flash := s.flash.set s.mtdofs .erased, erases := s.erases.tail }, true)
  else ({ s with erases := s.erases.tail }, false)

/-- `write(outfd, buf, erasesize)`. -/
def writeBuf (s : State) : State × Bool :=
  if s.pos < p.blocks.length ∧ s.writes.headD true = true then
    ({ s with
        flash := s.flash.modify s.pos (Block.program · s.buf)
        pos := s.pos + 1
        writes := s.writes.tail }, true)
  else ({ s with writes := s.writes.tail }, false)

/-- The end of `pad`, where a full buffer goes to the device.  No result is
looked at. -/
def flush (s : State) : Except Halt State := do
  let s ← skipBadBlocks p (p.blocks.length + 1) s
  let (s1, erased) := mtdEraseBlock p s
  let (s2, programmed) := writeBuf p s1
  return { s2 with
    mtdofs := s.mtdofs + 1
    buf := []
    flushes := s.flushes ++ [⟨s.buf, s.mtdofs, s.pos, erased, programmed⟩] }

def pad (size : Nat) (s : State) : Except Halt State :=
  if s.ofs % size = 0 ∧ s.ofs < p.erasesize then .ok s
  else
    let ofs := if s.ofs < p.erasesize then s.ofs + (size - s.ofs % size) else s.ofs
    if p.erasesize < ofs then .error .overrun
    else if ofs % p.erasesize = 0 then flush p { s with ofs := ofs % p.erasesize }
    else .ok { s with ofs := ofs % p.erasesize }

def rbytes (s : State) : Nat := p.erasesize - s.ofs % p.erasesize

def cleanmarker : Node := .other 12

/-- `add_data` on a block that cannot hold the clean marker would call this
function again without end. -/
def prepEraseblock (s : State) : Except Halt State :=
  if 0 < s.ofs then .ok s
  else if p.erasesize < 12 then .error .spin
  else .ok { s with buf := s.buf ++ [cleanmarker], ofs := 12 }

/-- `if (c) f();` -/
def onlyIf (c : Prop) [Decidable c] (f : State → Except Halt State) (s : State) :
    Except Halt State :=
  if c then f s else .ok s

/-- `pad(erasesize); prep_eraseblock()`. -/
def nextEraseblock (s : State) : Except Halt State := do
  let s ← pad p p.erasesize s
  prepEraseblock p s

/-- `n` is the node that `len` more bytes complete, if they complete one. -/
def addData (n : Option Node) (len : Nat) (s : State) : Except Halt State := do
  let s ← onlyIf (p.erasesize < s.ofs + len) (nextEraseblock p) s
  if p.erasesize < s.ofs + len then .error .overrun
  else .ok { s with buf := s.buf ++ n.toList, ofs := s.ofs + len }

def direntSize : Nat := 40

def inodeSize : Nat := 68

/-- `IFTODT(S_IFDIR)`. -/
def dtDir : UInt8 := 4

/-- `IFTODT(S_IFREG)`. -/
def dtReg : UInt8 := 8

/-- `ofs - erasesize` is compared as a `size_t`. -/
def sizeT (x : Int) : Nat := (x % 4294967296).toNat

def addDirent (name : Name) (type : UInt8) (parent : UInt32) (s : State) :
    Except Halt (State × UInt32) := do
  let s ← onlyIf (sizeT ((s.ofs : Int) - p.erasesize) < direntSize + name.bytes.length)
    (pad p p.erasesize) s
  let s ← prepEraseblock p s
  if p.erasesize < s.ofs + (direntSize + name.bytes.length) then .error .overrun
  else do
    let s' ← pad p 4 { s with
      buf := s.buf ++ [.dirent ⟨parent, s.lastVersion, s.lastIno + 1, type, name⟩]
      ofs := s.ofs + (direntSize + name.bytes.length)
      lastIno := s.lastIno + 1 + 1
      lastVersion := s.lastVersion + 1 }
    return (s', s.lastIno + 1)

def addDir (name : Name) (parent : UInt32) (s : State) : Except Halt (State × UInt32) := do
  let (s, inode) ← addDirent p name dtDir parent s
  let s ← onlyIf (rbytes p s < inodeSize) (pad p p.erasesize) s
  let s ← prepEraseblock p s
  -- `S_IFDIR | 0755`
  let s ← addData p (some (.inode ⟨inode, 1, 0x41ed, 0, 0, 0, 0, 0, []⟩)) inodeSize s
  let s ← pad p 4 s
  return (s, inode)

/-- The inner loop of `add_file`: the room for data in the current block, or in
the next one when it is 128 bytes or less. -/
def makeRoom (s : State) : Except Halt (State × Nat) :=
  if inodeSize + 128 < rbytes p s then .ok (s, rbytes p s - inodeSize)
  else do
    let s ← nextEraseblock p s
    -- An empty block without room: the loop goes on for ever.
    if inodeSize + 128 < rbytes p s then .ok (s, rbytes p s - inodeSize) else .error .spin

def addDataNode (ri : RawInode) (s : State) : Except Halt State := do
  -- Header and data are in one block: the data is no more than the header leaves of it.
  let s ← addData p none inodeSize { s with lastVersion := ri.version }
  let s ← addData p (some (.inode ri)) ri.data.length s
  let s ← pad p 4 s
  prepEraseblock p s

/-- The outer loop of `add_file`; the first argument is at least the number of
bytes left. -/
def addFileLoop (ri : RawInode) : Nat → UInt32 → List UInt8 → State → Except Halt State
  | 0, _, _, s => do
      let (s, _) ← makeRoom p s
      return s
  | fuel + 1, fOffset, content, s => do
      let (s, len) ← makeRoom p s
      let wbuf := content.take (min len 4096)
      if wbuf = [] then .ok s
      else do
        let s ← addDataNode p { ri with
          version := s.lastVersion + 1, offset := fOffset, data := wbuf } s
        addFileLoop ri fuel (fOffset + UInt32.ofNat wbuf.length) (content.drop wbuf.length) s

def addFile (file : Option File) (parent : UInt32) (s : State) : Except Halt State := do
  match file with
  | none => return s
  | some f =>
    let (s, inode) ← addDirent p f.fname dtReg parent s
    let ri : RawInode :=
      ⟨inode, 0, f.mode, UInt32.ofNat f.content.length, f.atime, f.mtime, f.ctime, 0, []⟩
    if f.opens then addFileLoop p ri f.content.length 0 f.content s else return s

end Writer

/-- `last_ino`, `last_version` and `target_ino` during the scan. -/
structure Counters where
  lastIno : UInt32
  lastVersion : UInt32
  targetIno : UInt32
  deriving DecidableEq

/-- `!strncmp(name, dir, nsize)` for a name of `nsize` bytes. -/
def strncmpEq : List UInt8 → List UInt8 → Bool
  | [], _ => true
  | _ :: _, [] => false
  | a :: as, b :: bs => a == b && strncmpEq as bs

def parseNode (dir : Name) (c : Counters) : Node → Counters
  | .dirent de =>
    { targetIno :=
        if dir.bytes ≠ [] ∧ de.pino = 1 ∧ strncmpEq de.name.bytes dir.bytes then de.ino
        else c.targetIno
      lastIno := if c.lastIno < de.ino then de.ino else c.lastIno
      lastVersion := if c.lastVersion < de.version then de.version else c.lastVersion }
  | _ => c

def mtdParseJffs2data (dir : Name) (nodes : List Node) (c : Counters) : Counters :=
  nodes.foldl (parseNode dir) c

/-- The `for` loop of `mtd_write_jffs2`: the first block without magic, or
`none` at the end of the device or at a block of the other byte order. -/
def scan (dir : Name) : List Block → Nat → Counters → Option (Nat × Counters)
  | [], _, _ => none
  | .swapped :: _, _, _ => none
  | .nodes n ns :: blocks, mtdofs, c =>
    scan dir blocks (mtdofs + 1) (mtdParseJffs2data dir (n :: ns) c)
  | _ :: _, mtdofs, c => some (mtdofs, c)

def Counters.start (dir : Name) : Counters := ⟨0, 0, if dir.bytes = [] then 1 else 0⟩

/-- `if (!last_ino) last_ino = 1`. -/
def Counters.ino (c : Counters) : UInt32 := if c.lastIno = 0 then 1 else c.lastIno

def State.start (p : Partition) (first : Nat) (c : Counters) (erases writes : List Bool) : State :=
  ⟨p.blocks, first, first, c.ino, c.lastVersion, [], 0, erases, writes, []⟩

/-- `if (!target_ino) target_ino = add_dir(dir, 1)`. -/
def targetDir (p : Partition) (dir : Name) (targetIno : UInt32) (s : State) :
    Except Halt (State × UInt32) :=
  if targetIno = 0 then addDir p dir 1 s else .ok (s, targetIno)

def mtdWriteJffs2 (p : Partition) (file : Option File) (dir : Name) (erases writes : List Bool) :
    Except Halt (Int × State) := do
  match scan dir p.blocks 0 (Counters.start dir) with
  | none => return (-1, State.start p 0 (Counters.start dir) erases writes)
  | some (first, c) =>
    let s := State.start p first c erases writes
    let (s, targetIno) ← targetDir p dir c.targetIno s
    let s ← addFile p file targetIno s
    let s ← pad p p.erasesize s
    -- The end marker, which is no node.
    let s ← addData p none 4 s
    let s ← pad p p.erasesize s
    return (0, s)

/-! ## What JFFS2 finds on the partition -/

def fileSystem : List Block → List Node
  | .nodes n ns :: blocks => n :: ns ++ fileSystem blocks
  | _ => []

def fsEnd : List Block → Nat
  | .nodes _ _ :: blocks => fsEnd blocks + 1
  | _ => 0

def Block.contents : Block → List Node
  | .nodes n ns => n :: ns
  | _ => []

/-- The old blocks and those that were programmed; the rest is behind the end
marker. -/
def State.fileSystem (p : Partition) (s : State) : List Node :=
  Jffs2.fileSystem (s.flash.take (fsEnd p.blocks)) ++
    (s.flushes.filter (·.programmed)).flatMap fun o => (s.flash.getD o.pos .erased).contents

def dirents (nodes : List Node) : List Dirent :=
  nodes.filterMap fun
    | .dirent de => some de
    | _ => none

def inodes (nodes : List Node) : List RawInode :=
  nodes.filterMap fun
    | .inode ri => some ri
    | _ => none

def entriesOf (ds : List Dirent) (pino : UInt32) (name : Name) : List Dirent :=
  ds.filter fun de => de.pino = pino ∧ de.name = name

/-- `de` is the entry that counts for its parent and name: all others have a
smaller version. -/
def Current (ds : List Dirent) (pino : UInt32) (name : Name) (de : Dirent) : Prop :=
  ∃ before after, entriesOf ds pino name = before ++ de :: after ∧
    ∀ e ∈ before ++ after, e.version < de.version

def IsDir (ds : List Dirent) (dir : Name) (ino : UInt32) : Prop :=
  if dir.bytes = [] then ino = 1
  else ∃ de, Current ds 1 dir de ∧ de.type = dtDir ∧ de.ino = ino ∧ ino ≠ 0

def Resolves (ds : List Dirent) (dir name : Name) (ino : UInt32) : Prop :=
  ∃ parent, IsDir ds dir parent ∧ ∃ de, Current ds parent name de ∧ de.ino = ino

/-- No node of the file system speaks of the inode. -/
def NewIno (nodes : List Node) (ino : UInt32) : Prop :=
  ino ≠ 0 ∧ ino ≠ 1 ∧ (∀ de ∈ dirents nodes, de.ino ≠ ino) ∧ ∀ ri ∈ inodes nodes, ri.ino ≠ ino

def inodesOf (nodes : List Node) (ino : UInt32) : List RawInode :=
  (inodes nodes).filter (·.ino = ino)

/-- In the order of their versions, which all differ, the nodes hold `content`. -/
def Concatenate (rs : List RawInode) (content : List UInt8) : Prop :=
  ∃ l : List RawInode, l.Perm rs ∧ l.Pairwise (·.version < ·.version) ∧
    (l.map RawInode.data).flatten = content

def Node.isEntry : Node → Bool
  | .other _ => false
  | _ => true

def Flush.carries (o : Flush) : Bool := o.nodes.any Node.isEntry

/-- The file is in the partition as JFFS2 will find it. -/
structure Appended (p : Partition) (dir : Name) (f : File) (s : State) : Prop where
  old : ∀ i, i < fsEnd p.blocks → s.flash[i]? = p.blocks[i]?
  written : ∀ o ∈ s.flushes, o.carries = true →
    (o.erased = true ∧ o.programmed = true ∧ o.pos = o.block) ∧
      o.block < p.blocks.length ∧ s.flash[o.block]? = some (Block.program .erased o.nodes)
  resolves : ∃ ino, Resolves (dirents (s.fileSystem p)) dir f.fname ino ∧
    NewIno (Jffs2.fileSystem p.blocks) ino ∧
    Concatenate (inodesOf (s.fileSystem p) ino) f.content

/-! ## When it is -/

/-- Buffers that are full, and the bytes in use of the next one. -/
structure Cursor where
  block : Nat
  ofs : Nat
  deriving DecidableEq

namespace Cursor

def close (c : Cursor) : Cursor := if c.ofs = 0 then c else ⟨c.block + 1, 0⟩

def mark (c : Cursor) : Cursor := if c.ofs = 0 then ⟨c.block, 12⟩ else c

def plus (len : Nat) (c : Cursor) : Cursor := ⟨c.block, c.ofs + len⟩

variable (erasesize : Nat)

/-- `pad(4)`. -/
def align (c : Cursor) : Cursor :=
  if erasesize ≤ (c.ofs + 3) / 4 * 4 then ⟨c.block + 1, 0⟩ else ⟨c.block, (c.ofs + 3) / 4 * 4⟩

def fit (len : Nat) (c : Cursor) : Cursor := if erasesize < c.ofs + len then c.close.mark else c

def dirent (len : Nat) (c : Cursor) : Cursor :=
  mark (if sizeT ((c.ofs : Int) - erasesize) < len then c.close else c)

def dirInode (c : Cursor) : Cursor :=
  fit erasesize inodeSize
    (mark (if erasesize - c.ofs % erasesize < inodeSize then c.close else c))

/-- Where there is room for more than 128 bytes of data. -/
def room (c : Cursor) : Cursor :=
  if inodeSize + 128 < erasesize - c.ofs % erasesize then c else c.close.mark

def data (len : Nat) (c : Cursor) : Cursor :=
  fit erasesize len (plus inodeSize (fit erasesize inodeSize c))

end Cursor

/-- Block and size of each data node of a file with `left` bytes. -/
def dataNodes (erasesize : Nat) : Nat → Cursor → (left : Nat) → List (Nat × Nat)
  | 0, _, _ => []
  | fuel + 1, c, left =>
    let c := c.room erasesize
    let len := min (min (erasesize - c.ofs % erasesize - inodeSize) 4096) left
    if len = 0 then []
    else
      ((c.data erasesize len).block, len) :: dataNodes erasesize fuel
        (((c.data erasesize len).plus len).align erasesize).mark (left - len)

def direntLen (name : Name) : Nat := direntSize + name.bytes.length

def File.read (f : File) : List UInt8 := if f.opens then f.content else []

def scanned (p : Partition) (dir : Name) : Counters :=
  mtdParseJffs2data dir (fileSystem p.blocks) (Counters.start dir)

section Layout

variable (p : Partition) (dir : Name) (f : File)

def dirCursor : Cursor := Cursor.dirent p.erasesize (direntLen dir) ⟨0, 0⟩

def dirInodeCursor : Cursor :=
  (((dirCursor p dir).plus (direntLen dir)).align p.erasesize).dirInode p.erasesize

def dirBlocks : List Nat :=
  if (scanned p dir).targetIno = 0 then [(dirCursor p dir).block, (dirInodeCursor p dir).block]
  else []

def fileCursor : Cursor :=
  Cursor.dirent p.erasesize (direntLen f.fname)
    (if (scanned p dir).targetIno = 0 then
      ((dirInodeCursor p dir).plus inodeSize).align p.erasesize
    else ⟨0, 0⟩)

def fileNodes : List (Nat × Nat) :=
  dataNodes p.erasesize f.read.length
    (((fileCursor p dir f).plus (direntLen f.fname)).align p.erasesize) f.read.length

/-- The blocks with entries, counted from the end of the file system on. -/
def entryBlocks : List Nat :=
  dirBlocks p dir ++ (fileCursor p dir f).block :: (fileNodes p dir f).map Prod.fst

end Layout

/-- `version` is greater than that of every entry with this parent and name. -/
def Outdates (nodes : List Node) (pino : UInt32) (name : Name) (version : UInt32) : Prop :=
  ∀ de ∈ entriesOf (dirents nodes) pino name, de.version < version

instance (nodes : List Node) (pino : UInt32) (name : Name) (version : UInt32) :
    Decidable (Outdates nodes pino name version) :=
  inferInstanceAs (Decidable (∀ _ ∈ _, _))

/-- The `i`-th write of a block succeeds, and there is a block for it. -/
def Partition.Takes (p : Partition) (writes : List Bool) (i : Nat) : Prop :=
  writes.getD i true = true ∧ (p.nandflash = true ∨ fsEnd p.blocks + i < p.blocks.length)

/-- The file could be opened, and the numbering of its data nodes, which are
numbered from `lastVersion + 1` on, does not spoil the order: if it passes 2^32,
the last of them come first. -/
def DataInOrder (f : File) (sizes : List Nat) (lastVersion : UInt32) : Prop :=
  let wrap := (sizes.take (4294967295 - lastVersion.toNat)).sum
  (f.opens = true ∨ f.content = []) ∧ sizes.length ≤ 4294967296 ∧
    f.content.drop wrap ++ f.content.take wrap = f.content

/-- The scan found the inode of `dir`. -/
def Found (nodes : List Node) (dir name : Name) (ino : UInt32) : Prop :=
  dir.bytes ≠ [] →
    (∃ de, Current (dirents nodes) 1 dir de ∧ de.type = dtDir ∧ de.ino = ino) ∧
      ¬(ino = 1 ∧ name = dir)

/-- The parent and the version of the entry of the file, and `last_ino` before it. -/
structure Numbers where
  parent : UInt32
  version : UInt32
  lastIno : UInt32

/-- A directory that was not found takes numbers of its own. -/
def Counters.numbers (c : Counters) : Numbers :=
  if c.targetIno = 0 then ⟨c.ino + 1, c.lastVersion + 1, c.ino + 1 + 1⟩
  else ⟨c.targetIno, c.lastVersion, c.ino⟩

/-- The erases and writes of all blocks with entries succeed, the directory is the right one,
and the numbers given to the nodes are greater than those in use. -/
structure Sound (p : Partition) (dir : Name) (f : File) (erases writes : List Bool) : Prop where
  written : ∀ j ∈ entryBlocks p dir f, erases.getD j true = true ∧ ∀ i ≤ j, p.Takes writes i
  parent : if (scanned p dir).targetIno = 0 then
      Outdates (fileSystem p.blocks) 1 dir (scanned p dir).lastVersion ∧ (scanned p dir).ino + 1 ≠ 0
    else Found (fileSystem p.blocks) dir f.fname (scanned p dir).targetIno
  entry : Outdates (fileSystem p.blocks) (scanned p dir).numbers.parent f.fname
    (scanned p dir).numbers.version
  ino : NewIno (fileSystem p.blocks) ((scanned p dir).numbers.lastIno + 1)
  data : DataInOrder f ((fileNodes p dir f).map Prod.snd) ((scanned p dir).numbers.version + 1)

end OpenWrt.Mtd.Jffs2
