import OpenWrt.Lib.Buffer
import OpenWrt.Lib.Patch
import OpenWrt.Lib.Walk
import OpenWrt.Bcm4908img.Image

/-!
# The files of the bootfs

`bcm4908img_bootfs_ls` and `bcm4908img_bootfs_mv` of `package/utils/bcm4908img`, behind the
parser.  For `mv` the file is open for writing, and every write to it succeeds.
-/

namespace OpenWrt.Bcm4908img

open Lib

def JFFS2_MAGIC_BITMASK : Nat := 0x1985
def JFFS2_NODETYPE_DIRENT : Nat := 0xe001
def FILENAME_MAX : Nat := 4096

/-- `sizeof(struct jffs2_unknown_node)`. -/
def nodeSize : Nat := 12

/-- `sizeof(struct jffs2_raw_dirent)`, and the offset of its `name`. -/
def direntSize : Nat := 40

/-- `offsetof(struct jffs2_raw_dirent, name_crc)`. -/
def nameCrcOffset : Nat := 36

/-- An argument: what the memory holds from the pointer on. -/
structure CString where
  mem : Buffer
  len : Nat
  nonzero : ∀ i < len, mem i ≠ 0
  ends : mem len = 0

def CString.bytes (s : CString) : Bytes := slice s.mem 0 s.len

inductive BootfsError where
  | parse (e : ParseError)
  | arguments
  | sameLength
  | readBytes (length : Nat)
  | readFilename
  | notFound
  | readLast (length : Nat)
  | endless
  deriving DecidableEq, Repr

def ENOMEM : Int := 12

section Host

-- Byte order of the host.
variable (big : Bool)

def host (bs : Bytes) : Nat := if big then be bs else be bs.reverse

def hostBytes (x : BitVec 32) : Bytes := if big then (le32Bytes x).reverse else le32Bytes x

/-- `(je32_to_cpu(node.totlen) + 0x03) & ~0x03`. -/
def nodeStep (f : Bytes) (offset : Nat) : Nat :=
  (host big (fread f (offset + 4) 4) + 3) % 4294967296 / 4 * 4

def nsize (f : Bytes) (offset : Nat) : Nat := (f.getD (offset + 28) 0).toNat

inductive Node where
  | none
  | other
  | tooLong
  | entry (name : Bytes)
  deriving DecidableEq, Repr

/-- One round of a walk, with `room` bytes for a name.  The message about a short entry has
the size of a node. -/
def readNode (room : Nat) (f : Bytes) (offset : Nat) : Except BootfsError Node :=
  if (fread f offset nodeSize).length ≠ nodeSize then .error (.readBytes nodeSize)
  else if host big (fread f offset 2) ≠ JFFS2_MAGIC_BITMASK then .ok .none
  else if host big (fread f (offset + 2) 2) ≠ JFFS2_NODETYPE_DIRENT then .ok .other
  else if (fread f (offset + nodeSize) (direntSize - nodeSize)).length ≠ direntSize - nodeSize then
    .error (.readBytes nodeSize)
  else if room < nsize f offset + 1 then .ok .tooLong
  else if (fread f (offset + direntSize) (nsize f offset)).length ≠ nsize f offset then
    .error .readFilename
  else .ok (.entry (fread f (offset + direntSize) (nsize f offset)))

def nameString (name : Bytes) : Bytes := name.takeWhile (· ≠ 0)

/-! ## ls -/

def lsLoop (f : Bytes) : (n offset : Nat) → List Bytes → Int → Except BootfsError (List Bytes × Int)
  | 0, _, _, _ => .error .endless
  | n + 1, offset, out, err =>
    match readNode big (FILENAME_MAX + 1) f offset with
    | .error e => .error e
    | .ok .none => .ok (out, err)
    | .ok .other => lsLoop f n (offset + nodeStep big f offset) out err
    | .ok .tooLong => lsLoop f n (offset + nodeStep big f offset) out (- ENOMEM)
    | .ok (.entry name) =>
      lsLoop f n (offset + nodeStep big f offset) (out ++ [nameString name]) err

/-- In `f.length` rounds a walk comes behind the file or stays where it is. -/
def bootfsLs (f : Bytes) (info : Info) : Except BootfsError (List Bytes × Int) :=
  lsLoop big f f.length info.bootfsOffset [] 0

/-! ## mv -/

def look (f oldname : Bytes) (offset : Nat) : Except BootfsError (Option Nat) :=
  match readNode big FILENAME_MAX f offset with
  | .error e => .error e
  | .ok .none => .error .notFound
  | .ok .other | .ok .tooLong => .ok none
  | .ok (.entry name) => .ok (if nameString name = oldname then some name.length else none)

structure Entry where
  offset : Nat
  nsize : Nat
  deriving DecidableEq, Repr

def findEntry (f oldname : Bytes) : (n offset : Nat) → Except BootfsError Entry
  | 0, _ => .error .endless
  | n + 1, offset =>
    match look big f oldname offset with
    | .error e => .error e
    | .ok (some nsize) => .ok ⟨offset, nsize⟩
    | .ok none => findEntry f oldname n (offset + nodeStep big f offset)

/-- The file after the new name and its CRC were written.  There are `nsize` bytes in the
name, which may be more than the new one has. -/
def writeName (newname : CString) (f : Bytes) (e : Entry) : Bytes :=
  let name := slice newname.mem 0 e.nsize
  patch (patch f (e.offset + nameCrcOffset) (hostBytes big (imgCrc32 0 name)))
    (e.offset + direntSize) name

/-- `fseek(fp, -sizeof(struct bcm4908img_tail), SEEK_END)` and the write of the tail. -/
def writeTail (f : Bytes) (tail : Tail) : Bytes := patch f (f.length - tailSize) tail.bytes

def rename (newname : CString) (f : Bytes) (info : Info) (e : Entry) : Except BootfsError Bytes :=
  let crc := calcCrc32 (writeName big newname f e) info.cferomOffset info.tailOffset
  if crc.2 ≠ 0 then .error (.readLast crc.2)
  else .ok (writeTail (writeName big newname f e) { info.tail with crc32 := crc.1 })

def bootfsMv (argv : List CString) (f : Bytes) (info : Info) : Except BootfsError Bytes :=
  match argv with
  | oldname :: newname :: _ =>
    if newname.len ≠ oldname.len then .error .sameLength
    else
      match findEntry big f oldname.bytes f.length info.bootfsOffset with
      | .error e => .error e
      | .ok e => rename big newname f info e
  | _ => .error .arguments

def bootfs (argv : List CString) (f : Bytes) : Except BootfsError Bytes :=
  match parse f with
  | .error e => .error (.parse e)
  | .ok info => bootfsMv big argv f info

/-! ## Walks that end -/

def LsEnds (f : Bytes) (info : Info) : Prop :=
  ∃ n, lsLoop big f n info.bootfsOffset [] 0 ≠ .error .endless

def MvEnds (f : Bytes) (info : Info) (oldname : CString) : Prop :=
  ∃ n, findEntry big f oldname.bytes n info.bootfsOffset ≠ .error .endless

/-- Where a walk goes on from a node.  It does not if there is no node, if the node cannot be
read, or if it is the one that is looked for. -/
def nextNode (room : Nat) (found : Bytes → Bool) (f : Bytes) (offset : Nat) : Option Nat :=
  match readNode big room f offset with
  | .error _ | .ok .none => none
  | .ok .other | .ok .tooLong => some (offset + nodeStep big f offset)
  | .ok (.entry name) => if found name then none else some (offset + nodeStep big f offset)

def lsNext : Bytes → Nat → Option Nat := nextNode big (FILENAME_MAX + 1) fun _ => false

def mvNext (oldname : Bytes) : Bytes → Nat → Option Nat :=
  nextNode big FILENAME_MAX fun name => nameString name = oldname

/-- The length in the header of a node is zero, or becomes zero when it is rounded up. -/
def EmptyNode (f : Bytes) (offset : Nat) : Prop :=
  host big (fread f (offset + 4) 4) = 0 ∨ 4294967292 < host big (fread f (offset + 4) 4)

def MeetsEmpty (next : Bytes → Nat → Option Nat) (f : Bytes) (start : Nat) : Prop :=
  ∃ n offset, walk (next f) start n = some offset ∧ next f offset ≠ none ∧ EmptyNode big f offset

/-! ## What a rename may change -/

/-- The first entry with the old name, in the chain of nodes from an offset on. -/
inductive FirstEntry (f oldname : Bytes) : Nat → Entry → Prop where
  | here {offset nsize : Nat} (h : look big f oldname offset = .ok (some nsize)) :
      FirstEntry f oldname offset ⟨offset, nsize⟩
  | later {offset : Nat} {e : Entry} (h : look big f oldname offset = .ok none)
      (hrest : FirstEntry f oldname (offset + nodeStep big f offset) e) :
      FirstEntry f oldname offset e

/-- The parser accepts the new file with the same offsets, and it differs from the old one
in `name_crc` and `name` of the entry and in the checksum of the tail only. -/
structure Renames (f : Bytes) (info : Info) (e : Entry) (f' : Bytes) : Prop where
  accepted : ∃ crc tail, parse f' = .ok { info with crc32 := crc, tail := tail }
  length : f'.length = f.length
  only : ∀ i, f'[i]? ≠ f[i]? →
    e.offset + nameCrcOffset ≤ i ∧ i < e.offset + direntSize ∨
    e.offset + direntSize ≤ i ∧ i < e.offset + direntSize + e.nsize ∨
    info.tailOffset ≤ i ∧ i < info.tailOffset + 4

def Keeps (f : Bytes) (info : Info) (oldname newname : CString) (rest : List CString) : Prop :=
  ∀ f', bootfs big (oldname :: newname :: rest) f = .ok f' →
    ∃ e, FirstEntry big f oldname.bytes info.bootfsOffset e ∧ Renames f info e f'

end Host

end OpenWrt.Bcm4908img
