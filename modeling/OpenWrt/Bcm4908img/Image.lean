import Mathlib.Logic.Basic

/-!
# The BCM4908 image tool

`bcm4908img_create`, `bcm4908img_parse` and `bcm4908img_extract` of
`package/utils/bcm4908img`.  A file is the list of its bytes, and every loop over a file
reads pieces of at most 1024 bytes, as the source does.
-/

namespace OpenWrt.Bcm4908img

def WFI_VERSION : BitVec 32 := 0x00005732
def WFI_NAND128_FLASH : BitVec 32 := 3
def WFI_FLAG_SUPPORTS_BTRM : BitVec 32 := 0x2
def UBI_EC_HDR_MAGIC : Nat := 0x55424923
def JFFS2_MAGIC : Nat := 0x8519
def CHK_MAGIC : Nat := 0x2a23245e

def blockSize : Nat := 0x20000

def bufSize : Nat := 1024

/-- `sizeof(struct bcm4908img_tail)`. -/
def tailSize : Nat := 20

/-- `sizeof(struct linksys_tail)`. -/
def linksysSize : Nat := 256

abbrev Bytes := List UInt8

def crc32Tbl : List (BitVec 32) :=
  [
   0x00000000,0x77073096,0xee0e612c,0x990951ba,0x076dc419,0x706af48f,0xe963a535,0x9e6495a3,
   0x0edb8832,0x79dcb8a4,0xe0d5e91e,0x97d2d988,0x09b64c2b,0x7eb17cbd,0xe7b82d07,0x90bf1d91,
   0x1db71064,0x6ab020f2,0xf3b97148,0x84be41de,0x1adad47d,0x6ddde4eb,0xf4d4b551,0x83d385c7,
   0x136c9856,0x646ba8c0,0xfd62f97a,0x8a65c9ec,0x14015c4f,0x63066cd9,0xfa0f3d63,0x8d080df5,
   0x3b6e20c8,0x4c69105e,0xd56041e4,0xa2677172,0x3c03e4d1,0x4b04d447,0xd20d85fd,0xa50ab56b,
   0x35b5a8fa,0x42b2986c,0xdbbbc9d6,0xacbcf940,0x32d86ce3,0x45df5c75,0xdcd60dcf,0xabd13d59,
   0x26d930ac,0x51de003a,0xc8d75180,0xbfd06116,0x21b4f4b5,0x56b3c423,0xcfba9599,0xb8bda50f,
   0x2802b89e,0x5f058808,0xc60cd9b2,0xb10be924,0x2f6f7c87,0x58684c11,0xc1611dab,0xb6662d3d,
   0x76dc4190,0x01db7106,0x98d220bc,0xefd5102a,0x71b18589,0x06b6b51f,0x9fbfe4a5,0xe8b8d433,
   0x7807c9a2,0x0f00f934,0x9609a88e,0xe10e9818,0x7f6a0dbb,0x086d3d2d,0x91646c97,0xe6635c01,
   0x6b6b51f4,0x1c6c6162,0x856530d8,0xf262004e,0x6c0695ed,0x1b01a57b,0x8208f4c1,0xf50fc457,
   0x65b0d9c6,0x12b7e950,0x8bbeb8ea,0xfcb9887c,0x62dd1ddf,0x15da2d49,0x8cd37cf3,0xfbd44c65,
   0x4db26158,0x3ab551ce,0xa3bc0074,0xd4bb30e2,0x4adfa541,0x3dd895d7,0xa4d1c46d,0xd3d6f4fb,
   0x4369e96a,0x346ed9fc,0xad678846,0xda60b8d0,0x44042d73,0x33031de5,0xaa0a4c5f,0xdd0d7cc9,
   0x5005713c,0x270241aa,0xbe0b1010,0xc90c2086,0x5768b525,0x206f85b3,0xb966d409,0xce61e49f,
   0x5edef90e,0x29d9c998,0xb0d09822,0xc7d7a8b4,0x59b33d17,0x2eb40d81,0xb7bd5c3b,0xc0ba6cad,
   0xedb88320,0x9abfb3b6,0x03b6e20c,0x74b1d29a,0xead54739,0x9dd277af,0x04db2615,0x73dc1683,
   0xe3630b12,0x94643b84,0x0d6d6a3e,0x7a6a5aa8,0xe40ecf0b,0x9309ff9d,0x0a00ae27,0x7d079eb1,
   0xf00f9344,0x8708a3d2,0x1e01f268,0x6906c2fe,0xf762575d,0x806567cb,0x196c3671,0x6e6b06e7,
   0xfed41b76,0x89d32be0,0x10da7a5a,0x67dd4acc,0xf9b9df6f,0x8ebeeff9,0x17b7be43,0x60b08ed5,
   0xd6d6a3e8,0xa1d1937e,0x38d8c2c4,0x4fdff252,0xd1bb67f1,0xa6bc5767,0x3fb506dd,0x48b2364b,
   0xd80d2bda,0xaf0a1b4c,0x36034af6,0x41047a60,0xdf60efc3,0xa867df55,0x316e8eef,0x4669be79,
   0xcb61b38c,0xbc66831a,0x256fd2a0,0x5268e236,0xcc0c7795,0xbb0b4703,0x220216b9,0x5505262f,
   0xc5ba3bbe,0xb2bd0b28,0x2bb45a92,0x5cb36a04,0xc2d7ffa7,0xb5d0cf31,0x2cd99e8b,0x5bdeae1d,
   0x9b64c2b0,0xec63f226,0x756aa39c,0x026d930a,0x9c0906a9,0xeb0e363f,0x72076785,0x05005713,
   0x95bf4a82,0xe2b87a14,0x7bb12bae,0x0cb61b38,0x92d28e9b,0xe5d5be0d,0x7cdcefb7,0x0bdbdf21,
   0x86d3d2d4,0xf1d4e242,0x68ddb3f8,0x1fda836e,0x81be16cd,0xf6b9265b,0x6fb077e1,0x18b74777,
   0x88085ae6,0xff0f6a70,0x66063bca,0x11010b5c,0x8f659eff,0xf862ae69,0x616bffd3,0x166ccf45,
   0xa00ae278,0xd70dd2ee,0x4e048354,0x3903b3c2,0xa7672661,0xd06016f7,0x4969474d,0x3e6e77db,
   0xaed16a4a,0xd9d65adc,0x40df0b66,0x37d83bf0,0xa9bcae53,0xdebb9ec5,0x47b2cf7f,0x30b5ffe9,
   0xbdbdf21c,0xcabac28a,0x53b39330,0x24b4a3a6,0xbad03605,0xcdd70693,0x54de5729,0x23d967bf,
   0xb3667a2e,0xc4614ab8,0x5d681b02,0x2a6f2b94,0xb40bbe37,0xc30c8ea1,0x5a05df1b,0x2d02ef8d]

def imgCrc32 (crc : BitVec 32) (buf : Bytes) : BitVec 32 :=
  buf.foldl (fun crc b =>
    crc32Tbl.getD ((crc ^^^ BitVec.ofNat 32 b.toNat) &&& 0xff#32).toNat 0 ^^^ crc >>> 8) crc

/-- `fread` of `n` bytes from offset `off`, fewer at the end of the file. -/
def fread (f : Bytes) (off n : Nat) : Bytes := (f.drop off).take n

def be (bs : Bytes) : Nat := bs.foldl (fun n b => n * 256 + b.toNat) 0

def le32Bytes (x : BitVec 32) : Bytes :=
  [UInt8.ofNat x.toNat, UInt8.ofNat (x.toNat / 256), UInt8.ofNat (x.toNat / 65536),
    UInt8.ofNat (x.toNat / 16777216)]

def le32 (bs : Bytes) : BitVec 32 := BitVec.ofNat 32 (be bs.reverse)

/-- `struct bcm4908img_tail`, in the byte order of the machine. -/
structure Tail where
  crc32 : BitVec 32
  version : BitVec 32
  chipId : BitVec 32
  flashType : BitVec 32
  flags : BitVec 32
  deriving DecidableEq, Repr

def Tail.bytes (t : Tail) : Bytes :=
  le32Bytes t.crc32 ++ (le32Bytes t.version ++ (le32Bytes t.chipId ++
    (le32Bytes t.flashType ++ le32Bytes t.flags)))

def Tail.ofBytes (bs : Bytes) : Tail :=
  ⟨le32 (fread bs 0 4), le32 (fread bs 4 4), le32 (fread bs 8 4), le32 (fread bs 12 4),
    le32 (fread bs 16 4)⟩

/-- `while (length && (bytes = fread(buf, 1, min(sizeof(buf), length), fp)) > 0)` with `n`
rounds left: the state after `body` saw every piece, and the length not read. -/
def readLoop {σ : Type} (body : σ → Bytes → σ) (f : Bytes) :
    (n off length : Nat) → σ → σ × Nat
  | 0, _, length, st => (st, length)
  | n + 1, off, length, st =>
    if length = 0 then (st, length)
    else if (fread f off (min bufSize length)).length = 0 then (st, length)
    else
      readLoop body f n (off + (fread f off (min bufSize length)).length)
        (length - (fread f off (min bufSize length)).length)
        (body st (fread f off (min bufSize length)))

/-! ## Parser -/

inductive ParseError where
  | readHeader
  | readJffs2
  | noBootfs
  | readBytes (length : Nat)
  | noRootfs
  | readLast (length : Nat)
  | readTail
  | invalidCrc32 (crc32 tail : BitVec 32)
  deriving DecidableEq, Repr

structure Info where
  cferomOffset : Nat
  bootfsOffset : Nat
  paddingOffset : Nat
  rootfsOffset : Nat
  tailOffset : Nat
  crc32 : BitVec 32
  tail : Tail
  deriving DecidableEq, Repr

/-- The offset behind a Netgear header. -/
def parseCferom (f : Bytes) : Nat :=
  if be (fread f 0 4) = CHK_MAGIC then be (fread f 4 4) else 0

def linksysMagic : Bytes := [0x2e, 0x4c, 0x49, 0x4e, 0x4b, 0x53, 0x59, 0x53, 0x2e]

def parseTailOffset (f : Bytes) : Nat :=
  if fread f (f.length - linksysSize) 9 = linksysMagic then f.length - tailSize - linksysSize
  else f.length - tailSize

def findBootfs (f : Bytes) (tailOffset : Nat) : (n off : Nat) → Except ParseError Nat
  | 0, off => .ok off
  | n + 1, off =>
    if off < tailOffset then
      if (fread f off 2).length ≠ 2 then .error .readJffs2
      else if be (fread f off 2) = JFFS2_MAGIC then .ok off
      else findBootfs f tailOffset n (off + blockSize)
    else .ok off

def isAllFf (bs : Bytes) : Bool := bs.all fun b => b = 0xff

/-- The search for the rootfs, which notes the first block that starts with padding. -/
def findRootfs (f : Bytes) (tailOffset : Nat) :
    (n off paddingOffset : Nat) → Except ParseError (Nat × Nat)
  | 0, off, paddingOffset => .ok (off, paddingOffset)
  | n + 1, off, paddingOffset =>
    if off < tailOffset then
      let length := if paddingOffset ≠ 0 then 4 else 256
      if (fread f off length).length ≠ length then .error (.readBytes length)
      else
        let padding :=
          if paddingOffset = 0 ∧ isAllFf (fread f off length) = true then off else paddingOffset
        if be ((fread f off length).take 4) = UBI_EC_HDR_MAGIC then .ok (off, padding)
        else findRootfs f tailOffset n (off + blockSize) padding
    else .ok (off, paddingOffset)

def calcCrc32 (f : Bytes) (cferomOffset tailOffset : Nat) : BitVec 32 × Nat :=
  readLoop imgCrc32 f (tailOffset - cferomOffset) cferomOffset (tailOffset - cferomOffset)
    0xffffffff

def parse (f : Bytes) : Except ParseError Info :=
  if f.length < bufSize then .error .readHeader
  else
    match findBootfs f (parseTailOffset f) (parseTailOffset f) (parseCferom f) with
    | .error e => .error e
    | .ok bootfsOffset =>
      if bootfsOffset ≥ parseTailOffset f then .error .noBootfs
      else
        match findRootfs f (parseTailOffset f) (parseTailOffset f) bootfsOffset 0 with
        | .error e => .error e
        | .ok (rootfsOffset, paddingOffset) =>
          if rootfsOffset ≥ parseTailOffset f then .error .noRootfs
          else
            let crc := calcCrc32 f (parseCferom f) (parseTailOffset f)
            let tail := Tail.ofBytes (fread f (parseTailOffset f) tailSize)
            if crc.2 ≠ 0 then .error (.readLast crc.2)
            else if (fread f (parseTailOffset f) tailSize).length ≠ tailSize then
              .error .readTail
            else if crc.1 ≠ tail.crc32 then .error (.invalidCrc32 crc.1 tail.crc32)
            else
              .ok ⟨parseCferom f, bootfsOffset, paddingOffset, rootfsOffset,
                parseTailOffset f, crc.1, tail⟩

/-! ## Create -/

/-- The arguments of `create`: `-f` with the content of the file, `-a` and `-A`. -/
inductive Arg where
  | file (content : Bytes)
  | align (alignment : Nat)
  | pad (size : Nat)

structure Created where
  out : Bytes
  crc32 : BitVec 32
  curOffset : Nat

def appendFile : (n : Nat) → (content : Bytes) → Created → Created
  | 0, _, s => s
  | n + 1, content, s =>
    if (content.take bufSize).length = 0 then s
    else
      appendFile n (content.drop bufSize)
        ⟨s.out ++ content.take bufSize, imgCrc32 s.crc32 (content.take bufSize),
          s.curOffset + (content.take bufSize).length⟩

/-- The checksum is not told of the zeros. -/
def appendZeros (length : Nat) (s : Created) : Created :=
  { s with out := s.out ++ List.replicate length 0, curOffset := s.curOffset + length }

def Arg.run (s : Created) : Arg → Option Created
  | .file content => some (appendFile content.length content s)
  | .align alignment =>
    if alignment = 0 then if s.curOffset = 0 then some s else none
    else if s.curOffset &&& (alignment - 1) ≠ 0 then
      some (appendZeros (alignment - s.curOffset % alignment) s)
    else some s
  | .pad size => if size < s.curOffset then none else some (appendZeros (size - s.curOffset) s)

def createContent (args : List Arg) : Option Created :=
  args.foldlM Arg.run ⟨[], 0xffffffff, 0⟩

def createTail (s : Created) : Tail :=
  ⟨s.crc32, WFI_VERSION, 0x4908, WFI_NAND128_FLASH, WFI_FLAG_SUPPORTS_BTRM⟩

def Created.image (s : Created) : Bytes := s.out ++ (createTail s).bytes

/-! ## Extract -/

inductive Part where
  | cferom
  | bootfs
  | rootfs
  | firmware
  deriving DecidableEq, Repr

inductive ExtractError where
  | parse (e : ParseError)
  | noCferom
  | noData
  | readLast (length : Nat)
  deriving DecidableEq, Repr

def Info.range (info : Info) : Part → Nat × Nat
  | .cferom => (info.cferomOffset, info.bootfsOffset - info.cferomOffset)
  | .bootfs =>
    (info.bootfsOffset,
      (if info.paddingOffset ≠ 0 then info.paddingOffset else info.rootfsOffset) -
        info.bootfsOffset)
  | .rootfs => (info.rootfsOffset, info.tailOffset - info.rootfsOffset)
  | .firmware => (info.bootfsOffset, info.tailOffset - info.bootfsOffset)

def extract (type : Part) (f : Bytes) : Except ExtractError Bytes :=
  match parse f with
  | .error e => .error (.parse e)
  | .ok info =>
    let range := info.range type
    if range.2 = 0 then .error (if type = .cferom then .noCferom else .noData)
    else
      let out := readLoop (fun out buf => out ++ buf) f range.2 range.1 range.2 []
      if out.2 ≠ 0 then .error (.readLast out.2) else .ok out.1

end OpenWrt.Bcm4908img
