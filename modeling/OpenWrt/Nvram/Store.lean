import Mathlib
import OpenWrt.Lib.Buffer
import OpenWrt.Lib.HashTable

/-!
# The NVRAM store

Model of `package/utils/nvram/src`: the variables of a handle in a hash table of
257 chains, and the partition, mapped into memory, that `nvram_commit` writes
them to and `nvram_open` reads them from.  `malloc`, `open` and `mmap` are taken
to succeed; offsets count from the start of the mapping.
-/

namespace OpenWrt.Nvram

open Lib List

/-! ## C strings and numbers -/

def CString := { s : List UInt8 // (0 : UInt8) ∉ s }
  deriving DecidableEq

def CString.bytes (s : CString) : List UInt8 := s.val

def CString.length (s : CString) : Nat := s.bytes.length

/-- What the package is compiled for: bcm47xx (signed `char`, little endian),
bcm53xx (unsigned, little endian) or ath79 (signed, big endian). -/
structure Target where
  charSigned : Bool
  bigEndian : Bool
  ulongBits : Nat

def isSpace (c : UInt8) : Bool := c == 32 || (9 ≤ c && c ≤ 13)

def digitValue (c : UInt8) : Nat :=
  if 48 ≤ c ∧ c ≤ 57 then c.toNat - 48
  else if 97 ≤ c ∧ c ≤ 122 then c.toNat - 87
  else if 65 ≤ c ∧ c ≤ 90 then c.toNat - 55
  else 255

def strtoulDigits (base : Nat) : List UInt8 → Nat → Nat
  | [], n => n
  | c :: s, n => if digitValue c < base then strtoulDigits base s (n * base + digitValue c) else n

def strtoul (target : Target) (s : CString) : Nat :=
  let s := s.bytes.dropWhile isSpace
  let (negative, s) :=
    match s with
    | 45 :: s => (true, s)
    | 43 :: s => (false, s)
    | s => (false, s)
  let (base, s) :=
    match s with
    | 48 :: x :: d :: s =>
      if (x = 120 ∨ x = 88) ∧ digitValue d < 16 then (16, d :: s) else (8, x :: d :: s)
    | 48 :: s => (8, s)
    | s => (10, s)
  let n := strtoulDigits base s 0
  if n ≥ 2 ^ target.ulongBits then 2 ^ target.ulongBits - 1
  else if negative then (2 ^ target.ulongBits - n) % 2 ^ target.ulongBits
  else n

def hexDigit (n : Nat) : UInt8 := if n < 10 then UInt8.ofNat (48 + n) else UInt8.ofNat (55 + n)

/-- `0x%04X` and `0x%08X` of a number of that many digits. -/
def hexString (digits n : Nat) : List UInt8 :=
  ascii "0x" ++ (range digits).reverse.map fun i => hexDigit (n / 16 ^ i % 16)

theorem hexDigit_ne_zero {n : Nat} (h : n < 16) : hexDigit n ≠ 0 := by
  revert n
  decide

theorem zero_notMem_hexString (digits n : Nat) : (0 : UInt8) ∉ hexString digits n := by
  simp only [hexString, mem_append, not_or, mem_map, mem_reverse, mem_range]
  refine ⟨by decide, ?_⟩
  rintro ⟨i, -, h⟩
  exact hexDigit_ne_zero (Nat.mod_lt _ (by decide)) h

def sprintfHex (digits n : Nat) : CString := ⟨hexString digits n, zero_notMem_hexString digits n⟩

/-! ## The CRC -/

def crc8Table : Array UInt8 := #[
    0x00, 0xf7, 0xb9, 0x4e, 0x25, 0xd2, 0x9c, 0x6b, 0x4a, 0xbd, 0xf3, 0x04, 0x6f, 0x98, 0xd6, 0x21,
    0x94, 0x63, 0x2d, 0xda, 0xb1, 0x46, 0x08, 0xff, 0xde, 0x29, 0x67, 0x90, 0xfb, 0x0c, 0x42, 0xb5,
    0x7f, 0x88, 0xc6, 0x31, 0x5a, 0xad, 0xe3, 0x14, 0x35, 0xc2, 0x8c, 0x7b, 0x10, 0xe7, 0xa9, 0x5e,
    0xeb, 0x1c, 0x52, 0xa5, 0xce, 0x39, 0x77, 0x80, 0xa1, 0x56, 0x18, 0xef, 0x84, 0x73, 0x3d, 0xca,
    0xfe, 0x09, 0x47, 0xb0, 0xdb, 0x2c, 0x62, 0x95, 0xb4, 0x43, 0x0d, 0xfa, 0x91, 0x66, 0x28, 0xdf,
    0x6a, 0x9d, 0xd3, 0x24, 0x4f, 0xb8, 0xf6, 0x01, 0x20, 0xd7, 0x99, 0x6e, 0x05, 0xf2, 0xbc, 0x4b,
    0x81, 0x76, 0x38, 0xcf, 0xa4, 0x53, 0x1d, 0xea, 0xcb, 0x3c, 0x72, 0x85, 0xee, 0x19, 0x57, 0xa0,
    0x15, 0xe2, 0xac, 0x5b, 0x30, 0xc7, 0x89, 0x7e, 0x5f, 0xa8, 0xe6, 0x11, 0x7a, 0x8d, 0xc3, 0x34,
    0xab, 0x5c, 0x12, 0xe5, 0x8e, 0x79, 0x37, 0xc0, 0xe1, 0x16, 0x58, 0xaf, 0xc4, 0x33, 0x7d, 0x8a,
    0x3f, 0xc8, 0x86, 0x71, 0x1a, 0xed, 0xa3, 0x54, 0x75, 0x82, 0xcc, 0x3b, 0x50, 0xa7, 0xe9, 0x1e,
    0xd4, 0x23, 0x6d, 0x9a, 0xf1, 0x06, 0x48, 0xbf, 0x9e, 0x69, 0x27, 0xd0, 0xbb, 0x4c, 0x02, 0xf5,
    0x40, 0xb7, 0xf9, 0x0e, 0x65, 0x92, 0xdc, 0x2b, 0x0a, 0xfd, 0xb3, 0x44, 0x2f, 0xd8, 0x96, 0x61,
    0x55, 0xa2, 0xec, 0x1b, 0x70, 0x87, 0xc9, 0x3e, 0x1f, 0xe8, 0xa6, 0x51, 0x3a, 0xcd, 0x83, 0x74,
    0xc1, 0x36, 0x78, 0x8f, 0xe4, 0x13, 0x5d, 0xaa, 0x8b, 0x7c, 0x32, 0xc5, 0xae, 0x59, 0x17, 0xe0,
    0x2a, 0xdd, 0x93, 0x64, 0x0f, 0xf8, 0xb6, 0x41, 0x60, 0x97, 0xd9, 0x2e, 0x45, 0xb2, 0xfc, 0x0b,
    0xbe, 0x49, 0x07, 0xf0, 0x9b, 0x6c, 0x22, 0xd5, 0xf4, 0x03, 0x4d, 0xba, 0xd1, 0x26, 0x68, 0x9f]

def crcByte (crc b : UInt8) : UInt8 := crc8Table.getD (crc ^^^ b).toNat 0

def hndcrc8 (pdata : List UInt8) (crc : UInt8) : UInt8 := pdata.foldl crcByte crc

/-! ## Variables -/

abbrev Tuple := CString × CString

abbrev Tuples := Table (Fin 257) CString CString

/-- Address of a mapping: `mmap` returns whole pages. -/
structure MapAddr where
  addr : Nat
  page : addr % 4096 = 0

/-- `struct nvram_handle`.  `length` is the partition size, also in the global
`nvram_part_size`. -/
structure Handle where
  length : Nat
  offset : Nat
  addr : MapAddr
  mmap : Buffer
  nvramHash : Tuples
  nvramDead : List Tuple

def hash (target : Target) (s : CString) : UInt32 :=
  s.bytes.foldl (fun hash c =>
    31 * hash + (if target.charSigned then UInt32.ofInt c.toInt8.toInt else c.toUInt32)) 0

/-- `NVRAM_ARRAYSIZE` has no parentheses around its quotient, so that the hash is reduced by
the size of the array in bytes.  Pointers are as wide as `unsigned long`. -/
def bucket (target : Target) (name : CString) : Fin 257 :=
  let ptr := target.ulongBits / 8
  ⟨(hash target name).toNat % (ptr * 257) / ptr, by
    rcases Nat.eq_zero_or_pos ptr with h | h
    · rw [h, Nat.div_zero]
      decide
    · exact Nat.div_lt_of_lt_mul (Nat.mod_lt _ (Nat.mul_pos h (by decide)))⟩

def nvramGet (target : Target) (h : Handle) (name : CString) : Option CString :=
  Table.get (bucket target) h.nvramHash name

/-- `nvram_set`.  `_nvram_realloc` refuses a value that is longer than the store and
gives a known tuple its new value in place, so that the tuple is never moved to the
dead list here. -/
def nvramSet (target : Target) (h : Handle) (name value : CString) : Int × Handle :=
  if value.length + 1 > h.length - h.offset then (-12, h)
  else (0, { h with nvramHash := Table.put (bucket target) h.nvramHash name value })

def nvramUnset (target : Target) (h : Handle) (name : CString) : Int × Handle :=
  match nvramGet target h name with
  | none => (0, h)
  | some value =>
    (0, { h with
      nvramHash := Table.del (bucket target) h.nvramHash name
      nvramDead := (name, value) :: h.nvramDead })

def Handle.tuples (h : Handle) : List Tuple := Table.tuples (finRange 257) h.nvramHash

/-! ## Reading the image -/

def NVRAM_MIN_SPACE : Nat := 0x8000
def NVRAM_MAGIC : Nat := 0x48534C46
def NVRAM_VERSION : Nat := 1
def NVRAM_CRC_START_POSITION : Nat := 9

/-- Size of `struct nvram_header`: magic, len, crc_ver_init, config_refresh, config_ncdl. -/
def headerSize : Nat := 20

/-- A variable of the image, with the offset of its `=`. -/
structure Parsed where
  eq : Nat
  name : CString
  value : CString

def splitVar (s : CString) : CString × CString :=
  (⟨s.bytes.takeWhile (· ≠ 61), fun h => s.property ((takeWhile_sublist _).mem h)⟩,
    ⟨(s.bytes.dropWhile (· ≠ 61)).tail,
      fun h => s.property ((dropWhile_sublist _).mem (mem_of_mem_tail h))⟩)

/-- The string at the head of `l` and what follows its NUL. -/
def cstring (l : List UInt8) : Option (CString × List UInt8) :=
  match l.dropWhile (· ≠ 0) with
  | [] => none
  | _ :: rest => some (⟨l.takeWhile (· ≠ 0), fun h => by simpa using mem_takeWhile_imp h⟩, rest)

/-- The loop of `_nvram_rehash` over `name=value` strings at offset `pos`; nothing
when it runs off the mapping. -/
def parseVars : (fuel pos : Nat) → List UInt8 → Option (List Parsed)
  | 0, _, _ => none
  | fuel + 1, pos, l =>
    match cstring l with
    | none => none
    | some (s, rest) =>
      if s.bytes = [] then some []
      else if 61 ∉ s.bytes then some []
      else
        let (name, value) := splitVar s
        (parseVars fuel (pos + s.length + 1) rest).map
          ({ eq := pos + name.length, name := name, value := value } :: ·)

def sdramInit : CString := ⟨ascii "sdram_init", by decide⟩
def sdramConfig : CString := ⟨ascii "sdram_config", by decide⟩
def sdramRefresh : CString := ⟨ascii "sdram_refresh", by decide⟩
def sdramNcdl : CString := ⟨ascii "sdram_ncdl", by decide⟩

def setDefault (target : Target) (h : Handle) (name value : CString) : Handle :=
  if (nvramGet target h name).isNone then (nvramSet target h name value).2 else h

/-- `_nvram_rehash`: the handle, and the bytes written while the strings were split. -/
def nvramRehash (target : Target) (h : Handle) : Option (Handle × List (Nat × Nat)) :=
  let header := h.offset
  let crcVerInit := word target.bigEndian h.mmap (header + 8)
  let configRefresh := word target.bigEndian h.mmap (header + 12)
  let configNcdl := word target.bigEndian h.mmap (header + 16)
  let data := slice h.mmap (header + headerSize) (h.length - (header + headerSize))
  let h := { h with nvramHash := Table.empty, nvramDead := [] }
  (parseVars (data.length + 1) (header + headerSize) data).map fun vars =>
    let h := vars.foldl (fun h v => (nvramSet target h v.name v.value).2) h
    let h := setDefault target h sdramInit (sprintfHex 4 (crcVerInit / 2 ^ 16))
    let h := setDefault target h sdramConfig (sprintfHex 4 (configRefresh % 2 ^ 16))
    let h := setDefault target h sdramRefresh (sprintfHex 4 (configRefresh / 2 ^ 16))
    let h := setDefault target h sdramNcdl (sprintfHex 8 configNcdl)
    (h, vars.flatMap fun v => [(v.eq, 1), (v.eq, 1)])

/-- Number of words `nvram_open` looks at for the magic; the subtraction is on
32-bit unsigned numbers. -/
def scanWords (partSize : Nat) : Nat :=
  (if NVRAM_MIN_SPACE ≤ partSize then partSize - NVRAM_MIN_SPACE
    else 2 ^ 32 - (NVRAM_MIN_SPACE - partSize)) / 4 + 1

def findMagic (target : Target) (partSize : Nat) (file : Buffer) : Option Nat :=
  (range (min (scanWords partSize) (partSize / 4))).find? fun i =>
    word target.bigEndian file (i * 4) = NVRAM_MAGIC

def nvramOpen (target : Target) (partSize : Nat) (addr : MapAddr) (file : Buffer) (rdonly : Bool) :
    Option Handle :=
  match findMagic target partSize file with
  | none => none
  | some i =>
    let h : Handle :=
      { length := partSize
        offset := i * 4
        addr := addr
        mmap := file
        nvramHash := Table.empty
        nvramDead := [] }
    let magic := word target.bigEndian file h.offset
    let len := word target.bigEndian file (h.offset + 4)
    if magic = NVRAM_MAGIC ∧ (rdonly = true ∨ len < h.length - h.offset) then
      (nvramRehash target h).map Prod.fst
    else none

/-! ## Writing the image -/

def SDRAM_INIT : Nat := 0x419
def SDRAM_CONFIG : Nat := 0
def SDRAM_REFRESH : Nat := 0x40 ||| 0x8000

structure Mem where
  bytes : Buffer
  writes : List (Nat × Nat)

def Mem.store (m : Mem) (off : Nat) (bs : List UInt8) : Mem where
  bytes := storeBytes m.bytes off bs
  writes := (off, bs.length) :: m.writes

/-- The last three words of the header, without the CRC. -/
structure SdramWords where
  crcVerInit : Nat
  configRefresh : Nat
  configNcdl : Nat

/-- The header words that `nvram_commit` makes of the four `sdram_*` variables. -/
def sdramWords (target : Target) (h : Handle) : SdramWords :=
  match nvramGet target h sdramInit, nvramGet target h sdramConfig,
      nvramGet target h sdramRefresh, nvramGet target h sdramNcdl with
  | some init, some config, some refresh, some ncdl =>
    { crcVerInit := NVRAM_VERSION * 2 ^ 8 + strtoul target init % 2 ^ 16 * 2 ^ 16
      configRefresh := strtoul target config % 2 ^ 16 + strtoul target refresh % 2 ^ 16 * 2 ^ 16
      configNcdl := strtoul target ncdl % 2 ^ 32 }
  | _, _, _, _ =>
    { crcVerInit := NVRAM_VERSION * 2 ^ 8 + SDRAM_INIT * 2 ^ 16
      configRefresh := SDRAM_CONFIG + SDRAM_REFRESH * 2 ^ 16
      configNcdl := 0 }

def varBytes (t : Tuple) : List UInt8 := t.1.bytes ++ 61 :: t.2.bytes ++ [0]

def writeChain (fin : Nat) : List Tuple → Mem × Nat → Mem × Nat
  | [], s => s
  | t :: ts, (m, ptr) =>
    if ptr + t.1.length + 1 + t.2.length + 1 > fin then (m, ptr)
    else writeChain fin ts (m.store ptr (varBytes t), ptr + (varBytes t).length)

def writeTuples (fin : Nat) (h : Handle) (s : Mem × Nat) : Mem × Nat :=
  (finRange 257).foldl (fun s i => writeChain fin (h.nvramHash i) s) s

/-- `(int)ptr % 4` of a 32-bit pointer. -/
@[irreducible] def ptrRem (addr : MapAddr) (ptr : Nat) : Int :=
  (Int.bmod (addr.addr + ptr) (2 ^ 32)).tmod 4

def roundup (x y : Nat) : Nat := (x + (y - 1)) / y * y

structure Commit where
  ret : Int
  handle : Handle
  writes : List (Nat × Nat)

def commitImage (target : Target) (h : Handle) : Mem :=
  let header := h.offset
  let w := sdramWords target h
  let m : Mem := ⟨h.mmap, []⟩
  let m := m.store header (wordBytes target.bigEndian NVRAM_MAGIC)
  let m := m.store (header + 8) (wordBytes target.bigEndian w.crcVerInit)
  let m := m.store (header + 12) (wordBytes target.bigEndian w.configRefresh)
  let m := m.store (header + 16) (wordBytes target.bigEndian w.configNcdl)
  -- Clear the data area, leave space for a double NUL at the end.
  let ptr := header + headerSize
  let m := m.store ptr (replicate (h.length - h.offset - headerSize) 0xff)
  let (m, ptr) := writeTuples (h.length - 2) h (m, ptr)
  -- End with a NUL and pad to 4 bytes; the remainder has the sign of the pointer.
  let m := m.store ptr [0]
  let ptr := ptr + 1
  let rem := ptrRem h.addr ptr
  let m := if rem ≠ 0 then m.store ptr (replicate (4 - rem).toNat 0) else m
  let ptr := ptr + 1
  let len := roundup (ptr - header) 4
  let m := m.store (header + 4) (wordBytes target.bigEndian len)
  let tmp := replicate 8 0 ++ wordBytes target.bigEndian w.crcVerInit ++
    wordBytes target.bigEndian w.configRefresh ++ wordBytes target.bigEndian w.configNcdl
  let crc := hndcrc8 (tmp.drop NVRAM_CRC_START_POSITION) 0xff
  let crc := hndcrc8 (slice m.bytes (header + headerSize) (len - headerSize)) crc
  m.store (header + 8) (wordBytes target.bigEndian (w.crcVerInit ||| crc.toNat))

def nvramCommit (target : Target) (h : Handle) : Option Commit :=
  let m := commitImage target h
  (nvramRehash target { h with mmap := m.bytes }).map fun r =>
    { ret := 0
      handle := r.1
      writes := r.2 ++ m.writes }

/-- The two CRCs that `nvram info` shows: the stored one and the calculated one. -/
def infoCrc (target : Target) (h : Handle) : UInt8 × UInt8 :=
  let len := word target.bigEndian h.mmap (h.offset + 4)
  (UInt8.ofNat (word target.bigEndian h.mmap (h.offset + 8)),
    hndcrc8 (slice h.mmap (h.offset + NVRAM_CRC_START_POSITION) (len - NVRAM_CRC_START_POSITION))
      0xff)

end OpenWrt.Nvram
