import OpenWrt.RouterBoot.Rle

/-!
# Calibration data in the hardware configuration

`hc_wlan_data_unpack` of `drivers/platform/mikrotik/rb_hardconfig.c`, with its ERD and LZOR
variants.  `hc` is the copy of the partition in `hc_buf`; the output buffer has `outlen` bytes,
and so has the temporary buffer.
-/

namespace OpenWrt.RouterBoot

open Lib

def EIO : Int := 5
def ENOMEM : Int := 12
def EFBIG : Int := 27
def ENODATA : Int := 61

def LZO_E_INPUT_NOT_CONSUMED : Int := - 8

def RB_MAGIC_LZOR : Nat := 0x524F5A4C

def RB_MAGIC_ERD : Nat := 0x00455244

def RB_ART_SIZE : Nat := 0x10000

def RB_WLAN_ERD_ID_SOLO : Nat := 0x0001

/-- `lzo1x_decompress_safe`: return value, number of bytes and the output buffer, for an input
and the size of the output buffer. -/
structure Lzo where
  run : List UInt8 → Nat → Int × Nat × Buffer
  short : ∀ input room, (run input room).2.1 ≤ room

structure Kernel where
  w : SizeT
  big : Bool
  memory : Bool
  lzo : Lzo

structure Unpacked where
  ret : Int
  outlen : Nat
  out : Buffer

def hcLzorPrefix : List UInt8 :=
  [0,5,0x4c,0x4c,0x44,0,0x34,0xfe,0xfe,0x34,0x11,0x3c,0x1e,0x3c,0x2e,0x3c,0x4c,0x34,0,0x52,0x62,
   0x92,0xa2,0xb2,0xc3,0x2a,0x14,0,0,5,0xfe,0x6a,0x3c,0x16,0x32,0x16,0x11,0x1e,0x12,0x46,0x32,0x46,
   0x11,0x4e,0x12,0x36,0x32,0x36,0x11,0x3e,0x12,0x5a,0x9a,0x64,0,4,0xfe,0x10,0x3c,0,1,0,0,0x28,0x0c,
   0,0x0f,0xfe,0x14,0,0x24,0x24,0x23,0x24,0x24,0x23,0x25,0x22,0x21,0x21,0x23,0x22,0x21,0x22,0x21,
   0x2d,0x38,0,0x0c,0x25,0x25,0x24,0x25,0x25,0x24,0x23,0x22,0x21,0x20,0x23,0x21,0x21,0x22,0x21,0x2d,
   0x38,0,0x28,0xb0,0,0,0x22,0,0,0xc0,0xfe,3,0,0xc0,0,0x62,0xff,0x62,0xff,0xfe,6,0,0xbb,0xff,0xba,
   0xff,0xfe,8,0,0x9e,0xff,0xfe,0x0a,0,0x53,0xff,0xfe,2,0,0x20,0xff,0xb1,0xfe,0xfe,0xb2,0xfe,0xfe,
   0xed,0xfe,0xfe,0xfe,4,0,0x3a,0xff,0x3a,0xff,0xde,0xfd,0x5f,4,0x33,0xff,0x4c,0x74,3,5,5,0xff,0x6d,
   0xfe,0xfe,0x6d,0xfe,0xfe,0xaf,8,0x63,0xff,0x64,0x6f,8,0xac,0xff,0xbf,0x6d,8,0x7a,0x6d,8,0x96,
   0x74,4,0,8,0x79,0xff,0xda,0xfe,0xfe,0xdb,0xfe,0xfe,0x56,0xff,0xfe,4,0,0x5e,0xff,0x5e,0xff,0x6c,
   0xfe,0xfe,0xfe,6,0,0x41,0xff,0x7f,0x74,3,0,0x11,0x44,0xff,0xa9,0xfe,0xfe,0xa9,0xfe,0xfe,0xa5,
   0x8f,1,0,8,1,1,2,4,8,2,4,8,8,1,1,0xfe,0x22,0,0x4c,0x60,0x64,0x8c,0x90,0xd0,0xd4,0xd8,0x5c,0x10,9,
   0xd8,0xff,0xb0,0xff,0,0,0xba,0xff,0x14,0,0xba,0xff,0x64,0,0,8,0xfe,6,0,0x74,0xff,0x42,0xff,0xce,
   0xff,0x60,0xff,0x0a,0,0xb4,0,0xa0,0,0xa0,0xfe,7,0,0x0a,0,0xb0,0xff,0x96,0x4d,0,0x56,0x57,0x18,
   0xa6,0xff,0x92,0x70,0x11,0,0x12,0x90,0x90,0x76,0x5a,0x54,0x54,0x4c,0x46,0x38,0,0x10,0x10,8,0xfe,
   5,0,0x38,0x29,0x25,0x23,0x22,0x22,0x1f,0,0,0,0xf6,0xe1,0xdd,0xf8,0xfe,0,0xfe,0x15,0,0,0xd0,2,
   0x74,2,8,0xf8,0xe5,0xde,2,4,4,0xfd,0,0,0,7,0x50,0x2d,1,0x90,0x90,0x76,0x60,0xb0,7,7,0x0c,0x0c,4,
   0xfe,5,0,0x66,0x66,0x5a,0x56,0xbc,1,6,0xfc,0xfc,0xf1,0xfe,7,0,0x24,0x95,0x70,0x64,0x18,6,0x2c,
   0xff,0xb5,0xfe,0xfe,0xb5,0xfe,0xfe,0xe2,0x8c,0x24,2,0x2f,0xff,0x2f,0xff,0xb4,0x78,2,5,0x73,0xff,
   0xed,0xfe,0xfe,0x4f,0xff,0x36,0x74,0x1e,9,0x4f,0xff,0x50,0xff,0xfe,0x16,0,0x70,0xac,0x70,0x8e,
   0xac,0x40,0x0e,1,0x70,0x7f,0x8e,0xac,0x6c,0,0x0b,0xfe,2,0,0xfe,0x0a,0x2c,0x2a,0x2a,0x28,0x26,
   0x1e,0x1e,0xfe,2,0x20,0x65,0x20,0,0,5,0x12,0,0x11,0x1e,0x11,0x11,0x41,0x1e,0x41,0x11,0x31,0x1e,
   0x31,0x11,0x70,0x75,0x7a,0x7f,0x84,0x89,0x8e,0x93,0x98,0x30,0x20,0,2,0,0xfe,6,0x3c,0xbc,0x32,
   0x0c,0,0,0x2a,0x12,0x1e,0x12,0x2e,0x12,0xcc,0x12,0x11,0x1a,0x1e,0x1a,0x2e,0x1a,0x4c,0x10,0x1e,
   0x10,0x11,0x18,0x1e,0x42,0x1e,0x42,0x2e,0x42,0xcc,0x42,0x11,0x4a,0x1e,0x4a,0x2e,0x4a,0x4c,0x40,
   0x1e,0x40,0x11,0x48,0x1e,0x32,0x1e,0x32,0x2e,0x32,0xcc,0x32,0x11,0x3a,0x1e,0x3a,0x2e,0x3a,0x4c,
   0x30,0x1e,0x30,0x11,0x38,0x1e,0x27,0x9a,1,0x9d,0xa2,0x2f,0x28,0,0,0x46,0xde,0xc4,0xbf,0xa6,0x9d,
   0x81,0x7b,0x5c,0x61,0x40,0xc7,0xc0,0xae,0xa9,0x8c,0x83,0x6a,0x62,0x50,0x3e,0xce,0xc2,0xae,0xa3,
   0x8c,0x7b,0x6a,0x5a,0x50,0x35,0xd7,0xc2,0xb7,0xa4,0x95,0x7e,0x72,0x5a,0x59,0x37,0xfe,2,0xf8,0x8c,
   0x95,0x90,0x8f,0,0xd7,0xc0,0xb7,0xa2,0x95,0x7b,0x72,0x56,0x59,0x32,0xc7,0xc3,0xae,0xad,0x8c,0x85,
   0x6a,0x63,0x50,0x3e,0xce,0xc3,0xae,0xa4,0x8c,0x7c,0x6a,0x59,0x50,0x34,0xd7,0xc2,0xb7,0xa5,0x95,
   0x7e,0x72,0x59,0x59,0x36,0xfc,5,0,2,0xce,0xc5,0xae,0xa5,0x95,0x83,0x72,0x5c,0x59,0x36,0xbf,0xc6,
   0xa5,0xab,0x8c,0x8c,0x6a,0x67,0x50,0x41,0x64,7,0,2,0x95,0x8c,0x72,0x65,0x59,0x3f,0xce,0xc7,0xae,
   0xa8,0x95,0x86,0x72,0x5f,0x59,0x39,0xfe,2,0xf8,0x8b,0x7c,0x0b,9,0xb7,0xc2,0x9d,0xa4,0x83,0x85,
   0x6a,0x6b,0x50,0x44,0xb7,0xc1,0x64,1,0,6,0x61,0x5d,0x48,0x3d,0xae,0xc4,0x9d,0xad,0x7b,0x85,0x61,
   0x66,0x48,0x46,0xae,0xc3,0x95,0xa3,0x72,0x7c,0x59,0x56,0x38,0x31,0x7c,0x0b,0,0x0c,0x96,0x91,0x8f,
   0,0xb7,0xc0,0xa5,0xab,0x8c,0x8a,0x6a,0x64,0x50,0x3c,0xb7,0xc0,0x9d,0xa0,0x83,0x80,0x6a,0x64,0x50,
   0x3d,0xb7,0xc5,0x9d,0xa5,0x83,0x87,0x6c,8,7,0xae,0xc0,0x9d,0xa8,0x83,0x88,0x6a,0x6d,0x50,0x46,
   0xfc,5,0,0x16,0xbf,0xc0,0xa5,0xa2,0x8c,0x7f,0x6a,0x57,0x50,0x2f,0xb7,0xc7,0xa5,0xb1,0x8c,0x8e,
   0x72,0x6d,0x59,0x45,0xbf,0xc6,0xa5,0xa8,0x8c,0x87,0x6a,0x5f,0x50,0x37,0xbf,0xc2,0xa5,0xa4,0x8c,
   0x83,0x6a,0x5c,0x50,0x34,0xbc,5,0,0x0e,0x90,0,0xc7,0xc2,0xae,0xaa,0x95,0x82,0x7b,0x60,0x61,0x3f,
   0xb7,0xc6,0xa5,0xb1,0x8c,0x8d,0x72,0x6b,0x61,0x51,0xbf,0xc4,0xa5,0xa5,0x8c,0x82,0x72,0x61,0x59,
   0x39,0x6c,0x26,3,0x95,0x82,0x7b,0x61,0x61,0x40,0xfc,5,0,0,0x7e,0xd7,0xc3,0xb7,0xa8,0x9d,0x80,
   0x83,0x5d,0x6a,0x3f,0xbf,0xc7,0xa5,0xa8,0x8c,0x84,0x72,0x60,0x61,0x46,0xbf,0xc2,0xae,0xb0,0x9d,
   0x92,0x83,0x6f,0x6a,0x50,0xd7,0xc3,0xb7,0xa7,0x9d,0x80,0x83,0x5e,0x6a,0x40,0xfe,2,0xf8,0x8d,0x96,
   0x90,0x90,0xfe,5,0,0x8a,0xc4,0x63,0xb8,0x3c,0xa6,0x29,0x97,0x16,0x81,0x84,0xb7,0x5b,0xa9,0x33,
   0x94,0x1e,0x83,0x11,0x70,0xb8,0xc2,0x70,0xb1,0x4d,0xa3,0x2a,0x8d,0x1b,0x7b,0xa8,0xbc,0x68,0xab,
   0x47,0x9d,0x27,0x87,0x18,0x75,0xae,0xc6,0x7d,0xbb,0x4d,0xaa,0x1c,0x84,0x11,0x72,0xa3,0xbb,0x6e,
   0xad,0x3c,0x97,0x24,0x85,0x16,0x71,0x80,0xb2,0x57,0xa4,0x30,0x8e,0x1c,0x7c,0x10,0x68,0xbb,0xbd,
   0x75,0xac,0x4f,0x9e,0x2b,0x87,0x1a,0x76,0x96,0xc5,0x5e,0xb5,0x3e,0xa5,0x1f,0x8c,0x12,0x7a,0xc1,
   0xc6,0x42,0x9f,0x27,0x8c,0x16,0x77,0x0f,0x67,0x9d,0xbc,0x68,0xad,0x36,0x95,0x20,0x83,0x11,0x6d,
   0x9b,0xb8,0x67,0xa8,0x34,0x90,0x1f,0x7c,0x10,0x67,0x9e,0xc9,0x6a,0xbb,0x37,0xa4,0x20,0x90,0x11,
   0x7b,0xc6,0xc8,0x47,0xa4,0x2a,0x90,0x18,0x7b,0x10,0x6c,0xae,0xc4,0x5d,0xad,0x37,0x9a,0x1f,0x85,
   0x13,0x75,0x70,0xad,0x42,0x99,0x25,0x84,0x17,0x74,0x0b,0x56,0x87,0xc8,0x57,0xb8,0x2b,0x9e,0x19,
   0x8a,0x0d,0x74,0xa7,0xc8,0x6e,0xb9,0x36,0xa0,0x1f,0x8b,0x11,0x75,0x94,0xbe,0x4b,0xa5,0x2a,0x92,
   0x18,0x7c,0x0f,0x6b,0xaf,0xc0,0x58,0xa8,0x34,0x94,0x1d,0x7d,0x12,0x6d,0x82,0xc0,0x52,0xb0,0x25,
   0x94,0x14,0x7f,0x0c,0x68,0x84,0xbf,0x3e,0xa4,0x22,0x8e,0x10,0x76,0x0b,0x65,0x88,0xb6,0x42,0x9b,
   0x26,0x87,0x14,0x70,0x0c,0x5f,0xc5,0xc2,0x3e,0x97,0x23,0x83,0x13,0x6c,0x0c,0x5c,0xb1,0xc9,0x76,
   0xbc,0x4a,0xaa,0x20,0x8d,0x12,0x78,0x93,0xbf,0x46,0xa3,0x26,0x8d,0x14,0x74,0x0c,0x62,0xc8,0xc4,
   0x3b,0x97,0x21,0x82,0x11,0x6a,0x0a,0x59,0xa3,0xb9,0x68,0xa9,0x30,0x8d,0x1a,0x78,0x0f,0x61,0xa0,
   0xc9,0x73,0xbe,0x50,0xb1,0x30,0x9f,0x14,0x80,0x83,0xb7,0x3c,0x9a,0x20,0x84,0x0e,0x6a,0x0a,0x57,
   0xac,0xc2,0x68,0xb0,0x2e,0x92,0x19,0x7c,0x0d,0x63,0x93,0xbe,0x62,0xb0,0x3c,0x9e,0x1a,0x80,0x0e,
   0x6b,0xbb,2,0xa0,2,0xa0,2,0x6f,0,0x75,0,0x75,0,0,0,0xad,2,0xb3,2,0x6f,0,0x87,0,0x85,0xfe,3,0,
   0xc2,2,0x82,0x4d,0x92,0x6e,0x4d,0xb1,0xa8,0x84,1,0,7,0x7e,0,0xa8,2,0xa4,2,0xa4,2,0xa2,0,0xa6,0,
   0xa6,0,0,0,0xb4,2,0xb4,2,0x92,0,0x96,0,0x96,0x46,4,0xb0,2,0x64,2,0x0a,0x8c,0,0x90,2,0x98,2,0x98,
   2,0x0e,1,0x11,1,0x11,0x50,0xc3,8,0x88,2,0x88,2,0x19,1,2,1,2,1,0xf3,0x2d,0,0]

def Area.range (a : Area) (o len : Nat) : Except Halt (List UInt8) :=
  if o + len ≤ a.size then .ok (slice a.bytes o len) else .error .overrun

/-- The bytes of the area among the `len` bytes at `o`. -/
def Area.upTo (a : Area) (o len : Nat) : List UInt8 := slice a.bytes o (min len (a.size - o))

section

variable (k : Kernel) (tagId : Nat) (hc : Area) (inbuf inlen : Nat) (out : Buffer) (outlen : Nat)

/-! ## ERD -/

def erdPayload : Except Int (Nat × Nat) → Except Halt Unpacked
  | .error ret => .ok ⟨ret, outlen, out⟩
  | .ok (lzoOfs, lzoLen) =>
    if inlen < lzoLen then .ok ⟨- EINVAL, outlen, out⟩
    else do
      let input ← hc.range (inbuf + lzoOfs) lzoLen
      let (ret, len, bytes) := k.lzo.run input outlen
      return ⟨ret, len, bytes⟩

def hcWlanDataUnpackErd : Except Halt Unpacked :=
  tagFind k.w k.big hc inbuf inlen tagId >>= erdPayload k hc inbuf inlen out outlen

/-! ## LZOR -/

/-- The search for `RB_MAGIC_ERD` in the temporary buffer: the place behind it. -/
def needleLoop (big : Bool) (temp : Area) (templen : Nat) : Nat → Nat → Except Halt (Option Nat)
  | 0, _ => .ok none
  | n + 1, needle => do
      let magic ← temp.read big needle
      if magic = RB_MAGIC_ERD then .ok (some (needle + 4))
      else if templen ≤ needle + 4 then .ok none
      else needleLoop big temp templen n (needle + 4)

/-- The payload of the tag in the temporary buffer, with `templen` bytes from `needle` on. -/
def lzorPayload (temp : Area) (needle templen : Nat) :
    Except Int (Nat × Nat) → Except Halt Unpacked
  | .error ret => .ok ⟨ret, outlen, out⟩
  | .ok (rleOfs, rleLen) =>
    if templen < rleLen then .ok ⟨- EINVAL, outlen, out⟩
    else do
      let (ret, len, bytes) ←
        rleDecodeFrom k.w (temp.upTo (needle + rleOfs) rleLen) rleLen outlen
      return ⟨ret, len, storeBytes out 0 bytes⟩

/-- `templen -= (u8 *)needle - tempbuf`. -/
def remaining (w : SizeT) (templen needle : Nat) : Nat := (templen + w.values - needle) % w.values

def lzorTag (temp : Area) (templen : Nat) : Option Nat → Except Halt Unpacked
  | none => .ok ⟨- ENODATA, outlen, out⟩
  | some needle =>
    tagFind k.w k.big temp needle (remaining k.w templen needle) tagId >>=
      lzorPayload k out outlen temp needle (remaining k.w templen needle)

def lzorUnpack (r : Int × Nat × Buffer) : Except Halt Unpacked :=
  if r.1 ≠ 0 ∧ r.1 ≠ LZO_E_INPUT_NOT_CONSUMED then .ok ⟨r.1, outlen, out⟩
  else
    needleLoop k.big ⟨r.2.2, outlen⟩ r.2.1 (r.2.1 + 1) 0 >>=
      lzorTag k tagId out outlen ⟨r.2.2, outlen⟩ r.2.1

/-- The two `memcpy` into the output buffer. -/
def lzorInput : Except Halt (List UInt8) :=
  if hcLzorPrefix.length + inlen ≤ outlen then do
    let payload ← hc.range inbuf inlen
    return hcLzorPrefix ++ payload
  else .error .overrun

def hcWlanDataUnpackLzor : Except Halt Unpacked :=
  if outlen < (inlen + hcLzorPrefix.length) % k.w.values then .ok ⟨- EFBIG, outlen, out⟩
  else if ¬k.memory then .ok ⟨- ENOMEM, outlen, out⟩
  else do
    let input ← lzorInput hc inbuf inlen outlen
    lzorUnpack k tagId (storeBytes out 0 input) outlen (k.lzo.run input outlen)

end

/-! ## The payload of the tag -/

/-- `tlen -= sizeof(magic)`. -/
def skipMagic (w : SizeT) (tlen : Nat) : Nat := (tlen + w.values - 4) % w.values

def hcWlanDataUnpack (k : Kernel) (tagId : Nat) (hc : Area) (tofs tlen : Nat) (out : Buffer)
    (outlen : Nat) : Except Halt Unpacked :=
  if hc.size < (tofs + tlen) % k.w.values then .ok ⟨- EIO, outlen, out⟩
  else do
    let magic ← hc.read k.big tofs
    if magic = RB_MAGIC_LZOR then
      hcWlanDataUnpackLzor k tagId hc (tofs + 4) (skipMagic k.w tlen) out outlen
    else if magic = RB_MAGIC_ERD then
      hcWlanDataUnpackErd k tagId hc (tofs + 4) (skipMagic k.w tlen) out outlen
    else if tagId = RB_WLAN_ERD_ID_SOLO then do
      let (ret, len, bytes) ← rleDecodeFrom k.w (hc.upTo tofs tlen) tlen outlen
      return ⟨ret, len, storeBytes out 0 bytes⟩
    else return ⟨- ENODATA, outlen, out⟩

/-! ## Data that stays inside the buffers -/

def StaysInside (k : Kernel) (tagId : Nat) (hc : Area) (tofs tlen : Nat) : Prop :=
  ∀ out, hcWlanDataUnpack k tagId hc tofs tlen out RB_ART_SIZE ≠ .error .overrun

/-- Each node up to the one of that id is inside the partition, and so is its payload if it is
not longer than the ERD data. -/
def ErdInside (big : Bool) (tagId : Nat) (hc : Area) (tofs tlen : Nat) : Prop :=
  ∀ z, Meets alignLen big hc (tofs + tlen) tagId (tofs + 4) z → z < tofs + tlen →
    z + 4 ≤ hc.size ∧
      (nodeId (hc.node big z) = tagId → z + 4 < tofs + tlen →
        nodeLen (hc.node big z) ≤ tlen - 4 → z + 4 + nodeLen (hc.node big z) ≤ hc.size)

def Needle (big : Bool) (temp : Area) (templen needle : Nat) : Prop :=
  needle % 4 = 0 ∧ (needle = 0 ∨ needle < templen) ∧ temp.node big needle = RB_MAGIC_ERD ∧
    ∀ o < needle, o % 4 = 0 → temp.node big o ≠ RB_MAGIC_ERD

/-- The RLE data of that id, if not longer than the data in the buffer, does not run over the
end of the buffer. -/
def TempInside (big : Bool) (tagId : Nat) (temp : Area) (templen : Nat) : Prop :=
  ∀ needle z, Needle big temp templen needle →
    Meets alignLen big temp templen tagId (needle + 4) z →
    nodeId (temp.node big z) = tagId → z + 4 < templen →
    nodeLen (temp.node big z) ≤ templen - (needle + 4) →
    ¬RunsOver (temp.upTo (z + 4) (nodeLen (temp.node big z))) (nodeLen (temp.node big z))
      temp.size

/-- The payload has room for the magic number, and what it is decompressed to stays inside the
temporary buffer. -/
def LzorInside (k : Kernel) (tagId : Nat) (hc : Area) (tofs tlen : Nat) : Prop :=
  k.memory → 4 ≤ tlen ∧
    ∀ ret templen bytes, hcLzorPrefix.length + (tlen - 4) ≤ RB_ART_SIZE →
      k.lzo.run (hcLzorPrefix ++ slice hc.bytes (tofs + 4) (tlen - 4)) RB_ART_SIZE =
        (ret, templen, bytes) →
      ret = 0 ∨ ret = LZO_E_INPUT_NOT_CONSUMED →
      TempInside k.big tagId ⟨bytes, RB_ART_SIZE⟩ templen

def WlanInside (k : Kernel) (tagId : Nat) (hc : Area) (tofs tlen : Nat) : Prop :=
  tofs + tlen ≤ hc.size → tofs + 4 ≤ hc.size ∧
    (hc.node k.big tofs = RB_MAGIC_LZOR → LzorInside k tagId hc tofs tlen) ∧
    (hc.node k.big tofs = RB_MAGIC_ERD → ErdInside k.big tagId hc tofs tlen)

end OpenWrt.RouterBoot
