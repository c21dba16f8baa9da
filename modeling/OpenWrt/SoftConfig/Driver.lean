import OpenWrt.Lib.Buffer
import OpenWrt.Lib.Crc

/-!
# RouterBOOT soft configuration

The buffer of `drivers/platform/mikrotik/rb_softconfig.c` under its lock: attributes are
stored, `sc_commit_store` tests the CRC field, and later writes the buffer to flash or
reads it again, and `sc_commit_show` tells whether the buffer is clean.  The CRC field in
the buffer is the dirty flag.  The steps of any number of clients may be interleaved.
-/

namespace OpenWrt.SoftConfig

open Lib Function

def RB_SC_CRC32_OFFSET : Nat := 4

/-- Byte order of the machine and `sc_buflen`; magic and CRC are there. -/
structure Config where
  big : Bool
  buflen : Nat
  header_le : 8 ≤ buflen

variable (c : Config)

inductive Pc where
  | idle
  | tested (flush : Bool)
  | flushing
  | failed
  deriving DecidableEq, Repr

structure State where
  buf : Buffer
  flash : Buffer
  pc : Nat → Pc
  /-- The client that holds `sc_bufrwl` for writing between two steps. -/
  lock : Option Nat
  /-- The flash holds what the last commit wrote, without error. -/
  written : Bool

def getCrc (buf : Buffer) : Nat := word c.big buf RB_SC_CRC32_OFFSET

def setCrc (crc : Nat) (buf : Buffer) : Buffer :=
  storeBytes buf RB_SC_CRC32_OFFSET (wordBytes c.big crc)

def clrCrc (buf : Buffer) : Buffer := setCrc c 0 buf

/-- `~crc32(~0, sc_buf, sc_buflen)`. -/
def bufferCrc (buf : Buffer) : Nat := (~~~crc32 (BitVec.allOnes 32) (slice buf 0 c.buflen)).toNat

def commitShow (s : State) : String := if getCrc c s.buf ≠ 0 then "clean\n" else "dirty\n"

inductive Op where
  /-- The locked part of a store of `val` to the tag at `ofs`. -/
  | store (ofs val : Nat)
  /-- The locked test of `sc_commit_store`, up to the opened device. -/
  | test (t : Nat) (flush : Bool)
  /-- `mtd_read` into the buffer; on an error it leaves `err` there. -/
  | reread (t : Nat) (err : Option Buffer)
  /-- The CRC is set and the flash erased; on an error it holds `err`. -/
  | erase (t : Nat) (err : Option Buffer)
  /-- `mtd_write` and the end of the lock; on an error the flash holds `err`. -/
  | write (t : Nat) (err : Option Buffer)
  /-- `RB_SC_CLRCRC` at `mtdfail`, without the lock. -/
  | fail (t : Nat)

def program (s : State) : Buffer := memcpy s.flash 0 s.buf 0 c.buflen

def Op.run : Op → State → State
  | .store ofs val, s =>
    { s with buf := clrCrc c (storeBytes s.buf ofs (wordBytes c.big val)) }
  | .test t flush, s =>
    if getCrc c s.buf ≠ 0 then s else { s with pc := update s.pc t (.tested flush) }
  | .reread t none, s =>
    { s with
      buf := memcpy s.buf 0 s.flash 0 c.buflen
      pc := update s.pc t .idle }
  | .reread t (some err), s => { s with buf := err, pc := update s.pc t .failed }
  | .erase t none, s =>
    { s with
      buf := setCrc c (bufferCrc c s.buf) s.buf
      flash := memset s.flash 0 0xff c.buflen
      pc := update s.pc t .flushing
      lock := some t
      written := false }
  | .erase t (some err), s =>
    { s with
      buf := setCrc c (bufferCrc c s.buf) s.buf
      flash := err
      pc := update s.pc t .failed
      written := false }
  | .write t none, s =>
    { s with
      flash := program c s
      pc := update s.pc t .idle
      lock := none
      written := true }
  | .write t (some err), s =>
    { s with
      flash := err
      pc := update s.pc t .failed
      lock := none
      written := false }
  | .fail t, s => { s with buf := clrCrc c s.buf, pc := update s.pc t .idle }

/-- The lock, the order of the steps of a client, and stores to the tags behind the CRC. -/
def Op.Legal (s : State) : Op → Prop
  | .store ofs _ => s.lock = none ∧ 8 ≤ ofs ∧ ofs + 4 ≤ c.buflen
  | .test t _ => s.lock = none ∧ s.pc t = .idle
  | .reread t _ => s.lock = none ∧ s.pc t = .tested false
  | .erase t _ => s.lock = none ∧ s.pc t = .tested true
  | .write t _ => s.lock = some t ∧ s.pc t = .flushing
  | .fail t => s.pc t = .failed

/-- After `rb_softconfig_init`: the buffer was read from flash, no client is active. -/
structure Start (s : State) : Prop where
  buf : slice s.buf 0 c.buflen = slice s.flash 0 c.buflen
  pc : ∀ t, s.pc t = .idle
  lock : s.lock = none
  written : s.written = false

inductive Reached (ok : State → Op → Prop) : State → Prop
  | start {s : State} (hs : Start c s) : Reached ok s
  | step {s : State} (op : Op) (hs : Reached ok s) (hlegal : op.Legal c s) (hok : ok s op) :
      Reached ok (op.run c s)

/-- The CRC field equals the CRC of the buffer with the field taken as zero. -/
def CrcValid (buf : Buffer) : Prop := getCrc c buf = bufferCrc c (clrCrc c buf)

end OpenWrt.SoftConfig
