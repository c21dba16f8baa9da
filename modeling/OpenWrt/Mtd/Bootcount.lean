import OpenWrt.Lib.Buffer
import OpenWrt.Mtd.Write

/-!
# The boot-count log of Linksys devices

Model of `mtd_resetbc` in `package/system/mtd/src/linksys_bootcount.c`.  The log is a row of
records, `bc_offset_increment` bytes apart; the boot loader appends one with each boot, and
`mtd resetbc` appends one with count 0.  The record is built in the static buffer `page`,
here the memory from its address on, with the number of bytes of it that were accessed.
Sizes are in bytes and numbers as `MEMGETINFO` gives them (`uint32_t`); products of them do
not exceed the size of the partition.
-/

namespace OpenWrt.Mtd.Bootcount

open Lib

structure Device where
  size : Nat
  writesize : Nat
  big : Bool
  /-- `mtd_check_open` and `MEMGETINFO` succeed. -/
  opens : Bool
  erases : Bool
  writes : Bool

inductive Op where
  | erase
  | write (offset length : Nat)
  deriving DecidableEq

structure State where
  flash : Buffer
  /-- The memory from `page` on. -/
  page : Buffer
  /-- All accesses to it were below this offset. -/
  reach : Nat
  ops : List Op

def State.start (flash page : Buffer) : State := ⟨flash, page, 0, []⟩

def pageSize : Nat := 2048

def bootcountMagic : Nat := 0x20110811

def bcOffsetIncrementMin : Nat := 16

/-- `sizeof(struct bootcounter)`. -/
def bootcounterSize : Nat := 12

namespace Device

def bcOffsetIncrement (d : Device) : Nat :=
  if d.writesize < bcOffsetIncrementMin then bcOffsetIncrementMin else d.writesize

def numBc (d : Device) : Nat := d.size / d.bcOffsetIncrement

/-- `curr->magic`, `curr->count` of the record at `off`. -/
def magic (d : Device) (b : Buffer) (off : Nat) : Nat := word d.big b off

def count (d : Device) (b : Buffer) (off : Nat) : Nat := word d.big b (off + 4)

end Device

/-- `pread(fd, curr, sizeof(*curr), off)`. -/
def pread (off : Nat) (s : State) : State :=
  { s with
    page := memcpy s.page 0 s.flash off bootcounterSize
    reach := max s.reach bootcounterSize }

/-- The `for` loop with `n` records left: `i` and `last_count` behind it, or `none` at a
magic that is neither the log's nor erased. -/
def scan (d : Device) : Nat → Nat → Nat → State → Option (Nat × Nat) × State
  | 0, i, lastCount, s => (some (i, lastCount), s)
  | n + 1, i, lastCount, s =>
    let s := pread (i * d.bcOffsetIncrement) s
    if d.magic s.page 0 ≠ bootcountMagic ∧ d.magic s.page 0 ≠ 0xffffffff then (none, s)
    else if d.magic s.page 0 = 0xffffffff then (some (i, lastCount), s)
    else scan d n (i + 1) (d.count s.page 0) s

def buildRecord (d : Device) (s : State) : State :=
  let erased := memset s.page 0 0xff d.bcOffsetIncrement
  { s with
    -- `magic`, `count` and `checksum`
    page := storeBytes erased 0 ([bootcountMagic, 0, bootcountMagic].flatMap (wordBytes d.big))
    reach := max s.reach d.bcOffsetIncrement }

def memerase (d : Device) (s : State) : State :=
  { s with flash := eraseRange s.flash 0 d.size, ops := s.ops ++ [.erase] }

/-- `pwrite(fd, curr, bc_offset_increment, i * bc_offset_increment)`. -/
def pwrite (d : Device) (i : Nat) (s : State) : State :=
  { s with
    flash := programRange s.flash (i * d.bcOffsetIncrement) (slice s.page 0 d.bcOffsetIncrement)
    ops := s.ops ++ [.write (i * d.bcOffsetIncrement) d.bcOffsetIncrement] }

def appendRecord (d : Device) (i : Nat) (s : State) : Int × State :=
  let s := buildRecord d s
  if d.writes then (0, pwrite d i s) else (-4, s)

def mtdResetbc (d : Device) (s : State) : Int × State :=
  if d.opens then
    match scan d d.numBc 0 0 s with
    | (none, s) => (-2, s)
    | (some (i, lastCount), s) =>
      if lastCount = 0 then (0, s)
      else if i = d.numBc then
        if d.erases then appendRecord d 0 (memerase d s) else (-3, s)
      else appendRecord d i s
  else (-1, s)

/-! ## Logs -/

/-- `k` records, followed by erased space. -/
structure IsLog (d : Device) (flash : Buffer) (k : Nat) : Prop where
  fits : k ≤ d.numBc
  records : ∀ i < k, d.magic flash (i * d.bcOffsetIncrement) = bootcountMagic
  erased : ∀ a, k * d.bcOffsetIncrement ≤ a → a < d.numBc * d.bcOffsetIncrement →
    flash a = 0xff

def lastCount (d : Device) (flash : Buffer) (k : Nat) : Nat :=
  if k = 0 then 0 else d.count flash ((k - 1) * d.bcOffsetIncrement)

structure OnlyNew (d : Device) (flash : Buffer) : Prop where
  magic : d.magic flash 0 = bootcountMagic
  count : d.count flash 0 = 0
  checksum : word d.big flash 8 = bootcountMagic
  erased : ∀ a, bootcounterSize ≤ a → a < d.size → flash a = 0xff

/-- What a call that returns 0 makes of a log of `k` records. -/
structure LogReset (d : Device) (k : Nat) (s s' : State) : Prop where
  inPage : s'.reach ≤ pageSize
  reset : ∃ i, (scan d d.numBc 0 0 s').1 = some (i, 0)
  kept : k < d.numBc ∨ lastCount d s.flash k = 0 →
    ∀ a < k * d.bcOffsetIncrement, s'.flash a = s.flash a
  full : k = d.numBc → lastCount d s.flash k ≠ 0 → OnlyNew d s'.flash
  again : (mtdResetbc d s').1 = 0 ∧ (mtdResetbc d s').2.ops = s'.ops ∧
    (mtdResetbc d s').2.flash = s'.flash

end OpenWrt.Mtd.Bootcount
