import Mathlib.Data.Nat.Count

/-!
# `mtd write`: the image writer of the mtd tool

Model of `mtd_write` in `package/system/mtd/src/mtd.c` for one device, without
a jffs2 file, a FIS layout or a recovery flag (`jffs2file`, `fis_layout` and
`tpl_uboot_args_part` are all null, so `skip` stays 0).  Sizes and offsets are
in bytes, as in the source.  Everything the kernel may answer is an input of
the run: a list of results per call, each list standing for calls that succeed
in full once it is used up.
-/

namespace OpenWrt.Mtd

structure Device where
  mtdsize : Nat
  erasesize : Nat
  nandflash : Bool
  bad : Nat → Bool

/-- Result of one `read` of the image file. -/
inductive ReadResult where
  /-- At most this many bytes were delivered (never 0 before the end of file). -/
  | data (n : Nat)
  /-- `EINTR` or `EAGAIN`. -/
  | again
  | error
  deriving DecidableEq

/-- Answers of the kernel, in the order of the calls. -/
structure Env where
  reads : List ReadResult := []
  erases : List Bool := []
  writes : List Bool := []

inductive DevOp where
  | erase (offset : Nat)
  | program (offset length : Nat)
  deriving DecidableEq

/-- The open device, the buffer and the counters of `mtd_write`. -/
structure State where
  flash : Nat → UInt8
  pos : Nat
  w : Nat
  e : Nat
  skipBadBlocks : Nat
  /-- The first `buflen` bytes of `buf`. -/
  buf : List UInt8
  image : List UInt8
  env : Env
  ops : List DevOp

structure Config where
  dev : Device
  /-- The `-n` option. -/
  noErase : Bool := false
  partOffset : Nat := 0

/-- `lseek` fails, and its result is ignored, past the end of the device. -/
def lseek (d : Device) (pos target : Nat) : Nat :=
  if target ≤ d.mtdsize then target else pos

/-- `mtd_block_is_bad`; `none` is the `exit(1)` on a failing ioctl. -/
def mtdBlockIsBad (d : Device) (offset : Nat) : Option Bool :=
  if d.nandflash then
    if offset < d.mtdsize then some (d.bad (offset / d.erasesize)) else none
  else some false

def eraseRange (flash : Nat → UInt8) (offset length : Nat) : Nat → UInt8 :=
  fun a => if offset ≤ a ∧ a < offset + length then 0xff else flash a

/-- Programming only clears bits. -/
def programRange (flash : Nat → UInt8) (offset : Nat) (data : List UInt8) : Nat → UInt8 :=
  fun a =>
    if offset ≤ a ∧ a < offset + data.length then flash a &&& data.getD (a - offset) 0xff
    else flash a

/-- `mtd_erase_block`: `none` when `MEMERASE` fails. -/
def mtdEraseBlock (d : Device) (offset : Nat) (s : State) : Option State :=
  if offset + d.erasesize ≤ d.mtdsize ∧ s.env.erases.headD true = true then
    some { s with
      flash := eraseRange s.flash offset d.erasesize
      env := { s.env with erases := s.env.erases.tail }
      ops := s.ops ++ [.erase offset] }
  else none

/-- `write` of the whole buffer; `none` is the `exit(1)` on a short or failing
write. -/
def writeBuf (d : Device) (s : State) : Option State :=
  if s.pos + s.buf.length ≤ d.mtdsize ∧ s.env.writes.headD true = true then
    some { s with
      flash := programRange s.flash s.pos s.buf
      pos := s.pos + s.buf.length
      env := { s.env with writes := s.env.writes.tail }
      ops := s.ops ++ [.program s.pos s.buf.length] }
  else none

/-- The `while (buflen < erasesize)` loop that fills the buffer.  Returns the
buffer, the rest of the image and the results not used. -/
def fillBuf (erasesize : Nat) :
    List ReadResult → List UInt8 → List UInt8 → List UInt8 × List UInt8 × List ReadResult
  | [], buf, image =>
    (buf ++ image.take (erasesize - buf.length), image.drop (erasesize - buf.length), [])
  | r :: rs, buf, image =>
    if buf.length < erasesize then
      match r with
      | .again => fillBuf erasesize rs buf image
      | .error => (buf, image, rs)
      | .data n =>
        let got := min (max n 1) (min (erasesize - buf.length) image.length)
        if got = 0 then (buf, image, rs)
        else fillBuf erasesize rs (buf ++ image.take got) (image.drop got)
    else (buf, image, r :: rs)

def padBuf (erasesize : Nat) (buf : List UInt8) : List UInt8 :=
  buf ++ List.replicate (erasesize - buf.length) 0xff

/-- The `while (w + buflen > e - skip_bad_blocks)` loop. -/
def eraseLoop (c : Config) : Nat → State → Option State
  | 0, _ => none
  | fuel + 1, s =>
    if s.w + s.buf.length > s.e - s.skipBadBlocks then
      match mtdBlockIsBad c.dev s.e with
      | none => none
      | some true =>
        -- The bad block is looked up at `e`, the erase below is at `e + part_offset`.
        eraseLoop c fuel { s with
          skipBadBlocks := s.skipBadBlocks + c.dev.erasesize
          e := s.e + c.dev.erasesize
          pos := lseek c.dev s.pos (s.pos + c.dev.erasesize) }
      | some false =>
        match mtdEraseBlock c.dev (s.e + c.partOffset) s with
        | none => none
        | some s' => eraseLoop c fuel { s' with e := s'.e + c.dev.erasesize }
    else some s

/-- One turn of the `for (;;)` loop after the buffer has been filled and padded:
erase what is needed, then write. -/
def writeBlock (c : Config) (s : State) : Option State :=
  let erased :=
    if c.noErase then some s
    else eraseLoop c (c.dev.mtdsize / c.dev.erasesize + 2) s
  match erased with
  | none => none
  | some s =>
    match writeBuf c.dev s with
    | none => none
    | some s' => some { s' with w := s'.w + s'.buf.length, buf := [] }

/-- The `for (;;)` loop; every turn takes at least one byte of the image. -/
def writeLoop (c : Config) : Nat → State → Option State
  | 0, _ => none
  | fuel + 1, s =>
    match fillBuf c.dev.erasesize s.env.reads s.buf s.image with
    | (buf, image, reads) =>
      if buf = [] then
        some { s with image := image, env := { s.env with reads := reads } }
      else
        match writeBlock c { s with
            buf := padBuf c.dev.erasesize buf
            image := image
            env := { s.env with reads := reads } } with
        | none => none
        | some s' => writeLoop c fuel s'

def start (c : Config) (flash : Nat → UInt8) (env : Env) (buf image : List UInt8) : State where
  flash := flash
  pos := if c.partOffset > 0 then lseek c.dev 0 c.partOffset else 0
  w := 0
  e := 0
  skipBadBlocks := 0
  buf := buf
  image := image
  env := env
  ops := []

def mtdWrite (c : Config) (flash : Nat → UInt8) (env : Env) (buf image : List UInt8) :
    Option State :=
  writeLoop c (buf.length + image.length + 1) (start c flash env buf image)

end OpenWrt.Mtd
