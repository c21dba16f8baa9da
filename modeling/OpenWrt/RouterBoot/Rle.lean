import OpenWrt.RouterBoot.TagFind

/-!
# RLE data of RouterBOOT

`routerboot_rle_decode` of `drivers/platform/mikrotik/routerboot.c`.  The input is what lies
behind the pointer `in`; a read behind its end, or a write behind the end of `out`, stops the
model.
-/

namespace OpenWrt.RouterBoot

open Lib

structure Rle where
  rest : List UInt8
  inlen : Nat
  nbytes : Int
  out : List UInt8
  deriving DecidableEq, Repr

/-- `*in++`. -/
def Rle.next (s : Rle) : Except Halt (UInt8 × Rle) :=
  match s.rest with
  | [] => .error .overrun
  | b :: rest => .ok (b, { s with rest := rest })

/-- `*out++ = byte`. -/
def Rle.put (capacity : Nat) (byte : UInt8) (s : Rle) : Except Halt Rle :=
  if s.out.length < capacity then .ok { s with out := s.out ++ [byte] } else .error .overrun

/-- `while (run-- > 0) *out++ = *in++`. -/
def copyLoop (capacity : Nat) : Nat → Rle → Except Halt Rle
  | 0, s => .ok s
  | run + 1, s => do
      let (byte, s) ← s.next
      let s ← s.put capacity byte
      copyLoop capacity run s

/-- `while (run-- > 0) *out++ = byte`. -/
def fillLoop (capacity : Nat) (byte : UInt8) : Nat → Rle → Except Halt Rle
  | 0, s => .ok s
  | run + 1, s => do
      let s ← s.put capacity byte
      fillLoop capacity byte run s

/-- `inlen -= run; nbytes += run`, with `used` bytes of the input. -/
def Rle.count (used run : Nat) (s : Rle) : Rle :=
  { s with inlen := s.inlen - used, nbytes := wrapInt (s.nbytes + run) }

/-- `if (nbytes > *outlen) goto fail`. -/
def Rle.tooLong (w : SizeT) (capacity : Nat) (s : Rle) : Prop := capacity < w.ofInt s.nbytes

instance (w : SizeT) (capacity : Nat) (s : Rle) : Decidable (s.tooLong w capacity) :=
  inferInstanceAs (Decidable (_ < _))

/-- Verbatim copies behind a run byte; `false` for `goto fail`. -/
def copyRun (w : SizeT) (capacity run : Nat) (s : Rle) : Except Halt (Bool × Rle) :=
  if s.inlen - 1 < run then .ok (false, s.count 1 0)
  else if (s.count (1 + run) run).tooLong w capacity then .ok (false, s.count (1 + run) run)
  else do
    let s ← copyLoop capacity run (s.count (1 + run) run)
    return (true, s)

def fillRun (w : SizeT) (capacity run : Nat) (s : Rle) : Except Halt (Bool × Rle) := do
  let (byte, s) ← s.next
  if (s.count 2 run).tooLong w capacity then .ok (false, s.count 2 run)
  else do
    let s ← fillLoop capacity byte run (s.count 2 run)
    return (true, s)

def rleRound (w : SizeT) (capacity : Nat) (s : Rle) : Except Halt (Bool × Rle) := do
  let (run, s) ← s.next
  if 128 ≤ run.toNat then copyRun w capacity (256 - run.toNat) s
  else fillRun w capacity run.toNat s

/-- The main loop, with its return value.  A round takes two bytes of the input at least, so
that `inlen` rounds are enough. -/
def rleLoop (w : SizeT) (capacity : Nat) : Nat → Rle → Except Halt (Int × Rle)
  | 0, s => .ok (0, s)
  | n + 1, s =>
    if s.inlen < 2 then .ok (0, s)
    else do
      let (go, s) ← rleRound w capacity s
      if go then rleLoop w capacity n s else .ok (- ENOSPC, s)

/-- Return value, `*outlen` and the bytes in `out`, for an `in` with the bytes `input`. -/
def rleDecodeFrom (w : SizeT) (input : List UInt8) (inlen capacity : Nat) :
    Except Halt (Int × Nat × List UInt8) :=
  if inlen < 2 then .ok (- EINVAL, capacity, [])
  else do
    let (ret, s) ← rleLoop w capacity inlen ⟨input, inlen, 0, []⟩
    return (ret, w.ofInt s.nbytes, s.out)

def rleDecode (w : SizeT) (input : List UInt8) (capacity : Nat) :
    Except Halt (Int × Nat × List UInt8) :=
  rleDecodeFrom w input input.length capacity

/-! ## Chunks -/

inductive Chunk where
  | run (n : Nat) (byte : UInt8) (small : n ≤ 127)
  | verbatim (bytes : List UInt8) (some : bytes ≠ []) (few : bytes.length ≤ 128)

def Chunk.encode : Chunk → List UInt8
  | .run n byte _ => [UInt8.ofNat n, byte]
  | .verbatim bytes _ _ => UInt8.ofNat (256 - bytes.length) :: bytes

def Chunk.expand : Chunk → List UInt8
  | .run n byte _ => List.replicate n byte
  | .verbatim bytes _ _ => bytes

def encode (cs : List Chunk) : List UInt8 := cs.flatMap Chunk.encode

def expand (cs : List Chunk) : List UInt8 := cs.flatMap Chunk.expand

def InMemory (w : SizeT) (input : List UInt8) (capacity : Nat) : Prop :=
  input.length + capacity ≤ w.values

def Safe (w : SizeT) (input : List UInt8) (capacity : Nat) : Prop :=
  rleDecode w input capacity ≠ .error .overrun

/-- The chunks are expanded if there is room for it, and `-ENOSPC` is returned if not. -/
def Decodes (w : SizeT) (cs : List Chunk) (capacity : Nat) : Prop :=
  if (expand cs).length ≤ capacity then
    rleDecode w (encode cs) capacity = .ok (0, (expand cs).length, expand cs)
  else ∃ outlen out, rleDecode w (encode cs) capacity = .ok (- ENOSPC, outlen, out)

/-- `nbytes` cannot hold the count of `n` bytes. -/
def Overflows (w : SizeT) (n : Nat) : Prop := w = .bits64 ∧ 2147483648 ≤ n

/-! ## An input that is too short -/

/-- The input ends in the chunk that comes next: in front of it, in front of the byte of a run,
or inside bytes to be copied that pass the checks. -/
def Leaves (tail : List UInt8) (inlen room : Nat) : Prop :=
  2 ≤ inlen ∧
    (tail = [] ∨ (∃ b, tail = [b] ∧ b.toNat < 128) ∨
      ∃ b bytes, tail = b :: bytes ∧ 128 ≤ b.toNat ∧ bytes.length < 256 - b.toNat ∧
        256 - b.toNat ≤ inlen - 1 ∧ 256 - b.toNat ≤ room)

/-- After some chunks that have room the input ends in the next one. -/
def RunsOver (input : List UInt8) (inlen capacity : Nat) : Prop :=
  ∃ cs tail, input = encode cs ++ tail ∧ (expand cs).length ≤ capacity ∧
    Leaves tail (inlen - (encode cs).length) (capacity - (expand cs).length)

end OpenWrt.RouterBoot
