import OpenWrt.Lib.SizeT

/-!
# Rings of conninfra

`conninfra/src/base/ring.c` and the loops of `ring.h`.  The counters are 32-bit numbers, and a
loop hands out segments of the buffer; its body copies a segment to or from the data.
-/

namespace OpenWrt.Conninfra

open Lib

structure Ring (α : Type) where
  base : Nat → α
  write : Nat
  read : Nat
  maxSize : Nat

structure RingSegment where
  ringPt : Nat
  sz : Nat
  dataPos : Nat
  remain : Nat

variable {α : Type}

def Ring.size (r : Ring α) : Nat := SizeT.bits32.sub r.write r.read

def prepared (sz : Nat) : RingSegment := ⟨0, 0, 0, sz⟩

def Ring.readPrepare (r : Ring α) (sz : Nat) : Nat := if sz > r.size then r.size else sz

def Ring.writePrepare (r : Ring α) (sz : Nat) : Nat :=
  if sz > SizeT.bits32.sub r.maxSize r.size then SizeT.bits32.sub r.maxSize r.size else sz

def Ring.overwritePrepare (r : Ring α) (sz : Nat) : Nat :=
  if sz > SizeT.bits32.sub r.maxSize r.size then
    (r.read + SizeT.bits32.sub sz (SizeT.bits32.sub r.maxSize r.size)) % 4294967296
  else r.read

def ringSegmentPrepare (maxSize start sz : Nat) (seg : RingSegment) : RingSegment :=
  let ringPos := start &&& (maxSize - 1)
  let sz' := if (ringPos + sz) % 4294967296 ≤ maxSize then sz else maxSize - ringPos
  { ringPt := ringPos
    sz := sz'
    dataPos := if seg.sz ≠ 0 then (seg.dataPos + seg.sz) % 4294967296 else 0
    remain := seg.remain - sz' }

def asked (item : Bool) (remain : Nat) : Nat :=
  if item then (if remain ≠ 0 then 1 else 0) else remain

def segments (maxSize : Nat) (item : Bool) : Nat → Nat → RingSegment → Option (List RingSegment)
  | 0, _, _ => none
  | fuel + 1, start, seg =>
    let seg' := ringSegmentPrepare maxSize start (asked item seg.remain) seg
    if seg'.sz > 0 then
      (segments maxSize item fuel ((start + seg'.sz) % 4294967296) seg').map (seg' :: ·)
    else some []

def RingSegment.places (seg : RingSegment) : List (Nat × Nat) :=
  (List.range seg.sz).map fun j => (seg.ringPt + j, seg.dataPos + j)

def store (base : Nat → α) (data : List α) (segs : List RingSegment) : Nat → α :=
  (segs.flatMap RingSegment.places).foldl
    (fun b p => Function.update b p.1 (data.getD p.2 (b p.1))) base

def load (base : Nat → α) (segs : List RingSegment) : List α :=
  (segs.flatMap RingSegment.places).map fun p => base p.1

def commit (counter : Nat) (segs : List RingSegment) : Nat :=
  segs.foldl (fun n seg => (n + seg.sz) % 4294967296) counter

inductive RingOp (α : Type) where
  | write (data : List α)
  | overwrite (data : List α)
  | read (sz : Nat)
  | readItems (sz : Nat)

def RingOp.size : RingOp α → Nat
  | .write data | .overwrite data => data.length
  | .read sz | .readItems sz => sz

structure RingLoop (α : Type) where
  start : Nat
  segs : List RingSegment
  out : List α

def Ring.run (r : Ring α) (fuel : Nat) : RingOp α → Option (Ring α × RingLoop α)
  | .write data => do
      let segs ← segments r.maxSize false fuel r.write (prepared (r.writePrepare data.length))
      some ({ r with base := store r.base data segs, write := commit r.write segs },
        ⟨r.write, segs, []⟩)
  | .overwrite data => do
      let segs ← segments r.maxSize false fuel r.write (prepared data.length)
      some ({ r with
          base := store r.base data segs
          write := commit r.write segs
          read := r.overwritePrepare data.length },
        ⟨r.write, segs, []⟩)
  | .read sz => do
      let segs ← segments r.maxSize false fuel r.read (prepared (r.readPrepare sz))
      some ({ r with read := commit r.read segs }, ⟨r.read, segs, load r.base segs⟩)
  | .readItems sz => do
      let segs ← segments r.maxSize true fuel r.read (prepared (r.readPrepare sz))
      some ({ r with read := commit r.read segs }, ⟨r.read, segs, load r.base segs⟩)

def Ring.runs (fuel : Nat) : Ring α → List (RingOp α) → Option (Ring α × List (RingLoop α))
  | r, [] => some (r, [])
  | r, op :: ops => do
      let (r', l) ← r.run fuel op
      let (r'', ls) ← r'.runs fuel ops
      some (r'', l :: ls)

/-! ## The queue -/

/-- New queue, number of the items that were moved, and the items that were read. -/
def queueStep (maxSize : Nat) (q : List α) : RingOp α → List α × Nat × List α
  | .write data => (q ++ data.take (maxSize - q.length), min data.length (maxSize - q.length), [])
  | .overwrite data => ((q ++ data).drop (q.length + data.length - maxSize), data.length, [])
  | .read sz | .readItems sz => (q.drop sz, min sz q.length, q.take sz)

def queueSteps (maxSize : Nat) : List α → List (RingOp α) → List α × List (Nat × List α)
  | q, [] => (q, [])
  | q, op :: ops =>
    let (q', moved) := queueStep maxSize q op
    let (q'', rest) := queueSteps maxSize q' ops
    (q'', moved :: rest)

structure Ring.Holds (r : Ring α) (q : List α) : Prop where
  power : ∃ k < 32, r.maxSize = 2 ^ k
  read_lt : r.read < 4294967296
  write : r.write = (r.read + q.length) % 4294967296
  length_le : q.length ≤ r.maxSize
  items : ∀ p < q.length, q[p]? = some (r.base ((r.read + p) % r.maxSize))

/-- The segments of a loop lie in the buffer, and cover `n` items once and in their order. -/
structure Covers (maxSize n : Nat) (l : RingLoop α) : Prop where
  inside : ∀ seg ∈ l.segs, seg.ringPt + seg.sz ≤ maxSize
  places : l.segs.flatMap RingSegment.places =
    (List.range n).map fun i => ((l.start + i) % maxSize, i)

end OpenWrt.Conninfra
