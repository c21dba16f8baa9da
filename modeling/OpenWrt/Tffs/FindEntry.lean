import OpenWrt.Tffs.Nand

/-!
# The value of an entry on NAND flash

`find_entry` of `package/utils/fritz-tools/src/fritz_tffs_nand_read.c`.  The sectors of an entry
are looked up one after the other, and the array of its segments grows on the way.  An access
outside of this array, or a look at a slot that has not been set, has no result.  Memory is
always there, and the arrays of the sectors are as the scan leaves them.
-/

namespace OpenWrt.Tffs

open Lib

def TFFS_ID_END : Nat := 0xffffffff
def TFFS_ENTRY_HEADER_SIZE : Nat := 0x18
def TFFS_MAXIMUM_SEGMENT_SIZE : Nat := 0x800 - TFFS_ENTRY_HEADER_SIZE
def TFFS_SEGMENT_CLEARED : Nat := 0xffffffff

structure Record where
  rev : Nat
  seg : Nat
  next : Nat
  data : List UInt8
  seg_lt : seg < 4294967296
  next_lt : next < 4294967296
  data_le : data.length ≤ TFFS_MAXIMUM_SEGMENT_SIZE

/-! ## The sectors -/

structure Scanned (d : Device) where
  sectors : List UInt8
  ids : List Nat
  sectors_length : sectors.length = (d.numSectors + 7) / 8
  ids_length : ids.length = d.numSectors
  erasesize_ne : d.erasesize ≠ 0

def Scanned.good {d : Device} (s : Scanned d) (sector : Nat) : Bool :=
  (sectorGetGood s.sectors sector).getD false

structure Walk where
  ids : List Nat
  blockEnd : Bool
  exited : Bool

section

variable (r : Reader) (id : Nat)

def readEntry (oob buf : Buffer) (w : Walk) : Walk × Option Record :=
  if r.health ∧ ¬(word r.big oob 0x02 = word r.big buf 0x00 ∧
      word r.big oob 0x06 = word r.big buf 0x04 ∧ word r.big oob 0x0a = word r.big buf 0x0c) then
    (w, none)
  else if word r.big buf 0x00 = TFFS_ID_END then ({ w with blockEnd := true }, none)
  else if h : TFFS_MAXIMUM_SEGMENT_SIZE < word r.big buf 0x04 then (w, none)
  else if word r.big buf 0x00 = id then
    (w, some {
      rev := word r.big buf 0x0c
      seg := word r.big buf 0x10
      next := word r.big buf 0x14
      data := slice buf TFFS_ENTRY_HEADER_SIZE (word r.big buf 0x04)
      seg_lt := word_lt _ _ _
      next_lt := word_lt _ _ _
      data_le := by
        rw [length_slice]
        exact not_lt.mp h })
  else (w, none)

variable {d : Device} (s : Scanned d)

def visit (w : Walk) (sector : Nat) : Walk × Option Record :=
  if w.exited then (w, none)
  -- the sector that ends the skipping is skipped as well
  else if w.blockEnd then
    ({ w with blockEnd := sector * TFFS_SECTOR_SIZE % d.erasesize ≠ 0 }, none)
  else if ¬s.good sector then (w, none)
  else if w.ids.getD sector 0 = TFFS_ID_END then ({ w with blockEnd := true }, none)
  else if w.ids.getD sector 0 ≠ 0 ∧ w.ids.getD sector 0 ≠ id then (w, none)
  else
    match d.oob (sector * TFFS_SECTOR_SIZE), d.sector (sector * TFFS_SECTOR_SIZE) with
    | some oob, some buf =>
      readEntry r id oob buf { w with ids := w.ids.set sector (word r.big buf 0x00) }
    | _, _ => ({ w with exited := true }, none)

def visitAll : List Nat → Walk → Walk × List Record
  | [], w => (w, [])
  | sector :: rest, w =>
    let (w', found) := visit r id s w sector
    let (w'', records) := visitAll rest w'
    (w'', found.toList ++ records)

end

/-! ## The array of the segments -/

/-- Memory of a `struct tffs_entry_segment`: `val` is `NULL` in an empty one. -/
inductive Slot where
  | unset
  | empty
  | full (data : List UInt8)
  deriving DecidableEq

structure Segments where
  rev : Nat
  numSegments : Nat
  slots : List Slot

def sizeofSegment : SizeT → Nat
  | .bits32 => 8
  | .bits64 => 16

/-- Number of the slots in memory for `n` slots, whose size is a `size_t`. -/
def slotsOf (w : SizeT) (n : Nat) : Nat := n * sizeofSegment w % w.values / sizeofSegment w

def Record.newNumSegs (x : Record) : Nat :=
  if x.next = 0 then (x.seg + 1) % 4294967296 else (x.next + 1) % 4294967296

def reallocSlots (slots : List Slot) (n : Nat) : List Slot :=
  slots.take n ++ List.replicate (n - slots.length) .unset

def clearSlots (slots : List Slot) (start n : Nat) : Option (List Slot) :=
  if n = 0 then some slots
  else if start + n ≤ slots.length then
    some (slots.take start ++ List.replicate n .empty ++ slots.drop (start + n))
  else none

section

variable (w : SizeT)

def grow (g : Segments) (newNumSegs : Nat) : Option Segments :=
  if g.numSegments < newNumSegs then do
    -- the offset is one in bytes, but counts slots
    let slots ← clearSlots (reallocSlots g.slots (slotsOf w newNumSegs))
      (g.numSegments * sizeofSegment w) (slotsOf w (newNumSegs - g.numSegments))
    some { g with numSegments := newNumSegs, slots }
  else some g

def writeSlot (g : Segments) (x : Record) : Option Segments :=
  if x.seg < g.slots.length then some { g with slots := g.slots.set x.seg (.full x.data) } else none

def supersede (g : Segments) (rev : Nat) : Option Segments :=
  if g.rev < rev then
    if g.numSegments ≤ g.slots.length ∧ Slot.unset ∉ g.slots.take g.numSegments then
      some { rev, numSegments := 0, slots := [] }
    else none
  else some g

def take (g : Segments) (x : Record) : Option Segments :=
  if x.rev < g.rev then some g
  else do
    let g ← supersede g x.rev
    if x.seg = TFFS_SEGMENT_CLEARED then some g
    else
      let g ← grow w g x.newNumSegs
      writeSlot g x

def gather : Nat → List Slot → Option (Option (List UInt8))
  | 0, _ => some (some [])
  | _ + 1, [] => none
  | _ + 1, .unset :: _ => none
  | _ + 1, .empty :: _ => some none
  | n + 1, .full data :: slots => (gather n slots).map fun rest => rest.map (data ++ ·)

inductive Result where
  | exit
  | absent
  | value (v : List UInt8)
  deriving DecidableEq

def Result.ofValue : Option (List UInt8) → Result
  | none => .absent
  | some v => .value v

def finish (g : Segments) : Option Result :=
  if g.numSegments = 0 then some .absent
  else
    match gather g.numSegments g.slots with
    | none => none
    | some none => some .absent
    -- the length of the copy is a 32-bit number
    | some (some v) => if v.length < 4294967296 then some (.value v) else none

variable (r : Reader) (id : Nat) {d : Device} (s : Scanned d)

structure Find where
  walk : Walk
  segments : Segments

def findStep (f : Find) (sector : Nat) : Option Find :=
  match (visit r id s f.walk sector).2 with
  | none => some { f with walk := (visit r id s f.walk sector).1 }
  | some x => (take w f.segments x).map fun segments =>
    { walk := (visit r id s f.walk sector).1, segments }

def Scanned.start : Walk := { ids := s.ids, blockEnd := false, exited := false }

def findEntry : Option Result := do
  let f ← (List.range d.numSectors).foldlM (findStep w r id s)
    { walk := s.start, segments := { rev := 0, numSegments := 0, slots := [] } }
  if f.walk.exited then some .exit else finish f.segments

/-! ## The value of an entry -/

def records : List Record := (visitAll r id s (List.range d.numSectors) s.start).2

def Exits : Prop := (visitAll r id s (List.range d.numSectors) s.start).1.exited = true

instance : Decidable (Exits r id s) := inferInstanceAs (Decidable (_ = true))

end

def maxRev (l : List Record) : Nat := l.foldl (fun n x => max n x.rev) 0

def current (l : List Record) : List Record :=
  l.filter fun x => x.rev = maxRev l ∧ x.seg ≠ TFFS_SEGMENT_CLEARED

def Cleared (l : List Record) : Prop := ∃ x ∈ l, x.rev = maxRev l ∧ x.seg = TFFS_SEGMENT_CLEARED

instance (l : List Record) : Decidable (Cleared l) := inferInstanceAs (Decidable (∃ x ∈ l, _))

/-- The content of a segment; of two sectors with the same number the last one counts. -/
def segment (l : List Record) (i : Nat) : Option (List UInt8) :=
  ((l.filter fun x => x.seg = i).getLast?).map Record.data

/-- The segments that there are at least, if there is this one. -/
def Record.count (x : Record) : Nat := if x.next = 0 then x.seg + 1 else x.next + 1

def count (l : List Record) : Nat := l.foldl (fun n x => max n x.count) 0

/-- The concatenation of the segments, if all of them are there. -/
def concat (l : List Record) (n : Nat) : Option (List UInt8) :=
  if ∀ i < n, segment l i ≠ none then
    some ((List.range n).flatMap fun i => (segment l i).getD [])
  else none

def entryValue (l : List Record) : Option (List UInt8) :=
  if Cleared l ∨ count (current l) = 0 then none else concat (current l) (count (current l))

section

variable (w : SizeT) (r : Reader) (id : Nat) {d : Device} (s : Scanned d)

/-- The segment array is used as it should be, and the result is the value of the entry. -/
def FindsValue : Prop :=
  ∃ res, findEntry w r id s = some res ∧
    (Exits r id s → res = .exit) ∧
    (¬Exits r id s → res = .ofValue (entryValue (records r id s)))

def numSegs (l : List Record) : Nat := l.foldl (fun n x => max n x.newNumSegs) 0

/-- The segment fits after those of its revision: it is the first one or does not need more slots
than there are, and its number is one of a slot. -/
structure Fits (l : List Record) (x : Record) : Prop where
  grow : numSegs l < x.newNumSegs → numSegs l = 0 ∨ slotsOf w (x.newNumSegs - numSegs l) = 0
  write : x.seg < slotsOf w (max (numSegs l) x.newNumSegs)

structure RecordOk (l : List Record) (x : Record) : Prop where
  free : maxRev l < x.rev → slotsOf w (numSegs (current l)) = numSegs (current l)
  first : maxRev l < x.rev → x.seg ≠ TFFS_SEGMENT_CLEARED → Fits w [] x
  later : maxRev l = x.rev → x.seg ≠ TFFS_SEGMENT_CLEARED → Fits w (current l) x

/-- After all records there is no segment or one is missing, or the slots and their number are
right. -/
def EndOk (l : List Record) : Prop :=
  numSegs (current l) = 0 ∨
  (∃ i < slotsOf w (numSegs (current l)), segment (current l) i = none) ∨
  (slotsOf w (numSegs (current l)) = numSegs (current l) ∧ ¬Cleared l ∧
    ∀ x ∈ current l, x.next ≠ 4294967295)

end

end OpenWrt.Tffs
