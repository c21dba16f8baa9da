import OpenWrt.RouterBoot.TagFind

/-!
# Partitions of RouterBOOT

`routerboot_find_dynparts` and `routerboot_partitions_parse` of
`drivers/mtd/parsers/routerbootpart.c`.  A scan of the flash looks for the well-known
partitions, then the nodes of the device tree are placed one after the other.
-/

namespace OpenWrt.RouterBoot.Partitions

open Lib

def RB_BLOCK_SIZE : Nat := 0x1000

def RB_MAGIC_HARD : Nat := 0x64726148
def RB_MAGIC_SOFT : Nat := 0x74666F53

/-- `fdt32_to_cpu(OF_DT_HEADER)`. -/
def fdtMagic (big : Bool) : Nat := if big then 0xD00DFEED else 0xEDFE0DD0

structure DynPart where
  name : String
  magic : Nat
  /-- There is a `size_fixup`. -/
  fixup : Bool
  offset : Nat
  size : Nat
  found : Bool
  deriving DecidableEq, Repr

def rbDynparts (big : Bool) : List DynPart :=
  [⟨"hard_config", RB_MAGIC_HARD, false, 0, RB_BLOCK_SIZE, false⟩,
   ⟨"soft_config", RB_MAGIC_SOFT, false, 0, RB_BLOCK_SIZE, false⟩,
   ⟨"dtb_config", fdtMagic big, true, 0, 0, false⟩]

def Distinct (parts : List DynPart) : Prop := (parts.map DynPart.magic).Nodup

instance (parts : List DynPart) : Decidable (Distinct parts) :=
  inferInstanceAs (Decidable (List.Nodup _))

/-- The device: which of the calls of `mtd_read` fail is up to the flash. -/
structure Mtd where
  size : Nat
  flash : Buffer
  fails : Nat → Bool

/-- `mtd_read` returns an error, in call number `tick`. -/
def Mtd.error (m : Mtd) (tick ofs len : Nat) : Prop := m.size < ofs + len ∨ m.fails tick = true

instance (m : Mtd) (tick ofs len : Nat) : Decidable (m.error tick ofs len) :=
  inferInstanceAs (Decidable (_ ∨ _))

/-! ## The scan -/

def dtbsfixup (m : Mtd) (tick : Nat) (p : DynPart) : Option DynPart :=
  if m.error tick p.offset 40 then none
  else if word true m.flash (p.offset + 4) = 0 then none
  else some { p with size := word true m.flash (p.offset + 4) }

def sizeFixup (m : Mtd) (tick : Nat) (p : DynPart) : Option DynPart :=
  if p.fixup then dtbsfixup m tick p else some p

def DynPart.calls (p : DynPart) : Nat := if p.fixup then 1 else 0

/-- What is skipped behind the first block of a partition. -/
def skipped (size : Nat) : Nat :=
  if RB_BLOCK_SIZE < size then (size - RB_BLOCK_SIZE) / RB_BLOCK_SIZE * RB_BLOCK_SIZE else 0

structure Look where
  parts : List DynPart
  offset : Nat
  tick : Nat
  allfound : Bool

def Look.behind (p : DynPart) (l : Look) : Look :=
  { l with parts := p :: l.parts, allfound := p.found && l.allfound }

def lookParts (w : SizeT) (m : Mtd) (buf offset : Nat) : List DynPart → Nat → Look
  | [], tick => ⟨[], offset, tick, true⟩
  | p :: ps, tick =>
    if p.found ∨ p.magic ≠ buf then (lookParts w m buf offset ps tick).behind p
    else
      match sizeFixup m tick { p with offset := offset } with
      | none =>
        (lookParts w m buf offset ps (tick + p.calls)).behind { p with offset := offset }
      | some q =>
        ⟨{ q with found := true } :: ps, (offset + skipped q.size) % w.values,
          tick + p.calls, false⟩

structure Scan where
  offset : Nat
  tick : Nat
  parts : List DynPart

def Look.scan (w : SizeT) (l : Look) : Scan :=
  ⟨(l.offset + RB_BLOCK_SIZE) % w.values, l.tick, l.parts⟩

def look (w : SizeT) (big : Bool) (m : Mtd) (s : Scan) : Look :=
  lookParts w m (word big m.flash s.offset) s.offset s.parts (s.tick + 1)

/-- One round of `routerboot_find_dynparts`; `none` if there is no further one. -/
def findRound (w : SizeT) (big : Bool) (m : Mtd) (s : Scan) : Option Scan :=
  if m.size ≤ s.offset then none
  else if m.error s.tick s.offset 4 then some { s with tick := s.tick + 1 }
  else if (look w big m s).allfound then none
  else some ((look w big m s).scan w)

def ScanEnds (w : SizeT) (big : Bool) (m : Mtd) (parts : List DynPart) : Prop :=
  ∃ n, walk (findRound w big m) ⟨0, 0, parts⟩ n = none

def Comes (w : SizeT) (big : Bool) (m : Mtd) (parts : List DynPart) (s : Scan) : Prop :=
  ∃ n, walk (findRound w big m) ⟨0, 0, parts⟩ n = some s

/-- The place of the state is on the device, and cannot be read any more. -/
def Unreadable (m : Mtd) (s : Scan) : Prop :=
  s.offset < m.size ∧ ∀ tick, s.tick ≤ tick → m.error tick s.offset 4

def IsAt (big : Bool) (m : Mtd) (s : Scan) (p : DynPart) : Prop :=
  ¬m.error s.tick s.offset 4 ∧ word big m.flash s.offset = p.magic ∧
    (p.fixup → ¬m.error (s.tick + 1) s.offset 40 ∧ word true m.flash (s.offset + 4) ≠ 0)

/-! ## The nodes of the device tree -/

structure PartNode where
  name : String
  reg : Option (List Nat)
  size : Option (List Nat)
  addrCells : Nat
  sizeCells : Nat
  readOnly : Bool
  lock : Bool

def readNumber (cells : List Nat) : Nat :=
  cells.foldl (fun r cell => (r * 4294967296 + cell) % 18446744073709551616) 0

/-- Offset and size of a well-known partition that was found. -/
def wellKnown (dyn : List DynPart) (name : String) : Option (Nat × Nat) :=
  (dyn.find? fun p => p.name = name ∧ p.found = true).map fun p => (p.offset, p.size)

def fixedRange (w : SizeT) (n : PartNode) (reg : List Nat) : Option (Nat × Nat) :=
  if reg.length = n.addrCells + n.sizeCells then
    some (readNumber (reg.take n.addrCells) % w.values,
      readNumber (reg.drop n.addrCells) % w.values)
  else none

/-- The property `size`, if there is one, goes before the size that is known. -/
def overrideSize (w : SizeT) (n : PartNode) (size : Nat) : Option Nat :=
  match n.size with
  | none => some size
  | some cells =>
    if cells.length = n.sizeCells then some (readNumber cells % w.values) else none

def dynamicRange (w : SizeT) (dyn : List DynPart) (masterOfs : Nat) (n : PartNode) :
    Option (Nat × Nat) :=
  (overrideSize w n ((wellKnown dyn n.name).getD (masterOfs, 0)).2).map fun size =>
    (((wellKnown dyn n.name).getD (masterOfs, 0)).1, size)

def nodeRange (w : SizeT) (dyn : List DynPart) (masterOfs : Nat) (n : PartNode) :
    Option (Nat × Nat) :=
  match n.reg with
  | some reg => fixedRange w n reg
  | none => dynamicRange w dyn masterOfs n

structure Part where
  name : String
  offset : Nat
  size : Nat
  readOnly : Bool
  lock : Bool
  deriving DecidableEq, Repr

def Part.fill (stop : Nat) (p : Part) : Part :=
  if p.size = 0 then { p with size := stop - p.offset } else p

def joinPrev (offset : Nat) : List Part → Option (List Part)
  | [] => some []
  | p :: ps =>
    if offset < (p.offset + p.size) % 18446744073709551616 then none
    else some (p.fill offset :: ps)

/-- `ALIGN(x, RB_BLOCK_SIZE)`. -/
def alignUp (x : Nat) : Nat := (x + (RB_BLOCK_SIZE - 1)) / RB_BLOCK_SIZE * RB_BLOCK_SIZE

/-- `ALIGN(x, RB_BLOCK_SIZE)` in a `size_t`. -/
def alignBlock (w : SizeT) (x : Nat) : Nat :=
  (x + (RB_BLOCK_SIZE - 1)) % w.values / RB_BLOCK_SIZE * RB_BLOCK_SIZE

structure Placed where
  parts : List Part
  masterOfs : Nat

def placeRange (w : SizeT) (size : Nat) (n : PartNode) (range : Nat × Nat) (parts : List Part) :
    Option Placed :=
  if size < (range.1 + range.2) % w.values then none
  else some ⟨⟨n.name, range.1, range.2, n.readOnly, n.lock⟩ :: parts,
    alignBlock w ((range.1 + range.2) % w.values)⟩

def placeNode (w : SizeT) (size : Nat) (dyn : List DynPart) (s : Placed) (n : PartNode) :
    Option Placed := do
  let range ← nodeRange w dyn s.masterOfs n
  let parts ← joinPrev range.1 s.parts
  placeRange w size n range parts

def ENOMEM : Int := 12

def partitionsParse (w : SizeT) (memory : Bool) (size : Nat) (dyn : List DynPart)
    (nodes : List PartNode) : Except Int (List Part) :=
  if nodes = [] then .ok []
  else if ¬memory then .error (- ENOMEM)
  else
    match nodes.foldlM (placeNode w size dyn) ⟨[], 0⟩ with
    | none => .error (- EINVAL)
    | some s => .ok s.parts.reverse

/-! ## Layout -/

/-- The partitions, the last one first, where a size of 0 on the last one means up to the
end. -/
def fillLast (size : Nat) : List Part → List Part
  | [] => []
  | p :: ps => p.fill size :: ps

/-- The partitions, the last one first, are disjoint, in order and on the device. -/
structure Laid (size : Nat) (parts : List Part) : Prop where
  ascending : parts.Pairwise fun q p => p.offset + p.size ≤ q.offset
  inside : ∀ p ∈ parts, p.offset + p.size ≤ size

def WellLaid (w : SizeT) (memory : Bool) (size : Nat) (dyn : List DynPart)
    (nodes : List PartNode) : Prop :=
  ∀ parts, partitionsParse w memory size dyn nodes = .ok parts →
    Laid size (fillLast size parts.reverse)

/-- The nodes one after the other, without a bound on the offsets. -/
def placements (w : SizeT) (dyn : List DynPart) : Nat → List PartNode → List (Nat × Nat)
  | _, [] => []
  | ofs, n :: ns =>
    match nodeRange w dyn ofs n with
    | none => []
    | some range => range :: placements w dyn (alignUp (range.1 + range.2)) ns

/-- No end of a partition is behind the device and too large for a `size_t`. -/
def NoOverflow (w : SizeT) (size : Nat) (ranges : List (Nat × Nat)) : Prop :=
  ∀ range ∈ ranges, range.1 + range.2 < w.values ∨ range.1 + range.2 ≤ size

/-- The numbers in the table are of type `size_t`. -/
def DynFits (w : SizeT) (dyn : List DynPart) : Prop :=
  ∀ p ∈ dyn, p.offset < w.values ∧ p.size < w.values

end OpenWrt.RouterBoot.Partitions
