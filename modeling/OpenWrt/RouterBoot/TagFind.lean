import OpenWrt.Lib.Buffer
import OpenWrt.Lib.SizeT
import OpenWrt.Lib.Walk

/-!
# Tags of RouterBOOT

`routerboot_tag_find` of `drivers/platform/mikrotik/routerboot.c`.  Pointers are offsets in
the memory area that they point into; a read behind the end of the area stops the model.
Nodes are in the byte order of the CPU.
-/

namespace OpenWrt.RouterBoot

open Lib

inductive Halt where
  | overrun
  deriving DecidableEq, Repr

def ENOENT : Int := 2
def EINVAL : Int := 22
def ENOSPC : Int := 28

structure Area where
  bytes : Buffer
  size : Nat

def Area.node (big : Bool) (a : Area) (o : Nat) : Nat := word big a.bytes o

def Area.read (big : Bool) (a : Area) (o : Nat) : Except Halt Nat :=
  if o + 4 ≤ a.size then .ok (a.node big o) else .error .overrun

def nodeId (node : Nat) : Nat := node % 65536

def nodeLen (node : Nat) : Nat := node / 65536

def align4 (len : Nat) : Nat := (len + 3) / 4 * 4

/-- `len = ALIGN(len, sizeof(*datum))` with a `len` of 16 bits. -/
def alignLen (len : Nat) : Nat := align4 len % 65536

def tagLoop (big : Bool) (a : Area) (head bufend tagId : Nat) :
    Nat → Nat → Except Halt (Option (Nat × Nat))
  | 0, _ => .ok none
  | n + 1, datum =>
    if datum < bufend then do
      let node ← a.read big datum
      if node = 0 then .ok none
      else if tagId = nodeId node then
        if bufend ≤ datum + 4 then .ok none
        else .ok (some ((datum + 4 - head) % 65536, nodeLen node))
      else tagLoop big a head bufend tagId n (datum + 4 + alignLen (nodeLen node))
    else .ok none

/-- An error, or `*pld_ofs` and `*pld_len`. -/
def tagFind (w : SizeT) (big : Bool) (a : Area) (head buflen tagId : Nat) :
    Except Halt (Except Int (Nat × Nat)) :=
  if tagId = 0 then .ok (.error (- EINVAL))
  else do
    -- a round goes on by four bytes at least
    match ← tagLoop big a head ((head + buflen) % w.values) tagId (buflen + 1) head with
    | none => return .error (- ENOENT)
    | some pld => return .ok pld

/-! ## The list of nodes -/

section

variable (round : Nat → Nat) (big : Bool) (a : Area) (bufend tagId : Nat)

/-- A node at `o` that is neither null nor the one that is looked for. -/
def Passes (o : Nat) : Prop :=
  o < bufend ∧ o + 4 ≤ a.size ∧ a.node big o ≠ 0 ∧ tagId ≠ nodeId (a.node big o)

instance (o : Nat) : Decidable (Passes big a bufend tagId o) :=
  inferInstanceAs (Decidable (_ ∧ _))

/-- The node behind the one at `o`, with payloads rounded up by `round`. -/
def nextTag (o : Nat) : Option Nat :=
  if Passes big a bufend tagId o then some (o + 4 + round (nodeLen (a.node big o))) else none

/-- The list of nodes from `start` on comes to a place `o`, without a node of that id before
it. -/
def Meets (start o : Nat) : Prop :=
  ∃ n, walk (nextTag round big a bufend tagId) start n = some o

end

/-- The first node of that id in a buffer, with the length of its payload. -/
def FirstNode (big : Bool) (a : Area) (tagId o len : Nat) : Prop :=
  Meets align4 big a a.size tagId 0 o ∧ o + 4 ≤ a.size ∧ nodeId (a.node big o) = tagId ∧
    nodeLen (a.node big o) = len

/-- The lookup stays inside the buffer and finds the first node of that id, with a payload
inside the buffer. -/
def Finds (w : SizeT) (big : Bool) (a : Area) (tagId : Nat) : Prop :=
  ∃ r, tagFind w big a 0 a.size tagId = .ok r ∧
    ((∃ pld, r = .ok pld) ↔ ∃ o len, FirstNode big a tagId o len) ∧
    ∀ o len, FirstNode big a tagId o len → r = .ok (o + 4, len) ∧ o + 4 + len ≤ a.size

/-- The payload of the node is not empty space at the end, has an offset of 16 bits and is
inside the buffer. -/
def Reachable (a : Area) (o len : Nat) : Prop :=
  o + 4 < 65536 ∧ o + 4 < a.size ∧ o + 4 + len ≤ a.size

/-- The list, with lengths rounded up in 16 bits, does not end with a part of a word, and has
no node of that id but in the last word. -/
def Clean (big : Bool) (a : Area) (tagId : Nat) : Prop :=
  ∀ o, Meets alignLen big a a.size tagId 0 o → o < a.size →
    o + 4 ≤ a.size ∧ (nodeId (a.node big o) = tagId → o + 4 = a.size)

end OpenWrt.RouterBoot
