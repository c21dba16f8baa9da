import Mathlib.Logic.Function.Basic

/-!
# The forwarding database of an RTL838x switch

The unicast part of the L2 table, from `drivers/net/dsa/rtl83xx/dsa.c` and `rtl838x.c`:
2048 hash buckets of four entries and a CAM of 64 entries for what does not fit.  The
tables are reached through three data registers and one command register.  The switch is
taken as a faithful store: a command ends at once, and nothing but a command changes a
table.
-/

namespace OpenWrt.Rtl83xx

/-- The three words of an entry, as they stand in `RTL838X_TBL_ACCESS_L2_DATA`. -/
structure L2Words where
  r0 : BitVec 32
  r1 : BitVec 32
  r2 : BitVec 32
  deriving DecidableEq, Repr

structure Switch where
  data : L2Words
  hash : BitVec 13 → L2Words
  cam : BitVec 6 → L2Words
  l2Ctrl0 : BitVec 32

def Switch.blank : Switch := ⟨⟨0, 0, 0⟩, fun _ => ⟨0, 0, 0⟩, fun _ => ⟨0, 0, 0⟩, 0⟩

def bit (n : Nat) : BitVec 32 := 1#32 <<< n

/-- A write to `RTL838X_TBL_ACCESS_L2_CTRL`: bit 16 starts the command, bit 15 is set for a
read, and bit 13 picks the CAM. -/
def Switch.execL2 (s : Switch) (cmd : BitVec 32) : Switch :=
  if cmd.getLsbD 16 then
    if cmd.getLsbD 13 then
      if cmd.getLsbD 15 then { s with data := s.cam (cmd.setWidth 6) }
      else { s with cam := Function.update s.cam (cmd.setWidth 6) s.data }
    else
      if cmd.getLsbD 15 then { s with data := s.hash (cmd.setWidth 13) }
      else { s with hash := Function.update s.hash (cmd.setWidth 13) s.data }
  else s

/-- `struct rtl838x_l2_entry`, as far as the database uses it. -/
structure L2Entry where
  mac : BitVec 48
  vid : BitVec 16
  port : BitVec 8
  isStatic : Bool
  valid : Bool
  deriving DecidableEq, Repr

/-- The entry and the number that identifies it, which both table readers make of the words. -/
def l2Entry (r : L2Words) : BitVec 64 × L2Entry :=
  let mac : BitVec 48 :=
    (r.r1 >>> 20).setWidth 8 ++ (r.r1 >>> 12).setWidth 8 ++ (r.r1 >>> 4).setWidth 8 ++
      ((r.r1 &&& 0xf) <<< 4 ||| r.r2 >>> 28).setWidth 8 ++ (r.r2 >>> 20).setWidth 8 ++
      (r.r2 >>> 12).setWidth 8
  ((r.r1.setWidth 64) <<< 32 ||| (r.r2 &&& 0xfffff000).setWidth 64 ||| (r.r0 &&& 0xfff).setWidth 64,
    { mac := mac
      vid := (r.r0 &&& 0xfff).setWidth 16
      port := (r.r0 >>> 12 &&& 0x1f).setWidth 8
      isStatic := (r.r0 >>> 19 &&& 1) != 0
      valid := r.r0 >>> 17 != 0 })

def readL2EntryUsingHash (hash position : BitVec 32) (s : Switch) :
    (BitVec 64 × L2Entry) × Switch :=
  let idx := hash <<< 2 ||| position
  let s := s.execL2 (bit 16 ||| bit 15 ||| (idx &&& 0x1fff))
  (l2Entry s.data, s)

def readCam (idx : BitVec 32) (s : Switch) : (BitVec 64 × L2Entry) × Switch :=
  let s := s.execL2 (bit 16 ||| bit 15 ||| bit 13 ||| (idx &&& 0x3f))
  (l2Entry s.data, s)

/-- The words are written to the data registers, but the command is a read. -/
def writeCam (idx : BitVec 32) (r : L2Words) (s : Switch) : Switch :=
  { s with data := r }.execL2 (bit 16 ||| bit 15 ||| bit 13 ||| (idx &&& 0x3f))

/-- The words in `_r` are not used: the data registers are cleared. -/
def writeHash (idx : BitVec 32) (_r : L2Words) (s : Switch) : Switch :=
  { s with data := ⟨0, 0, 0⟩ }.execL2 (bit 16 ||| (idx &&& 0x1fff))

def rtl838xHash (s : Switch) (seed : BitVec 64) : BitVec 32 :=
  let low (n : Nat) : BitVec 32 := (seed >>> n &&& 0x7ff).setWidth 32
  let high : BitVec 32 := (seed >>> 55 &&& 0x1ff).setWidth 32
  if s.l2Ctrl0.getLsbD 0 then
    let h1 := (low 11 &&& 0x1f) <<< 6 ||| (low 11 >>> 5 &&& 0x3f)
    let h2 := (low 33 &&& 0x3f) <<< 5 ||| (low 33 >>> 6 &&& 0x1f)
    let h3 := (low 44 &&& 0x7f) <<< 4 ||| (low 44 >>> 7 &&& 0xf)
    h1 ^^^ h2 ^^^ h3 ^^^ high ^^^ (low 22 ^^^ low 0)
  else high ^^^ low 44 ^^^ low 33 ^^^ low 22 ^^^ low 11 ^^^ low 0

/-- `(mac << 12) | vid`: the seed of the hash and what an entry is compared with. -/
def entryKey (mac : BitVec 48) (vid : BitVec 16) : BitVec 64 :=
  (mac.setWidth 64) <<< 12 ||| vid.setWidth 64

def rtl83xxHashKey (s : Switch) (mac : BitVec 48) (vid : BitVec 16) : BitVec 32 :=
  rtl838xHash s (entryKey mac vid)

def matchesKey (entry key : BitVec 64) : Bool := entry &&& 0x0fffffffffffffff == key

def ENOENT : Int := 2
def ENOTSUPP : Int := 524

/-! ## Adding -/

/-- The search of a bucket by `rtl83xx_port_fdb_add`: the first entry that is free or holds
the pair. -/
def addBucket (key : BitVec 32) (pair : BitVec 64) : List (BitVec 32) → Switch →
    Option (BitVec 32) × Switch
  | [], s => (none, s)
  | i :: is, s =>
    let ((entry, e), s) := readL2EntryUsingHash key i s
    if !e.valid || matchesKey entry pair then (some (key <<< 2 ||| i), s)
    else addBucket key pair is s

def addCam (pair : BitVec 64) : List (BitVec 32) → Switch → Option (BitVec 32) × Switch
  | [], s => (none, s)
  | i :: is, s =>
    let ((entry, e), s) := readCam i s
    if !e.valid || matchesKey entry pair then (some i, s) else addCam pair is s

def positions : List (BitVec 32) := (List.range 4).map (BitVec.ofNat 32)
def camIndices : List (BitVec 32) := (List.range 64).map (BitVec.ofNat 32)

def newWords (port : BitVec 32) (mac : BitVec 48) (vid : BitVec 16) : L2Words where
  r0 := 3#32 <<< 17 ||| port <<< 12 ||| vid.setWidth 32
  r1 := (mac >>> 16).setWidth 32
  r2 := ((mac &&& 0xffff) <<< 12).setWidth 32

def portFdbAdd (port : BitVec 32) (mac : BitVec 48) (vid : BitVec 16) (s : Switch) : Int × Switch :=
  let key := rtl83xxHashKey s mac vid
  match addBucket key (entryKey mac vid) positions s with
  | (some idx, s) => (0, writeHash idx (newWords port mac vid) s)
  | (none, s) =>
    match addCam (entryKey mac vid) camIndices s with
    | (some idx, s) => (0, writeCam idx (newWords port mac vid) s)
    | (none, s) => (-ENOTSUPP, s)

/-! ## Deleting -/

def delBucket (key : BitVec 32) (pair : BitVec 64) : List (BitVec 32) → Switch →
    Option (BitVec 32) × Switch
  | [], s => (none, s)
  | i :: is, s =>
    let ((entry, e), s) := readL2EntryUsingHash key i s
    if e.valid && matchesKey entry pair then (some (key <<< 2 ||| i), s)
    else delBucket key pair is s

/-- Unlike the bucket, the CAM is searched without a look at `valid`. -/
def delCam (pair : BitVec 64) : List (BitVec 32) → Switch → Option (BitVec 32) × Switch
  | [], s => (none, s)
  | i :: is, s =>
    let ((entry, _), s) := readCam i s
    if matchesKey entry pair then (some i, s) else delCam pair is s

def portFdbDel (_port : BitVec 32) (mac : BitVec 48) (vid : BitVec 16) (s : Switch) :
    Int × Switch :=
  let key := rtl83xxHashKey s mac vid
  match delBucket key (entryKey mac vid) positions s with
  | (some idx, s) => (0, writeHash idx ⟨0, 0, 0⟩ s)
  | (none, s) =>
    match delCam (entryKey mac vid) camIndices s with
    | (some idx, s) => (0, writeCam idx ⟨0, 0, 0⟩ s)
    | (none, s) => (-ENOENT, s)

/-! ## Dumping -/

structure Report where
  mac : BitVec 48
  vid : BitVec 16
  isStatic : Bool
  deriving DecidableEq, Repr

def report (port : BitVec 32) (e : L2Entry) : List Report :=
  if e.valid && e.port.setWidth 32 == port then [⟨e.mac, e.vid, e.isStatic⟩] else []

def dumpHash (port : BitVec 32) : List (BitVec 32) → Switch → List Report × Switch
  | [], s => ([], s)
  | i :: is, s =>
    let ((_, e), s) := readL2EntryUsingHash (i >>> 2) (i &&& 3) s
    let (reports, s) := dumpHash port is s
    (report port e ++ reports, s)

def dumpCam (port : BitVec 32) : List (BitVec 32) → Switch → List Report × Switch
  | [], s => ([], s)
  | i :: is, s =>
    let ((_, e), s) := readCam i s
    let (reports, s) := dumpCam port is s
    (report port e ++ reports, s)

def fibEntries : Nat := 8192

def dumpTables (port : BitVec 32) (is : List (BitVec 32)) (s : Switch) : List Report × Switch :=
  let (hashed, s) := dumpHash port is s
  let (spilled, s) := dumpCam port camIndices s
  (hashed ++ spilled, s)

def portFdbDump (port : BitVec 32) (s : Switch) : List Report × Switch :=
  dumpTables port ((List.range fibEntries).map (BitVec.ofNat 32)) s

/-! ## The database as a map -/

inductive FdbOp where
  | add (port : BitVec 32) (mac : BitVec 48) (vid : BitVec 16)
  | del (port : BitVec 32) (mac : BitVec 48) (vid : BitVec 16)

def FdbOp.run : FdbOp → Switch → Int × Switch
  | .add port mac vid => portFdbAdd port mac vid
  | .del port mac vid => portFdbDel port mac vid

/-- The port that a pair was last added to. -/
abbrev FdbMap := BitVec 48 × BitVec 16 → Option (BitVec 32)

def FdbMap.step (m : FdbMap) (op : FdbOp) (ret : Int) : FdbMap :=
  if ret = 0 then
    match op with
    | .add port mac vid => Function.update m (mac, vid) (some port)
    | .del _ mac vid => Function.update m (mac, vid) none
  else m

/-- A dump reports a pair once exactly for the port it was added to. -/
def Reports (m : FdbMap) (s : Switch) : Prop :=
  ∀ port mac vid,
    ((portFdbDump port s).1.countP fun r => r.mac == mac && r.vid == vid) = 1 ↔
      m (mac, vid) = some port

/-- A deletion fails with `ENOENT` exactly if the pair is not in the map. -/
def DeletesKnown (m : FdbMap) (op : FdbOp) (ret : Int) : Prop :=
  match op with
  | .add _ _ _ => True
  | .del _ mac vid => ret = -ENOENT ↔ m (mac, vid) = none

/-- Along the calls `ops` the switch behaves as the map that starts as `m`. -/
def BehavesAs (m : FdbMap) (s : Switch) : List FdbOp → Prop
  | [] => Reports m s
  | op :: ops =>
    Reports m s ∧ DeletesKnown m op (op.run s).1 ∧
      BehavesAs (m.step op (op.run s).1) (op.run s).2 ops

end OpenWrt.Rtl83xx
