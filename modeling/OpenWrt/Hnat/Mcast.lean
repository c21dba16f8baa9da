import Mathlib.Data.Finset.Card

/-!
# Multicast groups of the packet processing engine

The table of `mtk_hnat/hnat_mcast.c`: `hnat_mcast_table_update` looks up the slot of a
group, counts its Ethernet and other members, and writes the registers of the slot in every
engine.  A run is any sequence of membership notifications.
-/

namespace OpenWrt.Hnat

open Function

def MAX_MCAST_ENTRY : Nat := 64
def MCAST_TO_PDMA : BitVec 8 := 1
def MCAST_TO_GDMA1 : BitVec 8 := 2
def ENODEV : Int := 19

structure McastGroup where
  macHi : BitVec 32
  macLo : BitVec 16
  vid : BitVec 16
  mcPort : BitVec 8
  /-- Ethernet interfaces in the group. -/
  eif : BitVec 8
  /-- Other interfaces in the group. -/
  oif : BitVec 8
  valid : Bool
  deriving DecidableEq, Repr

def McastGroup.cleared : McastGroup := ⟨0, 0, 0, 0, 0, 0, false⟩

structure McastConfig where
  v1 : Bool
  ppeNum : Nat

def McastConfig.maxEntry (c : McastConfig) : Nat := if c.v1 then 0x10 else MAX_MCAST_ENTRY

/-- The group table and the registers: sixteen indices in each engine, the others in the
frame engine. -/
structure McastState where
  mtbl : Nat → McastGroup
  ppeH : Nat → Nat → BitVec 32
  ppeL : Nat → Nat → BitVec 32
  feH : Nat → BitVec 32
  feL : Nat → BitVec 32

/-- The group address of a `br_mdb_entry`, as the words are read from memory. -/
inductive MdbAddr where
  | ip4 (ip4 : BitVec 32)
  /-- `s6_addr32[3]`. -/
  | ip6 (word3 : BitVec 32)
  | other
  deriving DecidableEq, Repr

inductive MdbType where
  | newmdb
  | delmdb
  deriving DecidableEq, Repr

inductive Kind where
  | eth
  | other
  deriving DecidableEq, Repr

structure Notification where
  type : MdbType
  vid : BitVec 16
  addr : MdbAddr
  /-- The name of the interface with the entry's `ifindex`. -/
  dev : String
  found : Bool

def swab32 (x : BitVec 32) : BitVec 32 :=
  x <<< 24 ||| (x &&& 0xff00#32) <<< 8 ||| (x >>> 8 &&& 0xff00#32) ||| x >>> 24

def getMacFromMdbEntry : MdbAddr → BitVec 32 × BitVec 16
  | .ip4 ip4 => (swab32 ((ip4 &&& 0xfffffe00#32) + 0x5e#32), 0x0100#16)
  | .ip6 word3 => (swab32 word3, 0x3333#16)
  | .other => (0, 0)

/-- `!strncmp(dev->name, s, strlen(s))`. -/
def nameStarts (dev s : String) : Bool := s.toList.isPrefixOf dev.toList

def isBond (dev : String) : Bool := nameStarts dev "bond"

def isWan (dev : String) : Bool :=
  nameStarts dev "eth0" || nameStarts dev "wan" || nameStarts dev "lan" || isBond dev

def isLan (dev : String) : Bool :=
  nameStarts dev "eth0" || nameStarts dev "wan" || nameStarts dev "lan" || isBond dev

def Notification.kind (n : Notification) : Kind :=
  if isLan n.dev || isWan n.dev then .eth else .other

/-- The loop of `mcast_entry_get` with `n` rounds left: `i` counts rounds, `p` is the entry
looked at, which stays where it is in the round that finds the first unused entry. -/
def mcastEntryGetFrom (mtbl : Nat → McastGroup) (vlanId : BitVec 16) (dstMac : BitVec 32) :
    (n i p : Nat) → (index : Option Nat) → Option Nat
  | 0, _, _, index => index
  | n + 1, i, p, index =>
    if index = none ∧ (mtbl p).valid = false then
      mcastEntryGetFrom mtbl vlanId dstMac n (i + 1) p (some i)
    else if (mtbl p).vid = vlanId ∧ (mtbl p).macHi = dstMac then some i
    else mcastEntryGetFrom mtbl vlanId dstMac n (i + 1) (p + 1) index

variable (c : McastConfig)

def mcastEntryGet (s : McastState) (vlanId : BitVec 16) (dstMac : BitVec 32) : Option Nat :=
  mcastEntryGetFrom s.mtbl vlanId dstMac c.maxEntry 0 0 none

/-- `mcast_h.u.value`: the valid bit, `mc_px_en` and `mc_mpre_sel`. -/
def mcastH (valid : Bool) (mcPxEn : BitVec 4) (mcMpreSel : BitVec 2) : BitVec 32 :=
  (BitVec.ofBool valid).setWidth 32 <<< 14 ||| mcPxEn.setWidth 32 <<< 16 |||
    mcMpreSel.setWidth 32 <<< 20

def McastGroup.mcMpreSel (group : McastGroup) : BitVec 2 := if group.macLo = 0x3333#16 then 1 else 0

def McastGroup.regH (group : McastGroup) : BitVec 32 :=
  mcastH group.valid (group.mcPort.setWidth 4) group.mcMpreSel

def setHnatMtbl (group : McastGroup) (ppeId index : Nat) (s : McastState) : McastState :=
  if ppeId ≥ c.ppeNum then s
  else if index < 0x10 then
    { s with
      ppeH := update s.ppeH ppeId (update (s.ppeH ppeId) index group.regH)
      ppeL := update s.ppeL ppeId (update (s.ppeL ppeId) index group.macHi) }
  else
    { s with
      feH := update s.feH (index - 0x10) group.regH
      feL := update s.feL (index - 0x10) group.regH }

def Notification.countMember (n : Notification) (group : McastGroup) : McastGroup :=
  match n.type with
  | .newmdb =>
    match n.kind with
    | .eth => { group with eif := group.eif + 1, vid := n.vid, valid := true }
    | .other => { group with oif := group.oif + 1, vid := n.vid, valid := true }
  | .delmdb =>
    if group.valid then
      match n.kind with
      | .eth => { group with eif := group.eif - 1 }
      | .other => { group with oif := group.oif - 1 }
    else group

def logicalOr (a b : BitVec 8) : BitVec 8 := if a ≠ 0 ∨ b ≠ 0 then 1 else 0

def McastGroup.setPort (group : McastGroup) : McastGroup :=
  if group.oif ≠ 0 ∧ group.eif ≠ 0 then
    { group with mcPort := logicalOr MCAST_TO_PDMA MCAST_TO_GDMA1 }
  else if group.oif ≠ 0 then { group with mcPort := MCAST_TO_PDMA }
  else { group with mcPort := MCAST_TO_GDMA1 }

def McastGroup.settle (group : McastGroup) : McastGroup :=
  if group.oif = 0 ∧ group.eif = 0 then .cleared else group.setPort

def setAllMtbl (group : McastGroup) (index : Nat) (s : McastState) : McastState :=
  (List.range c.ppeNum).foldl (fun s i => setHnatMtbl c group i index s) s

def hnatMcastTableUpdate (n : Notification) (s : McastState) : Int × McastState :=
  if n.found = false then (-ENODEV, s)
  else
    let mac := getMacFromMdbEntry n.addr
    match mcastEntryGet c s n.vid mac.1 with
    | none => (-1, s)
    | some index =>
      let group := n.countMember { s.mtbl index with macHi := mac.1, macLo := mac.2 }
      if group.valid then
        (0, setAllMtbl c group.settle index
          { s with mtbl := update s.mtbl index group.settle })
      else (0, { s with mtbl := update s.mtbl index group })

/-! ## Runs -/

structure McastKey where
  vid : BitVec 16
  macLo : BitVec 16
  macHi : BitVec 32
  deriving DecidableEq, Repr

def McastGroup.key (group : McastGroup) : McastKey := ⟨group.vid, group.macLo, group.macHi⟩

def Notification.key (n : Notification) : McastKey :=
  ⟨n.vid, (getMacFromMdbEntry n.addr).2, (getMacFromMdbEntry n.addr).1⟩

abbrev Members := Multiset (McastKey × Kind)

def Notification.count (n : Notification) (ms : Members) : Members :=
  match n.type with
  | .newmdb => (n.key, n.kind) ::ₘ ms
  | .delmdb => ms.erase (n.key, n.kind)

def groups (ms : Members) : Finset McastKey := (ms.map Prod.fst).toFinset

/-- A delete matches an earlier add, and an add leaves at most `max_entry` groups alive and
at most 255 members of a kind in its group. -/
def Notification.Legal (n : Notification) (ms : Members) : Prop :=
  match n.type with
  | .newmdb => (n.count ms).count (n.key, n.kind) ≤ 255 ∧ (groups (n.count ms)).card ≤ c.maxEntry
  | .delmdb => (n.key, n.kind) ∈ ms

instance (n : Notification) (ms : Members) : Decidable (n.Legal c ms) :=
  match h : n.type with
  | .newmdb =>
    decidable_of_iff ((n.count ms).count (n.key, n.kind) ≤ 255 ∧
      (groups (n.count ms)).card ≤ c.maxEntry) (by rw [Notification.Legal, h])
  | .delmdb => decidable_of_iff ((n.key, n.kind) ∈ ms) (by rw [Notification.Legal, h])

/-- `ms` and `s` are reached from the table of `hnat_mcast_enable` by notifications that
meet `ok`, whatever the registers hold at first. -/
inductive McastReached (ok : Members → McastState → Notification → Prop) :
    Members → McastState → Prop
  | start {s : McastState} (hs : ∀ i, s.mtbl i = .cleared) : McastReached ok 0 s
  | step {ms : Members} {s : McastState} (n : Notification) (hs : McastReached ok ms s)
      (hlegal : n.Legal c ms) (hok : ok ms s n) :
      McastReached ok (n.count ms) (hnatMcastTableUpdate c n s).2

/-! ## What the table is for -/

def regHOf (s : McastState) (ppeId index : Nat) : BitVec 32 :=
  if index < 0x10 then s.ppeH ppeId index else s.feH (index - 0x10)

def regLOf (s : McastState) (ppeId index : Nat) : BitVec 32 :=
  if index < 0x10 then s.ppeL ppeId index else s.feL (index - 0x10)

/-- The ports the members of a group need: GDMA1 for Ethernet, the CPU for the others. -/
def portsNeeded (ms : Members) (k : McastKey) : BitVec 4 :=
  (if (k, Kind.eth) ∈ ms then MCAST_TO_GDMA1.setWidth 4 else 0) |||
    (if (k, Kind.other) ∈ ms then MCAST_TO_PDMA.setWidth 4 else 0)

/-- The registers of `index` in every engine hold the address of `group`, its valid bit and
the ports its members need. -/
structure RegsHold (ms : Members) (s : McastState) (index : Nat) : Prop where
  addr : ∀ ppeId < c.ppeNum, regLOf s ppeId index = (s.mtbl index).macHi
  valid : ∀ ppeId < c.ppeNum, (regHOf s ppeId index).getLsbD 14 = (s.mtbl index).valid
  ports : ∀ ppeId < c.ppeNum,
    (regHOf s ppeId index).extractLsb' 16 4 = portsNeeded ms (s.mtbl index).key
  sel : ∀ ppeId < c.ppeNum,
    (regHOf s ppeId index).extractLsb' 20 2 = (s.mtbl index).mcMpreSel

/-- The valid entries are the groups with a member left, one entry for each, with its
members of both kinds counted and its registers set. -/
structure TableCorrect (ms : Members) (s : McastState) : Prop where
  alive : ∀ i < c.maxEntry, (s.mtbl i).valid = true → (s.mtbl i).key ∈ groups ms
  entry : ∀ k ∈ groups ms,
    ∃! i, i < c.maxEntry ∧ (s.mtbl i).valid = true ∧ (s.mtbl i).key = k
  eif : ∀ i < c.maxEntry, (s.mtbl i).valid = true →
    (s.mtbl i).eif.toNat = ms.count ((s.mtbl i).key, .eth)
  oif : ∀ i < c.maxEntry, (s.mtbl i).valid = true →
    (s.mtbl i).oif.toNat = ms.count ((s.mtbl i).key, .other)
  regs : ∀ i < c.maxEntry, (s.mtbl i).valid = true → RegsHold c ms s i

end OpenWrt.Hnat
