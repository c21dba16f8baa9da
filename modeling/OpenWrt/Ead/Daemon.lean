import Mathlib.Logic.Basic

/-!
# The emergency access daemon

The protocol of `package/network/services/ead/src/ead.c`: the filter `handle_packet`, the
dispatch by `parse_message`, the handlers, and `set_state`, which opens and closes the SRP
session.  A `struct t_server` is a number that is never given out twice; `ts` and `B` point
to such an object, and a use of a pointer that is NULL or whose object was closed is a
fault.  What the SRP library and the password file answer is free.
-/

namespace OpenWrt.Ead

def EAD_TYPE_PING : Int := 0
def EAD_TYPE_SET_USERNAME : Int := 2
def EAD_TYPE_GET_PRIME : Int := 4
def EAD_TYPE_SEND_A : Int := 6
def EAD_TYPE_SEND_AUTH : Int := 8
def EAD_TYPE_SEND_CMD : Int := 10

def EAD_MAGIC : Nat := 3671771902
def EAD_PORT : Nat := 56026
def ETHERTYPE_IP : Nat := 0x0800
def UIP_PROTO_UDP : Nat := 17

/-- `sizeof(struct ead_packet)`. -/
def EAD_PACKET_SIZE : Nat := 62

def MAXPARAMLEN : Int := 256

/-- A received packet, numbers in host order; `caplen` is `h->len`. -/
structure EadPacket where
  caplen : Nat
  etherType : Nat
  broadcast : Bool
  proto : Nat
  destport : Nat
  magic : Nat
  msgLen : BitVec 32
  type : BitVec 32
  nid : BitVec 16
  sid : BitVec 16
  username : List (BitVec 8)
  number : List (BitVec 8)

structure Answers where
  preparePassword : Bool
  serverOpenRaw : Bool
  serverGetKey : Bool
  serverVerify : Bool

inductive Event where
  | username (name : List (BitVec 8))
  | opened (ts : Nat) (name : List (BitVec 8))
  | getPrime (ts : Option Nat)
  | sendA (ts : Option Nat)
  | keySet (ts : Option Nat)
  | sendAuth (ts : Option Nat)
  | verified (ts : Option Nat)
  | sendCmd (ts : Option Nat) (key : Option Nat)
  deriving DecidableEq, Repr

/-- The static variables of the daemon.  `key` is the session that the channel key comes
from, `live` holds the sessions that are open; `fault` and `log` are history. -/
structure Daemon where
  state : Int
  username : List (BitVec 8)
  tce : Bool
  ts : Option Nat
  B : Option Nat
  A : List (BitVec 8)
  key : Option Nat
  live : List Nat
  next : Nat
  fault : Bool
  log : List Event

def Daemon.start : Daemon where
  state := EAD_TYPE_SET_USERNAME
  username := []
  tce := false
  ts := none
  B := none
  A := []
  key := none
  live := []
  next := 0
  fault := false
  log := []

namespace Daemon

def note (e : Event) (d : Daemon) : Daemon := { d with log := d.log ++ [e] }

def use (p : Option Nat) (d : Daemon) : Daemon :=
  match p with
  | none => { d with fault := true }
  | some ts => if ts ∈ d.live then d else { d with fault := true }

def useTce (d : Daemon) : Daemon := if d.tce then d else { d with fault := true }

def serverClose (d : Daemon) : Daemon :=
  let d := d.use d.ts
  match d.ts with
  | none => d
  | some ts => { d with live := d.live.erase ts }

def serverOpenRaw (d : Daemon) (ok : Bool) : Daemon :=
  let d := d.useTce
  if ok then
    { d with ts := some d.next, live := d.next :: d.live, next := d.next + 1 }.note
      (.opened d.next d.username)
  else { d with ts := none }

end Daemon

def setState (r : Answers) (nstate : Int) (d : Daemon) : Daemon :=
  if d.state = nstate then d
  else if nstate < d.state then
    if nstate < EAD_TYPE_GET_PRIME ∧ d.state ≥ EAD_TYPE_GET_PRIME then
      { d.serverClose with ts := none, state := nstate }
    else { d with state := nstate }
  else if d.state = EAD_TYPE_SET_USERNAME then
    if r.preparePassword then
      -- gettcid(tpe.index) with index 1 is never NULL
      let d := { d with tce := true }.serverOpenRaw r.serverOpenRaw
      if d.ts = none then d else { d with state := nstate }
    else d
  else if d.state = EAD_TYPE_GET_PRIME then
    -- t_servergenexp returns the address of a member of *ts
    { d.use d.ts with B := d.ts, state := nstate }
  else if d.state = EAD_TYPE_SEND_A then
    let d := d.use d.ts
    if r.serverGetKey then { d with key := d.ts, state := nstate }.note (.keySet d.ts) else d
  else { d with state := nstate }

/-! ## The handlers, with `*nstate` -/

def copyUsername (name : List (BitVec 8)) : List (BitVec 8) :=
  (name.take 31).takeWhile (· ≠ 0)

def handleSetUsername (r : Answers) (pkt : EadPacket) (d : Daemon) : Daemon × Int :=
  let d := d.note (.username (copyUsername pkt.username))
  let d := setState r EAD_TYPE_SET_USERNAME d
  ({ d with username := copyUsername pkt.username }, EAD_TYPE_GET_PRIME)

def handleGetPrime (d : Daemon) : Daemon × Int :=
  ((d.note (.getPrime d.ts)).useTce.use d.ts, EAD_TYPE_SEND_A)

/-- A negative length makes `memcpy` run off the address space. -/
def handleSendA (pkt : EadPacket) (d : Daemon) : Option (Daemon × Int) :=
  let d := d.note (.sendA d.ts)
  let len := (pkt.msgLen - 1).toInt
  if len > MAXPARAMLEN + 1 then some (d, d.state)
  else if len < 0 then none
  else some ({ d with A := pkt.number.take len.toNat }.use d.B, EAD_TYPE_SEND_AUTH)

def handleSendAuth (r : Answers) (d : Daemon) : Daemon × Int :=
  let d := (d.note (.sendAuth d.ts)).use d.ts
  if r.serverVerify then ((d.note (.verified d.ts)).use d.ts, EAD_TYPE_SEND_CMD)
  else (d, EAD_TYPE_SET_USERNAME)

/-- What a command does leaves the protocol state alone. -/
def handleSendCmd (d : Daemon) : Daemon × Int := (d.note (.sendCmd d.ts d.key), d.state)

def handler (r : Answers) (pkt : EadPacket) (type : Int) :
    Option (Nat × (Daemon → Option (Daemon × Int))) :=
  if type = EAD_TYPE_PING then some (0, fun d => some (d, d.state))
  else if type = EAD_TYPE_SET_USERNAME then some (32, fun d => some (handleSetUsername r pkt d))
  else if type = EAD_TYPE_GET_PRIME then some (0, fun d => some (handleGetPrime d))
  else if type = EAD_TYPE_SEND_A then some (1, handleSendA pkt)
  else if type = EAD_TYPE_SEND_AUTH then some (20, fun d => some (handleSendAuth r d))
  else if type = EAD_TYPE_SEND_CMD then some (28, fun d => some (handleSendCmd d))
  else none

/-- `parse_message` of instance `id`; `none` if the daemon does not survive the packet. -/
def parseMessage (id : Nat) (r : Answers) (pkt : EadPacket) (d : Daemon) : Option Daemon :=
  let type := pkt.type.toInt
  if type ≥ EAD_TYPE_GET_PRIME ∧ d.state ≠ type then some d
  else if type ≠ EAD_TYPE_PING ∧ ((pkt.sid &&& 0xf000) >>> 12).toNat ≠ id then some d
  else
    match handler r pkt type with
    | none => some d
    | some (minLen, handle) =>
      if pkt.caplen < EAD_PACKET_SIZE + minLen then some d
      else (handle d).map fun (d, nstate) => setState r nstate d

/-- `handle_packet`; `sizeT` is the number of values of a `size_t`. -/
def handlePacket (sizeT id : Nat) (nid : BitVec 16) (r : Answers) (pkt : EadPacket) (d : Daemon) :
    Option Daemon :=
  if pkt.caplen < EAD_PACKET_SIZE then some d
  else if pkt.etherType ≠ ETHERTYPE_IP then some d
  else if !pkt.broadcast then some d
  else if pkt.proto ≠ UIP_PROTO_UDP then some d
  else if pkt.destport ≠ EAD_PORT then some d
  else if pkt.magic ≠ EAD_MAGIC then some d
  else if pkt.caplen < (EAD_PACKET_SIZE + pkt.msgLen.toNat) % sizeT then some d
  else if pkt.nid ≠ 0xffff ∧ pkt.nid ≠ nid then some d
  else parseMessage id r pkt d

inductive Daemon.Reached (sizeT id : Nat) (nid : BitVec 16) : Daemon → Prop
  | start : Reached sizeT id nid Daemon.start
  | packet {d d' : Daemon} (r : Answers) (pkt : EadPacket) (hd : Reached sizeT id nid d)
      (hstep : handlePacket sizeT id nid r pkt d = some d') : Reached sizeT id nid d'

/-! ## What the log says -/

def authSteps (ts : Nat) (name : List (BitVec 8)) : List Event :=
  [.opened ts name, .getPrime (some ts), .sendA (some ts), .keySet (some ts), .sendAuth (some ts),
    .verified (some ts)]

def Event.isUsername : Event → Bool
  | .username _ => true
  | _ => false

/-- Since the last SET_USERNAME in `log`, session `ts` was opened for that name and went
through the steps `steps ts name` in order. -/
def WentThrough (steps : Nat → List (BitVec 8) → List Event) (log : List Event) (ts : Nat) : Prop :=
  ∃ before name after, log = before ++ .username name :: after ∧
    (∀ e ∈ after, e.isUsername = false) ∧ (steps ts name).Sublist after

end OpenWrt.Ead
