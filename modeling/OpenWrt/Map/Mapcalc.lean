import OpenWrt.Lib.Bits
import OpenWrt.Lib.Trace

/-!
# mapcalc: the parameters of MAP-E, MAP-T and lightweight 4over6

Model of `package/network/ipv6/map/src/mapcalc.c` for one rule, from the options as
`getsubopt`, `strtoul` and `inet_pton` deliver them to the lines that are printed.
Addresses are buffers in network byte order.  The log of a computation holds the
accesses to `pd`, `buf`, `ipv4addr` and the other objects, and the shifts.
-/

namespace OpenWrt.Map

open Lib

/-- Something that C leaves undefined if it goes wrong. -/
inductive Event where
  /-- The bytes from `off` to `off + len` of an object of `size` bytes. -/
  | access (size off len : Nat)
  /-- A shift of an operand of `width` bits. -/
  | shift (width : Nat) (count : Int)
  deriving DecidableEq

def Event.Ok : Event → Prop
  | .access size off len => off + len ≤ size
  | .shift width count => 0 ≤ count ∧ count < width

instance (e : Event) : Decidable e.Ok :=
  match e with
  | .access .. => inferInstanceAs (Decidable (_ ≤ _))
  | .shift .. => inferInstanceAs (Decidable (_ ∧ _))

abbrev Run := Traced Event

/-! ## Bit strings -/

/-- `!bmemcmp(a, b, bits)`. -/
def bmemcmp (a b : Buffer) (bits : Nat) : Bool :=
  let bytes := bits / 8
  let bits := bits % 8
  slice a 0 bytes == slice b 0 bytes &&
    (bits == 0 || (a bytes).toNat / 2 ^ (8 - bits) == (b bytes).toNat / 2 ^ (8 - bits))

/-- `a` and `b` are objects of `asize` and `bsize` bytes. -/
def bmemcpy (asize bsize : Nat) (a b : Buffer) (bits : Nat) : Run Buffer := do
  let bytes := bits / 8
  let bits := bits % 8
  Traced.note (.access asize 0 bytes)
  Traced.note (.access bsize 0 bytes)
  let a := memcpy a 0 b 0 bytes
  if 0 < bits then do
    Traced.note (.shift 32 (8 - bits))
    let mask : UInt8 := UInt8.ofNat (2 ^ (8 - bits) - 1)
    Traced.note (.access asize bytes 1)
    Traced.note (.access bsize bytes 1)
    return Function.update a bytes ((a bytes &&& mask) ||| (~~~mask &&& b bytes))
  else return a

def bmemcpys64 (asize bsize : Nat) (a b : Buffer) (frombits nbits : Nat) : Run Buffer := do
  let frombyte := frombits / 8
  let tobyte := (frombits + nbits) / 8
  Traced.note (.access bsize frombyte (tobyte - frombyte + 1))
  Traced.note (.access 8 0 (tobyte - frombyte + 1))
  let buf := memcpy (fun _ => 0) 0 b frombyte (tobyte - frombyte + 1)
  Traced.note (.shift 64 (frombits % 8))
  let buf := beStore buf 0 8 (beNat buf 0 8 * 2 ^ (frombits % 8) % 2 ^ 64)
  bmemcpy asize 8 a buf nbits

/-! ## The rule -/

structure Rule where
  lw4o6 : Bool := false
  fmr : Bool := false
  ealen : Int := -1
  addr4len : Int := 32
  prefix4len : Int := 32
  prefix6len : Int := -1
  pdlen : Int := -1
  ipv4prefixAddr : Buffer := fun _ => 0
  ipv4addr : Buffer := fun _ => 0
  ipv6addr : Buffer := fun _ => 0
  ipv6prefixAddr : Buffer := fun _ => 0
  pd : Buffer := fun _ => 0
  offset : Int := -1
  psidlen : Int := -1
  psid : Int := -1
  psid16 : Buffer := fun _ => 0

/-- One option.  Numbers are what `strtoul` returns, `none` if it sets `errno`;
addresses are `none` if `inet_pton` refuses them. -/
inductive Opt where
  | type (lw4o6 : Bool)
  | fmr
  | ealen (value : Option Nat)
  | prefix4len (value : Option Nat)
  | prefix6len (value : Option Nat)
  | ipv6prefixAddr (value : Option Buffer)
  | ipv4prefixAddr (value : Option Buffer)
  | offset (value : Option Nat)
  | psidlen (value : Option Nat)
  | psid (value : Option Nat)
  | pd (value : Option Buffer)
  | pdlen (value : Option Nat)
  | other

/-- The conversion to `int` keeps the low 32 bits. -/
def toInt (v : Nat) : Int := Int.bmod v 4294967296

/-- `(intval = strtoul(value, NULL, 0)) <= max && !errno`. -/
def intval (max : Int) (value : Option Nat) : Option Int :=
  value.bind fun v => if toInt v ≤ max then some (toInt v) else none

def Rule.set (r : Rule) : Opt → Rule
  | .type lw4o6 => { r with lw4o6 }
  | .fmr => { r with fmr := true }
  | .ealen v => { r with ealen := (intval 48 v).getD r.ealen }
  | .prefix4len v => { r with prefix4len := (intval 32 v).getD r.prefix4len }
  | .prefix6len v => { r with prefix6len := (intval 128 v).getD r.prefix6len }
  | .ipv6prefixAddr v => { r with ipv6prefixAddr := v.getD r.ipv6prefixAddr }
  | .ipv4prefixAddr v => { r with ipv4prefixAddr := v.getD r.ipv4prefixAddr }
  | .offset v => { r with offset := (intval 16 v).getD r.offset }
  | .psidlen v => { r with psidlen := (intval 16 v).getD r.psidlen }
  | .psid v => { r with psid := (intval 65535 v).getD r.psid }
  | .pd v => { r with pd := v.getD r.pd }
  | .pdlen v => { r with pdlen := (intval 128 v).getD r.pdlen }
  | .other => r

def parseRule (opts : List Opt) : Rule := opts.foldl Rule.set {}

/-- An entry of `ipv6-prefix` or `ipv6-address`; an address that `inet_pton` refuses is
all zeros. -/
structure Delegated where
  address : Buffer
  mask : Nat
  isInt : mask < 2147483648

structure Interface where
  interface : Option String
  prefixes : List Delegated
  addresses : List Delegated

structure Env where
  legacy : Bool
  /-- `argv[1]`. -/
  iface : String
  dump : List Interface

def defaultOffset (lw4o6 legacy : Bool) : Int := if lw4o6 then 0 else if legacy then 4 else 6

def Rule.defaults (legacy : Bool) (r : Rule) : Rule :=
  let offset := if r.offset < 0 then defaultOffset r.lw4o6 legacy else r.offset
  if r.lw4o6 then
    -- LW4over6 has no EALEN and no PSID autodetection
    let psidlen := if r.psidlen < 0 then 0 else r.psidlen
    { r with offset, psidlen, ealen := psidlen }
  else { r with offset }

/-- The address of lw4over6 may be reported as a prefix of 128 bits. -/
def Delegated.maskFor (d : Delegated) (lw4o6 : Bool) : Nat :=
  if lw4o6 = true ∧ d.mask = 128 then 64 else d.mask

/-- One turn of the loop in `match_prefix`.  A negative `prefix6len` makes the rule
invalid below. -/
def matchOne (r : Rule) (d : Delegated) : Run Rule :=
  if r.pdlen < d.maskFor r.lw4o6 ∧ r.prefix6len ≤ d.maskFor r.lw4o6 ∧
      bmemcmp d.address r.ipv6prefixAddr r.prefix6len.toNat then do
    let pd ← bmemcpy 16 16 r.pd d.address (d.maskFor r.lw4o6)
    return { r with pd, pdlen := d.maskFor r.lw4o6 }
  else if r.lw4o6 = true ∧ r.pdlen < r.prefix6len ∧ d.maskFor r.lw4o6 < r.prefix6len ∧
      bmemcmp d.address r.ipv6prefixAddr (d.maskFor r.lw4o6) then do
    let pd ← bmemcpy 16 16 r.pd r.ipv6prefixAddr r.prefix6len.toNat
    return { r with pd, pdlen := r.prefix6len }
  else return r

def matchPrefix (r : Rule) : List Delegated → Run Rule
  | [] => return r
  | d :: ds => do
      let r ← matchOne r d
      matchPrefix r ds

def matchInterface (r : Rule) (c : Interface) : Run Rule := do
  let r ← matchPrefix r c.prefixes
  if r.lw4o6 then matchPrefix r c.addresses else return r

def findPd (iface : String) (r : Rule) : List Interface → Run Rule
  | [] => return r
  | c :: cs =>
    if c.interface = none ∨ (iface ≠ "*" ∧ c.interface ≠ some iface) then findPd iface r cs
    else do
      let r ← matchInterface r c
      if 0 ≤ r.pdlen then return r else findPd iface r cs

def Rule.lengths (r : Rule) : Rule :=
  let ealen := if r.ealen < 0 ∧ 0 ≤ r.pdlen then r.pdlen - r.prefix6len else r.ealen
  if r.psidlen ≤ 0 then
    { r with ealen, psidlen := max (ealen - (32 - r.prefix4len)) 0, psid := -1 }
  else { r with ealen }

/-- The rule is not skipped as invalid or incomplete. -/
def Rule.Valid (r : Rule) : Prop :=
  ¬(r.prefix4len < 0 ∨ r.prefix6len < 0 ∨ r.ealen < 0 ∨ 16 < r.psidlen ∨ r.ealen < r.psidlen)

instance (r : Rule) : Decidable r.Valid := inferInstanceAs (Decidable (¬_))

def searchPd (env : Env) (r : Rule) : Run Rule :=
  if r.pdlen < 0 then findPd env.iface r env.dump else return r

def resolve (env : Env) (opts : List Opt) : Run Rule := do
  let r ← searchPd env ((parseRule opts).defaults env.legacy)
  return r.lengths

def readPsid (r : Rule) : Run Rule :=
  if r.psid < 0 ∧ 0 ≤ r.psidlen ∧ 0 ≤ r.pdlen then do
    let psid16 ← bmemcpys64 2 16 r.psid16 r.pd (r.prefix6len + r.ealen - r.psidlen).toNat
      r.psidlen.toNat
    return { r with psid16, psid := beNat psid16 0 2 }
  else return r

def alignPsid (r : Rule) : Run Rule :=
  if 0 < r.psidlen then do
    Traced.note (.shift 32 (16 - r.psidlen))
    let psid := r.psid >>> (16 - r.psidlen).toNat
    Traced.note (.shift 32 (16 - r.psidlen))
    return { r with
      psid16 := beStore r.psid16 0 2 (psid % 65536).toNat
      psid := psid * 2 ^ (16 - r.psidlen).toNat }
  else return r

def readIpv4 (r : Rule) : Run Rule :=
  if 0 ≤ r.pdlen ∨ r.ealen = r.psidlen then do
    let addr ← bmemcpys64 4 16 r.ipv4addr r.pd r.prefix6len.toNat (r.ealen - r.psidlen).toNat
    Traced.note (.shift 32 r.prefix4len)
    let addr := beStore addr 0 4 (beNat addr 0 4 >>> r.prefix4len.toNat)
    let addr ← bmemcpy 4 4 addr r.ipv4prefixAddr r.prefix4len.toNat
    return { r with
      ipv4addr := addr
      addr4len := if r.prefix4len + r.ealen < 32 then r.prefix4len + r.ealen else r.addr4len }
  else return r

def v4offset (legacy : Bool) : Nat := if legacy then 9 else 10

def makeIpv6 (legacy : Bool) (r : Rule) : Run Rule :=
  if 0 ≤ r.pdlen then do
    Traced.note (.access 16 (v4offset legacy) 4)
    Traced.note (.access 16 (v4offset legacy + 4) 2)
    let addr := memcpy r.ipv6addr (v4offset legacy) r.ipv4addr 0 4
    let addr := memcpy addr (v4offset legacy + 4) r.psid16 0 2
    let ipv6addr ← bmemcpy 16 16 addr r.pd r.pdlen.toNat
    return { r with ipv6addr }
  else return r

def portset (r : Rule) (k : Nat) : Run (Option (Nat × Nat)) := do
  Traced.note (.shift 32 (16 - r.offset))
  Traced.note (.shift 32 r.offset)
  let start := (k * 2 ^ (16 - r.offset).toNat) ||| (r.psid.toNat / 2 ^ r.offset.toNat)
  Traced.note (.shift 32 (16 - r.offset - r.psidlen))
  let last := start + 2 ^ (16 - r.offset - r.psidlen).toNat - 1
  let start := if start = 0 then 1 else start
  return if start ≤ last then some (start, last) else none

def portsetLoop (r : Rule) : Nat → Nat → Run (List (Nat × Nat))
  | 0, _ => return []
  | n + 1, k => do
      let p ← portset r k
      let ps ← portsetLoop r n (k + 1)
      return p.toList ++ ps

def portsets (r : Rule) : Run (Option (List (Nat × Nat))) :=
  if 0 < r.psidlen ∧ 0 ≤ r.psid then do
    Traced.note (.shift 32 r.offset)
    let k := if r.offset = 0 then 0 else 1
    let ps ← portsetLoop r (2 ^ r.offset.toNat - k) k
    return some ps
  else return none

/-- The lines of one rule, without those that repeat an option. -/
structure Printed where
  fmr : Bool
  ealen : Int
  psidlen : Int
  offset : Int
  prefix4len : Int
  prefix6len : Int
  ipv4prefixAddr : Buffer
  ipv6prefixAddr : Buffer
  /-- `IPV6PD`, `PD6LEN` and `IPV6ADDR`. -/
  pd : Option (Buffer × Int × Buffer)
  /-- `IPV4ADDR` and `ADDR4LEN`. -/
  ipv4addr : Option (Buffer × Int)
  portsets : Option (List (Nat × Nat))

def Rule.print (r : Rule) (portsets : Option (List (Nat × Nat))) : Printed where
  fmr := r.fmr
  ealen := r.ealen
  psidlen := r.psidlen
  offset := r.offset
  prefix4len := r.prefix4len
  prefix6len := r.prefix6len
  ipv4prefixAddr := r.ipv4prefixAddr
  ipv6prefixAddr := r.ipv6prefixAddr
  pd := if 0 ≤ r.pdlen then some (r.pd, r.pdlen, r.ipv6addr) else none
  ipv4addr := if beNat r.ipv4addr 0 4 = 0 then none else some (r.ipv4addr, r.addr4len)
  portsets := portsets

def compute (env : Env) (r : Rule) : Run (Option Printed) := do
  let r ← readPsid r
  let r ← alignPsid r
  let r ← readIpv4 r
  if r.pdlen < 0 ∧ r.fmr = false then return none
  else do
    let r ← makeIpv6 env.legacy r
    let ps ← portsets r
    return some (r.print ps)

def mapRule (env : Env) (opts : List Opt) : Run (Option Printed) := do
  let r ← resolve env opts
  if r.Valid then compute env r else return none

end OpenWrt.Map
