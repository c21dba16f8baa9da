import OpenWrt.Hnat.Mcast

/-!
# External devices of the HNAT driver

The tables `ext_if` and `wifi_hook_if` of `mtk_hnat/hnat_nf_hook.c` and
`hnat_release_netdev` of `hnat.c`, with a count of the references held for each device.
`ext_if` is the list of its used slots: `ext_if_add` appends to them and `ext_if_del` closes
the gap.
-/

namespace OpenWrt.Hnat

def MAX_EXT_DEVS : Nat := 0x3f
def MAX_IF_NUM : Nat := 64
def MAX_EXT_PREFIX_NUM : Nat := 8
def IFNAMSIZ : Nat := 16

structure ExtdevEntry where
  name : String
  dev : Option Nat
  deriving DecidableEq, Repr

structure ExtConfig where
  extDevices : List String
  extDevicesPrefix : List String
  devName : Nat → String
  devName_lt : ∀ d, (devName d).toList.length < IFNAMSIZ

structure ExtState where
  extIf : List ExtdevEntry
  /-- The entries of `wifi_hook_if` from index 1 on. -/
  wifiHookIf : List (Option Nat)
  /-- Calls of `dev_hold` less calls of `dev_put`. -/
  refs : Nat → Int
  /-- The last event of the device was `NETDEV_UP`. -/
  isUp : Nat → Bool

variable (c : ExtConfig)

def devHold (d : Nat) (s : ExtState) : ExtState :=
  { s with refs := Function.update s.refs d (s.refs d + 1) }

def devPut (d : Nat) (s : ExtState) : ExtState :=
  { s with refs := Function.update s.refs d (s.refs d - 1) }

/-- `strncpy(ext_entry->name, name, IFNAMSIZ - 1)`. -/
def entryName (name : String) : String := String.ofList (name.toList.take (IFNAMSIZ - 1))

def getExtDeviceNumber (s : ExtState) : Nat := s.extIf.length

def findExtifFromDevname (name : String) (s : ExtState) : Bool :=
  s.extIf.any fun e => e.name = name

def extIfAdd (e : ExtdevEntry) (s : ExtState) : ExtState :=
  if getExtDeviceNumber s < MAX_EXT_DEVS then { s with extIf := s.extIf ++ [e] } else s

def extifMatch (name : String) (s : ExtState) : Option Nat :=
  s.extIf.findIdx? fun e => e.name = name && e.dev = none

def extifPrefixMatch (name : String) : Bool :=
  (c.extDevicesPrefix.take MAX_EXT_PREFIX_NUM).any fun p => p.length ≠ 0 && nameStarts name p

def extifNewDev (d : Nat) (s : ExtState) : ExtState :=
  extIfAdd ⟨entryName (c.devName d), some d⟩ (devHold d s)

def extifSetDev (d : Nat) (tryPrefix alloc : Bool) (s : ExtState) : ExtState :=
  match extifMatch (c.devName d) s with
  | none =>
    if tryPrefix && extifPrefixMatch c (c.devName d) then
      if getExtDeviceNumber s ≥ MAX_EXT_DEVS then s
      else if alloc = false then s
      else extifNewDev c d s
    else s
  | some i =>
    let s := devHold d s
    { s with extIf := s.extIf.modify i fun e => { e with dev := some d } }

def extifPutDev (d : Nat) (s : ExtState) : ExtState :=
  match s.extIf.findIdx? fun e => e.dev = some d with
  | none => s
  | some i =>
    devPut d { s with extIf := s.extIf.modify i fun e => { e with dev := none } }

/-- The loop of `hnat_release_netdev` with `n` rounds left.  `ext_if_del` moves the slots
behind slot `i` down before `i` is counted up. -/
def hnatReleaseFrom : (n i : Nat) → ExtState → ExtState
  | 0, _, s => s
  | n + 1, i, s =>
    match s.extIf[i]? with
    | none => s
    | some e =>
      let s := match e.dev with
        | some d => devPut d s
        | none => s
      hnatReleaseFrom n (i + 1) { s with extIf := s.extIf.eraseIdx i }

def hnatReleaseNetdev (s : ExtState) : ExtState := hnatReleaseFrom MAX_EXT_DEVS 0 s

def guestSkipped (guestEn : Bool) (d : Nat) : Bool :=
  !guestEn && (c.devName d = "ra1" || c.devName d = "rax1")

inductive ExtOp where
  | up (d : Nat) (guestEn alloc : Bool)
  | goingDown (d : Nat)
  | register (d : Nat) (guestEn alloc : Bool)
  | unregister (d : Nat)

def netdevUp (d : Nat) (guestEn alloc : Bool) (s : ExtState) : ExtState :=
  if guestSkipped c guestEn d then s else extifSetDev c d true alloc s

def netdevGoingDown (d : Nat) (s : ExtState) : ExtState :=
  if some d ∈ s.wifiHookIf then s else extifPutDev d s

def addWifiHookIf (d i : Nat) (s : ExtState) : ExtState :=
  let s := devHold d s
  { s with wifiHookIf := s.wifiHookIf.modify i fun _ => some d }

def mtkPpeDevRegisterHook (d : Nat) (guestEn alloc : Bool) (s : ExtState) : ExtState :=
  if guestSkipped c guestEn d then s
  else if some d ∈ s.wifiHookIf then s
  else
    match s.wifiHookIf.findIdx? fun h => h = none with
    | none => s
    | some i =>
      if findExtifFromDevname (c.devName d) s then
        addWifiHookIf d i (extifSetDev c d false alloc s)
      else if getExtDeviceNumber s ≥ MAX_EXT_DEVS then s
      else if alloc = false then s
      else addWifiHookIf d i (extifNewDev c d s)

def mtkPpeDevUnregisterHook (d : Nat) (s : ExtState) : ExtState :=
  match s.wifiHookIf.findIdx? fun h => h = some d with
  | none => extifPutDev d s
  | some i => extifPutDev d (devPut d { s with wifiHookIf := s.wifiHookIf.modify i fun _ => none })

def ExtOp.run : ExtOp → ExtState → ExtState
  | .up d guestEn alloc, s =>
    netdevUp c d guestEn alloc { s with isUp := Function.update s.isUp d true }
  | .goingDown d, s => netdevGoingDown d { s with isUp := Function.update s.isUp d false }
  | .register d guestEn alloc, s => mtkPpeDevRegisterHook c d guestEn alloc s
  | .unregister d, s => mtkPpeDevUnregisterHook d s

/-- The events of a device alternate. -/
def ExtOp.Legal (s : ExtState) : ExtOp → Prop
  | .up d _ _ => s.isUp d = false
  | .goingDown d => s.isUp d = true
  | _ => True

def hnatProbe : ExtState :=
  c.extDevices.foldl (fun s name => extIfAdd ⟨entryName name, none⟩ s)
    ⟨[], List.replicate (MAX_IF_NUM - 1) none, fun _ => 0, fun _ => false⟩

inductive ExtReached (ok : ExtState → ExtOp → Prop) : ExtState → Prop
  | start : ExtReached ok (hnatProbe c)
  | step {s : ExtState} (op : ExtOp) (hs : ExtReached ok s) (hlegal : op.Legal s) (hok : ok s op) :
      ExtReached ok (op.run c s)

def held (s : ExtState) (d : Nat) : Nat := s.extIf.countP fun e => e.dev = some d

def hooked (s : ExtState) (d : Nat) : Nat := s.wifiHookIf.countP fun h => h = some d

end OpenWrt.Hnat
