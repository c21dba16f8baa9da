import Mathlib.Logic.Function.Basic

/-!
# Port isolation of the RTL838x and RTL839x switches

`rtl83xx_setup`, the enabling and disabling of ports and the joining and leaving of
bridges, from `drivers/net/dsa/rtl83xx/dsa.c`.  Row `i` of the isolation matrix holds the
ports that traffic from port `i` may go to; `pm` is the part of the row that is put back
when the port is enabled.
-/

namespace OpenWrt.Rtl83xx

inductive Family where
  | rtl8380
  | rtl8390
  deriving DecidableEq, Repr

namespace Family

def cpuPort : Family → Nat
  | rtl8380 => 28
  | rtl8390 => 52

def numPorts : Family → Nat
  | rtl8380 => 29
  | rtl8390 => 53

end Family

def bitULL (n : Nat) : BitVec 64 := 1#64 <<< n

/-- `BIT(n)` of a 32-bit machine.  The shift is undefined from 32 on; MIPS takes the count
modulo 32. -/
def bitUL (n : Nat) : BitVec 64 := (1#32 <<< (n % 32)).setWidth 64

/-- A switch in its device tree: which ports have a PHY and which are user ports. -/
structure Board where
  family : Family
  phy : Nat → Bool
  isUserPort : Nat → Bool
  user_lt : ∀ i, isUserPort i = true → i < family.cpuPort

structure PortState where
  row : BitVec 64
  enable : Bool
  pm : BitVec 64
  bridgeDev : Option Nat

abbrev Ports := Nat → PortState

variable (b : Board)

/-- A row of the RTL8380 is one register of 32 bits. -/
def setRow (v : BitVec 64) : BitVec 64 :=
  match b.family with
  | .rtl8380 => (v.setWidth 32).setWidth 64
  | .rtl8390 => v

def trafficSet (source : Nat) (destMatrix : BitVec 64) (s : Ports) : Ports :=
  Function.update s source { s source with row := setRow b destMatrix }

def trafficEnable (source dest : Nat) (s : Ports) : Ports :=
  match b.family with
  | .rtl8380 => trafficSet b source ((s source).row ||| bitUL dest) s
  | .rtl8390 => trafficSet b source ((s source).row ||| bitULL dest) s

def trafficDisable (source dest : Nat) (s : Ports) : Ports :=
  trafficSet b source ((s source).row &&& ~~~bitUL dest) s

/-! ## The operations -/

/-- The row of port `i` after `rtl83xx_setup`; a port without a PHY keeps what it has. -/
def setupRow (reset : Nat → BitVec 64) (i : Nat) : BitVec 64 :=
  if i < b.family.cpuPort then
    if b.phy i then setRow b (bitULL b.family.cpuPort ||| bitUL i) else reset i
  else if i = b.family.cpuPort then
    setRow b ((List.range b.family.cpuPort).foldl
      (fun portBitmap i => if b.phy i then portBitmap ||| bitULL i else portBitmap)
      (bitULL b.family.cpuPort))
  else reset i

def setup (reset : Nat → BitVec 64) : Ports := fun i =>
  { row := setupRow b reset i
    enable := i == b.family.cpuPort
    pm := 0
    bridgeDev := none }

def setEnable (port : Nat) (enable : Bool) (s : Ports) : Ports :=
  Function.update s port { s port with enable := enable }

def setPm (port : Nat) (pm : BitVec 64) (s : Ports) : Ports :=
  Function.update s port { s port with pm := pm }

def portEnable (port : Nat) (s : Ports) : Ports :=
  let s := setEnable port true s
  if port = b.family.cpuPort then s
  else
    let s := trafficEnable b b.family.cpuPort port s
    trafficSet b port ((s port).row ||| (s port).pm) s

def portDisable (port : Nat) (s : Ports) : Ports :=
  if !b.isUserPort port then s
  else
    let s := trafficDisable b b.family.cpuPort port s
    let s := trafficSet b port ((s port).row &&& ~~~(s port).pm) s
    setEnable port false s

def isMember (bridge port i : Nat) (s : Ports) : Bool :=
  b.isUserPort i && i != port && (s i).bridgeDev == some bridge

def joinStep (bridge port : Nat) (acc : Ports × BitVec 64) (i : Nat) : Ports × BitVec 64 :=
  let (s, portBitmap) := acc
  if isMember b bridge port i s then
    let s := if (s i).enable then trafficEnable b i port s else s
    (setPm i ((s i).pm ||| bitULL port) s, portBitmap ||| bitULL i)
  else acc

def portBridgeJoin (port bridge : Nat) (s : Ports) : Ports :=
  let (s, portBitmap) := (List.range b.family.numPorts).foldl (joinStep b bridge port)
    (s, bitULL b.family.cpuPort)
  let s :=
    if (s port).enable then
      let s := trafficEnable b b.family.cpuPort port s
      trafficSet b port ((s port).row ||| portBitmap) s
    else s
  setPm port ((s port).pm ||| portBitmap) s

/-- The bit of the leaving port is set in `pm` here, too. -/
def leaveStep (bridge port : Nat) (acc : Ports × BitVec 64) (i : Nat) : Ports × BitVec 64 :=
  let (s, portBitmap) := acc
  if isMember b bridge port i s then
    let s := if (s i).enable then trafficDisable b i port s else s
    (setPm i ((s i).pm ||| bitULL port) s, portBitmap &&& ~~~bitULL i)
  else acc

def portBridgeLeave (port bridge : Nat) (s : Ports) : Ports :=
  let (s, portBitmap) := (List.range b.family.numPorts).foldl (leaveStep b bridge port)
    (s, bitULL b.family.cpuPort)
  let s := if (s port).enable then trafficSet b port ((s port).row ||| portBitmap) s else s
  setPm port ((s port).pm &&& ~~~portBitmap) s

/-! ## Calls of the DSA core -/

inductive PortOp where
  | enable (port : Nat)
  | disable (port : Nat)
  | join (port bridge : Nat)
  | leave (port bridge : Nat)

def setBridgeDev (port : Nat) (bridge : Option Nat) (s : Ports) : Ports :=
  Function.update s port { s port with bridgeDev := bridge }

/-- `bridge_dev` is set before a join and cleared before a leave. -/
def PortOp.run : PortOp → Ports → Ports
  | .enable port, s => portEnable b port s
  | .disable port, s => portDisable b port s
  | .join port bridge, s => portBridgeJoin b port bridge (setBridgeDev port (some bridge) s)
  | .leave port bridge, s => portBridgeLeave b port bridge (setBridgeDev port none s)

/-- The calls that the DSA core makes: a port joins when it is in no bridge and leaves the
bridge it is in. -/
def PortOp.Legal (s : Ports) : PortOp → Prop
  | .enable port => b.isUserPort port = true ∨ port = b.family.cpuPort
  | .disable port => port < b.family.numPorts
  | .join port _ => b.isUserPort port = true ∧ (s port).bridgeDev = none
  | .leave port bridge => b.isUserPort port = true ∧ (s port).bridgeDev = some bridge

def passes (s : Ports) (i j : Nat) : Bool := (s i).row.getLsbD j

/-- Enabled user ports reach each other exactly inside a bridge, and the CPU always. -/
structure Isolated (s : Ports) : Prop where
  user : ∀ i j, b.isUserPort i = true → b.isUserPort j = true → i ≠ j → (s i).enable = true →
    (s j).enable = true →
    (passes s i j = true ↔ (s i).bridgeDev ≠ none ∧ (s i).bridgeDev = (s j).bridgeDev)
  toCpu : ∀ i, b.isUserPort i = true → (s i).enable = true →
    passes s i b.family.cpuPort = true
  fromCpu : ∀ i, b.isUserPort i = true → (s i).enable = true →
    passes s b.family.cpuPort i = true

end OpenWrt.Rtl83xx
