import Mathlib

/-!
# The encrypted channel of ead

`ead_set_key`, `ead_encrypt_message` and `ead_decrypt_message` of
`package/network/services/ead/src/ead-crypt.c`, and two peers with the same key on a
network that an attacker controls.  Rijndael and SHA-1 are parameters.
-/

namespace OpenWrt.Ead

/-- `struct ead_msg_encrypted` with what follows it: the data and the padding. -/
structure EncMsg where
  hash : List (BitVec 32)
  iv : BitVec 32
  pad : BitVec 8
  data : List (BitVec 8)
  deriving DecidableEq, Repr

/-- `sizeof(struct ead_msg_encrypted)`. -/
def ENC_MSG_SIZE : Nat := 25

def EAD_ENC_PAD : Nat := 64
def EAD_MAX_IV_INCR : BitVec 32 := 128

def EncMsg.enclen (m : EncMsg) : Nat := ENC_MSG_SIZE + m.data.length

/-- Rijndael with the session key and SHA-1, over the first `len` bytes. -/
structure Cipher where
  Wire : Type
  encrypt : EncMsg → Wire
  decrypt : Int → Wire → EncMsg
  sha1 : Int → EncMsg → List (BitVec 32)
  decrypt_encrypt : ∀ m, decrypt m.enclen (encrypt m) = m

/-- A message on the wire: `msg->len` in host order and the encrypted part. -/
structure Packet (c : Cipher) where
  len : BitVec 32
  wire : c.Wire

structure Peer where
  rxIv : BitVec 32
  txIv : BitVec 32
  ivofsVec : BitVec 32
  ivofsIdx : Nat
  deriving DecidableEq, Repr

/-- `ead_set_key` with the two words behind the AES key, the first one in host order.
`ivofs_idx` stays as it is. -/
def setKey (iv ivofsVec : BitVec 32) (s : Peer) : Peer :=
  { s with
    rxIv := iv &&& 0x00ffffff
    txIv := iv &&& 0x00ffffff
    ivofsVec := ivofsVec }

/-- `ead_check_rx_iv`; the sum wraps around. -/
def checkRxIv (iv : BitVec 32) (s : Peer) : Option Peer :=
  if iv ≤ s.rxIv then none
  else if iv > s.rxIv + EAD_MAX_IV_INCR then none
  else some { s with rxIv := iv }

def txIvOffset (s : Peer) : BitVec 32 := 1 + (s.ivofsVec >>> (2 * s.ivofsIdx) &&& 3)

def getTxIv (s : Peer) : BitVec 32 × Peer :=
  let txIv := s.txIv + txIvOffset s
  (txIv, { s with txIv := txIv, ivofsIdx := (s.ivofsIdx + 1) % 16 })

variable (c : Cipher)

def hashMessage (len : Int) (enc : EncMsg) : List (BitVec 32) :=
  c.sha1 len { enc with hash := List.replicate 5 0 }

def encPad (len : Nat) : Nat := (EAD_ENC_PAD - len % EAD_ENC_PAD) % EAD_ENC_PAD

def packetOf (m : EncMsg) : Packet c := ⟨BitVec.ofNat 32 m.enclen, c.encrypt m⟩

/-- `ead_encrypt_message`: the padding is what the buffer holds behind the data. -/
def encryptMessage (data : List (BitVec 8)) (buf : Nat → BitVec 8) (s : Peer) : EncMsg × Peer :=
  let pad := encPad (data.length + ENC_MSG_SIZE)
  let (iv, s) := getTxIv s
  let enc : EncMsg := ⟨[], iv, BitVec.ofNat 8 pad, data ++ (List.range pad).map buf⟩
  ({ enc with hash := hashMessage c enc.enclen enc }, s)

/-- `ead_decrypt_message`.  The receive counter moves before the hash is compared. -/
def decryptMessage (msg : Packet c) (s : Peer) : Int × Peer :=
  let len := msg.len.toInt
  if len = 0 ∨ 0 < Int.tmod len EAD_ENC_PAD then (0, s)
  else
    let enc := c.decrypt len msg.wire
    if EAD_ENC_PAD ≤ enc.pad.toNat then (0, s)
    else
      match checkRxIv enc.iv s with
      | none => (0, s)
      | some s =>
        if enc.hash ≠ hashMessage c len enc then (0, s)
        else (len - (enc.pad.toNat + ENC_MSG_SIZE : Nat), s)

/-! ## Two peers -/

inductive Side where
  | left
  | right
  deriving DecidableEq, Repr

def Side.other : Side → Side
  | left => right
  | right => left

/-- Both peers, and as history the messages that each has produced and accepted. -/
structure Channel where
  peer : Side → Peer
  produced : Side → List EncMsg
  accepted : Side → List EncMsg

def Channel.start (iv ivofsVec : BitVec 32) (peer : Side → Peer) : Channel :=
  ⟨fun x => setKey iv ivofsVec (peer x), fun _ => [], fun _ => []⟩

inductive NetOp where
  | send (x : Side) (data : List (BitVec 8)) (buf : Nat → BitVec 8)
  | deliver (x : Side) (msg : Packet c)

def NetOp.run : NetOp c → Channel → Channel
  | .send x data buf, s =>
    let (m, p) := encryptMessage c data buf (s.peer x)
    { s with
      peer := Function.update s.peer x p
      produced := Function.update s.produced x (s.produced x ++ [m]) }
  | .deliver x msg, s =>
    let (ret, p) := decryptMessage c msg (s.peer x)
    { s with
      peer := Function.update s.peer x p
      accepted :=
        if 0 < ret then
          Function.update s.accepted x (s.accepted x ++ [c.decrypt msg.len.toInt msg.wire])
        else s.accepted }

def Channel.sentBy (s : Channel) (x : Side) (msg : Packet c) : Prop :=
  ∃ m ∈ s.produced x, msg = packetOf c m

/-- At most 2^29 messages from each side, whose lengths fit an `unsigned int`; what is
delivered was seen or has a wrong hash. -/
def NetOp.Legal (s : Channel) : NetOp c → Prop
  | .send x data _ => (s.produced x).length < 2 ^ 29 ∧
      data.length + ENC_MSG_SIZE + EAD_ENC_PAD ≤ 2 ^ 32
  | .deliver _ msg => s.sentBy c .left msg ∨ s.sentBy c .right msg ∨
      (0 < msg.len.toInt →
        (c.decrypt msg.len.toInt msg.wire).hash ≠
          hashMessage c msg.len.toInt (c.decrypt msg.len.toInt msg.wire))

inductive Channel.Reached (ok : Channel → NetOp c → Prop) (s : Channel) : Channel → Prop
  | refl : Reached ok s s
  | step {s' : Channel} (op : NetOp c) (hs : Reached ok s s') (hlegal : op.Legal c s')
      (hok : ok s' op) : Reached ok s (op.run c s')

end OpenWrt.Ead
