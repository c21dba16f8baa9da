import OpenWrt.Lib.Buffer
import OpenWrt.Ead.Crypt

/-!
# The bytes of encrypted messages

`ead_encrypt_message` and `ead_decrypt_message` on `struct ead_msg_encrypted` as it lies in the
packet, for messages that are sent one after the other and may be lost.
-/

namespace OpenWrt.Ead

open Lib

/-- Rijndael with the key of a session on blocks of 16 bytes, and SHA-1 in network order. -/
structure Rijndael where
  encrypt : List UInt8 → List UInt8
  decrypt : List UInt8 → List UInt8
  sha1 : List UInt8 → List UInt8
  length_encrypt : ∀ bs, bs.length = 16 → (encrypt bs).length = 16
  decrypt_encrypt : ∀ bs, bs.length = 16 → decrypt (encrypt bs) = bs
  length_sha1 : ∀ bs, (sha1 bs).length = 20

def overBlocks (f : List UInt8 → List UInt8) : Nat → List UInt8 → List UInt8
  | 0, bs => bs
  | n + 1, bs => f (bs.take 16) ++ overBlocks f n (bs.drop 16)

variable (a : Rijndael)

/-- The hash of a message with its hash part set to zero; `body` is the rest. -/
def hashBytes (body : List UInt8) : List UInt8 := a.sha1 (List.replicate 20 0 ++ body)

/-- What follows the hash: counter, padding length, data and padding. -/
def bodyBytes (iv : BitVec 32) (data : List UInt8) (buf : Nat → UInt8) : List UInt8 :=
  let pad := encPad (data.length + ENC_MSG_SIZE)
  wordBytes true iv.toNat ++ UInt8.ofNat pad :: (data ++ (List.range pad).map buf)

def encBytes (iv : BitVec 32) (data : List UInt8) (buf : Nat → UInt8) : List UInt8 :=
  hashBytes a (bodyBytes iv data buf) ++ bodyBytes iv data buf

/-- `ead_encrypt_message` with the new `msg->len`; `buf` is what the buffer holds behind the
data. -/
def encryptBytes (data : List UInt8) (buf : Nat → UInt8) (s : Peer) :
    BitVec 32 × List UInt8 × Peer :=
  let (iv, s) := getTxIv s
  let enc := encBytes a iv data buf
  (BitVec.ofNat 32 enc.length, overBlocks a.encrypt ((enc.length + 15) / 16) enc, s)

/-- `ead_decrypt_message`: the result, and what the packet holds then. -/
def decryptBytes (msgLen : BitVec 32) (enc : List UInt8) (s : Peer) : Int × List UInt8 × Peer :=
  let len := msgLen.toInt
  if len = 0 ∨ 0 < Int.tmod len EAD_ENC_PAD then (0, enc, s)
  else
    let enc := overBlocks a.decrypt ((len.toNat + 15) / 16) enc
    let pad := (enc.getD 24 0).toNat
    if EAD_ENC_PAD ≤ pad then (0, enc, s)
    else
      match checkRxIv (BitVec.ofNat 32 (word true (fun i => enc.getD i 0) 20)) s with
      | none => (0, enc, s)
      | some s =>
        let cleared := List.replicate 20 0 ++ enc.drop 20
        if enc.take 20 ≠ hashBytes a ((enc.take len.toNat).drop 20) then (0, cleared, s)
        else (len - (pad + ENC_MSG_SIZE : Nat), cleared, s)

structure Message where
  data : List UInt8
  buf : Nat → UInt8
  arrives : Bool

def transmit : List Message → Peer → Peer → List (Option (Int × List UInt8))
  | [], _, _ => []
  | m :: ms, tx, rx =>
    let sent := encryptBytes a m.data m.buf tx
    if m.arrives then
      let opened := decryptBytes a sent.1 sent.2.1 rx
      some (opened.1, opened.2.1) :: transmit ms sent.2.2 opened.2.2
    else none :: transmit ms sent.2.2 rx

/-- A message that arrives has its length returned and its data in the packet. -/
def Delivered (m : Message) : Option (Int × List UInt8) → Prop
  | none => m.arrives = false
  | some (ret, enc) => m.arrives = true ∧ ret = m.data.length ∧
      (enc.drop ENC_MSG_SIZE).take m.data.length = m.data

/-! ## Messages that are refused -/

def receive : List (BitVec 32 × List UInt8) → Peer → List Int
  | [], _ => []
  | m :: ms, s =>
    (decryptBytes a m.1 m.2 s).1 :: receive ms (decryptBytes a m.1 m.2 s).2.2

def openedBytes (msgLen : BitVec 32) (enc : List UInt8) : List UInt8 :=
  overBlocks a.decrypt ((msgLen.toInt.toNat + 15) / 16) enc

def Checked (msgLen : BitVec 32) (enc : List UInt8) (s : Peer) : Prop :=
  ¬(msgLen.toInt = 0 ∨ 0 < Int.tmod msgLen.toInt EAD_ENC_PAD) ∧
    ¬EAD_ENC_PAD ≤ ((openedBytes a msgLen enc).getD 24 0).toNat ∧
    checkRxIv (BitVec.ofNat 32 (word true (fun i => (openedBytes a msgLen enc).getD i 0) 20)) s ≠
      none

def HashMatches (msgLen : BitVec 32) (enc : List UInt8) : Prop :=
  (openedBytes a msgLen enc).take 20 =
    hashBytes a (((openedBytes a msgLen enc).take msgLen.toInt.toNat).drop 20)

def Refused (msgLen : BitVec 32) (enc : List UInt8) (s : Peer) : Prop :=
  ¬Checked a msgLen enc s ∨ ¬HashMatches a msgLen enc

end OpenWrt.Ead
