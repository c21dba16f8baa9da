import OpenWrt.Ead.Bytes
import OpenWrt.Ead.Proofs.Crypt

/-!
# Messages get through

A message is opened as what it was, and the counter of the receiver is behind by at most four
for each message since the last one that arrived.
-/

namespace OpenWrt.Ead

open Lib List

variable {a : Rijndael} {data bs : List UInt8} {buf : Nat → UInt8} {tx rx : Peer} {iv : BitVec 32}
  {m : Message} {msgs : List Message}

theorem overBlocks_decrypt_encrypt {n : Nat} (h : 16 * n ≤ bs.length) :
    overBlocks a.decrypt n (overBlocks a.encrypt n bs) = bs := by
  induction n generalizing bs with
  | zero => rfl
  | succ n ih =>
    have hblock : (bs.take 16).length = 16 := length_take_of_le (by omega)
    have hlen := a.length_encrypt _ hblock
    rw [overBlocks, overBlocks, take_left' hlen, drop_left' hlen,
      a.decrypt_encrypt _ hblock, ih (by rw [length_drop]; omega), take_append_drop]

theorem length_encBytes :
    (encBytes a iv data buf).length =
      data.length + ENC_MSG_SIZE + encPad (data.length + ENC_MSG_SIZE) := by
  simp only [encBytes, hashBytes, bodyBytes, a.length_sha1, ENC_MSG_SIZE, length_append,
    length_cons, length_wordBytes, length_map, length_range]
  omega

theorem word_encBytes : word true (fun i => (encBytes a iv data buf).getD i 0) 20 = iv.toNat := by
  apply word_eq_of_bytes iv.isLt
  intro i hi
  have hhash : (hashBytes a (bodyBytes iv data buf)).length = 20 := a.length_sha1 _
  rw [encBytes, getD_append_right _ _ _ _ (by omega), hhash, Nat.add_sub_cancel_left,
    bodyBytes, getD_append _ _ _ _ (by rwa [length_wordBytes])]

theorem pad_encBytes :
    (encBytes a iv data buf).getD 24 0 = UInt8.ofNat (encPad (data.length + ENC_MSG_SIZE)) := by
  have hhash : (hashBytes a (bodyBytes iv data buf)).length = 20 := a.length_sha1 _
  rw [encBytes, getD_append_right _ _ _ _ (by omega), hhash]
  rfl

theorem checkRxIv_of_le (hlt : rx.rxIv.toNat < iv.toNat) (hle : iv.toNat ≤ rx.rxIv.toNat + 128)
    (hmax : rx.rxIv.toNat + 128 < 4294967296) : checkRxIv iv rx = some { rx with rxIv := iv } := by
  have hsum : (rx.rxIv + EAD_MAX_IV_INCR).toNat = rx.rxIv.toNat + 128 := by
    exact Nat.mod_eq_of_lt hmax
  rw [checkRxIv, if_neg (BitVec.not_le.mpr hlt), if_neg]
  rw [GT.gt, BitVec.lt_def]
  omega

theorem decryptBytes_encBytes (hlen : data.length + ENC_MSG_SIZE + EAD_ENC_PAD ≤ 2147483648)
    {n : Nat} (hn : (encBytes a iv data buf).length = n) :
    decryptBytes a (BitVec.ofNat 32 n)
        (overBlocks a.encrypt ((n + 15) / 16) (encBytes a iv data buf)) rx =
      (checkRxIv iv rx).elim (0, encBytes a iv data buf, rx) fun s =>
        ((data.length : Int), replicate 20 0 ++ bodyBytes iv data buf, s) := by
  have hhash : (hashBytes a (bodyBytes iv data buf)).length = 20 := a.length_sha1 _
  have hpad : ¬EAD_ENC_PAD ≤ encPad (data.length + ENC_MSG_SIZE) :=
    not_le.mpr (Nat.mod_lt _ (by decide))
  have hfull : n = data.length + ENC_MSG_SIZE + encPad (data.length + ENC_MSG_SIZE) :=
    hn.symm.trans length_encBytes
  have hblocks : n % 64 = 0 ∧ 0 < n ∧ n < 2147483648 := by
    rw [encPad] at hfull
    simp only [ENC_MSG_SIZE, EAD_ENC_PAD] at *
    omega
  have htoInt : (BitVec.ofNat 32 n).toInt = n := by
    rw [BitVec.toInt_eq_toNat_cond, BitVec.toNat_ofNat]
    split <;> omega
  have hmod : ¬((n : Int) = 0 ∨ 0 < Int.tmod n EAD_ENC_PAD) := by
    rw [Int.tmod_eq_emod_of_nonneg (Int.natCast_nonneg n), EAD_ENC_PAD]
    omega
  have hbyte : (UInt8.ofNat (encPad (data.length + ENC_MSG_SIZE))).toNat =
      encPad (data.length + ENC_MSG_SIZE) := by
    rw [UInt8.toNat_ofNat', Nat.mod_eq_of_lt (lt_trans (not_le.mp hpad) (by decide))]
  have hopen : overBlocks a.decrypt ((n + 15) / 16)
      (overBlocks a.encrypt ((n + 15) / 16) (encBytes a iv data buf)) = encBytes a iv data buf :=
    overBlocks_decrypt_encrypt (by omega)
  have hbody : (encBytes a iv data buf).drop 20 = bodyBytes iv data buf := drop_left' hhash
  have htake : (encBytes a iv data buf).take 20 = hashBytes a (bodyBytes iv data buf) :=
    take_left' hhash
  simp only [decryptBytes, htoInt, if_neg hmod, Int.toNat_natCast, hopen, pad_encBytes,
    word_encBytes, hbyte, if_neg hpad, BitVec.ofNat_toNat, BitVec.setWidth_eq,
    take_of_length_le hn.le, hbody, htake, ne_eq, not_true_eq_false, if_false]
  cases checkRxIv iv rx with
  | none => rfl
  | some s =>
    simp only [Option.elim_some]
    congr 1
    omega

theorem take_bodyBytes :
    ((replicate 20 0 ++ bodyBytes iv data buf).drop ENC_MSG_SIZE).take data.length = data := by
  rw [bodyBytes, append_cons, ← append_assoc, drop_left', take_left' rfl]
  simp [ENC_MSG_SIZE]

theorem transmit_delivered (lost : List Message) (hlost : ∀ m ∈ lost, m.arrives = false)
    (hruns : ∀ run, run <:+: lost ++ msgs → (∀ m ∈ run, m.arrives = false) → run.length < 32)
    (hfits : ∀ m ∈ msgs, m.data.length + ENC_MSG_SIZE + EAD_ENC_PAD ≤ 2147483648)
    (hge : rx.rxIv.toNat ≤ tx.txIv.toNat) (hle : tx.txIv.toNat ≤ rx.rxIv.toNat + 4 * lost.length)
    (hmax : tx.txIv.toNat + 4 * msgs.length + 128 < 4294967296) :
    List.Forall₂ Delivered msgs (transmit a msgs tx rx) := by
  induction msgs generalizing lost tx rx with
  | nil => exact .nil
  | cons m msgs ih =>
    have hcount := hruns lost (infix_append' [] lost (m :: msgs)) hlost
    have hoff := txIvOffset_pos_le tx
    rw [length_cons] at hmax
    have hsum : (tx.txIv + txIvOffset tx).toNat = tx.txIv.toNat + (txIvOffset tx).toNat := by
      rw [BitVec.toNat_add, Nat.mod_eq_of_lt (by omega)]
    have hiv : (encryptBytes a m.data m.buf tx).2.2.txIv.toNat =
        tx.txIv.toNat + (txIvOffset tx).toNat := hsum
    have hfits' : ∀ m ∈ msgs, m.data.length + ENC_MSG_SIZE + EAD_ENC_PAD ≤ 2147483648 :=
      fun m hm => hfits m (mem_cons_of_mem _ hm)
    by_cases harrives : m.arrives = true
    · have hopened : decryptBytes a (encryptBytes a m.data m.buf tx).1
          (encryptBytes a m.data m.buf tx).2.1 rx =
            ((m.data.length : Int),
              replicate 20 0 ++ bodyBytes (tx.txIv + txIvOffset tx) m.data m.buf,
              { rx with rxIv := tx.txIv + txIvOffset tx }) := by
        simp only [encryptBytes, getTxIv]
        rw [decryptBytes_encBytes (hfits m mem_cons_self) rfl,
          checkRxIv_of_le (by omega) (by omega) (by omega), Option.elim_some]
      simp only [transmit, if_pos harrives, hopened]
      refine .cons ⟨harrives, rfl, take_bodyBytes⟩ (ih [] (by simp) ?_ hfits' ?_ ?_ ?_)
      · intro run hrun
        exact hruns run (hrun.trans ⟨lost ++ [m], [], by simp⟩)
      · exact le_refl _
      · exact le_refl _
      · omega
    · have hfalse := Bool.eq_false_of_not_eq_true harrives
      simp only [transmit, if_neg harrives]
      refine .cons hfalse (ih (lost ++ [m]) ?_ ?_ hfits' ?_ ?_ ?_)
      · rw [forall_mem_append, forall_mem_singleton]
        exact ⟨hlost, hfalse⟩
      · rwa [append_assoc]
      · omega
      · rw [length_append, length_singleton]
        omega
      · omega

/-- Every message that arrives is delivered, if fewer than 32 in a row are lost. -/
theorem channel_delivers (iv ivofsVec : BitVec 32) (tx rx : Peer)
    (hcount : msgs.length ≤ 2 ^ 29)
    (hfits : ∀ m ∈ msgs, m.data.length + ENC_MSG_SIZE + EAD_ENC_PAD ≤ 2147483648)
    (hruns : ∀ run, run <:+: msgs → (∀ m ∈ run, m.arrives = false) → run.length < 32) :
    List.Forall₂ Delivered msgs
      (transmit a msgs (setKey iv ivofsVec tx) (setKey iv ivofsVec rx)) := by
  have hiv : (iv &&& 0x00ffffff).toNat ≤ 16777215 := by
    exact Nat.and_le_right
  apply transmit_delivered [] (by simp) hruns hfits le_rfl le_rfl
  change (iv &&& 0x00ffffff).toNat + _ + _ < _
  omega

def plainCipher : Rijndael := ⟨id, id, fun _ => replicate 20 0, fun _ h => h, fun _ _ => rfl,
  fun _ => rfl⟩

theorem channel_delivers_plain :
    List.Forall₂ Delivered
      [⟨[1], fun _ => 7, true⟩, ⟨[2, 3], fun _ => 7, false⟩, ⟨[], fun _ => 7, true⟩]
      (transmit plainCipher
        [⟨[1], fun _ => 7, true⟩, ⟨[2, 3], fun _ => 7, false⟩, ⟨[], fun _ => 7, true⟩]
        (setKey 5 0xe4 ⟨0, 0, 0, 0⟩) (setKey 5 0xe4 ⟨0, 0, 0, 9⟩)) := by
  refine channel_delivers 5 0xe4 ⟨0, 0, 0, 0⟩ ⟨0, 0, 0, 9⟩ (by decide) ?_ ?_
  · simp [ENC_MSG_SIZE, EAD_ENC_PAD]
  · intro run hrun _
    exact lt_of_le_of_lt hrun.length_le (by decide)

/-! ## A refused message -/

theorem decryptBytes_of_not_checked {msgLen : BitVec 32} {enc : List UInt8}
    (h : ¬Checked a msgLen enc rx) : (decryptBytes a msgLen enc rx).2.2 = rx := by
  unfold decryptBytes
  by_cases hlen : msgLen.toInt = 0 ∨ 0 < Int.tmod msgLen.toInt EAD_ENC_PAD
  · rw [if_pos hlen]
  rw [if_neg hlen]
  by_cases hpad : EAD_ENC_PAD ≤ ((openedBytes a msgLen enc).getD 24 0).toNat
  · rw [← openedBytes, if_pos hpad]
  have hcheck : checkRxIv (BitVec.ofNat 32
      (word true (fun i => (openedBytes a msgLen enc).getD i 0) 20)) rx = none := by
    by_contra hne
    exact h ⟨hlen, hpad, hne⟩
  rw [← openedBytes, if_neg hpad, hcheck]

/-- The counter has moved before the hash is compared. -/
theorem decryptBytes_of_checked {msgLen : BitVec 32} {enc : List UInt8}
    (h : Checked a msgLen enc rx) :
    ∃ iv, checkRxIv iv rx = some (decryptBytes a msgLen enc rx).2.2 := by
  obtain ⟨hlen, hpad, hcheck⟩ := h
  obtain ⟨s, hs⟩ := Option.ne_none_iff_exists'.mp hcheck
  have hstate : (decryptBytes a msgLen enc rx).2.2 = s := by
    unfold decryptBytes
    rw [if_neg hlen, ← openedBytes, if_neg hpad, hs]
    dsimp only
    split <;> rfl
  exact ⟨_, hs.trans (congrArg some hstate.symm)⟩

def messageOf (a : Rijndael) (iv : BitVec 32) : BitVec 32 × List UInt8 :=
  (BitVec.ofNat 32 64, overBlocks a.encrypt ((64 + 15) / 16) (encBytes a iv [0] fun _ => 0))

theorem receive_messageOf :
    receive a [messageOf a iv] rx = [(checkRxIv iv rx).elim 0 fun _ => 1] := by
  have hlen : (encBytes a iv [0] fun _ => 0).length = 64 := length_encBytes
  rw [receive, messageOf, decryptBytes_encBytes (by decide) hlen]
  cases checkRxIv iv rx <;> rfl

/-- A refused message has no effect on later ones unless its hash is all that is wrong. -/
theorem refused_no_effect_iff (a : Rijndael) (msgLen : BitVec 32) (enc : List UInt8) (s : Peer) :
    (Refused a msgLen enc s →
      ∀ later, receive a later (decryptBytes a msgLen enc s).2.2 = receive a later s) ↔
      ¬Checked a msgLen enc s ∨ HashMatches a msgLen enc := by
  constructor
  · intro hsame
    by_contra hwrong
    rw [not_or, not_not] at hwrong
    -- a message with the same counter was acceptable before, and is not any more
    obtain ⟨iv, hiv⟩ := decryptBytes_of_checked hwrong.1
    have hstale : checkRxIv iv (decryptBytes a msgLen enc s).2.2 = none := by
      rw [(checkRxIv_some hiv).2, checkRxIv, if_pos (BitVec.le_refl iv)]
    have hresult := hsame (.inr hwrong.2) [messageOf a iv]
    rw [receive_messageOf, receive_messageOf, hstale, hiv, Option.elim_some] at hresult
    exact absurd hresult (by decide)
  · intro hwhen hrefused later
    have hchecked : ¬Checked a msgLen enc s := by
      rcases hwhen with hchecked | hhash
      · exact hchecked
      · exact hrefused.resolve_right (not_not.mpr hhash)
    rw [decryptBytes_of_not_checked hchecked]

def wrongHash : List UInt8 := replicate 20 1 ++ 0 :: 0 :: 0 :: 6 :: replicate 40 0

theorem refused_blocks_next :
    Refused plainCipher 64 wrongHash ⟨5, 5, 0, 0⟩ ∧
    (decryptBytes plainCipher 64 wrongHash ⟨5, 5, 0, 0⟩).1 = 0 ∧
    receive plainCipher [messageOf plainCipher 6]
      (decryptBytes plainCipher 64 wrongHash ⟨5, 5, 0, 0⟩).2.2 = [0] ∧
    receive plainCipher [messageOf plainCipher 6] ⟨5, 5, 0, 0⟩ = [1] := by
  refine ⟨.inr ?_, by decide +kernel⟩
  unfold HashMatches
  decide +kernel

end OpenWrt.Ead
