import OpenWrt.Ead.Crypt

/-!
# Replay and reflection

The counters of a peer only grow, so what it accepts is in the order of the counters.  If
no peer gets back a message of its own whose counter lies in its window, all that it
accepts comes from the other one.  Both directions start from the same counter, so without
that condition a message that is sent back at once is accepted.
-/

namespace OpenWrt.Ead

open List Function

variable {c : Cipher} {s : Channel} {x y : Side}

/-! ## The counters -/

theorem checkRxIv_some {iv : BitVec 32} {p q : Peer} (h : checkRxIv iv p = some q) :
    p.rxIv < iv ∧ q = { p with rxIv := iv } := by
  unfold checkRxIv at h
  split at h
  · cases h
  · rename_i hlt
    split at h
    · cases h
    · cases h
      exact ⟨BitVec.not_le.mp hlt, rfl⟩

theorem txIvOffset_pos_le (p : Peer) : 1 ≤ (txIvOffset p).toNat ∧ (txIvOffset p).toNat ≤ 4 := by
  have hand : (p.ivofsVec >>> (2 * p.ivofsIdx) &&& 3).toNat ≤ 3 := by
    exact Nat.and_le_right
  unfold txIvOffset
  rw [BitVec.toNat_add]
  have hone : (1 : BitVec 32).toNat = 1 := rfl
  omega

theorem encryptMessage_spec (data : List (BitVec 8)) (buf : Nat → BitVec 8) (p : Peer) :
    (encryptMessage c data buf p).1.iv = p.txIv + txIvOffset p ∧
      (encryptMessage c data buf p).2.txIv = p.txIv + txIvOffset p ∧
      (encryptMessage c data buf p).2.rxIv = p.rxIv :=
  ⟨rfl, rfl, rfl⟩

theorem encryptMessage_enclen (data : List (BitVec 8)) (buf : Nat → BitVec 8) (p : Peer)
    (h : data.length + ENC_MSG_SIZE + EAD_ENC_PAD ≤ 2 ^ 32) :
    (encryptMessage c data buf p).1.enclen < 2 ^ 32 := by
  have hpad : encPad (data.length + ENC_MSG_SIZE) < EAD_ENC_PAD := Nat.mod_lt _ (by decide)
  have hlen : (encryptMessage c data buf p).1.enclen =
      ENC_MSG_SIZE + (data.length + encPad (data.length + ENC_MSG_SIZE)) := by
    simp [encryptMessage, EncMsg.enclen]
  omega

structure Accepts (c : Cipher) (msg : Packet c) (p q : Peer) : Prop where
  len : 0 < msg.len.toInt
  window : checkRxIv (c.decrypt msg.len.toInt msg.wire).iv p ≠ none
  lt : p.rxIv < (c.decrypt msg.len.toInt msg.wire).iv
  rxIv : q.rxIv = (c.decrypt msg.len.toInt msg.wire).iv
  hash : (c.decrypt msg.len.toInt msg.wire).hash =
    hashMessage c msg.len.toInt (c.decrypt msg.len.toInt msg.wire)

theorem decryptMessage_spec (msg : Packet c) (p : Peer) :
    (decryptMessage c msg p).2.txIv = p.txIv ∧ p.rxIv ≤ (decryptMessage c msg p).2.rxIv ∧
      (0 < (decryptMessage c msg p).1 → Accepts c msg p (decryptMessage c msg p).2) := by
  have hreject : p.txIv = p.txIv ∧ p.rxIv ≤ p.rxIv ∧ ((0 : Int) < 0 → Accepts c msg p p) :=
    ⟨rfl, BitVec.le_refl _, fun h => absurd h (by decide)⟩
  unfold decryptMessage
  dsimp only
  split
  · exact hreject
  split
  · exact hreject
  split
  · exact hreject
  rename_i q hcheck
  rcases checkRxIv_some hcheck with ⟨hlt, rfl⟩
  split
  · exact ⟨rfl, BitVec.le_of_lt hlt, fun h => absurd h (Int.lt_irrefl 0)⟩
  · rename_i hhash
    refine ⟨rfl, BitVec.le_of_lt hlt, fun hpos => ⟨?_, ?_, hlt, rfl, not_not.mp hhash⟩⟩
    · omega
    · rw [hcheck]
      exact fun h => by cases h

theorem Accepts.opened {m : EncMsg} {p q : Peer} (h : Accepts c (packetOf c m) p q)
    (hfits : m.enclen < 2 ^ 32) :
    c.decrypt (packetOf c m).len.toInt (packetOf c m).wire = m := by
  have hlen : (packetOf c m).len.toInt = m.enclen := by
    have hpos := h.len
    simp only [packetOf, BitVec.toInt_eq_toNat_cond, BitVec.toNat_ofNat] at hpos ⊢
    split at hpos <;> split <;> omega
  rw [hlen]
  exact c.decrypt_encrypt m

/-! ## The invariant -/

def Ascending (l : List EncMsg) : Prop := l.Pairwise fun m m' => m.iv < m'.iv

theorem Ascending.append {l : List EncMsg} {m : EncMsg} {iv : BitVec 32} (h : Ascending l)
    (hle : ∀ m' ∈ l, m'.iv ≤ iv) (hlt : iv < m.iv) : Ascending (l ++ [m]) := by
  refine pairwise_append.mpr ⟨h, pairwise_singleton _ _, ?_⟩
  intro m' hm' m'' hm''
  rw [mem_singleton] at hm''
  rw [hm'']
  exact lt_of_le_of_lt (BitVec.le_def.mp (hle m' hm')) hlt

/-- The invariant of one side, where `other` is what the other side has produced. -/
structure SideInv (p : Peer) (produced accepted other : List EncMsg) : Prop where
  producedAsc : Ascending produced
  producedLe : ∀ m ∈ produced, m.iv ≤ p.txIv
  txIv : p.txIv.toNat < 2 ^ 24 + 4 * produced.length
  fits : ∀ m ∈ produced, m.enclen < 2 ^ 32
  acceptedAsc : Ascending accepted
  acceptedLe : ∀ m ∈ accepted, m.iv ≤ p.rxIv
  acceptedFrom : ∀ m ∈ accepted, m ∈ other

section Side

variable {p q : Peer} {produced accepted other : List EncMsg} {m : EncMsg}

theorem SideInv.start (iv ivofsVec : BitVec 32) (p : Peer) :
    SideInv (setKey iv ivofsVec p) [] [] [] := by
  have hiv : (iv &&& 0x00ffffff).toNat < 2 ^ 24 := by
    exact lt_of_le_of_lt Nat.and_le_right (by decide)
  refine ⟨List.Pairwise.nil, ?_, by simpa [setKey] using hiv, ?_, List.Pairwise.nil, ?_, ?_⟩
  all_goals
    intro m hm
    cases hm

section

variable (h : SideInv p produced accepted other)

include h

theorem SideInv.mono {other' : List EncMsg}
    (hsub : ∀ m ∈ other, m ∈ other') : SideInv p produced accepted other' :=
  { h with acceptedFrom := fun m hm => hsub m (h.acceptedFrom m hm) }

theorem SideInv.send (hcount : produced.length < 2 ^ 29)
    (hiv : m.iv = p.txIv + txIvOffset p) (htx : q.txIv = m.iv) (hrx : q.rxIv = p.rxIv)
    (hfits : m.enclen < 2 ^ 32) : SideInv q (produced ++ [m]) accepted other := by
  have hoff := txIvOffset_pos_le p
  have hbound := h.txIv
  have hsum : p.txIv.toNat + (txIvOffset p).toNat = m.iv.toNat := by
    rw [hiv, BitVec.toNat_add]
    omega
  have hlt : p.txIv < m.iv := BitVec.lt_def.mpr (by omega)
  constructor
  · exact h.producedAsc.append h.producedLe hlt
  · rw [forall_mem_append]
    refine ⟨fun m' hm' => ?_, fun m' hm' => ?_⟩
    · rw [htx]
      exact le_trans (BitVec.le_def.mp (h.producedLe m' hm')) hlt.le
    · rw [mem_singleton.mp hm', htx]
      exact BitVec.le_refl _
  · rw [htx, length_append, length_singleton]
    omega
  · rw [forall_mem_append]
    refine ⟨h.fits, fun m' hm' => ?_⟩
    rw [mem_singleton.mp hm']
    exact hfits
  · exact h.acceptedAsc
  · rw [hrx]
    exact h.acceptedLe
  · exact h.acceptedFrom

theorem SideInv.reject (htx : q.txIv = p.txIv)
    (hrx : p.rxIv ≤ q.rxIv) : SideInv q produced accepted other :=
  { h with
    producedLe := fun m hm => htx ▸ h.producedLe m hm
    txIv := htx ▸ h.txIv
    acceptedLe := fun m hm => le_trans (BitVec.le_def.mp (h.acceptedLe m hm)) hrx }

theorem SideInv.accept (htx : q.txIv = p.txIv)
    (hlt : p.rxIv < m.iv) (hrx : q.rxIv = m.iv) (hfrom : m ∈ other) :
    SideInv q produced (accepted ++ [m]) other := by
  constructor
  · exact h.producedAsc
  · rw [htx]
    exact h.producedLe
  · rw [htx]
    exact h.txIv
  · exact h.fits
  · exact h.acceptedAsc.append h.acceptedLe hlt
  · rw [forall_mem_append]
    refine ⟨fun m' hm' => ?_, fun m' hm' => ?_⟩
    · rw [hrx]
      exact le_trans (BitVec.le_def.mp (h.acceptedLe m' hm')) hlt.le
    · rw [mem_singleton.mp hm', hrx]
      exact BitVec.le_refl _
  · rw [forall_mem_append]
    refine ⟨h.acceptedFrom, fun m' hm' => ?_⟩
    rw [mem_singleton.mp hm']
    exact hfrom

end

end Side

def ChannelInv (s : Channel) : Prop :=
  ∀ x, SideInv (s.peer x) (s.produced x) (s.accepted x) (s.produced x.other)

theorem Side.other_ne (x : Side) : x.other ≠ x := by cases x <;> decide

theorem Side.other_other (x : Side) : x.other.other = x := by cases x <;> rfl

theorem Side.eq_other (h : y ≠ x) : y = x.other := by
  cases x <;> cases y <;> first | rfl | exact absurd rfl h

theorem ChannelInv.send (h : ChannelInv s) (data : List (BitVec 8)) (buf : Nat → BitVec 8)
    (hcount : (s.produced x).length < 2 ^ 29)
    (hlen : data.length + ENC_MSG_SIZE + EAD_ENC_PAD ≤ 2 ^ 32) :
    ChannelInv (NetOp.run c (.send x data buf) s) := by
  rcases encryptMessage_spec (c := c) data buf (s.peer x) with ⟨hiv, htx, hrx⟩
  have hfits := encryptMessage_enclen (c := c) data buf (s.peer x) hlen
  intro y
  simp only [NetOp.run]
  by_cases hy : y = x
  · subst hy
    rw [update_self, update_self, update_of_ne (Side.other_ne y)]
    exact (h y).send hcount hiv (htx.trans hiv.symm) hrx hfits
  · have hother : y.other = x := by rw [Side.eq_other hy, Side.other_other]
    rw [update_of_ne hy, update_of_ne hy, hother, update_self]
    refine (h y).mono fun m hm => ?_
    rw [hother] at hm
    exact mem_append_left _ hm

/-- A message that only its own sender gets back lies outside the window. -/
def NotReflected (c : Cipher) (s : Channel) : NetOp c → Prop
  | .send _ _ _ => True
  | .deliver x msg => s.sentBy c x msg → ¬s.sentBy c x.other msg →
      checkRxIv (c.decrypt msg.len.toInt msg.wire).iv (s.peer x) = none

theorem Accepts.mem_produced {msg : Packet c} {q : Peer} (h : ChannelInv s)
    (haccepts : Accepts c msg (s.peer x) q) (hlegal : (NetOp.deliver x msg).Legal c s)
    (hok : NotReflected c s (.deliver x msg)) :
    c.decrypt msg.len.toInt msg.wire ∈ s.produced x.other := by
  have hsent : ∃ y, s.sentBy c y msg := by
    rcases hlegal with hleft | hright | hforged
    · exact ⟨.left, hleft⟩
    · exact ⟨.right, hright⟩
    · exact absurd haccepts.hash (hforged haccepts.len)
  have hother : s.sentBy c x.other msg := by
    rcases hsent with ⟨y, hy⟩
    by_contra hnot
    have hyx : y = x := by
      by_contra hne
      rw [Side.eq_other hne] at hy
      exact hnot hy
    subst hyx
    exact haccepts.window (hok hy hnot)
  rcases hother with ⟨m, hm, rfl⟩
  rw [haccepts.opened ((h x.other).fits m hm)]
  exact hm

theorem ChannelInv.deliver (h : ChannelInv s) {msg : Packet c}
    (hlegal : (NetOp.deliver x msg).Legal c s) (hok : NotReflected c s (.deliver x msg)) :
    ChannelInv (NetOp.run c (.deliver x msg) s) := by
  rcases decryptMessage_spec msg (s.peer x) with ⟨htx, hrx, haccepts⟩
  intro y
  simp only [NetOp.run]
  by_cases hy : y = x
  · subst hy
    rw [update_self]
    split
    · rename_i hpos
      have hacc := haccepts hpos
      rw [update_self]
      exact (h y).accept htx hacc.lt hacc.rxIv (hacc.mem_produced h hlegal hok)
    · exact (h y).reject htx hrx
  · rw [update_of_ne hy]
    split
    · rw [update_of_ne hy]
      exact h y
    · exact h y

theorem ChannelInv.reached {s₀ : Channel} (h : ChannelInv s₀)
    (hs : Channel.Reached c (NotReflected c) s₀ s) : ChannelInv s := by
  induction hs with
  | refl => exact h
  | step op _ hlegal hok ih =>
    cases op with
    | send x data buf => exact ih.send data buf hlegal.1 hlegal.2
    | deliver x msg => exact ih.deliver hlegal hok

/-! ## The accepted messages -/

theorem Ascending.nodup {l : List EncMsg} (h : Ascending l) : l.Nodup :=
  h.imp fun hlt heq => by
    rw [heq] at hlt
    exact absurd hlt (BitVec.lt_irrefl _)

theorem Ascending.sublist {l l' : List EncMsg} (h : Ascending l) (h' : Ascending l')
    (hsub : ∀ m ∈ l, m ∈ l') : l.Sublist l' := by
  exact sublist_of_subperm_of_pairwise (subperm_of_subset h.nodup hsub) h h'

/-- Without reflected messages in the window, each side accepts a subsequence of what the
other one produced, each message once. -/
theorem accepted_sublist_produced (iv ivofsVec : BitVec 32) (peer : Side → Peer)
    (hs : Channel.Reached c (NotReflected c) (Channel.start iv ivofsVec peer) s) (x : Side) :
    (s.accepted x).Sublist (s.produced x.other) ∧ (s.accepted x).Nodup := by
  have hinv : ChannelInv s :=
    ChannelInv.reached (fun x => SideInv.start iv ivofsVec (peer x)) hs
  have hx := hinv x
  exact ⟨hx.acceptedAsc.sublist (hinv x.other).producedAsc hx.acceptedFrom, hx.acceptedAsc.nodup⟩

/-! ## A channel without encryption -/

/-- Messages travel as they are, and every hash is zero. -/
def clear : Cipher where
  Wire := EncMsg
  encrypt m := m
  decrypt _ m := m
  sha1 _ _ := replicate 5 0
  decrypt_encrypt _ := rfl

def clearStart : Channel := Channel.start 5 0 fun _ => ⟨0, 0, 0, 0⟩

def firstMsg : EncMsg := (encryptMessage clear [1] (fun _ => 0) (clearStart.peer .left)).1

theorem clear_sent (ok : Channel → NetOp clear → Prop)
    (hok : ∀ s x data buf, ok s (.send x data buf)) :
    Channel.Reached clear ok clearStart
      (NetOp.run clear (.send .left [1] fun _ => 0) clearStart) :=
  Channel.Reached.refl.step (.send .left [1] fun _ => 0) ⟨by decide, by decide⟩ (hok _ _ _ _)

theorem accepted_sublist_produced_clear :
    ∃ s, Channel.Reached clear (NotReflected clear) clearStart s ∧ s.accepted .right = [firstMsg] ∧
      (s.accepted .right).Sublist (s.produced .left) := by
  have hsent := clear_sent (NotReflected clear) fun _ _ _ _ => trivial
  have hdelivered := hsent.step (.deliver .right (packetOf clear firstMsg))
    (.inl ⟨firstMsg, by decide, rfl⟩) (fun hself => by
      rcases hself with ⟨m, hm, -⟩
      cases hm)
  exact ⟨_, hdelivered, by decide,
    (accepted_sublist_produced 5 0 (fun _ => ⟨0, 0, 0, 0⟩) hdelivered .right).1⟩

/-- The attacker returns the message, and the left side accepts it as if the right side had
sent it. -/
theorem own_message_accepted :
    ∃ s, Channel.Reached clear (fun _ _ => True) clearStart s ∧
      ¬(s.accepted .left).Sublist (s.produced .right) := by
  have hsent := clear_sent (fun _ _ => True) fun _ _ _ _ => trivial
  have hdelivered := hsent.step (.deliver .left (packetOf clear firstMsg))
    (.inl ⟨firstMsg, by decide, rfl⟩) trivial
  refine ⟨_, hdelivered, fun hsub => ?_⟩
  have hlength := hsub.length_le
  exact absurd hlength (by decide)

end OpenWrt.Ead
