import Mathlib
import OpenWrt.Ead.Daemon

/-!
# Commands need an authenticated session

The invariant ties the state to the session, to the steps that the session went through
since the last SET_USERNAME, and to the key of the channel.
-/

namespace OpenWrt.Ead

open List

variable {d d' : Daemon} {r : Answers} {pkt : EadPacket}

/-! ## The log -/

section Log

variable {steps : Nat → List (BitVec 8) → List Event} {log : List Event} {id : Nat} {e : Event}

theorem WentThrough.extend {steps' : Nat → List (BitVec 8) → List Event}
    (h : WentThrough steps log id) (he : e.isUsername = false)
    (hsteps : ∀ {ts name after}, (steps ts name).Sublist after →
      (steps' ts name).Sublist (after ++ [e])) : WentThrough steps' (log ++ [e]) id := by
  rcases h with ⟨before, name, after, hlog, hafter, hwent⟩
  refine ⟨before, name, after ++ [e], ?_, ?_, hsteps hwent⟩
  · rw [hlog, append_assoc, cons_append]
  · rw [forall_mem_append]
    exact ⟨hafter, fun e' he' => by rw [mem_singleton.mp he']; exact he⟩

theorem WentThrough.append (h : WentThrough steps log id) (he : e.isUsername = false) :
    WentThrough steps (log ++ [e]) id :=
  h.extend he fun hsub => hsub.trans (sublist_append_left _ _)

theorem WentThrough.step (h : WentThrough steps log id) (he : e.isUsername = false) :
    WentThrough (fun ts name => steps ts name ++ [e]) (log ++ [e]) id :=
  h.extend he fun hsub => hsub.append (List.Sublist.refl _)

def CommandsOk (log : List Event) : Prop :=
  ∀ before after ts key, log = before ++ .sendCmd ts key :: after →
    ∃ id, ts = some id ∧ key = some id ∧ WentThrough authSteps before id

theorem append_singleton_eq {before after : List Event} {e' : Event}
    (h : log ++ [e] = before ++ e' :: after) :
    (e' = e ∧ before = log) ∨ ∃ after', log = before ++ e' :: after' := by
  rcases eq_nil_or_concat after with rfl | ⟨after', last, rfl⟩
  · rcases append_inj' h rfl with ⟨hlog, hlast⟩
    exact .inl ⟨(cons.inj hlast).1.symm, hlog.symm⟩
  · rw [concat_eq_append, ← cons_append, ← append_assoc] at h
    exact .inr ⟨after', (append_inj' h rfl).1⟩

theorem CommandsOk.append (h : CommandsOk log)
    (he : ∀ ts key, e = .sendCmd ts key →
      ∃ id, ts = some id ∧ key = some id ∧ WentThrough authSteps log id) :
    CommandsOk (log ++ [e]) := by
  intro before after ts key hlog
  rcases append_singleton_eq hlog with ⟨heq, rfl⟩ | ⟨after', hlog'⟩
  · exact he ts key heq.symm
  · exact h before after' ts key hlog'

theorem CommandsOk.other (h : CommandsOk log) (he : ∀ ts key, e ≠ .sendCmd ts key) :
    CommandsOk (log ++ [e]) :=
  h.append fun ts key heq => absurd heq (he ts key)

end Log

/-! ## The invariant -/

def openSteps (ts : Nat) (name : List (BitVec 8)) : List Event := [.opened ts name]

def primeSteps (ts : Nat) (name : List (BitVec 8)) : List Event :=
  openSteps ts name ++ [.getPrime (some ts)]

def keySteps (ts : Nat) (name : List (BitVec 8)) : List Event :=
  primeSteps ts name ++ [.sendA (some ts)] ++ [.keySet (some ts)]

inductive Stage (d : Daemon) : Prop
  | idle (hstate : d.state = EAD_TYPE_SET_USERNAME) (hts : d.ts = none)
  | prime (id : Nat) (hstate : d.state = EAD_TYPE_GET_PRIME) (hts : d.ts = some id)
      (hlive : id ∈ d.live) (htce : d.tce = true) (hwent : WentThrough openSteps d.log id)
  | sendA (id : Nat) (hstate : d.state = EAD_TYPE_SEND_A) (hts : d.ts = some id)
      (hlive : id ∈ d.live) (htce : d.tce = true) (hB : d.B = some id)
      (hwent : WentThrough primeSteps d.log id)
  | sendAuth (id : Nat) (hstate : d.state = EAD_TYPE_SEND_AUTH) (hts : d.ts = some id)
      (hlive : id ∈ d.live) (hkey : d.key = some id) (hwent : WentThrough keySteps d.log id)
  | sendCmd (id : Nat) (hstate : d.state = EAD_TYPE_SEND_CMD) (hts : d.ts = some id)
      (hlive : id ∈ d.live) (hkey : d.key = some id) (hwent : WentThrough authSteps d.log id)

structure DaemonInv (d : Daemon) : Prop where
  fault : d.fault = false
  commands : CommandsOk d.log
  stage : Stage d

theorem use_of_live {id : Nat} {p : Option Nat} (hp : p = some id) (hlive : id ∈ d.live) :
    d.use p = d := by
  rw [hp, Daemon.use, if_pos hlive]

theorem useTce_of_set (htce : d.tce) : d.useTce = d := by
  rw [Daemon.useTce, if_pos htce]

theorem Stage.cases (h : Stage d) :
    (d.state = EAD_TYPE_SET_USERNAME ∧ d.ts = none) ∨
      EAD_TYPE_GET_PRIME ≤ d.state ∧ ∃ id, d.ts = some id ∧ id ∈ d.live := by
  cases h with
  | idle hstate hts => exact .inl ⟨hstate, hts⟩
  | prime id hstate hts hlive => exact .inr ⟨Int.le_of_eq hstate.symm, id, hts, hlive⟩
  | sendA id hstate hts hlive | sendAuth id hstate hts hlive | sendCmd id hstate hts hlive =>
    exact .inr ⟨by rw [hstate]; decide, id, hts, hlive⟩

theorem setState_self : setState r d.state d = d := by
  rw [setState, if_pos rfl]

theorem setState_username (hfault : d.fault = false)
    (hstage : (d.state = EAD_TYPE_SET_USERNAME ∧ d.ts = none) ∨
      EAD_TYPE_GET_PRIME ≤ d.state ∧ ∃ id, d.ts = some id ∧ id ∈ d.live) :
    (setState r EAD_TYPE_SET_USERNAME d).fault = false ∧
      (setState r EAD_TYPE_SET_USERNAME d).log = d.log ∧
      (setState r EAD_TYPE_SET_USERNAME d).state = EAD_TYPE_SET_USERNAME ∧
      (setState r EAD_TYPE_SET_USERNAME d).ts = none := by
  rcases hstage with ⟨hstate, hts⟩ | ⟨hstate, id, hts, hlive⟩
  · rw [setState, if_pos hstate]
    exact ⟨hfault, rfl, hstate, hts⟩
  have hlt : EAD_TYPE_SET_USERNAME < d.state := Int.lt_of_lt_of_le (by decide) hstate
  have hclose : d.serverClose = { d with live := d.live.erase id } := by
    unfold Daemon.serverClose
    rw [use_of_live hts hlive]
    simp only [hts]
  rw [setState, if_neg (Int.ne_of_gt hlt), if_pos hlt, if_pos ⟨by decide, hstate⟩, hclose]
  exact ⟨hfault, rfl, rfl, rfl⟩

theorem setState_open {name : List (BitVec 8)} (hfault : d.fault = false)
    (hcommands : CommandsOk d.log) (hstate : d.state = EAD_TYPE_SET_USERNAME) (hts : d.ts = none)
    (hname : d.username = name) {before : List Event} (hlog : d.log = before ++ [.username name]) :
    DaemonInv (setState r EAD_TYPE_GET_PRIME d) := by
  have hne : ¬d.state = EAD_TYPE_GET_PRIME := by rw [hstate]; decide
  have hnlt : ¬EAD_TYPE_GET_PRIME < d.state := by rw [hstate]; decide
  rw [setState, if_neg hne, if_neg hnlt, if_pos hstate]
  cases r.preparePassword with
  | false => exact ⟨hfault, hcommands, .idle hstate hts⟩
  | true =>
    have huse : { d with tce := true }.useTce = { d with tce := true } := useTce_of_set rfl
    cases hopen : r.serverOpenRaw with
    | false =>
      exact ⟨hfault, hcommands, .idle hstate rfl⟩
    | true =>
      simp only [Daemon.serverOpenRaw, huse, Daemon.note]
      refine ⟨hfault, hcommands.other (fun _ _ h => by cases h),
        .prime d.next rfl rfl mem_cons_self rfl ?_⟩
      refine ⟨before, name, [.opened d.next name], ?_, ?_, List.Sublist.refl _⟩
      · rw [hlog, hname, append_assoc]
        rfl
      · intro e he
        rw [mem_singleton.mp he]
        rfl

theorem setState_genexp {id : Nat} (hstate : d.state = EAD_TYPE_GET_PRIME) (hts : d.ts = some id)
    (hlive : id ∈ d.live) :
    setState r EAD_TYPE_SEND_A d = { d with B := d.ts, state := EAD_TYPE_SEND_A } := by
  rw [setState, hstate, if_neg (by decide), if_neg (by decide), if_neg (by decide), if_pos rfl,
    use_of_live hts hlive]

theorem setState_getkey {id : Nat} (hstate : d.state = EAD_TYPE_SEND_A) (hts : d.ts = some id)
    (hlive : id ∈ d.live) :
    setState r EAD_TYPE_SEND_AUTH d =
      if r.serverGetKey then
        { d with key := d.ts, state := EAD_TYPE_SEND_AUTH }.note (.keySet d.ts)
      else d := by
  rw [setState, hstate, if_neg (by decide), if_neg (by decide), if_neg (by decide),
    if_neg (by decide), if_pos rfl, use_of_live hts hlive]

theorem setState_verified (hstate : d.state = EAD_TYPE_SEND_AUTH) :
    setState r EAD_TYPE_SEND_CMD d = { d with state := EAD_TYPE_SEND_CMD } := by
  rw [setState, hstate, if_neg (by decide), if_neg (by decide), if_neg (by decide),
    if_neg (by decide), if_neg (by decide)]

/-! ## The handlers -/

theorem handleSetUsername_inv (h : DaemonInv d) :
    DaemonInv (setState r (handleSetUsername r pkt d).2 (handleSetUsername r pkt d).1) := by
  have hnote : CommandsOk (d.note (.username (copyUsername pkt.username))).log :=
    h.commands.other fun _ _ hf => by cases hf
  rcases setState_username (r := r) (d := d.note (.username (copyUsername pkt.username))) h.fault
    h.stage.cases with ⟨hfault, hlog, hstate, hts⟩
  refine setState_open hfault ?_ hstate hts rfl hlog
  rw [handleSetUsername]
  rw [hlog]
  exact hnote

theorem handleGetPrime_inv (h : DaemonInv d) (hstate : d.state = EAD_TYPE_GET_PRIME) :
    DaemonInv (setState r (handleGetPrime d).2 (handleGetPrime d).1) := by
  cases h.stage with
  | prime id _ hts hlive htce hwent =>
    have huse : (d.note (.getPrime d.ts)).useTce.use d.ts = d.note (.getPrime d.ts) := by
      have htce' : (d.note (.getPrime d.ts)).useTce = d.note (.getPrime d.ts) :=
        useTce_of_set htce
      rw [htce']
      exact use_of_live hts hlive
    have hset : setState r EAD_TYPE_SEND_A (d.note (.getPrime d.ts)) =
        { d.note (.getPrime d.ts) with B := d.ts, state := EAD_TYPE_SEND_A } :=
      setState_genexp hstate hts hlive
    rw [handleGetPrime, huse, hset]
    refine ⟨h.fault, h.commands.other (fun _ _ hf => by cases hf), ?_⟩
    refine .sendA id rfl hts hlive htce hts ?_
    rw [hts]
    exact hwent.step rfl
  | idle h' | sendA _ h' | sendAuth _ h' | sendCmd _ h' =>
    rw [hstate] at h'; exact absurd h' (by decide)

/-- After `SEND_A` the key may be refused; then the packet may be sent again. -/
theorem setState_getkey_inv {id : Nat} (hfault : d.fault = false) (hcommands : CommandsOk d.log)
    (hstate : d.state = EAD_TYPE_SEND_A) (hts : d.ts = some id) (hlive : id ∈ d.live)
    (htce : d.tce) (hB : d.B = some id) {log : List Event}
    (hlog : d.log = log ++ [.sendA (some id)]) (hwent : WentThrough primeSteps log id) :
    DaemonInv (setState r EAD_TYPE_SEND_AUTH d) := by
  rw [setState_getkey hstate hts hlive]
  split
  · refine ⟨hfault, hcommands.other (fun _ _ hf => by cases hf), ?_⟩
    refine .sendAuth id rfl hts hlive hts ?_
    rw [hlog, hts]
    exact (hwent.step rfl).step rfl
  · refine ⟨hfault, hcommands, .sendA id hstate hts hlive htce hB ?_⟩
    rw [hlog]
    exact hwent.append rfl

theorem handleSendA_inv (h : DaemonInv d) (hstate : d.state = EAD_TYPE_SEND_A) {nstate : Int}
    (hhandle : handleSendA pkt d = some (d', nstate)) : DaemonInv (setState r nstate d') := by
  cases h.stage with
  | sendA id _ hts hlive htce hB hwent =>
    have hcommands : CommandsOk (d.note (.sendA d.ts)).log :=
      h.commands.other fun _ _ hf => by cases hf
    unfold handleSendA at hhandle
    dsimp only at hhandle
    split at hhandle
    · cases hhandle
      rw [setState_self]
      exact ⟨h.fault, hcommands, .sendA id hstate hts hlive htce hB (hwent.append rfl)⟩
    · split at hhandle
      · cases hhandle
      rcases hhandle with ⟨rfl, rfl⟩
      have huse : ∀ A, Daemon.use d.B { d.note (.sendA d.ts) with A := A } =
          { d.note (.sendA d.ts) with A := A } := fun _ => use_of_live hB hlive
      have hset := huse (pkt.number.take (pkt.msgLen - 1).toInt.toNat)
      dsimp only [Daemon.note] at hset ⊢
      rw [hset]
      refine setState_getkey_inv h.fault hcommands hstate hts hlive htce hB ?_ hwent
      rw [hts]
  | idle h' | prime _ h' | sendAuth _ h' | sendCmd _ h' =>
    rw [hstate] at h'; exact absurd h' (by decide)

theorem handleSendAuth_inv (h : DaemonInv d) (hstate : d.state = EAD_TYPE_SEND_AUTH) :
    DaemonInv (setState r (handleSendAuth r d).2 (handleSendAuth r d).1) := by
  cases h.stage with
  | sendAuth id _ hts hlive hkey hwent =>
    have hcommands : CommandsOk (d.note (.sendAuth d.ts)).log :=
      h.commands.other fun _ _ hf => by cases hf
    have huse : (d.note (.sendAuth d.ts)).use d.ts = d.note (.sendAuth d.ts) :=
      use_of_live hts hlive
    simp only [handleSendAuth, huse]
    cases r.serverVerify with
    | true =>
      have huse' : ((d.note (.sendAuth d.ts)).note (.verified d.ts)).use d.ts =
          (d.note (.sendAuth d.ts)).note (.verified d.ts) := use_of_live hts hlive
      have hset : setState r EAD_TYPE_SEND_CMD ((d.note (.sendAuth d.ts)).note (.verified d.ts)) =
          { (d.note (.sendAuth d.ts)).note (.verified d.ts) with state := EAD_TYPE_SEND_CMD } :=
        setState_verified hstate
      rw [if_pos rfl]
      dsimp only [Daemon.note] at huse' hset ⊢
      rw [huse', hset]
      refine ⟨h.fault, hcommands.other (fun _ _ hf => by cases hf), ?_⟩
      refine .sendCmd id rfl hts hlive hkey ?_
      rw [hts]
      exact (hwent.step rfl).step rfl
    | false =>
      rw [if_neg (by decide)]
      rcases setState_username (r := r) (d := d.note (.sendAuth d.ts)) h.fault h.stage.cases with
        ⟨hfault, hlog, hstate', hts'⟩
      refine ⟨hfault, ?_, .idle hstate' hts'⟩
      rw [hlog]
      exact hcommands
  | idle h' | prime _ h' | sendA _ h' | sendCmd _ h' =>
    rw [hstate] at h'; exact absurd h' (by decide)

theorem handleSendCmd_inv (h : DaemonInv d) (hstate : d.state = EAD_TYPE_SEND_CMD) :
    DaemonInv (setState r (handleSendCmd d).2 (handleSendCmd d).1) := by
  cases h.stage with
  | sendCmd id _ hts hlive hkey hwent =>
    have hset : setState r (handleSendCmd d).2 (handleSendCmd d).1 =
        d.note (.sendCmd d.ts d.key) := setState_self
    rw [hset]
    refine ⟨h.fault, h.commands.append ?_, .sendCmd id hstate hts hlive hkey (hwent.append rfl)⟩
    intro ts key heq
    cases heq
    exact ⟨id, hts, hkey, hwent⟩
  | idle h' | prime _ h' | sendA _ h' | sendAuth _ h' =>
    rw [hstate] at h'; exact absurd h' (by decide)

/-! ## Packets -/

theorem parseMessage_inv {id : Nat} (h : DaemonInv d)
    (hparse : parseMessage id r pkt d = some d') : DaemonInv d' := by
  unfold parseMessage at hparse
  dsimp only at hparse
  split at hparse
  · cases hparse
    exact h
  rename_i hgate
  have hstate : ∀ type, EAD_TYPE_GET_PRIME ≤ type → pkt.type.toInt = type → d.state = type := by
    intro type hle htype
    refine Classical.byContradiction fun hne => ?_
    exact hgate ⟨by rw [htype]; exact hle, by rw [htype]; exact hne⟩
  split at hparse
  · cases hparse
    exact h
  split at hparse
  · cases hparse
    exact h
  rename_i minLen handle hhandler
  split at hparse
  · cases hparse
    exact h
  rcases Option.map_eq_some_iff.mp hparse with ⟨⟨d₁, nstate⟩, hhandle, rfl⟩
  unfold handler at hhandler
  split at hhandler
  · cases hhandler
    cases hhandle
    rw [setState_self]
    exact h
  split at hhandler
  · cases hhandler
    cases hhandle
    exact handleSetUsername_inv h
  split at hhandler
  · rename_i htype
    cases hhandler
    cases hhandle
    exact handleGetPrime_inv h (hstate _ (by decide) htype)
  split at hhandler
  · rename_i htype
    cases hhandler
    exact handleSendA_inv h (hstate _ (by decide) htype) hhandle
  split at hhandler
  · rename_i htype
    cases hhandler
    have heq : handleSendAuth r d = (d₁, nstate) := Option.some.inj hhandle
    have hinv : DaemonInv (setState r (handleSendAuth r d).2 (handleSendAuth r d).1) :=
      handleSendAuth_inv h (hstate _ (by decide) htype)
    rw [heq] at hinv
    exact hinv
  split at hhandler
  · rename_i htype
    cases hhandler
    cases hhandle
    exact handleSendCmd_inv h (hstate _ (by decide) htype)
  · cases hhandler

theorem handlePacket_inv {sizeT id : Nat} {nid : BitVec 16} (h : DaemonInv d)
    (hstep : handlePacket sizeT id nid r pkt d = some d') : DaemonInv d' := by
  unfold handlePacket at hstep
  repeat' split at hstep
  all_goals first
    | exact parseMessage_inv h hstep
    | cases hstep; exact h

theorem start_inv : DaemonInv Daemon.start := by
  refine ⟨rfl, fun before after ts key hlog => ?_, .idle rfl rfl⟩
  exact absurd hlog (by simp [Daemon.start])

/-- A command is entered only on the session that was opened for the last SET_USERNAME and
went through GET_PRIME, SEND_A and SEND_AUTH with an accepted proof, with the key of that
session; and no pointer is used while it is NULL or its session closed. -/
theorem commands_authenticated {sizeT id : Nat} {nid : BitVec 16}
    (hd : Daemon.Reached sizeT id nid d) :
    d.fault = false ∧ ∀ before after ts key, d.log = before ++ .sendCmd ts key :: after →
      ∃ session, ts = some session ∧ key = some session ∧ WentThrough authSteps before session := by
  have hinv : DaemonInv d := by
    induction hd with
    | start => exact start_inv
    | packet r pkt _ hstep ih => exact handlePacket_inv ih hstep
  exact ⟨hinv.fault, hinv.commands⟩

def testPacket (type : BitVec 32) : EadPacket where
  caplen := 200
  etherType := ETHERTYPE_IP
  broadcast := true
  proto := UIP_PROTO_UDP
  destport := EAD_PORT
  magic := EAD_MAGIC
  msgLen := 33
  type := type
  nid := 0xffff
  sid := 0x1000
  username := [114, 111, 111, 116]
  number := [5]

def runPackets : List (BitVec 32) → Daemon → Option Daemon
  | [], d => some d
  | type :: types, d =>
    (handlePacket (2 ^ 32) 1 7 ⟨true, true, true, true⟩ (testPacket type) d).bind (runPackets types)

theorem runPackets_reached {types : List (BitVec 32)} (hd : Daemon.Reached (2 ^ 32) 1 7 d)
    (hrun : runPackets types d = some d') : Daemon.Reached (2 ^ 32) 1 7 d' := by
  induction types generalizing d with
  | nil =>
    cases hrun
    exact hd
  | cons type types ih =>
    rcases Option.bind_eq_some_iff.mp hrun with ⟨d₁, hstep, hrest⟩
    exact ih (hd.packet _ _ hstep) hrest

theorem commands_authenticated_login :
    ∃ d before, Daemon.Reached (2 ^ 32) 1 7 d ∧ d.log = before ++ [.sendCmd (some 0) (some 0)] ∧
      WentThrough authSteps before 0 := by
  have hrun : (runPackets [2, 4, 6, 8, 10] Daemon.start).map (fun d => d.log.getLast?) =
      some (some (.sendCmd (some 0) (some 0))) := by decide
  rcases Option.map_eq_some_iff.mp hrun with ⟨d, hrun, hlast⟩
  rcases getLast?_eq_some_iff.mp hlast with ⟨before, hlog⟩
  have hd := runPackets_reached .start hrun
  rcases (commands_authenticated hd).2 before [] _ _ hlog with ⟨session, hts, -, hwent⟩
  cases hts
  exact ⟨d, before, hd, hlog, hwent⟩

end OpenWrt.Ead
