import Mathlib.Data.Finset.Card
import OpenWrt.Conninfra.MsgThread

/-!
# Message ops are conserved

Each op is in one situation: free, with its sender, in the active queue or with the worker.
`OpOk` says what its fields are in each of them, the reference count in particular, and
every step moves one op to another situation.
-/

namespace OpenWrt.Conninfra

open List Function

variable {s : State} {c o : Nat}
variable {t : Sit} {w : Worker} {st : Stage} {m : MsgOp} {p : Place}

/-! ## Situations -/

inductive Place where
  | none
  | active
  | worker (w : Worker)
  deriving DecidableEq

structure Sit where
  free : Bool
  client : Option (Nat × Client)
  place : Place

def Sit.setFree (t : Sit) (b : Bool) : Sit := ⟨b, t.client, t.place⟩

def Sit.setClient (t : Sit) (x : Option (Nat × Client)) : Sit := ⟨t.free, x, t.place⟩

def Sit.setPlace (t : Sit) (p : Place) : Sit := ⟨t.free, t.client, p⟩

def heldBy (wait : Bool) : Int := if wait then 1 else 0

def Place.held : Place → Int
  | .active | .worker (.got _) | .worker (.handled _ _) => 1
  | _ => 0

def ResultOk (m : MsgOp) : Prop :=
  m.timeout = true → m.result = .initial ∨ m.result = .handled m.tag

def PlaceOk (m : MsgOp) (wait : Bool) : Place → Prop
  | .none => wait = true
  | .active | .worker (.got _) => True
  | .worker (.handled _ tag) => tag = m.tag
  | .worker (.freeing _) => wait = false
  | .worker (.signalling _ tag) => wait = true ∧ tag = m.tag
  | .worker (.raising _) => wait = true
  | .worker .idle => False

def QueuedOk (m : MsgOp) (wait : Bool) (p : Place) : Prop :=
  m.refCount = heldBy wait + p.held ∧ ResultOk m ∧ PlaceOk m wait p

def StageOk (m : MsgOp) (wait : Bool) (p : Place) : Stage → Prop
  | .idle => False
  | .got => p = .none
  | .inited => p = .none ∧ m.refCount = heldBy wait ∧ ResultOk m
  | .counted => p = .none ∧ m.refCount = heldBy wait + 1 ∧ ResultOk m
  | .queueFailed => p = .none ∧ m.refCount = heldBy wait + 1 ∧ ResultOk m ∧ wait = true
  | .queued | .finishing => QueuedOk m wait p
  | .waiting => QueuedOk m wait p ∧ wait = true
  | .freeing => QueuedOk { m with refCount := m.refCount + 1 } wait p ∧ wait = true ∧ p.held = 0

def AloneOk (m : MsgOp) (free : Bool) : Place → Prop
  | .none => free = true
  | .active | .worker (.got _) | .worker (.handled _ _) => free = false ∧ m.refCount = 1
  | .worker (.freeing _) => free = false
  | .worker _ => False

def OpOk (m : MsgOp) (t : Sit) : Prop :=
  match t.client with
  | none => AloneOk m t.free t.place
  | some (_, cl) =>
    t.free = false ∧ m.tag = cl.tag ∧ m.timeout = cl.wait ∧ StageOk m cl.wait t.place cl.stage

structure Matches (s : State) (sit : Nat → Sit) : Prop where
  free : ∀ o, s.free.count o = if (sit o).free then 1 else 0
  active : ∀ o, s.active.count o = if (sit o).place = .active then 1 else 0
  worker : ∀ o w, (sit o).place = .worker w ↔ s.worker = w ∧ w.op = some o
  client : ∀ o c cl, (sit o).client = some (c, cl) ↔
    s.client c = cl ∧ cl.stage ≠ .idle ∧ cl.op = o

structure Inv (s : State) (sit : Nat → Sit) : Prop where
  matches_ : Matches s sit
  bound : ∀ o, MSG_THREAD_OP_BUF_SIZE ≤ o → sit o = ⟨false, none, .none⟩
  ops : ∀ o < MSG_THREAD_OP_BUF_SIZE, OpOk (s.op o) (sit o)
  putBack : ∀ o, o < MSG_THREAD_OP_BUF_SIZE →
    s.taken o = s.putBack o + if (sit o).free then 0 else 1
  results : ∀ r ∈ s.returned, r.2 = .initial ∨ r.2 = .handled r.1

variable {sit : Nat → Sit}

/-! ## Moving one op -/

theorem proj_update {β : Type} (f : Sit → β) (ht : f t = f (sit o)) (x : Nat) :
    f (update sit o t x) = f (sit x) := by
  by_cases hx : x = o
  · rw [hx, update_self, ht]
  · rw [update_of_ne hx]

section

variable (h : Matches s sit)

include h

theorem Matches.free_keep (ht : t.free = (sit o).free) (x : Nat) :
    s.free.count x = if (update sit o t x).free then 1 else 0 := by
  rw [proj_update Sit.free ht, h.free]

theorem Matches.active_keep (ht : t.place = (sit o).place) (x : Nat) :
    s.active.count x = if (update sit o t x).place = .active then 1 else 0 := by
  rw [proj_update Sit.place ht, h.active]

theorem Matches.worker_keep (ht : t.place = (sit o).place) (x : Nat) (w : Worker) :
    (update sit o t x).place = .worker w ↔ s.worker = w ∧ w.op = some x := by
  rw [proj_update Sit.place ht, h.worker]

theorem Matches.client_keep (ht : t.client = (sit o).client) (x c : Nat) (cl : Client) :
    (update sit o t x).client = some (c, cl) ↔
      s.client c = cl ∧ cl.stage ≠ .idle ∧ cl.op = x := by
  rw [proj_update Sit.client ht, h.client]

end

theorem Matches.setClient (h : Matches s sit) (cl : Client)
    (hold : (s.client c).stage ≠ .idle → (s.client c).op = o)
    (hnew : cl.stage ≠ .idle → cl.op = o) (honly : ∀ c' x, (sit o).client = some (c', x) → c' = c) :
    Matches (s.setClient c cl)
      (update sit o
        ((sit o).setClient (if cl.stage = .idle then none else some (c, cl)))) := by
  constructor
  · exact h.free_keep rfl
  · exact h.active_keep rfl
  · exact h.worker_keep rfl
  · intro x c' cl'
    have hc : (s.setClient c cl).client c' = if c' = c then cl else s.client c' := by
      by_cases hc : c' = c
      · rw [hc, if_pos rfl]
        exact update_self ..
      · rw [if_neg hc]
        exact update_of_ne hc ..
    have hx := h.client x c' cl'
    by_cases hxo : x = o
    · grind [Sit.setClient]
    · grind

theorem Matches.setWorker (h : Matches s sit) (hold : s.worker.op = some o)
    (hnew : w.op = some o ∨ w = .idle) :
    Matches { s with worker := w }
      (update sit o
        ((sit o).setPlace (if w = .idle then .none else .worker w))) := by
  constructor
  · exact h.free_keep rfl
  · intro x
    have hx := h.active x
    have hw := h.worker o s.worker
    by_cases hxo : x = o
    · grind [Sit.setPlace]
    · rw [update_of_ne hxo]
      exact hx
  · intro x w'
    have hx := h.worker x w'
    by_cases hxo : x = o
    · grind [Worker.op, Sit.setPlace]
    · grind [Worker.op]
  · exact h.client_keep rfl

theorem Matches.popActive (h : Matches s sit) {rest : List Nat} (hactive : s.active = o :: rest)
    (hidle : s.worker = .idle) :
    Matches { s with active := rest, worker := .got o }
      (update sit o ((sit o).setPlace (.worker (.got o)))) := by
  constructor
  · exact h.free_keep rfl
  · intro x
    have hx := h.active x
    by_cases hxo : x = o
    · grind [Sit.setPlace]
    · grind
  · intro x w'
    have hx := h.worker x w'
    by_cases hxo : x = o
    · grind [Worker.op, Sit.setPlace]
    · grind [Worker.op]
  · exact h.client_keep rfl

theorem Matches.pushActive (h : Matches s sit) (hplace : (sit o).place = .none) :
    Matches { s with active := s.active ++ [o] }
      (update sit o ((sit o).setPlace .active)) := by
  constructor
  · exact h.free_keep rfl
  · intro x
    have hx := h.active x
    by_cases hxo : x = o
    · grind [Sit.setPlace]
    · grind
  · intro x w'
    have hx := h.worker x w'
    by_cases hxo : x = o
    · grind [Sit.setPlace]
    · rw [update_of_ne hxo, hx]
  · exact h.client_keep rfl

theorem Matches.setFree (h : Matches s sit) (free : List Nat) (b : Bool)
    (hcount : ∀ x, free.count x = if x = o then (if b then 1 else 0) else s.free.count x) :
    Matches { s with free := free } (update sit o ((sit o).setFree b)) := by
  constructor
  · intro x
    have hx := h.free x
    by_cases hxo : x = o
    · grind [Sit.setFree]
    · grind
  · exact h.active_keep rfl
  · exact h.worker_keep rfl
  · exact h.client_keep rfl

section

variable (h : Inv s sit)

include h

theorem Inv.move {s' : State} (ho : o < MSG_THREAD_OP_BUF_SIZE)
    (hmatches : Matches s' (update sit o t)) (hops : s'.op = update s.op o m)
    (hok : OpOk m t)
    (htaken : ∀ x ≠ o, s'.taken x = s.taken x ∧ s'.putBack x = s.putBack x)
    (hself : s'.taken o = s'.putBack o + if t.free then 0 else 1)
    (hresults : ∀ r ∈ s'.returned, r ∈ s.returned ∨ r.2 = .initial ∨ r.2 = .handled r.1) :
    Inv s' (update sit o t) where
  matches_ := hmatches
  bound := by
    intro x hx
    rw [update_of_ne (by omega)]
    exact h.bound x hx
  ops := by
    intro x hx
    rw [hops]
    by_cases hxo : x = o
    · rw [hxo, update_self, update_self]
      exact hok
    · rw [update_of_ne hxo, update_of_ne hxo]
      exact h.ops x hx
  putBack := by
    intro x hx
    by_cases hxo : x = o
    · rw [hxo, update_self]
      exact hself
    · rw [update_of_ne hxo, (htaken x hxo).1, (htaken x hxo).2]
      exact h.putBack x hx
  results := fun r hr => (hresults r hr).elim (h.results r) id

/-! ## Clients -/

theorem Inv.client (hstage : (s.client c).stage ≠ .idle) :
    (s.client c).op < MSG_THREAD_OP_BUF_SIZE ∧
      (sit (s.client c).op).client = some (c, s.client c) := by
  have hsit := (h.matches_.client (s.client c).op c (s.client c)).mpr ⟨rfl, hstage, rfl⟩
  refine ⟨not_le.mp fun hge => ?_, hsit⟩
  rw [h.bound _ hge] at hsit
  cases hsit

theorem Inv.client_at (hlegal : (s.client c).stage = st) (hst : st ≠ .idle) :
    (s.client c).stage ≠ .idle ∧ (sit (s.client c).op).free = false ∧
      (s.op (s.client c).op).tag = (s.client c).tag ∧
      (s.op (s.client c).op).timeout = (s.client c).wait ∧
      StageOk (s.op (s.client c).op) (s.client c).wait (sit (s.client c).op).place st := by
  subst hlegal
  obtain ⟨hlt, hsit⟩ := h.client hst
  have hok := h.ops _ hlt
  rw [OpOk, hsit] at hok
  exact ⟨hst, hok⟩

theorem Inv.clientStep (hstage : (s.client c).stage ≠ .idle) {log : List (Nat × Result)}
    (hok : OpOk m ((sit (s.client c).op).setClient
      (if st = .idle then none else some (c, { s.client c with stage := st }))))
    (hlog : ∀ r ∈ log, r ∈ s.returned ∨ r.2 = .initial ∨ r.2 = .handled r.1) :
    ∃ sit', Inv { (s.setOp (s.client c).op m).setStage c st with returned := log } sit' := by
  obtain ⟨hlt, hsit⟩ := h.client hstage
  have hmatches := h.matches_.setClient (c := c) (o := (s.client c).op)
    { s.client c with stage := st } (fun _ => rfl) (fun _ => rfl) (by grind)
  exact ⟨_, h.move hlt ⟨hmatches.free, hmatches.active, hmatches.worker, hmatches.client⟩ rfl hok
    (fun x _ => ⟨rfl, rfl⟩) (h.putBack _ hlt) hlog⟩

/-! ## Worker -/

theorem Inv.worker (hw : s.worker.op = some o) :
    o < MSG_THREAD_OP_BUF_SIZE ∧ (sit o).place = .worker s.worker := by
  have hsit := (h.matches_.worker o s.worker).mpr ⟨rfl, hw⟩
  refine ⟨not_le.mp fun hge => ?_, hsit⟩
  rw [h.bound _ hge] at hsit
  cases hsit

theorem Inv.workerStep (hw : s.worker.op = some o) (hnew : w.op = some o ∨ w = .idle)
    (hok : OpOk m ((sit o).setPlace (if w = .idle then .none else .worker w))) :
    ∃ sit', Inv { s.setOp o m with worker := w } sit' := by
  obtain ⟨hlt, hsit⟩ := h.worker hw
  have hmatches := h.matches_.setWorker hw hnew
  exact ⟨_, h.move hlt ⟨hmatches.free, hmatches.active, hmatches.worker, hmatches.client⟩ rfl hok
    (fun x _ => ⟨rfl, rfl⟩) (h.putBack _ hlt) fun r hr => .inl hr⟩

/-! ## The steps of a client -/

omit h in
theorem opOk_setClient {cl : Client} (hst : st ≠ .idle) :
    OpOk m (t.setClient (if st = .idle then none else some (c, { cl with stage := st }))) ↔
      t.free = false ∧ m.tag = cl.tag ∧ m.timeout = cl.wait ∧ StageOk m cl.wait t.place st := by
  rw [if_neg hst]
  rfl

theorem Inv.init (hlegal : (s.client c).stage = .got) : ∃ sit', Inv ((Step.init c).run s) sit' := by
  obtain ⟨hne, hfree, htag, htimeout, hok⟩ := h.client_at hlegal (by decide)
  refine h.clientStep hne ((opOk_setClient (by decide)).mpr ?_) fun r hr => .inl hr
  rw [MsgOp.init]
  cases hwait : (s.client c).wait <;> rw [hwait] at htimeout
  · rw [if_neg (by rw [htimeout]; decide)]
    refine ⟨hfree, htag, htimeout, hok, rfl, fun ht => ?_⟩
    rw [show (s.op (s.client c).op).timeout = true from ht] at htimeout
    cases htimeout
  · rw [if_pos htimeout]
    exact ⟨hfree, htag, htimeout, hok, rfl, fun _ => .inl rfl⟩

theorem Inv.inc (hlegal : (s.client c).stage = .inited) :
    ∃ sit', Inv ((Step.inc c).run s) sit' := by
  obtain ⟨hne, hfree, htag, htimeout, hok⟩ := h.client_at hlegal (by decide)
  obtain ⟨hplace, href, hresult⟩ := hok
  refine h.clientStep hne ((opOk_setClient (by decide)).mpr ?_) fun r hr => .inl hr
  exact ⟨hfree, htag, htimeout, hplace, by rw [MsgOp.addRef, href], hresult⟩

omit h in
theorem setOp_self (s : State) (o : Nat) : s.setOp o (s.op o) = s := by
  rw [State.setOp, update_eq_self]

theorem Inv.stageStep (hstage : (s.client c).stage ≠ .idle) {log : List (Nat × Result)}
    (hok : OpOk (s.op (s.client c).op) ((sit (s.client c).op).setClient
      (if st = .idle then none else some (c, { s.client c with stage := st }))))
    (hlog : ∀ r ∈ log, r ∈ s.returned ∨ r.2 = .initial ∨ r.2 = .handled r.1) :
    ∃ sit', Inv { s.setStage c st with returned := log } sit' := by
  have hstep := h.clientStep hstage hok hlog
  rwa [setOp_self] at hstep

theorem Inv.undo (hlegal : (s.client c).stage = .queueFailed) :
    ∃ sit', Inv ((Step.undo c).run s) sit' := by
  obtain ⟨hne, hfree, htag, htimeout, hok⟩ := h.client_at hlegal (by decide)
  obtain ⟨hplace, href, hresult, hwait⟩ := hok
  refine h.clientStep hne ((opOk_setClient (by decide)).mpr ?_) fun r hr => .inl hr
  refine ⟨hfree, htag, htimeout, ?_, hresult, ?_⟩
  · have hnone : Place.none.held = 0 := rfl
    rw [MsgOp.addRef, hplace]
    dsimp only
    omega
  · rw [hplace]
    exact hwait

theorem Inv.check (hlegal : (s.client c).stage = .queued) :
    ∃ sit', Inv ((Step.check c).run s) sit' := by
  obtain ⟨hne, hfree, htag, htimeout, hok⟩ := h.client_at hlegal (by decide)
  rw [Step.run]
  split
  · rename_i hwait
    refine h.stageStep hne ((opOk_setClient (by decide)).mpr ?_) fun r hr => .inl hr
    exact ⟨hfree, htag, htimeout, hok, htimeout.symm.trans hwait⟩
  · refine h.stageStep hne ((opOk_setClient (by decide)).mpr ?_) fun r hr => .inl hr
    exact ⟨hfree, htag, htimeout, hok⟩

theorem Inv.wake (hlegal : (s.client c).stage = .waiting) :
    ∃ sit', Inv ((Step.wake c).run s) sit' := by
  obtain ⟨hne, hfree, htag, htimeout, hok⟩ := h.client_at hlegal (by decide)
  obtain ⟨⟨href, hresult, hplace⟩, hwait⟩ := hok
  refine h.stageStep hne ((opOk_setClient (by decide)).mpr ?_) fun r hr => ?_
  · exact ⟨hfree, htag, htimeout, href, hresult, hplace⟩
  · rcases mem_append.mp hr with hold | hlast
    · exact .inl hold
    · rw [mem_singleton.mp hlast, ← htag]
      exact .inr (hresult (htimeout.trans hwait))

omit h in
theorem aloneOk_of_queued {wait : Bool} (hok : QueuedOk m wait p)
    (hheld : wait → p.held = 1) :
    AloneOk { m with refCount := m.refCount - heldBy wait } false p := by
  obtain ⟨href, _, hplace⟩ := hok
  have hsub : m.refCount - heldBy wait = p.held := by omega
  cases p with
  | none => exact absurd (hheld hplace) (by decide)
  | active => exact ⟨rfl, hsub⟩
  | worker w =>
    cases w with
    | idle => exact hplace.elim
    | got o => exact ⟨rfl, hsub⟩
    | handled o tag => exact ⟨rfl, hsub⟩
    | freeing o => exact rfl
    | signalling o tag => exact absurd (hheld hplace.1) (show (0 : Int) ≠ 1 by decide)
    | raising o => exact absurd (hheld hplace) (show (0 : Int) ≠ 1 by decide)

omit h in
theorem Place.held_cases (p : Place) : p.held = 0 ∨ p.held = 1 := by
  rcases p with _ | _ | w
  · exact .inl rfl
  · exact .inr rfl
  · cases w <;> first | exact .inl rfl | exact .inr rfl

theorem Inv.final (hlegal : (s.client c).stage = .finishing) :
    ∃ sit', Inv ((Step.final c).run s) sit' := by
  obtain ⟨hne, hfree, htag, htimeout, hok⟩ := h.client_at hlegal (by decide)
  have hheld := Place.held_cases (sit (s.client c).op).place
  rw [Step.run]
  split
  · rename_i hwait
    have hwait' := htimeout.symm.trans hwait
    obtain ⟨href, hresult, hplace⟩ := hok
    rw [hwait'] at href
    split
    · rename_i hone
      refine h.clientStep hne ((opOk_setClient (by decide)).mpr ?_) fun r hr => .inl hr
      refine ⟨hfree, htag, htimeout, ⟨?_, hresult, hplace⟩, hwait', ?_⟩
      · rw [hwait', ← href]
        exact Int.neg_add_cancel_right ..
      · rw [heldBy, if_pos rfl] at href
        omega
    · rename_i hone
      refine h.clientStep hne ?_ fun r hr => .inl hr
      have hone' : (sit (s.client c).op).place.held = 1 := by
        rw [heldBy, if_pos rfl] at href
        omega
      have := aloneOk_of_queued ⟨href, hresult, hwait' ▸ hplace⟩ fun _ => hone'
      rw [Sit.setClient, hfree]
      exact this
  · rename_i hwait
    have hwait' : (s.client c).wait = false := by
      rw [← htimeout]
      exact Bool.eq_false_of_not_eq_true hwait
    refine h.stageStep hne ?_ fun r hr => .inl hr
    rw [hwait'] at hok
    have := aloneOk_of_queued hok fun ht => Bool.noConfusion ht
    rw [OpOk, Sit.setClient, hfree]
    simpa [heldBy] using this

/-! ## The queues -/

section Queue

omit h

variable {l : List Nat} {P : Nat → Prop} [DecidablePred P]
  (hcount : ∀ x, l.count x = if P x then 1 else 0)

include hcount

theorem mem_iff_of_count (x : Nat) : x ∈ l ↔ P x := by
  rw [← count_pos_iff, hcount]
  split <;> simp_all

theorem length_lt_of_not (hlt : ∀ x, P x → x < MSG_THREAD_OP_BUF_SIZE)
    (ho : o < MSG_THREAD_OP_BUF_SIZE) (hnot : ¬P o) : l.length < MSG_THREAD_OP_BUF_SIZE := by
  have hnodup : (o :: l).Nodup := by
    rw [nodup_cons, mem_iff_of_count hcount, nodup_iff_count_le_one]
    exact ⟨hnot, fun x => by rw [hcount]; split <;> decide⟩
  have hsub : (o :: l).toFinset ⊆ Finset.range MSG_THREAD_OP_BUF_SIZE := by
    intro x hx
    rw [mem_toFinset, mem_cons, mem_iff_of_count hcount] at hx
    rw [Finset.mem_range]
    rcases hx with rfl | hx
    · exact ho
    · exact hlt x hx
  have hcard := Finset.card_le_card hsub
  rw [toFinset_card_of_nodup hnodup] at hcard
  exact hcard

end Queue

theorem Inv.lt_of_ne (hne : sit o ≠ ⟨false, none, .none⟩) : o < MSG_THREAD_OP_BUF_SIZE :=
  not_le.mp fun hge => hne (h.bound o hge)

theorem Inv.mem_free : o ∈ s.free ↔ (sit o).free = true := mem_iff_of_count h.matches_.free o

theorem Inv.mem_active : o ∈ s.active ↔ (sit o).place = .active :=
  mem_iff_of_count h.matches_.active o

theorem Inv.free_sit (hfree : (sit o).free) :
    o < MSG_THREAD_OP_BUF_SIZE ∧ (sit o).client = none ∧ (sit o).place = .none := by
  have hlt := h.lt_of_ne fun heq => by rw [heq] at hfree; cases hfree
  have hok := h.ops o hlt
  have hclient : (sit o).client = none := by
    rw [OpOk] at hok
    split at hok
    · assumption
    · rw [hfree] at hok
      cases hok.1
  refine ⟨hlt, hclient, ?_⟩
  rw [OpOk, hclient] at hok
  cases hp : (sit o).place with
  | none => rfl
  | active =>
    rw [hp, hfree] at hok
    cases hok.1
  | worker w =>
    rw [hp, hfree] at hok
    cases w <;> first | cases hok.1 | cases hok

theorem Inv.free_room (ho : o < MSG_THREAD_OP_BUF_SIZE)
    (hfree : (sit o).free = false) : s.free.length < MSG_THREAD_OP_BUF_SIZE :=
  length_lt_of_not h.matches_.free (fun x hx => h.lt_of_ne fun heq => by rw [heq] at hx; cases hx)
    ho (by rw [hfree]; exact Bool.noConfusion)

theorem Inv.active_room (ho : o < MSG_THREAD_OP_BUF_SIZE)
    (hplace : (sit o).place = .none) : s.active.length < MSG_THREAD_OP_BUF_SIZE :=
  length_lt_of_not h.matches_.active (fun x hx => h.lt_of_ne fun heq => by rw [heq] at hx; cases hx)
    ho (by rw [hplace]; exact Place.noConfusion)

/-- No put to the active queue fails for a send without wait, no put to the free queue
fails, and an op is put back when no other thread is at it any more. -/
def Clean (s : State) : Step → Prop
  | .put c fails => fails = true → (s.client c).wait = true
  | .putFree c fails => fails = false ∧ s.worker.op ≠ some (s.client c).op
  | .workerPutFree fails => fails = false ∧ ∀ o, s.worker.op = some o → ∀ c, ¬s.At c o
  | _ => True

theorem Inv.put {fails : Bool} (hlegal : (s.client c).stage = .counted)
    (hok : fails → (s.client c).wait) :
    ∃ sit', Inv ((Step.put c fails).run s) sit' := by
  obtain ⟨hne, hfree, htag, htimeout, hstage⟩ := h.client_at hlegal (by decide)
  obtain ⟨hlt, hsit⟩ := h.client hne
  obtain ⟨hplace, href, hresult⟩ := hstage
  rw [Step.run]
  split
  · rename_i hfail
    have hwait := hok (hfail.resolve_right (not_le.mpr (h.active_room hlt hplace)))
    refine h.stageStep hne ((opOk_setClient (by decide)).mpr ?_) fun r hr => .inl hr
    exact ⟨hfree, htag, htimeout, hplace, href, hresult, hwait⟩
  · -- The op gets its place in the queue, and then its client goes on.
    have hqueue := h.matches_.pushActive hplace
    have hmatches := hqueue.setClient (c := c) (o := (s.client c).op)
      { s.client c with stage := .queued } (fun _ => rfl) (fun _ => rfl) (by
        grind [Sit.setPlace])
    rw [update_idem, update_self] at hmatches
    exact ⟨_, h.move hlt hmatches (update_eq_self _ _).symm
      ⟨hfree, htag, htimeout, href, hresult, trivial⟩ (fun x _ => ⟨rfl, rfl⟩)
      (h.putBack _ hlt) fun r hr => .inl hr⟩

omit h in
theorem count_append_self {l : List Nat} (h : l.count o = 0) (x : Nat) :
    (l ++ [o]).count x = if x = o then (if true then 1 else 0) else l.count x := by
  rw [count_append]
  by_cases hx : x = o
  · rw [hx, h]
    simp
  · simp [hx, Ne.symm hx]

theorem Inv.setFree (hfree : (sit o).free = false) :
    Matches { s with free := s.free ++ [o] } (update sit o ((sit o).setFree true)) := by
  apply h.matches_.setFree
  apply count_append_self
  rw [h.matches_.free, hfree]
  rfl

theorem Inv.putFree (hlegal : (s.client c).stage = .freeing)
    (hworker : s.worker.op ≠ some (s.client c).op) :
    ∃ sit', Inv ((Step.putFree c false).run s) sit' := by
  obtain ⟨hne, hfree, htag, htimeout, hstage⟩ := h.client_at hlegal (by decide)
  obtain ⟨hlt, hsit⟩ := h.client hne
  have hplace : (sit (s.client c).op).place = .none := by
    cases hp : (sit (s.client c).op).place with
    | none => rfl
    | active =>
      rw [hp] at hstage
      exact absurd hstage.2.2 (by decide)
    | worker w =>
      obtain ⟨hw, hop⟩ := (h.matches_.worker _ _).mp hp
      exact absurd (hw ▸ hop) hworker
  have hmatches := (h.setFree hfree).setClient (c := c) (o := (s.client c).op)
    { s.client c with stage := .idle } (fun _ => rfl) (fun _ => rfl) (by
      grind [Sit.setFree])
  rw [update_idem, update_self] at hmatches
  have hroom := h.free_room hlt hfree
  rw [Step.run, State.pushFree, if_neg fun hfail => hfail.elim Bool.noConfusion (not_le.mpr hroom)]
  have hput := h.putBack _ hlt
  rw [hfree] at hput
  refine ⟨_, h.move hlt ⟨hmatches.free, hmatches.active, hmatches.worker, hmatches.client⟩
    (update_eq_self _ _).symm ?_ (fun x hx => ⟨rfl, ?_⟩) ?_ fun r hr => .inl hr⟩
  · change AloneOk _ true (sit (s.client c).op).place
    rw [hplace]
    exact rfl
  · exact update_of_ne hx ..
  · change s.taken _ = update s.putBack _ _ _ + 0
    rw [update_self]
    exact hput

theorem Inv.get {wait : Bool} (hidle : (s.client c).stage = .idle)
    (hfree : s.free ≠ []) : ∃ sit', Inv ((Step.get c wait).run s) sit' := by
  obtain ⟨o, rest, heq⟩ := exists_cons_of_ne_nil hfree
  have hmem : (sit o).free := h.mem_free.mp (by rw [heq]; exact mem_cons_self ..)
  obtain ⟨hlt, hclient, hplace⟩ := h.free_sit hmem
  have hcount := h.matches_.free o
  rw [heq, hmem] at hcount
  have hpop := h.matches_.setFree (o := o) rest false (by
    intro x
    rw [heq]
    by_cases hx : x = o
    · rw [hx]
      simpa using hcount
    · rw [if_neg hx]
      simp [Ne.symm hx])
  have hmatches := hpop.setClient (c := c) (o := o) ⟨.got, o, s.next, wait⟩
    (fun hne => absurd hidle hne) (fun _ => rfl) (by
      grind [Sit.setFree])
  rw [update_idem, update_self] at hmatches
  rw [Step.run, State.getFree, heq]
  have hput := h.putBack o hlt
  rw [hmem] at hput
  refine ⟨_, h.move hlt ⟨hmatches.free, hmatches.active, hmatches.worker, hmatches.client⟩
    rfl ⟨rfl, rfl, rfl, hplace⟩ (fun x hx => ⟨?_, rfl⟩) ?_ fun r hr => .inl hr⟩
  · exact update_of_ne hx ..
  · change update s.taken o _ o = s.putBack o + 1
    rw [update_self, hput]
    rfl

/-! ## The steps of the worker -/

omit h in
theorem opOk_setPlace {m' : MsgOp} (h : OpOk m t) (hp : t.place ≠ .none)
    (htag : m'.tag = m.tag) (htimeout : m'.timeout = m.timeout)
    (halone : AloneOk m t.free t.place → AloneOk m' t.free p)
    (hqueued : ∀ wait, m.timeout = wait → QueuedOk m wait t.place → QueuedOk m' wait p)
    (hfreeing : ∀ wait, m.timeout = wait → QueuedOk (m.addRef 1) wait t.place → wait →
      t.place.held = 0 → QueuedOk (m'.addRef 1) wait p ∧ p.held = 0) :
    OpOk m' (t.setPlace p) := by
  rw [Sit.setPlace]
  rw [OpOk] at h
  cases hclient : t.client with
  | none =>
    rw [hclient] at h
    exact halone h
  | some x =>
    obtain ⟨c, cl⟩ := x
    rw [hclient] at h
    obtain ⟨hfree, htag', htimeout', hstage⟩ := h
    refine ⟨hfree, htag.trans htag', htimeout.trans htimeout', ?_⟩
    cases hst : cl.stage <;> rw [hst] at hstage
    case idle => exact hstage
    case got => exact absurd hstage hp
    case inited => exact absurd hstage.1 hp
    case counted => exact absurd hstage.1 hp
    case queueFailed => exact absurd hstage.1 hp
    case queued => exact hqueued cl.wait htimeout' hstage
    case waiting => exact ⟨hqueued cl.wait htimeout' hstage.1, hstage.2⟩
    case finishing => exact hqueued cl.wait htimeout' hstage
    case freeing =>
        obtain ⟨hq, hwait, hheld⟩ := hstage
        obtain ⟨hq', hheld'⟩ := hfreeing cl.wait htimeout' hq hwait hheld
        exact ⟨hq', hwait, hheld'⟩

theorem Inv.workerGet (hidle : s.worker = .idle) (hactive : s.active ≠ []) :
    ∃ sit', Inv (Step.workerGet.run s) sit' := by
  obtain ⟨o, rest, heq⟩ := exists_cons_of_ne_nil hactive
  have hplace : (sit o).place = .active := h.mem_active.mp (by rw [heq]; exact mem_cons_self ..)
  have hlt := h.lt_of_ne fun heq => by rw [heq] at hplace; cases hplace
  rw [Step.run, heq]
  refine ⟨_, h.move hlt (h.matches_.popActive heq hidle) (update_eq_self _ _).symm ?_
    (fun x _ => ⟨rfl, rfl⟩) (h.putBack o hlt) fun r hr => .inl hr⟩
  refine opOk_setPlace (h.ops o hlt) (by rw [hplace]; exact Place.noConfusion) (by rfl) (by rfl)
    ?_ ?_ ?_ <;> rw [hplace]
  · exact id
  · exact fun wait _ hq => ⟨hq.1, hq.2.1, trivial⟩
  · exact fun wait _ _ _ hheld => absurd hheld (by decide)

theorem Inv.workerMove {v : Worker} (hw : s.worker = w) (hop : w.op = some o)
    (hnew : v.op = some o ∨ v = .idle)
    (hp : (if v = .idle then .none else .worker v) = p) (htag : m.tag = (s.op o).tag)
    (htimeout : m.timeout = (s.op o).timeout)
    (halone : AloneOk (s.op o) (sit o).free (.worker w) → AloneOk m (sit o).free p)
    (hqueued : ∀ wait, (s.op o).timeout = wait → QueuedOk (s.op o) wait (.worker w) →
      QueuedOk m wait p)
    (hfreeing : ∀ wait, (s.op o).timeout = wait → QueuedOk ((s.op o).addRef 1) wait (.worker w) →
      wait → (Place.worker w).held = 0 → QueuedOk (m.addRef 1) wait p ∧ p.held = 0) :
    ∃ sit', Inv { s.setOp o m with worker := v } sit' := by
  subst hw hp
  obtain ⟨hlt, hplace⟩ := h.worker hop
  rw [← hplace] at halone hqueued hfreeing
  exact h.workerStep hop hnew (opOk_setPlace (h.ops o hlt) (by rw [hplace]; exact Place.noConfusion)
    htag htimeout halone hqueued hfreeing)

theorem Inv.workerHandle (hw : s.worker = .got o) : ∃ sit', Inv (Step.workerHandle.run s) sit' := by
  have hstep := h.workerMove (m := s.op o) (v := .handled o (s.op o).tag) hw rfl (.inl rfl)
    (if_neg Worker.noConfusion) rfl rfl id (fun wait _ hq => ⟨hq.1, hq.2.1, rfl⟩)
    fun wait _ _ _ hheld => absurd hheld (show (1 : Int) ≠ 0 by decide)
  rw [setOp_self] at hstep
  rw [Step.run, hw]
  exact hstep

theorem Inv.workerDec {tag : Nat} (hw : s.worker = .handled o tag) :
    ∃ sit', Inv (Step.workerDec.run s) sit' := by
  rw [Step.run, hw]
  -- The reference of the worker is the last one exactly if nobody waits.
  have hwait : ∀ wait, QueuedOk (s.op o) wait (.worker (.handled o tag)) →
      (s.op o).refCount + -1 = heldBy wait + 0 ∧ ((s.op o).refCount = 1 ↔ wait = false) := by
    intro wait hq
    have href : (s.op o).refCount = heldBy wait + 1 := hq.1
    cases wait <;> simp [href, heldBy]
  dsimp only
  split
  · rename_i href
    refine h.workerMove hw rfl (.inl rfl) (if_neg Worker.noConfusion) rfl rfl (·.1) ?_ ?_
    · intro wait _ hq
      exact ⟨(hwait wait hq).1, hq.2.1, (hwait wait hq).2.mp href⟩
    · exact fun wait _ _ _ hheld => absurd hheld (show (1 : Int) ≠ 0 by decide)
  · rename_i href
    refine h.workerMove hw rfl (.inl rfl) (if_neg Worker.noConfusion) rfl rfl ?_ ?_ ?_
    · exact fun halone => absurd halone.2 href
    · intro wait _ hq
      have htrue : wait := Bool.eq_true_of_not_eq_false (href <| (hwait wait hq).2.mpr ·)
      exact ⟨(hwait wait hq).1, hq.2.1, htrue, hq.2.2⟩
    · exact fun wait _ _ _ hheld => absurd hheld (show (1 : Int) ≠ 0 by decide)

theorem Inv.workerSignal {tag : Nat} (hw : s.worker = .signalling o tag) :
    ∃ sit', Inv (Step.workerSignal.run s) sit' := by
  rw [Step.run, hw]
  dsimp only
  split
  · refine h.workerMove hw rfl (.inl rfl) (if_neg Worker.noConfusion) rfl rfl False.elim ?_ ?_
    · intro wait _ hq
      exact ⟨hq.1, fun _ => .inr (congrArg Result.handled hq.2.2.2), hq.2.2.1⟩
    · intro wait _ hq _ _
      exact ⟨⟨hq.1, fun _ => .inr (congrArg Result.handled hq.2.2.2), hq.2.2.1⟩, rfl⟩
  · rename_i htimeout
    have hstep := h.workerMove (m := s.op o) (v := .idle) hw rfl (.inr rfl) (if_pos rfl) rfl rfl
      False.elim (fun wait hwait hq => absurd (hwait.trans hq.2.2.1) htimeout)
      fun wait hwait _ htrue _ => absurd (hwait.trans htrue) htimeout
    rw [setOp_self] at hstep
    exact hstep

theorem Inv.workerRaise (hw : s.worker = .raising o) :
    ∃ sit', Inv (Step.workerRaise.run s) sit' := by
  rw [Step.run, hw]
  refine h.workerMove hw rfl (.inr rfl) (if_pos rfl) rfl rfl False.elim ?_ ?_
  · exact fun wait _ hq => ⟨hq.1, hq.2.1, hq.2.2⟩
  · exact fun wait _ hq _ _ => ⟨⟨hq.1, hq.2.1, hq.2.2⟩, rfl⟩

theorem Inv.workerPutFree (hw : s.worker = .freeing o)
    (hclient : ∀ c, ¬s.At c o) : ∃ sit', Inv ((Step.workerPutFree false).run s) sit' := by
  have hop : s.worker.op = some o := by rw [hw]; rfl
  obtain ⟨hlt, hplace⟩ := h.worker hop
  have hnone : (sit o).client = none := by
    cases hsit : (sit o).client with
    | none => rfl
    | some x =>
      obtain ⟨hcl, hstage, heq⟩ := (h.matches_.client o x.1 x.2).mp hsit
      exact absurd ⟨by rw [hcl]; exact hstage, by rw [hcl]; exact heq⟩ (hclient x.1)
  have hok := h.ops o hlt
  rw [OpOk, hnone, hplace, hw] at hok
  have hfree : (sit o).free = false := hok
  have hmatches := (h.setFree hfree).setWorker (w := .idle) hop (.inr rfl)
  rw [update_idem, update_self] at hmatches
  have hroom := h.free_room hlt hfree
  have hput := h.putBack o hlt
  rw [hfree] at hput
  rw [Step.run, hw]
  dsimp only
  rw [State.pushFree, if_neg fun hfail => hfail.elim Bool.noConfusion (not_le.mpr hroom)]
  refine ⟨_, h.move hlt ⟨hmatches.free, hmatches.active, hmatches.worker, hmatches.client⟩
    (update_eq_self _ _).symm ?_ (fun x hx => ⟨rfl, ?_⟩) ?_ fun r hr => .inl hr⟩
  · rw [Sit.setFree]
    rw [hnone]
    exact rfl
  · exact update_of_ne hx ..
  · change s.taken o = update s.putBack o _ o + 0
    rw [update_self]
    exact hput

/-! ## Runs -/

theorem Inv.step (st : Step) (hlegal : st.Legal s) (hok : Clean s st) :
    ∃ sit', Inv (st.run s) sit' := by
  cases st with
  | get c wait => exact h.get hlegal.1 hlegal.2
  | init c => exact h.init hlegal
  | inc c => exact h.inc hlegal
  | put c fails => exact h.put hlegal hok
  | undo c => exact h.undo hlegal
  | check c => exact h.check hlegal
  | wake c => exact h.wake hlegal
  | final c => exact h.final hlegal
  | putFree c fails =>
    obtain ⟨rfl, hworker⟩ := hok
    exact h.putFree hlegal hworker
  | workerGet => exact h.workerGet hlegal.1 hlegal.2
  | workerHandle =>
    obtain ⟨o, hw⟩ := hlegal
    exact h.workerHandle hw
  | workerDec =>
    obtain ⟨o, tag, hw⟩ := hlegal
    exact h.workerDec hw
  | workerPutFree fails =>
    obtain ⟨o, hw⟩ := hlegal
    obtain ⟨rfl, hclient⟩ := hok
    exact h.workerPutFree hw (hclient o (by rw [hw]; rfl))
  | workerSignal =>
    obtain ⟨o, tag, hw⟩ := hlegal
    exact h.workerSignal hw
  | workerRaise =>
    obtain ⟨o, hw⟩ := hlegal
    exact h.workerRaise hw

omit h in
theorem Inv.start :
    Inv start fun o => ⟨decide (o < MSG_THREAD_OP_BUF_SIZE), none, .none⟩ where
  matches_ :=
    { free := fun o => by
        simp only [Conninfra.start, count_range, decide_eq_true_eq]
      active := fun o => by
        exact count_nil
      worker := fun o w => by
        constructor
        · exact Place.noConfusion
        · rintro ⟨rfl, hop⟩
          cases hop
      client := fun o c cl => by
        constructor
        · intro h
          cases h
        · rintro ⟨rfl, hstage, _⟩
          exact absurd rfl hstage }
  bound := by
    intro o ho
    rw [decide_eq_false (not_lt.mpr ho)]
  ops := by
    intro o ho
    exact decide_eq_true ho
  putBack := by
    intro o ho
    rw [decide_eq_true ho]
    rfl
  results := by
    intro r hr
    cases hr

omit h in
theorem reached_inv (hs : Reached Clean s) : ∃ sit, Inv s sit := by
  induction hs with
  | start => exact ⟨_, .start⟩
  | step st _ hlegal hok ih =>
    obtain ⟨sit, hinv⟩ := ih
    exact hinv.step st hlegal hok

theorem Inv.client_of_at (hat : s.At c o) : (sit o).client = some (c, s.client c) :=
  (h.matches_.client o c (s.client c)).mpr ⟨rfl, hat⟩

theorem Inv.conserved : Conserved s where
  free := by
    intro o ho
    have hfree := h.mem_free.mp ho
    obtain ⟨_, hclient, hplace⟩ := h.free_sit hfree
    refine ⟨?_, fun hactive => ?_, fun hw => ?_, fun c hat => ?_⟩
    · rw [h.matches_.free, hfree, if_pos rfl]
    · rw [h.mem_active, hplace] at hactive
      cases hactive
    · rw [(h.worker hw).2] at hplace
      cases hplace
    · rw [h.client_of_at hat] at hclient
      cases hclient
  active := by
    intro o ho
    have hplace := h.mem_active.mp ho
    refine ⟨?_, fun hw => ?_⟩
    · rw [h.matches_.active, if_pos hplace]
    · rw [(h.worker hw).2] at hplace
      cases hplace
  sender := by
    intro c c' o hat hat'
    have heq := (h.client_of_at hat).symm.trans (h.client_of_at hat')
    exact congrArg Prod.fst (Option.some.inj heq)
  kept := by
    intro o ho
    cases hclient : (sit o).client with
    | some x =>
      obtain ⟨hcl, hstage, hop⟩ := (h.matches_.client o x.1 x.2).mp hclient
      exact .inr (.inr (.inr ⟨x.1, by rw [hcl]; exact hstage, by rw [hcl]; exact hop⟩))
    | none =>
      have hok := h.ops o ho
      rw [OpOk, hclient] at hok
      cases hplace : (sit o).place with
      | none =>
        rw [hplace] at hok
        exact .inl (h.mem_free.mpr hok)
      | active => exact .inr (.inl (h.mem_active.mpr hplace))
      | worker w =>
        obtain ⟨hw, hop⟩ := (h.matches_.worker o w).mp hplace
        exact .inr (.inr (.inl (by rw [hw]; exact hop)))
  putBack := by
    intro o ho
    have hput := h.putBack o ho
    simp only [h.mem_free]
    exact hput
  results := h.results

end

/-- In every clean run the ops are conserved at each moment. -/
theorem ops_conserved (hs : Reached Clean s) : Conserved s := by
  obtain ⟨sit, hinv⟩ := reached_inv hs
  exact hinv.conserved

/-! ## Fixed runs -/

theorem reached_queued {ok : State → Step → Prop} (wait : Bool) (hget : ∀ s c, ok s (.get c wait))
    (hinit : ∀ s c, ok s (.init c)) (hinc : ∀ s c, ok s (.inc c)) :
    Reached ok ((Step.inc 0).run ((Step.init 0).run ((Step.get 0 wait).run start))) := by
  have h0 : Reached ok start := .start
  have h1 := h0.step (.get 0 wait) ⟨rfl, by decide⟩ (hget _ _)
  have h2 := h1.step (.init 0) rfl (hinit _ _)
  exact h2.step (.inc 0) rfl (hinc _ _)

theorem ops_conserved_wait :
    ∃ s, Reached Clean s ∧ s.returned = [(0, .handled 0)] ∧ Conserved s := by
  have h3 : Reached Clean _ :=
    reached_queued true (fun _ _ => trivial) (fun _ _ => trivial) fun _ _ => trivial
  have h4 := h3.step (.put 0 false) rfl fun hf => Bool.noConfusion hf
  have h5 := h4.step (.check 0) rfl trivial
  have h6 := h5.step .workerGet ⟨rfl, by decide⟩ trivial
  have h7 := h6.step .workerHandle ⟨0, rfl⟩ trivial
  have h8 := h7.step .workerDec ⟨0, 0, rfl⟩ trivial
  have h9 := h8.step .workerSignal ⟨0, 0, rfl⟩ trivial
  have h10 := h9.step .workerRaise ⟨0, rfl⟩ trivial
  have h11 := h10.step (.wake 0) rfl trivial
  have h12 := h11.step (.final 0) rfl trivial
  have h13 := h12.step (.putFree 0 false) rfl ⟨rfl, by decide⟩
  exact ⟨_, h13, rfl, ops_conserved h13⟩

/-- In a clean run no queue is full when an op is put into it: only a lock that is interrupted
makes a put fail. -/
theorem queues_have_room (hs : Reached Clean s) :
    (∀ c, (s.client c).stage = .counted → s.active.length < MSG_THREAD_OP_BUF_SIZE) ∧
      (∀ c, (s.client c).stage = .freeing → s.free.length < MSG_THREAD_OP_BUF_SIZE) ∧
      ∀ o, s.worker = .freeing o → s.free.length < MSG_THREAD_OP_BUF_SIZE := by
  obtain ⟨sit, h⟩ := reached_inv hs
  refine ⟨fun c hc => ?_, fun c hc => ?_, fun o hw => ?_⟩
  · obtain ⟨hne, -, -, -, hplace, -⟩ := h.client_at hc (by decide)
    exact h.active_room (h.client hne).1 hplace
  · obtain ⟨hne, hfree, -⟩ := h.client_at hc (by decide)
    exact h.free_room (h.client hne).1 hfree
  · obtain ⟨hlt, hplace⟩ := h.worker (o := o) (by rw [hw]; rfl)
    refine h.free_room hlt (Bool.eq_false_iff.mpr fun hfree => ?_)
    rw [(h.free_sit hfree).2.2] at hplace
    cases hplace

theorem queues_have_room_counted :
    ∃ s, Reached Clean s ∧ (s.client 0).stage = .counted ∧
      s.active.length < MSG_THREAD_OP_BUF_SIZE :=
  have h3 := reached_queued true (fun _ _ => trivial) (fun _ _ => trivial) fun _ _ => trivial
  ⟨_, h3, rfl, (queues_have_room h3).1 0 rfl⟩

/-- A send without wait whose put to the active queue fails loses its op, and a send whose
timeout expires while the worker is about to write the result gives its op back too early. -/
theorem op_lost_or_in_use :
    (∃ s, Reached (fun _ _ => True) s ∧
      ¬(0 ∈ s.free ∨ 0 ∈ s.active ∨ s.worker.op = some 0 ∨ ∃ c, s.At c 0)) ∧
    ∃ s, Reached (fun _ _ => True) s ∧ 0 ∈ s.free ∧ s.worker.op = some 0 := by
  constructor
  · have h3 : Reached (fun _ _ => True) _ :=
      reached_queued false (fun _ _ => trivial) (fun _ _ => trivial) fun _ _ => trivial
    have h4 := h3.step (.put 0 true) rfl trivial
    have h5 := h4.step (.undo 0) rfl trivial
    have h6 := h5.step (.final 0) rfl trivial
    refine ⟨_, h6, ?_⟩
    rintro (hfree | hactive | hworker | ⟨c, hstage, _⟩)
    · exact absurd hfree (by decide)
    · exact absurd hactive (by decide)
    · exact absurd hworker (by decide)
    · apply hstage
      cases c with
      | zero => rfl
      | succ c => rfl
  · have h3 : Reached (fun _ _ => True) _ :=
      reached_queued true (fun _ _ => trivial) (fun _ _ => trivial) fun _ _ => trivial
    have h4 := h3.step (.put 0 false) rfl trivial
    have h5 := h4.step (.check 0) rfl trivial
    have h6 := h5.step .workerGet ⟨rfl, by decide⟩ trivial
    have h7 := h6.step .workerHandle ⟨0, rfl⟩ trivial
    have h8 := h7.step .workerDec ⟨0, 0, rfl⟩ trivial
    have h9 := h8.step (.wake 0) rfl trivial
    have h10 := h9.step (.final 0) rfl trivial
    have h11 := h10.step (.putFree 0 false) rfl trivial
    exact ⟨_, h11, by decide, rfl⟩

end OpenWrt.Conninfra
