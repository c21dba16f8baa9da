import Mathlib.Logic.Function.Basic

/-!
# Message ops of the conninfra thread

`msg_evt_put_op_to_active` of any number of clients against `msg_evt_thread`
(`conninfra/src/base/msg_thread.c`).  Every operation on a queue, on a `ref_count` and on a
signal is one step, and so is every later read of `timeoutValue` or `result`.  A queue
operation fails when its killable lock is interrupted or the queue is full.
-/

namespace OpenWrt.Conninfra

def MSG_THREAD_OP_BUF_SIZE : Nat := 64

/-- `result` of an op: cleared by `msg_evt_get_free_op`, -9 before the wait, or what the
handler returned for a send. -/
inductive Result where
  | cleared
  | initial
  | handled (tag : Nat)
  deriving DecidableEq, Repr

/-- `struct msg_op`.  The data of the op is the number of the send that filled it, and
`timeout` tells whether `signal.timeoutValue` is set. -/
structure MsgOp where
  tag : Nat
  timeout : Bool
  result : Result
  refCount : Int
  signal : Bool
  deriving DecidableEq, Repr

/-- Where a client is in `msg_thread_send_2` or `msg_thread_send_wait_3`. -/
inductive Stage where
  | idle
  /-- The op was taken from the free queue and filled. -/
  | got
  /-- After `atomic_set`. -/
  | inited
  /-- After `atomic_inc`. -/
  | counted
  | queueFailed
  | queued
  | waiting
  /-- Before the last test of `timeoutValue`. -/
  | finishing
  /-- `atomic_dec_and_test` came to zero. -/
  | freeing
  deriving DecidableEq, Repr

structure Client where
  stage : Stage
  op : Nat
  tag : Nat
  wait : Bool
  deriving DecidableEq, Repr

/-- Where `msg_evt_thread` is, with its op and the send it has handled. -/
inductive Worker where
  | idle
  | got (op : Nat)
  | handled (op tag : Nat)
  | freeing (op : Nat)
  /-- `atomic_dec_and_test` did not come to zero. -/
  | signalling (op tag : Nat)
  | raising (op : Nat)
  deriving DecidableEq, Repr

def Worker.op : Worker → Option Nat
  | .idle => none
  | .got op | .handled op _ | .freeing op | .signalling op _ | .raising op => some op

structure State where
  free : List Nat
  active : List Nat
  op : Nat → MsgOp
  client : Nat → Client
  worker : Worker
  next : Nat
  /-- How often an op was taken from the free queue, and put back. -/
  taken : Nat → Nat
  putBack : Nat → Nat
  /-- The results `msg_thread_send_wait_3` has read, with the numbers of the sends. -/
  returned : List (Nat × Result)

inductive Step where
  | get (c : Nat) (wait : Bool)
  | init (c : Nat)
  | inc (c : Nat)
  | put (c : Nat) (fails : Bool)
  | undo (c : Nat)
  | check (c : Nat)
  | wake (c : Nat)
  | final (c : Nat)
  | putFree (c : Nat) (fails : Bool)
  | workerGet
  | workerHandle
  | workerDec
  | workerPutFree (fails : Bool)
  | workerSignal
  | workerRaise

def State.setOp (s : State) (o : Nat) (m : MsgOp) : State :=
  { s with op := Function.update s.op o m }

def State.setClient (s : State) (c : Nat) (cl : Client) : State :=
  { s with client := Function.update s.client c cl }

def State.setStage (s : State) (c : Nat) (stage : Stage) : State :=
  s.setClient c { s.client c with stage := stage }

def State.pushFree (s : State) (o : Nat) (fails : Bool) : State :=
  if fails = true ∨ s.free.length ≥ MSG_THREAD_OP_BUF_SIZE then s
  else
    { s with
      free := s.free ++ [o]
      putBack := Function.update s.putBack o (s.putBack o + 1) }

def State.getFree (s : State) (c : Nat) (wait : Bool) : State :=
  match s.free with
  | [] => s
  | o :: rest =>
    { s with
      free := rest
      op := Function.update s.op o ⟨s.next, wait, .cleared, 0, false⟩
      client := Function.update s.client c ⟨.got, o, s.next, wait⟩
      next := s.next + 1
      taken := Function.update s.taken o (s.taken o + 1) }

def MsgOp.init (m : MsgOp) : MsgOp :=
  if m.timeout then { m with result := .initial, signal := false, refCount := 1 }
  else { m with refCount := 0 }

def MsgOp.addRef (m : MsgOp) (d : Int) : MsgOp := { m with refCount := m.refCount + d }

def Step.run (s : State) : Step → State
  | .get c wait => s.getFree c wait
  | .init c => (s.setOp (s.client c).op (s.op (s.client c).op).init).setStage c .inited
  | .inc c => (s.setOp (s.client c).op ((s.op (s.client c).op).addRef 1)).setStage c .counted
  | .put c fails =>
    if fails = true ∨ s.active.length ≥ MSG_THREAD_OP_BUF_SIZE then s.setStage c .queueFailed
    else State.setStage { s with active := s.active ++ [(s.client c).op] } c .queued
  | .undo c =>
    (s.setOp (s.client c).op ((s.op (s.client c).op).addRef (-1))).setStage c .finishing
  | .check c =>
    if (s.op (s.client c).op).timeout then s.setStage c .waiting else s.setStage c .finishing
  | .wake c =>
    State.setStage
      { s with returned := s.returned ++ [((s.client c).tag, (s.op (s.client c).op).result)] }
      c .finishing
  | .final c =>
    if (s.op (s.client c).op).timeout then
      (s.setOp (s.client c).op ((s.op (s.client c).op).addRef (-1))).setStage c
        (if (s.op (s.client c).op).refCount = 1 then .freeing else .idle)
    else s.setStage c .idle
  | .putFree c fails => (s.pushFree (s.client c).op fails).setStage c .idle
  | .workerGet =>
    match s.active with
    | [] => s
    | o :: rest => { s with active := rest, worker := .got o }
  | .workerHandle =>
    match s.worker with
    | .got o => { s with worker := .handled o (s.op o).tag }
    | _ => s
  | .workerDec =>
    match s.worker with
    | .handled o tag =>
      { s.setOp o ((s.op o).addRef (-1)) with
        worker := if (s.op o).refCount = 1 then .freeing o else .signalling o tag }
    | _ => s
  | .workerPutFree fails =>
    match s.worker with
    | .freeing o => { s.pushFree o fails with worker := .idle }
    | _ => s
  | .workerSignal =>
    match s.worker with
    | .signalling o tag =>
      if (s.op o).timeout then
        { s.setOp o { s.op o with result := .handled tag } with worker := .raising o }
      else { s with worker := .idle }
    | _ => s
  | .workerRaise =>
    match s.worker with
    | .raising o => { s.setOp o { s.op o with signal := true } with worker := .idle }
    | _ => s

/-- The steps of a client and of the worker in their order.  A client may stop waiting at
any moment, since its timeout may expire. -/
def Step.Legal (s : State) : Step → Prop
  | .get c _ => (s.client c).stage = .idle ∧ s.free ≠ []
  | .init c => (s.client c).stage = .got
  | .inc c => (s.client c).stage = .inited
  | .put c _ => (s.client c).stage = .counted
  | .undo c => (s.client c).stage = .queueFailed
  | .check c => (s.client c).stage = .queued
  | .wake c => (s.client c).stage = .waiting
  | .final c => (s.client c).stage = .finishing
  | .putFree c _ => (s.client c).stage = .freeing
  | .workerGet => s.worker = .idle ∧ s.active ≠ []
  | .workerHandle => ∃ o, s.worker = .got o
  | .workerDec => ∃ o tag, s.worker = .handled o tag
  | .workerPutFree _ => ∃ o, s.worker = .freeing o
  | .workerSignal => ∃ o tag, s.worker = .signalling o tag
  | .workerRaise => ∃ o, s.worker = .raising o

def start : State where
  free := List.range MSG_THREAD_OP_BUF_SIZE
  active := []
  op _ := ⟨0, false, .cleared, 0, false⟩
  client _ := ⟨.idle, 0, 0, false⟩
  worker := .idle
  next := 0
  taken _ := 0
  putBack _ := 0
  returned := []

inductive Reached (ok : State → Step → Prop) : State → Prop
  | start : Reached ok start
  | step {s : State} (st : Step) (hs : Reached ok s) (hlegal : st.Legal s) (hok : ok s st) :
      Reached ok (st.run s)

def State.At (s : State) (c o : Nat) : Prop := (s.client c).stage ≠ .idle ∧ (s.client c).op = o

structure Conserved (s : State) : Prop where
  /-- An op in the free queue is there once and nowhere else. -/
  free : ∀ o ∈ s.free, s.free.count o = 1 ∧ o ∉ s.active ∧ s.worker.op ≠ some o ∧ ∀ c, ¬s.At c o
  /-- An op in the active queue is there once and not with the worker. -/
  active : ∀ o ∈ s.active, s.active.count o = 1 ∧ s.worker.op ≠ some o
  sender : ∀ c c' o, s.At c o → s.At c' o → c = c'
  /-- An op that nobody uses is in the free queue. -/
  kept : ∀ o < MSG_THREAD_OP_BUF_SIZE,
    o ∈ s.free ∨ o ∈ s.active ∨ s.worker.op = some o ∨ ∃ c, s.At c o
  /-- For every send that took an op, it was put back once, but for the send it is in. -/
  putBack : ∀ o < MSG_THREAD_OP_BUF_SIZE, s.taken o = s.putBack o + if o ∈ s.free then 0 else 1
  /-- A send that waits reads -9 or the result of its own op. -/
  results : ∀ r ∈ s.returned, r.2 = .initial ∨ r.2 = .handled r.1

end OpenWrt.Conninfra
