import Labs.Models.Kv

/-!
# The replicated key/value server

The server of `kvraft`: the handlers of `Get`, `Put` and `Append`, which start a command
in Raft and wait on a channel for its index, and the loop `update`, which applies what
Raft delivers and notifies whoever waits.  What runs under the mutex is one function of
the server's fields.  A missing key travels in `Op.Value`, as the string `ErrNoKey`.

A channel is a number, and its buffer of one element is at that place of `chans`.  A
snapshot is what its three encoded values decode to; the empty byte slice is `none`.
-/

namespace Labs
namespace KvRaft

open Models

/-- The bytes of the constant `ErrNoKey`. -/
def errNoKey : Str := [69, 114, 114, 78, 111, 75, 101, 121]

inductive Err where
  | ok
  | errNoKey
  | errWrongLeader
  deriving DecidableEq, Repr

inductive OpType where
  | put
  | append
  | get
  deriving DecidableEq, Repr

structure Op where
  opType : OpType
  key : Str
  value : Str
  seq : Int
  clientId : Int64
  deriving DecidableEq, Repr

structure GetArgs where
  key : Str
  seq : Int
  clientId : Int64
  deriving DecidableEq, Repr

structure PutAppendArgs where
  key : Str
  value : Str
  seq : Int
  clientId : Int64
  deriving DecidableEq, Repr

/-- `PutAppendReply` has no value. -/
structure Reply where
  err : Err
  value : Str
  deriving DecidableEq, Repr

structure Snapshot where
  kv : Str → Option Str
  requestCache : Int64 → Option Int
  lastApplied : Nat

inductive ApplyMsg where
  | command (command : Op) (commandIndex : Nat)
  | snapshot (snapshot : Option Snapshot) (snapshotIndex : Nat)

structure KVServer where
  maxraftstate : Int
  kv : Str → Option Str
  notify : Nat → Option Nat
  chans : List (Option Op)
  requestCache : Int64 → Option Int
  lastApplied : Nat

namespace KVServer

/-! ## The state machine -/

def get (srv : KVServer) (key : Str) : Str :=
  match srv.kv key with
  | some val => val
  | none => errNoKey

def duplicate (srv : KVServer) (clientId : Int64) (currentSeq : Int) : Bool :=
  match srv.requestCache clientId with
  | some seq => currentSeq ≤ seq
  | none => false

/-- The `switch` of `apply`.  A `Get` leaves its result in the operation. -/
def applyOp (srv : KVServer) (op : Op) : KVServer × Op :=
  match op.opType with
  | .put => ({ srv with kv := Function.update srv.kv op.key (some op.value) }, op)
  | .append =>
    let old := (srv.kv op.key).getD []
    ({ srv with kv := Function.update srv.kv op.key (some (old ++ op.value)) }, op)
  | .get => (srv, { op with value := srv.get op.key })

def apply (srv : KVServer) (op : Op) : KVServer × Op :=
  let (srv, op) := srv.applyOp op
  ({ srv with requestCache := Function.update srv.requestCache op.clientId (some op.seq) }, op)

/-- Apply an operation unless it is a duplicate.  A duplicate `Get` is read again. -/
def applyNew (srv : KVServer) (op : Op) : KVServer × Op :=
  if srv.duplicate op.clientId op.seq = false then srv.apply op
  else if op.opType = .get then (srv, { op with value := srv.get op.key })
  else (srv, op)

/-! ## Snapshots -/

def shouldSnapshot (srv : KVServer) (raftStateSize : Int) : Bool :=
  if srv.maxraftstate = -1 then false else srv.maxraftstate ≤ raftStateSize

def snapshot (srv : KVServer) : Snapshot where
  kv := srv.kv
  requestCache := srv.requestCache
  lastApplied := srv.lastApplied

def readSnapshot (srv : KVServer) : Option Snapshot → KVServer
  | none => srv
  | some s =>
    { srv with kv := s.kv, requestCache := s.requestCache, lastApplied := s.lastApplied }

def startKVServer (maxraftstate : Int) (persisted : Option Snapshot) : KVServer :=
  { maxraftstate := maxraftstate
    kv := fun _ => none
    notify := fun _ => none
    chans := []
    requestCache := fun _ => none
    lastApplied := 0 : KVServer }.readSnapshot persisted

/-! ## The loop -/

/-- What a turn of `update` leaves behind: the server, the snapshot it gave to Raft, and
the channel to notify after the mutex is released. -/
structure Updated where
  srv : KVServer
  snapshot : Option Snapshot
  notify : Option (Nat × Op)

def update (srv : KVServer) (raftStateSize : Int) : ApplyMsg → Updated
  | .snapshot data index =>
    if srv.lastApplied < index then
      { srv := { srv.readSnapshot data with lastApplied := index }
        snapshot := none
        notify := none }
    else { srv := srv, snapshot := none, notify := none }
  | .command op index =>
    let (srv, op) := srv.applyNew op
    let srv := { srv with lastApplied := index }
    { srv := { srv with notify := Function.update srv.notify index none }
      snapshot := if srv.shouldSnapshot raftStateSize then some srv.snapshot else none
      notify := (srv.notify index).map fun ch => (ch, op) }

/-- The send on a channel that may be full. -/
def send (srv : KVServer) (ch : Nat) (op : Op) : KVServer :=
  { srv with chans := srv.chans.modify ch fun buffer => buffer.or (some op) }

/-! ## Handlers -/

def getNotifyCh (srv : KVServer) (index : Nat) : KVServer × Nat :=
  match srv.notify index with
  | some ch => (srv, ch)
  | none =>
    ({ srv with
        chans := srv.chans ++ [none]
        notify := Function.update srv.notify index (some srv.chans.length) },
      srv.chans.length)

def receive (srv : KVServer) (ch : Nat) : Option (Op × KVServer) :=
  match srv.chans[ch]? with
  | some (some op) => some (op, { srv with chans := srv.chans.set ch none })
  | _ => none

/-- The deletion by a handler that has waited too long. -/
def forget (srv : KVServer) (index : Nat) : KVServer :=
  { srv with notify := Function.update srv.notify index none }

end KVServer

inductive Request where
  | get (args : GetArgs)
  | put (args : PutAppendArgs)
  | append (args : PutAppendArgs)
  deriving DecidableEq, Repr

namespace Request

def putAppendCmd (opType : OpType) (args : PutAppendArgs) : Op where
  opType := opType
  key := args.key
  value := args.value
  seq := args.seq
  clientId := args.clientId

/-- The command that the handler starts. -/
def cmd : Request → Op
  | .get args =>
    { opType := .get, key := args.key, value := [], seq := args.seq, clientId := args.clientId }
  | .put args => putAppendCmd .put args
  | .append args => putAppendCmd .append args

/-- The reply of `Get` when it wakes up. -/
def getReply (args : GetArgs) (applied : Op) : Reply :=
  if applied.clientId = args.clientId ∧ applied.seq = args.seq then
    if applied.value = errNoKey then { err := .errNoKey, value := [] }
    else { err := .ok, value := applied.value }
  else { err := .errWrongLeader, value := [] }

/-- The reply of `handlePutAppend` when it wakes up. -/
def putAppendReply (args : PutAppendArgs) (applied : Op) : Reply :=
  if applied.clientId = args.clientId ∧ applied.seq = args.seq then { err := .ok, value := [] }
  else { err := .errWrongLeader, value := [] }

def reply : Request → Op → Reply
  | .get args => getReply args
  | .put args => putAppendReply args
  | .append args => putAppendReply args

/-- What the clerk returns to its caller, `none` if it tries the next server. -/
def result : Request → Reply → Option Str
  | .get _, reply =>
    match reply.err with
    | .ok => some reply.value
    | .errNoKey => some []
    | .errWrongLeader => none
  | .put _, reply => if reply.err = .ok then some [] else none
  | .append _, reply => if reply.err = .ok then some [] else none

/-- What becomes of the value of a `Get` on its way to the caller. -/
def shown (value : Str) : Str := if value = errNoKey then [] else value

/-- A handler answers only if the operation that woke it up is its own. -/
theorem reply_own {request : Request} {applied : Op}
    (h : (request.reply applied).err ≠ .errWrongLeader) :
    applied.clientId = request.cmd.clientId ∧ applied.seq = request.cmd.seq := by
  by_contra hne
  cases request with
  | get args => exact h (congrArg Reply.err (if_neg hne))
  | put args => exact h (congrArg Reply.err (if_neg hne))
  | append args => exact h (congrArg Reply.err (if_neg hne))

/-- A clerk that is told the wrong leader has no result. -/
theorem result_ne {request : Request} {r : Reply} {out : Str}
    (h : request.result r = some out) : r.err ≠ .errWrongLeader := by
  intro herr
  cases request <;> simp [result, herr] at h

theorem result_reply_get {request : Request} {applied : Op} {out : Str}
    (h : request.result (request.reply applied) = some out) (hget : request.cmd.opType = .get) :
    out = shown applied.value := by
  cases request with
  | get args =>
      have hown : applied.clientId = args.clientId ∧ applied.seq = args.seq :=
        reply_own (result_ne h)
      rw [reply, getReply, if_pos hown] at h
      rw [shown]
      split at h
      · next hv =>
          rw [if_pos hv]
          exact (Option.some.inj h).symm
      · next hv =>
          rw [if_neg hv]
          exact (Option.some.inj h).symm
  | put args => cases hget
  | append args => cases hget

end Request
end KvRaft
end Labs
