import Labs.KvRaft.Log
import Labs.Run

/-!
# Clerks and servers over Raft

The whole service: clerks that call one operation at a time and go from server to server
until one answers, a network that loses, delays and reorders, the servers, and what Raft
promises them.  There is one agreed log, and it only grows, by a command for which some
`Start` returned the next index.  A server is handed the entry after the last one it
applied, or a snapshot that some server has made; it restarts from any such snapshot or
from nothing.  Who leads, which index `Start` returns, when a call fails and how large
Raft's state is are left open.
-/

namespace Labs
namespace KvRaft

open Models History

/-- A call of a clerk to one server. -/
structure Rpc (n m : Nat) where
  src : Fin m
  number : Nat
  server : Fin (n + 1)
  request : Request

/-- A handler that waits for its index. -/
structure Handler (n m : Nat) where
  rpc : Rpc n m
  index : Nat
  ch : Nat

structure Response (n m : Nat) where
  rpc : Rpc n m
  reply : Reply

/-- The operation in progress: its place in the history and what is sent. -/
structure Call where
  op : Nat
  request : Request

/-- `number` is that of the last call to a server. -/
structure Clerk (n : Nat) where
  id : Int64
  seq : Int
  leader : Fin (n + 1)
  number : Nat
  calling : Option Call

/-- What `Clerk.Get` and `Clerk.PutAppend` send. -/
def Clerk.request {n : Nat} (ck : Clerk n) (opType : OpType) (key value : Str) : Request :=
  match opType with
  | .get => .get { key := key, seq := ck.seq, clientId := ck.id }
  | .put => .put { key := key, value := value, seq := ck.seq, clientId := ck.id }
  | .append => .append { key := key, value := value, seq := ck.seq, clientId := ck.id }

/-- `log` is the agreed sequence, `started` lists the commands that leaders took with the
index they returned, `snapshots` what was given to Raft.  `sending` is the channel that the
loop of a server is about to notify. -/
structure System (n m : Nat) where
  servers : Fin (n + 1) → KVServer
  sending : Fin (n + 1) → Option (Nat × Op)
  log : List Op
  started : List (Nat × Op)
  snapshots : List Snapshot
  clerks : Fin m → Clerk n
  requests : List (Rpc n m)
  waiting : List (Handler n m)
  replies : List (Response n m)
  calls : Nat
  ops : List (Operation KvInput KvOutput)
  clock : Nat

inductive Action (n m : Nat) where
  | invoke (i : Fin m) (opType : OpType) (key value : Str)
  | retry (i : Fin m)
  | deliver (k : Nat) (start : Option Nat)
  | commit (k : Nat)
  | apply (i : Fin (n + 1)) (raftStateSize : Int)
  | install (i : Fin (n + 1)) (k : Nat)
  | notify (i : Fin (n + 1))
  | wake (k : Nat)
  | timeout (k : Nat)
  | receive (k : Nat)
  | restart (i : Fin (n + 1)) (persisted : Option Nat)

namespace System

variable {n m : Nat}

def init (maxraftstate : Int) (id : Fin m → Int64) : System n m where
  servers := fun _ => .startKVServer maxraftstate none
  sending := fun _ => none
  log := []
  started := []
  snapshots := []
  clerks := fun i => { id := id i, seq := 0, leader := 0, number := 0, calling := none }
  requests := []
  waiting := []
  replies := []
  calls := 0
  ops := []
  clock := 0

/-- Clerk `i`, now `ck`, calls its leader under a new number. -/
def transmit (w : System n m) (i : Fin m) (ck : Clerk n) (request : Request) : System n m :=
  { w with
    clerks := Function.update w.clerks i { ck with number := w.calls }
    requests := w.requests ++
      [{ src := i, number := w.calls, server := ck.leader, request := request }]
    calls := w.calls + 1
    clock := w.clock + 1 }

def invoke (w : System n m) (i : Fin m) (opType : OpType) (key value : Str) :
    Option (System n m) :=
  match (w.clerks i).calling with
  | some _ => none
  | none =>
    let request := (w.clerks i).request opType key value
    some ({ w with ops := called w.ops request.cmd.input w.clock }.transmit i
      { w.clerks i with
        seq := (w.clerks i).seq + 1
        calling := some { op := w.ops.length, request := request } } request)

/-- A call to a server has failed; the next one is tried. -/
def retry (w : System n m) (i : Fin m) : Option (System n m) :=
  match (w.clerks i).calling with
  | none => none
  | some call =>
    some (w.transmit i { w.clerks i with leader := (w.clerks i).leader + 1 } call.request)

/-- A handler calls `Start`, which returns an index if the server believes it leads. -/
def deliver (w : System n m) (k : Nat) (start : Option Nat) : Option (System n m) :=
  match w.requests[k]?, start with
  | none, _ => none
  | some rpc, none =>
    some { w with
      requests := w.requests.eraseIdx k
      replies := w.replies ++ [{ rpc := rpc, reply := { err := .errWrongLeader, value := [] } }]
      clock := w.clock + 1 }
  | some rpc, some index =>
    let (srv, ch) := (w.servers rpc.server).getNotifyCh index
    some { w with
      servers := Function.update w.servers rpc.server srv
      started := w.started ++ [(index, rpc.request.cmd)]
      requests := w.requests.eraseIdx k
      waiting := w.waiting ++ [{ rpc := rpc, index := index, ch := ch }]
      clock := w.clock + 1 }

def commit (w : System n m) (k : Nat) : Option (System n m) :=
  match w.started[k]? with
  | none => none
  | some (index, op) =>
    if index = w.log.length + 1 then
      some { w with log := w.log ++ [op], clock := w.clock + 1 }
    else none

/-- A turn of the loop of server `i`, which takes no message before it has notified. -/
def turn (w : System n m) (i : Fin (n + 1)) (raftStateSize : Int) (msg : ApplyMsg) :
    Option (System n m) :=
  match w.sending i with
  | some _ => none
  | none =>
    let u := (w.servers i).update raftStateSize msg
    some { w with
      servers := Function.update w.servers i u.srv
      sending := Function.update w.sending i u.notify
      snapshots := w.snapshots ++ u.snapshot.toList
      clock := w.clock + 1 }

def apply (w : System n m) (i : Fin (n + 1)) (raftStateSize : Int) : Option (System n m) :=
  match w.log[(w.servers i).lastApplied]? with
  | none => none
  | some op => w.turn i raftStateSize (.command op ((w.servers i).lastApplied + 1))

def install (w : System n m) (i : Fin (n + 1)) (k : Nat) : Option (System n m) :=
  match w.snapshots[k]? with
  | none => none
  | some s => w.turn i 0 (.snapshot (some s) s.lastApplied)

def notify (w : System n m) (i : Fin (n + 1)) : Option (System n m) :=
  match w.sending i with
  | none => none
  | some (ch, op) =>
    some { w with
      servers := Function.update w.servers i ((w.servers i).send ch op)
      sending := Function.update w.sending i none
      clock := w.clock + 1 }

def wake (w : System n m) (k : Nat) : Option (System n m) :=
  match w.waiting[k]? with
  | none => none
  | some h =>
    match (w.servers h.rpc.server).receive h.ch with
    | none => none
    | some (applied, srv) =>
      some { w with
        servers := Function.update w.servers h.rpc.server srv
        waiting := w.waiting.eraseIdx k
        replies := w.replies ++ [{ rpc := h.rpc, reply := h.rpc.request.reply applied }]
        clock := w.clock + 1 }

def timeout (w : System n m) (k : Nat) : Option (System n m) :=
  match w.waiting[k]? with
  | none => none
  | some h =>
    some { w with
      servers := Function.update w.servers h.rpc.server
        ((w.servers h.rpc.server).forget h.index)
      waiting := w.waiting.eraseIdx k
      replies := w.replies ++ [{ rpc := h.rpc, reply := { err := .errWrongLeader, value := [] } }]
      clock := w.clock + 1 }

/-- The operation in progress of clerk `i` returns to its caller. -/
def finish (w : System n m) (i : Fin m) (call : Call) (value : Str) : System n m :=
  { w with
    clerks := Function.update w.clerks i { w.clerks i with calling := none }
    ops := returned w.ops call.op { value := value } w.clock
    clock := w.clock + 1 }

/-- A reply to a call that the clerk has given up is not read. -/
def receive (w : System n m) (k : Nat) : Option (System n m) :=
  match w.replies[k]? with
  | none => none
  | some r =>
    match (w.clerks r.rpc.src).calling with
    | none => none
    | some call =>
      if (w.clerks r.rpc.src).number = r.rpc.number then
        match call.request.result r.reply with
        | some value =>
          some ({ w with replies := w.replies.eraseIdx k }.finish r.rpc.src call value)
        | none => { w with replies := w.replies.eraseIdx k }.retry r.rpc.src
      else none

/-- A server crashes, with its handlers, and starts again. -/
def restart (w : System n m) (i : Fin (n + 1)) (persisted : Option Nat) : System n m :=
  { w with
    servers := Function.update w.servers i
      (.startKVServer (w.servers i).maxraftstate (persisted.bind fun k => w.snapshots[k]?))
    sending := Function.update w.sending i none
    waiting := w.waiting.filter fun h => h.rpc.server ≠ i
    clock := w.clock + 1 }

def step (w : System n m) : Action n m → Option (System n m)
  | .invoke i opType key value => w.invoke i opType key value
  | .retry i => w.retry i
  | .deliver k start => w.deliver k start
  | .commit k => w.commit k
  | .apply i size => w.apply i size
  | .install i k => w.install i k
  | .notify i => w.notify i
  | .wake k => w.wake k
  | .timeout k => w.timeout k
  | .receive k => w.receive k
  | .restart i persisted => some (w.restart i persisted)

/-- A condition on the map and the key of every `Get` that a server applies. -/
def Reads (clean : (Str → Option Str) → Str → Prop) (w : System n m) : Action n m → Prop
  | .apply i _ => ∀ op ∈ w.log[(w.servers i).lastApplied]?, op.opType = .get →
      clean (w.servers i).kv op.key
  | _ => True

instance (clean : (Str → Option Str) → Str → Prop) [∀ kv key, Decidable (clean kv key)]
    (w : System n m) : (act : Action n m) → Decidable (Reads clean w act)
  | .apply i _ => inferInstanceAs (Decidable (∀ op ∈ w.log[(w.servers i).lastApplied]?,
      op.opType = .get → clean (w.servers i).kv op.key))
  | .invoke .. => isTrue trivial
  | .retry .. => isTrue trivial
  | .deliver .. => isTrue trivial
  | .commit .. => isTrue trivial
  | .install .. => isTrue trivial
  | .notify .. => isTrue trivial
  | .wake .. => isTrue trivial
  | .timeout .. => isTrue trivial
  | .receive .. => isTrue trivial
  | .restart .. => isTrue trivial

end System
end KvRaft
end Labs
