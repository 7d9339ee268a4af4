import Labs.KvRaft.System
import Labs.Raft.Host

/-!
# The key/value service on top of Raft

The whole program: the clerks, the servers of `System` and under each of them a peer of a
Raft cluster.  A handler calls `Start` on its own peer, the loop takes what that peer has
put on the apply channel and gives it snapshots, and a server restarts from what its peer
has on disk.  Nothing is left open but the network, the time and the size of Raft's state.

The `log` of the `System` in here is not used: what is agreed on is up to the cluster.
-/

namespace Labs
namespace KvRaft

open Models History
open Raft (snapshotBytes snapshotNumber)

/-- `taken` counts the messages that the loop of a server has taken from its channel. -/
structure Stack (n m : Nat) where
  raft : Raft.Cluster (n + 1) Op
  kv : System n m
  taken : Fin (n + 1) → Nat

/-- `service` is a step of a clerk, of a handler that waits or of a loop that notifies;
`raft` is a step of the peers and of the network between them. -/
inductive StackAction (n m : Nat) where
  | service (act : Action n m)
  | handle (k : Nat)
  | turn (i : Fin (n + 1)) (raftStateSize : Int)
  | crash (i : Fin (n + 1))
  | raft (act : Raft.Action (n + 1) Op)

/-- The steps in which Raft has no part. -/
def Action.Internal {n m : Nat} : Action n m → Prop
  | .invoke .. | .retry .. | .notify .. | .wake .. | .timeout .. | .receive .. => True
  | .deliver .. | .commit .. | .apply .. | .install .. | .restart .. => False

instance {n m : Nat} : (act : Action n m) → Decidable act.Internal
  | .invoke .. | .retry .. | .notify .. | .wake .. | .timeout .. | .receive .. => isTrue trivial
  | .deliver .. | .commit .. | .apply .. | .install .. | .restart .. => isFalse id

namespace Stack

variable {n m : Nat}

def init (maxraftstate : Int) (id : Fin m → Int64) : Stack n m where
  raft := .init
  kv := .init maxraftstate id
  taken := fun _ => 0

/-- What the peer under server `i` has put on the channel since it was made. -/
def channel (s : Stack n m) (i : Fin (n + 1)) : List (Raft.ApplyMsg Op) :=
  s.raft.applyCh i (s.raft.incarnation i)

/-- The message as `update` reads it.  It skips one with neither flag, as it does a snapshot
it has passed, and its type assertion panics on a command that is nil. -/
def message (s : Stack n m) (msg : Raft.ApplyMsg Op) : Option ApplyMsg :=
  if msg.snapshotValid then
    some (.snapshot ((snapshotNumber msg.snapshot).bind fun k => s.kv.snapshots[k]?)
      msg.snapshotIndex.toNat)
  else if msg.commandValid then
    msg.command.map fun op => .command op msg.commandIndex.toNat
  else some (.snapshot none 0)

/-- A handler calls `Start` under the mutex of its server. -/
def handle (s : Stack n m) (k : Nat) : Option (Stack n m) := do
  let rpc ← s.kv.requests[k]?
  let command := some rpc.request.cmd
  let (_, index, _, isLeader) := (s.raft.peers rpc.server).start command
  let raft ← s.raft.step (.start rpc.server command)
  let kv ← s.kv.deliver k (if isLeader then some index.toNat else none)
  some { s with raft := raft, kv := kv }

/-- The snapshot that a turn of the loop has made, if any, goes to the peer. -/
def compact (s : Stack n m) (i : Fin (n + 1)) : Option Snapshot → Option (Raft.Cluster (n + 1) Op)
  | none => some s.raft
  | some snap => s.raft.step (.snapshot i snap.lastApplied (snapshotBytes s.kv.snapshots.length))

/-- A turn of the loop of server `i`, all of it under the mutex. -/
def turn (s : Stack n m) (i : Fin (n + 1)) (raftStateSize : Int) : Option (Stack n m) := do
  let msg ← (s.channel i)[s.taken i]?
  let msg ← s.message msg
  let kv ← s.kv.turn i raftStateSize msg
  let raft ← s.compact i ((s.kv.servers i).update raftStateSize msg).snapshot
  some { raft := raft, kv := kv, taken := Function.update s.taken i (s.taken i + 1) }

/-- A server crashes with its peer; both start again from the disk. -/
def crash (s : Stack n m) (i : Fin (n + 1)) : Stack n m where
  raft := s.raft.crash i
  kv := s.kv.restart i (snapshotNumber (s.raft.peers i).persister.readSnapshot)
  taken := Function.update s.taken i 0

/-- The steps that the cluster takes by itself.  The channel has no buffer: a message is
sent when the loop is there to take it. -/
def Offers (s : Stack n m) : Raft.Action (n + 1) Op → Prop
  | .start .. | .snapshot .. | .crash .. => False
  | .send i => s.taken i = (s.channel i).length ∧ s.kv.sending i = none
  | .tick .. | .sendHeartbeat .. | .worker .. | .deliver .. | .receive .. | .callFails ..
  | .voteFails .. | .apply .. => True

instance (s : Stack n m) : (act : Raft.Action (n + 1) Op) → Decidable (s.Offers act)
  | .start .. | .snapshot .. | .crash .. => isFalse id
  | .send i => inferInstanceAs (Decidable (s.taken i = (s.channel i).length ∧
      s.kv.sending i = none))
  | .tick .. | .sendHeartbeat .. | .worker .. | .deliver .. | .receive .. | .callFails ..
  | .voteFails .. | .apply .. => isTrue trivial

def step (s : Stack n m) : StackAction n m → Option (Stack n m)
  | .service act =>
    if act.Internal then (s.kv.step act).map fun kv => { s with kv := kv } else none
  | .handle k => s.handle k
  | .turn i size => s.turn i size
  | .crash i => some (s.crash i)
  | .raft act =>
    if s.Offers act then (s.raft.step act).map fun raft => { s with raft := raft } else none

/-- No step of the cluster is one of those that the refinement of Raft excludes. -/
def Careful (s : Stack n m) : StackAction n m → Prop
  | .raft act => s.raft.VotesOnce act ∧ s.raft.SkipsPlaceholder act ∧ s.raft.InstallsAhead act
  | _ => True

instance (s : Stack n m) : (act : StackAction n m) → Decidable (s.Careful act)
  | .raft act => inferInstanceAs (Decidable (s.raft.VotesOnce act ∧
      s.raft.SkipsPlaceholder act ∧ s.raft.InstallsAhead act))
  | .service .. | .handle .. | .turn .. | .crash .. => isTrue trivial

/-- A condition on the map and the key of every `Get` that a server applies. -/
def Reads (clean : (Str → Option Str) → Str → Prop) (s : Stack n m) : StackAction n m → Prop
  | .turn i _ => ∀ msg ∈ (s.channel i)[s.taken i]?, ∀ op ∈ msg.command, op.opType = .get →
      clean (s.kv.servers i).kv op.key
  | _ => True

instance (clean : (Str → Option Str) → Str → Prop) [∀ kv key, Decidable (clean kv key)]
    (s : Stack n m) : (act : StackAction n m) → Decidable (Reads clean s act)
  | .turn i _ => inferInstanceAs (Decidable (∀ msg ∈ (s.channel i)[s.taken i]?,
      ∀ op ∈ msg.command, op.opType = .get → clean (s.kv.servers i).kv op.key))
  | .service .. | .handle .. | .crash .. | .raft .. => isTrue trivial

/-! ## The cases of a step -/

inductive Trans (s : Stack n m) : StackAction n m → Stack n m → Prop
  | service (act : Action n m) (kv : System n m) : act.Internal → s.kv.step act = some kv →
      Trans s (.service act) { s with kv := kv }
  | handle (k : Nat) (rpc : Rpc n m) (raft : Raft.Cluster (n + 1) Op) (kv : System n m)
      (start : Option Nat) :
      s.kv.requests[k]? = some rpc →
      s.raft.step (.start rpc.server (some rpc.request.cmd)) = some raft →
      s.kv.deliver k start = some kv →
      ((s.raft.peers rpc.server).status = .leader →
        start = some ((s.raft.peers rpc.server).start (some rpc.request.cmd)).2.1.toNat) →
      Trans s (.handle k) { s with raft := raft, kv := kv }
  | turn (i : Fin (n + 1)) (size : Int) (msg : Raft.ApplyMsg Op) (read : ApplyMsg)
      (kv : System n m) (raft : Raft.Cluster (n + 1) Op) :
      (s.channel i)[s.taken i]? = some msg → s.message msg = some read →
      s.kv.turn i size read = some kv →
      s.compact i ((s.kv.servers i).update size read).snapshot = some raft →
      Trans s (.turn i size)
        { raft := raft, kv := kv, taken := Function.update s.taken i (s.taken i + 1) }
  | crash (i : Fin (n + 1)) : Trans s (.crash i) (s.crash i)
  | raft (act : Raft.Action (n + 1) Op) (raft : Raft.Cluster (n + 1) Op) :
      s.Offers act → s.raft.step act = some raft → Trans s (.raft act) { s with raft := raft }

theorem trans_of_step {s s' : Stack n m} {act : StackAction n m} (h : s.step act = some s') :
    Trans s act s' := by
  cases act with
  | service act =>
      simp only [step] at h
      split at h
      · next hact =>
          obtain ⟨kv, hkv, rfl⟩ := Option.map_eq_some_iff.mp h
          exact .service act kv hact hkv
      · cases h
  | handle k =>
      simp only [step, handle] at h
      obtain ⟨rpc, hrpc, h⟩ := Option.bind_eq_some_iff.mp h
      obtain ⟨raft, hraft, h⟩ := Option.bind_eq_some_iff.mp h
      obtain ⟨kv, hkv, h⟩ := Option.bind_eq_some_iff.mp h
      cases h
      refine .handle k rpc raft kv _ hrpc hraft hkv fun hlead => ?_
      simp [Raft.Peer.start, hlead]
  | turn i size =>
      simp only [step, turn] at h
      obtain ⟨msg, hmsg, h⟩ := Option.bind_eq_some_iff.mp h
      obtain ⟨read, hread, h⟩ := Option.bind_eq_some_iff.mp h
      obtain ⟨kv, hkv, h⟩ := Option.bind_eq_some_iff.mp h
      obtain ⟨raft, hraft, h⟩ := Option.bind_eq_some_iff.mp h
      cases h
      exact .turn i size msg read kv raft hmsg hread hkv hraft
  | crash i =>
      cases h
      exact .crash i
  | raft act =>
      simp only [step] at h
      split at h
      · next hact =>
          obtain ⟨raft, hraft, rfl⟩ := Option.map_eq_some_iff.mp h
          exact .raft act raft hact hraft
      · cases h

end Stack
end KvRaft
end Labs
