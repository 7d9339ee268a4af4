import Labs.KvRaft.Log
import Labs.Run

/-!
# Servers fed from one log

Any number of servers are handed one log by Raft.  After it has started, or has loaded a
snapshot, a server is given the next command, or a snapshot that some server took.  It
restarts from nothing or from a snapshot that was taken, and its handlers come and go in
between.  However a server has got to an index, it holds what replaying the log up to that
index gives, the table of duplicates included, and so does every snapshot.
-/

namespace Labs
namespace KvRaft

open Models

/-- `taken` are the arguments of the calls of `rf.Snapshot`, the second one decoded. -/
structure Delivery (n : Nat) where
  servers : Fin n → KVServer
  taken : List (Nat × Snapshot)

namespace Delivery

/-- `command` and `snapshot` are messages on the apply channel, `notify` is the send after
one, and `register`, `wake` and `timeout` are the sections of a handler. -/
inductive Action (n : Nat) where
  | command (i : Fin n) (raftStateSize : Int)
  | snapshot (i : Fin n) (k : Nat) (raftStateSize : Int)
  | notify (i : Fin n) (ch : Nat) (op : Op)
  | register (i : Fin n) (index : Nat)
  | wake (i : Fin n) (ch : Nat)
  | timeout (i : Fin n) (index : Nat)
  | restart (i : Fin n) (maxraftstate : Int) (persisted : Option Nat)

variable {n : Nat}

def init (maxraftstate : Int) : Delivery n where
  servers := fun _ => .startKVServer maxraftstate none
  taken := []

def setServer (w : Delivery n) (i : Fin n) (srv : KVServer) : Delivery n :=
  { w with servers := Function.update w.servers i srv }

/-- Server `i` after a turn of `update`; `snapshot` passes `lastApplied` to Raft. -/
def updated (w : Delivery n) (i : Fin n) (u : KVServer.Updated) : Delivery n :=
  { w.setServer i u.srv with
    taken := w.taken ++ (u.snapshot.map fun s => (u.srv.lastApplied, s)).toList }

def step (log : List Op) (w : Delivery n) : Action n → Option (Delivery n)
  | .command i size =>
    let srv := w.servers i
    log[srv.lastApplied]?.map fun op =>
      w.updated i (srv.update size (.command op (srv.lastApplied + 1)))
  | .snapshot i k size =>
    w.taken[k]?.map fun (index, s) =>
      w.updated i ((w.servers i).update size (.snapshot (some s) index))
  | .notify i ch op => some (w.setServer i ((w.servers i).send ch op))
  | .register i index => some (w.setServer i ((w.servers i).getNotifyCh index).1)
  | .wake i ch => ((w.servers i).receive ch).map fun (_, srv) => w.setServer i srv
  | .timeout i index => some (w.setServer i ((w.servers i).forget index))
  | .restart i maxraftstate none =>
    some (w.setServer i (.startKVServer maxraftstate none))
  | .restart i maxraftstate (some k) =>
    w.taken[k]?.map fun (_, s) => w.setServer i (.startKVServer maxraftstate (some s))

/-- Every server and every snapshot holds the state of a beginning of the log. -/
structure Inv (log : List Op) (w : Delivery n) : Prop where
  servers : ∀ i, StateOf log (w.servers i).snapshot
  taken : ∀ index s, (index, s) ∈ w.taken → s.lastApplied = index ∧ StateOf log s

variable {log : List Op} {w w' : Delivery n}

theorem inv_init (log : List Op) (maxraftstate : Int) :
    Inv log (init maxraftstate : Delivery n) where
  servers := fun _ => .start log maxraftstate (by simp)
  taken := by simp [init]

theorem Inv.setServer (h : Inv log w) {i : Fin n} {srv : KVServer}
    (hsrv : StateOf log srv.snapshot) : Inv log (w.setServer i srv) where
  servers := (Function.forall_update_iff w.servers
    (p := fun _ srv => StateOf log srv.snapshot)).mpr ⟨hsrv, fun j _ => h.servers j⟩
  taken := h.taken

/-- A section that only touches the channels. -/
theorem Inv.handler (h : Inv log w) {i : Fin n} {srv : KVServer}
    (hsame : srv.snapshot = (w.servers i).snapshot) : Inv log (w.setServer i srv) :=
  h.setServer (hsame ▸ h.servers i)

theorem Inv.updated (h : Inv log w) {i : Fin n} {u : KVServer.Updated}
    (hsrv : StateOf log u.srv.snapshot)
    (hsnap : ∀ s ∈ u.snapshot, s.lastApplied = u.srv.lastApplied ∧ StateOf log s) :
    Inv log (w.updated i u) where
  servers := (h.setServer hsrv).servers
  taken := by
    intro index s hs
    rcases List.mem_append.mp hs with hold | hnew
    · exact h.taken index s hold
    · obtain ⟨s', hs', heq⟩ := Option.map_eq_some_iff.mp (Option.mem_toList.mp hnew)
      cases heq
      exact hsnap s hs'

theorem getNotifyCh_snapshot (srv : KVServer) (index : Nat) :
    (srv.getNotifyCh index).1.snapshot = srv.snapshot := by
  unfold KVServer.getNotifyCh
  split <;> rfl

theorem receive_snapshot {srv srv' : KVServer} {ch : Nat} {op : Op}
    (h : srv.receive ch = some (op, srv')) : srv'.snapshot = srv.snapshot := by
  unfold KVServer.receive at h
  split at h
  · cases h
    rfl
  · cases h

/-- The snapshot that a turn gives to Raft has the index of the command. -/
theorem update_snapshot_lastApplied {srv : KVServer} {size : Int} {op : Op} {index : Nat}
    {s : Snapshot} (h : s ∈ (srv.update size (.command op index)).snapshot) :
    s.lastApplied = (srv.update size (.command op index)).srv.lastApplied := by
  simp only [KVServer.update, Option.mem_def] at h
  split at h
  · cases h
    rfl
  · cases h

theorem Inv.step {act : Action n} (h : Inv log w) (hs : w.step log act = some w') :
    Inv log w' := by
  cases act with
  | command i size =>
      obtain ⟨op, hop, rfl⟩ := Option.map_eq_some_iff.mp hs
      obtain ⟨hsrv, hsnap⟩ := (h.servers i).command hop size
      exact h.updated hsrv fun s hs => ⟨update_snapshot_lastApplied hs, hsnap s hs⟩
  | snapshot i k size =>
      obtain ⟨⟨index, s⟩, hk, rfl⟩ := Option.map_eq_some_iff.mp hs
      obtain ⟨rfl, hstate⟩ := h.taken index s (List.mem_of_getElem? hk)
      refine h.updated ((h.servers i).install hstate size) fun s' hs' => ?_
      simp only [KVServer.update, Option.mem_def] at hs'
      split at hs' <;> cases hs'
  | notify i ch op =>
      cases hs
      exact h.handler rfl
  | register i index =>
      cases hs
      exact h.handler (getNotifyCh_snapshot _ _)
  | wake i ch =>
      obtain ⟨⟨op, srv⟩, hr, rfl⟩ := Option.map_eq_some_iff.mp hs
      exact h.handler (receive_snapshot hr)
  | timeout i index =>
      cases hs
      exact h.handler rfl
  | restart i maxraftstate persisted =>
      cases persisted with
      | none =>
          cases hs
          exact h.setServer (.start log maxraftstate (by simp))
      | some k =>
          obtain ⟨⟨index, s⟩, hk, rfl⟩ := Option.map_eq_some_iff.mp hs
          have hstate := (h.taken index s (List.mem_of_getElem? hk)).2
          refine h.setServer (.start log maxraftstate fun s' hs' => ?_)
          cases hs'
          exact hstate

/-- A server that has applied `n` entries holds the replay of the first `n`, and a snapshot
passed to Raft with an index is the replay up to that index. -/
theorem state_eq_replay {maxraftstate : Int}
    (h : Run.Path (step log) Run.always (init maxraftstate) w) :
    (∀ i, (w.servers i).lastApplied ≤ log.length ∧
      ((w.servers i).kv, (w.servers i).requestCache) =
        replay (log.take (w.servers i).lastApplied)) ∧
    ∀ index s, (index, s) ∈ w.taken → s.lastApplied = index ∧ index ≤ log.length ∧
      (s.kv, s.requestCache) = replay (log.take index) := by
  have hinv := h.invariant (fun _ _ _ hi _ hs => Inv.step hi hs) (inv_init log maxraftstate)
  constructor
  · exact fun i => ⟨(hinv.servers i).le, (hinv.servers i).store⟩
  · intro index s hs
    obtain ⟨rfl, hstate⟩ := hinv.taken index s hs
    exact ⟨rfl, hstate.le, hstate.store⟩

/-- A client appends `a`, starts the append twice, and appends `b`. -/
def appends : List Op :=
  [{ opType := .append, key := [120], value := [97], seq := 1, clientId := 5 },
   { opType := .append, key := [120], value := [97], seq := 1, clientId := 5 },
   { opType := .append, key := [120], value := [98], seq := 2, clientId := 5 }]

/-- Server 0 takes a snapshot after the first entry.  Server 1 loads it, applies the copy,
restarts from it and applies the rest. -/
def loads : List (Action 2) :=
  [.command 0 100, .snapshot 1 0 100, .command 1 0, .restart 1 50 (some 0), .command 1 0,
   .register 1 3, .command 1 60]

theorem state_eq_replay_loads : ∃ w : Delivery 2,
    Run.Path (step appends) Run.always (init 50) w ∧ (w.servers 1).lastApplied = 3 ∧
    (w.servers 1).kv [120] = some [97, 98] ∧ w.taken.map Prod.fst = [1, 3] ∧
    ((w.servers 1).kv, (w.servers 1).requestCache) = replay (appends.take 3) := by
  have hrun : (Run.exec (step appends) Run.always (init 50 : Delivery 2) loads).map
      (fun w => ((w.servers 1).lastApplied, (w.servers 1).kv [120], w.taken.map Prod.fst)) =
      some (3, some [97, 98], [1, 3]) := by
    decide +kernel
  obtain ⟨w, hpath, hend⟩ := Run.path_of_exec_map loads _ hrun
  simp only [Prod.mk.injEq] at hend
  obtain ⟨hlast, hkv, htaken⟩ := hend
  have hstate := ((state_eq_replay hpath).1 1).2
  rw [hlast] at hstate
  exact ⟨w, hpath, hlast, hkv, htaken, hstate⟩

end Delivery
end KvRaft
end Labs
