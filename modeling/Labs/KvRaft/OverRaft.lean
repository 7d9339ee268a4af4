import Labs.KvRaft.Stack
import Labs.KvRaft.Refine
import Labs.Raft.Provenance
import Labs.Raft.Started
import Labs.Retime

/-!
# The service over Raft refines the service over an agreed log

`System` assumes of Raft one agreed log of commands that were started, a server that is
handed the entry after the last one it applied or a snapshot that some server has made, and
a disk with such a snapshot or nothing.  Here that is proved of the cluster: every run of
the `Stack` is matched by a run of `System`, whose log grows when a server applies an entry
that no server has applied.  The two records of the clerks' calls differ in their times
alone.
-/

namespace Labs
namespace KvRaft

open Models History
open Raft (snapshotBytes snapshotNumber)

/-! ## The servers and the clerks over another log -/

namespace System

variable {n m : Nat} {w w' : System n m} {log : List Op} {clock : Nat}
  {ops : List (Operation KvInput KvOutput)}

/-- The same servers, clerks and messages with another log and another record. -/
def withLog (w : System n m) (log : List Op) (ops : List (Operation KvInput KvOutput))
    (clock : Nat) : System n m :=
  { w with log := log, ops := ops, clock := clock }

theorem withLog_turn {i : Fin (n + 1)} {size : Int} {msg : ApplyMsg}
    (hs : w.turn i size msg = some w') :
    (w.withLog log ops clock).turn i size msg = some (w'.withLog log ops (clock + 1)) := by
  unfold turn at hs ⊢
  dsimp only [withLog] at hs ⊢
  cases hidle : w.sending i with
  | some ch =>
      rw [hidle] at hs
      cases hs
  | none =>
      rw [hidle] at hs
      cases hs
      rfl

theorem withLog_deliver {k : Nat} {start : Option Nat} (hs : w.deliver k start = some w') :
    (w.withLog log ops clock).deliver k start = some (w'.withLog log ops (clock + 1)) := by
  unfold deliver at hs ⊢
  dsimp only [withLog] at hs ⊢
  cases hk : w.requests[k]? with
  | none =>
      rw [hk] at hs
      cases hs
  | some rpc =>
      rw [hk] at hs
      cases start with
      | none =>
          cases hs
          rfl
      | some index =>
          cases hs
          rfl

theorem withLog_retry (log : List Op) (ops : List (Operation KvInput KvOutput)) (clock : Nat)
    {i : Fin m} (hs : w.retry i = some w') :
    (w.withLog log ops clock).retry i = some (w'.withLog log ops (clock + 1)) ∧
      w'.ops = w.ops ∧ w'.clock = w.clock + 1 := by
  unfold retry at hs ⊢
  dsimp only [withLog] at hs ⊢
  cases hcall : (w.clerks i).calling with
  | none =>
      rw [hcall] at hs
      cases hs
  | some call =>
      rw [hcall] at hs
      cases hs
      exact ⟨rfl, rfl, rfl⟩

/-- A step in which Raft has no part does the same under another clock. -/
theorem withLog_internal (log : List Op) {act : Action n m} (hact : act.Internal)
    (hs : w.step act = some w') (h : Retimed w.clock w.ops clock ops) :
    ∃ ops', (w.withLog log ops clock).step act = some (w'.withLog log ops' (clock + 1)) ∧
      Retimed w'.clock w'.ops (clock + 1) ops' := by
  have htick : Retimed (w.clock + 1) w.ops (clock + 1) ops :=
    h.tick (Nat.le_succ _) (Nat.le_succ _)
  cases act with
  | invoke i opType key value =>
      simp only [step, invoke] at hs ⊢
      dsimp only [withLog] at hs ⊢
      cases hcall : (w.clerks i).calling with
      | some call =>
          rw [hcall] at hs
          cases hs
      | none =>
          rw [hcall] at hs
          cases hs
          rw [← h.length]
          exact ⟨_, rfl, h.called _⟩
  | retry i =>
      obtain ⟨hover, hops, hclock⟩ := withLog_retry log ops clock hs
      rw [hops, hclock]
      exact ⟨ops, hover, htick⟩
  | notify i =>
      simp only [step, notify] at hs ⊢
      dsimp only [withLog] at hs ⊢
      cases hsend : w.sending i with
      | none =>
          rw [hsend] at hs
          cases hs
      | some ch =>
          rw [hsend] at hs
          cases hs
          exact ⟨ops, rfl, htick⟩
  | wake k =>
      simp only [step, wake] at hs ⊢
      dsimp only [withLog] at hs ⊢
      cases hk : w.waiting[k]? with
      | none =>
          rw [hk] at hs
          cases hs
      | some hd =>
          rw [hk] at hs
          dsimp only at hs ⊢
          cases hr : (w.servers hd.rpc.server).receive hd.ch with
          | none =>
              rw [hr] at hs
              cases hs
          | some applied =>
              rw [hr] at hs
              cases hs
              exact ⟨ops, rfl, htick⟩
  | timeout k =>
      simp only [step, timeout] at hs ⊢
      dsimp only [withLog] at hs ⊢
      cases hk : w.waiting[k]? with
      | none =>
          rw [hk] at hs
          cases hs
      | some hd =>
          rw [hk] at hs
          cases hs
          exact ⟨ops, rfl, htick⟩
  | receive k =>
      have hclerks : (w.withLog log ops clock).clerks = w.clerks := rfl
      have hreplies : (w.withLog log ops clock).replies = w.replies := rfl
      simp only [step, receive, hclerks, hreplies] at hs ⊢
      cases hk : w.replies[k]? with
      | none =>
          rw [hk] at hs
          cases hs
      | some r =>
          rw [hk] at hs
          dsimp only at hs ⊢
          cases hcall : (w.clerks r.rpc.src).calling with
          | none =>
              rw [hcall] at hs
              cases hs
          | some call =>
              rw [hcall] at hs
              dsimp only at hs ⊢
              split at hs
              · next hnum =>
                  rw [if_pos hnum]
                  cases hres : call.request.result r.reply with
                  | some value =>
                      rw [hres] at hs
                      cases hs
                      exact ⟨_, rfl, h.returned call.op _⟩
                  | none =>
                      rw [hres] at hs
                      obtain ⟨hover, hops, hclock⟩ :=
                        withLog_retry log ops clock hs
                      rw [hops, hclock]
                      exact ⟨ops, hover, htick⟩
              · cases hs
  | deliver k start => exact hact.elim
  | commit k => exact hact.elim
  | apply i size => exact hact.elim
  | install i k => exact hact.elim
  | restart i persisted => exact hact.elim

theorem apply_eq {i : Fin (n + 1)} {size : Int} {op : Op}
    (h : w.log[(w.servers i).lastApplied]? = some op) :
    w.step (.apply i size) = w.turn i size (.command op ((w.servers i).lastApplied + 1)) := by
  rw [step, apply, h]

/-- A snapshot is installed whatever the size of Raft's state. -/
theorem install_eq {i : Fin (n + 1)} {k : Nat} {snap : Snapshot} {size : Int}
    (h : w.snapshots[k]? = some snap) :
    w.step (.install i k) = w.turn i size (.snapshot (some snap) snap.lastApplied) := by
  rw [step, install, h]
  rfl

theorem reads_internal {clean : (Str → Option Str) → Str → Prop} {act : Action n m}
    (hact : act.Internal) : Reads clean w act := by
  cases act with
  | apply i size => exact hact.elim
  | _ => trivial

/-- What the steps in which Raft has no part leave as it is. -/
structure Keeps (w w' : System n m) : Prop where
  started : w'.started = w.started
  snapshots : w'.snapshots = w.snapshots
  server : ∀ i, (w'.servers i).lastApplied = (w.servers i).lastApplied ∧
    (w'.servers i).maxraftstate = (w.servers i).maxraftstate

/-- One server changes, and not in what it has applied. -/
theorem server_update {i : Fin (n + 1)} {srv : KVServer}
    (happlied : srv.lastApplied = (w.servers i).lastApplied)
    (hmax : srv.maxraftstate = (w.servers i).maxraftstate) (j : Fin (n + 1)) :
    (Function.update w.servers i srv j).lastApplied = (w.servers j).lastApplied ∧
      (Function.update w.servers i srv j).maxraftstate = (w.servers j).maxraftstate := by
  rw [Function.update_apply]
  split
  · next hj =>
      rw [hj]
      exact ⟨happlied, hmax⟩
  · exact ⟨rfl, rfl⟩

theorem keeps_retry {i : Fin m} (hs : w.retry i = some w') : Keeps w w' := by
  unfold retry at hs
  split at hs
  · cases hs
  · cases hs
    exact ⟨rfl, rfl, fun _ => ⟨rfl, rfl⟩⟩

theorem keeps_internal {act : Action n m} (hact : act.Internal) (hs : w.step act = some w') :
    Keeps w w' := by
  cases act with
  | invoke i opType key value =>
      simp only [step, invoke] at hs
      split at hs
      · cases hs
      · cases hs
        exact ⟨rfl, rfl, fun _ => ⟨rfl, rfl⟩⟩
  | retry i => exact keeps_retry hs
  | notify i =>
      simp only [step, notify] at hs
      split at hs
      · cases hs
      · cases hs
        exact ⟨rfl, rfl, server_update rfl rfl⟩
  | wake k =>
      simp only [step, wake] at hs
      split at hs
      · cases hs
      · next hd hk =>
          split at hs
          · cases hs
          · next applied srv hr =>
              cases hs
              unfold KVServer.receive at hr
              split at hr
              · cases hr
                exact ⟨rfl, rfl, server_update rfl rfl⟩
              · cases hr
  | timeout k =>
      simp only [step, timeout] at hs
      split at hs
      · cases hs
      · cases hs
        exact ⟨rfl, rfl, server_update rfl rfl⟩
  | receive k =>
      simp only [step, receive] at hs
      split at hs
      · cases hs
      · split at hs
        · cases hs
        · split at hs
          · split at hs
            · cases hs
              exact ⟨rfl, rfl, fun _ => ⟨rfl, rfl⟩⟩
            · have hkeep := keeps_retry hs
              exact ⟨hkeep.started, hkeep.snapshots, hkeep.server⟩
          · cases hs
  | deliver k start => exact hact.elim
  | commit k => exact hact.elim
  | apply i size => exact hact.elim
  | install i k => exact hact.elim
  | restart i persisted => exact hact.elim

/-- A handler records the command that it has started. -/
theorem deliver_frame {k : Nat} {start : Option Nat} {rpc : Rpc n m}
    (hk : w.requests[k]? = some rpc) (hs : w.deliver k start = some w') :
    w'.started = w.started ++ (start.map fun index => (index, rpc.request.cmd)).toList ∧
      w'.snapshots = w.snapshots ∧ w'.ops = w.ops ∧ w'.clock = w.clock + 1 ∧
      ∀ i, (w'.servers i).lastApplied = (w.servers i).lastApplied ∧
        (w'.servers i).maxraftstate = (w.servers i).maxraftstate := by
  unfold deliver at hs
  rw [hk] at hs
  cases start with
  | none =>
      cases hs
      exact ⟨by simp, rfl, rfl, rfl, fun _ => ⟨rfl, rfl⟩⟩
  | some index =>
      cases hs
      refine ⟨rfl, rfl, rfl, rfl, server_update ?_ ?_⟩
      · split <;> rfl
      · split <;> rfl

/-- What a turn of the loop changes. -/
theorem turn_frame {i : Fin (n + 1)} {size : Int} {msg : ApplyMsg}
    (hs : w.turn i size msg = some w') :
    w'.started = w.started ∧
      w'.snapshots = w.snapshots ++ ((w.servers i).update size msg).snapshot.toList ∧
      w'.servers = Function.update w.servers i ((w.servers i).update size msg).srv ∧
      w'.ops = w.ops ∧ w'.clock = w.clock + 1 := by
  unfold turn at hs
  split at hs
  · cases hs
  · cases hs
    exact ⟨rfl, rfl, rfl, rfl, rfl⟩

end System

/-! ## What the cluster guarantees to the service -/

/-- The command is one that a handler has started with this index. -/
def Started (started : List (Nat × Op)) (index : Int) (command : Option Op) : Prop :=
  ∃ op, command = some op ∧ (index.toNat, op) ∈ started

namespace Stack

variable {n m : Nat} {s s' : Stack n m} {a : Raft.AbsState (n + 1) Op}

/-- The servers as the cluster sees them. -/
def host (s : Stack n m) : Raft.Host (n + 1) Op where
  raft := s.raft
  taken := s.taken
  applied := fun i => (s.kv.servers i).lastApplied
  snapshots := s.kv.snapshots.map Snapshot.lastApplied

theorem kept {index : Int} {data : Raft.Bytes} (h : Raft.Encoded s.host.snapshots index data) :
    ∃ (k : Nat) (snap : Snapshot), s.kv.snapshots[k]? = some snap ∧ data = snapshotBytes k ∧
      index = snap.lastApplied := by
  obtain ⟨k, last, hk, rfl, hdata⟩ := h
  have hmap : (s.kv.snapshots.map Snapshot.lastApplied)[k]? = some last := hk
  rw [List.getElem?_map] at hmap
  obtain ⟨snap, hsnap, rfl⟩ := Option.map_eq_some_iff.mp hmap
  exact ⟨k, snap, hsnap, hdata, rfl⟩

/-- The cluster replicates a log of commands that handlers have started. -/
structure Backed (s : Stack n m) (a : Raft.AbsState (n + 1) Op) : Prop where
  host : s.host.Backed a
  started : s.raft.Holds (Started s.kv.started)

namespace Backed

theorem delivers (h : Backed s a) : s.raft.Delivers a := h.host.delivers

/-- The service moves and the cluster stands still. -/
theorem service (h : Backed s a) {kv : System n m} {taken : Fin (n + 1) → Nat}
    (hstarted : s.kv.started <+: kv.started)
    (hhost : ({ s with kv := kv, taken := taken } : Stack n m).host.Backed a) :
    Backed { s with kv := kv, taken := taken } a where
  host := hhost
  started := h.started.mono fun _ _ ⟨op, hop, hmem⟩ => ⟨op, hop, hstarted.subset hmem⟩

/-- The cluster moves, on its own or because the service calls it. -/
theorem cluster (h : Backed s a) {act : Raft.Action (n + 1) Op} {raft : Raft.Cluster (n + 1) Op}
    (hok : s.raft.Ordered act) (hs : s.raft.step act = some raft) (hcrash : ∀ i, act ≠ .crash i)
    (hgiven : ∀ i index data, act = .snapshot i index data →
      Raft.Encoded s.host.snapshots index data)
    (hnew : ∀ i command, act = .start i command → (s.raft.peers i).status = .leader →
      Started s.kv.started ((s.raft.peers i).start command).2.1 command) :
    ∃ a', a.Ext a' ∧ Backed { s with raft := raft } a' := by
  obtain ⟨a', hext, hhost⟩ := h.host.cluster hok hs hcrash hgiven
  exact ⟨a', hext, hhost, h.started.step hs (.inl hok.placeholder) hnew⟩

/-- A server starts with the state that its peer counts as applied. -/
theorem host_crash (h : Backed s a) (i : Fin (n + 1)) :
    (s.crash i).host = s.host.restart i := by
  have hdisk : (s.kv.restart i (snapshotNumber (s.raft.peers i).persister.readSnapshot)).servers =
      Function.update s.kv.servers i (.startKVServer (s.kv.servers i).maxraftstate
        ((snapshotNumber (s.raft.peers i).persister.snapshot).bind fun k =>
          s.kv.snapshots[k]?)) := rfl
  have happlied : (fun j => ((s.crash i).kv.servers j).lastApplied) =
      Function.update s.host.applied i
        (s.raft.peers i).persister.lastIncludedIndex.toNat := by
    funext j
    show ((s.kv.restart i _).servers j).lastApplied = _
    rw [hdisk]
    by_cases hj : j = i
    · rw [hj, Function.update_self, Function.update_self]
      rcases h.host.disk i with ⟨hzero, hnil⟩ | hencoded
      · show KVServer.lastApplied (.startKVServer _ ((snapshotNumber
          (s.raft.peers i).persister.snapshot).bind _)) =
          (s.raft.peers i).persister.lastIncludedIndex.toNat
        have hnil' : (s.raft.peers i).persister.snapshot = [] := hnil
        have hzero' : (s.raft.peers i).persister.lastIncludedIndex = 0 := hzero
        rw [hnil', hzero']
        rfl
      · obtain ⟨k, snap, hk, hdata, hindex⟩ := kept hencoded
        have hdata' : (s.raft.peers i).persister.snapshot = snapshotBytes k := hdata
        have hindex' : (s.raft.peers i).persister.lastIncludedIndex = snap.lastApplied := hindex
        rw [hdata', hindex', Raft.snapshotNumber_snapshotBytes, Option.bind_some, hk]
        rfl
    · rw [Function.update_of_ne hj, Function.update_of_ne hj]
      rfl
  exact congrArg (fun applied => ({
    raft := s.raft.crash i
    taken := Function.update s.taken i 0
    applied := applied
    snapshots := s.kv.snapshots.map Snapshot.lastApplied } : Raft.Host (n + 1) Op)) happlied

/-- A server and its peer start again from the disk. -/
theorem crash (h : Backed s a) (i : Fin (n + 1)) :
    ∃ a', a.Ext a' ∧ Backed (s.crash i) a' := by
  obtain ⟨a', hext, hhost⟩ := h.host.restart i
  rw [← h.host_crash i] at hhost
  have hs : s.raft.step (.crash i) = some (s.raft.crash i) := rfl
  exact ⟨a', hext, hhost,
    h.started.step hs (.inl trivial) fun j command hact => by cases hact⟩

/-- The servers apply nothing and make no snapshot. -/
theorem host_eq {kv : System n m} (hsnap : kv.snapshots = s.kv.snapshots)
    (hserver : ∀ i, (kv.servers i).lastApplied = (s.kv.servers i).lastApplied) :
    ({ s with kv := kv } : Stack n m).host = s.host := by
  unfold Stack.host
  dsimp only
  rw [hsnap, funext hserver]

theorem internal (h : Backed s a) {kv : System n m} (hkeep : System.Keeps s.kv kv) :
    Backed { s with kv := kv } a := by
  refine h.service ?_ ?_
  · rw [hkeep.started]
  · rw [host_eq hkeep.snapshots fun i => (hkeep.server i).1]
    exact h.host

/-- A handler calls `Start`, and remembers the index if its peer leads. -/
theorem handle (h : Backed s a) {k : Nat} {rpc : Rpc n m} {raft : Raft.Cluster (n + 1) Op}
    {kv : System n m} {start : Option Nat} (hk : s.kv.requests[k]? = some rpc)
    (hraft : s.raft.step (.start rpc.server (some rpc.request.cmd)) = some raft)
    (hkv : s.kv.deliver k start = some kv)
    (hstart : (s.raft.peers rpc.server).status = .leader →
      start = some ((s.raft.peers rpc.server).start (some rpc.request.cmd)).2.1.toNat) :
    ∃ a', a.Ext a' ∧ Backed { s with raft := raft, kv := kv } a' := by
  obtain ⟨hstarted, hsnap, -, -, hserver⟩ := System.deliver_frame hk hkv
  have hmid : Backed { s with kv := kv } a := by
    refine h.service ?_ ?_
    · rw [hstarted]
      exact List.prefix_append _ _
    · rw [host_eq hsnap fun i => (hserver i).1]
      exact h.host
  have hok : s.raft.Ordered (.start rpc.server (some rpc.request.cmd)) :=
    ⟨fun r hr => (by cases hr), trivial, trivial, fun r hr => (by cases hr)⟩
  refine hmid.cluster hok hraft (fun i hact => by cases hact)
    (fun i index data hact => by cases hact) fun i command hact hlead => ?_
  cases hact
  refine ⟨_, rfl, ?_⟩
  show (_, rpc.request.cmd) ∈ kv.started
  rw [hstarted, hstart hlead]
  simp

end Backed

/-- What the loop of server `i` may find next on its channel: a snapshot that some server
has made, above what it has applied, or the command after that. -/
inductive Next (s : Stack n m) (a : Raft.AbsState (n + 1) Op) (i : Fin (n + 1))
    (msg : Raft.ApplyMsg Op) : Prop
  | snapshot (k : Nat) (snap : Snapshot) : s.kv.snapshots[k]? = some snap →
      s.message msg = some (.snapshot (some snap) snap.lastApplied) →
      (s.kv.servers i).lastApplied < snap.lastApplied → msg.index = snap.lastApplied →
      Next s a i msg
  | command (op : Op) : msg.command = some op →
      s.message msg = some (.command op ((s.kv.servers i).lastApplied + 1)) →
      msg.index = ((s.kv.servers i).lastApplied + 1 : Nat) →
      ((s.kv.servers i).lastApplied + 1, op) ∈ s.kv.started →
      Raft.Chosen a { commandValid := true, command := some op,
                      commandIndex := ((s.kv.servers i).lastApplied : Int) + 1 } → Next s a i msg

theorem Backed.next (h : Backed s a) {i : Fin (n + 1)} {msg : Raft.ApplyMsg Op}
    (hmsg : (s.channel i)[s.taken i]? = some msg) : Next s a i msg := by
  have hmem : msg ∈ s.raft.applyCh i (s.raft.incarnation i) := List.mem_of_getElem? hmsg
  rcases h.host.next hmsg with ⟨hvalid, hlt, hencoded⟩ | ⟨hvalid, hcommand, hindex, hchosen⟩
  · obtain ⟨k, snap, hk, hdata, hsnap⟩ := kept hencoded
    have hlt' : ((s.kv.servers i).lastApplied : Int) < msg.snapshotIndex := hlt
    refine .snapshot k snap hk ?_ (by omega) ?_
    · rw [message, if_pos hvalid, hdata, Raft.snapshotNumber_snapshotBytes, Option.bind_some, hk,
        hsnap]
      rfl
    · rw [Raft.ApplyMsg.index, if_pos hvalid, hsnap]
  · obtain ⟨op, hop, hstarted⟩ := h.started.messages.applyCh i _ msg hmem hvalid
    have hindex' : msg.commandIndex = ((s.kv.servers i).lastApplied : Int) + 1 := hindex
    have hnat : msg.commandIndex.toNat = (s.kv.servers i).lastApplied + 1 := by omega
    rw [hnat] at hstarted
    have hno : ¬ msg.snapshotValid = true := by simp [hvalid]
    refine .command op hop ?_ ?_ hstarted fun _ => ?_
    · rw [message, if_neg hno, if_pos hcommand, hop, hnat]
      rfl
    · rw [Raft.ApplyMsg.index, if_neg hno, hindex']
      rfl
    · have hthere := hchosen hvalid
      rwa [hindex', hop] at hthere

/-- The loop of server `i` has taken the message, and applied it. -/
theorem Backed.advance (h : Backed s a) {i : Fin (n + 1)} {msg : Raft.ApplyMsg Op}
    (hmsg : (s.channel i)[s.taken i]? = some msg) {size : Int} {read : ApplyMsg}
    {kv : System n m} (hkv : s.kv.turn i size read = some kv)
    (hindex : msg.index = ((s.kv.servers i).update size read).srv.lastApplied) :
    Backed { s with kv := kv, taken := Function.update s.taken i (s.taken i + 1) } a := by
  obtain ⟨hstarted, hsnap, hservers, -⟩ := System.turn_frame hkv
  have hmade : s.host.snapshots <+: kv.snapshots.map Snapshot.lastApplied := by
    rw [hsnap, List.map_append]
    exact List.prefix_append _ _
  have happlied : (fun j => (kv.servers j).lastApplied) = Function.update s.host.applied i
      ((s.kv.servers i).update size read).srv.lastApplied := by
    funext j
    rw [hservers]
    by_cases hj : j = i
    · rw [hj, Function.update_self, Function.update_self]
    · rw [Function.update_of_ne hj, Function.update_of_ne hj]
      rfl
  refine h.service (by rw [hstarted]) ?_
  have htake := (h.host.take hmsg hindex).made hmade
  unfold Raft.Host.take at htake
  rw [← happlied] at htake
  exact htake

/-- A turn of the loop keeps what the cluster guarantees, also if it compacts. -/
theorem Backed.turn (h : Backed s a) {i : Fin (n + 1)} {msg : Raft.ApplyMsg Op}
    (hmsg : (s.channel i)[s.taken i]? = some msg) {size : Int} {read : ApplyMsg}
    {kv : System n m} {raft : Raft.Cluster (n + 1) Op} (hread : s.message msg = some read)
    (hkv : s.kv.turn i size read = some kv)
    (hraft : s.compact i ((s.kv.servers i).update size read).snapshot = some raft) :
    ∃ a', a.Ext a' ∧ Backed
      { raft := raft, kv := kv, taken := Function.update s.taken i (s.taken i + 1) } a' := by
  cases h.next hmsg with
  | snapshot k snap hk hmessage hlt hindex =>
      cases Option.some.inj (hmessage.symm.trans hread)
      have hupdate : (s.kv.servers i).update size (.snapshot (some snap) snap.lastApplied) =
          { srv := { (s.kv.servers i).readSnapshot (some snap) with
                      lastApplied := snap.lastApplied }
            snapshot := none
            notify := none } := if_pos hlt
      have hadvance := h.advance hmsg hkv (by rw [hupdate, hindex])
      rw [hupdate] at hraft
      cases hraft
      exact ⟨a, .refl a, hadvance⟩
  | command op hop hmessage hindex hstarted hchosen =>
      cases Option.some.inj (hmessage.symm.trans hread)
      have hadvance := h.advance hmsg hkv hindex
      cases hsnap : ((s.kv.servers i).update size
          (.command op ((s.kv.servers i).lastApplied + 1))).snapshot with
      | none =>
          rw [hsnap] at hraft
          cases hraft
          exact ⟨a, .refl a, hadvance⟩
      | some snap =>
          rw [hsnap] at hraft
          have hlast : snap.lastApplied = (s.kv.servers i).lastApplied + 1 := by
            simp only [KVServer.update] at hsnap
            split at hsnap
            · cases hsnap
              rfl
            · cases hsnap
          have hok : s.raft.Ordered (.snapshot i snap.lastApplied
              (snapshotBytes s.kv.snapshots.length)) := by
            refine ⟨fun r hr => (by cases hr), trivial, ?_, fun r hr => (by cases hr)⟩
            refine .inr ⟨msg, List.mem_of_getElem? hmsg, ?_⟩
            rw [hindex, hlast]
          refine hadvance.cluster hok hraft (fun j hact => by cases hact)
            (fun j index data hact => ?_) fun j command hact => by cases hact
          cases hact
          refine ⟨s.kv.snapshots.length, snap.lastApplied, ?_, rfl, rfl⟩
          show (kv.snapshots.map Snapshot.lastApplied)[s.kv.snapshots.length]? = _
          rw [(System.turn_frame hkv).2.1, hsnap]
          simp

/-! ## The simulation -/

/-- Every entry of the log is a command that the cluster has committed at its index. -/
def Agreed (a : Raft.AbsState (n + 1) Op) (log : List Op) : Prop :=
  ∀ (k : Nat) op, log[k]? = some op →
    Raft.Chosen a { commandValid := true, command := some op, commandIndex := (k : Int) + 1 }

theorem Agreed.mono {a' : Raft.AbsState (n + 1) Op} {log : List Op} (h : Agreed a log)
    (hext : a.Ext a') : Agreed a' log :=
  fun k op hk => (h k op hk).mono hext

theorem Agreed.concat {log : List Op} {op : Op} (h : Agreed a log)
    (hop : Raft.Chosen a { commandValid := true, command := some op,
                           commandIndex := (log.length : Int) + 1 }) : Agreed a (log ++ [op]) := by
  intro k e hk
  rcases Nat.lt_or_ge k log.length with hlt | hge
  · rw [List.getElem?_append_left hlt] at hk
    exact h k e hk
  · have hlt := (List.getElem?_eq_some_iff.mp hk).1
    rw [List.length_append, List.length_singleton] at hlt
    obtain rfl : k = log.length := by omega
    rw [List.getElem?_concat_length] at hk
    cases hk
    exact hop

/-- The stack, and a run of the service over an agreed log that ends with the same servers,
clerks and messages. -/
structure Matches (clean : (Str → Option Str) → Str → Prop) (maxraftstate : Int)
    (id : Fin m → Int64) (s : Stack n m) (a : Raft.AbsState (n + 1) Op) (log : List Op)
    (ops : List (Operation KvInput KvOutput)) (clock : Nat) : Prop where
  backed : Backed s a
  agreed : Agreed a log
  retimed : Retimed s.kv.clock s.kv.ops clock ops
  path : Run.Path System.step (System.Reads clean) (System.init maxraftstate id)
    (s.kv.withLog log ops clock)

variable {clean : (Str → Option Str) → Str → Prop} {maxraftstate : Int} {id : Fin m → Int64}
  {log : List Op} {ops : List (Operation KvInput KvOutput)} {clock : Nat}

theorem matches_init : Matches clean maxraftstate id (init maxraftstate id : Stack n m)
    (Consensus.State.init 0) [] [] 0 where
  backed := ⟨.init, .init⟩
  agreed := fun k op hk => by cases hk
  retimed := .nil 0 0
  path := .refl _

/-- Servers and snapshots do not get ahead of the log of the matching run. -/
theorem Matches.behind (h : Matches clean maxraftstate id s a log ops clock)
    (hinj : Function.Injective id) (i : Fin (n + 1)) :
    (s.kv.servers i).lastApplied ≤ log.length :=
  ((System.refines hinj h.path).1.replicated.servers i).state.le

/-- A command that was started with the next index may be added to the log. -/
theorem commit_path (hp : Run.Path System.step (System.Reads clean)
      (System.init maxraftstate id) (s.kv.withLog log ops clock)) {op : Op}
    (hstarted : (log.length + 1, op) ∈ s.kv.started) :
    Run.Path System.step (System.Reads clean) (System.init maxraftstate id)
      (s.kv.withLog (log ++ [op]) ops (clock + 1)) := by
  obtain ⟨k, hk⟩ := List.getElem?_of_mem hstarted
  refine hp.tail (a := .commit k) trivial ?_
  show (s.kv.withLog log ops clock).commit k = _
  unfold System.commit
  dsimp only [System.withLog]
  rw [hk]
  exact if_pos rfl

/-- The service reaches a log with the entry: it is there, or no server has applied it
yet and it is added. -/
theorem Matches.entry (h : Matches clean maxraftstate id s a log ops clock)
    (hinj : Function.Injective id) {i : Fin (n + 1)} {op : Op}
    (hstarted : ((s.kv.servers i).lastApplied + 1, op) ∈ s.kv.started)
    (hchosen : Raft.Chosen a { commandValid := true, command := some op,
                               commandIndex := ((s.kv.servers i).lastApplied : Int) + 1 }) :
    ∃ log' clock', clock ≤ clock' ∧ log'[(s.kv.servers i).lastApplied]? = some op ∧
      Matches clean maxraftstate id s a log' ops clock' := by
  have hbehind := h.behind hinj i
  rcases Nat.lt_or_ge (s.kv.servers i).lastApplied log.length with hlt | hge
  · obtain ⟨e, he⟩ : ∃ e, log[(s.kv.servers i).lastApplied]? = some e :=
      ⟨_, List.getElem?_eq_getElem hlt⟩
    have heq := (h.agreed _ e he).command_eq h.backed.delivers.refines.inv hchosen rfl rfl rfl
    cases heq
    exact ⟨log, clock, Nat.le_refl _, he, h⟩
  · have hlen : (s.kv.servers i).lastApplied = log.length := by omega
    rw [hlen] at hstarted hchosen ⊢
    exact ⟨log ++ [op], clock + 1, Nat.le_succ _, by simp, h.backed, h.agreed.concat hchosen,
      h.retimed.tick (Nat.le_refl _) (Nat.le_succ _), commit_path h.path hstarted⟩

/-- A turn of a loop is that of the service over the agreed log. -/
theorem Matches.turn (h : Matches clean maxraftstate id s a log ops clock)
    (hinj : Function.Injective id) {i : Fin (n + 1)} {size : Int} {msg : Raft.ApplyMsg Op}
    {read : ApplyMsg} {kv : System n m} (hnext : Next s a i msg)
    (hread : s.message msg = some read) (hkv : s.kv.turn i size read = some kv)
    (hclean : ∀ op ∈ msg.command, op.opType = .get → clean (s.kv.servers i).kv op.key) :
    ∃ log' clock', Agreed a log' ∧ Retimed kv.clock kv.ops clock' ops ∧
      Run.Path System.step (System.Reads clean) (System.init maxraftstate id)
        (kv.withLog log' ops clock') := by
  obtain ⟨-, -, -, hops, hclock⟩ := System.turn_frame hkv
  rw [hops, hclock]
  cases hnext with
  | snapshot k snap hk hmessage hlt hindex =>
      cases Option.some.inj (hmessage.symm.trans hread)
      refine ⟨log, clock + 1, h.agreed, h.retimed.tick (Nat.le_succ _) (Nat.le_succ _),
        h.path.tail (a := .install i k) trivial ?_⟩
      exact (System.install_eq (w := s.kv.withLog log ops clock) hk).trans (System.withLog_turn hkv)
  | command op hop hmessage hindex hstarted hchosen =>
      cases Option.some.inj (hmessage.symm.trans hread)
      obtain ⟨log', clock', hle, hget, hm⟩ := h.entry hinj hstarted hchosen
      refine ⟨log', clock' + 1, hm.agreed,
        hm.retimed.tick (Nat.le_succ _) (Nat.le_succ _),
        hm.path.tail (a := .apply i size) (fun e he hget' => ?_) ?_⟩
      · have heq : some op = some e := hget.symm.trans he
        cases heq
        exact hclean op hop hget'
      · exact (System.apply_eq (w := s.kv.withLog log' ops clock') hget).trans
          (System.withLog_turn hkv)

theorem Matches.step (h : Matches clean maxraftstate id s a log ops clock)
    (hinj : Function.Injective id) {act : StackAction n m} (hcareful : s.Careful act)
    (hreads : Reads clean s act) (hs : s.step act = some s') :
    ∃ a' log' ops' clock', Matches clean maxraftstate id s' a' log' ops' clock' := by
  have hback := h.backed
  cases trans_of_step hs with
  | service act kv hact hkv =>
      obtain ⟨ops', hover, hretimed⟩ := System.withLog_internal log hact hkv h.retimed
      exact ⟨a, log, ops', clock + 1, hback.internal (System.keeps_internal hact hkv), h.agreed,
        hretimed, h.path.tail (System.reads_internal hact) hover⟩
  | handle k rpc raft kv start hk hraft hkv hstart =>
      obtain ⟨a', hext, hback'⟩ := hback.handle hk hraft hkv hstart
      obtain ⟨-, -, hops, hclock, -⟩ := System.deliver_frame hk hkv
      refine ⟨a', log, ops, clock + 1, hback', h.agreed.mono hext, ?_,
        h.path.tail (a := .deliver k start) trivial (System.withLog_deliver hkv)⟩
      show Retimed kv.clock kv.ops _ _
      rw [hops, hclock]
      exact h.retimed.tick (Nat.le_succ _) (Nat.le_succ _)
  | turn i size msg read kv raft hmsg hread hkv hraft =>
      obtain ⟨a', hext, hback'⟩ := hback.turn hmsg hread hkv hraft
      obtain ⟨log', clock', hagreed, hretimed, hpath⟩ :=
        h.turn hinj (hback.next hmsg) hread hkv (hreads msg hmsg)
      exact ⟨a', log', ops, clock', hback', hagreed.mono hext, hretimed, hpath⟩
  | crash i =>
      obtain ⟨a', hext, hback'⟩ := hback.crash i
      exact ⟨a', log, ops, clock + 1, hback', h.agreed.mono hext,
        h.retimed.tick (Nat.le_succ _) (Nat.le_succ _),
        h.path.tail (a := .restart i _) trivial rfl⟩
  | raft act raft hoffer hraft =>
      obtain ⟨hvote, hskip, hahead⟩ := hcareful
      have hok : s.raft.Ordered act := by
        refine ⟨hvote, hskip, ?_, hahead⟩
        cases act with
        | snapshot i index data => exact hoffer.elim
        | _ => trivial
      obtain ⟨a', hext, hback'⟩ := hback.cluster hok hraft
        (fun i hact => by subst hact; exact hoffer)
        (fun i index data hact => by subst hact; exact hoffer.elim)
        (fun i command hact => by subst hact; exact hoffer.elim)
      exact ⟨a', log, ops, clock, hback', h.agreed.mono hext, h.retimed, h.path⟩

/-- Every careful run of the stack is matched by a run of the service. -/
theorem matches_path (hinj : Function.Injective id)
    (hp : Run.Path step (fun s act => s.Careful act ∧ Reads clean s act)
      (init maxraftstate id) s) :
    ∃ a log ops clock, Matches clean maxraftstate id s a log ops clock := by
  refine hp.invariant (P := fun s => ∃ a log ops clock,
    Matches clean maxraftstate id s a log ops clock) ?_ ⟨_, _, _, _, matches_init⟩
  intro s act s' ⟨a, log, ops, clock, h⟩ ⟨hcareful, hreads⟩ hs
  exact h.step hinj hcareful hreads hs

end Stack
end KvRaft
end Labs
