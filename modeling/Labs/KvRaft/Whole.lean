import Labs.KvRaft.Effects
import Labs.KvRaft.OverRaft

/-!
# The whole program

What the clerks see of the service over Raft is linearizable, and all servers hold states of
one log, in which every operation has its effect once.  A run has to avoid the steps with a
snapshot that break Raft.  If the servers never make one, because `maxraftstate` is -1, there
are no such steps, and the results hold of every run.
-/

namespace Labs
namespace KvRaft

open Models History

/-! ## Servers that make no snapshots -/

namespace KVServer

theorem apply_maxraftstate (srv : KVServer) (op : Op) :
    (srv.apply op).1.maxraftstate = srv.maxraftstate := by
  obtain ⟨opType, key, value, seq, clientId⟩ := op
  cases opType <;> rfl

theorem applyNew_maxraftstate (srv : KVServer) (op : Op) :
    (srv.applyNew op).1.maxraftstate = srv.maxraftstate := by
  unfold applyNew
  split
  · exact srv.apply_maxraftstate op
  · split <;> rfl

theorem update_maxraftstate (srv : KVServer) (size : Int) (msg : ApplyMsg) :
    (srv.update size msg).srv.maxraftstate = srv.maxraftstate := by
  cases msg with
  | command op index => exact srv.applyNew_maxraftstate op
  | snapshot data index =>
      simp only [update]
      split
      · cases data <;> rfl
      · rfl

theorem update_snapshot {srv : KVServer} (h : srv.maxraftstate = -1) (size : Int)
    (msg : ApplyMsg) : (srv.update size msg).snapshot = none := by
  cases msg with
  | command op index =>
      have hmax := (srv.applyNew_maxraftstate op).trans h
      simp [update, shouldSnapshot, hmax]
  | snapshot data index =>
      simp only [update]
      split <;> rfl

end KVServer

namespace Stack

variable {n m : Nat} {s s' : Stack n m} {maxraftstate : Int} {id : Fin m → Int64}

/-- No server makes snapshots, and there is none in the cluster. -/
structure Unlimited (s : Stack n m) : Prop where
  cluster : ∃ a, s.raft.Delivers a ∧ s.raft.Uncompacted
  servers : ∀ i, (s.kv.servers i).maxraftstate = -1

theorem unlimited_init : Unlimited (init (-1) id : Stack n m) where
  cluster := ⟨_, Raft.Cluster.delivers_init, .init⟩
  servers := fun _ => rfl

/-- A step of the cluster that gives it no snapshot. -/
theorem Unlimited.raft (h : Unlimited s) {act : Raft.Action (n + 1) Op}
    {raft : Raft.Cluster (n + 1) Op} (hact : s.raft.NeverSnapshots act)
    (hs : s.raft.step act = some raft) : ∃ a, raft.Delivers a ∧ raft.Uncompacted := by
  obtain ⟨a, hd, hun⟩ := h.cluster
  obtain ⟨a', -, hd'⟩ := hd.step (hun.ordered hd.refines hact) hs
  exact ⟨a', hd', hun.step hd hact hs⟩

theorem Unlimited.step (h : Unlimited s) {act : StackAction n m} (hs : s.step act = some s') :
    Unlimited s' := by
  cases trans_of_step hs with
  | service act kv hact hkv =>
      refine ⟨h.cluster, fun i => ?_⟩
      exact ((System.keeps_internal hact hkv).server i).2.trans (h.servers i)
  | handle k rpc raft kv start hk hraft hkv hstart =>
      have hnever : s.raft.NeverSnapshots (.start rpc.server (some rpc.request.cmd)) := trivial
      refine ⟨h.raft hnever hraft, fun i => ?_⟩
      exact ((System.deliver_frame hk hkv).2.2.2.2 i).2.trans (h.servers i)
  | turn i size msg read kv raft hmsg hread hkv hraft =>
      rw [KVServer.update_snapshot (h.servers i)] at hraft
      cases hraft
      refine ⟨h.cluster, ?_⟩
      show ∀ j, (kv.servers j).maxraftstate = -1
      rw [(System.turn_frame hkv).2.2.1]
      exact (Function.forall_update_iff s.kv.servers (p := fun _ srv => srv.maxraftstate = -1)).mpr
        ⟨(KVServer.update_maxraftstate _ size read).trans (h.servers i), fun j _ => h.servers j⟩
  | crash i =>
      have hnever : s.raft.NeverSnapshots (.crash i) := trivial
      refine ⟨h.raft hnever rfl, ?_⟩
      refine (Function.forall_update_iff s.kv.servers
        (p := fun _ srv => srv.maxraftstate = -1)).mpr ⟨?_, fun j _ => h.servers j⟩
      rw [← h.servers i]
      unfold KVServer.startKVServer KVServer.readSnapshot
      split <;> rfl
  | raft act raft hoffer hraft =>
      refine ⟨h.raft ?_ hraft, h.servers⟩
      cases act with
      | snapshot i index data => exact hoffer
      | _ => trivial

/-- Without snapshots no step is excluded. -/
theorem Unlimited.careful (h : Unlimited s) {act : StackAction n m}
    (hs : s.step act = some s') : s.Careful act := by
  cases trans_of_step hs with
  | raft act raft hoffer hraft =>
      obtain ⟨a, hd, hun⟩ := h.cluster
      have hnever : s.raft.NeverSnapshots act := by
        cases act with
        | snapshot i index data => exact hoffer
        | _ => trivial
      have hok := hun.ordered hd.refines hnever
      exact ⟨hok.vote, hok.placeholder, hok.ahead⟩
  | _ => trivial

theorem careful_path {ok : Stack n m → StackAction n m → Prop}
    (hp : Run.Path step ok (init (-1) id) s) :
    Run.Path step (fun s act => s.Careful act ∧ ok s act) (init (-1) id) s :=
  (hp.strengthen (P := Unlimited) (fun _ _ _ h _ hs => h.step hs)
    (fun _ _ _ h hok hs => ⟨h.careful hs, hok⟩) unlimited_init).1

/-! ## Linearizability -/

theorem Matches.linearizable {a : Raft.AbsState (n + 1) Op} {log : List Op}
    {ops : List (Operation KvInput KvOutput)} {clock : Nat}
    (h : Matches Unmarked maxraftstate id s a log ops clock) (hinj : Function.Injective id) :
    Linearizable kvMap s.kv.ops := by
  obtain ⟨-, hrun⟩ := System.refines hinj h.path
  obtain ⟨sched, tick, hexp⟩ := Sessions.explained_run hinj hrun
  exact h.retimed.linearizable hexp.recorded.linearizable

/-- The calls are linearizable in every careful run in which no `Get` is applied to the
marker. -/
theorem linearizable_of_careful (hinj : Function.Injective id)
    (hp : Run.Path step (fun s act => s.Careful act ∧ Reads Unmarked s act)
      (init maxraftstate id) s) : Linearizable kvMap s.kv.ops := by
  obtain ⟨a, log, ops, clock, h⟩ := matches_path hinj hp
  exact h.linearizable hinj

/-- The server that leads, of two. -/
def first : Fin 2 := 0

def elected : List (StackAction 1 2) :=
  [.raft (.tick first 400 200), .raft (.deliver 0), .raft (.receive 0)]

/-- It starts the command of a request, replicates it with its worker `k` and collects what
is committed. -/
def replicated (k : Nat) : List (StackAction 1 2) :=
  [.handle 0, .raft (.sendHeartbeat k), .raft (.worker k), .raft (.deliver 0),
   .raft (.receive 0), .raft (.apply first)]

def takesNext : List (StackAction 1 2) := [.raft (.send first), .turn first 100]

def answers : List (StackAction 1 2) :=
  [.service (.notify first), .service (.wake 0), .service (.receive 0)]

def served (k : Nat) : List (StackAction 1 2) := replicated k ++ takesNext ++ answers

/-- A `Put` is answered, the server crashes, is elected again and answers a `Get`. -/
def restarted : List (StackAction 1 2) :=
  elected ++ .service (.invoke 0 .put [120] [97]) :: served 0 ++ .crash first :: elected ++
    .service (.invoke 1 .get [120] []) :: served 1

theorem linearizable_of_careful_restarted : ∃ s : Stack 1 2,
    Run.Path step (fun s act => s.Careful act ∧ Reads Unmarked s act) (init 50 System.ids) s ∧
    (s.raft.peers first).lastIncludedIndex = 2 ∧
    s.kv.ops.map (fun a => a.result.map fun r => r.1.value) = [some [], some [97]] ∧
    Linearizable kvMap s.kv.ops := by
  have hrun : (Run.exec step (fun s act => s.Careful act ∧ Reads Unmarked s act)
      (init 50 System.ids : Stack 1 2) restarted).map (fun s =>
        ((s.raft.peers first).lastIncludedIndex,
          s.kv.ops.map fun a => a.result.map fun r => r.1.value)) =
      some (2, [some [], some [97]]) := by
    decide +kernel
  obtain ⟨s, hp, hs⟩ := Run.path_of_exec_map restarted _ hrun
  obtain ⟨hindex, hops⟩ := Prod.mk.inj hs
  exact ⟨s, hp, hindex, hops, linearizable_of_careful System.ids_injective hp⟩

/-- With `maxraftstate` -1 the calls are linearizable in every run in which no `Get` is
applied to the marker. -/
theorem linearizable_unlimited (hinj : Function.Injective id)
    (hp : Run.Path step (Reads Unmarked) (init (-1) id) s) : Linearizable kvMap s.kv.ops := by
  obtain ⟨a, log, ops, clock, h⟩ := matches_path hinj (careful_path hp)
  exact h.linearizable hinj

/-- Without a snapshot the server that starts again applies the `Put` once more, before the
`Get`. -/
def replayed : List (StackAction 1 2) :=
  elected ++ .service (.invoke 0 .put [120] [97]) :: served 0 ++ .crash first :: elected ++
    .service (.invoke 1 .get [120] []) :: replicated 1 ++ takesNext ++ takesNext ++ answers

theorem linearizable_unlimited_replayed : ∃ s : Stack 1 2,
    Run.Path step (Reads Unmarked) (init (-1) System.ids) s ∧
    s.kv.ops.map (fun a => a.result.map fun r => r.1.value) = [some [], some [97]] ∧
    Linearizable kvMap s.kv.ops := by
  have hrun : (Run.exec step (Reads Unmarked) (init (-1) System.ids : Stack 1 2) replayed).map
      (fun s => s.kv.ops.map fun a => a.result.map fun r => r.1.value) =
      some [some [], some [97]] := by
    decide +kernel
  obtain ⟨s, hp, hs⟩ := Run.path_of_exec_map replayed _ hrun
  exact ⟨s, hp, hs, linearizable_unlimited System.ids_injective hp⟩

/-! ## One log -/

/-- There is one log of which every server has applied a beginning: its map is what the first
copies of the commands there give, one after the other, and those of a clerk have rising
numbers.  It is what Raft delivers, which is never a command that the loop cannot read. -/
theorem servers_replicate (hinj : Function.Injective id)
    (hp : Run.Path step Careful (init maxraftstate id) s) :
    ∃ log : List Op,
      (∀ i, (s.kv.servers i).lastApplied ≤ log.length ∧ (s.kv.servers i).kv =
        (Session.firsts Op.clientId Op.seq (log.take (s.kv.servers i).lastApplied)).foldl execute
          fun _ => none) ∧
      (Session.firsts Op.clientId Op.seq log).Pairwise
        (fun x y => x.clientId = y.clientId → x.seq < y.seq) ∧
      (∀ (k : Nat) op, log[k]? = some op → ∀ i inc, ∀ msg ∈ s.raft.applyCh i inc,
        msg.snapshotValid = false → msg.commandIndex = (k : Int) + 1 → msg.command = some op) ∧
      ∀ i msg, (s.channel i)[s.taken i]? = some msg → s.message msg ≠ none := by
  have hreads : ∀ (s : Stack n m) act, Reads (fun _ _ => True) s act := by
    intro s act
    cases act with
    | turn i size => exact fun _ _ _ _ _ => trivial
    | _ => trivial
  obtain ⟨a, log, ops, clock, h⟩ := matches_path hinj
    (hp.mono fun s act hok => ⟨hok, hreads s act⟩)
  obtain ⟨hinv, -⟩ := System.refines hinj h.path
  have hord : Session.InOrder Op.clientId Op.seq log := hinv.wf.inOrder
  refine ⟨log, fun i => ⟨h.behind hinj i, ?_⟩, hord.firsts_rising, ?_, fun i msg hmsg => ?_⟩
  · have hstore := (hinv.replicated.servers i).state.store
    have hkv : (s.kv.servers i).kv = (replay (log.take (s.kv.servers i).lastApplied)).1 :=
      congrArg Prod.fst hstore
    rw [hkv]
    exact (hord.of_isPrefix (List.take_prefix _ _)).filtered_eq execute _
  · intro k op hk i inc msg hmsg hvalid hindex
    exact (h.backed.delivers.agreed.applyCh i inc msg hmsg).command_eq
      h.backed.delivers.refines.inv (h.agreed k op hk) hvalid rfl hindex
  · cases h.backed.next hmsg with
    | snapshot k snap hk hmessage hlt hindex =>
        rw [hmessage]
        exact Option.some_ne_none _
    | command op hop hmessage hindex hstarted hchosen =>
        rw [hmessage]
        exact Option.some_ne_none _

theorem servers_replicate_restarted : ∃ (s : Stack 1 2) (log : List Op),
    Run.Path step Careful (init 50 System.ids) s ∧
    ((s.kv.servers first).lastApplied, (s.kv.servers first).kv [120]) = (2, some [97]) ∧
    (s.kv.servers first).kv = (Session.firsts Op.clientId Op.seq
      (log.take (s.kv.servers first).lastApplied)).foldl execute fun _ => none := by
  have hrun : (Run.exec step Careful (init 50 System.ids : Stack 1 2) restarted).map (fun s =>
      ((s.kv.servers first).lastApplied, (s.kv.servers first).kv [120])) = some (2, some [97]) := by
    decide +kernel
  obtain ⟨s, hp, hs⟩ := Run.path_of_exec_map restarted _ hrun
  obtain ⟨log, hservers, -⟩ := servers_replicate System.ids_injective hp
  exact ⟨s, log, hp, hs, (hservers first).2⟩

end Stack
end KvRaft
end Labs
