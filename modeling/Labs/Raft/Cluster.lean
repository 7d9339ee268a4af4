import Labs.Raft.Server
import Labs.Run

/-!
# A cluster of Raft peers

The goroutines of all peers and the network, as a step function.  A step is one
critical section of one goroutine, one write outside a lock (`isReplicating`), one
message put on an apply channel, or the end of a server followed by `Make` on its
persister.  The goroutine that sends on the apply channel is not stopped with its
server: it still puts there what it has collected.  A request in flight is executed at
most once, at any later time or never; its reply reaches the call that sent it at most
once, as long as that call still waits and its server has not crashed.
-/

namespace Labs
namespace Raft

/-- The goroutines of one `startElection`: the arguments and the vote counter they
share, and which of them still wait for a reply. -/
structure Election (n : Nat) where
  src : Fin n
  incarnation : Nat
  args : RequestVoteArgs n
  votes : Nat
  waiting : Fin n → Bool

/-- Where a `heartbeatWorker` goroutine stands: before its first critical section,
between that and setting the flag, before the lock in `handleInstallSnapshot`,
waiting for a reply, before its deferred function, or finished. -/
inductive WorkerPc where
  | start
  | setFlag
  | installSnapshot
  | calling
  | cleanup
  | done
  deriving DecidableEq, Repr

structure Worker (n : Nat) where
  src : Fin n
  incarnation : Nat
  peer : Fin n
  pc : WorkerPc

/-- A request in flight, with the election or the worker that made the call. -/
inductive Request (n : Nat) (C : Type) where
  | requestVote (election : Nat) (dst : Fin n) (args : RequestVoteArgs n)
  | appendEntries (worker : Nat) (dst : Fin n) (args : AppendEntriesArgs n C)
  | installSnapshot (worker : Nat) (dst : Fin n) (args : InstallSnapshotArgs n)

/-- A reply in flight, with the call that it answers. -/
inductive Response (n : Nat) (C : Type) where
  | requestVote (election : Nat) (dst : Fin n) (args : RequestVoteArgs n)
      (reply : RequestVoteReply)
  | appendEntries (worker : Nat) (dst : Fin n) (args : AppendEntriesArgs n C)
      (reply : AppendEntriesReply)
  | installSnapshot (worker : Nat) (dst : Fin n) (args : InstallSnapshotArgs n)
      (reply : InstallSnapshotReply)

/-- What a condition on a run may look back at: a vote given in a term, the call that a
worker makes, and a reply of `peer` by which `src` learns that it has something. -/
inductive Event (n : Nat) where
  | voted (voter : Fin n) (term : Int) (candidate : Fin n)
  | called (worker : Nat)
  | acknowledged (src peer : Fin n)
  deriving DecidableEq, Repr

/-- `heartbeats` are the `sendHeartbeat` goroutines that have not run, `sending` is
what `applyCommitted` has collected and not yet sent.  Per incarnation of a server,
`applyCh` is what was put on its apply channel and `loaded` the index of the
snapshot its service read from the persister before `Make`.  No step depends on
`history`, which has the latest event first. -/
structure Cluster (n : Nat) (C : Type) where
  peers : Fin n → Peer n C
  incarnation : Fin n → Nat
  elections : List (Election n)
  heartbeats : List (Fin n × Nat)
  workers : List (Worker n)
  requests : List (Request n C)
  responses : List (Response n C)
  sending : Fin n → List (ApplyMsg C)
  applyCh : Fin n → Nat → List (ApplyMsg C)
  loaded : Fin n → Nat → Int
  history : List (Event n)

/-- `tick` is a round of `ticker`, with the time since the last heartbeat and the
election timeout in milliseconds.  `worker` runs a worker up to its next call or its
end.  `callFails` and `voteFails` are calls that return `false`. -/
inductive Action (n : Nat) (C : Type) where
  | tick (i : Fin n) (elapsed timeout : Nat)
  | start (i : Fin n) (command : Option C)
  | snapshot (i : Fin n) (index : Int) (data : Bytes)
  | sendHeartbeat (k : Nat)
  | worker (k : Nat)
  | deliver (k : Nat)
  | receive (k : Nat)
  | callFails (k : Nat)
  | voteFails (k : Nat) (peer : Fin n)
  | apply (i : Fin n)
  | send (i : Fin n)
  | crash (i : Fin n)

namespace Cluster

variable {n : Nat} {C : Type}

def init : Cluster n C where
  peers := fun i => Peer.make i Persister.makePersister
  incarnation := fun _ => 0
  elections := []
  heartbeats := []
  workers := []
  requests := []
  responses := []
  sending := fun _ => []
  applyCh := fun _ _ => []
  loaded := fun _ _ => 0
  history := []

def setPeer (w : Cluster n C) (i : Fin n) (rf : Peer n C) : Cluster n C :=
  { w with peers := Function.update w.peers i rf }

/-- A `sendHeartbeat` goroutine is started by the current incarnation of `i`. -/
def goHeartbeat (w : Cluster n C) (i : Fin n) (started : Bool) : Cluster n C :=
  if started then { w with heartbeats := w.heartbeats ++ [(i, w.incarnation i)] } else w

def setWorker (w : Cluster n C) (k : Nat) (wk : Worker n) (pc : WorkerPc) : Cluster n C :=
  { w with workers := w.workers.set k { wk with pc := pc } }

def request (w : Cluster n C) (r : Request n C) : Cluster n C :=
  { w with requests := w.requests ++ [r] }

def respond (w : Cluster n C) (r : Response n C) : Cluster n C :=
  { w with responses := w.responses ++ [r] }

def note (w : Cluster n C) (events : List (Event n)) : Cluster n C :=
  { w with history := events ++ w.history }

/-- All peers but `i`. -/
def others (i : Fin n) : List (Fin n) :=
  (List.finRange n).filter (· ≠ i)

def startElection (w : Cluster n C) (i : Fin n) : Cluster n C :=
  let (rf, args) := (w.peers i).startElection
  { w.setPeer i rf with
    elections := w.elections ++
      [{ src := i
         incarnation := w.incarnation i
         args := args
         votes := 1
         waiting := fun p => p ≠ i }]
    requests := w.requests ++
      (others i).map fun p => .requestVote w.elections.length p args
    history := .voted i args.term i :: w.history }

/-- A leader that has waited 100 ms never gets to the election timeout below, which
is at least 200 ms. -/
def ticker (w : Cluster n C) (i : Fin n) (elapsed timeout : Nat) : Option (Cluster n C) :=
  if timeout < 200 ∨ timeout > 400 then none
  else if (w.peers i).status = .leader ∧ elapsed ≥ 100 then some (w.goHeartbeat i true)
  else if elapsed ≥ timeout ∧ n > 1 then some (w.startElection i)
  else some w

def sendHeartbeat (w : Cluster n C) (k : Nat) : Option (Cluster n C) :=
  match w.heartbeats[k]? with
  | none => none
  | some (i, inc) =>
    let w := { w with heartbeats := w.heartbeats.eraseIdx k }
    if inc = w.incarnation i ∧ (w.peers i).status = .leader then
      some { w with
        workers := w.workers ++ (others i).map fun p =>
          { src := i, incarnation := inc, peer := p, pc := .start } }
    else some w

def runWorker (w : Cluster n C) (k : Nat) : Option (Cluster n C) :=
  match w.workers[k]? with
  | none => none
  | some wk =>
    let rf := w.peers wk.src
    if wk.incarnation ≠ w.incarnation wk.src then none
    else match wk.pc with
      | .start =>
        match rf.heartbeatWorker wk.peer with
        | .quit => some (w.setWorker k wk .cleanup)
        | .sendSnapshot => some (w.setWorker k wk .setFlag)
        | .sendEntries args =>
          some (((w.setWorker k wk .calling).request (.appendEntries k wk.peer args)).note
            [.called k])
      | .setFlag =>
        some ((w.setPeer wk.src (rf.setReplicating wk.peer true)).setWorker k wk
          .installSnapshot)
      | .installSnapshot =>
        match rf.installSnapshotArgs wk.peer with
        | none => some (w.setWorker k wk .cleanup)
        | some args =>
          some (((w.setWorker k wk .calling).request (.installSnapshot k wk.peer args)).note
            [.called k])
      | .cleanup =>
        some ((w.setPeer wk.src (rf.setReplicating wk.peer false)).setWorker k wk .done)
      | .calling | .done => none

/-- The vote that a reply gives. -/
def voteOf (dst : Fin n) (args : RequestVoteArgs n) (reply : RequestVoteReply) :
    List (Event n) :=
  if reply.voteGranted then [.voted dst args.term args.candidateId] else []

/-- The success that a reply reports. -/
def successOf (src dst : Fin n) (reply : AppendEntriesReply) : List (Event n) :=
  if reply.success then [.acknowledged src dst] else []

/-- The request that an action hands to its receiver. -/
def delivered (w : Cluster n C) : Action n C → Option (Request n C)
  | .deliver k => w.requests[k]?
  | _ => none

def deliver (w : Cluster n C) (k : Nat) : Option (Cluster n C) :=
  match w.requests[k]? with
  | none => none
  | some r =>
    let w := { w with requests := w.requests.eraseIdx k }
    match r with
    | .requestVote e dst args =>
      let (rf, reply) := (w.peers dst).requestVote args
      some (((w.setPeer dst rf).respond (.requestVote e dst args reply)).note
        (voteOf dst args reply))
    | .appendEntries k dst args =>
      let (rf, reply) := (w.peers dst).appendEntries args
      some ((w.setPeer dst rf).respond (.appendEntries k dst args reply))
    | .installSnapshot k dst args =>
      let (rf, reply) := (w.peers dst).installSnapshot args
      some ((w.setPeer dst rf).respond (.installSnapshot k dst args reply))

/-- The worker `k`, if its server has not crashed and it waits for a reply. -/
def callingWorker (w : Cluster n C) (k : Nat) : Option (Worker n) :=
  w.workers[k]?.filter fun wk =>
    wk.incarnation = w.incarnation wk.src ∧ wk.pc = .calling

def receive (w : Cluster n C) (k : Nat) : Option (Cluster n C) :=
  match w.responses[k]? with
  | none => none
  | some r =>
    let w := { w with responses := w.responses.eraseIdx k }
    match r with
    | .requestVote e dst _ reply =>
      match w.elections[e]? with
      | none => none
      | some el =>
        if el.incarnation = w.incarnation el.src ∧ el.waiting dst then
          let (rf, votes, started) :=
            (w.peers el.src).handleRequestVoteReply el.args reply el.votes
          let el' := { el with votes := votes, waiting := Function.update el.waiting dst false }
          some (({ w with elections := w.elections.set e el' }.setPeer el.src rf).goHeartbeat
            el.src started)
        else none
    | .appendEntries k dst args reply =>
      match w.callingWorker k with
      | none => none
      | some wk =>
        let rf := (w.peers wk.src).handleAppendEntriesReply dst args reply
        some (((w.setPeer wk.src rf).setWorker k wk .cleanup).note
          (successOf wk.src dst reply))
    | .installSnapshot k dst args reply =>
      match w.callingWorker k with
      | none => none
      | some wk =>
        let rf := (w.peers wk.src).handleInstallSnapshotReply dst args reply
        some (((w.setPeer wk.src rf).setWorker k wk .cleanup).note
          [.acknowledged wk.src dst])

def callFails (w : Cluster n C) (k : Nat) : Option (Cluster n C) :=
  match w.callingWorker k with
  | none => none
  | some wk => some (w.setWorker k wk .cleanup)

def voteFails (w : Cluster n C) (e : Nat) (peer : Fin n) : Option (Cluster n C) :=
  match w.elections[e]? with
  | none => none
  | some el =>
    some { w with
      elections := w.elections.set e
        { el with waiting := Function.update el.waiting peer false } }

def apply (w : Cluster n C) (i : Fin n) : Option (Cluster n C) :=
  if w.sending i ≠ [] then none
  else match (w.peers i).applyCommitted with
    | none => none
    | some (rf, msgs) =>
      some { w.setPeer i rf with sending := Function.update w.sending i msgs }

def send (w : Cluster n C) (i : Fin n) : Option (Cluster n C) :=
  match w.sending i with
  | [] => none
  | msg :: rest =>
    let inc := w.incarnation i
    some { w with
      sending := Function.update w.sending i rest
      applyCh := Function.update w.applyCh i
        (Function.update (w.applyCh i) inc (w.applyCh i inc ++ [msg])) }

/-- The channel of the incarnation that ends has what it would still send. -/
def crash (w : Cluster n C) (i : Fin n) : Cluster n C :=
  let rf := Peer.make i (w.peers i).persister
  let old := w.incarnation i
  let inc := old + 1
  { w.setPeer i rf with
    incarnation := Function.update w.incarnation i inc
    sending := Function.update w.sending i []
    applyCh := Function.update w.applyCh i
      (Function.update (w.applyCh i) old (w.applyCh i old ++ w.sending i))
    loaded := Function.update w.loaded i
      (Function.update (w.loaded i) inc rf.lastIncludedIndex) }

def step (w : Cluster n C) : Action n C → Option (Cluster n C)
  | .tick i elapsed timeout => w.ticker i elapsed timeout
  | .start i command =>
    let (rf, _, _, started) := (w.peers i).start command
    some ((w.setPeer i rf).goHeartbeat i started)
  | .snapshot i index data => some (w.setPeer i ((w.peers i).snapshot index data))
  | .sendHeartbeat k => w.sendHeartbeat k
  | .worker k => w.runWorker k
  | .deliver k => w.deliver k
  | .receive k => w.receive k
  | .callFails k => w.callFails k
  | .voteFails k peer => w.voteFails k peer
  | .apply i => w.apply i
  | .send i => w.send i
  | .crash i => some (w.crash i)

end Cluster
end Raft
end Labs
