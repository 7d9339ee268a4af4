import Labs.Raft.Cluster

/-!
# What a step can do

`Trans` says, one constructor a case, which guard a step of the cluster has passed
and what the cluster is afterwards.  Proofs about all steps split on it and do not
unfold the step function.
-/

namespace Labs
namespace Raft
namespace Cluster

variable {n : Nat} {C : Type}

/-! ## Reading an updated cluster -/

@[simp] theorem setPeer_peers_self (w : Cluster n C) (i : Fin n) (rf : Peer n C) :
    (w.setPeer i rf).peers i = rf := by
  simp [setPeer]

@[simp] theorem goHeartbeat_peers (w : Cluster n C) (i : Fin n) (started : Bool) :
    (w.goHeartbeat i started).peers = w.peers := by
  unfold goHeartbeat
  split <;> rfl

@[simp] theorem goHeartbeat_elections (w : Cluster n C) (i : Fin n) (started : Bool) :
    (w.goHeartbeat i started).elections = w.elections := by
  unfold goHeartbeat
  split <;> rfl

@[simp] theorem goHeartbeat_requests (w : Cluster n C) (i : Fin n) (started : Bool) :
    (w.goHeartbeat i started).requests = w.requests := by
  unfold goHeartbeat
  split <;> rfl

@[simp] theorem goHeartbeat_responses (w : Cluster n C) (i : Fin n) (started : Bool) :
    (w.goHeartbeat i started).responses = w.responses := by
  unfold goHeartbeat
  split <;> rfl

@[simp] theorem goHeartbeat_workers (w : Cluster n C) (i : Fin n) (started : Bool) :
    (w.goHeartbeat i started).workers = w.workers := by
  unfold goHeartbeat
  split <;> rfl

@[simp] theorem goHeartbeat_incarnation (w : Cluster n C) (i : Fin n) (started : Bool) :
    (w.goHeartbeat i started).incarnation = w.incarnation := by
  unfold goHeartbeat
  split <;> rfl

@[simp] theorem goHeartbeat_sending (w : Cluster n C) (i : Fin n) (started : Bool) :
    (w.goHeartbeat i started).sending = w.sending := by
  unfold goHeartbeat
  split <;> rfl

@[simp] theorem goHeartbeat_applyCh (w : Cluster n C) (i : Fin n) (started : Bool) :
    (w.goHeartbeat i started).applyCh = w.applyCh := by
  unfold goHeartbeat
  split <;> rfl

@[simp] theorem goHeartbeat_loaded (w : Cluster n C) (i : Fin n) (started : Bool) :
    (w.goHeartbeat i started).loaded = w.loaded := by
  unfold goHeartbeat
  split <;> rfl

@[simp] theorem goHeartbeat_history (w : Cluster n C) (i : Fin n) (started : Bool) :
    (w.goHeartbeat i started).history = w.history := by
  unfold goHeartbeat
  split <;> rfl

/-- A restart adds to the channel of the incarnation that ends, and to no other. -/
theorem crash_applyCh_of_ne_incarnation {w : Cluster n C} {i : Fin n} {inc : Nat}
    (h : inc ≠ w.incarnation i) : (w.crash i).applyCh i inc = w.applyCh i inc := by
  show Function.update w.applyCh i _ i inc = _
  rw [Function.update_self, Function.update_of_ne h]

theorem crash_applyCh_of_ne {w : Cluster n C} {i j : Fin n} (h : j ≠ i) :
    (w.crash i).applyCh j = w.applyCh j := by
  show Function.update w.applyCh i _ j = _
  rw [Function.update_of_ne h]

theorem startElection_elections (w : Cluster n C) (i : Fin n) :
    (w.startElection i).elections = w.elections ++
      [{ src := i
         incarnation := w.incarnation i
         args := (w.peers i).startElection.2
         votes := 1
         waiting := fun p => p ≠ i }] := rfl

theorem startElection_requests (w : Cluster n C) (i : Fin n) :
    (w.startElection i).requests = w.requests ++ (others i).map fun p =>
      .requestVote w.elections.length p (w.peers i).startElection.2 := rfl

/-! ## The cases of a step -/

def dropRequest (w : Cluster n C) (k : Nat) : Cluster n C :=
  { w with requests := w.requests.eraseIdx k }

def dropResponse (w : Cluster n C) (k : Nat) : Cluster n C :=
  { w with responses := w.responses.eraseIdx k }

/-- The reply `k` has been read: the election `e` is now `el`, its peer `rf`. -/
def readVote (w : Cluster n C) (k e : Nat) (el : Election n) (rf : Peer n C) (started : Bool) :
    Cluster n C :=
  ({ w.dropResponse k with elections := w.elections.set e el }.setPeer el.src rf).goHeartbeat
    el.src started

@[simp] theorem readVote_peers (w : Cluster n C) (k e : Nat) (el : Election n) (rf : Peer n C)
    (started : Bool) :
    (w.readVote k e el rf started).peers = Function.update w.peers el.src rf := by
  simp [readVote, setPeer, dropResponse]

@[simp] theorem readVote_elections (w : Cluster n C) (k e : Nat) (el : Election n)
    (rf : Peer n C) (started : Bool) :
    (w.readVote k e el rf started).elections = w.elections.set e el := by
  simp [readVote, setPeer]

@[simp] theorem readVote_workers (w : Cluster n C) (k e : Nat) (el : Election n)
    (rf : Peer n C) (started : Bool) :
    (w.readVote k e el rf started).workers = w.workers := by
  simp [readVote, setPeer, dropResponse]

@[simp] theorem readVote_requests (w : Cluster n C) (k e : Nat) (el : Election n)
    (rf : Peer n C) (started : Bool) :
    (w.readVote k e el rf started).requests = w.requests := by
  simp [readVote, setPeer, dropResponse]

@[simp] theorem readVote_responses (w : Cluster n C) (k e : Nat) (el : Election n)
    (rf : Peer n C) (started : Bool) :
    (w.readVote k e el rf started).responses = w.responses.eraseIdx k := by
  simp [readVote, setPeer, dropResponse]

@[simp] theorem readVote_incarnation (w : Cluster n C) (k e : Nat) (el : Election n)
    (rf : Peer n C) (started : Bool) :
    (w.readVote k e el rf started).incarnation = w.incarnation := by
  simp [readVote, setPeer, dropResponse]

@[simp] theorem readVote_sending (w : Cluster n C) (k e : Nat) (el : Election n)
    (rf : Peer n C) (started : Bool) :
    (w.readVote k e el rf started).sending = w.sending := by
  simp [readVote, setPeer, dropResponse]

@[simp] theorem readVote_applyCh (w : Cluster n C) (k e : Nat) (el : Election n)
    (rf : Peer n C) (started : Bool) :
    (w.readVote k e el rf started).applyCh = w.applyCh := by
  simp [readVote, setPeer, dropResponse]

@[simp] theorem readVote_loaded (w : Cluster n C) (k e : Nat) (el : Election n)
    (rf : Peer n C) (started : Bool) :
    (w.readVote k e el rf started).loaded = w.loaded := by
  simp [readVote, setPeer, dropResponse]

@[simp] theorem readVote_history (w : Cluster n C) (k e : Nat) (el : Election n)
    (rf : Peer n C) (started : Bool) :
    (w.readVote k e el rf started).history = w.history := by
  simp [readVote, setPeer, dropResponse]

inductive Trans (w : Cluster n C) : Action n C → Cluster n C → Prop
  | tickHeartbeat (i : Fin n) (elapsed timeout : Nat) :
      (w.peers i).status = .leader → Trans w (.tick i elapsed timeout) (w.goHeartbeat i true)
  | tickElection (i : Fin n) (elapsed timeout : Nat) :
      (w.peers i).status ≠ .leader → n > 1 →
      Trans w (.tick i elapsed timeout) (w.startElection i)
  | tickIdle (i : Fin n) (elapsed timeout : Nat) : Trans w (.tick i elapsed timeout) w
  | start (i : Fin n) (command : Option C) :
      Trans w (.start i command)
        ((w.setPeer i ((w.peers i).start command).1).goHeartbeat i
          ((w.peers i).start command).2.2.2)
  | snapshot (i : Fin n) (index : Int) (data : Bytes) :
      Trans w (.snapshot i index data) (w.setPeer i ((w.peers i).snapshot index data))
  | heartbeatRun (k : Nat) (i : Fin n) (inc : Nat) :
      w.heartbeats[k]? = some (i, inc) → inc = w.incarnation i → (w.peers i).status = .leader →
      Trans w (.sendHeartbeat k)
        { w with
          heartbeats := w.heartbeats.eraseIdx k
          workers := w.workers ++ (others i).map fun p =>
            { src := i, incarnation := inc, peer := p, pc := .start } }
  | heartbeatQuit (k : Nat) :
      Trans w (.sendHeartbeat k) { w with heartbeats := w.heartbeats.eraseIdx k }
  | workerMoves (k : Nat) (wk : Worker n) (pc : WorkerPc) :
      w.workers[k]? = some wk → wk.incarnation = w.incarnation wk.src →
      wk.pc = .start ∧ (w.peers wk.src).heartbeatWorker wk.peer = .quit ∧ pc = .cleanup ∨
        wk.pc = .start ∧ (w.peers wk.src).heartbeatWorker wk.peer = .sendSnapshot ∧
          pc = .setFlag ∨
        wk.pc = .installSnapshot ∧ (w.peers wk.src).installSnapshotArgs wk.peer = none ∧
          pc = .cleanup →
      Trans w (.worker k) (w.setWorker k wk pc)
  | workerEntries (k : Nat) (wk : Worker n) (args : AppendEntriesArgs n C) :
      w.workers[k]? = some wk → wk.incarnation = w.incarnation wk.src → wk.pc = .start →
      (w.peers wk.src).heartbeatWorker wk.peer = .sendEntries args →
      Trans w (.worker k)
        (((w.setWorker k wk .calling).request (.appendEntries k wk.peer args)).note [.called k])
  | workerFlag (k : Nat) (wk : Worker n) (flag : Bool) (pc : WorkerPc) :
      w.workers[k]? = some wk → wk.incarnation = w.incarnation wk.src →
      wk.pc = .setFlag ∧ flag = true ∧ pc = .installSnapshot ∨
        wk.pc = .cleanup ∧ flag = false ∧ pc = .done →
      Trans w (.worker k)
        ((w.setPeer wk.src ((w.peers wk.src).setReplicating wk.peer flag)).setWorker k wk pc)
  | workerSnapshot (k : Nat) (wk : Worker n) (args : InstallSnapshotArgs n) :
      w.workers[k]? = some wk → wk.incarnation = w.incarnation wk.src →
      wk.pc = .installSnapshot →
      (w.peers wk.src).installSnapshotArgs wk.peer = some args →
      Trans w (.worker k)
        (((w.setWorker k wk .calling).request (.installSnapshot k wk.peer args)).note
          [.called k])
  | deliverVote (k e : Nat) (dst : Fin n) (args : RequestVoteArgs n) :
      w.requests[k]? = some (.requestVote e dst args) →
      Trans w (.deliver k)
        ((((w.dropRequest k).setPeer dst ((w.peers dst).requestVote args).1).respond
          (.requestVote e dst args ((w.peers dst).requestVote args).2)).note
          (voteOf dst args ((w.peers dst).requestVote args).2))
  | deliverEntries (k m : Nat) (dst : Fin n) (args : AppendEntriesArgs n C) :
      w.requests[k]? = some (.appendEntries m dst args) →
      Trans w (.deliver k)
        (((w.dropRequest k).setPeer dst ((w.peers dst).appendEntries args).1).respond
          (.appendEntries m dst args ((w.peers dst).appendEntries args).2))
  | deliverSnapshot (k m : Nat) (dst : Fin n) (args : InstallSnapshotArgs n) :
      w.requests[k]? = some (.installSnapshot m dst args) →
      Trans w (.deliver k)
        (((w.dropRequest k).setPeer dst ((w.peers dst).installSnapshot args).1).respond
          (.installSnapshot m dst args ((w.peers dst).installSnapshot args).2))
  | receiveVote (k e : Nat) (dst : Fin n) (args : RequestVoteArgs n)
      (reply : RequestVoteReply) (el : Election n) (rf : Peer n C) (votes : Nat)
      (started : Bool) :
      w.responses[k]? = some (.requestVote e dst args reply) →
      w.elections[e]? = some el → el.incarnation = w.incarnation el.src →
      el.waiting dst = true →
      (w.peers el.src).handleRequestVoteReply el.args reply el.votes = (rf, votes, started) →
      Trans w (.receive k)
        (w.readVote k e
          { el with votes := votes, waiting := Function.update el.waiting dst false } rf started)
  | receiveEntries (k m : Nat) (dst : Fin n) (args : AppendEntriesArgs n C)
      (reply : AppendEntriesReply) (wk : Worker n) :
      w.responses[k]? = some (.appendEntries m dst args reply) →
      w.workers[m]? = some wk → wk.incarnation = w.incarnation wk.src → wk.pc = .calling →
      Trans w (.receive k)
        ((((w.dropResponse k).setPeer wk.src
          ((w.peers wk.src).handleAppendEntriesReply dst args reply)).setWorker m wk
            .cleanup).note (successOf wk.src dst reply))
  | receiveSnapshot (k m : Nat) (dst : Fin n) (args : InstallSnapshotArgs n)
      (reply : InstallSnapshotReply) (wk : Worker n) :
      w.responses[k]? = some (.installSnapshot m dst args reply) →
      w.workers[m]? = some wk → wk.incarnation = w.incarnation wk.src → wk.pc = .calling →
      Trans w (.receive k)
        ((((w.dropResponse k).setPeer wk.src
          ((w.peers wk.src).handleInstallSnapshotReply dst args reply)).setWorker m wk
            .cleanup).note [.acknowledged wk.src dst])
  | callFails (k : Nat) (wk : Worker n) :
      w.workers[k]? = some wk → wk.incarnation = w.incarnation wk.src → wk.pc = .calling →
      Trans w (.callFails k) (w.setWorker k wk .cleanup)
  | voteFails (e : Nat) (peer : Fin n) (el : Election n) :
      w.elections[e]? = some el →
      Trans w (.voteFails e peer)
        { w with
          elections := w.elections.set e
            { el with waiting := Function.update el.waiting peer false } }
  | apply (i : Fin n) (rf : Peer n C) (msgs : List (ApplyMsg C)) :
      w.sending i = [] → (w.peers i).applyCommitted = some (rf, msgs) →
      Trans w (.apply i)
        { w.setPeer i rf with sending := Function.update w.sending i msgs }
  | send (i : Fin n) (msg : ApplyMsg C) (rest : List (ApplyMsg C)) :
      w.sending i = msg :: rest →
      Trans w (.send i)
        { w with
          sending := Function.update w.sending i rest
          applyCh := Function.update w.applyCh i
            (Function.update (w.applyCh i) (w.incarnation i)
              (w.applyCh i (w.incarnation i) ++ [msg])) }
  | crash (i : Fin n) : Trans w (.crash i) (w.crash i)

theorem callingWorker_eq_some {w : Cluster n C} {k : Nat} {wk : Worker n}
    (h : w.callingWorker k = some wk) :
    w.workers[k]? = some wk ∧ wk.incarnation = w.incarnation wk.src ∧ wk.pc = .calling := by
  obtain ⟨hk, hguard⟩ := Option.filter_eq_some_iff.mp h
  exact ⟨hk, of_decide_eq_true hguard⟩

theorem trans_of_step {w w' : Cluster n C} {a : Action n C} (h : w.step a = some w') :
    Trans w a w' := by
  cases a with
  | tick i elapsed timeout =>
      simp only [step, ticker] at h
      split at h
      · cases h
      · split at h
        · next hlead =>
            cases h
            exact .tickHeartbeat i elapsed timeout hlead.1
        · split at h
          · next hguard hnot htime =>
              cases h
              -- a leader with this much time elapsed took the branch above
              refine .tickElection i elapsed timeout (fun hlead => hnot ⟨hlead, ?_⟩) htime.2
              omega
          · cases h
            exact .tickIdle i elapsed timeout
  | start i command =>
      cases h
      exact .start i command
  | snapshot i index data =>
      cases h
      exact .snapshot i index data
  | sendHeartbeat k =>
      simp only [step, sendHeartbeat] at h
      split at h
      · cases h
      · next i inc hk =>
          split at h
          · next hguard =>
              cases h
              exact .heartbeatRun k i inc hk hguard.1 hguard.2
          · cases h
            exact .heartbeatQuit k
  | worker k =>
      simp only [step, runWorker] at h
      split at h
      · cases h
      · next wk hk =>
          split at h
          · cases h
          · next hinc =>
              have hinc := not_not.mp hinc
              split at h
              · next hpc =>
                  split at h
                  · next hquit =>
                      cases h
                      exact .workerMoves k wk _ hk hinc (.inl ⟨hpc, hquit, rfl⟩)
                  · next hsnap =>
                      cases h
                      exact .workerMoves k wk _ hk hinc (.inr (.inl ⟨hpc, hsnap, rfl⟩))
                  · next args hargs =>
                      cases h
                      exact .workerEntries k wk args hk hinc hpc hargs
              · next hpc =>
                  cases h
                  exact .workerFlag k wk true _ hk hinc (.inl ⟨hpc, rfl, rfl⟩)
              · next hpc =>
                  split at h
                  · next hnone =>
                      cases h
                      exact .workerMoves k wk _ hk hinc (.inr (.inr ⟨hpc, hnone, rfl⟩))
                  · next args hargs =>
                      cases h
                      exact .workerSnapshot k wk args hk hinc hpc hargs
              · next hpc =>
                  cases h
                  exact .workerFlag k wk false _ hk hinc (.inr ⟨hpc, rfl, rfl⟩)
              · cases h
              · cases h
  | deliver k =>
      simp only [step, deliver] at h
      split at h
      · cases h
      · next r hk =>
          split at h
          · next e dst args =>
              cases h
              exact .deliverVote k e dst args hk
          · next m dst args =>
              cases h
              exact .deliverEntries k m dst args hk
          · next m dst args =>
              cases h
              exact .deliverSnapshot k m dst args hk
  | receive k =>
      simp only [step, receive] at h
      split at h
      · cases h
      · next r hk =>
          split at h
          · next e dst args reply =>
              split at h
              · cases h
              · next el hel =>
                  split at h
                  · next hguard =>
                      cases h
                      exact .receiveVote k e dst args reply el _ _ _ hk hel hguard.1 hguard.2 rfl
                  · cases h
          · next m dst args reply =>
              split at h
              · cases h
              · next wk hwk =>
                  cases h
                  obtain ⟨hm, hinc, hpc⟩ := callingWorker_eq_some hwk
                  exact .receiveEntries k m dst args reply wk hk hm hinc hpc
          · next m dst args reply =>
              split at h
              · cases h
              · next wk hwk =>
                  cases h
                  obtain ⟨hm, hinc, hpc⟩ := callingWorker_eq_some hwk
                  exact .receiveSnapshot k m dst args reply wk hk hm hinc hpc
  | callFails k =>
      simp only [step, callFails] at h
      split at h
      · cases h
      · next wk hwk =>
          cases h
          obtain ⟨hk, hinc, hpc⟩ := callingWorker_eq_some hwk
          exact .callFails k wk hk hinc hpc
  | voteFails e peer =>
      simp only [step, voteFails] at h
      split at h
      · cases h
      · next el hel =>
          cases h
          exact .voteFails e peer el hel
  | apply i =>
      simp only [step, apply] at h
      split at h
      · cases h
      · next hsend =>
          split at h
          · cases h
          · next rf msgs happly =>
              cases h
              exact .apply i rf msgs (not_not.mp hsend) happly
  | send i =>
      simp only [step, send] at h
      split at h
      · cases h
      · next msg rest hsend =>
          cases h
          exact .send i msg rest hsend
  | crash i =>
      cases h
      exact .crash i

end Cluster
end Raft
end Labs
