import Labs.Raft.View
import Labs.Raft.Votes

/-!
# One peer on its own

A peer sees the rest of the cluster through the arguments of its critical sections.
`Peer.run` takes one of them, with any arguments, or kills the peer and makes it again
from its persister.  Whatever a cluster does, each of its peers goes through such
sections (`Cluster.peer_path`), so what holds along all of them holds in the cluster:
a restart brings back all that a peer had promised, and its snapshot only moves
forward, together with the index it ends at.
-/

namespace Labs
namespace Raft

variable {n : Nat} {C : Type}

/-- The critical sections of a peer, and `make` for a crash and a restart. -/
inductive Section (n : Nat) (C : Type) where
  | requestVote (args : RequestVoteArgs n)
  | appendEntries (args : AppendEntriesArgs n C)
  | installSnapshot (args : InstallSnapshotArgs n)
  | snapshot (index : Int) (data : Bytes)
  | start (command : Option C)
  | startElection
  | handleRequestVoteReply (args : RequestVoteArgs n) (reply : RequestVoteReply) (votes : Nat)
  | handleAppendEntriesReply (peer : Fin n) (args : AppendEntriesArgs n C)
      (reply : AppendEntriesReply)
  | handleInstallSnapshotReply (peer : Fin n) (args : InstallSnapshotArgs n)
      (reply : InstallSnapshotReply)
  | setReplicating (peer : Fin n) (flag : Bool)
  | applyCommitted
  | make

/-- The snapshot that a section offers to the peer. -/
def Section.offers : Section n C → Option (Int × Bytes)
  | .snapshot index data => some (index, data)
  | .installSnapshot args => some (args.lastIncludedIndex, args.data)
  | _ => none

namespace Peer

def run (rf : Peer n C) : Section n C → Option (Peer n C)
  | .requestVote args => some (rf.requestVote args).1
  | .appendEntries args => some (rf.appendEntries args).1
  | .installSnapshot args => some (rf.installSnapshot args).1
  | .snapshot index data => some (rf.snapshot index data)
  | .start command => some (rf.start command).1
  | .startElection => some rf.startElection.1
  | .handleRequestVoteReply args reply votes =>
    some (rf.handleRequestVoteReply args reply votes).1
  | .handleAppendEntriesReply peer args reply =>
    some (rf.handleAppendEntriesReply peer args reply)
  | .handleInstallSnapshotReply peer args reply =>
    some (rf.handleInstallSnapshotReply peer args reply)
  | .setReplicating peer flag => some (rf.setReplicating peer flag)
  | .applyCommitted => rf.applyCommitted.map Prod.fst
  | .make => some (make rf.me rf.persister)

theorem Saved.run {rf rf' : Peer n C} {s : Section n C} (h : rf.Saved)
    (hs : rf.run s = some rf') : rf'.Saved := by
  cases s with
  | requestVote args =>
      cases hs
      exact h.requestVote args
  | appendEntries args =>
      cases hs
      exact h.appendEntries args
  | installSnapshot args =>
      cases hs
      exact h.installSnapshot args
  | snapshot index data =>
      cases hs
      exact h.snapshot index data
  | start command =>
      cases hs
      exact h.start command
  | startElection =>
      cases hs
      exact saved_startElection rf
  | handleRequestVoteReply args reply votes =>
      cases hs
      exact h.handleRequestVoteReply args reply votes
  | handleAppendEntriesReply peer args reply =>
      cases hs
      exact h.handleAppendEntriesReply peer args reply
  | handleInstallSnapshotReply peer args reply =>
      cases hs
      exact h.handleInstallSnapshotReply peer args reply
  | setReplicating peer flag =>
      cases hs
      exact h
  | applyCommitted =>
      obtain ⟨⟨r, msgs⟩, happly, rfl⟩ := Option.map_eq_some_iff.mp hs
      exact h.applyCommitted happly
  | make =>
      cases hs
      exact saved_make _ _

/-! ## Where a snapshot comes from -/

/-- The peer is the same one, with the same snapshot. -/
structure SameSnapshot (rf rf' : Peer n C) : Prop where
  me : rf'.me = rf.me
  index : rf'.lastIncludedIndex = rf.lastIncludedIndex
  bytes : rf'.snapshotBytes = rf.snapshotBytes

theorem SameSnapshot.refl (rf : Peer n C) : SameSnapshot rf rf := ⟨rfl, rfl, rfl⟩

theorem sameSnapshot_stepDown (rf : Peer n C) (newTerm : Int) :
    SameSnapshot rf (rf.stepDown newTerm).1 := by
  unfold stepDown
  split
  · exact SameSnapshot.refl rf
  · exact ⟨rfl, rfl, rfl⟩

theorem sameSnapshot_requestVote (rf : Peer n C) (args : RequestVoteArgs n) :
    SameSnapshot rf (rf.requestVote args).1 := by
  have hdown := sameSnapshot_stepDown rf args.term
  rcases requestVote_cases rf args with ⟨-, heq⟩ | ⟨-, -, -, -, heq⟩
  · rw [heq]
    exact hdown
  · rw [heq]
    exact ⟨hdown.me, hdown.index, hdown.bytes⟩

theorem sameSnapshot_handleRequestVoteReply (rf : Peer n C) (args : RequestVoteArgs n)
    (reply : RequestVoteReply) (votes : Nat) :
    SameSnapshot rf (rf.handleRequestVoteReply args reply votes).1 := by
  rcases handleRequestVoteReply_frame rf args reply votes with
    heq | ⟨status, next, known, heq, -⟩
  · rw [heq]
    exact sameSnapshot_stepDown rf _
  · rw [heq]
    exact ⟨rfl, rfl, rfl⟩

theorem sameSnapshot_appendEntries (rf : Peer n C) (args : AppendEntriesArgs n C) :
    SameSnapshot rf (rf.appendEntries args).1 := by
  have hdown := sameSnapshot_stepDown rf args.term
  unfold appendEntries
  split
  · exact SameSnapshot.refl rf
  · dsimp only
    split
    · exact ⟨hdown.me, hdown.index, hdown.bytes⟩
    · unfold updateFollowerCommitIndex
      split
      · split <;> exact ⟨hdown.me, hdown.index, hdown.bytes⟩
      · exact ⟨hdown.me, hdown.index, hdown.bytes⟩

theorem sameSnapshot_start (rf : Peer n C) (command : Option C) :
    SameSnapshot rf (rf.start command).1 := by
  unfold start
  split
  · exact SameSnapshot.refl rf
  · exact ⟨rfl, rfl, rfl⟩

theorem sameSnapshot_handleAppendEntriesReply (rf : Peer n C) (peer : Fin n)
    (args : AppendEntriesArgs n C) (reply : AppendEntriesReply) :
    SameSnapshot rf (rf.handleAppendEntriesReply peer args reply) := by
  rcases handleAppendEntriesReply_frame rf peer args reply with
    heq | ⟨next, known, commit, heq⟩
  · rw [heq]
    exact sameSnapshot_stepDown rf _
  · rw [heq]
    exact ⟨rfl, rfl, rfl⟩

theorem sameSnapshot_handleInstallSnapshotReply (rf : Peer n C) (peer : Fin n)
    (args : InstallSnapshotArgs n) (reply : InstallSnapshotReply) :
    SameSnapshot rf (rf.handleInstallSnapshotReply peer args reply) := by
  rcases handleInstallSnapshotReply_frame rf peer args reply with heq | ⟨next, known, heq⟩
  · rw [heq]
    exact sameSnapshot_stepDown rf _
  · rw [heq]
    exact ⟨rfl, rfl, rfl⟩

theorem sameSnapshot_applyCommitted {rf rf' : Peer n C} {msgs : List (ApplyMsg C)}
    (h : rf.applyCommitted = some (rf', msgs)) : SameSnapshot rf rf' := by
  obtain ⟨applied, flag, rfl⟩ := applyCommitted_frame h
  exact ⟨rfl, rfl, rfl⟩

/-- A restart finds the snapshot on disk. -/
theorem Saved.sameSnapshot_make {rf : Peer n C} (h : rf.Saved) :
    SameSnapshot rf (make rf.me rf.persister) :=
  ⟨make_me _ _, h.2.2.2.1, h.2.2.2.2.2⟩

/-- The snapshot of a peer is the one offered, which is a later one. -/
structure TakesSnapshot (rf rf' : Peer n C) (index : Int) (data : Bytes) : Prop where
  me : rf'.me = rf.me
  later : rf.lastIncludedIndex < index
  index : rf'.lastIncludedIndex = index
  bytes : rf'.snapshotBytes = data

theorem snapshot_cases (rf : Peer n C) (index : Int) (data : Bytes) :
    SameSnapshot rf (rf.snapshot index data) ∨
      TakesSnapshot rf (rf.snapshot index data) index data := by
  unfold snapshot
  split
  · exact .inl (SameSnapshot.refl rf)
  · next hlater =>
      dsimp only
      split <;> exact .inr ⟨rfl, by omega, rfl, rfl⟩

theorem installSnapshot_cases (rf : Peer n C) (args : InstallSnapshotArgs n) :
    SameSnapshot rf (rf.installSnapshot args).1 ∨
      TakesSnapshot rf (rf.installSnapshot args).1 args.lastIncludedIndex args.data := by
  unfold installSnapshot
  dsimp only
  split
  · exact .inl (SameSnapshot.refl rf)
  · split
    · exact .inl ⟨rfl, rfl, rfl⟩
    · next hlater => exact .inr ⟨rfl, by omega, rfl, rfl⟩

theorem run_cases {rf rf' : Peer n C} {s : Section n C} (h : rf.Saved)
    (hs : rf.run s = some rf') :
    SameSnapshot rf rf' ∨
      ∃ index data, s.offers = some (index, data) ∧ TakesSnapshot rf rf' index data := by
  cases s with
  | requestVote args =>
      cases hs
      exact .inl (sameSnapshot_requestVote rf args)
  | appendEntries args =>
      cases hs
      exact .inl (sameSnapshot_appendEntries rf args)
  | installSnapshot args =>
      cases hs
      exact (installSnapshot_cases rf args).imp_right fun ht => ⟨_, _, rfl, ht⟩
  | snapshot index data =>
      cases hs
      exact (snapshot_cases rf index data).imp_right fun ht => ⟨_, _, rfl, ht⟩
  | start command =>
      cases hs
      exact .inl (sameSnapshot_start rf command)
  | startElection =>
      cases hs
      exact .inl ⟨rfl, rfl, rfl⟩
  | handleRequestVoteReply args reply votes =>
      cases hs
      exact .inl (sameSnapshot_handleRequestVoteReply rf args reply votes)
  | handleAppendEntriesReply peer args reply =>
      cases hs
      exact .inl (sameSnapshot_handleAppendEntriesReply rf peer args reply)
  | handleInstallSnapshotReply peer args reply =>
      cases hs
      exact .inl (sameSnapshot_handleInstallSnapshotReply rf peer args reply)
  | setReplicating peer flag =>
      cases hs
      exact .inl ⟨rfl, rfl, rfl⟩
  | applyCommitted =>
      obtain ⟨⟨r, msgs⟩, happly, rfl⟩ := Option.map_eq_some_iff.mp hs
      exact .inl (sameSnapshot_applyCommitted happly)
  | make =>
      cases hs
      exact .inl h.sameSnapshot_make

/-! ## Runs of a peer -/

/-- What every section keeps. -/
structure Durable (i : Fin n) (rf : Peer n C) : Prop where
  me : rf.me = i
  saved : rf.Saved
  index : 0 ≤ rf.lastIncludedIndex

theorem durable_make (i : Fin n) : Durable i (make i (Persister.makePersister (C := C))) where
  me := make_me _ _
  saved := saved_make _ _
  index := le_refl _

theorem Durable.run {i : Fin n} {rf rf' : Peer n C} {s : Section n C} (h : Durable i rf)
    (hs : rf.run s = some rf') :
    Durable i rf' ∧ rf.lastIncludedIndex ≤ rf'.lastIncludedIndex := by
  have hsaved := h.saved.run hs
  have hpos := h.index
  rcases run_cases h.saved hs with hsame | ⟨index, data, -, htake⟩
  · have hindex := hsame.index
    exact ⟨⟨hsame.me.trans h.me, hsaved, by omega⟩, by omega⟩
  · have hindex := htake.index
    have hlater := htake.later
    exact ⟨⟨htake.me.trans h.me, hsaved, by omega⟩, by omega⟩

theorem Durable.path {i : Fin n} {rf : Peer n C}
    (h : Run.Path Peer.run Run.always (make i Persister.makePersister) rf) : Durable i rf :=
  h.invariant (fun _ _ _ hd _ hs => (hd.run hs).1) (durable_make i)

/-- A peer that is killed between two critical sections comes back with its persistent
state and its snapshot, and with the snapshot applied. -/
theorem make_restores {i : Fin n} {rf : Peer n C}
    (h : Run.Path run Run.always (make i Persister.makePersister) rf) :
    (make i rf.persister).currentTerm = rf.currentTerm ∧
      (make i rf.persister).votedFor = rf.votedFor ∧
      (make i rf.persister).log = rf.log ∧
      (make i rf.persister).lastIncludedIndex = rf.lastIncludedIndex ∧
      (make i rf.persister).lastIncludedTerm = rf.lastIncludedTerm ∧
      (make i rf.persister).snapshotBytes = rf.snapshotBytes ∧
      (make i rf.persister).commitIndex = rf.lastIncludedIndex ∧
      (make i rf.persister).lastApplied = rf.lastIncludedIndex := by
  have hd := Durable.path h
  have hsaved := hd.saved
  unfold Saved at hsaved
  rw [hd.me] at hsaved
  obtain ⟨hterm, hvote, hlog, hindex, hiterm, hbytes⟩ := hsaved
  obtain ⟨hcommit, happlied⟩ := make_commitIndex i rf.persister
  have hmax : max 0 (make i rf.persister).lastIncludedIndex = rf.lastIncludedIndex := by
    rw [hindex, max_eq_right hd.index]
  exact ⟨hterm, hvote, hlog, hindex, hiterm, hbytes, hcommit.trans hmax, happlied.trans hmax⟩

/-- Peer 0 follows a leader of term 2, is sent two entries and a snapshot that covers the
first, applies it, restarts, compacts the second and votes in term 3. -/
def followed : List (Section 3 Nat) :=
  [.appendEntries
    { term := 2, leaderId := 1, prevLogIndex := 0, prevLogTerm := -1, leaderCommit := 2,
      entries := [{ term := 1, command := some 7 }, { term := 2, command := some 8 }] },
   .installSnapshot
    { term := 2, leaderId := 1, lastIncludedIndex := 1, lastIncludedTerm := 1, data := [5] },
   .applyCommitted, .make, .snapshot 2 [6],
   .requestVote { term := 3, candidateId := 2, lastLogIndex := 2, lastLogTerm := 2 }]

theorem make_restores_followed : ∃ rf : Peer 3 Nat,
    Run.Path run Run.always (make 0 Persister.makePersister) rf ∧
    rf.votedFor = some 2 ∧ (make 0 rf.persister).votedFor = some 2 ∧
    (make 0 rf.persister).lastApplied = 2 := by
  have hrun : (Run.exec run Run.always (make 0 Persister.makePersister) followed).map
      (fun rf => (rf.votedFor, rf.lastIncludedIndex)) = some (some 2, 2) := by
    decide +kernel
  obtain ⟨rf, hpath, hend⟩ := Run.path_of_exec_map followed _ hrun
  obtain ⟨hvoted, hindex⟩ := Prod.mk.inj hend
  obtain ⟨-, hvote, -, -, -, -, -, happlied⟩ := make_restores hpath
  exact ⟨rf, hpath, hvoted, hvote.trans hvoted, happlied.trans hindex⟩

end Peer

/-! ## The peers of a cluster -/

namespace Cluster

/-- A snapshot that an action offers to peer `i`: its own service takes it, or it is the
one in an `InstallSnapshot` request for it. -/
def Offers (w : Cluster n C) (act : Action n C) (i : Fin n) (index : Int) (data : Bytes) :
    Prop :=
  act = .snapshot i index data ∨ ∃ m args, Request.installSnapshot m i args ∈ w.requests ∧
    args.lastIncludedIndex = index ∧ args.data = data

/-- The peer stands still or goes through a section, which offers it what the action
does. -/
def PeerMoves (w : Cluster n C) (act : Action n C) (i : Fin n) (rf : Peer n C) : Prop :=
  rf = w.peers i ∨ ∃ s : Section n C, (w.peers i).run s = some rf ∧
    ∀ index data, s.offers = some (index, data) → w.Offers act i index data

/-- Where a section of peer `i` has its arguments from. -/
def Issues (w : Cluster n C) (act : Action n C) (i : Fin n) : Section n C → Prop
  | .snapshot index data => act = .snapshot i index data
  | .installSnapshot args => ∃ m, Request.installSnapshot m i args ∈ w.requests
  | .handleRequestVoteReply args reply votes => ∃ k e dst sent el, act = .receive k ∧
      w.responses[k]? = some (.requestVote e dst sent reply) ∧
      w.elections[e]? = some el ∧ el.src = i ∧ el.args = args ∧ el.votes = votes
  | .handleAppendEntriesReply dst args reply => ∃ k m wk, act = .receive k ∧
      w.responses[k]? = some (.appendEntries m dst args reply) ∧
      w.workers[m]? = some wk ∧ wk.src = i
  | .handleInstallSnapshotReply dst args reply => ∃ k m wk, act = .receive k ∧
      w.responses[k]? = some (.installSnapshot m dst args reply) ∧
      w.workers[m]? = some wk ∧ wk.src = i
  | _ => True

/-- The peer stands still or goes through a section that the action gives it. -/
def Goes (w : Cluster n C) (act : Action n C) (i : Fin n) (rf : Peer n C) : Prop :=
  rf = w.peers i ∨ ∃ s : Section n C, (w.peers i).run s = some rf ∧ w.Issues act i s

theorem Goes.of_update {w w' : Cluster n C} {act : Action n C} {j : Fin n} {rf : Peer n C}
    {s : Section n C} (hw : w'.peers = Function.update w.peers j rf)
    (hs : (w.peers j).run s = some rf) (hissue : w.Issues act j s) (i : Fin n) :
    w.Goes act i (w'.peers i) := by
  rw [hw, Function.update_apply]
  split
  · next hi =>
      subst hi
      exact .inr ⟨s, hs, hissue⟩
  · exact .inl rfl

theorem goes_of_step {w w' : Cluster n C} {act : Action n C} (hme : ∀ i, (w.peers i).me = i)
    (hs : w.step act = some w') (i : Fin n) : w.Goes act i (w'.peers i) := by
  cases trans_of_step hs with
  | tickHeartbeat j elapsed timeout hlead => exact .inl (by simp)
  | tickElection j elapsed timeout hnot hn =>
      exact .of_update (s := .startElection) rfl rfl trivial i
  | tickIdle j elapsed timeout => exact .inl rfl
  | start j command =>
      exact .of_update (j := j) (s := .start command) (by simp [setPeer]) rfl trivial i
  | snapshot j index data => exact .of_update (s := .snapshot index data) rfl rfl rfl i
  | heartbeatRun k j inc hk hinc hlead => exact .inl rfl
  | heartbeatQuit k => exact .inl rfl
  | workerMoves k wk pc hk hinc hpc => exact .inl rfl
  | workerEntries k wk args hk hinc hpc hargs => exact .inl rfl
  | workerFlag k wk flag pc hk hinc hpc =>
      exact .of_update (s := .setReplicating wk.peer flag) rfl rfl trivial i
  | workerSnapshot k wk args hk hinc hpc hargs => exact .inl rfl
  | deliverVote k e dst args hk =>
      exact .of_update (s := .requestVote args) rfl rfl trivial i
  | deliverEntries k m dst args hk =>
      exact .of_update (s := .appendEntries args) rfl rfl trivial i
  | deliverSnapshot k m dst args hk =>
      exact .of_update (s := .installSnapshot args) rfl rfl ⟨m, List.mem_of_getElem? hk⟩ i
  | receiveVote k e dst args reply el rf votes started hk hel hinc hwait hreply =>
      refine .of_update (s := .handleRequestVoteReply el.args reply el.votes)
        (readVote_peers ..) ?_ ?_ i
      · simp [Peer.run, hreply]
      · exact ⟨k, e, dst, args, el, rfl, hk, hel, rfl, rfl, rfl⟩
  | receiveEntries k m dst args reply wk hk hm hinc hpc =>
      exact .of_update (s := .handleAppendEntriesReply dst args reply) rfl rfl
        ⟨k, m, wk, rfl, hk, hm, rfl⟩ i
  | receiveSnapshot k m dst args reply wk hk hm hinc hpc =>
      exact .of_update (s := .handleInstallSnapshotReply dst args reply) rfl rfl
        ⟨k, m, wk, rfl, hk, hm, rfl⟩ i
  | callFails k wk hk hinc hpc => exact .inl rfl
  | voteFails e peer el hel => exact .inl rfl
  | apply j rf msgs hsend happly =>
      refine .of_update (s := .applyCommitted) rfl ?_ trivial i
      simp [Peer.run, happly]
  | send j msg rest hsend => exact .inl rfl
  | crash j =>
      refine .of_update (s := .make) rfl ?_ trivial i
      rw [Peer.run, hme j]

theorem Issues.offers {w : Cluster n C} {act : Action n C} {i : Fin n} {s : Section n C}
    (h : w.Issues act i s) {index : Int} {data : Bytes} (hs : s.offers = some (index, data)) :
    w.Offers act i index data := by
  cases s with
  | snapshot index' data' =>
      cases hs
      exact .inl h
  | installSnapshot args =>
      cases hs
      obtain ⟨m, hm⟩ := h
      exact .inr ⟨m, args, hm, rfl, rfl⟩
  | _ => cases hs

theorem peerMoves_of_step {w w' : Cluster n C} {act : Action n C}
    (hme : ∀ i, (w.peers i).me = i) (hs : w.step act = some w') (i : Fin n) :
    w.PeerMoves act i (w'.peers i) := by
  rcases goes_of_step hme hs i with heq | ⟨s, hrun, hissue⟩
  · exact .inl heq
  · exact .inr ⟨s, hrun, fun _ _ hoffer => hissue.offers hoffer⟩

/-- Each peer of a cluster goes through the sections of a peer on its own. -/
theorem peer_path {w : Cluster n C} (h : Run.Path step Run.always init w) (i : Fin n) :
    Run.Path Peer.run Run.always (Peer.make i Persister.makePersister) (w.peers i) := by
  refine h.invariant (P := fun w => ∀ i, Run.Path Peer.run Run.always
    (Peer.make i Persister.makePersister) (w.peers i)) ?_ (fun _ => .refl _) i
  intro w act w' hw _ hs i
  rcases peerMoves_of_step (fun i => (Peer.Durable.path (hw i)).me) hs i with
    heq | ⟨s, hrun, -⟩
  · rw [heq]
    exact hw i
  · exact (hw i).tail trivial hrun

end Cluster
end Raft
end Labs
