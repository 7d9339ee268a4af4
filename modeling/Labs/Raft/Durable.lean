import Labs.Raft.Server

/-!
# What a restart restores

`Saved` says that `Make` on a peer's persister gives back the peer's persistent
fields.  Every critical section keeps it, since each of them ends with `persist` on
every path that changes one of these fields.
-/

namespace Labs
namespace Raft
namespace Peer

variable {n : Nat} {C : Type}

def Saved (rf : Peer n C) : Prop :=
  let r := make rf.me rf.persister
  r.currentTerm = rf.currentTerm ∧ r.votedFor = rf.votedFor ∧ r.log = rf.log ∧
    r.lastIncludedIndex = rf.lastIncludedIndex ∧ r.lastIncludedTerm = rf.lastIncludedTerm ∧
    r.snapshotBytes = rf.snapshotBytes

/-- Reading the persister writes the persistent fields and two volatile ones. -/
theorem readPersist_some (rf : Peer n C) (data : RaftState n C) :
    ∃ applied commit, rf.readPersist (some data) = { rf with
      currentTerm := data.currentTerm
      votedFor := data.votedFor
      log := data.log
      lastIncludedIndex := data.lastIncludedIndex
      lastIncludedTerm := data.lastIncludedTerm
      lastApplied := applied
      commitIndex := commit } := by
  simp only [readPersist]
  split <;> split <;> exact ⟨_, _, rfl⟩

theorem make_of_raftstate {i : Fin n} {ps : Persister n C} {data : RaftState n C}
    (h : ps.raftstate = some data) :
    (make i ps).currentTerm = data.currentTerm ∧ (make i ps).votedFor = data.votedFor ∧
      (make i ps).log = data.log ∧
      (make i ps).lastIncludedIndex = data.lastIncludedIndex ∧
      (make i ps).lastIncludedTerm = data.lastIncludedTerm := by
  simp only [make, Persister.readRaftState, h]
  obtain ⟨applied, commit, hread⟩ := readPersist_some (n := n) (C := C) _ data
  rw [hread]
  exact ⟨rfl, rfl, rfl, rfl, rfl⟩

theorem make_snapshotBytes (i : Fin n) (ps : Persister n C) :
    (make i ps).snapshotBytes = ps.snapshot := rfl

/-- What `readPersist` does not set. -/
theorem readPersist_frame (rf : Peer n C) (data : Option (RaftState n C)) :
    (rf.readPersist data).persister = rf.persister ∧ (rf.readPersist data).me = rf.me ∧
      (rf.readPersist data).status = rf.status ∧
      (rf.readPersist data).applySnapshot = rf.applySnapshot := by
  cases data with
  | none => exact ⟨rfl, rfl, rfl, rfl⟩
  | some data =>
      obtain ⟨applied, commit, hread⟩ := readPersist_some rf data
      rw [hread]
      exact ⟨rfl, rfl, rfl, rfl⟩

theorem make_persister (i : Fin n) (ps : Persister n C) : (make i ps).persister = ps :=
  (readPersist_frame _ _).1

theorem make_me (i : Fin n) (ps : Persister n C) : (make i ps).me = i :=
  (readPersist_frame _ _).2.1

theorem make_status (i : Fin n) (ps : Persister n C) : (make i ps).status = .follower :=
  (readPersist_frame _ _).2.2.1

theorem make_applySnapshot (i : Fin n) (ps : Persister n C) :
    (make i ps).applySnapshot = false :=
  (readPersist_frame _ _).2.2.2

/-- What the snapshot covers counts as committed and applied. -/
theorem make_commitIndex (i : Fin n) (ps : Persister n C) :
    (make i ps).commitIndex = max 0 (make i ps).lastIncludedIndex ∧
      (make i ps).lastApplied = max 0 (make i ps).lastIncludedIndex := by
  simp only [make]
  cases ps.readRaftState with
  | none => exact ⟨rfl, rfl⟩
  | some data =>
      simp only [readPersist]
      split
      · next hpos =>
          exact ⟨(max_eq_right hpos.le).symm, (max_eq_right hpos.le).symm⟩
      · next hpos =>
          exact ⟨(max_eq_left (not_lt.mp hpos)).symm, (max_eq_left (not_lt.mp hpos)).symm⟩

theorem saved_make (i : Fin n) (ps : Persister n C) : (make i ps).Saved := by
  unfold Saved
  rw [make_persister, make_me]
  exact ⟨rfl, rfl, rfl, rfl, rfl, rfl⟩

theorem saved_persist (rf : Peer n C) : rf.persist.Saved := by
  have h : rf.persist.persister.raftstate = some
      { currentTerm := rf.currentTerm
        votedFor := rf.votedFor
        log := rf.log
        lastIncludedIndex := rf.lastIncludedIndex
        lastIncludedTerm := rf.lastIncludedTerm } := rfl
  obtain ⟨h₁, h₂, h₃, h₄, h₅⟩ := make_of_raftstate (i := rf.persist.me) h
  exact ⟨h₁, h₂, h₃, h₄, h₅, rfl⟩

variable {rf : Peer n C}

theorem Saved.stepDown (h : rf.Saved) (newTerm : Int) : (rf.stepDown newTerm).1.Saved := by
  unfold Peer.stepDown
  split
  · exact h
  · exact saved_persist _

theorem Saved.requestVote (h : rf.Saved) (args : RequestVoteArgs n) :
    (rf.requestVote args).1.Saved := by
  rcases lt_or_ge args.term rf.currentTerm with hlt | hle
  · rw [requestVote_of_lt hlt]
    exact h
  · rw [requestVote_of_le hle]
    dsimp only
    split
    · exact saved_persist _
    · exact h.stepDown _

theorem saved_startElection (rf : Peer n C) : rf.startElection.1.Saved :=
  saved_persist _

theorem Saved.becomeLeader (h : rf.Saved) : rf.becomeLeader.1.Saved := by
  unfold Peer.becomeLeader
  split
  · exact h
  · exact h

theorem Saved.handleRequestVoteReply (h : rf.Saved) (args : RequestVoteArgs n)
    (reply : RequestVoteReply) (votes : Nat) :
    (rf.handleRequestVoteReply args reply votes).1.Saved := by
  unfold Peer.handleRequestVoteReply
  split
  · exact h
  · split
    · exact h.stepDown _
    · split
      · exact h
      · dsimp only
        split
        · exact h.becomeLeader
        · exact h

theorem Saved.updateFollowerCommitIndex (h : rf.Saved) (leaderCommit lastNewIndex : Int) :
    (rf.updateFollowerCommitIndex leaderCommit lastNewIndex).Saved := by
  unfold Peer.updateFollowerCommitIndex
  split
  · split
    · exact h
    · exact h
  · exact h

theorem Saved.appendEntries (h : rf.Saved) (args : AppendEntriesArgs n C) :
    (rf.appendEntries args).1.Saved := by
  unfold Peer.appendEntries
  split
  · exact h
  · dsimp only
    split
    · exact h.stepDown args.term
    · exact (saved_persist _).updateFollowerCommitIndex _ _

theorem Saved.snapshot (h : rf.Saved) (index : Int) (data : Bytes) :
    (rf.snapshot index data).Saved := by
  unfold Peer.snapshot
  split
  · exact h
  · dsimp only
    split
    · exact saved_persist _
    · exact saved_persist _

theorem Saved.installSnapshot (h : rf.Saved) (args : InstallSnapshotArgs n) :
    (rf.installSnapshot args).1.Saved := by
  unfold Peer.installSnapshot
  dsimp only
  split
  · exact h
  · split
    · exact saved_persist _
    · exact saved_persist _

theorem Saved.start (h : rf.Saved) (command : Option C) : (rf.start command).1.Saved := by
  unfold Peer.start
  split
  · exact h
  · exact saved_persist _

theorem Saved.commitLoop (h : rf.Saved) (fuel : Nat) (N : Int) : (rf.commitLoop fuel N).Saved := by
  induction fuel generalizing N with
  | zero => exact h
  | succ fuel ih =>
      unfold Peer.commitLoop
      split
      · split
        · exact h
        · exact ih (N - 1)
      · exact h

theorem Saved.updateMatchAndNextIndex (h : rf.Saved) (peer : Fin n) (newMatchIndex : Int) :
    (rf.updateMatchAndNextIndex peer newMatchIndex).Saved := by
  unfold Peer.updateMatchAndNextIndex
  dsimp only
  split
  · exact h
  · exact h

theorem Saved.handleAppendEntriesReply (h : rf.Saved) (peer : Fin n)
    (args : AppendEntriesArgs n C) (reply : AppendEntriesReply) :
    (rf.handleAppendEntriesReply peer args reply).Saved := by
  have hdown := h.stepDown reply.term
  unfold Peer.handleAppendEntriesReply
  split
  · exact h
  · dsimp only
    split
    · exact hdown
    · split
      · exact (hdown.updateMatchAndNextIndex peer _).commitLoop _ _
      · split
        · exact hdown
        · split
          · exact hdown
          · exact hdown

theorem Saved.handleInstallSnapshotReply (h : rf.Saved) (peer : Fin n)
    (args : InstallSnapshotArgs n) (reply : InstallSnapshotReply) :
    (rf.handleInstallSnapshotReply peer args reply).Saved := by
  have hdown := h.stepDown reply.term
  unfold Peer.handleInstallSnapshotReply
  split
  · exact h
  · dsimp only
    split
    · exact hdown
    · exact hdown.updateMatchAndNextIndex peer _

theorem Saved.applyCommitted (h : rf.Saved) {rf' : Peer n C} {msgs : List (ApplyMsg C)}
    (happly : rf.applyCommitted = some (rf', msgs)) : rf'.Saved := by
  unfold Peer.applyCommitted at happly
  split at happly
  · cases happly
  · split at happly
    · cases happly
      exact h
    · cases happly
      exact h

end Peer
end Raft
end Labs
