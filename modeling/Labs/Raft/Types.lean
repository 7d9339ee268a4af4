import Labs.Consensus.Model

/-!
# The data of a Raft peer

Indices and terms are integers, as in the source, since `-1` is used both as the
term of an empty log and as the answer for an index outside the log.  `VotedFor`
is an optional peer where the source writes `-1` for none.  A `Command` is an
`interface{}`, whose `nil` is `none`.  Times are not kept: the steps that compare
them take the elapsed time as an argument.
-/

namespace Labs
namespace Raft

abbrev Bytes := List UInt8

abbrev LogEntry (C : Type) := Consensus.Entry Int (Option C)

/-- The entry at physical index 0, which stands for the compacted part. -/
def placeholder {C : Type} (t : Int) : LogEntry C := { term := t, command := none }

inductive Status where
  | leader
  | candidate
  | follower
  deriving DecidableEq, Repr

structure ApplyMsg (C : Type) where
  commandValid : Bool := false
  command : Option C := none
  commandIndex : Int := 0
  snapshotValid : Bool := false
  snapshot : Bytes := []
  snapshotTerm : Int := 0
  snapshotIndex : Int := 0
  deriving DecidableEq, Repr

/-- What `persist` encodes. -/
structure RaftState (n : Nat) (C : Type) where
  currentTerm : Int
  votedFor : Option (Fin n)
  log : List (LogEntry C)
  lastIncludedIndex : Int
  lastIncludedTerm : Int

/-- The two blobs on disk; `none` is the empty `raftstate` of a first boot. -/
structure Persister (n : Nat) (C : Type) where
  raftstate : Option (RaftState n C) := none
  snapshot : Bytes := []

namespace Persister

variable {n : Nat} {C : Type}

def makePersister : Persister n C := {}

def save (_ps : Persister n C) (raftstate : RaftState n C) (snapshot : Bytes) :
    Persister n C :=
  { raftstate := some raftstate, snapshot := snapshot }

def readRaftState (ps : Persister n C) : Option (RaftState n C) := ps.raftstate

def readSnapshot (ps : Persister n C) : Bytes := ps.snapshot

end Persister

/-- A single Raft peer, with the disk it was made with. -/
structure Peer (n : Nat) (C : Type) where
  persister : Persister n C
  me : Fin n
  currentTerm : Int
  votedFor : Option (Fin n)
  log : List (LogEntry C)
  commitIndex : Int
  lastApplied : Int
  isReplicating : Fin n → Bool
  status : Status
  nextIndex : Fin n → Int
  matchIndex : Fin n → Int
  snapshotBytes : Bytes
  lastIncludedIndex : Int
  lastIncludedTerm : Int
  applySnapshot : Bool

structure RequestVoteArgs (n : Nat) where
  term : Int
  candidateId : Fin n
  lastLogIndex : Int
  lastLogTerm : Int

structure RequestVoteReply where
  term : Int := 0
  voteGranted : Bool := false
  deriving DecidableEq, Repr

structure AppendEntriesArgs (n : Nat) (C : Type) where
  term : Int
  leaderId : Fin n
  prevLogIndex : Int
  prevLogTerm : Int
  entries : List (LogEntry C)
  leaderCommit : Int

structure AppendEntriesReply where
  term : Int := 0
  success : Bool := false
  xTerm : Int := 0
  xIndex : Int := 0
  xLen : Int := 0
  deriving DecidableEq, Repr

structure InstallSnapshotArgs (n : Nat) where
  term : Int
  leaderId : Fin n
  lastIncludedIndex : Int
  lastIncludedTerm : Int
  data : Bytes

structure InstallSnapshotReply where
  term : Int := 0
  deriving DecidableEq, Repr

end Raft
end Labs
