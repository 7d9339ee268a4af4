import Labs.Raft.Types
import Mathlib.Data.List.FinRange

/-!
# The critical sections of a Raft peer

Each definition is the body of a source function between taking and releasing the
peer's lock, as a function of the state it finds.  Sending a message, starting a
goroutine and the order of these sections belong to the cluster.
-/

namespace Labs
namespace Raft
namespace Peer

variable {n : Nat} {C : Type}

/-! ## Persistence -/

def persist (rf : Peer n C) : Peer n C :=
  let raftstate : RaftState n C :=
    { currentTerm := rf.currentTerm
      votedFor := rf.votedFor
      log := rf.log
      lastIncludedIndex := rf.lastIncludedIndex
      lastIncludedTerm := rf.lastIncludedTerm }
  { rf with persister := rf.persister.save raftstate rf.snapshotBytes }

def readPersist (rf : Peer n C) : Option (RaftState n C) → Peer n C
  | none => rf
  | some data =>
    let rf := { rf with
      currentTerm := data.currentTerm
      votedFor := data.votedFor
      log := data.log
      lastIncludedIndex := data.lastIncludedIndex
      lastIncludedTerm := data.lastIncludedTerm }
    let rf := if rf.lastIncludedIndex > rf.lastApplied then
      { rf with lastApplied := rf.lastIncludedIndex } else rf
    if rf.lastIncludedIndex > rf.commitIndex then
      { rf with commitIndex := rf.lastIncludedIndex } else rf

def make (me : Fin n) (persister : Persister n C) : Peer n C :=
  let rf : Peer n C :=
    { persister := persister
      me := me
      currentTerm := 0
      votedFor := none
      log := [placeholder 0]
      commitIndex := 0
      lastApplied := 0
      isReplicating := fun _ => false
      status := .follower
      nextIndex := fun _ => 1
      matchIndex := fun _ => 0
      snapshotBytes := []
      lastIncludedIndex := 0
      lastIncludedTerm := -1
      applySnapshot := false }
  let rf := rf.readPersist persister.readRaftState
  { rf with snapshotBytes := persister.readSnapshot }

/-! ## Indices and terms -/

def toPhysicalIndex (rf : Peer n C) (logical : Int) : Int :=
  logical - rf.lastIncludedIndex

def termAt (rf : Peer n C) (index : Int) (logical : Bool) : Int :=
  let physicalIndex := if logical then rf.toPhysicalIndex index else index
  if physicalIndex < 0 then -1
  else match rf.log[physicalIndex.toNat]? with
    | none => -1
    | some entry => entry.term

def lastLogIndexTerm (rf : Peer n C) : Int :=
  if rf.log.length > 1 then
    match rf.log.getLast? with
    | some entry => entry.term
    | none => rf.lastIncludedTerm
  else rf.lastIncludedTerm

def lastLogIndex (rf : Peer n C) : Int :=
  rf.log.length - 1 + rf.lastIncludedIndex

def isLogUpToDate (rf : Peer n C) (candidateIndex candidateTerm : Int) : Bool :=
  let myLastIndex := rf.lastLogIndex
  let myLastTerm := rf.lastLogIndexTerm
  if candidateTerm ≠ myLastTerm then candidateTerm > myLastTerm
  else candidateIndex ≥ myLastIndex

/-! ## Terms and votes -/

def stepDown (rf : Peer n C) (newTerm : Int) : Peer n C × Bool :=
  if newTerm ≤ rf.currentTerm then (rf, false)
  else
    let rf := { rf with currentTerm := newTerm, status := .follower, votedFor := none }
    ({ rf.persist with isReplicating := fun _ => false }, true)

def requestVote (rf : Peer n C) (args : RequestVoteArgs n) : Peer n C × RequestVoteReply :=
  if args.term < rf.currentTerm then
    (rf, { term := rf.currentTerm, voteGranted := false })
  else
    let rf := if args.term > rf.currentTerm then (rf.stepDown args.term).1 else rf
    if (rf.votedFor = none ∨ rf.votedFor = some args.candidateId) ∧
        rf.isLogUpToDate args.lastLogIndex args.lastLogTerm then
      let rf := { rf with votedFor := some args.candidateId }.persist
      (rf, { term := rf.currentTerm, voteGranted := true })
    else
      (rf, { term := rf.currentTerm, voteGranted := false })

def startElection (rf : Peer n C) : Peer n C × RequestVoteArgs n :=
  let rf := { rf with
    status := .candidate
    currentTerm := rf.currentTerm + 1
    votedFor := some rf.me }.persist
  (rf, { term := rf.currentTerm
         candidateId := rf.me
         lastLogIndex := rf.lastLogIndex
         lastLogTerm := rf.lastLogIndexTerm })

/-- The flag says that a `sendHeartbeat` goroutine is started. -/
def becomeLeader (rf : Peer n C) : Peer n C × Bool :=
  if rf.status = .leader then (rf, false)
  else
    ({ rf with
        status := .leader
        nextIndex := fun _ => rf.lastIncludedIndex + rf.log.length
        matchIndex := fun _ => rf.lastIncludedIndex }, true)

/-- The new value of the election's vote counter comes with the new state. -/
def handleRequestVoteReply (rf : Peer n C) (args : RequestVoteArgs n)
    (reply : RequestVoteReply) (votes : Nat) : Peer n C × Nat × Bool :=
  if rf.currentTerm ≠ args.term ∨ rf.status ≠ .candidate then (rf, votes, false)
  else if reply.term > rf.currentTerm then ((rf.stepDown reply.term).1, votes, false)
  else if !reply.voteGranted then (rf, votes, false)
  else
    let votes := votes + 1
    if votes > n / 2 then
      let (rf, started) := rf.becomeLeader
      (rf, votes, started)
    else (rf, votes, false)

/-! ## Following a leader -/

/-- The loop that looks for the first index of the conflicting run. -/
def conflictStart (rf : Peer n C) (term : Int) : Nat → Int → Int
  | 0, i => i
  | fuel + 1, i =>
    if i > rf.lastIncludedIndex ∧ rf.termAt i true = term then
      rf.conflictStart term fuel (i - 1)
    else i

/-- `none` when the log matches, else the rejection. -/
def matchPrevLog (rf : Peer n C) (args : AppendEntriesArgs n C) : Option AppendEntriesReply :=
  let lastLogIndex := rf.lastLogIndex
  if args.prevLogIndex > lastLogIndex then
    some { success := false, term := rf.currentTerm, xLen := lastLogIndex + 1 }
  else if args.prevLogIndex = rf.lastIncludedIndex then
    if rf.lastIncludedTerm ≠ args.prevLogTerm then
      some { success := false
             term := rf.currentTerm
             xTerm := rf.lastIncludedTerm
             xIndex := rf.lastIncludedIndex }
    else none
  else
    let term := rf.termAt args.prevLogIndex true
    if term ≠ args.prevLogTerm then
      let i := rf.conflictStart term (args.prevLogIndex - rf.lastIncludedIndex).toNat
        args.prevLogIndex
      some { success := false, term := rf.currentTerm, xTerm := term, xIndex := i + 1 }
    else none

/-- The log after the loop over the entries, of which the first sits at `i`. -/
def mergeEntries (rf : Peer n C) (prevLogIndex : Int) : Nat → List (LogEntry C) →
    List (LogEntry C)
  | _, [] => rf.log
  | i, entry :: rest =>
    let logicalLogIndex := prevLogIndex + 1 + i
    let physicalLogIndex := rf.toPhysicalIndex logicalLogIndex
    if physicalLogIndex < 1 then rf.mergeEntries prevLogIndex (i + 1) rest
    else if physicalLogIndex ≥ rf.log.length then rf.log ++ entry :: rest
    else if rf.termAt physicalLogIndex false ≠ entry.term then
      rf.log.take physicalLogIndex.toNat ++ entry :: rest
    else rf.mergeEntries prevLogIndex (i + 1) rest

def updateFollowerCommitIndex (rf : Peer n C) (leaderCommit lastNewIndex : Int) : Peer n C :=
  if leaderCommit > rf.commitIndex then
    if leaderCommit < lastNewIndex then { rf with commitIndex := leaderCommit }
    else { rf with commitIndex := lastNewIndex }
  else rf

def appendEntries (rf : Peer n C) (args : AppendEntriesArgs n C) :
    Peer n C × AppendEntriesReply :=
  if args.term < rf.currentTerm then (rf, { success := false, term := rf.currentTerm })
  else
    let rf := { (rf.stepDown args.term).1 with status := .follower }
    match rf.matchPrevLog args with
    | some reply => (rf, reply)
    | none =>
      let rf := { rf with log := rf.mergeEntries args.prevLogIndex 0 args.entries }.persist
      let rf := rf.updateFollowerCommitIndex args.leaderCommit
        (args.prevLogIndex + args.entries.length)
      (rf, { term := rf.currentTerm, success := true })

/-! ## Snapshots -/

def snapshot (rf : Peer n C) (index : Int) (snapshot : Bytes) : Peer n C :=
  if index ≤ rf.lastIncludedIndex then rf
  else
    let physicalIndex := rf.toPhysicalIndex index
    if physicalIndex ≥ rf.log.length then
      -- the source changes `lastIncludedIndex` first, but the term is read by
      -- physical index, which that does not move
      { rf with
        lastIncludedIndex := index
        lastIncludedTerm :=
          if rf.log.length > 1 then rf.termAt (rf.log.length - 1) false
          else rf.lastIncludedTerm
        log := [placeholder 0]
        snapshotBytes := snapshot }.persist
    else
      { rf with
        lastIncludedTerm := rf.termAt physicalIndex false
        lastIncludedIndex := index
        log := placeholder 0 :: rf.log.drop (physicalIndex.toNat + 1)
        snapshotBytes := snapshot }.persist

/-- The physical index of the entry that the snapshot ends with, if it is there. -/
def findSnapshotEntry (rf : Peer n C) (args : InstallSnapshotArgs n) : Option Nat :=
  (List.range' 1 (rf.log.length - 1)).find? fun i =>
    (i : Int) + rf.lastIncludedIndex = args.lastIncludedIndex ∧
      rf.termAt i false = args.lastIncludedTerm

def installSnapshot (rf : Peer n C) (args : InstallSnapshotArgs n) :
    Peer n C × InstallSnapshotReply :=
  let reply : InstallSnapshotReply := { term := rf.currentTerm }
  if args.term < rf.currentTerm then (rf, reply)
  else
    let rf := { rf with currentTerm := args.term, votedFor := none, status := .follower }
    if args.lastIncludedIndex ≤ rf.lastIncludedIndex then (rf.persist, reply)
    else
      let log := match rf.findSnapshotEntry args with
        | some i => placeholder args.lastIncludedTerm :: rf.log.drop (i + 1)
        | none => [placeholder args.lastIncludedTerm]
      let rf := { rf with
        snapshotBytes := args.data
        log := log
        lastIncludedIndex := args.lastIncludedIndex
        lastIncludedTerm := args.lastIncludedTerm
        commitIndex :=
          if rf.commitIndex < args.lastIncludedIndex then args.lastIncludedIndex
          else rf.commitIndex
        lastApplied :=
          if rf.lastApplied < args.lastIncludedIndex then args.lastIncludedIndex
          else rf.lastApplied }.persist
      ({ rf with applySnapshot := true }, reply)

/-! ## Leading -/

/-- The index, the term and the flag that `Start` returns; the flag is also that of
the `sendHeartbeat` goroutine. -/
def start (rf : Peer n C) (command : Option C) : Peer n C × Int × Int × Bool :=
  if rf.status ≠ .leader then (rf, -1, rf.currentTerm, false)
  else
    let entry : LogEntry C := { term := rf.currentTerm, command := command }
    let rf := { rf with log := rf.log ++ [entry] }.persist
    (rf, rf.lastLogIndex, rf.currentTerm, true)

def countMatch (rf : Peer n C) (N : Int) : Nat :=
  1 + (List.finRange n).countP fun i => i ≠ rf.me ∧ rf.matchIndex i ≥ N

/-- The loop of `updateLeaderCommitIndex`, counting down from `N`. -/
def commitLoop (rf : Peer n C) : Nat → Int → Peer n C
  | 0, _ => rf
  | fuel + 1, N =>
    if N > rf.commitIndex then
      if rf.termAt N true = rf.currentTerm ∧ rf.countMatch N > n / 2 then
        { rf with commitIndex := N }
      else rf.commitLoop fuel (N - 1)
    else rf

def updateLeaderCommitIndex (rf : Peer n C) : Peer n C :=
  rf.commitLoop (rf.lastLogIndex - rf.commitIndex).toNat rf.lastLogIndex

def updateMatchAndNextIndex (rf : Peer n C) (peer : Fin n) (newMatchIndex : Int) : Peer n C :=
  let rf := if newMatchIndex > rf.matchIndex peer then
    { rf with matchIndex := Function.update rf.matchIndex peer newMatchIndex } else rf
  { rf with nextIndex := Function.update rf.nextIndex peer (rf.matchIndex peer + 1) }

def findLastIndexOfTerm (rf : Peer n C) (term : Int) : Int :=
  let index := (List.range' 1 (rf.log.length - 1)).foldl
    (fun index (i : Nat) =>
      if rf.termAt i false = term then (i : Int) + rf.lastIncludedIndex else index)
    (-1)
  if index = -1 ∧ term = rf.lastIncludedTerm then rf.lastIncludedIndex else index

/-- The part of `handleSendAppendEntries` after the call has returned. -/
def handleAppendEntriesReply (rf : Peer n C) (peer : Fin n) (args : AppendEntriesArgs n C)
    (reply : AppendEntriesReply) : Peer n C :=
  if rf.status ≠ .leader ∨ rf.currentTerm ≠ args.term then rf
  else
    let (rf, steppedDown) := rf.stepDown reply.term
    if steppedDown then rf
    else if reply.success then
      (rf.updateMatchAndNextIndex peer
        (args.prevLogIndex + args.entries.length)).updateLeaderCommitIndex
    else if reply.xLen ≠ 0 then
      { rf with nextIndex := Function.update rf.nextIndex peer reply.xLen }
    else
      let index := rf.findLastIndexOfTerm reply.xTerm
      if index = -1 then
        { rf with nextIndex := Function.update rf.nextIndex peer reply.xIndex }
      else
        { rf with nextIndex := Function.update rf.nextIndex peer (index + 1) }

/-- The part of `handleInstallSnapshot` before the call. -/
def installSnapshotArgs (rf : Peer n C) (peer : Fin n) : Option (InstallSnapshotArgs n) :=
  if rf.status ≠ .leader then none
  else if rf.nextIndex peer > rf.lastIncludedIndex then none
  else
    some { term := rf.currentTerm
           leaderId := rf.me
           lastIncludedIndex := rf.lastIncludedIndex
           lastIncludedTerm := rf.lastIncludedTerm
           data := rf.snapshotBytes }

/-- The part of `handleInstallSnapshot` after the call. -/
def handleInstallSnapshotReply (rf : Peer n C) (peer : Fin n) (args : InstallSnapshotArgs n)
    (reply : InstallSnapshotReply) : Peer n C :=
  if rf.status ≠ .leader ∨ rf.currentTerm ≠ args.term then rf
  else
    let (rf, steppedDown) := rf.stepDown reply.term
    if steppedDown then rf
    else rf.updateMatchAndNextIndex peer args.lastIncludedIndex

def getPrevLogTerm (rf : Peer n C) (logicalPrevLogIndex : Int) : Int :=
  if logicalPrevLogIndex = rf.lastIncludedIndex then rf.lastIncludedTerm
  else rf.termAt logicalPrevLogIndex true

/-- How the first critical section of `heartbeatWorker` ends. -/
inductive Heartbeat (n : Nat) (C : Type) where
  | quit
  | sendSnapshot
  | sendEntries (args : AppendEntriesArgs n C)

def heartbeatWorker (rf : Peer n C) (peer : Fin n) : Heartbeat n C :=
  if rf.status ≠ .leader then .quit
  else
    let logicalNextIndex := rf.nextIndex peer
    if logicalNextIndex ≤ rf.lastIncludedIndex ∧ !rf.isReplicating peer then .sendSnapshot
    else
      let logicalPrevLogIndex := logicalNextIndex - 1
      let prevTerm := rf.getPrevLogTerm logicalPrevLogIndex
      let physicalNextIndex := rf.toPhysicalIndex logicalNextIndex
      if physicalNextIndex < 0 ∨ physicalNextIndex > rf.log.length then .quit
      else
        .sendEntries
          { term := rf.currentTerm
            leaderId := rf.me
            leaderCommit := rf.commitIndex
            prevLogIndex := logicalPrevLogIndex
            prevLogTerm := prevTerm
            entries := rf.log.drop physicalNextIndex.toNat }

def setReplicating (rf : Peer n C) (peer : Fin n) (flag : Bool) : Peer n C :=
  { rf with isReplicating := Function.update rf.isReplicating peer flag }

/-! ## Applying -/

/-- One round of `applyCommitted` up to releasing the lock: the messages to send,
or `none` while the goroutine waits. -/
def applyCommitted (rf : Peer n C) : Option (Peer n C × List (ApplyMsg C)) :=
  if rf.commitIndex ≤ rf.lastApplied ∧ !rf.applySnapshot then none
  else if rf.lastApplied < rf.lastIncludedIndex ∨ rf.applySnapshot then
    some ({ rf with lastApplied := rf.lastIncludedIndex, applySnapshot := false },
      [{ snapshotValid := true
         snapshot := rf.snapshotBytes
         snapshotTerm := rf.lastIncludedTerm
         snapshotIndex := rf.lastIncludedIndex }])
  else
    let low := rf.lastApplied + 1
    let high := rf.commitIndex
    let entriesToApply := (List.range (high - rf.lastApplied).toNat).filterMap fun (k : Nat) =>
      let i := low + k
      let physicalIndex := rf.toPhysicalIndex i
      if physicalIndex > 0 then
        rf.log[physicalIndex.toNat]?.map fun entry =>
          { commandValid := true, command := entry.command, commandIndex := i }
      else none
    some ({ rf with lastApplied := high }, entriesToApply)

/-! ## Shutting down -/

/-- The part of `Kill` under the lock. -/
def kill (rf : Peer n C) : Peer n C :=
  { rf with status := .follower, votedFor := none }.persist

/-! ## Equations -/

theorem stepDown_of_le {rf : Peer n C} {newTerm : Int} (h : newTerm ≤ rf.currentTerm) :
    rf.stepDown newTerm = (rf, false) := by
  simp [stepDown, h]

theorem stepDown_of_lt {rf : Peer n C} {newTerm : Int} (h : rf.currentTerm < newTerm) :
    rf.stepDown newTerm =
      ({ { rf with currentTerm := newTerm, status := .follower, votedFor := none }.persist with
          isReplicating := fun _ => false }, true) := by
  simp [stepDown, Int.not_le.mpr h]

theorem stepDown_currentTerm (rf : Peer n C) (newTerm : Int) :
    (rf.stepDown newTerm).1.currentTerm = max rf.currentTerm newTerm := by
  rcases lt_or_ge rf.currentTerm newTerm with hlt | hle
  · rw [stepDown_of_lt hlt]
    show newTerm = max rf.currentTerm newTerm
    omega
  · rw [stepDown_of_le hle]
    show rf.currentTerm = max rf.currentTerm newTerm
    omega

/-- A request of the current term or a later one is answered after stepping down,
which does nothing in the current term. -/
theorem requestVote_of_le {rf : Peer n C} {args : RequestVoteArgs n}
    (h : rf.currentTerm ≤ args.term) :
    rf.requestVote args =
      let rf := (rf.stepDown args.term).1
      if (rf.votedFor = none ∨ rf.votedFor = some args.candidateId) ∧
          rf.isLogUpToDate args.lastLogIndex args.lastLogTerm then
        ({ rf with votedFor := some args.candidateId }.persist,
          { term := rf.currentTerm, voteGranted := true })
      else (rf, { term := rf.currentTerm, voteGranted := false }) := by
  have hdown : (if args.term > rf.currentTerm then (rf.stepDown args.term).1 else rf) =
      (rf.stepDown args.term).1 := by
    split
    · rfl
    · rw [stepDown_of_le (by omega)]
  rw [requestVote, if_neg (Int.not_lt.mpr h)]
  simp only [hdown]
  rfl

theorem requestVote_of_lt {rf : Peer n C} {args : RequestVoteArgs n}
    (h : args.term < rf.currentTerm) :
    rf.requestVote args = (rf, { term := rf.currentTerm, voteGranted := false }) := by
  rw [requestVote, if_pos h]

end Peer
end Raft
end Labs
