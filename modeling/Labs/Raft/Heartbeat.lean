import Labs.Raft.Steps
import Labs.Raft.View

/-!
# What a leader sends

An `AppendEntries` request is faithful when it is cut out of the sender's log: the
previous index is not below the snapshot, its term is the one the sender has there,
and the entries are all those that follow.  `heartbeatWorker` checks the bounds of the
physical index it cuts at, but lets 0 pass, the index of the placeholder.  It gets
there when the next index of the peer is the last one of the snapshot and another
worker has set `isReplicating`, so that no snapshot is sent.
-/

namespace Labs
namespace Raft

variable {n : Nat} {C : Type}

namespace Peer

/-- The entry at a logical index above the snapshot. -/
def entryAt (rf : Peer n C) (index : Int) : Option (LogEntry C) :=
  if index > rf.lastIncludedIndex then rf.log[(index - rf.lastIncludedIndex).toNat]? else none

/-- The term of the entry at a logical index, or of the snapshot that ends there. -/
def termOfEntry (rf : Peer n C) (index : Int) : Option Int :=
  if index = rf.lastIncludedIndex then some rf.lastIncludedTerm
  else (rf.entryAt index).map fun entry => entry.term

section Entries

variable {rf : Peer n C} {ℓ : List (LogEntry C)} {b : Nat}

theorem Compacts.entryAt (h : Compacts rf ℓ b) {j : Nat} (hj : b ≤ j) :
    rf.entryAt (j + 1) = ℓ[j]? := by
  obtain ⟨k, rfl⟩ : ∃ k, j = b + k := ⟨j - b, by omega⟩
  rw [Peer.entryAt, h.index, if_pos (by omega),
    show (((b + k : Nat) : Int) + 1 - (b : Int)).toNat = k + 1 by omega, h.getElem?]

theorem Compacts.termOfEntry (h : Compacts rf ℓ b) {k : Nat} (hb : b ≤ k) (hk : k ≤ ℓ.length) :
    rf.termOfEntry k = some (termOf ℓ k) := by
  unfold Peer.termOfEntry
  rw [h.index]
  by_cases heq : k = b
  · rw [if_pos (by omega), h.term, heq]
  · obtain ⟨j, rfl⟩ : ∃ j, k = j + 1 := ⟨k - 1, by omega⟩
    obtain ⟨e, he⟩ : ∃ e, ℓ[j]? = some e := ⟨_, List.getElem?_eq_getElem (by omega)⟩
    rw [if_neg (by omega), show ((j + 1 : Nat) : Int) = (j : Int) + 1 by omega,
      h.entryAt (by omega), he, termOf_succ he]
    rfl

end Entries

structure Faithful (rf : Peer n C) (args : AppendEntriesArgs n C) : Prop where
  prev : rf.lastIncludedIndex ≤ args.prevLogIndex
  term : rf.termOfEntry args.prevLogIndex = some args.prevLogTerm
  entries : ∀ k : Nat, args.entries[k]? = rf.entryAt (args.prevLogIndex + 1 + k)

theorem heartbeatWorker_sendEntries {rf : Peer n C} {peer : Fin n}
    {args : AppendEntriesArgs n C} (h : rf.heartbeatWorker peer = .sendEntries args) :
    rf.status = .leader ∧ 0 ≤ rf.toPhysicalIndex (rf.nextIndex peer) ∧
      rf.toPhysicalIndex (rf.nextIndex peer) ≤ rf.log.length ∧
      args = { term := rf.currentTerm
               leaderId := rf.me
               leaderCommit := rf.commitIndex
               prevLogIndex := rf.nextIndex peer - 1
               prevLogTerm := rf.getPrevLogTerm (rf.nextIndex peer - 1)
               entries := rf.log.drop (rf.toPhysicalIndex (rf.nextIndex peer)).toNat } := by
  unfold heartbeatWorker at h
  split at h
  · cases h
  · next hlead =>
      dsimp only at h
      split at h
      · cases h
      · split at h
        · cases h
        · next hbounds =>
            cases h
            exact ⟨not_not.mp hlead, by omega, by omega, rfl⟩

/-- Entries at or below the snapshot are sent only while another worker replicates. -/
theorem heartbeatWorker_isReplicating {rf : Peer n C} {peer : Fin n}
    {args : AppendEntriesArgs n C} (h : rf.heartbeatWorker peer = .sendEntries args)
    (hle : rf.nextIndex peer ≤ rf.lastIncludedIndex) : rf.isReplicating peer = true := by
  cases hrep : rf.isReplicating peer with
  | true => rfl
  | false =>
      have hlead := (heartbeatWorker_sendEntries h).1
      simp [heartbeatWorker, hlead, hle, hrep] at h

/-- The placeholder is the only thing that can go wrong. -/
theorem heartbeatWorker_faithful_iff {rf : Peer n C} {peer : Fin n}
    {args : AppendEntriesArgs n C} (h : rf.heartbeatWorker peer = .sendEntries args) :
    rf.Faithful args ↔ rf.nextIndex peer ≠ rf.lastIncludedIndex := by
  obtain ⟨-, hlow, hhigh, rfl⟩ := heartbeatWorker_sendEntries h
  unfold toPhysicalIndex at hlow hhigh
  constructor
  · intro hf heq
    have hprev : rf.lastIncludedIndex ≤ rf.nextIndex peer - 1 := hf.prev
    omega
  · intro hne
    refine ⟨?_, ?_, fun k => ?_⟩
    · show rf.lastIncludedIndex ≤ rf.nextIndex peer - 1
      omega
    · show rf.termOfEntry (rf.nextIndex peer - 1) = some (rf.getPrevLogTerm (rf.nextIndex peer - 1))
      unfold termOfEntry getPrevLogTerm
      by_cases heq : rf.nextIndex peer - 1 = rf.lastIncludedIndex
      · rw [if_pos heq, if_pos heq]
      · rw [if_neg heq, if_neg heq, entryAt, if_pos (by omega)]
        have hin : (rf.nextIndex peer - 1 - rf.lastIncludedIndex).toNat < rf.log.length := by
          omega
        simp only [termAt, toPhysicalIndex, if_true]
        rw [if_neg (by omega), List.getElem?_eq_getElem hin]
        rfl
    · show (rf.log.drop (rf.nextIndex peer - rf.lastIncludedIndex).toNat)[k]? =
        rf.entryAt (rf.nextIndex peer - 1 + 1 + k)
      rw [entryAt, if_pos (by omega), List.getElem?_drop]
      congr 1
      omega

/-- On the whole log, what is sent to a peer whose next index is above the snapshot. -/
theorem Compacts.sliceOf {rf : Peer n C} {ℓ : List (LogEntry C)} {b p : Nat} {peer : Fin n}
    {args : AppendEntriesArgs n C} (hc : rf.Compacts ℓ b)
    (hargs : rf.heartbeatWorker peer = .sendEntries args) (hp : rf.nextIndex peer = p + 1)
    (hb : b ≤ p) : args.SliceOf ℓ p ∧ args.entries = ℓ.drop p := by
  obtain ⟨-, hlow, hhigh, rfl⟩ := heartbeatWorker_sendEntries hargs
  have hlen := hc.length
  have hbl := hc.le
  have hindex := hc.index
  have hphys : rf.toPhysicalIndex (rf.nextIndex peer) = ((p - b + 1 : Nat) : Int) := by
    rw [toPhysicalIndex, hp, hindex]
    omega
  have hdrop : rf.log.drop (rf.toPhysicalIndex (rf.nextIndex peer)).toNat = ℓ.drop p := by
    obtain ⟨d, hd⟩ := hc.log
    rw [hphys, Int.toNat_natCast, hd, List.drop_succ_cons, List.drop_drop,
      show b + (p - b) = p by omega]
  have hprev : rf.nextIndex peer - 1 = p := by omega
  refine ⟨⟨hprev, by omega, ?_, ?_⟩, hdrop⟩
  · show rf.getPrevLogTerm (rf.nextIndex peer - 1) = termOf ℓ p
    rw [hprev, getPrevLogTerm, hindex]
    by_cases hpb : p = b
    · rw [if_pos (by omega), hc.term, hpb]
    · rw [if_neg (by omega), hc.termAt_logical (by omega)]
  · show ℓ.take p ++ rf.log.drop (rf.toPhysicalIndex (rf.nextIndex peer)).toNat <+: ℓ
    rw [hdrop, List.take_append_drop]

theorem Compacts.heartbeatWorker {rf : Peer n C} {ℓ : List (LogEntry C)} {b p : Nat}
    {peer : Fin n} (hc : rf.Compacts ℓ b) (hlead : rf.status = .leader)
    (hp : rf.nextIndex peer = p + 1) (hb : b ≤ p) (hle : p ≤ ℓ.length) :
    ∃ args, rf.heartbeatWorker peer = .sendEntries args ∧ args.SliceOf ℓ p ∧
      args.term = rf.currentTerm := by
  have hlen := hc.length
  have hindex := hc.index
  have hnot : ¬ (rf.nextIndex peer ≤ rf.lastIncludedIndex ∧ !rf.isReplicating peer) := by
    rintro ⟨hbelow, -⟩
    omega
  have hbounds : ¬ (rf.toPhysicalIndex (rf.nextIndex peer) < 0 ∨
      rf.toPhysicalIndex (rf.nextIndex peer) > rf.log.length) := by
    unfold toPhysicalIndex
    omega
  have hargs : ∃ args, rf.heartbeatWorker peer = .sendEntries args := by
    unfold Peer.heartbeatWorker
    dsimp only
    rw [if_neg (not_not.mpr hlead), if_neg hnot, if_neg hbounds]
    exact ⟨_, rfl⟩
  obtain ⟨args, hargs⟩ := hargs
  refine ⟨args, hargs, (hc.sliceOf hargs hp hb).1, ?_⟩
  obtain ⟨-, -, -, rfl⟩ := heartbeatWorker_sendEntries hargs
  rfl

end Peer

namespace Cluster

/-- No worker of a leader starts on a peer that another worker replicates to and whose
next index is the last one of the snapshot. -/
def SkipsPlaceholder (w : Cluster n C) : Action n C → Prop
  | .worker k => ∀ wk ∈ w.workers[k]?, wk.pc = .start → (w.peers wk.src).status = .leader →
      (w.peers wk.src).isReplicating wk.peer = true →
      (w.peers wk.src).nextIndex wk.peer ≠ (w.peers wk.src).lastIncludedIndex
  | _ => True

instance (w : Cluster n C) : (act : Action n C) → Decidable (SkipsPlaceholder w act)
  | .worker k => inferInstanceAs (Decidable (∀ wk ∈ w.workers[k]?, wk.pc = .start →
      (w.peers wk.src).status = .leader → (w.peers wk.src).isReplicating wk.peer = true →
      (w.peers wk.src).nextIndex wk.peer ≠ (w.peers wk.src).lastIncludedIndex))
  | .tick .. | .start .. | .snapshot .. | .sendHeartbeat .. | .deliver .. | .receive ..
  | .callFails .. | .voteFails .. | .apply .. | .send .. | .crash .. => isTrue trivial

theorem SkipsPlaceholder.nextIndex_ne {w : Cluster n C} {k : Nat} {wk : Worker n}
    {args : AppendEntriesArgs n C} (h : SkipsPlaceholder w (.worker k))
    (hk : w.workers[k]? = some wk) (hpc : wk.pc = .start)
    (hargs : (w.peers wk.src).heartbeatWorker wk.peer = .sendEntries args) :
    (w.peers wk.src).nextIndex wk.peer ≠ (w.peers wk.src).lastIncludedIndex := by
  intro heq
  have hrep := Peer.heartbeatWorker_isReplicating hargs heq.le
  exact h wk hk hpc (Peer.heartbeatWorker_sendEntries hargs).1 hrep heq

/-- Whatever state the cluster is in, a step that meets the condition and puts an
`AppendEntries` on the network cuts it out of the log of the leader it comes from. -/
theorem sent_faithful {w w' : Cluster n C} {act : Action n C} {m : Nat} {dst : Fin n}
    {args : AppendEntriesArgs n C} (hok : SkipsPlaceholder w act) (hs : w.step act = some w')
    (hreq : w'.requests = w.requests ++ [.appendEntries m dst args]) :
    ∃ wk, w.workers[m]? = some wk ∧ wk.peer = dst ∧ (w.peers wk.src).status = .leader ∧
      (w.peers wk.src).Faithful args := by
  have hlen := congrArg List.length hreq
  rw [List.length_append, List.length_singleton] at hlen
  -- a step that sends nothing leaves too few requests
  have hfew : w'.requests.length ≤ w.requests.length → False := by
    intro h
    omega
  cases trans_of_step hs with
  | tickHeartbeat i elapsed timeout hlead => exact (hfew (by simp)).elim
  | tickElection i elapsed timeout hnot hn =>
      have hvotes := List.append_cancel_left ((startElection_requests w i).symm.trans hreq)
      have hmem : Request.appendEntries m dst args ∈ (others i).map fun p =>
          Request.requestVote w.elections.length p (w.peers i).startElection.2 := by
        rw [hvotes]
        exact List.mem_singleton_self _
      obtain ⟨p, -, hp⟩ := List.mem_map.mp hmem
      cases hp
  | tickIdle i elapsed timeout => exact (hfew (le_refl _)).elim
  | start i command => exact (hfew (by simp [setPeer])).elim
  | snapshot i index data => exact (hfew (le_refl _)).elim
  | heartbeatRun k i inc hk hinc hlead => exact (hfew (le_refl _)).elim
  | heartbeatQuit k => exact (hfew (le_refl _)).elim
  | workerMoves k wk pc hk hinc hpc => exact (hfew (le_refl _)).elim
  | workerEntries k wk args' hk hinc hpc hargs =>
      cases List.append_cancel_left hreq
      exact ⟨wk, hk, rfl, (Peer.heartbeatWorker_sendEntries hargs).1,
        (Peer.heartbeatWorker_faithful_iff hargs).mpr (hok.nextIndex_ne hk hpc hargs)⟩
  | workerFlag k wk flag pc hk hinc hpc => exact (hfew (le_refl _)).elim
  | workerSnapshot k wk args' hk hinc hpc hargs => cases List.append_cancel_left hreq
  | deliverVote k e dst' args' hk => exact (hfew (List.length_eraseIdx_le _ _)).elim
  | deliverEntries k m' dst' args' hk => exact (hfew (List.length_eraseIdx_le _ _)).elim
  | deliverSnapshot k m' dst' args' hk => exact (hfew (List.length_eraseIdx_le _ _)).elim
  | receiveVote k e dst' args' reply el rf votes started hk hel hinc hwait hreply =>
      exact (hfew (by simp)).elim
  | receiveEntries k m' dst' args' reply wk hk hm hinc hpc => exact (hfew (le_refl _)).elim
  | receiveSnapshot k m' dst' args' reply wk hk hm hinc hpc => exact (hfew (le_refl _)).elim
  | callFails k wk hk hinc hpc => exact (hfew (le_refl _)).elim
  | voteFails e peer el hel => exact (hfew (le_refl _)).elim
  | apply i rf msgs hsend happly => exact (hfew (le_refl _)).elim
  | send i msg rest hsend => exact (hfew (le_refl _)).elim
  | crash i => exact (hfew (le_refl _)).elim

/-- Peer 0 leads, has entry 1 committed and compacted, and its first worker for
peer 1, which lacks that entry, has announced a snapshot. -/
def snapshotAnnounced : List (Action 3 Nat) :=
  [.tick 0 400 200, .deliver 1, .receive 0, .start 0 (some 7), .sendHeartbeat 0, .worker 1,
   .deliver 1, .receive 0, .apply 0, .send 0, .snapshot 0 1 [1], .worker 0, .worker 0,
   .sendHeartbeat 0]

set_option maxRecDepth 100000 in
/-- A worker for peer 2, which has the entry, sends a faithful heartbeat. -/
theorem snapshotAnnounced_faithful : ∃ w w' : Cluster 3 Nat, ∃ args,
    Run.exec step Run.always init snapshotAnnounced = some w ∧ w.step (.worker 3) = some w' ∧
    w'.requests = w.requests ++ [.appendEntries 3 2 args] ∧
    ∃ wk, w.workers[3]? = some wk ∧ wk.peer = 2 ∧ (w.peers wk.src).status = .leader ∧
      (w.peers wk.src).Faithful args :=
  ⟨_, _, _, rfl, rfl, rfl, @sent_faithful 3 Nat _ _ (.worker 3) 3 2 _ (by decide) rfl rfl⟩

set_option maxRecDepth 100000 in
/-- The second worker for peer 1 sends it the placeholder, below the snapshot. -/
theorem snapshotAnnounced_placeholder : ∃ (w : Cluster 3 Nat) (args : AppendEntriesArgs 3 Nat),
    Run.Path step Run.always init w ∧ (w.peers 0).status = .leader ∧
    (w.peers 0).heartbeatWorker 1 = .sendEntries args ∧
    args.prevLogIndex < (w.peers 0).lastIncludedIndex ∧
    args.entries[0]? = some (placeholder 0) ∧ ¬ (w.peers 0).Faithful args := by
  refine ⟨_, _, Run.path_of_exec snapshotAnnounced rfl, ?_, rfl, ?_, ?_, fun hf => ?_⟩
  · decide
  · decide
  · decide
  · exact absurd hf.prev (by decide)

end Cluster
end Raft
end Labs
