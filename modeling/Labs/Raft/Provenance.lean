import Labs.Raft.Section
import Labs.Raft.Uncompacted

/-!
# Where snapshots come from

The index and the bytes of a snapshot are separate fields that travel through local
compaction, `InstallSnapshot`, two blobs on disk and the apply channel.  Over the list of
actions taken so far, `Given` says that the two were passed to `Snapshot` in one call, or
are those of a peer that has no snapshot.  It holds of every copy there is.
-/

namespace Labs
namespace Raft

variable {n : Nat} {C : Type}

/-- The index that the snapshot on disk is read with. -/
def Persister.lastIncludedIndex (ps : Persister n C) : Int :=
  (ps.raftstate.map RaftState.lastIncludedIndex).getD 0

theorem Peer.make_lastIncludedIndex (i : Fin n) (ps : Persister n C) :
    (Peer.make i ps).lastIncludedIndex = ps.lastIncludedIndex := by
  unfold Persister.lastIncludedIndex
  cases h : ps.raftstate with
  | none => simp [Peer.make, Persister.readRaftState, Peer.readPersist, h]
  | some data =>
      obtain ⟨-, -, -, hindex, -⟩ := Peer.make_of_raftstate (i := i) h
      exact hindex

namespace Cluster

/-- Some service passed the two to `Snapshot` together, or there is no snapshot yet. -/
def Given (acts : List (Action n C)) (index : Int) (data : Bytes) : Prop :=
  index = 0 ∧ data = [] ∨ ∃ i, Action.snapshot i index data ∈ acts

theorem Given.append {acts : List (Action n C)} {index : Int} {data : Bytes}
    (h : Given acts index data) (more : List (Action n C)) :
    Given (acts ++ more) index data :=
  h.imp_right fun ⟨i, hi⟩ => ⟨i, List.mem_append_left _ hi⟩

/-- Every copy of a snapshot was given to the cluster as it is. -/
structure Provenance (acts : List (Action n C)) (w : Cluster n C) : Prop where
  durable : ∀ i, (w.peers i).Durable i
  peers : ∀ i, Given acts (w.peers i).lastIncludedIndex (w.peers i).snapshotBytes
  requests : ∀ m dst args, Request.installSnapshot m dst args ∈ w.requests →
    Given acts args.lastIncludedIndex args.data
  messages : w.Carries fun msg => msg.snapshotValid = true →
    Given acts msg.snapshotIndex msg.snapshot

namespace Provenance

variable {acts : List (Action n C)} {w w' : Cluster n C} {act : Action n C}

theorem init : Provenance [] (init : Cluster n C) where
  durable := Peer.durable_make
  peers := fun _ => .inl ⟨rfl, rfl⟩
  requests := by simp [Cluster.init]
  messages := carries_init _

/-- A snapshot that an action offers to a peer was given. -/
theorem offers (h : Provenance acts w) {i : Fin n} {index : Int} {data : Bytes}
    (ho : w.Offers act i index data) : Given (acts ++ [act]) index data := by
  rcases ho with hact | ⟨m, args, hr, rfl, rfl⟩
  · exact .inr ⟨i, by simp [hact]⟩
  · exact (h.requests m i args hr).append _

/-- A round that delivers a snapshot delivers that of its peer. -/
theorem collected (h : Provenance acts w) {i : Fin n} {rf : Peer n C} {msgs : List (ApplyMsg C)}
    (happly : (w.peers i).applyCommitted = some (rf, msgs)) :
    ∀ msg ∈ msgs, msg.snapshotValid = true → Given acts msg.snapshotIndex msg.snapshot := by
  intro msg hmsg hvalid
  unfold Peer.applyCommitted at happly
  split at happly
  · cases happly
  · split at happly
    · cases happly
      rw [List.mem_singleton.mp hmsg]
      exact h.peers i
    · cases happly
      obtain ⟨k, -, hk⟩ := List.mem_filterMap.mp hmsg
      dsimp only at hk
      split at hk
      · obtain ⟨entry, -, rfl⟩ := Option.map_eq_some_iff.mp hk
        cases hvalid
      · cases hk

theorem step (h : Provenance acts w) (hs : w.step act = some w') :
    Provenance (acts ++ [act]) w' := by
  have hmove := peerMoves_of_step (fun i => (h.durable i).me) hs
  constructor
  · intro i
    rcases hmove i with heq | ⟨s, hrun, -⟩
    · rw [heq]
      exact h.durable i
    · exact ((h.durable i).run hrun).1
  · intro i
    rcases hmove i with heq | ⟨s, hrun, hoffer⟩
    · rw [heq]
      exact (h.peers i).append _
    · rcases Peer.run_cases (h.durable i).saved hrun with hsame | ⟨index, data, ho, htake⟩
      · rw [hsame.index, hsame.bytes]
        exact (h.peers i).append _
      · rw [htake.index, htake.bytes]
        exact h.offers (hoffer index data ho)
  · intro m dst args hr
    rcases installSnapshot_of_step hs hr with hold | ⟨i, peer, hargs⟩
    · exact (h.requests m dst args hold).append _
    · -- the request is filled in from the fields of its sender
      unfold Peer.installSnapshotArgs at hargs
      split at hargs
      · cases hargs
      · split at hargs
        · cases hargs
        · cases hargs
          exact (h.peers i).append _
  · refine (h.messages.step hs fun happly msg hmsg hvalid => ?_).mono
      fun msg hm hvalid => (hm hvalid).append _
    exact h.collected happly msg hmsg hvalid

theorem disk (h : Provenance acts w) (i : Fin n) :
    Given acts (w.peers i).persister.lastIncludedIndex (w.peers i).persister.snapshot := by
  have hsame := (h.durable i).saved.sameSnapshot_make
  rw [← Peer.make_lastIncludedIndex (w.peers i).me, ← Peer.make_snapshotBytes (w.peers i).me,
    hsame.index, hsame.bytes]
  exact h.peers i

/-- The index of a snapshot only grows. -/
theorem index_le (h : Provenance acts w) (hpath : Run.Path Cluster.step Run.always w w')
    (i : Fin n) : (w.peers i).lastIncludedIndex ≤ (w'.peers i).lastIncludedIndex := by
  refine (hpath.invariant (P := fun w' => (∀ j, (w'.peers j).Durable j) ∧
    (w.peers i).lastIncludedIndex ≤ (w'.peers i).lastIncludedIndex) ?_
    ⟨h.durable, le_refl _⟩).2
  intro u act v ⟨hd, hle⟩ _ hs
  have hmove := peerMoves_of_step (fun j => (hd j).me) hs
  constructor
  · intro j
    rcases hmove j with heq | ⟨s, hrun, -⟩
    · rw [heq]
      exact hd j
    · exact ((hd j).run hrun).1
  · rcases hmove i with heq | ⟨s, hrun, -⟩
    · rw [heq]
      exact hle
    · exact hle.trans ((hd i).run hrun).2

theorem exec {acts : List (Action n C)} {w : Cluster n C}
    (h : Run.exec Cluster.step Run.always Cluster.init acts = some w) : Provenance acts w :=
  Run.exec_invariant (P := Provenance) (fun _ _ _ _ hp _ hs => hp.step hs) acts .init h

end Provenance

/-- In every peer, on every disk, in every request and in every message to a service, a
snapshot is as it was given, and no peer goes back to an earlier one. -/
theorem snapshots_given {acts : List (Action n C)} {w : Cluster n C}
    (h : Run.exec step Run.always init acts = some w) :
    (∀ i, Given acts (w.peers i).lastIncludedIndex (w.peers i).snapshotBytes) ∧
    (∀ i, Given acts (w.peers i).persister.lastIncludedIndex (w.peers i).persister.snapshot) ∧
    (∀ m dst args, Request.installSnapshot m dst args ∈ w.requests →
      Given acts args.lastIncludedIndex args.data) ∧
    (∀ i msg, msg ∈ w.sending i ∨ (∃ inc, msg ∈ w.applyCh i inc) →
      msg.snapshotValid = true → Given acts msg.snapshotIndex msg.snapshot) ∧
    ∀ w' i, Run.Path step Run.always w w' →
      (w.peers i).lastIncludedIndex ≤ (w'.peers i).lastIncludedIndex := by
  have hp := Provenance.exec h
  refine ⟨hp.peers, hp.disk, hp.requests, ?_, fun w' i hpath => hp.index_le hpath i⟩
  intro i msg hmsg hvalid
  rcases hmsg with hsend | ⟨inc, hch⟩
  · exact hp.messages.sending i msg hsend hvalid
  · exact hp.messages.applyCh i inc msg hch hvalid

/-- Peer 0 commits two entries with peer 2, and its service gives it snapshots of one and
of both.  Peer 1 is sent the second one, delivers it and crashes. -/
def compacted : List (Action 3 Nat) :=
  [.tick 0 400 200, .deliver 1, .receive 0, .start 0 (some 7), .start 0 (some 8),
   .sendHeartbeat 0, .worker 1, .deliver 1, .receive 0, .apply 0, .snapshot 0 1 [1],
   .snapshot 0 2 [1, 2], .worker 0, .worker 0, .worker 0, .deliver 1, .apply 1, .send 1,
   .crash 1]

theorem snapshots_given_compacted : ∃ w : Cluster 3 Nat,
    Run.exec step Run.always init compacted = some w ∧
    (w.peers 1).lastIncludedIndex = 2 ∧ (w.peers 1).snapshotBytes = [1, 2] ∧
    (w.applyCh 1 0).length = 1 ∧ Given compacted 2 [1, 2] := by
  have hrun : (Run.exec step Run.always (init : Cluster 3 Nat) compacted).map
      (fun w => ((w.peers 1).lastIncludedIndex, (w.peers 1).snapshotBytes,
        (w.applyCh 1 0).length)) = some (2, [1, 2], 1) := by
    decide +kernel
  obtain ⟨w, hw, hend⟩ := Option.map_eq_some_iff.mp hrun
  simp only [Prod.mk.injEq] at hend
  obtain ⟨hindex, hbytes, hlen⟩ := hend
  have hgiven := (snapshots_given hw).1 1
  rw [hindex, hbytes] at hgiven
  exact ⟨w, hw, hindex, hbytes, hlen, hgiven⟩

end Cluster
end Raft
end Labs
