import Labs.Raft.Calls
import Labs.Raft.View
import Labs.Raft.Votes

/-!
# One snapshot at a time

`isReplicating` is meant to keep a second worker from sending a snapshot to a peer while
a first one waits for the answer.  A worker tests the flag in its first critical section
and sets it after it has released the lock, every worker clears it when it ends, and
stepping down clears it too.  So two workers may both pass the test, a worker that had
nothing to do with a snapshot may clear the flag of one that waits, and a worker may call
after its flag was cleared.  `Excludes` is the condition that none of this happens.

Of a step only this matters here: which worker moves, which `InstallSnapshot` calls are in
flight, and what becomes of the flags.  `CallStep` says it, and the proofs split on that.
-/

namespace Labs
namespace Raft

variable {n : Nat} {C : Type}

/-- The call is an `InstallSnapshot` of worker `k` to `p` in term `t`. -/
def Call.Installs (k : Nat) (p : Fin n) (t : Int) : Call n C → Prop
  | .entries .. => False
  | .snapshot m dst args => m = k ∧ dst = p ∧ args.term = t

instance (k : Nat) (p : Fin n) (t : Int) :
    (c : Call n C) → Decidable (c.Installs k p t)
  | .entries .. => isFalse id
  | .snapshot m dst args => inferInstanceAs (Decidable (m = k ∧ dst = p ∧ args.term = t))

theorem Call.Installs.worker {k : Nat} {p : Fin n} {t : Int} {c : Call n C}
    (h : c.Installs k p t) : c.worker = k := by
  cases c with
  | entries m dst args => exact h.elim
  | snapshot m dst args => exact h.1

namespace Peer

/-- The test that leads a worker to `handleInstallSnapshot`. -/
def NeedsSnapshot (rf : Peer n C) (peer : Fin n) : Prop :=
  rf.status = .leader ∧ rf.nextIndex peer ≤ rf.lastIncludedIndex ∧ rf.isReplicating peer = false

instance (rf : Peer n C) (peer : Fin n) : Decidable (rf.NeedsSnapshot peer) :=
  inferInstanceAs (Decidable (_ ∧ _ ∧ _))

theorem needsSnapshot_of_sendSnapshot {rf : Peer n C} {peer : Fin n}
    (h : rf.heartbeatWorker peer = .sendSnapshot) : rf.NeedsSnapshot peer := by
  unfold heartbeatWorker at h
  split at h
  · cases h
  · next hlead =>
      dsimp only at h
      split at h
      · next htest => exact ⟨not_not.mp hlead, htest.1, by simpa using htest.2⟩
      · split at h <;> cases h

theorem installSnapshotArgs_term {rf : Peer n C} {peer : Fin n} {args : InstallSnapshotArgs n}
    (h : rf.installSnapshotArgs peer = some args) : args.term = rf.currentTerm := by
  unfold installSnapshotArgs at h
  split at h
  · cases h
  · split at h <;> cases h
    rfl

/-! ## The flags -/

/-- While the term stays, a flag that is set stays set. -/
structure KeepsFlags (rf rf' : Peer n C) : Prop where
  term : rf.currentTerm ≤ rf'.currentTerm
  flags : rf'.currentTerm = rf.currentTerm → ∀ p, rf.isReplicating p = true →
    rf'.isReplicating p = true

namespace KeepsFlags

variable {rf rf' rf'' : Peer n C}

theorem of_eq (hterm : rf'.currentTerm = rf.currentTerm)
    (hflags : rf'.isReplicating = rf.isReplicating) : KeepsFlags rf rf' :=
  ⟨hterm.ge, fun _ p hp => by rw [hflags]; exact hp⟩

theorem refl (rf : Peer n C) : KeepsFlags rf rf := of_eq rfl rfl

theorem of_lt (h : rf.currentTerm < rf'.currentTerm) : KeepsFlags rf rf' :=
  ⟨h.le, fun heq => absurd heq h.ne'⟩

theorem trans (h : KeepsFlags rf rf') (h' : KeepsFlags rf' rf'') : KeepsFlags rf rf'' where
  term := h.term.trans h'.term
  flags := fun heq p hp => by
    have hle := h.term
    have hle' := h'.term
    exact h'.flags (by omega) p (h.flags (by omega) p hp)

end KeepsFlags

theorem keepsFlags_stepDown (rf : Peer n C) (newTerm : Int) :
    KeepsFlags rf (rf.stepDown newTerm).1 := by
  rcases lt_or_ge rf.currentTerm newTerm with hlt | hle
  · rw [stepDown_of_lt hlt]
    exact .of_lt hlt
  · rw [stepDown_of_le hle]
    exact .refl rf

theorem keepsFlags_requestVote (rf : Peer n C) (args : RequestVoteArgs n) :
    KeepsFlags rf (rf.requestVote args).1 := by
  have hdown := keepsFlags_stepDown rf args.term
  rcases requestVote_cases rf args with ⟨-, heq⟩ | ⟨-, -, -, -, heq⟩
  · rw [heq]
    exact hdown
  · rw [heq]
    exact hdown.trans (.of_eq rfl rfl)

theorem keepsFlags_startElection (rf : Peer n C) : KeepsFlags rf rf.startElection.1 :=
  .of_lt (show rf.currentTerm < rf.currentTerm + 1 by omega)

theorem keepsFlags_handleRequestVoteReply {rf rf' : Peer n C} {args : RequestVoteArgs n}
    {reply : RequestVoteReply} {votes votes' : Nat} {started : Bool}
    (h : rf.handleRequestVoteReply args reply votes = (rf', votes', started)) :
    KeepsFlags rf rf' := by
  have hframe := handleRequestVoteReply_frame rf args reply votes
  rw [h] at hframe
  dsimp only at hframe
  rcases hframe with heq | ⟨status, next, known, heq, -⟩
  · rw [heq]
    exact keepsFlags_stepDown rf _
  · rw [heq]
    exact .of_eq rfl rfl

theorem keepsFlags_appendEntries (rf : Peer n C) (args : AppendEntriesArgs n C) :
    KeepsFlags rf (rf.appendEntries args).1 := by
  have hdown := keepsFlags_stepDown rf args.term
  unfold appendEntries
  split
  · exact .refl rf
  · dsimp only
    split
    · exact hdown.trans (.of_eq rfl rfl)
    · unfold updateFollowerCommitIndex
      split
      · split <;> exact hdown.trans (.of_eq rfl rfl)
      · exact hdown.trans (.of_eq rfl rfl)

theorem keepsFlags_installSnapshot (rf : Peer n C) (args : InstallSnapshotArgs n) :
    KeepsFlags rf (rf.installSnapshot args).1 := by
  unfold installSnapshot
  dsimp only
  split
  · exact .refl rf
  · next hterm => split <;> exact ⟨not_lt.mp hterm, fun _ _ hp => hp⟩

theorem keepsFlags_snapshot (rf : Peer n C) (index : Int) (data : Bytes) :
    KeepsFlags rf (rf.snapshot index data) := by
  obtain ⟨lastIndex, lastTerm, log, bytes, persister, heq⟩ := snapshot_eq rf index data
  rw [heq]
  exact .of_eq rfl rfl

theorem keepsFlags_start (rf : Peer n C) (command : Option C) :
    KeepsFlags rf (rf.start command).1 := by
  by_cases hlead : rf.status = .leader
  · rw [start_of_leader hlead]
    exact .of_eq rfl rfl
  · rw [start_of_not_leader hlead]
    exact .refl rf

theorem keepsFlags_handleAppendEntriesReply (rf : Peer n C) (peer : Fin n)
    (args : AppendEntriesArgs n C) (reply : AppendEntriesReply) :
    KeepsFlags rf (rf.handleAppendEntriesReply peer args reply) := by
  rcases handleAppendEntriesReply_frame rf peer args reply with
    heq | ⟨next, known, commit, heq⟩
  · rw [heq]
    exact keepsFlags_stepDown rf _
  · rw [heq]
    exact .of_eq rfl rfl

theorem keepsFlags_handleInstallSnapshotReply (rf : Peer n C) (peer : Fin n)
    (args : InstallSnapshotArgs n) (reply : InstallSnapshotReply) :
    KeepsFlags rf (rf.handleInstallSnapshotReply peer args reply) := by
  rcases handleInstallSnapshotReply_frame rf peer args reply with heq | ⟨next, known, heq⟩
  · rw [heq]
    exact keepsFlags_stepDown rf _
  · rw [heq]
    exact .of_eq rfl rfl

theorem keepsFlags_applyCommitted {rf rf' : Peer n C} {msgs : List (ApplyMsg C)}
    (h : rf.applyCommitted = some (rf', msgs)) : KeepsFlags rf rf' := by
  obtain ⟨applied, flag, rfl⟩ := applyCommitted_frame h
  exact .of_eq rfl rfl

theorem keepsFlags_setReplicating (rf : Peer n C) (peer : Fin n) :
    KeepsFlags rf (rf.setReplicating peer true) where
  term := le_refl _
  flags := fun _ p hp => by
    show Function.update rf.isReplicating peer true p = true
    rw [Function.update_apply]
    split
    · rfl
    · exact hp

end Peer

namespace Cluster

/-! ## Calls -/

/-- The worker `k` belongs to the present incarnation of `i`, is for the peer `p` and
stands at `pc`. -/
def At (w : Cluster n C) (k : Nat) (i p : Fin n) (pc : WorkerPc) : Prop :=
  ∃ wk ∈ w.workers[k]?, wk.src = i ∧ wk.peer = p ∧ wk.incarnation = w.incarnation i ∧ wk.pc = pc

instance (w : Cluster n C) (k : Nat) (i p : Fin n) (pc : WorkerPc) : Decidable (w.At k i p pc) :=
  inferInstanceAs (Decidable (∃ wk ∈ w.workers[k]?, wk.src = i ∧ wk.peer = p ∧
    wk.incarnation = w.incarnation i ∧ wk.pc = pc))

/-- The worker has passed the test and not yet made the call. -/
def Tested (w : Cluster n C) (k : Nat) (i p : Fin n) : Prop :=
  w.At k i p .setFlag ∨ w.At k i p .installSnapshot

/-- The worker has called `InstallSnapshot` in term `t` and the call has not returned. -/
def Outstanding (w : Cluster n C) (k : Nat) (i p : Fin n) (t : Int) : Prop :=
  w.At k i p .calling ∧ ∃ c ∈ w.calls, c.Installs k p t

instance (w : Cluster n C) (k : Nat) (i p : Fin n) : Decidable (w.Tested k i p) :=
  inferInstanceAs (Decidable (_ ∨ _))

instance (w : Cluster n C) (k : Nat) (i p : Fin n) (t : Int) :
    Decidable (w.Outstanding k i p t) :=
  inferInstanceAs (Decidable (_ ∧ _))

/-- The worker `k` goes to `pc`. -/
structure Moves (w w' : Cluster n C) (k : Nat) (wk : Worker n) (pc : WorkerPc) : Prop where
  worker : w.workers[k]? = some wk
  present : wk.incarnation = w.incarnation wk.src
  workers : w'.workers = w.workers.set k { wk with pc := pc }
  incarnation : w'.incarnation = w.incarnation

/-- What a step means for the calls. -/
inductive CallStep (w : Cluster n C) : Action n C → Cluster n C → Prop
  | quiet {a w'} : w'.workers = w.workers → w'.incarnation = w.incarnation →
      w'.calls ⊆ w.calls → (∀ i, (w.peers i).KeepsFlags (w'.peers i)) → CallStep w a w'
  | spawn {a w'} (new : List (Worker n)) : w'.workers = w.workers ++ new →
      (∀ wk ∈ new, wk.pc = .start ∧ wk.incarnation = w.incarnation wk.src) →
      w'.incarnation = w.incarnation → w'.calls ⊆ w.calls →
      w'.peers = w.peers → CallStep w a w'
  | finish {a w'} (k : Nat) (wk : Worker n) : Moves w w' k wk .cleanup →
      w'.calls ⊆ w.calls → (∀ i, (w.peers i).KeepsFlags (w'.peers i)) → CallStep w a w'
  | test {w'} (k : Nat) (wk : Worker n) : Moves w w' k wk .setFlag → wk.pc = .start →
      (w.peers wk.src).NeedsSnapshot wk.peer → w'.calls ⊆ w.calls →
      w'.peers = w.peers → CallStep w (.worker k) w'
  | entries {w'} (k : Nat) (wk : Worker n) (args : AppendEntriesArgs n C) :
      Moves w w' k wk .calling → wk.pc = .start →
      (∀ c ∈ w'.calls, c ∈ w.calls ∨ c = .entries k wk.peer args) →
      w'.peers = w.peers → CallStep w (.worker k) w'
  | flag {w'} (k : Nat) (wk : Worker n) : Moves w w' k wk .installSnapshot → wk.pc = .setFlag →
      w'.calls ⊆ w.calls → (∀ i, (w.peers i).KeepsFlags (w'.peers i)) →
      CallStep w (.worker k) w'
  | call {w'} (k : Nat) (wk : Worker n) (args : InstallSnapshotArgs n) :
      Moves w w' k wk .calling → wk.pc = .installSnapshot →
      (w.peers wk.src).installSnapshotArgs wk.peer = some args →
      (∀ c ∈ w'.calls, c ∈ w.calls ∨ c = .snapshot k wk.peer args) →
      w'.peers = w.peers → CallStep w (.worker k) w'
  | reset {w'} (k : Nat) (wk : Worker n) : Moves w w' k wk .done → wk.pc = .cleanup →
      w'.calls ⊆ w.calls → w'.peers = Function.update w.peers wk.src
        ((w.peers wk.src).setReplicating wk.peer false) → CallStep w (.worker k) w'
  | crash {a w'} (i : Fin n) : w'.workers = w.workers →
      w'.incarnation = Function.update w.incarnation i (w.incarnation i + 1) →
      w'.calls ⊆ w.calls → (∀ j ≠ i, w'.peers j = w.peers j) → CallStep w a w'

theorem keepsFlags_update {w : Cluster n C} {j : Fin n} {rf : Peer n C}
    (h : (w.peers j).KeepsFlags rf) (i : Fin n) :
    (w.peers i).KeepsFlags (Function.update w.peers j rf i) := by
  rw [Function.update_apply]
  split
  · next heq =>
      rw [heq]
      exact h
  · exact .refl _

/-- Only a worker that calls adds to the calls in flight. -/
theorem calls_subset {w w' : Cluster n C} {a : Action n C} (h : w.step a = some w')
    (hno : ∀ c, ¬ w.Sends a c) : w'.calls ⊆ w.calls :=
  fun c hc => (calls_of_step h hc).resolve_right fun hmakes => hno c hmakes.sends

theorem callStep_of_step {w w' : Cluster n C} {a : Action n C} (h : w.step a = some w') :
    CallStep w a w' := by
  cases trans_of_step h with
  | tickHeartbeat i elapsed timeout hlead =>
      refine .quiet (by simp) (by simp) (calls_subset h fun _ => id) fun i => ?_
      rw [goHeartbeat_peers]
      exact .refl _
  | tickElection i elapsed timeout hnot hn =>
      exact .quiet rfl rfl (calls_subset h fun _ => id)
        (keepsFlags_update (Peer.keepsFlags_startElection _))
  | tickIdle i elapsed timeout => exact .quiet rfl rfl (List.Subset.refl _) fun _ => .refl _
  | start i command =>
      refine .quiet (by simp [setPeer]) (by simp [setPeer]) (calls_subset h fun _ => id)
        fun j => ?_
      rw [goHeartbeat_peers]
      exact keepsFlags_update (Peer.keepsFlags_start _ command) j
  | snapshot i index data =>
      exact .quiet rfl rfl (List.Subset.refl _) (keepsFlags_update (Peer.keepsFlags_snapshot _ _ _))
  | heartbeatRun k i inc hk hinc hlead =>
      refine .spawn _ rfl (fun wk hwk => ?_) rfl (List.Subset.refl _) rfl
      obtain ⟨p, -, rfl⟩ := List.mem_map.mp hwk
      exact ⟨rfl, hinc⟩
  | heartbeatQuit k => exact .quiet rfl rfl (List.Subset.refl _) fun _ => .refl _
  | workerMoves k wk pc hk hinc hpc =>
      rcases hpc with ⟨hpc, -, rfl⟩ | ⟨hpc, hsnap, rfl⟩ | ⟨hpc, -, rfl⟩
      · exact .finish k wk ⟨hk, hinc, rfl, rfl⟩ (List.Subset.refl _) fun _ => .refl _
      · exact .test k wk ⟨hk, hinc, rfl, rfl⟩ hpc (Peer.needsSnapshot_of_sendSnapshot hsnap)
          (List.Subset.refl _) rfl
      · exact .finish k wk ⟨hk, hinc, rfl, rfl⟩ (List.Subset.refl _) fun _ => .refl _
  | workerEntries k wk args hk hinc hpc hargs =>
      exact .entries k wk args ⟨hk, hinc, rfl, rfl⟩ hpc (fun c hc => mem_calls_request hc rfl) rfl
  | workerFlag k wk flag pc hk hinc hpc =>
      rcases hpc with ⟨hpc, rfl, rfl⟩ | ⟨hpc, rfl, rfl⟩
      · exact .flag k wk ⟨hk, hinc, rfl, rfl⟩ hpc (List.Subset.refl _)
          (keepsFlags_update (Peer.keepsFlags_setReplicating _ _))
      · exact .reset k wk ⟨hk, hinc, rfl, rfl⟩ hpc (List.Subset.refl _) rfl
  | workerSnapshot k wk args hk hinc hpc hargs =>
      exact .call k wk args ⟨hk, hinc, rfl, rfl⟩ hpc hargs (fun c hc => mem_calls_request hc rfl)
        rfl
  | deliverVote k e dst args hk =>
      exact .quiet rfl rfl (calls_subset h fun _ => id)
        (keepsFlags_update (Peer.keepsFlags_requestVote _ _))
  | deliverEntries k m dst args hk =>
      exact .quiet rfl rfl (calls_subset h fun _ => id)
        (keepsFlags_update (Peer.keepsFlags_appendEntries _ _))
  | deliverSnapshot k m dst args hk =>
      exact .quiet rfl rfl (calls_subset h fun _ => id)
        (keepsFlags_update (Peer.keepsFlags_installSnapshot _ _))
  | receiveVote k e dst args reply el rf votes started hk hel hinc hwait hreply =>
      refine .quiet (by simp) (by simp) (calls_subset h fun _ => id) fun i => ?_
      rw [readVote_peers]
      exact keepsFlags_update (Peer.keepsFlags_handleRequestVoteReply hreply) i
  | receiveEntries k m dst args reply wk hk hm hinc hpc =>
      exact .finish m wk ⟨hm, hinc, rfl, rfl⟩ (calls_subset h fun _ => id)
        (keepsFlags_update (Peer.keepsFlags_handleAppendEntriesReply _ _ _ _))
  | receiveSnapshot k m dst args reply wk hk hm hinc hpc =>
      exact .finish m wk ⟨hm, hinc, rfl, rfl⟩ (calls_subset h fun _ => id)
        (keepsFlags_update (Peer.keepsFlags_handleInstallSnapshotReply _ _ _ _))
  | callFails k wk hk hinc hpc =>
      exact .finish k wk ⟨hk, hinc, rfl, rfl⟩ (List.Subset.refl _) fun _ => .refl _
  | voteFails e peer el hel => exact .quiet rfl rfl (List.Subset.refl _) fun _ => .refl _
  | apply i rf msgs hsend happly =>
      exact .quiet rfl rfl (List.Subset.refl _)
        (keepsFlags_update (Peer.keepsFlags_applyCommitted happly))
  | send i msg rest hsend => exact .quiet rfl rfl (List.Subset.refl _) fun _ => .refl _
  | crash i => exact .crash i rfl rfl (List.Subset.refl _) fun j hj => Function.update_of_ne hj _ _

/-! ## Where the workers stand -/

theorem Moves.at_iff {w w' : Cluster n C} {k : Nat} {wk : Worker n} {pc : WorkerPc}
    (h : Moves w w' k wk pc) {m : Nat} {i p : Fin n} {q : WorkerPc} : w'.At m i p q ↔
      m = k ∧ i = wk.src ∧ p = wk.peer ∧ q = pc ∨ m ≠ k ∧ w.At m i p q := by
  have hlt := (List.getElem?_eq_some_iff.mp h.worker).1
  unfold At
  rw [h.workers, h.incarnation]
  by_cases hm : m = k
  · subst hm
    rw [List.getElem?_set_self hlt]
    constructor
    · rintro ⟨wk', hwk', hsrc, hpeer, -, hpc⟩
      cases hwk'
      exact .inl ⟨rfl, hsrc.symm, hpeer.symm, hpc.symm⟩
    · rintro (⟨-, rfl, rfl, rfl⟩ | ⟨hne, -⟩)
      · exact ⟨_, rfl, rfl, rfl, h.present, rfl⟩
      · exact absurd rfl hne
  · rw [List.getElem?_set_ne (Ne.symm hm)]
    simp [hm]

theorem Moves.at_self {w w' : Cluster n C} {k : Nat} {wk : Worker n} {pc : WorkerPc}
    (h : Moves w w' k wk pc) : w.At k wk.src wk.peer wk.pc :=
  ⟨wk, h.worker, rfl, rfl, h.present, rfl⟩

theorem At.unique {w : Cluster n C} {k : Nat} {i i' p p' : Fin n} {pc pc' : WorkerPc}
    (h : w.At k i p pc) (h' : w.At k i' p' pc') : i = i' ∧ p = p' ∧ pc = pc' := by
  obtain ⟨wk, hwk, rfl, rfl, -, rfl⟩ := h
  obtain ⟨wk', hwk', rfl, rfl, -, rfl⟩ := h'
  cases Option.some.inj (hwk.symm.trans hwk')
  exact ⟨rfl, rfl, rfl⟩

theorem At.lt {w : Cluster n C} {k : Nat} {i p : Fin n} {pc : WorkerPc} (h : w.At k i p pc) :
    k < w.workers.length := by
  obtain ⟨wk, hwk, -⟩ := h
  exact (List.getElem?_eq_some_iff.mp hwk).1

section Moves

variable {w w' : Cluster n C} {k m : Nat} {wk : Worker n} {pc : WorkerPc} {i p : Fin n} {t : Int}

theorem Moves.outstanding (h : Moves w w' k wk pc) (hcalls : w'.calls ⊆ w.calls)
    (hpc : pc ≠ .calling) (ho : w'.Outstanding m i p t) : m ≠ k ∧ w.Outstanding m i p t := by
  rcases h.at_iff.mp ho.1 with ⟨-, -, -, hq⟩ | ⟨hne, hat⟩
  · exact absurd hq.symm hpc
  · obtain ⟨c, hc, hinst⟩ := ho.2
    exact ⟨hne, hat, c, hcalls hc, hinst⟩

theorem Moves.tested (h : Moves w w' k wk pc) (hflag : pc ≠ .setFlag)
    (hcall : pc ≠ .installSnapshot) (ht : w'.Tested m i p) : m ≠ k ∧ w.Tested m i p := by
  rcases ht with hat | hat
  · rcases h.at_iff.mp hat with ⟨-, -, -, hq⟩ | ⟨hne, hat⟩
    · exact absurd hq.symm hflag
    · exact ⟨hne, .inl hat⟩
  · rcases h.at_iff.mp hat with ⟨-, -, -, hq⟩ | ⟨hne, hat⟩
    · exact absurd hq.symm hcall
    · exact ⟨hne, .inr hat⟩

theorem at_congr (hworkers : w'.workers = w.workers) (hinc : w'.incarnation i = w.incarnation i) :
    w'.At k i p pc ↔ w.At k i p pc := by
  unfold At
  rw [hworkers, hinc]

end Moves

/-- The worker has not made its call yet. -/
def WorkerPc.Early (pc : WorkerPc) : Prop := pc = .start ∨ pc = .setFlag ∨ pc = .installSnapshot

/-- Workers belong to incarnations that were started, and a call in flight is that of a
worker that has made it. -/
structure Recorded (w : Cluster n C) : Prop where
  started : ∀ wk ∈ w.workers, wk.incarnation ≤ w.incarnation wk.src
  called : ∀ c ∈ w.calls, ∃ wk, w.workers[c.worker]? = some wk ∧ ¬ WorkerPc.Early wk.pc

namespace Recorded

variable {w w' : Cluster n C}

theorem init : Recorded (Cluster.init : Cluster n C) where
  started := by simp [Cluster.init]
  called := by simp [Cluster.init, calls]

theorem moves (h : Recorded w) {k : Nat} {wk : Worker n} {pc : WorkerPc}
    (hm : Moves w w' k wk pc)
    (hcalls : ∀ c ∈ w'.calls, c ∈ w.calls ∨ c.worker = k)
    (hpc : WorkerPc.Early pc → WorkerPc.Early wk.pc ∧ w'.calls ⊆ w.calls) :
    Recorded w' where
  started := by
    intro v hv
    rw [hm.workers] at hv
    rw [hm.incarnation]
    rcases List.mem_or_eq_of_mem_set hv with hold | rfl
    · exact h.started v hold
    · exact hm.present.le
  called := by
    intro c hc
    have hlt := (List.getElem?_eq_some_iff.mp hm.worker).1
    rw [hm.workers]
    by_cases hck : c.worker = k
    · refine ⟨{ wk with pc := pc }, by rw [hck, List.getElem?_set_self hlt], fun hearly => ?_⟩
      obtain ⟨hwk, hsub⟩ := hpc hearly
      obtain ⟨v, hv, hnot⟩ := h.called c (hsub hc)
      rw [hck, hm.worker] at hv
      cases hv
      exact hnot hwk
    · rw [List.getElem?_set_ne (Ne.symm hck)]
      exact h.called c ((hcalls c hc).resolve_right hck)

theorem step (h : Recorded w) {a : Action n C} (hs : w.step a = some w') : Recorded w' := by
  cases callStep_of_step hs with
  | quiet hworkers hinc hcalls _ =>
      refine ⟨fun wk hwk => ?_, fun c hc => ?_⟩
      · rw [hinc]
        exact h.started wk (hworkers ▸ hwk)
      · rw [hworkers]
        exact h.called c (hcalls hc)
  | spawn new hworkers hnew hinc hcalls _ =>
      refine ⟨fun wk hwk => ?_, fun c hc => ?_⟩
      · rw [hinc]
        rw [hworkers] at hwk
        rcases List.mem_append.mp hwk with hold | hfresh
        · exact h.started wk hold
        · exact (hnew wk hfresh).2.le
      · obtain ⟨wk, hwk, hpc⟩ := h.called c (hcalls hc)
        refine ⟨wk, ?_, hpc⟩
        rw [hworkers, List.getElem?_append_left (List.getElem?_eq_some_iff.mp hwk).1, hwk]
  | finish k wk hm hcalls _ =>
      exact h.moves hm (fun c hc => .inl (hcalls hc)) fun hpc => by simp [WorkerPc.Early] at hpc
  | test k wk hm hpc _ hcalls _ =>
      exact h.moves hm (fun c hc => .inl (hcalls hc)) fun _ => ⟨.inl hpc, hcalls⟩
  | entries k wk args hm _ hcalls _ =>
      refine h.moves hm (fun c hc => ?_) fun hpc => by simp [WorkerPc.Early] at hpc
      exact (hcalls c hc).imp_right fun heq => by rw [heq]; rfl
  | flag k wk hm hpc hcalls _ =>
      exact h.moves hm (fun c hc => .inl (hcalls hc)) fun _ => ⟨.inr (.inl hpc), hcalls⟩
  | call k wk args hm _ _ hcalls _ =>
      refine h.moves hm (fun c hc => ?_) fun hpc => by simp [WorkerPc.Early] at hpc
      exact (hcalls c hc).imp_right fun heq => by rw [heq]; rfl
  | reset k wk hm _ hcalls _ =>
      exact h.moves hm (fun c hc => .inl (hcalls hc)) fun hpc => by simp [WorkerPc.Early] at hpc
  | crash i hworkers hinc hcalls _ =>
      refine ⟨fun wk hwk => ?_, fun c hc => ?_⟩
      · have hle := h.started wk (hworkers ▸ hwk)
        rw [hinc, Function.update_apply]
        split
        · next heq =>
            rw [heq] at hle
            omega
        · exact hle
      · rw [hworkers]
        exact h.called c (hcalls hc)

/-- A worker that has not called has no call in flight. -/
theorem not_installs (h : Recorded w) {k : Nat} {i p q : Fin n} {pc : WorkerPc} {t : Int}
    (hat : w.At k i p pc) (hpc : WorkerPc.Early pc) {c : Call n C} (hc : c ∈ w.calls) :
    ¬ c.Installs k q t := by
  intro hinst
  obtain ⟨wk, hwk, -, -, -, rfl⟩ := hat
  obtain ⟨v, hv, hnot⟩ := h.called c hc
  rw [hinst.worker] at hv
  cases Option.some.inj (hwk.symm.trans hv)
  exact hnot hpc

end Recorded

/-! ## Exclusion -/

/-- A worker takes the snapshot branch only while no other worker for the peer is between
its test and its call, calls only while the flag is set, and clears the flag only while
no other worker has a call of the present term outstanding. -/
def Excludes (w : Cluster n C) : Action n C → Prop
  | .worker k => ∀ wk ∈ w.workers[k]?,
      (wk.pc = .start → (w.peers wk.src).NeedsSnapshot wk.peer →
        ∀ m < w.workers.length, m ≠ k → ¬ w.Tested m wk.src wk.peer) ∧
      (wk.pc = .installSnapshot → ((w.peers wk.src).installSnapshotArgs wk.peer).isSome →
        (w.peers wk.src).isReplicating wk.peer = true) ∧
      (wk.pc = .cleanup → ∀ m < w.workers.length, m ≠ k →
        ¬ w.Outstanding m wk.src wk.peer (w.peers wk.src).currentTerm)
  | _ => True

instance (w : Cluster n C) : (act : Action n C) → Decidable (Excludes w act)
  | .worker k => inferInstanceAs (Decidable (∀ wk ∈ w.workers[k]?,
      (wk.pc = .start → (w.peers wk.src).NeedsSnapshot wk.peer →
        ∀ m < w.workers.length, m ≠ k → ¬ w.Tested m wk.src wk.peer) ∧
      (wk.pc = .installSnapshot → ((w.peers wk.src).installSnapshotArgs wk.peer).isSome →
        (w.peers wk.src).isReplicating wk.peer = true) ∧
      (wk.pc = .cleanup → ∀ m < w.workers.length, m ≠ k →
        ¬ w.Outstanding m wk.src wk.peer (w.peers wk.src).currentTerm)))
  | .tick .. | .start .. | .snapshot .. | .sendHeartbeat .. | .deliver .. | .receive ..
  | .callFails .. | .voteFails .. | .apply .. | .send .. | .crash .. => isTrue trivial

/-- What exclusion keeps, for the present incarnation of each server. -/
structure Excluded (w : Cluster n C) : Prop where
  recorded : Recorded w
  term_le : ∀ {k i p t}, w.Outstanding k i p t → t ≤ (w.peers i).currentTerm
  unique : ∀ {k m i p t}, w.Outstanding k i p t → w.Outstanding m i p t → k = m
  alone : ∀ {k m i p}, w.Tested k i p → w.Tested m i p → k = m
  idle : ∀ {k m i p}, w.Tested k i p → ¬ w.Outstanding m i p (w.peers i).currentTerm
  flag : ∀ {k i p}, w.Outstanding k i p (w.peers i).currentTerm →
    (w.peers i).isReplicating p = true

namespace Excluded

variable {w w' : Cluster n C}

theorem init : Excluded (Cluster.init : Cluster n C) := by
  have hno : ∀ {k : Nat} {i p : Fin n} {pc : WorkerPc},
      ¬ (Cluster.init : Cluster n C).At k i p pc := fun h => Nat.not_lt_zero _ h.lt
  have htest : ∀ {k : Nat} {i p : Fin n}, ¬ (Cluster.init : Cluster n C).Tested k i p :=
    fun h => h.elim hno hno
  exact ⟨.init, fun h => (hno h.1).elim, fun h => (hno h.1).elim, fun h => (htest h).elim,
    fun h => (htest h).elim, fun h => (hno h.1).elim⟩

/-- A step that starts no test and no call and clears no flag. -/
theorem calm (h : Excluded w) (hr : Recorded w')
    (hout : ∀ {k i p t}, w'.Outstanding k i p t → w.Outstanding k i p t)
    (htest : ∀ {k i p}, w'.Tested k i p → w.Tested k i p)
    (hpeers : ∀ {k i p t}, w'.Outstanding k i p t → (w.peers i).KeepsFlags (w'.peers i)) :
    Excluded w' := by
  -- a call of the present term was one before the step
  have hterm : ∀ {k i p}, w'.Outstanding k i p (w'.peers i).currentTerm →
      (w'.peers i).currentTerm = (w.peers i).currentTerm := fun ho =>
    le_antisymm (h.term_le (hout ho)) (hpeers ho).term
  exact {
    recorded := hr
    term_le := fun ho => (h.term_le (hout ho)).trans (hpeers ho).term
    unique := fun ho ho' => h.unique (hout ho) (hout ho')
    alone := fun ht ht' => h.alone (htest ht) (htest ht')
    idle := fun ht ho => h.idle (htest ht) (hterm ho ▸ hout ho)
    flag := fun ho => (hpeers ho).flags (hterm ho) _ (h.flag (hterm ho ▸ hout ho)) }

/-- A worker passes the test: the flag says that no call is outstanding. -/
theorem test (h : Excluded w) (hr : Recorded w') {k : Nat} {wk : Worker n}
    (hm : Moves w w' k wk .setFlag) (hneeds : (w.peers wk.src).NeedsSnapshot wk.peer)
    (hcalls : w'.calls ⊆ w.calls) (hpeers : w'.peers = w.peers)
    (hok : ∀ m < w.workers.length, m ≠ k → ¬ w.Tested m wk.src wk.peer) : Excluded w' := by
  have hout : ∀ {m i p t}, w'.Outstanding m i p t → w.Outstanding m i p t := fun ho =>
    (hm.outstanding hcalls (by simp) ho).2
  have htest : ∀ {m i p}, w'.Tested m i p →
      m = k ∧ i = wk.src ∧ p = wk.peer ∨ m ≠ k ∧ w.Tested m i p := by
    rintro m i p (hat | hat)
    · rcases hm.at_iff.mp hat with ⟨hmk, hi, hp, -⟩ | ⟨hne, hold⟩
      · exact .inl ⟨hmk, hi, hp⟩
      · exact .inr ⟨hne, .inl hold⟩
    · rcases hm.at_iff.mp hat with ⟨-, -, -, hq⟩ | ⟨hne, hold⟩
      · cases hq
      · exact .inr ⟨hne, .inr hold⟩
  have hothers : ∀ {m}, m ≠ k → ¬ w.Tested m wk.src wk.peer := fun hne ht =>
    hok _ (ht.elim At.lt At.lt) hne ht
  refine ⟨hr, fun ho => ?_, fun ho ho' => h.unique (hout ho) (hout ho'), fun ht ht' => ?_,
    fun ht ho => ?_, fun ho => ?_⟩
  · rw [hpeers]
    exact h.term_le (hout ho)
  · rcases htest ht with ⟨rfl, rfl, rfl⟩ | ⟨hne, hold⟩
    · rcases htest ht' with ⟨rfl, -, -⟩ | ⟨hne', hold'⟩
      · rfl
      · exact absurd hold' (hothers hne')
    · rcases htest ht' with ⟨rfl, rfl, rfl⟩ | ⟨hne', hold'⟩
      · exact absurd hold (hothers hne)
      · exact h.alone hold hold'
  · rw [hpeers] at ho
    rcases htest ht with ⟨rfl, rfl, rfl⟩ | ⟨-, hold⟩
    · have hset := h.flag (hout ho)
      rw [hneeds.2.2] at hset
      cases hset
    · exact h.idle hold (hout ho)
  · rw [hpeers] at ho ⊢
    exact h.flag (hout ho)

/-- A worker makes its call: it is the only one of its term. -/
theorem call (h : Excluded w) (hr : Recorded w') {k : Nat} {wk : Worker n}
    {args : InstallSnapshotArgs n} (hm : Moves w w' k wk .calling) (hpc : wk.pc = .installSnapshot)
    (hargs : (w.peers wk.src).installSnapshotArgs wk.peer = some args)
    (hcalls : ∀ c ∈ w'.calls, c ∈ w.calls ∨ c = .snapshot k wk.peer args)
    (hpeers : w'.peers = w.peers) (hok : (w.peers wk.src).isReplicating wk.peer = true) :
    Excluded w' := by
  have hself : w.At k wk.src wk.peer .installSnapshot := hpc ▸ hm.at_self
  have hterm := Peer.installSnapshotArgs_term hargs
  have hout : ∀ {m i p t}, w'.Outstanding m i p t →
      m = k ∧ i = wk.src ∧ p = wk.peer ∧ t = (w.peers wk.src).currentTerm ∨
        m ≠ k ∧ w.Outstanding m i p t := by
    rintro m i p t ⟨hat, c, hc, hinst⟩
    rcases hm.at_iff.mp hat with ⟨rfl, rfl, rfl, -⟩ | ⟨hne, hold⟩
    · rcases hcalls c hc with hc | rfl
      · exact absurd hinst (h.recorded.not_installs hself (.inr (.inr rfl)) hc)
      · exact .inl ⟨rfl, rfl, rfl, hinst.2.2.symm.trans hterm⟩
    · rcases hcalls c hc with hc | rfl
      · exact .inr ⟨hne, hold, c, hc, hinst⟩
      · exact absurd hinst.1.symm hne
  have htest : ∀ {m i p}, w'.Tested m i p → m ≠ k ∧ w.Tested m i p := fun ht =>
    hm.tested (by simp) (by simp) ht
  refine ⟨hr, fun ho => ?_, fun ho ho' => ?_, fun ht ht' => h.alone (htest ht).2 (htest ht').2,
    fun ht ho => ?_, fun ho => ?_⟩
  · rw [hpeers]
    rcases hout ho with ⟨-, rfl, -, rfl⟩ | ⟨-, hold⟩
    · exact le_refl _
    · exact h.term_le hold
  · rcases hout ho with ⟨rfl, rfl, rfl, rfl⟩ | ⟨-, hold⟩
    · rcases hout ho' with ⟨rfl, -⟩ | ⟨-, hold'⟩
      · rfl
      · exact absurd hold' (h.idle (.inr hself))
    · rcases hout ho' with ⟨rfl, rfl, rfl, rfl⟩ | ⟨-, hold'⟩
      · exact absurd hold (h.idle (.inr hself))
      · exact h.unique hold hold'
  · obtain ⟨hne, hold⟩ := htest ht
    rw [hpeers] at ho
    rcases hout ho with ⟨rfl, rfl, rfl, -⟩ | ⟨-, hcall⟩
    · exact hne (h.alone hold (.inr hself))
    · exact h.idle hold hcall
  · rw [hpeers] at ho ⊢
    rcases hout ho with ⟨-, rfl, rfl, -⟩ | ⟨-, hold⟩
    · exact hok
    · exact h.flag hold

/-- A worker clears the flag: no other worker needs it. -/
theorem reset (h : Excluded w) (hr : Recorded w') {k : Nat} {wk : Worker n}
    (hm : Moves w w' k wk .done) (hcalls : w'.calls ⊆ w.calls)
    (hpeers : w'.peers = Function.update w.peers wk.src
      ((w.peers wk.src).setReplicating wk.peer false))
    (hok : ∀ m < w.workers.length, m ≠ k →
      ¬ w.Outstanding m wk.src wk.peer (w.peers wk.src).currentTerm) : Excluded w' := by
  have hout : ∀ {m i p t}, w'.Outstanding m i p t → m ≠ k ∧ w.Outstanding m i p t := fun ho =>
    hm.outstanding hcalls (by simp) ho
  have htest : ∀ {m i p}, w'.Tested m i p → w.Tested m i p := fun ht =>
    (hm.tested (by simp) (by simp) ht).2
  have hterm : ∀ i, (w'.peers i).currentTerm = (w.peers i).currentTerm := by
    intro i
    rw [hpeers, Function.update_apply]
    split
    · next heq => rw [heq]; rfl
    · rfl
  refine ⟨hr, fun ho => ?_, fun ho ho' => h.unique (hout ho).2 (hout ho').2,
    fun ht ht' => h.alone (htest ht) (htest ht'), fun ht ho => ?_, fun {m i p} ho => ?_⟩
  · rw [hterm]
    exact h.term_le (hout ho).2
  · rw [hterm] at ho
    exact h.idle (htest ht) (hout ho).2
  · rw [hterm] at ho
    obtain ⟨hne, hold⟩ := hout ho
    rw [hpeers, Function.update_apply]
    split
    · next heq =>
        subst heq
        have hp : p ≠ wk.peer := by
          rintro rfl
          exact hok m hold.1.lt hne hold
        show Function.update (w.peers wk.src).isReplicating wk.peer false p = true
        rw [Function.update_of_ne hp]
        exact h.flag hold
    · exact h.flag hold

theorem step (h : Excluded w) {a : Action n C} (hok : Excludes w a) (hs : w.step a = some w') :
    Excluded w' := by
  have hr : Recorded w' := h.recorded.step hs
  cases callStep_of_step hs with
  | quiet hworkers hinc hcalls hpeers =>
      have hat : ∀ {k i p pc}, w'.At k i p pc → w.At k i p pc :=
        fun hw => (at_congr hworkers (congrFun hinc _)).mp hw
      exact h.calm hr (fun ⟨ho, c, hc, hinst⟩ => ⟨hat ho, c, hcalls hc, hinst⟩)
        (fun ht => ht.imp hat hat) fun _ => hpeers _
  | spawn new hworkers hnew hinc hcalls hpeers =>
      have hat : ∀ {k i p pc}, pc ≠ .start → w'.At k i p pc → w.At k i p pc := by
        rintro k i p pc hpc ⟨wk, hwk, hsrc, hpeer, hpres, rfl⟩
        rw [hinc] at hpres
        rw [hworkers] at hwk
        rcases Nat.lt_or_ge k w.workers.length with hlt | hge
        · rw [List.getElem?_append_left hlt] at hwk
          exact ⟨wk, hwk, hsrc, hpeer, hpres, rfl⟩
        · rw [List.getElem?_append_right hge] at hwk
          exact absurd (hnew wk (List.mem_of_getElem? hwk)).1 hpc
      refine h.calm hr (fun ⟨ho, c, hc, hinst⟩ => ⟨hat (by simp) ho, c, hcalls hc, hinst⟩)
        (fun ht => ht.imp (hat (by simp)) (hat (by simp))) fun _ => ?_
      rw [hpeers]
      exact .refl _
  | finish k wk hm hcalls hpeers =>
      exact h.calm hr (fun ho => (hm.outstanding hcalls (by simp) ho).2)
        (fun ht => (hm.tested (by simp) (by simp) ht).2) fun _ => hpeers _
  | test k wk hm hpc hneeds hcalls hpeers =>
      exact h.test hr hm hneeds hcalls hpeers ((hok wk hm.worker).1 hpc hneeds)
  | entries k wk args hm hpc hcalls hpeers =>
      have hself : w.At k wk.src wk.peer .start := hpc ▸ hm.at_self
      refine h.calm hr (fun ho => ?_) (fun ht => (hm.tested (by simp) (by simp) ht).2) fun _ => ?_
      · obtain ⟨hat, c, hc, hinst⟩ := ho
        have hc : c ∈ w.calls := (hcalls c hc).resolve_right fun heq => by
          rw [heq] at hinst
          exact hinst
        rcases hm.at_iff.mp hat with ⟨rfl, -⟩ | ⟨-, hold⟩
        · exact absurd hinst (h.recorded.not_installs hself (.inl rfl) hc)
        · exact ⟨hold, c, hc, hinst⟩
      · rw [hpeers]
        exact .refl _
  | flag k wk hm hpc hcalls hpeers =>
      have hself : w.At k wk.src wk.peer .setFlag := hpc ▸ hm.at_self
      refine h.calm hr (fun ho => (hm.outstanding hcalls (by simp) ho).2) ?_
        fun _ => hpeers _
      rintro m i p (hat | hat)
      · rcases hm.at_iff.mp hat with ⟨-, -, -, hq⟩ | ⟨-, hold⟩
        · cases hq
        · exact .inl hold
      · rcases hm.at_iff.mp hat with ⟨rfl, rfl, rfl, -⟩ | ⟨-, hold⟩
        · exact .inl hself
        · exact .inr hold
  | call k wk args hm hpc hargs hcalls hpeers =>
      exact h.call hr hm hpc hargs hcalls hpeers
        ((hok wk hm.worker).2.1 hpc (by rw [hargs]; rfl))
  | reset k wk hm hpc hcalls hpeers =>
      exact h.reset hr hm hcalls hpeers ((hok wk hm.worker).2.2 hpc)
  | crash i hworkers hinc hcalls hpeers =>
      -- the new incarnation has no workers yet
      have hat : ∀ {k j p pc}, w'.At k j p pc → j ≠ i ∧ w.At k j p pc := by
        rintro k j p pc hw
        have hne : j ≠ i := by
          rintro rfl
          obtain ⟨wk, hwk, hsrc, -, hpres, -⟩ := hw
          have hle := h.recorded.started wk (hworkers ▸ List.mem_of_getElem? hwk)
          rw [hinc, Function.update_self] at hpres
          rw [hsrc] at hle
          omega
        exact ⟨hne, (at_congr hworkers (by rw [hinc, Function.update_of_ne hne])).mp hw⟩
      refine h.calm hr (fun ⟨ho, c, hc, hinst⟩ => ⟨(hat ho).2, c, hcalls hc, hinst⟩)
        (fun ht => ht.imp (fun hw => (hat hw).2) fun hw => (hat hw).2) fun ho => ?_
      rw [hpeers _ (hat ho.1).1]
      exact .refl _

end Excluded

/-- In a run that excludes, no two workers of a server have `InstallSnapshot` calls of one
term to one peer outstanding. -/
theorem installSnapshot_unique {w : Cluster n C} (h : Run.Path step Excludes init w)
    {k m : Nat} {i p : Fin n} {t : Int} (hk : w.Outstanding k i p t)
    (hm : w.Outstanding m i p t) : k = m :=
  (h.invariant (fun _ _ _ he hok hs => Excluded.step he hok hs) Excluded.init).unique hk hm

/-- Peer 0 leads term 1, has entry 1 committed with peer 2 and compacted.  Its workers 0
and 2 are for peer 1, which lacks that entry. -/
def snapshotDue : List (Action 3 Nat) :=
  [.tick 0 400 200, .deliver 1, .receive 0, .start 0 (some 7), .sendHeartbeat 0, .worker 1,
   .deliver 1, .receive 0, .apply 0, .send 0, .snapshot 0 1 [1], .sendHeartbeat 0]

/-- Worker 0 calls, and is the only one to do so. -/
theorem installSnapshot_unique_due : ∃ w : Cluster 3 Nat,
    Run.Path step Excludes init w ∧ w.Outstanding 0 0 1 1 ∧
    ∀ k, w.Outstanding k 0 1 1 → k = 0 := by
  have hrun : (Run.exec step Excludes init
      (snapshotDue ++ [.worker 0, .worker 0, .worker 0])).map
      (fun w => decide (w.Outstanding 0 0 1 1)) = some true := by decide +kernel
  obtain ⟨w, hpath, hout⟩ := Run.path_of_exec_map _ _ hrun
  have hout := of_decide_eq_true hout
  exact ⟨w, hpath, hout, fun k hk => installSnapshot_unique hpath hk hout⟩

/-- Both workers pass the test before either sets the flag, and both call. -/
theorem snapshotDue_two_calls : ∃ w : Cluster 3 Nat,
    Run.Path step Run.always init w ∧ (w.peers 0).status = .leader ∧
    (w.peers 0).currentTerm = 1 ∧ w.Outstanding 0 0 1 1 ∧ w.Outstanding 2 0 1 1 := by
  have hrun : (Run.exec step Run.always init
      (snapshotDue ++ [.worker 0, .worker 2, .worker 0, .worker 2, .worker 0, .worker 2])).map
      (fun w => decide ((w.peers 0).status = .leader ∧ (w.peers 0).currentTerm = 1 ∧
        w.Outstanding 0 0 1 1 ∧ w.Outstanding 2 0 1 1)) = some true := by decide +kernel
  obtain ⟨w, hpath, hout⟩ := Run.path_of_exec_map _ _ hrun
  exact ⟨w, hpath, of_decide_eq_true hout⟩

end Cluster
end Raft
end Labs
