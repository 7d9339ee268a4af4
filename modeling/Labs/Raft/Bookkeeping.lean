import Labs.Raft.Calls
import Labs.Raft.Leader

/-!
# What a leader knows of its peers

For each peer a leader keeps `matchIndex`, up to which it knows the peer to have its log,
and `nextIndex`, the entry it sends next.  A call is about entries that the leader had when
it made it, and its log only grows: this bounds what an answer can say, whatever order the
answers arrive in, so that both indices stay within the log.

A success keeps `nextIndex` above `matchIndex`.  A rejection does not look at `matchIndex`:
the one stays above the other as long as every rejection that a leader reads makes it go
back to an index above what it knows.
-/

namespace Labs
namespace Raft

variable {n : Nat} {C : Type}

namespace Peer

/-! ## Keeping the books -/

/-- Neither what a leader knows nor what it sends next is beyond its log. -/
def Kept (rf : Peer n C) : Prop :=
  rf.status = .leader → ∀ p, 0 ≤ rf.matchIndex p ∧ rf.matchIndex p ≤ rf.lastLogIndex ∧
    rf.nextIndex p ≤ rf.lastLogIndex + 1

namespace Kept

variable {rf rf' : Peer n C}

theorem keep (h : Kept rf) (hadv : Advances rf rf') (hkeeps : KeepsProgress rf rf') :
    Kept rf' := by
  intro hlead' p
  obtain ⟨hlead, hterm, hnext, hmatch⟩ := hkeeps hlead'
  have hold := h hlead p
  rw [hnext, hmatch]
  rcases hadv.role hterm with hf | hcand | ⟨-, hlast⟩
  · rw [hf] at hlead'
    cases hlead'
  · rw [hcand] at hlead
    cases hlead
  · omega

theorem becomeLeader (hview : Viewed rf) (hcand : rf.status = .candidate) :
    Kept rf.becomeLeader.1 := by
  have hindex := hview.index
  have hlen := List.length_pos_iff.mpr hview.log
  intro _ p
  rw [becomeLeader_of_candidate hcand]
  simp only [Peer.lastLogIndex]
  omega

/-- The peer learns that another one has its log up to an index that it has itself. -/
theorem learn (h : Kept rf) (hlead : rf.status = .leader) {peer : Fin n} {index commit : Int}
    (hindex : index ≤ rf.lastLogIndex) :
    Kept { rf with
      matchIndex := Function.update rf.matchIndex peer (max (rf.matchIndex peer) index)
      nextIndex := Function.update rf.nextIndex peer (max (rf.matchIndex peer) index + 1)
      commitIndex := commit } := by
  intro _ p
  have hold := h hlead p
  show 0 ≤ Function.update rf.matchIndex peer _ p ∧
    Function.update rf.matchIndex peer _ p ≤ rf.lastLogIndex ∧
    Function.update rf.nextIndex peer _ p ≤ rf.lastLogIndex + 1
  rw [Function.update_apply, Function.update_apply]
  split
  · next heq =>
      rw [heq] at hold
      omega
  · exact hold

theorem handleAppendEntriesReply (h : Kept rf) (hview : Viewed rf) {dst : Fin n}
    {args : AppendEntriesArgs n C} {reply : AppendEntriesReply}
    (hlast : rf.status = .leader → rf.currentTerm = args.term →
      args.prevLogIndex + args.entries.length ≤ rf.lastLogIndex)
    (hhint : reply.success = false →
      reply.xLen ≤ args.prevLogIndex + 1 ∧ reply.xIndex ≤ args.prevLogIndex + 1) :
    Kept (rf.handleAppendEntriesReply dst args reply) := by
  rcases handleAppendEntriesReply_cases rf dst args reply with
    heq | ⟨-, heq⟩ | ⟨hlead, hterm, hle, ⟨-, heq⟩ | ⟨hs, -⟩⟩
  · rw [heq]
    exact h
  · rw [heq]
    exact h.keep (advances_stepDown rf _) (keepsProgress_stepDown rf _)
  · obtain ⟨k, heq'⟩ := updateLeaderCommitIndex_eq
      (rf.updateMatchAndNextIndex dst (args.prevLogIndex + args.entries.length))
    rw [heq, heq', updateMatchAndNextIndex_eq]
    exact h.learn hlead (hlast hlead hterm)
  · obtain ⟨ℓ, b, hc⟩ := hview.compacts
    obtain ⟨hxlen, hxindex⟩ := hhint hs
    have hend := hlast hlead hterm
    have hlen := hc.lastLogIndex
    have hnext : rf.nextAfter reply ≤ (ℓ.length : Int) + 1 := hc.nextAfter_le (by omega) (by omega)
    rw [handleAppendEntriesReply_of_rejected hlead hterm.symm (by omega) hs]
    intro _ p
    have hold := h hlead p
    show 0 ≤ rf.matchIndex p ∧ rf.matchIndex p ≤ rf.lastLogIndex ∧
      Function.update rf.nextIndex dst _ p ≤ rf.lastLogIndex + 1
    rw [Function.update_apply]
    split
    · omega
    · exact hold

theorem handleInstallSnapshotReply (h : Kept rf) {dst : Fin n} {args : InstallSnapshotArgs n}
    {reply : InstallSnapshotReply}
    (hlast : rf.status = .leader → rf.currentTerm = args.term →
      args.lastIncludedIndex ≤ rf.lastLogIndex) :
    Kept (rf.handleInstallSnapshotReply dst args reply) := by
  rcases handleInstallSnapshotReply_cases rf dst args reply with
    heq | ⟨-, heq⟩ | ⟨hlead, hterm, -, heq⟩
  · rw [heq]
    exact h
  · rw [heq]
    exact h.keep (advances_stepDown rf _) (keepsProgress_stepDown rf _)
  · rw [heq, updateMatchAndNextIndex_eq]
    exact h.learn hlead (hlast hlead hterm)

end Kept

/-- A leader's next indices are above what it knows. -/
def Above (rf : Peer n C) : Prop :=
  rf.status = .leader → ∀ p, rf.matchIndex p < rf.nextIndex p

namespace Above

variable {rf rf' : Peer n C}

theorem keep (h : Above rf) (hkeeps : KeepsProgress rf rf') : Above rf' := by
  intro hlead' p
  obtain ⟨hlead, -, hnext, hmatch⟩ := hkeeps hlead'
  rw [hnext, hmatch]
  exact h hlead p

theorem becomeLeader (hview : Viewed rf) (hcand : rf.status = .candidate) :
    Above rf.becomeLeader.1 := by
  have hlen := List.length_pos_iff.mpr hview.log
  intro _ p
  rw [becomeLeader_of_candidate hcand]
  dsimp only
  omega

theorem learn (h : Above rf) (hlead : rf.status = .leader) {peer : Fin n} {index commit : Int} :
    Above { rf with
      matchIndex := Function.update rf.matchIndex peer (max (rf.matchIndex peer) index)
      nextIndex := Function.update rf.nextIndex peer (max (rf.matchIndex peer) index + 1)
      commitIndex := commit } := by
  intro _ p
  show Function.update rf.matchIndex peer _ p < Function.update rf.nextIndex peer _ p
  rw [Function.update_apply, Function.update_apply]
  split
  · omega
  · exact h hlead p

/-- Only a rejection can make the leader go back too far. -/
theorem handleAppendEntriesReply (h : Above rf) {dst : Fin n} {args : AppendEntriesArgs n C}
    {reply : AppendEntriesReply}
    (hahead : rf.status = .leader → rf.currentTerm = args.term → reply.term ≤ args.term →
      reply.success = false → rf.matchIndex dst < rf.nextAfter reply) :
    Above (rf.handleAppendEntriesReply dst args reply) := by
  rcases handleAppendEntriesReply_cases rf dst args reply with
    heq | ⟨-, heq⟩ | ⟨hlead, hterm, hle, ⟨-, heq⟩ | ⟨hs, -⟩⟩
  · rw [heq]
    exact h
  · rw [heq]
    exact h.keep (keepsProgress_stepDown rf _)
  · obtain ⟨k, heq'⟩ := updateLeaderCommitIndex_eq
      (rf.updateMatchAndNextIndex dst (args.prevLogIndex + args.entries.length))
    rw [heq, heq', updateMatchAndNextIndex_eq]
    exact h.learn hlead
  · have hlt := hahead hlead hterm hle hs
    rw [handleAppendEntriesReply_of_rejected hlead hterm.symm (by omega) hs]
    intro _ p
    show rf.matchIndex p < Function.update rf.nextIndex dst _ p
    rw [Function.update_apply]
    split
    · next heq =>
        rw [heq]
        exact hlt
    · exact h hlead p

theorem handleInstallSnapshotReply (h : Above rf) {dst : Fin n} {args : InstallSnapshotArgs n}
    {reply : InstallSnapshotReply} : Above (rf.handleInstallSnapshotReply dst args reply) := by
  rcases handleInstallSnapshotReply_cases rf dst args reply with
    heq | ⟨-, heq⟩ | ⟨hlead, hterm, -, heq⟩
  · rw [heq]
    exact h
  · rw [heq]
    exact h.keep (keepsProgress_stepDown rf _)
  · rw [heq, updateMatchAndNextIndex_eq]
    exact h.learn hlead

end Above

end Peer

/-! ## Calls and the log of their sender -/

def Call.term : Call n C → Int
  | .entries _ _ args => args.term
  | .snapshot _ _ args => args.term

/-- The index that the call builds on. -/
def Call.prev : Call n C → Int
  | .entries _ _ args => args.prevLogIndex
  | .snapshot _ _ args => args.lastIncludedIndex

/-- The last index that the peer has if it accepts. -/
def Call.last : Call n C → Int
  | .entries _ _ args => args.prevLogIndex + args.entries.length
  | .snapshot _ _ args => args.lastIncludedIndex

namespace Peer

/-- The peer has made the call: while it leads the call's term it has what the call is
about. -/
structure Sent (rf : Peer n C) (c : Call n C) : Prop where
  prev : -1 ≤ c.prev
  term : c.term ≤ rf.currentTerm
  role : c.term = rf.currentTerm → rf.status ≠ .candidate ∧
    (rf.status = .leader → c.last ≤ rf.lastLogIndex)

theorem Sent.keep {rf rf' : Peer n C} {c : Call n C} (h : Sent rf c) (hadv : Advances rf rf') :
    Sent rf' c where
  prev := h.prev
  term := h.term.trans hadv.term
  role := by
    intro hterm
    have hle := h.term
    have hle' := hadv.term
    obtain ⟨hnot, hlast⟩ := h.role (by omega)
    rcases hadv.role (by omega) with hf | hcand | ⟨hstatus, hgrow⟩
    · exact ⟨by simp [hf], by simp [hf]⟩
    · exact absurd hcand hnot
    · rw [hstatus]
      exact ⟨hnot, fun hlead => (hlast hlead).trans hgrow⟩

theorem sent_of_leader {rf : Peer n C} {c : Call n C} (hlead : rf.status = .leader)
    (hprev : -1 ≤ c.prev) (hterm : c.term = rf.currentTerm) (hlast : c.last ≤ rf.lastLogIndex) :
    Sent rf c :=
  ⟨hprev, hterm.le, fun _ => ⟨by simp [hlead], fun _ => hlast⟩⟩

theorem Viewed.sendEntries {rf : Peer n C} (h : Viewed rf) {peer : Fin n} {k : Nat}
    {args : AppendEntriesArgs n C} (hargs : rf.heartbeatWorker peer = .sendEntries args) :
    Sent rf (.entries k peer args) := by
  obtain ⟨hlead, hlow, hhigh, rfl⟩ := heartbeatWorker_sendEntries hargs
  have hindex := h.index
  unfold toPhysicalIndex at hlow hhigh
  refine sent_of_leader hlead ?_ rfl ?_
  · show -1 ≤ rf.nextIndex peer - 1
    omega
  · simp only [Call.last, toPhysicalIndex, lastLogIndex, List.length_drop]
    omega

theorem Viewed.sendSnapshot {rf : Peer n C} (h : Viewed rf) {peer : Fin n} {k : Nat}
    {args : InstallSnapshotArgs n} (hargs : rf.installSnapshotArgs peer = some args) :
    Sent rf (.snapshot k peer args) := by
  have hlen := List.length_pos_iff.mpr h.log
  unfold installSnapshotArgs at hargs
  split at hargs
  · cases hargs
  · next hlead =>
      split at hargs
      · cases hargs
      · cases hargs
        have hindex := h.index
        refine sent_of_leader (not_not.mp hlead) ?_ rfl ?_
        · show -1 ≤ rf.lastIncludedIndex
          omega
        · show rf.lastIncludedIndex ≤ rf.lastLogIndex
          unfold lastLogIndex
          omega

end Peer

namespace Cluster

/-! ## Runs of the cluster -/

/-- The answer that an action reads. -/
def read (w : Cluster n C) : Action n C → Option (Response n C)
  | .receive k => w.responses[k]?
  | _ => none

/-- If a leader reads the answer and it rejects a request of its term, the condition holds of
the worker, the leader, the peer and the reply. -/
def OnRejection (w : Cluster n C) (P : Nat → Fin n → Fin n → AppendEntriesReply → Prop) :
    Response n C → Prop
  | .appendEntries m dst args reply => ∀ wk ∈ w.workers[m]?,
      (w.peers wk.src).status = .leader → (w.peers wk.src).currentTerm = args.term →
      reply.term ≤ args.term → reply.success = false → P m wk.src dst reply
  | .requestVote .. => True
  | .installSnapshot .. => True

instance (w : Cluster n C) (P : Nat → Fin n → Fin n → AppendEntriesReply → Prop)
    [∀ m i dst reply, Decidable (P m i dst reply)] :
    (r : Response n C) → Decidable (w.OnRejection P r)
  | .appendEntries m dst args reply => inferInstanceAs (Decidable (∀ wk ∈ w.workers[m]?,
      (w.peers wk.src).status = .leader → (w.peers wk.src).currentTerm = args.term →
      reply.term ≤ args.term → reply.success = false → P m wk.src dst reply))
  | .requestVote .. => isTrue trivial
  | .installSnapshot .. => isTrue trivial

/-- A rejection makes a leader go back to an index above what it knows the peer to have. -/
def GoesBackAbove (w : Cluster n C) (act : Action n C) : Prop :=
  ∀ r ∈ w.read act, w.OnRejection
    (fun _ i dst reply => (w.peers i).matchIndex dst < (w.peers i).nextAfter reply) r

/-- The worker of the call belongs to a server that has made it. -/
def Made (w : Cluster n C) (c : Call n C) : Prop :=
  ∃ wk, w.workers[c.worker]? = some wk ∧ (w.peers wk.src).Sent c

structure Books (w : Cluster n C) : Prop where
  durable : ∀ i, (w.peers i).Durable i
  viewed : ∀ i, (w.peers i).Viewed
  kept : ∀ i, (w.peers i).Kept
  made : ∀ c ∈ w.calls, w.Made c
  handled : ∀ r ∈ w.responses, r.Handled

namespace Books

variable {w w' : Cluster n C}

theorem init : Books (Cluster.init : Cluster n C) where
  durable := Peer.durable_make
  viewed := Peer.viewed_make
  kept := by
    intro i hlead
    cases hlead
  made := by simp [calls, Cluster.init]
  handled := by simp [Cluster.init]

/-- What the sender of a call has when it reads the answer. -/
theorem sent (h : Books w) {c : Call n C} (hc : c ∈ w.calls) {wk : Worker n}
    (hwk : w.workers[c.worker]? = some wk) : (w.peers wk.src).Sent c := by
  obtain ⟨wk', hwk', hsent⟩ := h.made c hc
  rw [hwk] at hwk'
  cases hwk'
  exact hsent

theorem advances (h : Books w) {act : Action n C} (hs : w.step act = some w') (i : Fin n) :
    (w.peers i).Advances (w'.peers i) := by
  rcases goes_of_step (fun i => (h.durable i).me) hs i with heq | ⟨s, hrun, -⟩
  · rw [heq]
    exact .refl _
  · exact Peer.advances_run (h.durable i).saved hrun

theorem kept_of_step (h : Books w) {act : Action n C} (hs : w.step act = some w') (i : Fin n) :
    (w'.peers i).Kept := by
  have hadv := h.advances hs i
  rcases goes_of_step (fun i => (h.durable i).me) hs i with heq | ⟨s, hrun, hissue⟩
  · rw [heq]
    exact h.kept i
  · generalize w'.peers i = rf' at hadv hrun ⊢
    cases Peer.learns_of_run hrun with
    | nothing hkeeps => exact (h.kept i).keep hadv hkeeps
    | elected args reply votes hwins => exact .becomeLeader (h.viewed i) hwins.2.1
    | entries dst args reply =>
        obtain ⟨k, m, wk, rfl, hk, hm, rfl⟩ := hissue
        have hsent := h.sent (mem_calls_of_response hk rfl) hm
        refine (h.kept wk.src).handleAppendEntriesReply (h.viewed wk.src) ?_ ?_
        · intro hlead hterm
          exact (hsent.role hterm.symm).2 hlead
        · intro hfail
          obtain ⟨rf, rfl⟩ := h.handled _ (List.mem_of_getElem? hk)
          exact Peer.appendEntries_le hsent.prev hfail
    | snapshot dst args reply =>
        obtain ⟨k, m, wk, rfl, hk, hm, rfl⟩ := hissue
        have hsent := h.sent (mem_calls_of_response hk rfl) hm
        exact (h.kept wk.src).handleInstallSnapshotReply fun hlead hterm =>
          (hsent.role hterm.symm).2 hlead

theorem made_of_step (h : Books w) {act : Action n C} (hs : w.step act = some w') :
    ∀ c ∈ w'.calls, w'.Made c := by
  intro c hc
  -- a call in flight goes on being that of its worker's server
  have hkeep : ∀ wk, w.workers[c.worker]? = some wk → (w.peers wk.src).Sent c → w'.Made c := by
    intro wk hwk hsent
    obtain ⟨wk', hwk', hsrc, -⟩ := worker_of_step hs hwk
    exact ⟨wk', hwk', by rw [hsrc]; exact hsent.keep (h.advances hs wk.src)⟩
  rcases calls_of_step hs hc with hold | ⟨hnew, -, -⟩
  · obtain ⟨wk, hwk, hsent⟩ := h.made c hold
    exact hkeep wk hwk hsent
  · cases act with
    | worker k =>
        obtain ⟨wk, hwk, ⟨-, args, hargs, rfl⟩ | ⟨-, args, hargs, rfl⟩⟩ := hnew
        · exact hkeep wk hwk ((h.viewed wk.src).sendEntries hargs)
        · exact hkeep wk hwk ((h.viewed wk.src).sendSnapshot hargs)
    | _ => exact hnew.elim

theorem step (h : Books w) {act : Action n C} (hs : w.step act = some w') : Books w' where
  durable := by
    intro i
    rcases goes_of_step (fun i => (h.durable i).me) hs i with heq | ⟨s, hrun, -⟩
    · rw [heq]
      exact h.durable i
    · exact ((h.durable i).run hrun).1
  viewed := by
    intro i
    rcases goes_of_step (fun i => (h.durable i).me) hs i with heq | ⟨s, hrun, -⟩
    · rw [heq]
      exact h.viewed i
    · exact (h.viewed i).run (h.durable i).saved hrun
  kept := h.kept_of_step hs
  made := h.made_of_step hs
  handled := handled_of_step hs h.handled

theorem path (h : Books w) (hp : Run.Path Cluster.step Run.always w w') : Books w' :=
  hp.invariant (fun _ _ _ h _ hs => h.step hs) h

theorem above_of_step (h : Books w) (habove : ∀ i, (w.peers i).Above) {act : Action n C}
    (hahead : w.GoesBackAbove act) (hs : w.step act = some w') (i : Fin n) :
    (w'.peers i).Above := by
  rcases goes_of_step (fun i => (h.durable i).me) hs i with heq | ⟨s, hrun, hissue⟩
  · rw [heq]
    exact habove i
  · generalize w'.peers i = rf' at hrun ⊢
    cases Peer.learns_of_run hrun with
    | nothing hkeeps => exact (habove i).keep hkeeps
    | elected args reply votes hwins => exact .becomeLeader (h.viewed i) hwins.2.1
    | entries dst args reply =>
        obtain ⟨k, m, wk, rfl, hk, hm, rfl⟩ := hissue
        exact (habove wk.src).handleAppendEntriesReply (hahead _ hk wk hm)
    | snapshot dst args reply => exact (habove i).handleInstallSnapshotReply

end Books

end Cluster
end Raft
end Labs
