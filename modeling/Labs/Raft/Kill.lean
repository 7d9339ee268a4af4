import Labs.Raft.Section

/-!
# Shutting a peer down

A crash leaves the persister as it is.  `Kill` writes it once more, and not with what the
peer had: it clears `VotedFor` first.  A peer that is shut down after it has voted comes
back in the same term without a vote, and may give it to another candidate.
-/

namespace Labs
namespace Raft

variable {n : Nat} {C : Type}

/-- What may happen to a peer and its persister. -/
inductive Lifecycle (n : Nat) (C : Type) where
  | runs (s : Section n C)
  | kill

namespace Peer

/-- After `kill` the peer may still answer, until `make` takes its place. -/
def live (rf : Peer n C) : Lifecycle n C → Option (Peer n C)
  | .runs s => rf.run s
  | .kill => some rf.kill

/-- The term and the candidate of the vote that the peer gives. -/
def grants (rf : Peer n C) : Lifecycle n C → Option (Int × Fin n)
  | .runs (.requestVote args) =>
    let reply := (rf.requestVote args).2
    if reply.voteGranted then some (reply.term, args.candidateId) else none
  | .runs .startElection => some (rf.startElection.2.term, rf.startElection.2.candidateId)
  | _ => none

/-- No snapshot is installed. -/
def NoInstall (_ : Peer n C) : Lifecycle n C → Prop
  | .runs (.installSnapshot _) => False
  | _ => True

/-- A peer is shut down only while it has not voted. -/
def KillsUnvoted (rf : Peer n C) : Lifecycle n C → Prop
  | .kill => rf.votedFor = none
  | .runs _ => True

/-- The fields that `Make` reads from the persister. -/
structure SameRestart (rf rf' : Peer n C) : Prop where
  currentTerm : rf.currentTerm = rf'.currentTerm
  votedFor : rf.votedFor = rf'.votedFor
  log : rf.log = rf'.log
  lastIncludedIndex : rf.lastIncludedIndex = rf'.lastIncludedIndex
  lastIncludedTerm : rf.lastIncludedTerm = rf'.lastIncludedTerm
  snapshot : rf.snapshotBytes = rf'.snapshotBytes

theorem Saved.sameRestart {rf : Peer n C} (h : rf.Saved) :
    SameRestart (make rf.me rf.persister) rf :=
  ⟨h.1, h.2.1, h.2.2.1, h.2.2.2.1, h.2.2.2.2.1, h.2.2.2.2.2⟩

theorem Durable.live {i : Fin n} {rf rf' : Peer n C} {s : Lifecycle n C} (h : Durable i rf)
    (hs : rf.live s = some rf') : Durable i rf' := by
  cases s with
  | runs s => exact (h.run hs).1
  | kill =>
      cases hs
      exact ⟨h.me, saved_persist _, h.index⟩

theorem durable_lives {i : Fin n} {rf : Peer n C}
    (h : Run.Path live Run.always (make i Persister.makePersister) rf) : Durable i rf :=
  h.invariant (fun _ _ _ hd _ hs => hd.live hs) (durable_make i)

/-- A restart after `Kill` differs from a restart after a crash by the vote alone. -/
theorem sameRestart_kill_iff {rf : Peer n C} (h : rf.Saved) :
    SameRestart (make rf.me rf.kill.persister) (make rf.me rf.persister) ↔
      rf.votedFor = none := by
  have hkill : SameRestart (make rf.me rf.kill.persister) rf.kill :=
    (saved_persist { rf with status := .follower, votedFor := none }).sameRestart
  have hcrash := h.sameRestart
  constructor
  · intro hsame
    rw [← hcrash.votedFor, ← hsame.votedFor, hkill.votedFor]
    rfl
  · intro hnone
    exact ⟨hkill.currentTerm.trans hcrash.currentTerm.symm,
      hkill.votedFor.trans (hnone.symm.trans hcrash.votedFor.symm),
      hkill.log.trans hcrash.log.symm,
      hkill.lastIncludedIndex.trans hcrash.lastIncludedIndex.symm,
      hkill.lastIncludedTerm.trans hcrash.lastIncludedTerm.symm,
      hkill.snapshot.trans hcrash.snapshot.symm⟩

/-! ## A vote that was given -/

/-- The peer has not forgotten that it voted for `c` in term `t`. -/
def Bound (t : Int) (c : Fin n) (rf : Peer n C) : Prop :=
  t < rf.currentTerm ∨ rf.currentTerm = t ∧ rf.votedFor = some c

section Bound

variable {t : Int} {c : Fin n} {rf rf' : Peer n C}

theorem Bound.follows (h : Bound t c rf) (hf : Follows rf rf') : Bound t c rf' := by
  rcases hf.move with ⟨hterm, hvote, -⟩ | ⟨hterm, -, -⟩
  · unfold Bound
    rw [hterm, hvote]
    exact h
  · rcases h with hlt | ⟨heq, -⟩ <;> exact .inl (by omega)

theorem Bound.requestVote (h : Bound t c rf) (args : RequestVoteArgs n) :
    Bound t c (rf.requestVote args).1 := by
  have hdown := h.follows (follows_stepDown rf args.term)
  rcases requestVote_cases rf args with ⟨-, heq⟩ | ⟨-, -, -, hfree, heq⟩
  · rw [heq]
    exact hdown
  · rw [heq]
    rcases hdown with hlt | ⟨hterm, hvote⟩
    · exact .inl hlt
    · rw [hvote] at hfree
      rcases hfree with hnone | hsame
      · cases hnone
      · exact .inr ⟨hterm, hsame.symm⟩

theorem Bound.handleRequestVoteReply (h : Bound t c rf) (args : RequestVoteArgs n)
    (reply : RequestVoteReply) (votes : Nat) :
    Bound t c (rf.handleRequestVoteReply args reply votes).1 := by
  obtain ⟨r, votes', started, hreply⟩ :
      ∃ r votes' started, rf.handleRequestVoteReply args reply votes = (r, votes', started) :=
    ⟨_, _, _, rfl⟩
  rw [hreply]
  rcases handleRequestVoteReply_cases hreply with
    ⟨heq | heq, -⟩ | ⟨-, -, -, hcand, heq | ⟨-, heq⟩⟩
  · rw [heq]
    exact h
  · rw [heq]
    exact h.follows (follows_stepDown rf _)
  · rw [heq]
    exact h
  · rw [heq, becomeLeader_of_candidate hcand]
    exact h

/-- Only `InstallSnapshot` and `Kill` can make a peer forget its vote. -/
theorem Bound.live (h : Bound t c rf) (hsaved : rf.Saved) {s : Lifecycle n C}
    (hinstall : NoInstall rf s) (hkill : KillsUnvoted rf s) (hs : rf.live s = some rf') :
    Bound t c rf' := by
  cases s with
  | kill =>
      cases hs
      rcases h with hlt | ⟨-, hvote⟩
      · exact .inl hlt
      · rw [show rf.votedFor = none from hkill] at hvote
        cases hvote
  | runs s =>
      cases s with
      | requestVote args =>
          cases hs
          exact h.requestVote args
      | appendEntries args =>
          cases hs
          exact h.follows (follows_appendEntries rf args)
      | installSnapshot args => exact hinstall.elim
      | snapshot index data =>
          cases hs
          exact h.follows (follows_snapshot rf index data)
      | start command =>
          cases hs
          exact h.follows (follows_start rf command)
      | startElection =>
          cases hs
          have hterm : rf.startElection.1.currentTerm = rf.currentTerm + 1 := rfl
          rcases h with hlt | ⟨heq, -⟩ <;> exact .inl (by omega)
      | handleRequestVoteReply args reply votes =>
          cases hs
          exact h.handleRequestVoteReply args reply votes
      | handleAppendEntriesReply peer args reply =>
          cases hs
          exact h.follows (follows_handleAppendEntriesReply rf peer args reply)
      | handleInstallSnapshotReply peer args reply =>
          cases hs
          exact h.follows (follows_handleInstallSnapshotReply rf peer args reply)
      | setReplicating peer flag =>
          cases hs
          exact h.follows (follows_setReplicating rf peer flag)
      | applyCommitted =>
          obtain ⟨⟨r, msgs⟩, happly, rfl⟩ := Option.map_eq_some_iff.mp hs
          exact h.follows (follows_applyCommitted happly)
      | make =>
          cases hs
          exact h.follows (follows_make hsaved)

theorem grants_requestVote {args : RequestVoteArgs n}
    (h : rf.grants (.runs (.requestVote args)) = some (t, c)) :
    args.term = t ∧ args.candidateId = c ∧ (rf.requestVote args).2.voteGranted = true := by
  simp only [grants] at h
  split at h
  · next hgrant =>
      rcases requestVote_cases rf args with ⟨hdeny, -⟩ | ⟨hreply, -⟩
      · rw [hdeny] at hgrant
        cases hgrant
      · rw [hreply] at h
        cases h
        exact ⟨rfl, rfl, hgrant⟩
  · cases h

/-- A vote that is given is recorded. -/
theorem bound_of_grants {s : Lifecycle n C} (h : rf.grants s = some (t, c))
    (hs : rf.live s = some rf') : Bound t c rf' := by
  cases s with
  | kill => cases h
  | runs s =>
      cases s with
      | requestVote args =>
          cases hs
          obtain ⟨hterm, hcand, hgrant⟩ := grants_requestVote h
          rcases requestVote_cases rf args with ⟨hdeny, -⟩ | ⟨-, hle, -, -, heq⟩
          · rw [hdeny] at hgrant
            cases hgrant
          · rw [heq, ← hcand, ← hterm]
            refine .inr ⟨?_, rfl⟩
            show (rf.stepDown args.term).1.currentTerm = args.term
            rw [stepDown_currentTerm, max_eq_right hle]
      | startElection =>
          cases hs
          cases h
          exact .inr ⟨rfl, rfl⟩
      | _ => cases h

/-- While the vote is not forgotten, it is not given to another candidate. -/
theorem Bound.grants_eq (h : Bound t c rf) {c' : Fin n} {s : Lifecycle n C}
    (hgrants : rf.grants s = some (t, c')) : c = c' := by
  cases s with
  | kill => cases hgrants
  | runs s =>
      cases s with
      | requestVote args =>
          obtain ⟨hterm, hcand, hgrant⟩ := grants_requestVote hgrants
          rcases requestVote_cases rf args with ⟨hdeny, -⟩ | ⟨-, hle, -, hfree, -⟩
          · rw [hdeny] at hgrant
            cases hgrant
          · rcases h with hlt | ⟨heq, hvote⟩
            · omega
            · rw [stepDown_of_le (by omega), hvote] at hfree
              rcases hfree with hnone | hsame
              · cases hnone
              · rw [← hcand]
                exact Option.some.inj hsame
      | startElection =>
          cases hgrants
          rcases h with hlt | ⟨heq, -⟩
          · exact absurd hlt (by show ¬ rf.currentTerm + 1 < rf.currentTerm; omega)
          · exact absurd heq (by show rf.currentTerm ≠ rf.currentTerm + 1; omega)
      | _ => cases hgrants

end Bound

/-- The steps along which a peer keeps its vote. -/
def KeepsPromise (rf : Peer n C) (s : Lifecycle n C) : Prop :=
  NoInstall rf s ∧ KillsUnvoted rf s

/-- `Kill` is a crash exactly for a peer that has not voted, and where only such peers are
shut down no peer votes for two candidates in one term. -/
theorem kill_like_crash (i : Fin n) :
    (∀ rf : Peer n C, Run.Path live Run.always (make i Persister.makePersister) rf →
      (SameRestart (make i rf.kill.persister) (make i rf.persister) ↔ rf.votedFor = none)) ∧
    ∀ (rf₁ rf₁' rf₂ rf₂' : Peer n C) (s₁ s₂ : Lifecycle n C) (t : Int) (c c' : Fin n),
      Run.Path live KeepsPromise (make i Persister.makePersister) rf₁ →
      KeepsPromise rf₁ s₁ → rf₁.live s₁ = some rf₁' → rf₁.grants s₁ = some (t, c) →
      Run.Path live KeepsPromise rf₁' rf₂ →
      KeepsPromise rf₂ s₂ → rf₂.live s₂ = some rf₂' → rf₂.grants s₂ = some (t, c') → c = c' := by
  constructor
  · intro rf hpath
    have hd := durable_lives hpath
    have hiff := sameRestart_kill_iff hd.saved
    rw [hd.me] at hiff
    exact hiff
  · intro rf₁ rf₁' rf₂ rf₂' s₁ s₂ t c c' hpath _ hs₁ hgrants₁ hrest _ _ hgrants₂
    have hd₁ : Durable i rf₁' := (durable_lives (hpath.mono fun _ _ _ => trivial)).live hs₁
    have hbound : Durable i rf₂ ∧ Bound t c rf₂ := by
      refine hrest.invariant (P := fun rf => Durable i rf ∧ Bound t c rf)
        (fun rf s rf' h hok hs => ?_) ⟨hd₁, bound_of_grants hgrants₁ hs₁⟩
      exact ⟨h.1.live hs, h.2.live h.1.saved hok.1 hok.2 hs⟩
    exact hbound.2.grants_eq hgrants₂

/-- A request for a vote in term 1 from a peer with an empty log. -/
def firstVote (candidate : Fin 3) : Lifecycle 3 Nat :=
  .runs (.requestVote { term := 1, candidateId := candidate, lastLogIndex := 0, lastLogTerm := -1 })

/-- Killed before it votes, peer 0 votes for 1 and, after a crash, not for 2. -/
theorem kill_like_crash_unvoted :
    let rf : Peer 3 Nat := make 0 Persister.makePersister
    SameRestart (make 0 rf.kill.persister) (make 0 rf.persister) ∧
    ∃ rf₁ rf₂, rf.live .kill = some rf₁ ∧ rf₁.grants (firstVote 1) = some (1, 1) ∧
      rf₁.live (firstVote 1) = some rf₂ ∧
      (make 0 rf₂.persister).grants (firstVote 2) ≠ some (1, 2) := by
  intro rf
  refine ⟨((kill_like_crash 0).1 rf (.refl _)).mpr rfl, _, _, rfl, rfl, rfl, fun hgrants => ?_⟩
  have hkill : KeepsPromise rf .kill := ⟨trivial, rfl⟩
  have hvote : KeepsPromise rf.kill (firstVote 1) := ⟨trivial, trivial⟩
  have hsame := (kill_like_crash 0).2 rf.kill _ _ _ (firstVote 1) (firstVote 2) 1 1 2
    (.single hkill rfl) hvote rfl rfl (.single (a := .runs .make) (And.intro trivial trivial) rfl)
    (And.intro trivial trivial) rfl hgrants
  exact absurd hsame (by decide)

/-- Killed after it has voted for 1, peer 0 comes back and votes for 2 in the same term. -/
theorem kill_forgets_vote :
    let rf : Peer 3 Nat := make 0 Persister.makePersister
    ∃ rf₁ rf₂ rf₃, rf.live (firstVote 1) = some rf₁ ∧ rf₁.live .kill = some rf₂ ∧
      rf₂.live (.runs .make) = some rf₃ ∧
      (make 0 rf₁.persister).votedFor = some 1 ∧ (make 0 rf₁.kill.persister).votedFor = none ∧
      rf.grants (firstVote 1) = some (1, 1) ∧ rf₃.grants (firstVote 2) = some (1, 2) :=
  ⟨_, _, _, rfl, rfl, rfl, rfl, rfl, rfl, rfl⟩

end Peer
end Raft
end Labs
