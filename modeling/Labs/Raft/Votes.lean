import Labs.Raft.Durable
import Labs.Raft.Steps

/-!
# One vote a term, one leader a term

The votes of the cluster are compared with the ballots of `Consensus.Ballots`,
which remember the votes of past terms.  Most critical sections either leave the
term, the vote and the role of a peer alone or move the peer to a later term as a
follower that has not voted there (`Follows`).  The exception is `InstallSnapshot`:
it clears `VotedFor` also when the request is of the peer's own term (`Yields`), so
that a peer that has voted may vote again.  `VotesOnce` is the condition that it does
not vote for another candidate then, and `KeepsVote` the stronger one that no vote is
cleared.
-/

namespace Labs
namespace Raft

open Consensus

variable {n : Nat} {C : Type}

namespace Peer

/-- The term, the vote and the role stay, up to becoming a follower, or the peer
follows into a later term without a vote. -/
structure Follows (rf rf' : Peer n C) : Prop where
  me : rf'.me = rf.me
  saved : rf.Saved → rf'.Saved
  move : rf'.currentTerm = rf.currentTerm ∧ rf'.votedFor = rf.votedFor ∧
      (rf'.status = rf.status ∨ rf'.status = .follower) ∨
    rf.currentTerm < rf'.currentTerm ∧ rf'.votedFor = none ∧ rf'.status = .follower

namespace Follows

theorem refl (rf : Peer n C) : Follows rf rf :=
  ⟨rfl, fun h => h, .inl ⟨rfl, rfl, .inl rfl⟩⟩

theorem trans {r₁ r₂ r₃ : Peer n C} (h : Follows r₁ r₂) (h' : Follows r₂ r₃) :
    Follows r₁ r₃ where
  me := h'.me.trans h.me
  saved := fun hs => h'.saved (h.saved hs)
  move := by
    rcases h.move with ⟨ht, hv, hs⟩ | ⟨ht, hv, hs⟩
    · rcases h'.move with ⟨ht', hv', hs'⟩ | ⟨ht', hv', hs'⟩
      · refine .inl ⟨ht'.trans ht, hv'.trans hv, ?_⟩
        rcases hs' with hs' | hs'
        · rw [hs']
          exact hs
        · exact .inr hs'
      · exact .inr ⟨by omega, hv', hs'⟩
    · rcases h'.move with ⟨ht', hv', hs'⟩ | ⟨ht', hv', hs'⟩
      · refine .inr ⟨by omega, hv'.trans hv, ?_⟩
        rcases hs' with hs' | hs'
        · exact hs'.trans hs
        · exact hs'
      · exact .inr ⟨by omega, hv', hs'⟩

end Follows

/-- The peer follows, but for a vote that it may take back. -/
structure Yields (rf rf' : Peer n C) : Prop where
  me : rf'.me = rf.me
  saved : rf.Saved → rf'.Saved
  move : rf'.currentTerm = rf.currentTerm ∧
      (rf'.votedFor = rf.votedFor ∨ rf'.votedFor = none) ∧
      (rf'.status = rf.status ∨ rf'.status = .follower) ∨
    rf.currentTerm < rf'.currentTerm ∧ rf'.votedFor = none ∧ rf'.status = .follower

theorem Follows.yields {rf rf' : Peer n C} (h : Follows rf rf') : Yields rf rf' where
  me := h.me
  saved := h.saved
  move := h.move.imp_left fun ⟨ht, hv, hs⟩ => ⟨ht, .inl hv, hs⟩

namespace Yields

theorem term_le {rf rf' : Peer n C} (h : Yields rf rf') :
    rf.currentTerm ≤ rf'.currentTerm := by
  rcases h.move with ⟨ht, -, -⟩ | ⟨ht, -, -⟩ <;> omega

theorem not_candidate {rf rf' : Peer n C} (h : Yields rf rf') (hs : rf'.status = .leader) :
    rf'.currentTerm = rf.currentTerm ∧ rf.status = .leader := by
  rcases h.move with ⟨ht, -, hs' | hs'⟩ | ⟨-, -, hs'⟩
  · exact ⟨ht, hs'.symm.trans hs⟩
  · rw [hs] at hs'
    cases hs'
  · rw [hs] at hs'
    cases hs'

end Yields

theorem follows_stepDown (rf : Peer n C) (newTerm : Int) :
    Follows rf (rf.stepDown newTerm).1 := by
  rcases lt_or_ge rf.currentTerm newTerm with hlt | hle
  · refine ⟨?_, fun h => h.stepDown newTerm, ?_⟩
    · rw [stepDown_of_lt hlt]
      rfl
    · rw [stepDown_of_lt hlt]
      exact .inr ⟨hlt, rfl, rfl⟩
  · rw [stepDown_of_le hle]
    exact Follows.refl rf

theorem follows_updateFollowerCommitIndex (rf : Peer n C) (leaderCommit lastNewIndex : Int) :
    Follows rf (rf.updateFollowerCommitIndex leaderCommit lastNewIndex) := by
  refine ⟨?_, fun h => h.updateFollowerCommitIndex _ _, .inl ?_⟩ <;>
    unfold updateFollowerCommitIndex <;> split
  · split <;> rfl
  · rfl
  · split <;> exact ⟨rfl, rfl, .inl rfl⟩
  · exact ⟨rfl, rfl, .inl rfl⟩

theorem follows_appendEntries (rf : Peer n C) (args : AppendEntriesArgs n C) :
    Follows rf (rf.appendEntries args).1 := by
  have hdown := follows_stepDown rf args.term
  have hrole : Follows (rf.stepDown args.term).1
      { (rf.stepDown args.term).1 with status := .follower } :=
    ⟨rfl, fun h => h, .inl ⟨rfl, rfl, .inr rfl⟩⟩
  unfold appendEntries
  split
  · exact Follows.refl rf
  · dsimp only
    split
    · exact hdown.trans hrole
    · refine (hdown.trans hrole).trans (Follows.trans ?_ (follows_updateFollowerCommitIndex _ _ _))
      exact ⟨rfl, fun _ => saved_persist _, .inl ⟨rfl, rfl, .inl rfl⟩⟩

theorem follows_snapshot (rf : Peer n C) (index : Int) (data : Bytes) :
    Follows rf (rf.snapshot index data) := by
  refine ⟨?_, fun h => h.snapshot _ _, .inl ?_⟩ <;> unfold snapshot <;> split
  · rfl
  · dsimp only
    split <;> rfl
  · exact ⟨rfl, rfl, .inl rfl⟩
  · dsimp only
    split <;> exact ⟨rfl, rfl, .inl rfl⟩

theorem installSnapshot_role (rf : Peer n C) (args : InstallSnapshotArgs n) :
    (rf.installSnapshot args).1 = rf ∨
      rf.currentTerm ≤ args.term ∧ (rf.installSnapshot args).1.me = rf.me ∧
        (rf.installSnapshot args).1.currentTerm = args.term ∧
        (rf.installSnapshot args).1.votedFor = none ∧
        (rf.installSnapshot args).1.status = .follower := by
  unfold installSnapshot
  dsimp only
  split
  · exact .inl rfl
  · next hlt => split <;> exact .inr ⟨not_lt.mp hlt, rfl, rfl, rfl, rfl⟩

theorem yields_installSnapshot (rf : Peer n C) (args : InstallSnapshotArgs n) :
    Yields rf (rf.installSnapshot args).1 := by
  rcases installSnapshot_role rf args with heq | ⟨hle, hme, hterm, hvote, hstatus⟩
  · rw [heq]
    exact (Follows.refl rf).yields
  · refine ⟨hme, fun h => h.installSnapshot _, ?_⟩
    rw [hterm]
    rcases hle.lt_or_eq with hlt | heq
    · exact .inr ⟨hlt, hvote, hstatus⟩
    · exact .inl ⟨heq.symm, .inr hvote, .inr hstatus⟩

/-- `InstallSnapshot` follows unless it takes a vote of the current term back. -/
theorem follows_installSnapshot {rf : Peer n C} {args : InstallSnapshotArgs n}
    (hkeep : args.term = rf.currentTerm → rf.votedFor = none) :
    Follows rf (rf.installSnapshot args).1 := by
  rcases installSnapshot_role rf args with heq | ⟨hle, hme, hterm, hvote, hstatus⟩
  · rw [heq]
    exact Follows.refl rf
  · refine ⟨hme, fun h => h.installSnapshot _, ?_⟩
    rw [hterm]
    rcases hle.lt_or_eq with hlt | heq
    · exact .inr ⟨hlt, hvote, hstatus⟩
    · exact .inl ⟨heq.symm, hvote.trans (hkeep heq.symm).symm, .inr hstatus⟩

theorem follows_start (rf : Peer n C) (command : Option C) :
    Follows rf (rf.start command).1 := by
  refine ⟨?_, fun h => h.start _, .inl ?_⟩ <;> unfold start <;> split
  · rfl
  · rfl
  · exact ⟨rfl, rfl, .inl rfl⟩
  · exact ⟨rfl, rfl, .inl rfl⟩

theorem follows_commitLoop (rf : Peer n C) (fuel : Nat) (N : Int) :
    Follows rf (rf.commitLoop fuel N) := by
  induction fuel generalizing N with
  | zero => exact Follows.refl rf
  | succ fuel ih =>
      unfold commitLoop
      split
      · split
        · exact ⟨rfl, fun h => h, .inl ⟨rfl, rfl, .inl rfl⟩⟩
        · exact ih (N - 1)
      · exact Follows.refl rf

theorem follows_updateMatchAndNextIndex (rf : Peer n C) (peer : Fin n) (newMatchIndex : Int) :
    Follows rf (rf.updateMatchAndNextIndex peer newMatchIndex) := by
  refine ⟨?_, fun h => h.updateMatchAndNextIndex _ _, .inl ?_⟩ <;>
    unfold updateMatchAndNextIndex <;> dsimp only <;> split
  · rfl
  · rfl
  · exact ⟨rfl, rfl, .inl rfl⟩
  · exact ⟨rfl, rfl, .inl rfl⟩

theorem follows_handleAppendEntriesReply (rf : Peer n C) (peer : Fin n)
    (args : AppendEntriesArgs n C) (reply : AppendEntriesReply) :
    Follows rf (rf.handleAppendEntriesReply peer args reply) := by
  have hdown := follows_stepDown rf reply.term
  have hnext : ∀ next : Fin n → Int, Follows (rf.stepDown reply.term).1
      { (rf.stepDown reply.term).1 with nextIndex := next } :=
    fun _ => ⟨rfl, fun h => h, .inl ⟨rfl, rfl, .inl rfl⟩⟩
  unfold handleAppendEntriesReply
  split
  · exact Follows.refl rf
  · dsimp only
    split
    · exact hdown
    · split
      · exact (hdown.trans (follows_updateMatchAndNextIndex _ _ _)).trans
          (follows_commitLoop _ _ _)
      · split
        · exact hdown.trans (hnext _)
        · split
          · exact hdown.trans (hnext _)
          · exact hdown.trans (hnext _)

theorem follows_handleInstallSnapshotReply (rf : Peer n C) (peer : Fin n)
    (args : InstallSnapshotArgs n) (reply : InstallSnapshotReply) :
    Follows rf (rf.handleInstallSnapshotReply peer args reply) := by
  have hdown := follows_stepDown rf reply.term
  unfold handleInstallSnapshotReply
  split
  · exact Follows.refl rf
  · dsimp only
    split
    · exact hdown
    · exact hdown.trans (follows_updateMatchAndNextIndex _ _ _)

theorem follows_applyCommitted {rf rf' : Peer n C} {msgs : List (ApplyMsg C)}
    (h : rf.applyCommitted = some (rf', msgs)) : Follows rf rf' := by
  refine ⟨?_, fun hs => hs.applyCommitted h, .inl ?_⟩ <;> unfold applyCommitted at h <;>
    split at h
  · cases h
  · split at h <;> cases h <;> rfl
  · cases h
  · split at h <;> cases h <;> exact ⟨rfl, rfl, .inl rfl⟩

theorem follows_setReplicating (rf : Peer n C) (peer : Fin n) (flag : Bool) :
    Follows rf (rf.setReplicating peer flag) :=
  ⟨rfl, fun h => h, .inl ⟨rfl, rfl, .inl rfl⟩⟩

/-- A request is denied, or granted in its term; in both cases after stepping down. -/
theorem requestVote_cases (rf : Peer n C) (args : RequestVoteArgs n) :
    (rf.requestVote args).2.voteGranted = false ∧
        (rf.requestVote args).1 = (rf.stepDown args.term).1 ∨
      (rf.requestVote args).2 = { term := args.term, voteGranted := true } ∧
        rf.currentTerm ≤ args.term ∧
        (rf.stepDown args.term).1.isLogUpToDate args.lastLogIndex args.lastLogTerm = true ∧
        ((rf.stepDown args.term).1.votedFor = none ∨
          (rf.stepDown args.term).1.votedFor = some args.candidateId) ∧
        (rf.requestVote args).1 =
          { (rf.stepDown args.term).1 with votedFor := some args.candidateId }.persist := by
  rcases lt_or_ge args.term rf.currentTerm with hlt | hle
  · rw [requestVote_of_lt hlt, stepDown_of_le hlt.le]
    exact .inl ⟨rfl, rfl⟩
  · rw [requestVote_of_le hle]
    dsimp only
    split
    · next hguard =>
        refine .inr ⟨?_, hle, hguard.2, hguard.1, rfl⟩
        rw [stepDown_currentTerm, max_eq_right hle]
    · exact .inl ⟨rfl, rfl⟩

/-- A reply is not counted, and may make the peer step down, or it is a vote for the
candidate the peer still is, which may make it the leader. -/
theorem handleRequestVoteReply_cases {rf rf' : Peer n C} {args : RequestVoteArgs n}
    {reply : RequestVoteReply} {votes votes' : Nat} {started : Bool}
    (h : rf.handleRequestVoteReply args reply votes = (rf', votes', started)) :
    (rf' = rf ∨ rf' = (rf.stepDown reply.term).1) ∧ votes' = votes ∨
      reply.voteGranted = true ∧ votes' = votes + 1 ∧ rf.currentTerm = args.term ∧
        rf.status = .candidate ∧
        (rf' = rf ∨ votes' > n / 2 ∧ rf' = rf.becomeLeader.1) := by
  unfold handleRequestVoteReply at h
  split at h
  · cases h
    exact .inl ⟨.inl rfl, rfl⟩
  · next hguard =>
      simp only [ne_eq, not_or, not_not] at hguard
      split at h
      · cases h
        exact .inl ⟨.inr rfl, rfl⟩
      · split at h
        · cases h
          exact .inl ⟨.inl rfl, rfl⟩
        · next hgrant =>
            have hgrant : reply.voteGranted = true := by simpa using hgrant
            dsimp only at h
            split at h
            · next hvotes =>
                cases h
                exact .inr ⟨hgrant, rfl, hguard.1, hguard.2, .inr ⟨hvotes, rfl⟩⟩
            · cases h
              exact .inr ⟨hgrant, rfl, hguard.1, hguard.2, .inl rfl⟩

theorem becomeLeader_of_candidate {rf : Peer n C} (h : rf.status = .candidate) :
    rf.becomeLeader = ({ rf with
      status := .leader
      nextIndex := fun _ => rf.lastIncludedIndex + rf.log.length
      matchIndex := fun _ => rf.lastIncludedIndex }, true) := by
  simp [becomeLeader, h]

/-- A restart is a step back to follower in the same term, with the same vote. -/
theorem follows_make {rf : Peer n C} (h : rf.Saved) : Follows rf (make rf.me rf.persister) :=
  ⟨make_me _ _, fun _ => saved_make _ _, .inl ⟨h.1, h.2.1, .inr (make_status _ _)⟩⟩

end Peer
namespace Cluster

/-- The calls a vote request may belong to: candidate and arguments by election. -/
def candidacies (w : Cluster n C) : List (Fin n × RequestVoteArgs n) :=
  w.elections.map fun el => (el.src, el.args)

/-- The votes an election has counted were cast, by peers no longer waited for. -/
structure Counted (b : Ballots (Fin n) Int) (el : Election n) : Prop where
  candidate : el.args.candidateId = el.src
  voters : ∃ V : Finset (Fin n), V.card = el.votes ∧
    ∀ q ∈ V, b.vote q el.args.term = some el.src ∧ el.waiting q = false

/-- The peers agree with the ballots. -/
structure PeerVotes (w : Cluster n C) (b : Ballots (Fin n) Int) : Prop where
  inv : b.Inv (QuorumSystem.majority (Fin n))
  me : ∀ i, (w.peers i).me = i
  saved : ∀ i, (w.peers i).Saved
  cur : ∀ i, b.cur i = (w.peers i).currentTerm
  voted : ∀ i c, (w.peers i).votedFor = some c → b.vote i (w.peers i).currentTerm = some c
  leads : ∀ i, (w.peers i).status = .leader → b.leader (w.peers i).currentTerm = some i

/-- So do the history, the elections under way and the messages in flight. -/
structure VoteRel (w : Cluster n C) (b : Ballots (Fin n) Int) : Prop
    extends PeerVotes w b where
  recorded : ∀ {i t c}, Event.voted i t c ∈ w.history ↔ b.vote i t = some c
  counted : ∀ el ∈ w.elections, Counted b el
  asked : ∀ {e dst args}, Request.requestVote e dst args ∈ w.requests →
    w.candidacies[e]? = some (args.candidateId, args)
  granted : ∀ {e dst args reply}, Response.requestVote e dst args reply ∈ w.responses →
    w.candidacies[e]? = some (args.candidateId, args) ∧
      (reply.voteGranted = true → b.vote dst args.term = some args.candidateId)

theorem voteRel_init :
    VoteRel (init : Cluster n C) ⟨fun _ => 0, fun _ _ => none, fun _ => none⟩ where
  inv := ⟨by simp, by simp⟩
  me := fun _ => rfl
  saved := fun i => Peer.saved_make i _
  cur := fun _ => rfl
  voted := fun _ _ h => by cases h
  leads := by
    intro i h
    cases h
  recorded := by simp [init]
  counted := by simp [init]
  asked := by simp [init]
  granted := by simp [init]

section Moves

variable {w : Cluster n C} {b : Ballots (Fin n) Int}

/-- Votes that were cast stay cast, so what the elections have counted stays. -/
theorem Counted.mono {b' : Ballots (Fin n) Int} {el : Election n} (h : Counted b el)
    (hvote : ∀ {q t c}, b.vote q t = some c → b'.vote q t = some c) : Counted b' el := by
  obtain ⟨V, hV, hv⟩ := h.voters
  exact ⟨h.candidate, V, hV, fun q hq => ⟨hvote (hv q hq).1, (hv q hq).2⟩⟩

/-- No vote has been given meanwhile. -/
def SameVotes (w w' : Cluster n C) : Prop :=
  ∀ i t c, Event.voted i t c ∈ w'.history ↔ .voted i t c ∈ w.history

theorem SameVotes.of_eq {w' : Cluster n C} (h : w'.history = w.history) : SameVotes w w' := by
  intro i t c
  rw [h]

/-- A change that keeps the elections and the votes, and brings no vote request or reply. -/
theorem VoteRel.of_messages (h : VoteRel w b) {w' : Cluster n C} {b' : Ballots (Fin n) Int}
    (hp : PeerVotes w' b') (hvote : b'.vote = b.vote)
    (hnew : SameVotes w w')
    (hel : w'.elections = w.elections)
    (hreq : ∀ {e dst args}, Request.requestVote e dst args ∈ w'.requests →
      Request.requestVote e dst args ∈ w.requests)
    (hres : ∀ {e dst args reply}, Response.requestVote e dst args reply ∈ w'.responses →
      Response.requestVote e dst args reply ∈ w.responses) : VoteRel w' b' where
  toPeerVotes := hp
  recorded := by
    intro i t c
    rw [hnew i t c, h.recorded, hvote]
  counted := by
    intro el hmem
    rw [hel] at hmem
    exact (h.counted el hmem).mono (by rw [hvote]; exact fun hv => hv)
  asked := by
    intro e dst args hmem
    rw [candidacies, hel]
    exact h.asked (hreq hmem)
  granted := by
    intro e dst args reply hmem
    obtain ⟨hcand, hgrant⟩ := h.granted (hres hmem)
    rw [candidacies, hel, hvote]
    exact ⟨hcand, hgrant⟩

/-- One peer yields; the ballots move with its term. -/
theorem PeerVotes.follow (h : PeerVotes w b) {i : Fin n} {rf : Peer n C} {w' : Cluster n C}
    (hf : Peer.Yields (w.peers i) rf) (hw : w'.peers = Function.update w.peers i rf) :
    PeerVotes w' (b.advance i rf.currentTerm) := by
  have hself : w'.peers i = rf := by simp [hw]
  have hother : ∀ {j}, j ≠ i → w'.peers j = w.peers j := by
    intro j hj
    simp [hw, hj]
  have hle : b.cur i ≤ rf.currentTerm := by
    rw [h.cur i]
    exact hf.term_le
  refine ⟨h.inv.advance hle, fun j => ?_, fun j => ?_, fun j => ?_, fun j c hc => ?_,
      fun j hj => ?_⟩ <;>
    by_cases hji : j = i
  · subst hji
    rw [hself, hf.me, h.me]
  · rw [hother hji, h.me]
  · subst hji
    rw [hself]
    exact hf.saved (h.saved j)
  · rw [hother hji]
    exact h.saved j
  · rw [hji, hself, Ballots.advance_cur, if_pos rfl]
  · rw [hother hji, Ballots.advance_cur, if_neg hji, h.cur]
  · subst hji
    rw [hself] at hc ⊢
    rw [Ballots.advance_vote]
    rcases hf.move with ⟨ht, hv | hv, -⟩ | ⟨-, hv, -⟩
    · rw [ht]
      exact h.voted j c (hv.symm.trans hc)
    · rw [hv] at hc
      cases hc
    · rw [hv] at hc
      cases hc
  · rw [hother hji] at hc ⊢
    exact h.voted j c hc
  · subst hji
    rw [hself] at hj ⊢
    obtain ⟨ht, hs⟩ := hf.not_candidate hj
    rw [ht, Ballots.advance_leader]
    exact h.leads j hs
  · rw [hother hji] at hj ⊢
    exact h.leads j hj

theorem PeerVotes.advance_self (h : PeerVotes w b) (i : Fin n) :
    b.advance i (w.peers i).currentTerm = b := by
  rw [← h.cur i]
  simp [Ballots.advance]

/-- A step that moves no peer. -/
theorem PeerVotes.of_peers (h : PeerVotes w b) {w' : Cluster n C} (hw : w'.peers = w.peers) :
    PeerVotes w' b :=
  ⟨h.inv, by rw [hw]; exact h.me, by rw [hw]; exact h.saved, by rw [hw]; exact h.cur,
    by rw [hw]; exact h.voted, by rw [hw]; exact h.leads⟩

/-- Writing to the elections only what concerns the waiting and the counting. -/
theorem candidacies_set {e : Nat} {el el' : Election n} (hel : w.elections[e]? = some el)
    (hsrc : el'.src = el.src) (hargs : el'.args = el.args) :
    (w.elections.set e el').map (fun el => (el.src, el.args)) = w.candidacies := by
  obtain ⟨hlt, hget⟩ := List.getElem?_eq_some_iff.mp hel
  rw [List.map_set, hsrc, hargs, candidacies]
  refine List.ext_getElem? fun k => ?_
  rw [List.getElem?_set]
  split
  · next hk =>
      subst hk
      simp [hget, hlt]
  · rfl

/-! ## The steps, one kind at a time -/

theorem VoteRel.follow (h : VoteRel w b) {i : Fin n} {rf : Peer n C} {w' : Cluster n C}
    (hf : Peer.Yields (w.peers i) rf) (hw : w'.peers = Function.update w.peers i rf)
    (hnew : SameVotes w w')
    (hel : w'.elections = w.elections)
    (hreq : ∀ {e dst args}, Request.requestVote e dst args ∈ w'.requests →
      Request.requestVote e dst args ∈ w.requests)
    (hres : ∀ {e dst args reply}, Response.requestVote e dst args reply ∈ w'.responses →
      Response.requestVote e dst args reply ∈ w.responses) :
    VoteRel w' (b.advance i rf.currentTerm) :=
  h.of_messages (h.toPeerVotes.follow hf hw) rfl hnew hel hreq hres

theorem VoteRel.still (h : VoteRel w b) {w' : Cluster n C} (hw : w'.peers = w.peers)
    (hnew : SameVotes w w') (hel : w'.elections = w.elections)
    (hreq : ∀ {e dst args}, Request.requestVote e dst args ∈ w'.requests →
      Request.requestVote e dst args ∈ w.requests)
    (hres : ∀ {e dst args reply}, Response.requestVote e dst args reply ∈ w'.responses →
      Response.requestVote e dst args reply ∈ w.responses) : VoteRel w' b :=
  h.of_messages (h.toPeerVotes.of_peers hw) rfl hnew hel hreq hres

/-- Casting a vote in the current term of a peer that has no other there. -/
theorem PeerVotes.cast (h : PeerVotes w b) {i c : Fin n} {rf : Peer n C} {w' : Cluster n C}
    (hfree : b.vote i rf.currentTerm = none ∨ b.vote i rf.currentTerm = some c)
    (hme : rf.me = (w.peers i).me) (hsaved : rf.Saved)
    (hterm : rf.currentTerm = (w.peers i).currentTerm) (hvote : rf.votedFor = some c)
    (hstatus : rf.status = .leader → (w.peers i).status = .leader)
    (hw : w'.peers = Function.update w.peers i rf) :
    PeerVotes w' (b.cast i rf.currentTerm c) := by
  have hself : w'.peers i = rf := by simp [hw]
  have hother : ∀ {j}, j ≠ i → w'.peers j = w.peers j := by
    intro j hj
    simp [hw, hj]
  have hle : rf.currentTerm ≤ b.cur i := by rw [h.cur i, hterm]
  refine ⟨h.inv.cast hle hfree, fun j => ?_, fun j => ?_, fun j => ?_, fun j d hd => ?_,
      fun j hj => ?_⟩ <;>
    by_cases hji : j = i
  · subst hji
    rw [hself, hme, h.me]
  · rw [hother hji, h.me]
  · rw [hji, hself]
    exact hsaved
  · rw [hother hji]
    exact h.saved j
  · rw [hji, hself, Ballots.cast_cur, h.cur, hterm]
  · rw [hother hji, Ballots.cast_cur, h.cur]
  · subst hji
    rw [hself] at hd ⊢
    rw [Ballots.cast_vote, if_pos ⟨rfl, rfl⟩, ← hvote, hd]
  · rw [hother hji] at hd ⊢
    rw [Ballots.cast_vote, if_neg (fun hc => hji hc.1)]
    exact h.voted j d hd
  · subst hji
    rw [hself] at hj ⊢
    rw [Ballots.cast_leader, hterm]
    exact h.leads j (hstatus hj)
  · rw [hother hji] at hj ⊢
    exact h.leads j hj

/-- The votes on record are those of the ballots when one more is cast. -/
theorem recorded_cast {history : List (Event n)} {q d : Fin n} {u : Int}
    (hrec : ∀ {i t c}, Event.voted i t c ∈ history ↔ b.vote i t = some c)
    (hfree : b.vote q u = none ∨ b.vote q u = some d) {i : Fin n} {t : Int} {c : Fin n} :
    Event.voted i t c ∈ .voted q u d :: history ↔ (b.cast q u d).vote i t = some c := by
  rw [List.mem_cons, Ballots.cast_vote, hrec]
  split
  · next heq =>
      obtain ⟨rfl, rfl⟩ := heq
      constructor
      · rintro (heq | hold)
        · cases heq
          rfl
        · rcases hfree with hnone | hsome
          · rw [hnone] at hold
            cases hold
          · rw [← hsome, hold]
      · intro heq
        cases heq
        exact .inl rfl
  · next hne =>
      constructor
      · rintro (heq | hold)
        · cases heq
          exact absurd ⟨rfl, rfl⟩ hne
        · exact hold
      · exact .inr

theorem VoteRel.stand (h : VoteRel w b) (i : Fin n) :
    VoteRel (w.startElection i)
      ((b.advance i ((w.peers i).currentTerm + 1)).cast i ((w.peers i).currentTerm + 1) i) := by
  -- first the peer follows into the new term, then it votes for itself there
  have hdown : PeerVotes (w.setPeer i ((w.peers i).stepDown ((w.peers i).currentTerm + 1)).1)
      (b.advance i ((w.peers i).stepDown ((w.peers i).currentTerm + 1)).1.currentTerm) :=
    h.toPeerVotes.follow (Peer.follows_stepDown _ _).yields rfl
  rw [Peer.stepDown_of_lt (by omega)] at hdown
  have hnone : b.vote i ((w.peers i).currentTerm + 1) = none :=
    h.inv.vote_none (by rw [h.cur]; omega)
  have hself : (w.peers i).startElection.1.votedFor = some (w.peers i).me := rfl
  rw [h.me] at hself
  have hcast : PeerVotes (w.startElection i)
      ((b.advance i ((w.peers i).currentTerm + 1)).cast i ((w.peers i).currentTerm + 1) i) := by
    refine hdown.cast ?_ ?_ (Peer.saved_startElection (w.peers i)) ?_ hself ?_ ?_
    · exact .inl hnone
    · rw [setPeer_peers_self]
      rfl
    · rw [setPeer_peers_self]
      rfl
    · intro hlead
      cases hlead
    · simp [Cluster.startElection, setPeer]
  have hkeep : ∀ {q t c}, b.vote q t = some c →
      ((b.advance i ((w.peers i).currentTerm + 1)).cast i
        ((w.peers i).currentTerm + 1) i).vote q t = some c :=
    fun hv => Ballots.cast_vote_of (.inl hnone) hv
  have hcand : (w.startElection i).candidacies =
      w.candidacies ++ [(i, (w.peers i).startElection.2)] := by
    simp [candidacies, Cluster.startElection]
  have hlen : w.candidacies.length = w.elections.length := by simp [candidacies]
  refine ⟨hcast, recorded_cast (b := b.advance i _) h.recorded (.inl hnone), fun el hel => ?_,
    fun {e dst args} hmem => ?_, fun {e dst args reply} hmem => ?_⟩
  · rw [startElection_elections] at hel
    rcases List.mem_append.mp hel with hel | hel
    · exact (h.counted el hel).mono hkeep
    · rw [List.mem_singleton.mp hel]
      refine ⟨h.me i, {i}, rfl, fun q hq => ?_⟩
      obtain rfl := Finset.mem_singleton.mp hq
      refine ⟨?_, by simp⟩
      rw [Ballots.cast_vote, if_pos ⟨rfl, rfl⟩]
  · rw [startElection_requests] at hmem
    rcases List.mem_append.mp hmem with hmem | hmem
    · have hold := h.asked hmem
      rw [hcand, List.getElem?_append_left (List.getElem?_eq_some_iff.mp hold).1, hold]
    · obtain ⟨p, -, hp⟩ := List.mem_map.mp hmem
      injection hp with he hdst hargs
      have hid : (w.peers i).startElection.2.candidateId = i := h.me i
      rw [hcand, ← he, ← hargs, hid, ← hlen, List.getElem?_concat_length]
  · obtain ⟨hold, hgrant⟩ := h.granted hmem
    refine ⟨?_, fun hg => hkeep (hgrant hg)⟩
    rw [hcand, List.getElem?_append_left (List.getElem?_eq_some_iff.mp hold).1, hold]

/-- A peer whose votes in a term are all for one candidate is free to vote for it. -/
theorem VoteRel.free (h : VoteRel w b) {i c : Fin n} {t : Int}
    (honce : ∀ d, Event.voted i t d ∈ w.history → d = c) :
    b.vote i t = none ∨ b.vote i t = some c := by
  cases hv : b.vote i t with
  | none => exact .inl rfl
  | some d =>
      rw [honce d (h.recorded.mpr hv)]
      exact .inr rfl

/-- A vote granted: the peer reaches the term of the request and votes there, or
has voted for this candidate before. -/
theorem VoteRel.grant (h : VoteRel w b) {k e : Nat} {dst : Fin n} {args : RequestVoteArgs n}
    (hk : w.requests[k]? = some (.requestVote e dst args))
    (hle : (w.peers dst).currentTerm ≤ args.term)
    (hfree : b.vote dst args.term = none ∨ b.vote dst args.term = some args.candidateId)
    {rf : Peer n C}
    (hrf : rf = { ((w.peers dst).stepDown args.term).1 with
      votedFor := some args.candidateId }.persist) :
    VoteRel ((((w.dropRequest k).setPeer dst rf).respond
        (.requestVote e dst args { term := args.term, voteGranted := true })).note
        [.voted dst args.term args.candidateId])
      ((b.advance dst args.term).cast dst args.term args.candidateId) := by
  have hdown : PeerVotes (w.setPeer dst ((w.peers dst).stepDown args.term).1)
      (b.advance dst ((w.peers dst).stepDown args.term).1.currentTerm) :=
    h.toPeerVotes.follow (Peer.follows_stepDown _ _).yields rfl
  have hterm : ((w.peers dst).stepDown args.term).1.currentTerm = args.term := by
    rw [Peer.stepDown_currentTerm, max_eq_right hle]
  rw [hterm] at hdown
  have hrterm : rf.currentTerm = args.term := by
    rw [hrf]
    exact hterm
  have hcast : PeerVotes ((((w.dropRequest k).setPeer dst rf).respond
        (.requestVote e dst args { term := args.term, voteGranted := true })).note
        [.voted dst args.term args.candidateId])
      ((b.advance dst args.term).cast dst rf.currentTerm args.candidateId) := by
    refine hdown.cast ?_ ?_ ?_ ?_ ?_ ?_ ?_
    · rw [hrterm]
      exact hfree
    · rw [setPeer_peers_self, hrf]
      rfl
    · rw [hrf]
      exact Peer.saved_persist _
    · rw [setPeer_peers_self, hrterm, hterm]
    · rw [hrf]
      rfl
    · rw [setPeer_peers_self, hrf]
      exact fun hlead => hlead
    · simp [respond, note, setPeer, dropRequest]
  rw [hrterm] at hcast
  have hkeep : ∀ {q t c}, b.vote q t = some c →
      ((b.advance dst args.term).cast dst args.term args.candidateId).vote q t = some c :=
    fun hv => Ballots.cast_vote_of hfree hv
  refine ⟨hcast, recorded_cast (b := b.advance dst _) h.recorded hfree,
    fun el hel => (h.counted el hel).mono hkeep,
    fun hmem => h.asked (List.mem_of_mem_eraseIdx hmem), fun hmem => ?_⟩
  rcases List.mem_append.mp hmem with hmem | hmem
  · obtain ⟨hold, hgrant⟩ := h.granted hmem
    exact ⟨hold, fun hg => hkeep (hgrant hg)⟩
  · cases List.mem_singleton.mp hmem
    refine ⟨h.asked (List.mem_of_getElem? hk), fun _ => ?_⟩
    rw [Ballots.cast_vote, if_pos ⟨rfl, rfl⟩]

/-- A request that is denied: its reply counts for nothing. -/
theorem VoteRel.deny (h : VoteRel w b) {k e : Nat} {dst : Fin n} {args : RequestVoteArgs n}
    {rf : Peer n C} {reply : RequestVoteReply}
    (hk : w.requests[k]? = some (.requestVote e dst args))
    (hf : Peer.Yields (w.peers dst) rf) (hreply : reply.voteGranted = false) :
    VoteRel ((((w.dropRequest k).setPeer dst rf).respond (.requestVote e dst args reply)).note
      (voteOf dst args reply)) (b.advance dst rf.currentTerm) := by
  have hnone : voteOf dst args reply = [] := by rw [voteOf, hreply, if_neg Bool.false_ne_true]
  rw [hnone]
  refine ⟨h.toPeerVotes.follow hf rfl, h.recorded,
    fun el hel => (h.counted el hel).mono fun hv => hv,
    fun hmem => h.asked (List.mem_of_mem_eraseIdx hmem), fun hmem => ?_⟩
  rcases List.mem_append.mp hmem with hmem | hmem
  · exact h.granted hmem
  · cases List.mem_singleton.mp hmem
    refine ⟨h.asked (List.mem_of_getElem? hk), fun hgrant => ?_⟩
    rw [hreply] at hgrant
    cases hgrant

/-- A reply that has been read leaves the peers that are waited for, and its vote,
if it brings one, joins the count. -/
theorem Counted.receive {el : Election n} (h : Counted b el) {dst : Fin n} {votes : Nat}
    (hwait : el.waiting dst = true)
    (hvotes : votes = el.votes ∨
      votes = el.votes + 1 ∧ b.vote dst el.args.term = some el.src) :
    Counted b { el with votes := votes, waiting := Function.update el.waiting dst false } := by
  obtain ⟨V, hV, hv⟩ := h.voters
  have hleft : ∀ q, el.waiting q = false →
      Function.update el.waiting dst false q = false := by
    intro q hq
    rw [Function.update_apply]
    split
    · rfl
    · exact hq
  rcases hvotes with rfl | ⟨rfl, hdst⟩
  · exact ⟨h.candidate, V, hV, fun q hq => ⟨(hv q hq).1, hleft q (hv q hq).2⟩⟩
  · -- the voter was still waited for, so it has not been counted
    have hnew : dst ∉ V := by
      intro hmem
      rw [(hv dst hmem).2] at hwait
      cases hwait
    refine ⟨h.candidate, insert dst V, ?_, fun q hq => ?_⟩
    · rw [Finset.card_insert_of_notMem hnew, hV]
    · rcases Finset.mem_insert.mp hq with rfl | hq
      · exact ⟨hdst, by simp⟩
      · exact ⟨(hv q hq).1, hleft q (hv q hq).2⟩

theorem VoteRel.set_election (h : VoteRel w b) {w' : Cluster n C} {b' : Ballots (Fin n) Int}
    {e : Nat} {el el' : Election n} (hp : PeerVotes w' b') (hvote : b'.vote = b.vote)
    (hel : w.elections[e]? = some el) (hel' : w'.elections = w.elections.set e el')
    (hsrc : el'.src = el.src) (hargs : el'.args = el.args) (hc : Counted b el')
    (hreq : w'.requests = w.requests) (hres : ∀ r ∈ w'.responses, r ∈ w.responses)
    (hold : w'.history = w.history) : VoteRel w' b' := by
  have hcand : w'.candidacies = w.candidacies := by
    rw [candidacies, hel']
    exact candidacies_set hel hsrc hargs
  have hkeep : ∀ {q t c}, b.vote q t = some c → b'.vote q t = some c := by
    intro q t c hv
    rw [hvote, hv]
  refine ⟨hp, ?_, fun el hmem => ?_, fun hmem => ?_, fun hmem => ?_⟩
  · intro i t c
    rw [hold, hvote, h.recorded]
  · rw [hel'] at hmem
    rcases List.mem_or_eq_of_mem_set hmem with hmem | rfl
    · exact (h.counted el hmem).mono hkeep
    · exact hc.mono hkeep
  · rw [hreq] at hmem
    rw [hcand]
    exact h.asked hmem
  · obtain ⟨hold, hgrant⟩ := h.granted (hres _ hmem)
    rw [hcand]
    exact ⟨hold, fun hg => hkeep (hgrant hg)⟩

/-- The voters of an election that has counted more than half of the peers. -/
theorem Counted.quorum {el : Election n} (h : Counted b el) (hvotes : el.votes > n / 2) :
    ∃ Q, (QuorumSystem.majority (Fin n)).isQuorum Q ∧
      ∀ q ∈ Q, b.vote q el.args.term = some el.src := by
  obtain ⟨V, hV, hv⟩ := h.voters
  refine ⟨V, ?_, fun q hq => (hv q hq).1⟩
  show Fintype.card (Fin n) / 2 < V.card
  rw [Fintype.card_fin, hV]
  exact hvotes

/-- A majority of votes makes a leader. -/
theorem PeerVotes.win (h : PeerVotes w b) {i : Fin n} {Q : Finset (Fin n)} {w' : Cluster n C}
    (hQ : (QuorumSystem.majority (Fin n)).isQuorum Q)
    (hv : ∀ q ∈ Q, b.vote q (w.peers i).currentTerm = some i)
    (hs : (w.peers i).status = .candidate)
    (hw : w'.peers = Function.update w.peers i (w.peers i).becomeLeader.1) :
    PeerVotes w' (b.elect i (w.peers i).currentTerm) := by
  rw [Peer.becomeLeader_of_candidate hs] at hw
  have hother : ∀ {j}, j ≠ i → w'.peers j = w.peers j := by
    intro j hj
    simp [hw, hj]
  refine ⟨h.inv.elect hQ hv, fun j => ?_, fun j => ?_, fun j => ?_, fun j c hc => ?_,
      fun j hj => ?_⟩ <;>
    by_cases hji : j = i
  · subst hji
    simp [hw, h.me]
  · rw [hother hji, h.me]
  · subst hji
    rw [hw, Function.update_self]
    exact h.saved j
  · rw [hother hji]
    exact h.saved j
  · subst hji
    simp [hw, h.cur]
  · rw [hother hji, Ballots.elect_cur, h.cur]
  · subst hji
    rw [hw, Function.update_self] at hc ⊢
    exact h.voted j c hc
  · rw [hother hji] at hc ⊢
    exact h.voted j c hc
  · subst hji
    simp [hw, Ballots.elect_leader]
  · rw [hother hji] at hj ⊢
    rw [Ballots.elect_leader]
    split
    · next ht =>
        have hlead := h.leads j hj
        rw [ht] at hlead
        rw [h.inv.leader_eq hlead hQ hv]
    · exact h.leads j hj

/-- A reply in flight belongs to the election that asked for it. -/
theorem VoteRel.of_reply (h : VoteRel w b) {k e : Nat} {dst : Fin n} {args : RequestVoteArgs n}
    {reply : RequestVoteReply} {el : Election n}
    (hk : w.responses[k]? = some (.requestVote e dst args reply))
    (hel : w.elections[e]? = some el) :
    reply.voteGranted = true → b.vote dst el.args.term = some el.src := by
  obtain ⟨hold, hgrant⟩ := h.granted (List.mem_of_getElem? hk)
  rw [candidacies, List.getElem?_map, hel] at hold
  obtain ⟨hsrc, hargs⟩ := Prod.mk.inj (Option.some.inj hold)
  rw [hargs, hsrc]
  exact hgrant

/-- Reading a reply: the new peer agrees with ballots that have the same votes. -/
theorem VoteRel.read (h : VoteRel w b) {b' : Ballots (Fin n) Int} {k e : Nat} {dst : Fin n}
    {el : Election n} {votes : Nat} {rf : Peer n C} {started : Bool}
    (hel : w.elections[e]? = some el) (hwait : el.waiting dst = true)
    (hvotes : votes = el.votes ∨
      votes = el.votes + 1 ∧ b.vote dst el.args.term = some el.src)
    (hvote : b'.vote = b.vote)
    (hp : PeerVotes (w.readVote k e
      { el with votes := votes, waiting := Function.update el.waiting dst false } rf started) b') :
    VoteRel (w.readVote k e
      { el with votes := votes, waiting := Function.update el.waiting dst false } rf started) b' :=
  h.set_election hp hvote hel (readVote_elections ..) rfl rfl
    ((h.counted el (List.mem_of_getElem? hel)).receive hwait hvotes) (readVote_requests ..)
    (fun r hr => List.mem_of_mem_eraseIdx (by simpa using hr)) (readVote_history ..)

theorem VoteRel.voteFails (h : VoteRel w b) {e : Nat} {peer : Fin n} {el : Election n}
    (hel : w.elections[e]? = some el) :
    VoteRel { w with
      elections := w.elections.set e
        { el with waiting := Function.update el.waiting peer false } } b := by
  have hc := h.counted el (List.mem_of_getElem? hel)
  refine h.set_election (h.toPeerVotes.of_peers rfl) rfl hel rfl rfl rfl ?_ rfl (fun r hr => hr)
    rfl
  obtain ⟨V, hV, hv⟩ := hc.voters
  refine ⟨hc.candidate, V, hV, fun q hq => ⟨(hv q hq).1, ?_⟩⟩
  show Function.update el.waiting peer false q = false
  rw [Function.update_apply]
  split
  · rfl
  · exact (hv q hq).2

end Moves

/-- Calls and acknowledgements are no votes. -/
theorem sameVotes_called {w' : Cluster n C} {k : Nat} (h : w'.history = [.called k] ++ w.history) :
    SameVotes w w' := by
  intro i t c
  rw [h]
  simp

theorem sameVotes_acknowledged {w' : Cluster n C} {src dst : Fin n}
    (h : w'.history = [.acknowledged src dst] ++ w.history) : SameVotes w w' := by
  intro i t c
  rw [h]
  simp

theorem sameVotes_successOf {w' : Cluster n C} {src dst : Fin n} {reply : AppendEntriesReply}
    (h : w'.history = successOf src dst reply ++ w.history) : SameVotes w w' := by
  unfold successOf at h
  split at h
  · exact sameVotes_acknowledged h
  · exact .of_eq h

/-! ## Election safety -/

/-- The request does not find its receiver in its own term with a vote cast and
take that vote back. -/
def SparesVote (w : Cluster n C) : Request n C → Prop
  | .installSnapshot _ dst args =>
    args.term = (w.peers dst).currentTerm → (w.peers dst).votedFor = none
  | .requestVote .. => True
  | .appendEntries .. => True

instance (w : Cluster n C) : (r : Request n C) → Decidable (SparesVote w r)
  | .installSnapshot _ dst args => inferInstanceAs (Decidable
      (args.term = (w.peers dst).currentTerm → (w.peers dst).votedFor = none))
  | .requestVote .. => isTrue trivial
  | .appendEntries .. => isTrue trivial

/-- No `InstallSnapshot` is handled by a peer that is already in the term of the
request and has voted there. -/
def KeepsVote (w : Cluster n C) (act : Action n C) : Prop :=
  ∀ r ∈ w.delivered act, SparesVote w r

instance (w : Cluster n C) (act : Action n C) : Decidable (KeepsVote w act) :=
  inferInstanceAs (Decidable (∀ r ∈ w.delivered act, SparesVote w r))

/-- The request does not get a vote from a peer that has voted for another candidate in
its term. -/
def AsksFirst (w : Cluster n C) : Request n C → Prop
  | .requestVote _ dst args => ((w.peers dst).requestVote args).2.voteGranted = true →
      ∀ c, Event.voted dst args.term c ∈ w.history → c = args.candidateId
  | .appendEntries .. => True
  | .installSnapshot .. => True

instance (w : Cluster n C) : (r : Request n C) → Decidable (AsksFirst w r)
  | .requestVote _ dst args => inferInstanceAs (Decidable
      (((w.peers dst).requestVote args).2.voteGranted = true →
        ∀ c, Event.voted dst args.term c ∈ w.history → c = args.candidateId))
  | .appendEntries .. => isTrue trivial
  | .installSnapshot .. => isTrue trivial

/-- No peer votes for a second candidate in one term. -/
def VotesOnce (w : Cluster n C) (act : Action n C) : Prop :=
  ∀ r ∈ w.delivered act, AsksFirst w r

instance (w : Cluster n C) (act : Action n C) : Decidable (VotesOnce w act) :=
  inferInstanceAs (Decidable (∀ r ∈ w.delivered act, AsksFirst w r))

section Step

variable {w w' : Cluster n C} {b : Ballots (Fin n) Int} {act : Action n C}

theorem VoteRel.step (h : VoteRel w b) (hok : VotesOnce w act) (hs : w.step act = some w') :
    ∃ b', VoteRel w' b' ∧ ∀ {t c}, b.leader t = some c → b'.leader t = some c := by
  cases trans_of_step hs with
  | tickHeartbeat i elapsed timeout hlead =>
      refine ⟨b, h.still ?_ (.of_eq ?_) ?_ ?_ ?_, fun hl => hl⟩ <;> simp
  | tickElection i elapsed timeout hnot hn => exact ⟨_, h.stand i, fun hl => hl⟩
  | tickIdle i elapsed timeout => exact ⟨b, h, fun hl => hl⟩
  | start i command =>
      refine ⟨_, h.follow (Peer.follows_start (w.peers i) command).yields ?_ (.of_eq ?_) ?_ ?_ ?_,
        fun hl => hl⟩ <;> simp [setPeer]
  | snapshot i index data =>
      exact ⟨_, h.follow (Peer.follows_snapshot _ index data).yields rfl (.of_eq rfl) rfl
        (fun hm => hm) (fun hm => hm), fun hl => hl⟩
  | heartbeatRun k i inc hk hinc hlead =>
      exact ⟨b, h.still rfl (.of_eq rfl) rfl (fun hm => hm) (fun hm => hm), fun hl => hl⟩
  | heartbeatQuit k =>
      exact ⟨b, h.still rfl (.of_eq rfl) rfl (fun hm => hm) (fun hm => hm), fun hl => hl⟩
  | workerMoves k wk pc hk hinc hpc =>
      exact ⟨b, h.still rfl (.of_eq rfl) rfl (fun hm => hm) (fun hm => hm), fun hl => hl⟩
  | workerEntries k wk args hk hinc hpc hargs =>
      refine ⟨b, h.still rfl (sameVotes_called rfl) rfl (fun hm => ?_) (fun hm => hm),
        fun hl => hl⟩
      simpa [note, request, setWorker] using hm
  | workerFlag k wk flag pc hk hinc hpc =>
      refine ⟨_, h.follow (Peer.follows_setReplicating _ wk.peer flag).yields rfl (.of_eq rfl) rfl
        (fun hm => hm) (fun hm => hm), fun hl => hl⟩
  | workerSnapshot k wk args hk hinc hpc hargs =>
      refine ⟨b, h.still rfl (sameVotes_called rfl) rfl (fun hm => ?_) (fun hm => hm),
        fun hl => hl⟩
      simpa [note, request, setWorker] using hm
  | deliverVote k e dst args hk =>
      rcases Peer.requestVote_cases (w.peers dst) args with
        ⟨hreply, hrf⟩ | ⟨hreply, hle, -, -, hrf⟩
      · rw [hrf]
        exact ⟨_, h.deny hk (Peer.follows_stepDown _ _).yields hreply, fun hl => hl⟩
      · have hfree := h.free (hok _ hk (by rw [hreply]))
        rw [hreply]
        exact ⟨_, h.grant hk hle hfree hrf, fun hl => hl⟩
  | deliverEntries k m dst args hk =>
      refine ⟨_, h.follow (Peer.follows_appendEntries _ args).yields rfl (.of_eq rfl) rfl
        (fun hm => List.mem_of_mem_eraseIdx hm) (fun hm => ?_), fun hl => hl⟩
      simpa [respond, setPeer, dropRequest] using hm
  | deliverSnapshot k m dst args hk =>
      refine ⟨_, h.follow (Peer.yields_installSnapshot _ args) rfl (.of_eq rfl) rfl
        (fun hm => List.mem_of_mem_eraseIdx hm) (fun hm => ?_), fun hl => hl⟩
      simpa [respond, setPeer, dropRequest] using hm
  | receiveVote k e dst args reply el rf votes started hk hel hinc hwait hreply =>
      rcases Peer.handleRequestVoteReply_cases hreply with
        ⟨hrf, hvotes⟩ | ⟨hgrant, hvotes, hterm, hstatus, hnext⟩
      · have hf : Peer.Follows (w.peers el.src) rf := by
          rcases hrf with rfl | rfl
          · exact Peer.Follows.refl _
          · exact Peer.follows_stepDown _ _
        exact ⟨b.advance el.src rf.currentTerm, h.read hel hwait (.inl hvotes) rfl
          (h.toPeerVotes.follow hf.yields (readVote_peers ..)), fun hl => hl⟩
      · have hvotes : votes = el.votes + 1 ∧ b.vote dst el.args.term = some el.src :=
          ⟨hvotes, h.of_reply hk hel hgrant⟩
        rcases hnext with hrf | ⟨hmajor, hrf⟩
        · refine ⟨b, h.read hel hwait (.inr hvotes) rfl (h.toPeerVotes.of_peers ?_), fun hl => hl⟩
          rw [readVote_peers, hrf, Function.update_eq_self]
        · have hc := (h.counted el (List.mem_of_getElem? hel)).receive hwait (.inr hvotes)
          obtain ⟨Q, hQ, hv⟩ := hc.quorum hmajor
          rw [← hterm] at hv
          have hp : PeerVotes (w.readVote k e
              { el with votes := votes, waiting := Function.update el.waiting dst false } rf
              started) (b.elect el.src (w.peers el.src).currentTerm) :=
            h.toPeerVotes.win hQ hv hstatus (by rw [readVote_peers, hrf])
          refine ⟨b.elect el.src (w.peers el.src).currentTerm,
            h.read hel hwait (.inr hvotes) rfl hp, fun {t c} hl => ?_⟩
          rw [Ballots.elect_leader]
          split
          · next ht =>
              rw [ht] at hl
              rw [h.inv.leader_eq hl hQ hv]
          · exact hl
  | receiveEntries k m dst args reply wk hk hm hinc hpc =>
      exact ⟨_, h.follow (Peer.follows_handleAppendEntriesReply _ dst args reply).yields rfl
        (sameVotes_successOf rfl) rfl (fun hm => hm) (fun hm => List.mem_of_mem_eraseIdx hm),
        fun hl => hl⟩
  | receiveSnapshot k m dst args reply wk hk hm hinc hpc =>
      exact ⟨_, h.follow (Peer.follows_handleInstallSnapshotReply _ dst args reply).yields rfl
        (sameVotes_acknowledged rfl) rfl (fun hm => hm)
        (fun hm => List.mem_of_mem_eraseIdx hm), fun hl => hl⟩
  | callFails k wk hk hinc hpc =>
      exact ⟨b, h.still rfl (.of_eq rfl) rfl (fun hm => hm) (fun hm => hm), fun hl => hl⟩
  | voteFails e peer el hel => exact ⟨b, h.voteFails hel, fun hl => hl⟩
  | apply i rf msgs hsend happly =>
      exact ⟨_, h.follow (Peer.follows_applyCommitted happly).yields rfl (.of_eq rfl) rfl
        (fun hm => hm) (fun hm => hm), fun hl => hl⟩
  | send i msg rest hsend =>
      exact ⟨b, h.still rfl (.of_eq rfl) rfl (fun hm => hm) (fun hm => hm), fun hl => hl⟩
  | crash i =>
      have hf := Peer.follows_make (h.saved i)
      rw [h.me i] at hf
      exact ⟨_, h.follow hf.yields rfl (.of_eq rfl) rfl (fun hm => hm) (fun hm => hm), fun hl => hl⟩

end Step

theorem VoteRel.path {w w' : Cluster n C} {b : Ballots (Fin n) Int} (h : VoteRel w b)
    (hp : Run.Path Cluster.step VotesOnce w w') :
    ∃ b', VoteRel w' b' ∧ ∀ {t c}, b.leader t = some c → b'.leader t = some c := by
  refine hp.invariant (P := fun w' => ∃ b', VoteRel w' b' ∧
    ∀ {t c}, b.leader t = some c → b'.leader t = some c) ?_ ⟨b, h, fun hl => hl⟩
  intro s act t ⟨b', hb', hl'⟩ hok hs
  obtain ⟨b'', hb'', hl''⟩ := hb'.step hok hs
  exact ⟨b'', hb'', fun hl => hl'' (hl' hl)⟩

/-! ## Runs in which no vote is cleared -/

/-- A peer that has voted in its term knows it. -/
structure Remembers (w : Cluster n C) : Prop where
  me : ∀ i, (w.peers i).me = i
  saved : ∀ i, (w.peers i).Saved
  past : ∀ i t c, Event.voted i t c ∈ w.history → t ≤ (w.peers i).currentTerm
  kept : ∀ i c, Event.voted i (w.peers i).currentTerm c ∈ w.history →
    (w.peers i).votedFor = some c

namespace Remembers

variable {w w' : Cluster n C} {act : Action n C}

theorem init : Remembers (init : Cluster n C) where
  me := fun _ => rfl
  saved := fun i => Peer.saved_make i _
  past := fun _ _ _ h => by cases h
  kept := fun _ _ h => by cases h

theorem still (h : Remembers w) (hw : w'.peers = w.peers)
    (hnew : SameVotes w w') : Remembers w' := by
  refine ⟨?_, ?_, fun i t c hm => ?_, fun i c hm => ?_⟩
  · rw [hw]
    exact h.me
  · rw [hw]
    exact h.saved
  · rw [hw]
    exact h.past i t c ((hnew _ _ _).mp hm)
  · rw [hw] at hm ⊢
    exact h.kept i c ((hnew _ _ _).mp hm)

theorem move (h : Remembers w) {i : Fin n} {rf : Peer n C} (hme : rf.me = (w.peers i).me)
    (hsaved : (w.peers i).Saved → rf.Saved)
    (hmove : rf.currentTerm = (w.peers i).currentTerm ∧ rf.votedFor = (w.peers i).votedFor ∨
      (w.peers i).currentTerm < rf.currentTerm)
    (hw : w'.peers = Function.update w.peers i rf)
    (hnew : SameVotes w w') : Remembers w' := by
  have hself : w'.peers i = rf := by simp [hw]
  have hother : ∀ {j}, j ≠ i → w'.peers j = w.peers j := by
    intro j hj
    simp [hw, hj]
  refine ⟨fun j => ?_, fun j => ?_, fun j t c hm => ?_, fun j c hm => ?_⟩ <;>
    by_cases hj : j = i
  · rw [hj, hself, hme, h.me]
  · rw [hother hj, h.me]
  · rw [hj, hself]
    exact hsaved (h.saved i)
  · rw [hother hj]
    exact h.saved j
  · have hpast := h.past i t c (hj ▸ (hnew _ _ _).mp hm)
    rw [hj, hself]
    rcases hmove with ⟨ht, -⟩ | ht <;> omega
  · rw [hother hj]
    exact h.past j t c ((hnew _ _ _).mp hm)
  · rw [hj, hself] at hm ⊢
    rcases hmove with ⟨ht, hv⟩ | ht
    · rw [ht] at hm
      exact hv.trans (h.kept i c ((hnew _ _ _).mp hm))
    · exact absurd (h.past i _ c ((hnew _ _ _).mp hm)) (not_le.mpr ht)
  · rw [hother hj] at hm ⊢
    exact h.kept j c ((hnew _ _ _).mp hm)

theorem follow (h : Remembers w) {i : Fin n} {rf : Peer n C} (hf : Peer.Follows (w.peers i) rf)
    (hw : w'.peers = Function.update w.peers i rf)
    (hnew : SameVotes w w') : Remembers w' :=
  h.move hf.me hf.saved (hf.move.imp (fun hm => ⟨hm.1, hm.2.1⟩) fun hm => hm.1) hw hnew

/-- The peer votes in a term, where it has not voted for anybody else. -/
theorem vote (h : Remembers w) {i : Fin n} {rf : Peer n C} {d : Fin n}
    (hme : rf.me = (w.peers i).me) (hsaved : rf.Saved)
    (hle : (w.peers i).currentTerm ≤ rf.currentTerm) (hvote : rf.votedFor = some d)
    (hfirst : ∀ c, Event.voted i rf.currentTerm c ∈ w.history → c = d)
    (hw : w'.peers = Function.update w.peers i rf)
    (hhist : w'.history = .voted i rf.currentTerm d :: w.history) : Remembers w' := by
  have hself : w'.peers i = rf := by simp [hw]
  have hother : ∀ {j}, j ≠ i → w'.peers j = w.peers j := by
    intro j hj
    simp [hw, hj]
  have hold : ∀ {j t c}, j ≠ i → Event.voted j t c ∈ w'.history → .voted j t c ∈ w.history := by
    intro j t c hj hm
    rw [hhist] at hm
    rcases List.mem_cons.mp hm with heq | hm
    · cases heq
      exact absurd rfl hj
    · exact hm
  refine ⟨fun j => ?_, fun j => ?_, fun j t c hm => ?_, fun j c hm => ?_⟩ <;>
    by_cases hj : j = i
  · rw [hj, hself, hme, h.me]
  · rw [hother hj, h.me]
  · rw [hj, hself]
    exact hsaved
  · rw [hother hj]
    exact h.saved j
  · rw [hhist] at hm
    rw [hj, hself]
    rcases List.mem_cons.mp hm with heq | hm
    · cases heq
      exact le_refl _
    · exact (h.past i t c (hj ▸ hm)).trans hle
  · rw [hother hj]
    exact h.past j t c (hold hj hm)
  · rw [hj, hself] at hm ⊢
    rw [hhist] at hm
    rcases List.mem_cons.mp hm with heq | hm
    · cases heq
      exact hvote
    · rw [hvote, hfirst c hm]
  · rw [hother hj] at hm ⊢
    exact h.kept j c (hold hj hm)

/-- A vote is granted to the one candidate that the peer has voted for, if any. -/
theorem first (h : Remembers w) {dst : Fin n} {args : RequestVoteArgs n}
    (hgrant : ((w.peers dst).requestVote args).2.voteGranted = true) (c : Fin n)
    (hm : Event.voted dst args.term c ∈ w.history) : c = args.candidateId := by
  rcases Peer.requestVote_cases (w.peers dst) args with ⟨hreply, -⟩ | ⟨-, hle, -, hfree, -⟩
  · rw [hreply] at hgrant
    cases hgrant
  · have hterm : args.term = (w.peers dst).currentTerm := le_antisymm (h.past dst _ c hm) hle
    rw [Peer.stepDown_of_le hterm.le] at hfree
    rw [hterm] at hm
    rw [h.kept dst c hm] at hfree
    rcases hfree with hnone | hsome
    · cases hnone
    · exact Option.some.inj hsome

theorem votesOnce (h : Remembers w) (act : Action n C) : VotesOnce w act := by
  intro r hr
  cases r with
  | requestVote e dst args => exact h.first
  | appendEntries m dst args => trivial
  | installSnapshot m dst args => trivial

theorem step (h : Remembers w) (hok : KeepsVote w act) (hs : w.step act = some w') :
    Remembers w' := by
  cases trans_of_step hs with
  | tickHeartbeat i elapsed timeout hlead => exact h.still (by simp) (.of_eq (by simp))
  | tickElection i elapsed timeout hnot hn =>
      have hlt : (w.peers i).currentTerm < (w.peers i).startElection.1.currentTerm :=
        Int.lt_succ _
      have hvote : (w.peers i).startElection.1.votedFor = some (w.peers i).me := rfl
      rw [h.me i] at hvote
      have hme : (w.peers i).startElection.1.me = (w.peers i).me := rfl
      exact h.vote hme (Peer.saved_startElection (w.peers i)) hlt.le hvote
        (fun c hm => absurd (h.past i _ c hm) (not_le.mpr hlt)) rfl rfl
  | tickIdle i elapsed timeout => exact h
  | start i command =>
      exact h.follow (Peer.follows_start (w.peers i) command) (by simp [setPeer])
        (.of_eq (by simp [setPeer]))
  | snapshot i index data => exact h.follow (Peer.follows_snapshot _ index data) rfl (.of_eq rfl)
  | heartbeatRun k i inc hk hinc hlead => exact h.still rfl (.of_eq rfl)
  | heartbeatQuit k => exact h.still rfl (.of_eq rfl)
  | workerMoves k wk pc hk hinc hpc => exact h.still rfl (.of_eq rfl)
  | workerEntries k wk args hk hinc hpc hargs =>
      exact h.still rfl (sameVotes_called rfl)
  | workerFlag k wk flag pc hk hinc hpc =>
      exact h.follow (Peer.follows_setReplicating _ wk.peer flag) rfl (.of_eq rfl)
  | workerSnapshot k wk args hk hinc hpc hargs =>
      exact h.still rfl (sameVotes_called rfl)
  | deliverVote k e dst args hk =>
      rcases Peer.requestVote_cases (w.peers dst) args with
        ⟨hreply, hrf⟩ | ⟨hreply, hle, -, -, hrf⟩
      · refine h.follow (Peer.follows_stepDown (w.peers dst) args.term) ?_ ?_
        · rw [← hrf]
          rfl
        · exact .of_eq (by simp [note, voteOf, hreply, respond, setPeer, dropRequest])
      · have hgrant : ((w.peers dst).requestVote args).2.voteGranted = true := by rw [hreply]
        have hterm : ((w.peers dst).requestVote args).1.currentTerm = args.term := by
          rw [hrf]
          show ((w.peers dst).stepDown args.term).1.currentTerm = args.term
          rw [Peer.stepDown_currentTerm, max_eq_right hle]
        refine h.vote (d := args.candidateId) ?_ ?_ ?_ ?_ ?_ rfl ?_
        · rw [hrf]
          exact (Peer.follows_stepDown _ args.term).me
        · rw [hrf]
          exact Peer.saved_persist _
        · rw [hterm]
          exact hle
        · rw [hrf]
          rfl
        · rw [hterm]
          exact h.first hgrant
        · rw [hterm]
          simp [note, voteOf, hreply, respond, setPeer, dropRequest]
  | deliverEntries k m dst args hk =>
      exact h.follow (Peer.follows_appendEntries _ args) rfl (.of_eq rfl)
  | deliverSnapshot k m dst args hk =>
      exact h.follow (Peer.follows_installSnapshot (hok _ hk)) rfl (.of_eq rfl)
  | receiveVote k e dst args reply el rf votes started hk hel hinc hwait hreply =>
      rcases Peer.handleRequestVoteReply_cases hreply with
        ⟨hrf, -⟩ | ⟨-, -, -, hstatus, hnext⟩
      · have hf : Peer.Follows (w.peers el.src) rf := by
          rcases hrf with rfl | rfl
          · exact Peer.Follows.refl _
          · exact Peer.follows_stepDown _ _
        exact h.follow hf (readVote_peers ..) (.of_eq (by simp))
      · have hsame : rf.me = (w.peers el.src).me ∧
            ((w.peers el.src).Saved → rf.Saved) ∧
            rf.currentTerm = (w.peers el.src).currentTerm ∧
            rf.votedFor = (w.peers el.src).votedFor := by
          rcases hnext with rfl | ⟨-, rfl⟩
          · exact ⟨rfl, id, rfl, rfl⟩
          · rw [Peer.becomeLeader_of_candidate hstatus]
            exact ⟨rfl, id, rfl, rfl⟩
        obtain ⟨hme, hsaved, hmove⟩ := hsame
        exact h.move hme hsaved (.inl hmove) (readVote_peers ..) (.of_eq (by simp))
  | receiveEntries k m dst args reply wk hk hm hinc hpc =>
      exact h.follow (Peer.follows_handleAppendEntriesReply _ dst args reply) rfl
        (sameVotes_successOf rfl)
  | receiveSnapshot k m dst args reply wk hk hm hinc hpc =>
      exact h.follow (Peer.follows_handleInstallSnapshotReply _ dst args reply) rfl
        (sameVotes_acknowledged rfl)
  | callFails k wk hk hinc hpc => exact h.still rfl (.of_eq rfl)
  | voteFails e peer el hel => exact h.still rfl (.of_eq rfl)
  | apply i rf msgs hsend happly =>
      exact h.follow (Peer.follows_applyCommitted happly) rfl (.of_eq rfl)
  | send i msg rest hsend => exact h.still rfl (.of_eq rfl)
  | crash i =>
      have hf := Peer.follows_make (h.saved i)
      rw [h.me i] at hf
      exact h.follow hf rfl (.of_eq rfl)

/-- Where every vote is kept, no peer votes for a second candidate. -/
theorem path (h : Remembers w) (hpath : Run.Path Cluster.step KeepsVote w w') :
    Run.Path Cluster.step VotesOnce w w' ∧ Remembers w' :=
  hpath.strengthen (fun _ _ _ hr hok hs => hr.step hok hs)
    (fun _ act _ hr _ _ => hr.votesOnce act) h

end Remembers

/-- Two peers that have led one term in one run are one peer. -/
theorem leader_unique {w w' : Cluster n C} {i j : Fin n}
    (hw : Run.Path step KeepsVote init w) (hw' : Run.Path step KeepsVote w w')
    (hi : (w.peers i).status = .leader) (hj : (w'.peers j).status = .leader)
    (hterm : (w.peers i).currentTerm = (w'.peers j).currentTerm) : i = j := by
  obtain ⟨hpath, hrem⟩ := Remembers.init.path hw
  obtain ⟨hpath', -⟩ := hrem.path hw'
  obtain ⟨b, hb, -⟩ := voteRel_init.path hpath
  obtain ⟨b', hb', hkeep⟩ := hb.path hpath'
  have hbi := hkeep (hb.leads i hi)
  rw [hterm, hb'.leads j hj] at hbi
  exact (Option.some.inj hbi).symm

/-- Peer 0 is elected. -/
def elected : List (Action 3 Nat) :=
  [.tick 0 400 200, .deliver 0, .receive 0]

/-- It takes a command and replicates it to peer 1. -/
def replicated : List (Action 3 Nat) :=
  [.start 0 (some 7), .sendHeartbeat 0, .worker 0, .deliver 1, .receive 0]

theorem leader_unique_replicated : ∃ w w' : Cluster 3 Nat, Run.Path step KeepsVote init w ∧
    Run.Path step KeepsVote w w' ∧ (w.peers 0).status = .leader ∧
    ∀ j, (w'.peers j).status = .leader →
      (w.peers 0).currentTerm = (w'.peers j).currentTerm → 0 = j :=
  ⟨_, _, Run.path_of_exec elected rfl, Run.path_of_exec replicated rfl, by decide,
    fun _ hj hterm => leader_unique (Run.path_of_exec elected rfl)
      (Run.path_of_exec replicated rfl) (by decide) hj hterm⟩

/-- Without the condition a peer votes twice in term 2. -/
def votesTwice : List (Action 3 Nat) :=
  -- peer 0 leads term 1, commits entry 1 with peer 2, compacts it and crashes
  [.tick 0 400 200, .deliver 1, .receive 0, .start 0 (some 7), .sendHeartbeat 0, .worker 1,
   .deliver 1, .receive 0, .apply 0, .send 0, .snapshot 0 1 [1], .crash 0,
   -- peers 0 and 2 both stand in term 2, and peer 1 votes for peer 0
   .tick 0 400 200, .tick 2 400 200, .deliver 1, .receive 0,
   -- peer 1 lacks entry 1, which the new leader no longer has: it is sent the snapshot
   .sendHeartbeat 1, .worker 2, .deliver 4, .receive 0, .worker 2, .tick 0 100 200,
   .sendHeartbeat 1, .worker 4, .worker 4, .worker 4, .deliver 4,
   -- its vote is gone, and the request of peer 2 gets another one
   .deliver 3, .receive 1]

set_option maxRecDepth 100000 in
theorem votesTwice_two_leaders : ∃ w : Cluster 3 Nat, Run.Path step Run.always init w ∧
    (w.peers 0).status = .leader ∧ (w.peers 2).status = .leader ∧
    (w.peers 0).currentTerm = (w.peers 2).currentTerm := by
  refine ⟨_, Run.path_of_exec votesTwice rfl, ?_, ?_, ?_⟩ <;> decide

end Cluster
end Raft
end Labs
