import Labs.Raft.Backoff
import Labs.Raft.Section

/-!
# What a leader has and what it learns

These are facts about the sections of one peer, with any arguments.  Every peer holds some
log in compacted form (`Viewed`).  Within a term a peer that leads goes on leading with a
log that grows, or follows for good (`Advances`).  What it knows of the others as a leader
comes from its election and from the answers it reads (`Learns`), and `matchIndex` does
not fall while it leads.
-/

namespace Labs
namespace Raft

variable {n : Nat} {C : Type}

namespace Peer

/-! ## How far a leader looks -/

theorem conflictStart_le (rf : Peer n C) (term : Int) (fuel : Nat) (i : Int) :
    rf.conflictStart term fuel i ≤ i := by
  induction fuel generalizing i with
  | zero => exact le_refl _
  | succ fuel ih =>
      unfold conflictStart
      split
      · have := ih (i - 1)
        omega
      · exact le_refl _

theorem matchPrevLog_le {rf : Peer n C} {args : AppendEntriesArgs n C} {reply : AppendEntriesReply}
    (hprev : -1 ≤ args.prevLogIndex) (hm : rf.matchPrevLog args = some reply) :
    reply.xLen ≤ args.prevLogIndex + 1 ∧ reply.xIndex ≤ args.prevLogIndex + 1 := by
  unfold matchPrevLog at hm
  dsimp only at hm
  split at hm
  · cases hm
    dsimp only
    omega
  · split at hm
    · split at hm
      · cases hm
        dsimp only
        omega
      · cases hm
    · split at hm
      · cases hm
        have := conflictStart_le rf (rf.termAt args.prevLogIndex true)
          (args.prevLogIndex - rf.lastIncludedIndex).toNat args.prevLogIndex
        dsimp only
        omega
      · cases hm

/-- A rejection never points beyond the index that was tried. -/
theorem appendEntries_le {rf : Peer n C} {args : AppendEntriesArgs n C}
    (hprev : -1 ≤ args.prevLogIndex) (hs : (rf.appendEntries args).2.success = false) :
    (rf.appendEntries args).2.xLen ≤ args.prevLogIndex + 1 ∧
      (rf.appendEntries args).2.xIndex ≤ args.prevLogIndex + 1 := by
  by_cases hlt : args.term < rf.currentTerm
  · rw [appendEntries, if_pos hlt]
    dsimp only
    omega
  · cases hm : (rf.follow args.term).matchPrevLog args with
    | none =>
        rw [appendEntries_of_none hlt hm] at hs
        cases hs
    | some reply =>
        rw [appendEntries_of_some hlt hm]
        exact matchPrevLog_le hprev hm

theorem Compacts.nextAfter_le {rf : Peer n C} {ℓ : List (LogEntry C)} {b : Nat}
    (h : Compacts rf ℓ b) {reply : AppendEntriesReply} (hlen : reply.xLen ≤ ℓ.length + 1)
    (hindex : reply.xIndex ≤ ℓ.length + 1) : rf.nextAfter reply ≤ ℓ.length + 1 := by
  unfold nextAfter
  split
  · exact hlen
  · rcases h.findLastIndexOfTerm reply.xTerm with ⟨hnone, -⟩ | ⟨k, hk, -, hkl, -, -⟩
    · rw [if_pos hnone]
      exact hindex
    · rw [hk, if_neg (by omega)]
      omega

/-- If the peer leads, it did so before, in the same term, and knows no more of the
others. -/
def KeepsProgress (rf rf' : Peer n C) : Prop :=
  rf'.status = .leader → rf.status = .leader ∧ rf'.currentTerm = rf.currentTerm ∧
    rf'.nextIndex = rf.nextIndex ∧ rf'.matchIndex = rf.matchIndex

theorem KeepsProgress.refl (rf : Peer n C) : KeepsProgress rf rf := fun hs => ⟨hs, rfl, rfl, rfl⟩

theorem keepsProgress_of_follower {rf rf' : Peer n C} (h : rf'.status = .follower) :
    KeepsProgress rf rf' := by
  intro hs
  rw [h] at hs
  cases hs

theorem keepsProgress_stepDown (rf : Peer n C) (newTerm : Int) :
    KeepsProgress rf (rf.stepDown newTerm).1 := by
  rcases lt_or_ge rf.currentTerm newTerm with hlt | hle
  · rw [stepDown_of_lt hlt]
    exact keepsProgress_of_follower rfl
  · rw [stepDown_of_le hle]
    exact .refl rf

theorem keepsProgress_requestVote (rf : Peer n C) (args : RequestVoteArgs n) :
    KeepsProgress rf (rf.requestVote args).1 := by
  have hdown := keepsProgress_stepDown rf args.term
  rcases requestVote_cases rf args with ⟨-, heq⟩ | ⟨-, -, -, -, heq⟩
  · rw [heq]
    exact hdown
  · rw [heq]
    exact hdown

theorem appendEntries_status {rf : Peer n C} {args : AppendEntriesArgs n C}
    (hlt : ¬ args.term < rf.currentTerm) : (rf.appendEntries args).1.status = .follower := by
  cases hm : (rf.follow args.term).matchPrevLog args with
  | none =>
      rw [appendEntries_of_none hlt hm]
      show ((rf.follow args.term).accept args).status = .follower
      unfold accept updateFollowerCommitIndex
      split
      · split <;> rfl
      · rfl
  | some reply =>
      rw [appendEntries_of_some hlt hm]
      rfl

theorem keepsProgress_appendEntries (rf : Peer n C) (args : AppendEntriesArgs n C) :
    KeepsProgress rf (rf.appendEntries args).1 := by
  by_cases hlt : args.term < rf.currentTerm
  · rw [appendEntries, if_pos hlt]
    exact .refl rf
  · exact keepsProgress_of_follower (appendEntries_status hlt)

theorem keepsProgress_installSnapshot (rf : Peer n C) (args : InstallSnapshotArgs n) :
    KeepsProgress rf (rf.installSnapshot args).1 := by
  unfold installSnapshot
  dsimp only
  split
  · exact .refl rf
  · split <;> exact keepsProgress_of_follower rfl

theorem keepsProgress_start (rf : Peer n C) (command : Option C) :
    KeepsProgress rf (rf.start command).1 := by
  by_cases hlead : rf.status = .leader
  · rw [start_of_leader hlead]
    exact fun hs => ⟨hs, rfl, rfl, rfl⟩
  · rw [start_of_not_leader hlead]
    exact .refl rf

theorem keepsProgress_snapshot (rf : Peer n C) (index : Int) (data : Bytes) :
    KeepsProgress rf (rf.snapshot index data) := by
  obtain ⟨lastIndex, lastTerm, log, bytes, persister, heq⟩ := snapshot_eq rf index data
  rw [heq]
  exact fun hs => ⟨hs, rfl, rfl, rfl⟩

theorem keepsProgress_applyCommitted {rf rf' : Peer n C} {msgs : List (ApplyMsg C)}
    (h : rf.applyCommitted = some (rf', msgs)) : KeepsProgress rf rf' := by
  obtain ⟨applied, flag, rfl⟩ := applyCommitted_frame h
  exact fun hs => ⟨hs, rfl, rfl, rfl⟩

/-! ## The log of any peer -/

/-- There is a log that the peer holds in compacted form. -/
structure Viewed (rf : Peer n C) : Prop where
  index : 0 ≤ rf.lastIncludedIndex
  log : rf.log ≠ []
  term : rf.lastIncludedIndex = 0 → rf.lastIncludedTerm = -1

namespace Viewed

variable {rf rf' : Peer n C}

theorem compacts (h : Viewed rf) : ∃ ℓ b, Compacts rf ℓ b := by
  obtain ⟨d, tail, hlog⟩ := List.exists_cons_of_ne_nil h.log
  have hindex := h.index
  obtain ⟨b, hb⟩ : ∃ b : Nat, rf.lastIncludedIndex = b := ⟨rf.lastIncludedIndex.toNat, by omega⟩
  cases b with
  | zero => exact ⟨tail, 0, hb, Nat.zero_le _, ⟨d, hlog⟩, h.term hb⟩
  | succ b =>
      -- of what is compacted only the last term is still known
      let last : LogEntry C := { term := rf.lastIncludedTerm, command := none }
      have hlen : (List.replicate b last ++ [last]).length = b + 1 := by simp
      refine ⟨List.replicate b last ++ [last] ++ tail, b + 1, hb, ?_, ⟨d, ?_⟩, ?_⟩
      · rw [List.length_append, hlen]
        omega
      · rw [hlog, List.drop_left' hlen]
      · have hget : (List.replicate b last ++ [last] ++ tail)[b]? = some last := by
          simp
        rw [termOf_succ hget]

theorem of_eq (h : Viewed rf) (hindex : rf'.lastIncludedIndex = rf.lastIncludedIndex)
    (hlog : rf'.log = rf.log) (hterm : rf'.lastIncludedTerm = rf.lastIncludedTerm) :
    Viewed rf' :=
  ⟨by rw [hindex]; exact h.index, by rw [hlog]; exact h.log, by rw [hindex, hterm]; exact h.term⟩

theorem sameLog (h : Viewed rf) (hs : SameLog rf rf') : Viewed rf' :=
  h.of_eq hs.index hs.log hs.term

end Viewed

theorem viewed_make (i : Fin n) : Viewed (make i (Persister.makePersister (C := C))) :=
  ⟨le_refl _, by simp [make, readPersist, Persister.makePersister, Persister.readRaftState],
    fun _ => rfl⟩

theorem mergeEntries_ne_nil {rf : Peer n C} (h : rf.log ≠ []) (prevLogIndex : Int) (i : Nat)
    (entries : List (LogEntry C)) : rf.mergeEntries prevLogIndex i entries ≠ [] := by
  induction entries generalizing i with
  | nil => exact h
  | cons entry rest ih =>
      unfold mergeEntries
      dsimp only
      split
      · exact ih (i + 1)
      · split
        · simp
        · split
          · simp
          · exact ih (i + 1)

theorem Viewed.appendEntries {rf : Peer n C} (h : Viewed rf) (args : AppendEntriesArgs n C) :
    Viewed (rf.appendEntries args).1 := by
  by_cases hlt : args.term < rf.currentTerm
  · rw [Peer.appendEntries, if_pos hlt]
    exact h
  · have hf : Viewed (rf.follow args.term) :=
      (h.sameLog (sameLog_stepDown rf args.term)).of_eq rfl rfl rfl
    cases hm : (rf.follow args.term).matchPrevLog args with
    | none =>
        rw [appendEntries_of_none hlt hm]
        obtain ⟨-, hlog, hindex, hterm⟩ := accept_eq (rf.follow args.term) args
        refine ⟨?_, ?_, ?_⟩
        · rw [hindex]
          exact hf.index
        · rw [hlog]
          exact mergeEntries_ne_nil hf.log _ _ _
        · rw [hindex, hterm]
          exact hf.term
    | some reply =>
        rw [appendEntries_of_some hlt hm]
        exact hf

theorem Viewed.snapshot {rf : Peer n C} (h : Viewed rf) (index : Int) (data : Bytes) :
    Viewed (rf.snapshot index data) := by
  have hindex := h.index
  unfold Peer.snapshot
  split
  · exact h
  · next hlt =>
      have hpos : 0 < index := by omega
      dsimp only
      split <;> exact ⟨hpos.le, by simp [persist], fun h0 => absurd h0 hpos.ne'⟩

theorem Viewed.installSnapshot {rf : Peer n C} (h : Viewed rf) (args : InstallSnapshotArgs n) :
    Viewed (rf.installSnapshot args).1 := by
  have hindex := h.index
  unfold Peer.installSnapshot
  dsimp only
  split
  · exact h
  · split
    · exact h.of_eq rfl rfl rfl
    · next hlt =>
        have hpos : 0 < args.lastIncludedIndex := by omega
        refine ⟨hpos.le, ?_, fun h0 => absurd h0 hpos.ne'⟩
        simp only [persist]
        split <;> simp

theorem Viewed.run {rf rf' : Peer n C} {s : Section n C} (h : Viewed rf) (hsaved : rf.Saved)
    (hs : rf.run s = some rf') : Viewed rf' := by
  cases s with
  | requestVote args =>
      cases hs
      exact h.sameLog (sameLog_requestVote rf args)
  | appendEntries args =>
      cases hs
      exact h.appendEntries args
  | installSnapshot args =>
      cases hs
      exact h.installSnapshot args
  | snapshot index data =>
      cases hs
      exact h.snapshot index data
  | start command =>
      cases hs
      by_cases hlead : rf.status = .leader
      · rw [start_of_leader hlead]
        exact ⟨h.index, by simp [persist], h.term⟩
      · rw [start_of_not_leader hlead]
        exact h
  | startElection =>
      cases hs
      exact h.sameLog (sameLog_startElection rf)
  | handleRequestVoteReply args reply votes =>
      cases hs
      rcases handleRequestVoteReply_frame rf args reply votes with
        heq | ⟨status, next, known, heq, -⟩
      · rw [heq]
        exact h.sameLog (sameLog_stepDown rf _)
      · rw [heq]
        exact h.of_eq rfl rfl rfl
  | handleAppendEntriesReply peer args reply =>
      cases hs
      rcases handleAppendEntriesReply_frame rf peer args reply with
        heq | ⟨next, known, commit, heq⟩
      · rw [heq]
        exact h.sameLog (sameLog_stepDown rf _)
      · rw [heq]
        exact h.of_eq rfl rfl rfl
  | handleInstallSnapshotReply peer args reply =>
      cases hs
      rcases handleInstallSnapshotReply_frame rf peer args reply with heq | ⟨next, known, heq⟩
      · rw [heq]
        exact h.sameLog (sameLog_stepDown rf _)
      · rw [heq]
        exact h.of_eq rfl rfl rfl
  | setReplicating peer flag =>
      cases hs
      exact h.of_eq rfl rfl rfl
  | applyCommitted =>
      obtain ⟨⟨r, msgs⟩, happly, rfl⟩ := Option.map_eq_some_iff.mp hs
      obtain ⟨applied, flag, rfl⟩ := applyCommitted_frame happly
      exact h.of_eq rfl rfl rfl
  | make =>
      cases hs
      exact h.of_eq hsaved.2.2.2.1 hsaved.2.2.1 hsaved.2.2.2.2.1

/-! ## What becomes of a leader -/

/-- Terms rise.  Within a term a peer follows for good, or leads with a log that grows,
unless it is still a candidate. -/
structure Advances (rf rf' : Peer n C) : Prop where
  term : rf.currentTerm ≤ rf'.currentTerm
  role : rf'.currentTerm = rf.currentTerm → rf'.status = .follower ∨ rf.status = .candidate ∨
    rf'.status = rf.status ∧ rf.lastLogIndex ≤ rf'.lastLogIndex

namespace Advances

variable {rf rf' : Peer n C}

theorem of_follower (hterm : rf.currentTerm ≤ rf'.currentTerm) (hs : rf'.status = .follower) :
    Advances rf rf' :=
  ⟨hterm, fun _ => .inl hs⟩

theorem of_eq (hterm : rf'.currentTerm = rf.currentTerm) (hs : rf'.status = rf.status)
    (hlast : rf.lastLogIndex ≤ rf'.lastLogIndex) : Advances rf rf' :=
  ⟨hterm.ge, fun _ => .inr (.inr ⟨hs, hlast⟩)⟩

theorem refl (rf : Peer n C) : Advances rf rf := of_eq rfl rfl (le_refl _)

end Advances

theorem advances_stepDown (rf : Peer n C) (newTerm : Int) :
    Advances rf (rf.stepDown newTerm).1 := by
  rcases lt_or_ge rf.currentTerm newTerm with hlt | hle
  · rw [stepDown_of_lt hlt]
    exact .of_follower hlt.le rfl
  · rw [stepDown_of_le hle]
    exact .refl rf

theorem advances_requestVote (rf : Peer n C) (args : RequestVoteArgs n) :
    Advances rf (rf.requestVote args).1 := by
  have hdown := advances_stepDown rf args.term
  rcases requestVote_cases rf args with ⟨-, heq⟩ | ⟨-, -, -, -, heq⟩
  · rw [heq]
    exact hdown
  · rw [heq]
    exact ⟨hdown.term, hdown.role⟩

theorem advances_appendEntries (rf : Peer n C) (args : AppendEntriesArgs n C) :
    Advances rf (rf.appendEntries args).1 := by
  by_cases hlt : args.term < rf.currentTerm
  · rw [Peer.appendEntries, if_pos hlt]
    exact .refl rf
  · exact .of_follower (follows_appendEntries rf args).yields.term_le (appendEntries_status hlt)

theorem advances_installSnapshot (rf : Peer n C) (args : InstallSnapshotArgs n) :
    Advances rf (rf.installSnapshot args).1 := by
  unfold Peer.installSnapshot
  dsimp only
  split
  · exact .refl rf
  · next hterm => split <;> exact .of_follower (not_lt.mp hterm) rfl

theorem advances_snapshot (rf : Peer n C) (index : Int) (data : Bytes) :
    Advances rf (rf.snapshot index data) := by
  unfold Peer.snapshot
  split
  · exact .refl rf
  · next hlt =>
      dsimp only
      split
      · next hbeyond =>
          refine .of_eq rfl rfl ?_
          unfold toPhysicalIndex at hbeyond
          simp only [Peer.lastLogIndex, persist, List.length_singleton]
          omega
      · next hin =>
          refine .of_eq rfl rfl ?_
          unfold toPhysicalIndex at hin ⊢
          simp only [Peer.lastLogIndex, persist, List.length_cons, List.length_drop]
          omega

theorem advances_handleRequestVoteReply (rf : Peer n C) (args : RequestVoteArgs n)
    (reply : RequestVoteReply) (votes : Nat) :
    Advances rf (rf.handleRequestVoteReply args reply votes).1 := by
  rcases handleRequestVoteReply_frame rf args reply votes with
    heq | ⟨status, next, known, heq, hsame | hcand⟩
  · rw [heq]
    exact advances_stepDown rf _
  · rw [heq]
    exact .of_eq rfl hsame (le_refl _)
  · rw [heq]
    exact ⟨le_refl _, fun _ => .inr (.inl hcand)⟩

theorem advances_run {rf rf' : Peer n C} {s : Section n C} (hsaved : rf.Saved)
    (hs : rf.run s = some rf') : Advances rf rf' := by
  cases s with
  | requestVote args =>
      cases hs
      exact advances_requestVote rf args
  | appendEntries args =>
      cases hs
      exact advances_appendEntries rf args
  | installSnapshot args =>
      cases hs
      exact advances_installSnapshot rf args
  | snapshot index data =>
      cases hs
      exact advances_snapshot rf index data
  | start command =>
      cases hs
      by_cases hlead : rf.status = .leader
      · rw [start_of_leader hlead]
        refine .of_eq rfl rfl ?_
        simp only [Peer.lastLogIndex, persist, List.length_append]
        omega
      · rw [start_of_not_leader hlead]
        exact .refl rf
  | startElection =>
      cases hs
      have hlt : rf.currentTerm < rf.startElection.1.currentTerm := Int.lt_succ rf.currentTerm
      exact ⟨hlt.le, fun heq => absurd heq hlt.ne'⟩
  | handleRequestVoteReply args reply votes =>
      cases hs
      exact advances_handleRequestVoteReply rf args reply votes
  | handleAppendEntriesReply peer args reply =>
      cases hs
      rcases handleAppendEntriesReply_frame rf peer args reply with
        heq | ⟨next, known, commit, heq⟩
      · rw [heq]
        exact advances_stepDown rf _
      · rw [heq]
        exact .of_eq rfl rfl (le_refl _)
  | handleInstallSnapshotReply peer args reply =>
      cases hs
      rcases handleInstallSnapshotReply_frame rf peer args reply with heq | ⟨next, known, heq⟩
      · rw [heq]
        exact advances_stepDown rf _
      · rw [heq]
        exact .of_eq rfl rfl (le_refl _)
  | setReplicating peer flag =>
      cases hs
      exact .of_eq rfl rfl (le_refl _)
  | applyCommitted =>
      obtain ⟨⟨r, msgs⟩, happly, rfl⟩ := Option.map_eq_some_iff.mp hs
      obtain ⟨applied, flag, rfl⟩ := applyCommitted_frame happly
      exact .of_eq rfl rfl (le_refl _)
  | make =>
      cases hs
      exact .of_follower hsaved.1.ge (make_status _ _)

/-! ## What a leader learns -/

/-- The answer is the vote that elects the peer. -/
def Wins (rf : Peer n C) (args : RequestVoteArgs n) (reply : RequestVoteReply) (votes : Nat) :
    Prop :=
  rf.currentTerm = args.term ∧ rf.status = .candidate ∧ reply.term ≤ rf.currentTerm ∧
    reply.voteGranted = true ∧ votes + 1 > n / 2

instance (rf : Peer n C) (args : RequestVoteArgs n) (reply : RequestVoteReply) (votes : Nat) :
    Decidable (rf.Wins args reply votes) :=
  inferInstanceAs (Decidable (_ ∧ _ ∧ _ ∧ _ ∧ _))

/-- A section that changes what the peer knows of the others as a leader has elected it
or reads an answer. -/
inductive Learns (rf : Peer n C) : Section n C → Peer n C → Prop
  | nothing {s rf'} : KeepsProgress rf rf' → Learns rf s rf'
  | elected (args : RequestVoteArgs n) (reply : RequestVoteReply) (votes : Nat) :
      rf.Wins args reply votes →
      Learns rf (.handleRequestVoteReply args reply votes) rf.becomeLeader.1
  | entries (peer : Fin n) (args : AppendEntriesArgs n C) (reply : AppendEntriesReply) :
      Learns rf (.handleAppendEntriesReply peer args reply)
        (rf.handleAppendEntriesReply peer args reply)
  | snapshot (peer : Fin n) (args : InstallSnapshotArgs n) (reply : InstallSnapshotReply) :
      Learns rf (.handleInstallSnapshotReply peer args reply)
        (rf.handleInstallSnapshotReply peer args reply)

theorem learns_handleRequestVoteReply (rf : Peer n C) (args : RequestVoteArgs n)
    (reply : RequestVoteReply) (votes : Nat) :
    Learns rf (.handleRequestVoteReply args reply votes)
      (rf.handleRequestVoteReply args reply votes).1 := by
  by_cases hwins : rf.Wins args reply votes
  · obtain ⟨hterm, hcand, hle, hgrant, hvotes⟩ := id hwins
    have heq : (rf.handleRequestVoteReply args reply votes).1 = rf.becomeLeader.1 := by
      unfold handleRequestVoteReply
      simp [hterm, hcand, hgrant, hvotes, show ¬ reply.term > args.term by omega]
    rw [heq]
    exact .elected args reply votes hwins
  · refine .nothing ?_
    unfold handleRequestVoteReply
    split
    · exact .refl rf
    · next hguard =>
        split
        · exact keepsProgress_stepDown rf _
        · next hle =>
            split
            · exact .refl rf
            · next hgrant =>
                dsimp only
                split
                · next hvotes =>
                    refine absurd ⟨?_, ?_, by omega, by simpa using hgrant, hvotes⟩ hwins
                    · exact not_not.mp fun hne => hguard (.inl hne)
                    · exact not_not.mp fun hne => hguard (.inr hne)
                · exact .refl rf

theorem learns_of_run {rf rf' : Peer n C} {s : Section n C} (hs : rf.run s = some rf') :
    Learns rf s rf' := by
  cases s with
  | requestVote args =>
      cases hs
      exact .nothing (keepsProgress_requestVote rf args)
  | appendEntries args =>
      cases hs
      exact .nothing (keepsProgress_appendEntries rf args)
  | installSnapshot args =>
      cases hs
      exact .nothing (keepsProgress_installSnapshot rf args)
  | snapshot index data =>
      cases hs
      exact .nothing (keepsProgress_snapshot rf index data)
  | start command =>
      cases hs
      exact .nothing (keepsProgress_start rf command)
  | startElection =>
      cases hs
      exact .nothing fun hlead => by cases hlead
  | handleRequestVoteReply args reply votes =>
      cases hs
      exact learns_handleRequestVoteReply rf args reply votes
  | handleAppendEntriesReply peer args reply =>
      cases hs
      exact .entries peer args reply
  | handleInstallSnapshotReply peer args reply =>
      cases hs
      exact .snapshot peer args reply
  | setReplicating peer flag =>
      cases hs
      exact .nothing fun hlead => ⟨hlead, rfl, rfl, rfl⟩
  | applyCommitted =>
      obtain ⟨⟨r, msgs⟩, happly, rfl⟩ := Option.map_eq_some_iff.mp hs
      exact .nothing (keepsProgress_applyCommitted happly)
  | make =>
      cases hs
      exact .nothing (keepsProgress_of_follower (make_status _ _))

/-- A leader that goes on leading after an answer has learned nothing from it, or that the
peer has accepted. -/
theorem handleAppendEntriesReply_matchIndex {rf : Peer n C} {peer : Fin n}
    {args : AppendEntriesArgs n C} {reply : AppendEntriesReply}
    (hlead : (rf.handleAppendEntriesReply peer args reply).status = .leader) :
    rf.status = .leader ∧
      (rf.handleAppendEntriesReply peer args reply).currentTerm = rf.currentTerm ∧
      ((rf.handleAppendEntriesReply peer args reply).matchIndex = rf.matchIndex ∨
        rf.currentTerm = args.term ∧ reply.success = true ∧
          (rf.handleAppendEntriesReply peer args reply).matchIndex =
            Function.update rf.matchIndex peer
              (max (rf.matchIndex peer) (args.prevLogIndex + args.entries.length))) := by
  rcases handleAppendEntriesReply_cases rf peer args reply with
    heq | ⟨hlt, heq⟩ | ⟨hold, hterm, -, ⟨hs, heq⟩ | ⟨-, next, heq, -⟩⟩
  · rw [heq] at hlead ⊢
    exact ⟨hlead, rfl, .inl rfl⟩
  · rw [heq, stepDown_of_lt hlt] at hlead
    cases hlead
  · obtain ⟨k, heq'⟩ := updateLeaderCommitIndex_eq
      (rf.updateMatchAndNextIndex peer (args.prevLogIndex + args.entries.length))
    rw [heq, heq', updateMatchAndNextIndex_eq]
    exact ⟨hold, rfl, .inr ⟨hterm, hs, rfl⟩⟩
  · rw [heq]
    exact ⟨hold, rfl, .inl rfl⟩

theorem handleInstallSnapshotReply_matchIndex {rf : Peer n C} {peer : Fin n}
    {args : InstallSnapshotArgs n} {reply : InstallSnapshotReply}
    (hlead : (rf.handleInstallSnapshotReply peer args reply).status = .leader) :
    rf.status = .leader ∧
      (rf.handleInstallSnapshotReply peer args reply).currentTerm = rf.currentTerm ∧
      ((rf.handleInstallSnapshotReply peer args reply).matchIndex = rf.matchIndex ∨
        rf.currentTerm = args.term ∧ reply.term ≤ args.term ∧
          (rf.handleInstallSnapshotReply peer args reply).matchIndex =
            Function.update rf.matchIndex peer
              (max (rf.matchIndex peer) args.lastIncludedIndex)) := by
  rcases handleInstallSnapshotReply_cases rf peer args reply with
    heq | ⟨hlt, heq⟩ | ⟨hold, hterm, hle, heq⟩
  · rw [heq] at hlead ⊢
    exact ⟨hlead, rfl, .inl rfl⟩
  · rw [heq, stepDown_of_lt hlt] at hlead
    cases hlead
  · rw [heq, updateMatchAndNextIndex_eq]
    exact ⟨hold, rfl, .inr ⟨hterm, hle, rfl⟩⟩

/-- Between two states in which a peer leads the same term it has gone on leading, and
knows the others to have at least as much. -/
theorem matchIndex_le_of_run {rf rf' : Peer n C} {s : Section n C} (hs : rf.run s = some rf')
    (hlead : rf.status = .leader) (hlead' : rf'.status = .leader) (p : Fin n) :
    rf.matchIndex p ≤ rf'.matchIndex p := by
  have hlearn : ∀ (peer : Fin n) (index : Int), rf.matchIndex p ≤
      Function.update rf.matchIndex peer (max (rf.matchIndex peer) index) p := by
    intro peer index
    rw [Function.update_apply]
    split
    · next heq =>
        rw [heq]
        exact le_max_left _ _
    · exact le_refl _
  cases learns_of_run hs with
  | nothing hkeeps => rw [(hkeeps hlead').2.2.2]
  | elected args reply votes hwins =>
      have hcand := hwins.2.1
      rw [hlead] at hcand
      cases hcand
  | entries peer args reply =>
      rcases (handleAppendEntriesReply_matchIndex hlead').2.2 with heq | ⟨-, -, heq⟩
      · rw [heq]
      · rw [heq]
        exact hlearn peer _
  | snapshot peer args reply =>
      rcases (handleInstallSnapshotReply_matchIndex hlead').2.2 with heq | ⟨-, -, heq⟩
      · rw [heq]
      · rw [heq]
        exact hlearn peer _

/-- The peer has led term `t` and known `p` to have the log up to `m`. -/
def HasLed (rf : Peer n C) (t : Int) (p : Fin n) (m : Int) : Prop :=
  t < rf.currentTerm ∨ rf.currentTerm = t ∧
    (rf.status = .follower ∨ rf.status = .leader ∧ m ≤ rf.matchIndex p)

theorem HasLed.run {rf rf' : Peer n C} {s : Section n C} {t m : Int} {p : Fin n}
    (h : HasLed rf t p m) (hsaved : rf.Saved) (hs : rf.run s = some rf') : HasLed rf' t p m := by
  have hadv := advances_run hsaved hs
  have hterm := hadv.term
  rcases h with hlt | ⟨heq, hrole⟩
  · exact .inl (by omega)
  · by_cases hsame : rf'.currentTerm = rf.currentTerm
    · refine .inr ⟨hsame.trans heq, ?_⟩
      rcases hadv.role hsame with hf | hcand | ⟨hstatus, -⟩
      · exact .inl hf
      · rcases hrole with hf | ⟨hlead, -⟩
        · rw [hcand] at hf
          cases hf
        · rw [hcand] at hlead
          cases hlead
      · rcases hrole with hf | ⟨hlead, hle⟩
        · exact .inl (hstatus.trans hf)
        · have hlead' := hstatus.trans hlead
          exact .inr ⟨hlead', hle.trans (matchIndex_le_of_run hs hlead hlead' p)⟩
    · exact .inl (by omega)

end Peer

namespace Cluster

/-- Once a server has led a term, what it knew there of a peer does not fall. -/
theorem hasLed_of_path {w w' : Cluster n C} (h : Run.Path step Run.always init w)
    (h' : Run.Path step Run.always w w') {i p : Fin n} {t m : Int}
    (hled : (w.peers i).HasLed t p m) : (w'.peers i).HasLed t p m := by
  induction h' with
  | refl => exact hled
  | tail hpath _ hs ih =>
      have hdurable := fun j => Peer.Durable.path (peer_path (h.trans hpath) j)
      rcases goes_of_step (fun j => (hdurable j).me) hs i with heq | ⟨s, hrun, -⟩
      · rw [heq]
        exact ih
      · exact ih.run (hdurable i).saved hrun

end Cluster
end Raft
end Labs
