import Labs.Consensus.Preserve
import Labs.Raft.Heartbeat
import Labs.Raft.Votes

/-!
# The cluster and the replicated log

`Refines w a` relates a state of the cluster to a state of the abstract replicated log.
The log of a peer is the abstract log with its first part compacted, the messages in
flight speak of the log that the leader of their term has built, and what a leader
knows of a peer is what that peer has acknowledged or the leader has committed.
-/

namespace Labs
namespace Raft

open Consensus

variable {n : Nat} {C : Type}

abbrev majority (n : Nat) : QuorumSystem (Fin n) := QuorumSystem.majority (Fin n)

abbrev AbsState (n : Nat) (C : Type) := Consensus.State (Fin n) Int (Option C)

structure PeerRel (rf : Peer n C) (a : AbsState n C) (i : Fin n) : Prop where
  base : ∃ b, rf.Compacts (a.log i) b ∧ b ≤ a.commit i
  commit : rf.commitIndex = a.commit i
  applied : rf.lastApplied ≤ rf.commitIndex
  term : 0 ≤ rf.currentTerm
  candidate : rf.status = .candidate → 0 < rf.currentTerm ∧
    a.cand i rf.currentTerm = some (a.log i) ∧ a.leader rf.currentTerm ≠ some i
  led : rf.status = .leader → (a.log i).length ≤ a.ack i rf.currentTerm
  next : rf.status = .leader → ∀ p, 1 ≤ rf.nextIndex p ∧ 0 ≤ rf.matchIndex p
  matched : rf.status = .leader → ∀ p ≠ i,
    rf.matchIndex p ≤ rf.commitIndex ∨ rf.matchIndex p ≤ a.ack p rf.currentTerm

/-- A term with a leader, which is not the receiver. -/
def FromLeader (a : AbsState n C) (t : Int) (dst : Fin n) : Prop :=
  a.leader t ≠ none ∧ a.leader t ≠ some dst

def RequestRel (a : AbsState n C) : Request n C → Prop
  | .requestVote _ _ args => ∃ c, a.cand args.candidateId args.term = some c ∧
      args.lastLogIndex = c.length ∧ args.lastLogTerm = termOf c c.length
  | .appendEntries _ dst args => FromLeader a args.term dst ∧
      ∃ p k : Nat, args.SliceOf (a.tlog args.term) p ∧ args.leaderCommit = k ∧
        k ≤ p + args.entries.length ∧
        a.CommittedTo (majority n) args.term ((a.tlog args.term).take k)
  | .installSnapshot _ dst args => FromLeader a args.term dst ∧
      ∃ k : Nat, args.lastIncludedIndex = k ∧ k ≤ (a.tlog args.term).length ∧
        args.lastIncludedTerm = termOf (a.tlog args.term) k ∧
        a.CommittedTo (majority n) args.term ((a.tlog args.term).take k)

def ResponseRel (a : AbsState n C) : Response n C → Prop
  | .requestVote .. => True
  | .appendEntries _ dst args reply => 0 ≤ args.prevLogIndex ∧
      (reply.success = true →
        args.prevLogIndex + args.entries.length ≤ a.ack dst args.term) ∧
      (reply.success = false →
        args.term < reply.term ∨ 1 ≤ reply.xLen ∨ reply.xLen = 0 ∧ 1 ≤ reply.xIndex)
  | .installSnapshot _ dst args reply => 0 ≤ args.lastIncludedIndex ∧
      (reply.term ≤ args.term → args.lastIncludedIndex ≤ a.ack dst args.term)

structure Refines (w : Cluster n C) (a : AbsState n C) : Prop where
  votes : w.VoteRel a.toBallots
  inv : a.Inv (majority n)
  positive : ∀ {t}, a.leader t ≠ none → 0 < t
  peers : ∀ i, PeerRel (w.peers i) a i
  workers : ∀ wk ∈ w.workers, wk.peer ≠ wk.src
  requests : ∀ r ∈ w.requests, RequestRel a r
  responses : ∀ r ∈ w.responses, ResponseRel a r

/-! ## Logs that come from leaders -/

section Logs

variable {a : AbsState n C} {ℓ L : List (LogEntry C)}

theorem stamped_of_sound (hinv : a.Inv (majority n)) (hpos : ∀ {t}, a.leader t ≠ none → 0 < t)
    (h : a.Sound ℓ) : Stamped ℓ := by
  intro e he
  obtain ⟨p, post, rfl⟩ := List.append_of_mem he
  have hpre : p ++ [e] <+: a.tlog e.term := h p e ⟨post, by simp⟩
  refine hpos (hinv.leader_ne_none fun hnil => ?_)
  rw [hnil, List.prefix_nil] at hpre
  simp at hpre

theorem matching_of_sound (h : a.Sound ℓ) (h' : a.Sound L) : Matching ℓ L := by
  intro k h0 hk hk' heq
  obtain ⟨j, rfl⟩ : ∃ j, k = j + 1 := ⟨k - 1, by omega⟩
  obtain ⟨e, he⟩ : ∃ e, ℓ[j]? = some e := ⟨_, List.getElem?_eq_getElem (by omega)⟩
  obtain ⟨e', he'⟩ : ∃ e, L[j]? = some e := ⟨_, List.getElem?_eq_getElem (by omega)⟩
  rw [termOf_succ he, termOf_succ he'] at heq
  exact h.take_eq h' he he' heq

end Logs

/-! ## What stays true as the abstract state grows -/

section Mono

variable {a a' : AbsState n C}

theorem FromLeader.mono (hext : a.Ext a') {t : Int} {dst : Fin n} (h : FromLeader a t dst) :
    FromLeader a' t dst := by
  obtain ⟨c, hc⟩ := Option.ne_none_iff_exists'.mp h.1
  refine ⟨hext.leader_ne h.1, fun hdst => h.2 ?_⟩
  rw [hc, ← hext.leader hc]
  exact hdst

theorem committedTo_take_mono (hext : a.Ext a') {t : Int} {k : Nat}
    (hk : k ≤ (a.tlog t).length) (h : a.CommittedTo (majority n) t ((a.tlog t).take k)) :
    a'.CommittedTo (majority n) t ((a'.tlog t).take k) := by
  rw [hext.take_tlog hk]
  exact hext.committedTo (le_refl t) h

theorem RequestRel.mono (hext : a.Ext a') {r : Request n C} (h : RequestRel a r) :
    RequestRel a' r := by
  cases r with
  | requestVote e dst args =>
      obtain ⟨c, hc, hlen, hterm⟩ := h
      exact ⟨c, hext.cand hc, hlen, hterm⟩
  | appendEntries m dst args =>
      obtain ⟨hlead, p, k, hs, hcommit, hk, hc⟩ := h
      exact ⟨hlead.mono hext, p, k, hs.mono (hext.tlog_mono _), hcommit, hk,
        committedTo_take_mono hext (hk.trans hs.length_le) hc⟩
  | installSnapshot m dst args =>
      obtain ⟨hlead, k, hindex, hk, hterm, hc⟩ := h
      refine ⟨hlead.mono hext, k, hindex, hk.trans (hext.tlog_mono _).length_le, ?_,
        committedTo_take_mono hext hk hc⟩
      rw [termOf_of_isPrefix (hext.tlog_mono _) hk]
      exact hterm

theorem ResponseRel.mono (hext : a.Ext a') {r : Response n C} (h : ResponseRel a r) :
    ResponseRel a' r := by
  cases r with
  | requestVote e dst args reply => trivial
  | appendEntries m dst args reply =>
      obtain ⟨hprev, hsuccess, hfail⟩ := h
      refine ⟨hprev, fun hs => ?_, hfail⟩
      have hack := hext.ack_le dst args.term
      have := hsuccess hs
      omega
  | installSnapshot m dst args reply =>
      obtain ⟨hindex, hok⟩ := h
      refine ⟨hindex, fun ht => ?_⟩
      have hack := hext.ack_le dst args.term
      have := hok ht
      omega

/-- A peer that has not moved, and whose own part of the abstract state has not. -/
theorem PeerRel.mono (hext : a.Ext a') {rf : Peer n C} {i : Fin n} (h : PeerRel rf a i)
    (hlog : a'.log i = a.log i) (hcommit : a'.commit i = a.commit i)
    (hlead : ∀ {t}, a'.leader t = some i → a.leader t = some i) : PeerRel rf a' i where
  base := by
    rw [hlog, hcommit]
    exact h.base
  commit := by
    rw [hcommit]
    exact h.commit
  applied := h.applied
  term := h.term
  candidate := by
    intro hs
    obtain ⟨hpos, hcand, hnot⟩ := h.candidate hs
    rw [hlog]
    exact ⟨hpos, hext.cand hcand, fun hl => hnot (hlead hl)⟩
  led := by
    intro hs
    rw [hlog]
    exact (h.led hs).trans (hext.ack_le _ _)
  next := h.next
  matched := by
    intro hs p hp
    have hack := hext.ack_le p rf.currentTerm
    rcases h.matched hs p hp with hm | hm
    · exact .inl hm
    · exact .inr (by omega)

/-- Of a follower there is less to say. -/
theorem PeerRel.of_follower {rf : Peer n C} {i : Fin n} (hstatus : rf.status = .follower)
    (base : ∃ b, rf.Compacts (a.log i) b ∧ b ≤ a.commit i) (commit : rf.commitIndex = a.commit i)
    (applied : rf.lastApplied ≤ rf.commitIndex) (term : 0 ≤ rf.currentTerm) : PeerRel rf a i := by
  have hcand : rf.status ≠ .candidate := by
    rw [hstatus]
    decide
  have hlead : rf.status ≠ .leader := by
    rw [hstatus]
    decide
  exact ⟨base, commit, applied, term, fun hs => absurd hs hcand, fun hs => absurd hs hlead,
    fun hs => absurd hs hlead, fun hs => absurd hs hlead⟩

/-- A peer that has become a follower, with the same log, perhaps in a later term. -/
theorem PeerRel.follower {rf rf' : Peer n C} {i : Fin n} (h : PeerRel rf a i)
    (hsame : Peer.SameLog rf rf') (hstatus : rf'.status = .follower)
    (hterm : rf.currentTerm ≤ rf'.currentTerm) (hlog : a'.log i = a.log i)
    (hcommit : a'.commit i = a.commit i) : PeerRel rf' a' i := by
  refine .of_follower hstatus ?_ ?_ ?_ (h.term.trans hterm)
  · rw [hlog, hcommit]
    obtain ⟨b, hc, hb⟩ := h.base
    exact ⟨b, hsame.compacts hc, hb⟩
  · rw [hcommit, hsame.commit]
    exact h.commit
  · rw [hsame.applied, hsame.commit]
    exact h.applied

/-- One peer moves, the abstract state follows, and the messages that are new are
accounted for. -/
theorem Refines.update {w w' : Cluster n C} (h : Refines w a)
    (hsteps : State.Steps (majority n) a a') (hvotes : w'.VoteRel a'.toBallots)
    (hpos : ∀ {t}, a'.leader t ≠ none → 0 < t) {i : Fin n} {rf : Peer n C}
    (hw : w'.peers = Function.update w.peers i rf) (hrf : PeerRel rf a' i)
    (hframe : ∀ j ≠ i, a'.log j = a.log j ∧ a'.commit j = a.commit j ∧
      ∀ {t}, a'.leader t = some j → a.leader t = some j)
    (hworkers : ∀ wk ∈ w'.workers, wk.peer ≠ wk.src)
    (hreq : ∀ r ∈ w'.requests, r ∈ w.requests ∨ RequestRel a' r)
    (hres : ∀ r ∈ w'.responses, r ∈ w.responses ∨ ResponseRel a' r) : Refines w' a' := by
  obtain ⟨hinv, hext⟩ := h.inv.steps hsteps
  refine ⟨hvotes, hinv, hpos, fun j => ?_, hworkers, fun r hr => ?_, fun r hr => ?_⟩
  · rw [hw, Function.update_apply]
    split
    · next hj =>
        rw [hj]
        exact hrf
    · next hj =>
        obtain ⟨hlog, hcommit, hlead⟩ := hframe j hj
        exact (h.peers j).mono hext hlog hcommit hlead
  · rcases hreq r hr with hold | hnew
    · exact (h.requests r hold).mono hext
    · exact hnew
  · rcases hres r hr with hold | hnew
    · exact (h.responses r hold).mono hext
    · exact hnew

end Mono
end Raft
end Labs
