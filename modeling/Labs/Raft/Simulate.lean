import Labs.Raft.Refine

/-!
# Every step is matched by the replicated log

One lemma for each kind of step says which abstract moves match it.  `Safe` collects the
conditions under which a step is matched: no peer votes for a second candidate in one
term, the placeholder is not sent, and the service compacts only what is committed.
-/

namespace Labs
namespace Raft

open Consensus

variable {n : Nat} {C : Type} {w w' : Cluster n C} {a a' : AbsState n C}

namespace Refines

theorem cur_eq (h : Refines w a) (i : Fin n) : a.cur i = (w.peers i).currentTerm :=
  h.votes.cur i

theorem stamped_log (h : Refines w a) (i : Fin n) : Stamped (a.log i) :=
  stamped_of_sound h.inv h.positive (h.inv.sound_log i)

theorem leads (h : Refines w a) {i : Fin n} (hs : (w.peers i).status = .leader) :
    a.leader (a.cur i) = some i := by
  rw [h.cur_eq]
  exact h.votes.leads i hs

/-- A leader's log is the log of its term. -/
theorem log_eq_tlog (h : Refines w a) {i : Fin n} (hs : (w.peers i).status = .leader) :
    a.log i = a.tlog (w.peers i).currentTerm := by
  rw [← h.cur_eq]
  exact h.inv.lead_log (h.leads hs)

theorem commitIndex_le (h : Refines w a) (i : Fin n) :
    (w.peers i).commitIndex ≤ (a.log i).length := by
  rw [(h.peers i).commit]
  exact_mod_cast h.inv.commit_le i

/-- Nothing moves but goroutines and messages that are lost or used up. -/
theorem stutter (h : Refines w a) (hw : w'.peers = w.peers) (hv : w'.VoteRel a.toBallots)
    (hworkers : ∀ wk ∈ w'.workers, wk.peer ≠ wk.src)
    (hreq : ∀ r ∈ w'.requests, r ∈ w.requests ∨ RequestRel a r)
    (hres : ∀ r ∈ w'.responses, r ∈ w.responses) : Refines w' a := by
  refine ⟨hv, h.inv, h.positive, fun i => ?_, hworkers, fun r hr => ?_,
    fun r hr => h.responses r (hres r hr)⟩
  · rw [hw]
    exact h.peers i
  · rcases hreq r hr with hold | hnew
    · exact h.requests r hold
    · exact hnew

/-- A step that leaves the peers, the elections and the messages as they are. -/
theorem quiet (h : Refines w a) (hw : w'.peers = w.peers) (hnew : w.SameVotes w')
    (hel : w'.elections = w.elections) (hreq : w'.requests = w.requests)
    (hres : w'.responses = w.responses) (hworkers : ∀ wk ∈ w'.workers, wk.peer ≠ wk.src) :
    Refines w' a :=
  h.stutter hw (h.votes.still hw hnew hel (fun hm => hreq ▸ hm) fun hm => hres ▸ hm) hworkers
    (fun _ hr => .inl (hreq ▸ hr)) fun _ hr => hres ▸ hr

/-- What is recorded besides votes has no part in this. -/
theorem noted (h : Refines w a) {events : List (Event n)} (hnew : w.SameVotes (w.note events)) :
    Refines (w.note events) a :=
  h.quiet rfl hnew rfl rfl rfl h.workers

theorem workers_set (h : Refines w a) {k : Nat} {wk : Worker n} (hk : w.workers[k]? = some wk)
    (pc : WorkerPc) : ∀ wk' ∈ w.workers.set k { wk with pc := pc }, wk'.peer ≠ wk'.src := by
  intro wk' hmem
  rcases List.mem_or_eq_of_mem_set hmem with hmem | rfl
  · exact h.workers wk' hmem
  · exact h.workers wk (List.mem_of_getElem? hk)

/-- A peer moves within its term: the abstract state may change its log or its commit
index, and nobody else's. -/
theorem within (h : Refines w a) (hsteps : State.Steps (majority n) a a')
    (hballots : a'.toBallots = a.toBallots) {i : Fin n} {rf : Peer n C}
    (hf : Peer.Yields (w.peers i) rf) (hterm : rf.currentTerm = (w.peers i).currentTerm)
    (hw : w'.peers = Function.update w.peers i rf) (hnew : w.SameVotes w')
    (hel : w'.elections = w.elections)
    (hrf : PeerRel rf a' i)
    (hframe : ∀ j ≠ i, a'.log j = a.log j ∧ a'.commit j = a.commit j)
    (hworkers : ∀ wk ∈ w'.workers, wk.peer ≠ wk.src)
    (hreq : ∀ r ∈ w'.requests, r ∈ w.requests) (hres : ∀ r ∈ w'.responses, r ∈ w.responses) :
    Refines w' a' := by
  have hv := h.votes.follow hf hw hnew hel (fun hm => hreq _ hm) (fun hm => hres _ hm)
  rw [hterm, h.votes.advance_self, ← hballots] at hv
  have hlead : a'.leader = a.leader := by
    rw [hballots]
  refine h.update hsteps hv (fun ht => h.positive (by rw [← hlead]; exact ht)) hw hrf
    (fun j hj => ⟨(hframe j hj).1, (hframe j hj).2, fun hl => by rw [← hlead]; exact hl⟩)
    hworkers (fun r hr => .inl (hreq r hr)) (fun r hr => .inl (hres r hr))

end Refines

/-- A peer keeps its role and its log; if it leads, it may know more of the others. -/
theorem PeerRel.of_same {rf rf' : Peer n C} {i : Fin n} (h : PeerRel rf a i)
    (hsame : Peer.SameLog rf rf') (hterm : rf'.currentTerm = rf.currentTerm)
    (hstatus : rf'.status = rf.status)
    (hnext : rf.status = .leader → ∀ p, 1 ≤ rf'.nextIndex p ∧ 0 ≤ rf'.matchIndex p)
    (hmatched : rf.status = .leader → ∀ p ≠ i,
      rf'.matchIndex p ≤ rf.commitIndex ∨ rf'.matchIndex p ≤ a.ack p rf.currentTerm) :
    PeerRel rf' a i where
  base := by
    obtain ⟨b, hc, hb⟩ := h.base
    exact ⟨b, hsame.compacts hc, hb⟩
  commit := hsame.commit.trans h.commit
  applied := by
    rw [hsame.applied, hsame.commit]
    exact h.applied
  term := by
    rw [hterm]
    exact h.term
  candidate := by
    rw [hterm, hstatus]
    exact h.candidate
  led := by
    rw [hterm, hstatus]
    exact h.led
  next := by
    rw [hstatus]
    exact hnext
  matched := by
    rw [hstatus, hsame.commit, hterm]
    exact hmatched

namespace Refines

/-! ## Elections -/

theorem startElection (h : Refines w a) (i : Fin n) :
    ∃ a', State.Steps (majority n) a a' ∧ Refines (w.startElection i) a' := by
  have hcur := h.cur_eq i
  have hlt : a.cur i < (w.peers i).currentTerm + 1 := by omega
  have hsame := Peer.sameLog_startElection (w.peers i)
  have hnonneg := (h.peers i).term
  obtain ⟨b, hc, hb⟩ := (h.peers i).base
  refine ⟨a.stand i ((w.peers i).currentTerm + 1), .single (.stand hlt), ?_⟩
  have hcand : (a.stand i ((w.peers i).currentTerm + 1)).cand i ((w.peers i).currentTerm + 1) =
      some (a.log i) := by
    rw [State.stand_cand, if_pos ⟨rfl, rfl⟩]
  have hw : (w.startElection i).peers = Function.update w.peers i (w.peers i).startElection.1 := by
    simp [Cluster.startElection, Cluster.setPeer]
  refine h.update (.single (.stand hlt)) (h.votes.stand i) h.positive hw ?_
    (fun j hj => ⟨rfl, rfl, fun hl => hl⟩) h.workers ?_ (fun r hr => .inl hr)
  · exact {
      base := ⟨b, hsame.compacts hc, hb⟩
      commit := (h.peers i).commit
      applied := (h.peers i).applied
      term := by
        show 0 ≤ (w.peers i).currentTerm + 1
        omega
      candidate := by
        intro _
        refine ⟨?_, hcand, fun hl => ?_⟩
        · show 0 < (w.peers i).currentTerm + 1
          omega
        · exact absurd (h.inv.lead_le hl) (not_le.mpr hlt)
      led := by
        intro hs
        cases hs
      next := by
        intro hs
        cases hs
      matched := by
        intro hs
        cases hs }
  · intro r hr
    rw [Cluster.startElection_requests] at hr
    rcases List.mem_append.mp hr with hr | hr
    · exact .inl hr
    · obtain ⟨p, -, rfl⟩ := List.mem_map.mp hr
      refine .inr ⟨a.log i, ?_, ?_, ?_⟩
      · have hid : (w.peers i).startElection.2.candidateId = (w.peers i).me := rfl
        rw [hid, h.votes.me]
        exact hcand
      · exact (hsame.compacts hc).lastLogIndex
      · exact (hsame.compacts hc).lastLogIndexTerm

/-- Stepping down is entering the later term, or nothing. -/
theorem stepDown (h : Refines w a) (i : Fin n) (t : Int) :
    PeerRel ((w.peers i).stepDown t).1
      (a.advance i ((w.peers i).stepDown t).1.currentTerm) i := by
  rcases lt_or_ge (w.peers i).currentTerm t with hlt | hle
  · refine (h.peers i).follower (Peer.sameLog_stepDown _ _) ?_ ?_ rfl rfl
    · rw [Peer.stepDown_of_lt hlt]
      rfl
    · rw [Peer.stepDown_currentTerm]
      exact le_max_left _ _
  · rw [Peer.stepDown_of_le hle, ← h.cur_eq i, State.advance_self]
    exact h.peers i

theorem steps_stepDown (h : Refines w a) (i : Fin n) (t : Int) :
    State.Steps (majority n) a (a.advance i ((w.peers i).stepDown t).1.currentTerm) := by
  refine State.steps_advance ?_
  rw [h.cur_eq, Peer.stepDown_currentTerm]
  exact le_max_left _ _

/-- A peer that steps down and does nothing else. -/
theorem steppedDown (h : Refines w a) {i : Fin n} {t : Int}
    (hv : w'.VoteRel (a.toBallots.advance i ((w.peers i).stepDown t).1.currentTerm))
    (hw : w'.peers = Function.update w.peers i ((w.peers i).stepDown t).1)
    (hworkers : ∀ wk ∈ w'.workers, wk.peer ≠ wk.src)
    (hreq : ∀ r ∈ w'.requests, r ∈ w.requests)
    (hres : ∀ r ∈ w'.responses, r ∈ w.responses ∨
      ResponseRel (a.advance i ((w.peers i).stepDown t).1.currentTerm) r) :
    ∃ a', State.Steps (majority n) a a' ∧ Refines w' a' :=
  ⟨_, h.steps_stepDown i t, h.update (h.steps_stepDown i t) hv h.positive hw (h.stepDown i t)
    (fun _ _ => ⟨rfl, rfl, fun hl => hl⟩) hworkers (fun r hr => .inl (hreq r hr)) hres⟩

theorem deliverVote (h : Refines w a) {k e : Nat} {dst : Fin n} {args : RequestVoteArgs n}
    (hk : w.requests[k]? = some (.requestVote e dst args))
    (honce : w.AsksFirst (.requestVote e dst args)) :
    ∃ a', State.Steps (majority n) a a' ∧
      Refines ((((w.dropRequest k).setPeer dst ((w.peers dst).requestVote args).1).respond
        (.requestVote e dst args ((w.peers dst).requestVote args).2)).note
        (Cluster.voteOf dst args ((w.peers dst).requestVote args).2)) a' := by
  have hmessages : ∀ {reply} {rf : Peer n C}, ∀ r ∈ (((w.dropRequest k).setPeer dst rf).respond
      (.requestVote e dst args reply)).responses, r ∈ w.responses ∨ ∀ a, ResponseRel a r := by
    intro reply rf r hr
    rcases List.mem_append.mp hr with hr | hr
    · exact .inl hr
    · rw [List.mem_singleton.mp hr]
      exact .inr fun _ => trivial
  rcases Peer.requestVote_cases (w.peers dst) args with
    ⟨hreply, hrf⟩ | ⟨hreply, hle, hup, -, hrf⟩
  · rw [hrf]
    exact h.steppedDown (h.votes.deny hk (Peer.follows_stepDown _ _).yields hreply) rfl h.workers
      (fun r hr => List.mem_of_mem_eraseIdx hr) (fun r hr => (hmessages r hr).imp_right (· _))
  · have hfree := h.votes.free (honce (by rw [hreply]))
    have hdown := h.stepDown dst args.term
    have hsteps := h.steps_stepDown dst args.term
    have hterm : ((w.peers dst).stepDown args.term).1.currentTerm = args.term := by
      rw [Peer.stepDown_currentTerm, max_eq_right hle]
    rw [hterm] at hdown hsteps
    obtain ⟨c, hcand, hlen, hlast⟩ := h.requests _ (List.mem_of_getElem? hk)
    obtain ⟨b, hc, hb⟩ := hdown.base
    have hcur : (a.advance dst args.term).cur dst = args.term := State.advance_cur_self
    have hgrant : State.Steps (majority n) a
        ((a.advance dst args.term).grant dst args.term args.candidateId) := by
      refine hsteps.tail ?_
      have hstep : State.Step (majority n) (a.advance dst args.term)
          ((a.advance dst args.term).grant dst ((a.advance dst args.term).cur dst)
            args.candidateId) := by
        refine .grant ?_ (by rw [hcur]; exact hcand) ?_
        · show a.vote dst _ = none ∨ a.vote dst _ = _
          rw [hcur]
          exact hfree
        · rw [hlen, hlast] at hup
          exact hc.upToDate (h.stamped_log dst) hup
      rw [hcur] at hstep
      exact hstep
    refine ⟨_, hgrant, ?_⟩
    rw [hreply]
    refine h.update hgrant (h.votes.grant hk hle hfree hrf) h.positive rfl ?_
      (fun j hj => ⟨rfl, rfl, fun hl => hl⟩) h.workers
      (fun r hr => .inl (List.mem_of_mem_eraseIdx hr))
      (fun r hr => (hmessages r hr).imp_right (· _))
    rw [hrf]
    exact PeerRel.of_same (a := (a.advance dst args.term).grant dst args.term args.candidateId)
      { hdown with } ⟨rfl, rfl, rfl, rfl, rfl, rfl⟩ rfl rfl hdown.next hdown.matched

/-- A majority makes the peer the leader of a term that has none, since no other
candidate can have one. -/
theorem win (h : Refines w a) {i : Fin n} {Q : Finset (Fin n)} (hQ : (majority n).isQuorum Q)
    (hv : ∀ q ∈ Q, a.vote q (w.peers i).currentTerm = some i)
    (hstatus : (w.peers i).status = .candidate)
    (hvotes : w'.VoteRel (a.toBallots.elect i (w.peers i).currentTerm))
    (hw : w'.peers = Function.update w.peers i (w.peers i).becomeLeader.1)
    (hworkers : ∀ wk ∈ w'.workers, wk.peer ≠ wk.src)
    (hreq : ∀ r ∈ w'.requests, r ∈ w.requests)
    (hres : ∀ r ∈ w'.responses, r ∈ w.responses) :
    ∃ a', State.Steps (majority n) a a' ∧ Refines w' a' := by
  obtain ⟨hpos, hcand, hnot⟩ := (h.peers i).candidate hstatus
  obtain ⟨b, hc, hb⟩ := (h.peers i).base
  have hcur := h.cur_eq i
  have hnone : a.leader (a.cur i) = none := by
    cases hl : a.leader (a.cur i) with
    | none => rfl
    | some c =>
        rw [hcur] at hl
        rw [h.votes.inv.leader_eq hl hQ hv] at hl
        exact absurd hl hnot
  have hsteps : State.Steps (majority n) a (a.elect i (w.peers i).currentTerm) := by
    have hstep : State.Step (majority n) a (a.elect i (a.cur i)) :=
      .elect hQ (by rw [hcur]; exact hv) (by rw [hcur]; exact hcand) hnone
    rw [hcur] at hstep
    exact .single hstep
  have hleader : ∀ {t}, (a.elect i (w.peers i).currentTerm).leader t =
      if t = (w.peers i).currentTerm then some i else a.leader t :=
    Ballots.elect_leader a.toBallots i _ _
  refine ⟨_, hsteps, h.update hsteps hvotes (fun {t} ht => ?_) hw ?_ (fun j hj => ?_) hworkers
    (fun r hr => .inl (hreq r hr)) (fun r hr => .inl (hres r hr))⟩
  · rw [hleader] at ht
    split at ht
    · next heq =>
        rw [heq]
        exact hpos
    · exact h.positive ht
  · rw [Peer.becomeLeader_of_candidate hstatus]
    have hbc := (h.peers i).commit
    exact {
      base := ⟨b, hc.of_eq rfl rfl rfl, hb⟩
      commit := hbc
      applied := (h.peers i).applied
      term := (h.peers i).term
      candidate := by
        intro hs
        cases hs
      led := by
        intro _
        show (a.log i).length ≤ (a.elect i (w.peers i).currentTerm).ack i (w.peers i).currentTerm
        rw [State.elect_ack, if_pos ⟨rfl, rfl⟩]
      next := by
        intro _ p
        have hlen := hc.length
        have hindex := hc.index
        show 1 ≤ (w.peers i).lastIncludedIndex + (w.peers i).log.length ∧
          0 ≤ (w.peers i).lastIncludedIndex
        omega
      matched := by
        intro _ p _
        have hindex := hc.index
        left
        show (w.peers i).lastIncludedIndex ≤ (w.peers i).commitIndex
        omega }
  · refine ⟨rfl, rfl, fun {t} hl => ?_⟩
    rw [hleader] at hl
    split at hl
    · exact absurd (Option.some.inj hl).symm hj
    · exact hl

theorem receiveVote (h : Refines w a) {k e : Nat} {dst : Fin n} {args : RequestVoteArgs n}
    {reply : RequestVoteReply} {el : Election n} {rf : Peer n C} {votes : Nat} {started : Bool}
    (hk : w.responses[k]? = some (.requestVote e dst args reply))
    (hel : w.elections[e]? = some el) (hwait : el.waiting dst = true)
    (hreply : (w.peers el.src).handleRequestVoteReply el.args reply el.votes =
      (rf, votes, started)) :
    ∃ a', State.Steps (majority n) a a' ∧ Refines (w.readVote k e
      { el with votes := votes, waiting := Function.update el.waiting dst false } rf started)
      a' := by
  have hworkers : ∀ wk ∈ (w.readVote k e
      { el with votes := votes, waiting := Function.update el.waiting dst false } rf
      started).workers, wk.peer ≠ wk.src := by
    rw [Cluster.readVote_workers]
    exact h.workers
  have hreq : ∀ r ∈ (w.readVote k e
      { el with votes := votes, waiting := Function.update el.waiting dst false } rf
      started).requests, r ∈ w.requests := by
    rw [Cluster.readVote_requests]
    exact fun r hr => hr
  have hres : ∀ r ∈ (w.readVote k e
      { el with votes := votes, waiting := Function.update el.waiting dst false } rf
      started).responses, r ∈ w.responses := by
    intro r hr
    rw [Cluster.readVote_responses] at hr
    exact List.mem_of_mem_eraseIdx hr
  -- the peer is as it was, whether or not the vote was counted
  have hsame : rf = w.peers el.src → (votes = el.votes ∨
      votes = el.votes + 1 ∧ a.vote dst el.args.term = some el.src) →
      Refines (w.readVote k e
        { el with votes := votes, waiting := Function.update el.waiting dst false } rf
        started) a := by
    intro hrf hvotes
    have hw : (w.readVote k e
        { el with votes := votes, waiting := Function.update el.waiting dst false } rf
        started).peers = w.peers := by
      rw [Cluster.readVote_peers, hrf, Function.update_eq_self]
    exact h.stutter hw (h.votes.read hel hwait hvotes rfl (h.votes.toPeerVotes.of_peers hw))
      hworkers (fun r hr => .inl (hreq r hr)) hres
  rcases Peer.handleRequestVoteReply_cases hreply with
    ⟨hrf, hvotes⟩ | ⟨hgrant, hvotes, hterm, hstatus, hnext⟩
  · rcases hrf with hrf | hrf
    · exact ⟨a, .refl, hsame hrf (.inl hvotes)⟩
    · have hw := Cluster.readVote_peers w k e
        { el with votes := votes, waiting := Function.update el.waiting dst false } rf started
      rw [hrf] at hw hworkers hreq hres ⊢
      exact h.steppedDown (h.votes.read hel hwait (.inl hvotes) rfl
        (h.votes.toPeerVotes.follow (Peer.follows_stepDown _ _).yields hw)) hw hworkers hreq
        (fun r hr => .inl (hres r hr))
  · have hvotes : votes = el.votes + 1 ∧ a.vote dst el.args.term = some el.src :=
      ⟨hvotes, h.votes.of_reply hk hel hgrant⟩
    rcases hnext with hrf | ⟨hmajor, hrf⟩
    · exact ⟨a, .refl, hsame hrf (.inr hvotes)⟩
    · obtain ⟨Q, hQ, hv⟩ :=
        ((h.votes.counted el (List.mem_of_getElem? hel)).receive hwait (.inr hvotes)).quorum hmajor
      rw [← hterm] at hv
      have hw := Cluster.readVote_peers w k e
        { el with votes := votes, waiting := Function.update el.waiting dst false } rf started
      rw [hrf] at hw hworkers hreq hres ⊢
      have hp := h.votes.toPeerVotes.win hQ hv hstatus hw
      exact h.win hQ hv hstatus (h.votes.read hel hwait (.inr hvotes) rfl hp) hw hworkers hreq hres

/-! ## Replication -/

theorem start (h : Refines w a) (i : Fin n) (command : Option C)
    (hw : w'.peers = Function.update w.peers i ((w.peers i).start command).1)
    (hnew : w.SameVotes w') (hel : w'.elections = w.elections)
    (hworkers : w'.workers = w.workers)
    (hreq : ∀ r ∈ w'.requests, r ∈ w.requests) (hres : ∀ r ∈ w'.responses, r ∈ w.responses) :
    ∃ a', State.Steps (majority n) a a' ∧ Refines w' a' := by
  have hwk : ∀ wk ∈ w'.workers, wk.peer ≠ wk.src := by
    rw [hworkers]
    exact h.workers
  by_cases hlead : (w.peers i).status = .leader
  · have hcur := h.cur_eq i
    have hsteps : State.Steps (majority n) a (a.append i command) :=
      .single (.append command (h.leads hlead))
    have hext := (h.inv.steps hsteps).2
    obtain ⟨b, hc, hb⟩ := (h.peers i).base
    have hlog : (a.append i command).log i =
        a.log i ++ [{ term := (w.peers i).currentTerm, command := command }] := by
      rw [State.append_log, if_pos rfl, hcur]
    have hrf : PeerRel ((w.peers i).start command).1 (a.append i command) i := by
      have hc' := hc.start command hlead
      rw [← hlog] at hc'
      rw [Peer.start_of_leader hlead] at hc' ⊢
      exact {
        base := ⟨b, hc', hb⟩
        commit := (h.peers i).commit
        applied := (h.peers i).applied
        term := (h.peers i).term
        candidate := by
          intro hs
          rw [show _ = (w.peers i).status from rfl, hlead] at hs
          cases hs
        led := by
          intro _
          rw [hlog, List.length_append]
          show _ ≤ (a.append i command).ack i (w.peers i).currentTerm
          rw [State.append_ack, if_pos ⟨rfl, hcur.symm⟩]
          exact le_refl _
        next := fun _ => (h.peers i).next hlead
        matched := by
          intro _ p hp
          have hack := hext.ack_le p (w.peers i).currentTerm
          rcases (h.peers i).matched hlead p hp with hm | hm
          · exact .inl hm
          · exact .inr (hm.trans (by exact_mod_cast hack)) }
    refine ⟨_, hsteps, h.within hsteps rfl (Peer.follows_start _ command).yields ?_ hw hnew
      hel hrf
      (fun j hj => ⟨?_, rfl⟩) hwk hreq hres⟩
    · rw [Peer.start_of_leader hlead]
      rfl
    · rw [State.append_log, if_neg hj]
  · rw [Peer.start_of_not_leader hlead, Function.update_eq_self] at hw
    exact ⟨a, .refl, h.stutter hw (h.votes.still hw hnew hel (fun hm => hreq _ hm)
      (fun hm => hres _ hm)) hwk (fun r hr => .inl (hreq r hr)) hres⟩

theorem snapshot (h : Refines w a) {i : Fin n} {index : Int} {data : Bytes}
    (hindex : index ≤ (w.peers i).commitIndex) :
    Refines (w.setPeer i ((w.peers i).snapshot index data)) a := by
  obtain ⟨b, hc, hb⟩ := (h.peers i).base
  have hcommit := (h.peers i).commit
  have hlen := h.inv.commit_le i
  have hc' : Peer.Compacts ((w.peers i).snapshot index data) (a.log i) (max b index.toNat) :=
    hc.snapshot data (by omega)
  obtain ⟨lastIndex, lastTerm, log, bytes, persister, heq⟩ :=
    Peer.snapshot_eq (w.peers i) index data
  refine h.within .refl rfl (Peer.follows_snapshot _ index data).yields ?_ rfl (.of_eq rfl)
    rfl ?_
    (fun j hj => ⟨rfl, rfl⟩) h.workers (fun r hr => hr) (fun r hr => hr)
  · rw [heq]
  · rw [heq] at hc' ⊢
    exact {
      base := ⟨_, hc', by omega⟩
      commit := hcommit
      applied := (h.peers i).applied
      term := (h.peers i).term
      candidate := (h.peers i).candidate
      led := (h.peers i).led
      next := (h.peers i).next
      matched := (h.peers i).matched }

/-- What a leader sends of its log. -/
theorem sendEntries (h : Refines w a) {i peer : Fin n} {args : AppendEntriesArgs n C} (m : Nat)
    (hne : peer ≠ i) (hskip : (w.peers i).nextIndex peer ≠ (w.peers i).lastIncludedIndex)
    (hargs : (w.peers i).heartbeatWorker peer = .sendEntries args) :
    RequestRel a (.appendEntries m peer args) := by
  obtain ⟨b, hc, hb⟩ := (h.peers i).base
  have hcommit := (h.peers i).commit
  have hle := h.inv.commit_le i
  have hindex := hc.index
  obtain ⟨hlead, hlow, -, heq⟩ := Peer.heartbeatWorker_sendEntries hargs
  have hnext := ((h.peers i).next hlead peer).1
  unfold Peer.toPhysicalIndex at hlow
  obtain ⟨p, hp⟩ : ∃ p : Nat, (w.peers i).nextIndex peer = p + 1 :=
    ⟨((w.peers i).nextIndex peer - 1).toNat, by omega⟩
  obtain ⟨hslice, hentries⟩ := hc.sliceOf hargs hp (by omega)
  have hterm : args.term = (w.peers i).currentTerm := by rw [heq]
  have hsent : args.leaderCommit = (w.peers i).commitIndex := by rw [heq]
  have hlog := h.log_eq_tlog hlead
  have hl := h.votes.leads i hlead
  rw [hlog] at hslice
  refine ⟨?_, p, a.commit i, ?_, hsent.trans hcommit, ?_, ?_⟩
  · show a.leader args.term ≠ none ∧ a.leader args.term ≠ some peer
    rw [hterm, hl]
    exact ⟨by simp, fun heq => hne (Option.some.inj heq).symm⟩
  · show args.SliceOf (a.tlog args.term) p
    rw [hterm]
    exact hslice
  · show a.commit i ≤ p + args.entries.length
    rw [hentries, List.length_drop]
    omega
  · show a.CommittedTo (majority n) args.term ((a.tlog args.term).take (a.commit i))
    rw [hterm, ← hlog, ← h.cur_eq]
    exact h.inv.commit_ok i

/-- A worker sends a request that is not for a vote. -/
theorem calls (h : Refines w a) {k : Nat} {wk : Worker n} {r : Request n C}
    (hk : w.workers[k]? = some wk) (hr : RequestRel a r)
    (hvote : ∀ e dst args, r ≠ .requestVote e dst args) :
    Refines (((w.setWorker k wk .calling).request r).note [.called k]) a := by
  refine h.stutter rfl (h.votes.still rfl (Cluster.sameVotes_called rfl) rfl
    (fun {e dst args} hm => ?_) fun hm => hm) (h.workers_set hk .calling) (fun r' hr' => ?_)
    (fun r' hr' => hr')
  · rcases List.mem_append.mp hm with hm | hm
    · exact hm
    · exact absurd (List.mem_singleton.mp hm).symm (hvote e dst args)
  · rcases List.mem_append.mp hr' with hr' | hr'
    · exact .inl hr'
    · rw [List.mem_singleton.mp hr']
      exact .inr hr

theorem sendSnapshot (h : Refines w a) {i peer : Fin n} {args : InstallSnapshotArgs n} (m : Nat)
    (hne : peer ≠ i) (hargs : (w.peers i).installSnapshotArgs peer = some args) :
    RequestRel a (.installSnapshot m peer args) := by
  unfold Peer.installSnapshotArgs at hargs
  split at hargs
  · cases hargs
  · next hlead =>
      split at hargs
      · cases hargs
      · have hlead := not_not.mp hlead
        cases hargs
        obtain ⟨b, hc, hb⟩ := (h.peers i).base
        have hlog := h.log_eq_tlog hlead
        have hl := h.votes.leads i hlead
        refine ⟨⟨by rw [hl]; simp, ?_⟩, b, hc.index, ?_, ?_, ?_⟩
        · show a.leader (w.peers i).currentTerm ≠ some peer
          rw [hl]
          exact fun heq => hne (Option.some.inj heq).symm
        · show b ≤ (a.tlog (w.peers i).currentTerm).length
          rw [← hlog]
          exact hc.le
        · show (w.peers i).lastIncludedTerm = termOf (a.tlog (w.peers i).currentTerm) b
          rw [← hlog]
          exact hc.term
        · show a.CommittedTo (majority n) (w.peers i).currentTerm
            ((a.tlog (w.peers i).currentTerm).take b)
          rw [← hlog, ← h.cur_eq]
          exact (h.inv.commit_ok i).of_isPrefix (List.take_prefix_take_left hb)

/-- A peer that has taken over a part of a leader's log as a follower. -/
theorem followed {rf rf' : Peer n C} {i : Fin n} {t : Int} {m k b : Nat} (h : PeerRel rf a i)
    (hc : rf'.Compacts (adopt (a.tlog t) m (a.log i)) b) (hb : b ≤ max (a.commit i) k)
    (hstatus : rf'.status = .follower) (hterm : 0 ≤ rf'.currentTerm)
    (hcommit : rf'.commitIndex = max rf.commitIndex k)
    (happlied : rf'.lastApplied ≤ rf'.commitIndex) : PeerRel rf' (a.follow i t m k) i := by
  refine .of_follower hstatus ?_ ?_ happlied hterm
  · rw [State.follow_log_self, State.follow_commit_self]
    exact ⟨b, hc, hb⟩
  · rw [hcommit, State.follow_commit_self, h.commit]
    omega

/-- What a peer has compacted, every leader it may follow has. -/
theorem take_base (h : Refines w a) {i : Fin n} {t : Int} {b : Nat} (hb : b ≤ a.commit i)
    (hle : (w.peers i).currentTerm ≤ t) (hlead : a.leader t ≠ none) :
    (a.log i).take b = (a.tlog t).take b := by
  have hpre := h.inv.take_commit_tlog (by rw [h.cur_eq]; exact hle) hlead
  have hlen : ((a.log i).take (a.commit i)).length = a.commit i := by
    rw [List.length_take, min_eq_left (h.inv.commit_le i)]
  obtain ⟨post, hpost⟩ := hpre
  rw [← hpost, List.take_append_of_le_length (by omega), List.take_take, min_eq_left hb]

/-- A replication request has been handled: its receiver has followed, and the answer
`r` is on its way. -/
theorem answer (h : Refines w a) (hsteps : State.Steps (majority n) a a') {k : Nat} {dst : Fin n}
    {rf : Peer n C} {r : Response n C} (hf : Peer.Yields (w.peers dst) rf)
    (hballots : a'.toBallots = a.toBallots.advance dst rf.currentTerm) (hrf : PeerRel rf a' dst)
    (hframe : ∀ j ≠ dst, a'.log j = a.log j ∧ a'.commit j = a.commit j)
    (hkind : ∀ e d args reply, r ≠ .requestVote e d args reply) (hr : ResponseRel a' r) :
    Refines (((w.dropRequest k).setPeer dst rf).respond r) a' := by
  have hv : (((w.dropRequest k).setPeer dst rf).respond r).VoteRel a'.toBallots := by
    rw [hballots]
    refine h.votes.follow hf rfl (.of_eq rfl) rfl (fun hm => List.mem_of_mem_eraseIdx hm)
      (fun hm => ?_)
    rcases List.mem_append.mp hm with hm | hm
    · exact hm
    · exact absurd (List.mem_singleton.mp hm).symm (hkind _ _ _ _)
  have hlead : a'.leader = a.leader := by
    rw [hballots]
    rfl
  refine h.update hsteps hv (fun ht => h.positive (by rw [← hlead]; exact ht)) rfl hrf
    (fun j hj => ⟨(hframe j hj).1, (hframe j hj).2, fun hl => by rw [← hlead]; exact hl⟩)
    h.workers (fun r hr => .inl (List.mem_of_mem_eraseIdx hr)) (fun r' hr' => ?_)
  rcases List.mem_append.mp hr' with hr' | hr'
  · exact .inl hr'
  · rw [List.mem_singleton.mp hr']
    exact .inr hr

theorem deliverEntries (h : Refines w a) {k m : Nat} {dst : Fin n}
    {args : AppendEntriesArgs n C} (hk : w.requests[k]? = some (.appendEntries m dst args)) :
    ∃ a', State.Steps (majority n) a a' ∧
      Refines (((w.dropRequest k).setPeer dst ((w.peers dst).appendEntries args).1).respond
        (.appendEntries m dst args ((w.peers dst).appendEntries args).2)) a' := by
  obtain ⟨hlead, p, c, hslice, hcommit, hcp, hcommitted⟩ := h.requests _ (List.mem_of_getElem? hk)
  have hf := (Peer.follows_appendEntries (w.peers dst) args).yields
  have hprev := hslice.prev
  rcases lt_or_ge args.term (w.peers dst).currentTerm with hlt | hle
  · -- a request of an old leader is answered with the later term
    have hrun : (w.peers dst).appendEntries args =
        (w.peers dst, { success := false, term := (w.peers dst).currentTerm }) := by
      rw [Peer.appendEntries, if_pos hlt]
    rw [hrun] at hf ⊢
    refine ⟨a, .refl, h.answer .refl hf ?_ (h.peers dst) (fun j hj => ⟨rfl, rfl⟩) (by simp)
      ⟨by omega, fun hs => ?_, fun _ => .inl hlt⟩⟩
    · exact (h.votes.advance_self dst).symm
    · cases hs
  · generalize hrun : (w.peers dst).appendEntries args = out at hf ⊢
    obtain ⟨rf', reply⟩ := out
    obtain ⟨b, hc, hb⟩ := (h.peers dst).base
    obtain ⟨hterm, hstatus, hout⟩ := hc.appendEntries hle hslice
      (stamped_of_sound h.inv h.positive (h.inv.sound_tlog _)) (h.take_base hb hle hlead.1)
      (matching_of_sound (h.inv.sound_log dst) (h.inv.sound_tlog _)) (by omega) hrun
    have hcur : a.cur dst ≤ args.term := by
      rw [h.cur_eq]
      exact hle
    have hnonneg := (h.peers dst).term
    rcases hout with ⟨hsame, hfail, hx⟩ | ⟨hsuccess, hc', hcommit', happlied, -⟩
    · refine ⟨_, State.steps_advance hcur, h.answer (State.steps_advance hcur) hf ?_
        ((h.peers dst).follower hsame hstatus (by rw [hterm]; exact hle) rfl rfl)
        (fun j hj => ⟨rfl, rfl⟩) (by simp) ⟨by omega, fun hs => ?_, fun _ => .inr hx⟩⟩
      · rw [hterm]
        rfl
      · rw [hfail] at hs
        cases hs
    · have hsteps := State.steps_follow h.inv hcur hlead.1 hlead.2 hslice.length_le hcp hcommitted
      refine ⟨_, hsteps, h.answer hsteps hf (by rw [hterm]; rfl) ?_
        (fun j hj => ⟨State.follow_log_ne hj, State.follow_commit_ne hj⟩) (by simp)
        ⟨by omega, fun _ => ?_, fun hs => ?_⟩⟩
      · refine followed (h.peers dst) hc' (by omega) hstatus (by rw [hterm]; omega)
          (by rw [hcommit', hcommit]) ?_
        have := (h.peers dst).applied
        rw [happlied, hcommit']
        omega
      · have hack := State.le_follow_ack (a := a) (q := dst) (t := args.term)
          (m := p + args.entries.length) (k := c)
        omega
      · rw [hsuccess] at hs
        cases hs

theorem deliverSnapshot (h : Refines w a) {k m : Nat} {dst : Fin n}
    {args : InstallSnapshotArgs n} (hk : w.requests[k]? = some (.installSnapshot m dst args)) :
    ∃ a', State.Steps (majority n) a a' ∧
      Refines (((w.dropRequest k).setPeer dst ((w.peers dst).installSnapshot args).1).respond
        (.installSnapshot m dst args ((w.peers dst).installSnapshot args).2)) a' := by
  obtain ⟨hlead, c, hindex, hcl, hlast, hcommitted⟩ := h.requests _ (List.mem_of_getElem? hk)
  have hf := Peer.yields_installSnapshot (w.peers dst) args
  rcases lt_or_ge args.term (w.peers dst).currentTerm with hlt | hle
  · have hrun : (w.peers dst).installSnapshot args =
        (w.peers dst, { term := (w.peers dst).currentTerm }) := by
      rw [Peer.installSnapshot, if_pos hlt]
    rw [hrun] at hf ⊢
    refine ⟨a, .refl, h.answer .refl hf ?_ (h.peers dst) (fun j hj => ⟨rfl, rfl⟩) (by simp)
      ⟨by omega, fun hs => absurd hs (not_le.mpr hlt)⟩⟩
    exact (h.votes.advance_self dst).symm
  · generalize hrun : (w.peers dst).installSnapshot args = out at hf ⊢
    obtain ⟨rf', reply⟩ := out
    obtain ⟨b, hc, hb⟩ := (h.peers dst).base
    obtain ⟨hterm, hstatus, hout⟩ := hc.installSnapshot hle hindex hlast hcl
      (matching_of_sound (h.inv.sound_log dst) (h.inv.sound_tlog _)) hrun
    have hcur : a.cur dst ≤ args.term := by
      rw [h.cur_eq]
      exact hle
    have hnonneg := (h.peers dst).term
    have happ := (h.peers dst).applied
    have hcomm := (h.peers dst).commit
    have hsteps := State.steps_follow h.inv hcur hlead.1 hlead.2 hcl (le_refl c) hcommitted
    refine ⟨_, hsteps, h.answer hsteps hf (by rw [hterm]; rfl) ?_
      (fun j hj => ⟨State.follow_log_ne hj, State.follow_commit_ne hj⟩) (by simp)
      ⟨by omega, fun _ => ?_⟩⟩
    · rcases hout with ⟨hcb, hsame⟩ | ⟨hbc, hc', hcommit', happlied, -⟩
      · -- the log has what the snapshot covers already
        have hhas : adopt (a.tlog args.term) c (a.log dst) = a.log dst := by
          refine adopt_of_isPrefix ?_
          rw [← h.take_base (hcb.trans hb) hle hlead.1]
          exact List.take_prefix _ _
        refine followed (h.peers dst) ?_ (show b ≤ _ by omega) hstatus (by rw [hterm]; omega)
          (by rw [hsame.commit]; omega) (by rw [hsame.applied, hsame.commit]; exact happ)
        rw [hhas]
        exact hsame.compacts hc
      · exact followed (h.peers dst) hc' (by omega) hstatus (by rw [hterm]; omega) hcommit'
          (by rw [happlied, hcommit']; omega)
    · have hack := State.le_follow_ack (a := a) (q := dst) (t := args.term) (m := c) (k := c)
      omega

/-! ## What a leader learns -/

theorem acked {rf : Peer n C} {i peer : Fin n} {m : Int} (h : PeerRel rf a i)
    (hack : m ≤ a.ack peer rf.currentTerm) :
    PeerRel (rf.updateMatchAndNextIndex peer m) a i := by
  rw [Peer.updateMatchAndNextIndex_eq]
  refine h.of_same ⟨rfl, rfl, rfl, rfl, rfl, rfl⟩ rfl rfl (fun hs p => ?_) (fun hs p hp => ?_)
  · have hold := h.next hs p
    have hpeer := (h.next hs peer).2
    dsimp only
    rw [Function.update_apply, Function.update_apply]
    split
    · omega
    · exact hold
  · dsimp only
    rw [Function.update_apply]
    split
    · next heq =>
        subst heq
        rcases h.matched hs p hp with hm | hm
        · rcases le_total m (rf.matchIndex p) with hle | hle
          · exact .inl (by rw [max_eq_left hle]; exact hm)
          · exact .inr (by rw [max_eq_right hle]; exact hack)
        · exact .inr (max_le hm hack)
    · exact h.matched hs p hp

/-- The peers that are counted, with the leader itself. -/
theorem countMatch_quorum {rf : Peer n C} {N : Int} (h : rf.countMatch N > n / 2) :
    ∃ Q, (majority n).isQuorum Q ∧ ∀ q ∈ Q, q = rf.me ∨ q ≠ rf.me ∧ N ≤ rf.matchIndex q := by
  refine ⟨insert rf.me (Finset.univ.filter fun q => q ≠ rf.me ∧ rf.matchIndex q ≥ N), ?_,
    fun q hq => ?_⟩
  · have hcard : (Finset.univ.filter fun q => q ≠ rf.me ∧ rf.matchIndex q ≥ N).card =
        (List.finRange n).countP fun q => q ≠ rf.me ∧ rf.matchIndex q ≥ N := by
      rw [List.countP_eq_length_filter]
      rfl
    show Fintype.card (Fin n) / 2 < _
    rw [Finset.card_insert_of_notMem (by simp), hcard, Fintype.card_fin]
    unfold Peer.countMatch at h
    omega
  · rcases Finset.mem_insert.mp hq with hq | hq
    · exact .inl hq
    · exact .inr (Finset.mem_filter.mp hq).2

/-- A leader's new commit index is one that its replicated log may commit. -/
theorem committed (hinv : a.Inv (majority n)) {rf : Peer n C} {i : Fin n} (h : PeerRel rf a i)
    (hcur : a.cur i = rf.currentTerm) (hme : rf.me = i) (hs : rf.status = .leader)
    (hlead : a.leader (a.cur i) = some i) :
    ∃ k, State.Steps (majority n) a (a.setCommit i k) ∧
      PeerRel rf.updateLeaderCommitIndex (a.setCommit i k) i := by
  obtain ⟨b, hc, hb⟩ := h.base
  have hcommit := h.commit
  have happlied := h.applied
  unfold Peer.updateLeaderCommitIndex
  rcases Peer.commitLoop_cases rf (rf.lastLogIndex - rf.commitIndex).toNat rf.lastLogIndex with
    heq | ⟨N, hN, hlast, hterm, hcount, heq⟩
  · rw [heq]
    refine ⟨a.commit i, State.steps_lower_commit hinv (le_refl _), ?_⟩
    have hsame : a.setCommit i (a.commit i) = a := by
      simp [State.setCommit]
    rw [hsame]
    exact h
  · rw [heq]
    rw [hc.lastLogIndex] at hlast
    obtain ⟨k, rfl⟩ : ∃ k : Nat, N = k + 1 := ⟨(N - 1).toNat, by omega⟩
    obtain ⟨e, he⟩ : ∃ e, (a.log i)[k]? = some e := ⟨_, List.getElem?_eq_getElem (by omega)⟩
    have hterm : e.term = a.cur i := by
      rw [hcur, ← hterm, ← termOf_succ he]
      exact (hc.termAt_logical (by omega)).symm
    obtain ⟨Q, hQ, hmatch⟩ := countMatch_quorum hcount
    have hack : ∀ q ∈ Q, k < a.ack q (a.cur i) := by
      intro q hq
      rw [hcur]
      rcases hmatch q hq with rfl | ⟨hne, hm⟩
      · have := h.led hs
        rw [hme]
        omega
      · rcases h.matched hs q (by rw [← hme]; exact hne) with hold | hold
        · omega
        · omega
    refine ⟨k + 1, State.steps_commit_own hinv hlead he hterm hQ hack, ?_⟩
    have hself : (a.setCommit i (k + 1)).commit i = k + 1 := by
      rw [State.setCommit_commit, if_pos rfl]
    exact {
      base := ⟨b, hc.of_eq rfl rfl rfl, by rw [hself]; omega⟩
      commit := by
        rw [hself]
        rfl
      applied := by
        show rf.lastApplied ≤ (k : Int) + 1
        omega
      term := h.term
      candidate := h.candidate
      led := h.led
      next := h.next
      matched := by
        intro _ p hp
        show rf.matchIndex p ≤ (k : Int) + 1 ∨ _
        rcases h.matched hs p hp with hm | hm
        · exact .inl (by omega)
        · exact .inr hm }

/-- A worker has read the reply to its call. -/
theorem learned (h : Refines w a) {k m : Nat} {wk : Worker n} {rf : Peer n C}
    (hsteps : State.Steps (majority n) a a') (hballots : a'.toBallots = a.toBallots)
    (hm : w.workers[m]? = some wk) (hf : Peer.Follows (w.peers wk.src) rf)
    (hterm : rf.currentTerm = (w.peers wk.src).currentTerm) (hrf : PeerRel rf a' wk.src)
    (hframe : ∀ j ≠ wk.src, a'.log j = a.log j ∧ a'.commit j = a.commit j) :
    Refines (((w.dropResponse k).setPeer wk.src rf).setWorker m wk .cleanup) a' :=
  h.within hsteps hballots hf.yields hterm rfl (.of_eq rfl) rfl hrf hframe
    (h.workers_set hm .cleanup) (fun _ hr => hr) (fun _ hr => List.mem_of_mem_eraseIdx hr)

theorem learnedNothing (h : Refines w a) {k m : Nat} {wk : Worker n}
    (hm : w.workers[m]? = some wk) :
    ∃ a', State.Steps (majority n) a a' ∧ Refines (((w.dropResponse k).setPeer wk.src
      (w.peers wk.src)).setWorker m wk .cleanup) a' :=
  ⟨a, .refl, h.learned .refl rfl hm (Peer.Follows.refl _) rfl (h.peers wk.src)
    fun _ _ => ⟨rfl, rfl⟩⟩

theorem learnedTerm (h : Refines w a) {k m : Nat} {wk : Worker n} {t : Int}
    (hm : w.workers[m]? = some wk) :
    ∃ a', State.Steps (majority n) a a' ∧ Refines (((w.dropResponse k).setPeer wk.src
      ((w.peers wk.src).stepDown t).1).setWorker m wk .cleanup) a' :=
  h.steppedDown (h.votes.follow (Peer.follows_stepDown _ t).yields rfl (.of_eq rfl) rfl
    (fun hm => hm) (fun hm => List.mem_of_mem_eraseIdx hm)) rfl (h.workers_set hm .cleanup)
    (fun _ hr => hr) (fun _ hr => .inl (List.mem_of_mem_eraseIdx hr))

theorem receiveEntries (h : Refines w a) {k m : Nat} {dst : Fin n} {args : AppendEntriesArgs n C}
    {reply : AppendEntriesReply} {wk : Worker n}
    (hk : w.responses[k]? = some (.appendEntries m dst args reply))
    (hm : w.workers[m]? = some wk) :
    ∃ a', State.Steps (majority n) a a' ∧ Refines (((w.dropResponse k).setPeer wk.src
      ((w.peers wk.src).handleAppendEntriesReply dst args reply)).setWorker m wk .cleanup) a' := by
  obtain ⟨hprev, hsuccess, hfail⟩ := h.responses _ (List.mem_of_getElem? hk)
  have hf := Peer.follows_handleAppendEntriesReply (w.peers wk.src) dst args reply
  have hrel := h.peers wk.src
  rcases Peer.handleAppendEntriesReply_cases (w.peers wk.src) dst args reply with
    heq | ⟨hlt, heq⟩ | ⟨hs, hterm, hreply, ⟨hok, heq⟩ | ⟨hrej, next, heq, hnext⟩⟩
  · rw [heq]
    exact h.learnedNothing hm
  · rw [heq]
    exact h.learnedTerm hm
  · rw [heq] at hf ⊢
    have hrel' : PeerRel ((w.peers wk.src).updateMatchAndNextIndex dst
        (args.prevLogIndex + args.entries.length)) a wk.src :=
      acked hrel (by rw [hterm]; exact hsuccess hok)
    rw [Peer.updateMatchAndNextIndex_eq] at hrel' hf ⊢
    obtain ⟨c, hsteps, hcommitted⟩ := committed h.inv hrel' (h.cur_eq _) (h.votes.me _) hs
      (h.leads hs)
    refine ⟨_, hsteps, h.learned hsteps rfl hm hf ?_ hcommitted
      (fun j hj => ⟨rfl, by rw [State.setCommit_commit, if_neg hj]⟩)⟩
    obtain ⟨c', heq'⟩ := Peer.updateLeaderCommitIndex_eq _
    rw [heq']
  · rw [heq] at hf ⊢
    refine ⟨a, .refl, h.learned .refl rfl hm hf rfl ?_ (fun j hj => ⟨rfl, rfl⟩)⟩
    refine hrel.of_same ⟨rfl, rfl, rfl, rfl, rfl, rfl⟩ rfl rfl (fun _ p => ?_) hrel.matched
    have hold := hrel.next hs p
    obtain ⟨b, hc, -⟩ := hrel.base
    have hindex := hc.index
    have hback := hfail hrej
    dsimp only
    rw [Function.update_apply]
    split
    · omega
    · exact hold

theorem receiveSnapshot (h : Refines w a) {k m : Nat} {dst : Fin n} {args : InstallSnapshotArgs n}
    {reply : InstallSnapshotReply} {wk : Worker n}
    (hk : w.responses[k]? = some (.installSnapshot m dst args reply))
    (hm : w.workers[m]? = some wk) :
    ∃ a', State.Steps (majority n) a a' ∧ Refines (((w.dropResponse k).setPeer wk.src
      ((w.peers wk.src).handleInstallSnapshotReply dst args reply)).setWorker m wk .cleanup)
      a' := by
  obtain ⟨hindex, hok⟩ := h.responses _ (List.mem_of_getElem? hk)
  have hf := Peer.follows_handleInstallSnapshotReply (w.peers wk.src) dst args reply
  have hrel := h.peers wk.src
  rcases Peer.handleInstallSnapshotReply_cases (w.peers wk.src) dst args reply with
    heq | ⟨hlt, heq⟩ | ⟨hs, hterm, hreply, heq⟩
  · rw [heq]
    exact h.learnedNothing hm
  · rw [heq]
    exact h.learnedTerm hm
  · rw [heq] at hf ⊢
    refine ⟨a, .refl, h.learned .refl rfl hm hf ?_
      (acked hrel (by rw [hterm]; exact hok hreply)) (fun j hj => ⟨rfl, rfl⟩)⟩
    rw [Peer.updateMatchAndNextIndex_eq]

/-! ## Applying and restarting -/

theorem apply (h : Refines w a) {i : Fin n} {rf : Peer n C} {msgs : List (ApplyMsg C)}
    (happly : (w.peers i).applyCommitted = some (rf, msgs)) :
    Refines { w.setPeer i rf with sending := Function.update w.sending i msgs } a := by
  have hf := Peer.follows_applyCommitted happly
  obtain ⟨b, hc, hb⟩ := (h.peers i).base
  have hcommit := (h.peers i).commit
  have hindex := hc.index
  have hrel : ∃ applied flag, applied ≤ (w.peers i).commitIndex ∧
      rf = { w.peers i with lastApplied := applied, applySnapshot := flag } := by
    unfold Peer.applyCommitted at happly
    split at happly
    · cases happly
    · split at happly
      · cases happly
        exact ⟨_, _, by omega, rfl⟩
      · cases happly
        exact ⟨_, _, le_refl _, rfl⟩
  obtain ⟨applied, flag, hle, rfl⟩ := hrel
  refine h.within .refl rfl hf.yields rfl rfl (.of_eq rfl) rfl ?_ (fun j hj => ⟨rfl, rfl⟩) h.workers
    (fun r hr => hr) (fun r hr => hr)
  exact { h.peers i with base := ⟨b, hc.of_eq rfl rfl rfl, hb⟩, applied := hle }

theorem crash (h : Refines w a) (i : Fin n) :
    ∃ a', State.Steps (majority n) a a' ∧ Refines (w.crash i) a' := by
  obtain ⟨b, hc, hb⟩ := (h.peers i).base
  have hsaved := h.votes.saved i
  have hf := Peer.follows_make hsaved
  have hc' := hc.make hsaved
  obtain ⟨hcommit, happlied⟩ := Peer.make_commitIndex (w.peers i).me (w.peers i).persister
  have hindex := hc'.index
  have hterm := hsaved.1
  have hstatus := Peer.make_status (w.peers i).me (w.peers i).persister
  rw [h.votes.me] at hf hc' hcommit happlied hindex hterm hstatus
  have hsteps : State.Steps (majority n) a (a.setCommit i b) := State.steps_lower_commit h.inv hb
  have hself : (a.setCommit i b).commit i = b := by
    rw [State.setCommit_commit, if_pos rfl]
  refine ⟨_, hsteps, h.within hsteps rfl hf.yields hterm rfl (.of_eq rfl) rfl ?_
    (fun j hj => ⟨rfl, by rw [State.setCommit_commit, if_neg hj]⟩) h.workers (fun r hr => hr)
    (fun r hr => hr)⟩
  refine .of_follower hstatus ⟨b, hc', by rw [hself]⟩ ?_ ?_ ?_
  · rw [hself]
    omega
  · omega
  · rw [hterm]
    exact (h.peers i).term

end Refines

/-! ## All steps -/

namespace Cluster

/-- The service compacts only what its peer knows to be committed. -/
def CompactsCommitted (w : Cluster n C) : Action n C → Prop
  | .snapshot i index _ => index ≤ (w.peers i).commitIndex
  | _ => True

instance (w : Cluster n C) : (act : Action n C) → Decidable (CompactsCommitted w act)
  | .snapshot i index _ => inferInstanceAs (Decidable (index ≤ (w.peers i).commitIndex))
  | .tick .. | .start .. | .worker .. | .sendHeartbeat .. | .deliver .. | .receive ..
  | .callFails .. | .voteFails .. | .apply .. | .send .. | .crash .. => isTrue trivial

structure Safe (w : Cluster n C) (act : Action n C) : Prop where
  vote : VotesOnce w act
  placeholder : SkipsPlaceholder w act
  snapshot : CompactsCommitted w act

instance (w : Cluster n C) (act : Action n C) : Decidable (Safe w act) :=
  decidable_of_iff (VotesOnce w act ∧ SkipsPlaceholder w act ∧ CompactsCommitted w act)
    ⟨fun ⟨hv, hp, hc⟩ => ⟨hv, hp, hc⟩, fun ⟨hv, hp, hc⟩ => ⟨hv, hp, hc⟩⟩

end Cluster

theorem refines_init : Refines (Cluster.init : Cluster n C) (State.init 0) where
  votes := Cluster.voteRel_init
  inv := State.Inv.init 0
  positive := by
    intro t ht
    exact absurd rfl ht
  peers := by
    intro i
    refine .of_follower rfl ⟨0, ⟨rfl, Nat.le_refl _, ⟨placeholder 0, rfl⟩, rfl⟩, Nat.le_refl _⟩
      rfl (le_refl _) (le_refl _)
  workers := by simp [Cluster.init]
  requests := by simp [Cluster.init]
  responses := by simp [Cluster.init]

/-- Every safe step is matched by steps of the replicated log. -/
theorem Refines.step (h : Refines w a) {act : Action n C} (hok : w.Safe act)
    (hs : w.step act = some w') : ∃ a', State.Steps (majority n) a a' ∧ Refines w' a' := by
  cases Cluster.trans_of_step hs with
  | tickHeartbeat i elapsed timeout hlead =>
      exact ⟨a, .refl, h.quiet rfl (.of_eq rfl) rfl rfl rfl h.workers⟩
  | tickElection i elapsed timeout hnot hn => exact h.startElection i
  | tickIdle i elapsed timeout => exact ⟨a, .refl, h⟩
  | start i command =>
      exact h.start i command (by simp [Cluster.setPeer]) (.of_eq (by simp [Cluster.setPeer]))
        (by simp [Cluster.setPeer])
        (by simp [Cluster.setPeer]) (by simp [Cluster.setPeer]) (by simp [Cluster.setPeer])
  | snapshot i index data => exact ⟨a, .refl, h.snapshot hok.snapshot⟩
  | heartbeatRun k i inc hk hinc hlead =>
      refine ⟨a, .refl, h.quiet rfl (.of_eq rfl) rfl rfl rfl ?_⟩
      intro wk hwk
      rcases List.mem_append.mp hwk with hwk | hwk
      · exact h.workers wk hwk
      · obtain ⟨p, hp, rfl⟩ := List.mem_map.mp hwk
        simpa [Cluster.others] using hp
  | heartbeatQuit k =>
      exact ⟨a, .refl, h.quiet rfl (.of_eq rfl) rfl rfl rfl h.workers⟩
  | workerMoves k wk pc hk hinc hpc =>
      exact ⟨a, .refl, h.quiet rfl (.of_eq rfl) rfl rfl rfl (h.workers_set hk pc)⟩
  | workerEntries k wk args hk hinc hpc hargs =>
      have hnew := h.sendEntries k (h.workers wk (List.mem_of_getElem? hk))
        (hok.placeholder.nextIndex_ne hk hpc hargs) hargs
      exact ⟨a, .refl, h.calls hk hnew fun _ _ _ hno => by cases hno⟩
  | workerFlag k wk flag pc hk hinc hpc =>
      refine ⟨a, .refl, h.within .refl rfl (Peer.follows_setReplicating _ wk.peer flag).yields rfl
        rfl (.of_eq rfl) rfl ?_ (fun j hj => ⟨rfl, rfl⟩) (h.workers_set hk pc) (fun r hr => hr)
        (fun r hr => hr)⟩
      exact (h.peers wk.src).of_same ⟨rfl, rfl, rfl, rfl, rfl, rfl⟩ rfl rfl
        (h.peers wk.src).next (h.peers wk.src).matched
  | workerSnapshot k wk args hk hinc hpc hargs =>
      have hnew := h.sendSnapshot k (h.workers wk (List.mem_of_getElem? hk)) hargs
      exact ⟨a, .refl, h.calls hk hnew fun _ _ _ hno => by cases hno⟩
  | deliverVote k e dst args hk => exact h.deliverVote hk (hok.vote _ hk)
  | deliverEntries k m dst args hk => exact h.deliverEntries hk
  | deliverSnapshot k m dst args hk => exact h.deliverSnapshot hk
  | receiveVote k e dst args reply el rf votes started hk hel hinc hwait hreply =>
      exact h.receiveVote hk hel hwait hreply
  | receiveEntries k m dst args reply wk hk hm hinc hpc =>
      obtain ⟨a', hsteps, hread⟩ := h.receiveEntries hk hm
      exact ⟨a', hsteps, hread.noted (Cluster.sameVotes_successOf rfl)⟩
  | receiveSnapshot k m dst args reply wk hk hm hinc hpc =>
      obtain ⟨a', hsteps, hread⟩ := h.receiveSnapshot hk hm
      exact ⟨a', hsteps, hread.noted (Cluster.sameVotes_acknowledged rfl)⟩
  | callFails k wk hk hinc hpc =>
      exact ⟨a, .refl, h.quiet rfl (.of_eq rfl) rfl rfl rfl (h.workers_set hk .cleanup)⟩
  | voteFails e peer el hel =>
      exact ⟨a, .refl, h.stutter rfl (h.votes.voteFails hel) h.workers (fun r hr => .inl hr)
        (fun r hr => hr)⟩
  | apply i rf msgs hsend happly => exact ⟨a, .refl, h.apply happly⟩
  | send i msg rest hsend =>
      exact ⟨a, .refl, h.quiet rfl (.of_eq rfl) rfl rfl rfl h.workers⟩
  | crash i => exact h.crash i

/-- Refinement: a safe run of the cluster is a run of the replicated log. -/
theorem Refines.path (h : Refines w a) (hp : Run.Path Cluster.step Cluster.Safe w w') :
    ∃ a', State.Steps (majority n) a a' ∧ Refines w' a' :=
  hp.simulates (fun _ _ _ _ hR hok hs => hR.step hok hs) h

end Raft
end Labs
