import Labs.Raft.Progress
import Labs.Raft.Truthful

/-!
# Rejections that come in time

A leader that reads a rejection goes back without a look at `matchIndex`.  It goes back to
or below what it knows the peer to have in three ways.  A success of the peer was read since
the call was made, so that the rejection is about a log that the peer no longer has.  The
peer has compacted the entry that the call builds on and names no term, which a leader
without a snapshot takes for the beginning of the log.  Or the leader has compacted beyond
what it knows the peer to have, and no longer finds the term of the conflict there.

`Timely` excludes the three, and nothing else is needed besides what makes `matchIndex` true:
a rejection that a leader reads then points above it.
-/

namespace Labs
namespace Raft

open Consensus

variable {n : Nat} {C : Type}

/-! ## What a rejection says -/

/-- The leader's search for the term of a conflict is not misled: where the peer names no
term the leader has a snapshot, and otherwise its log reaches down to what it knows. -/
def Peer.Searches (rf : Peer n C) (dst : Fin n) (reply : AppendEntriesReply) : Prop :=
  reply.xLen = 0 →
    if reply.xTerm = -1 then 0 < rf.lastIncludedIndex else rf.lastIncludedIndex ≤ rf.matchIndex dst

instance (rf : Peer n C) (dst : Fin n) (reply : AppendEntriesReply) :
    Decidable (rf.Searches dst reply) :=
  inferInstanceAs (Decidable (reply.xLen = 0 → if reply.xTerm = -1 then 0 < rf.lastIncludedIndex
    else rf.lastIncludedIndex ≤ rf.matchIndex dst))

/-- A follower that had the leader's log up to the index has rejected the request, which
builds on that index or a later one. -/
def Rejected (a : AbsState n C) (args : AppendEntriesArgs n C) (reply : AppendEntriesReply)
    (index : Int) : Prop :=
  ∃ (follower : Peer n C) (F : List (LogEntry C)) (b p m : Nat), follower.Compacts F b ∧
    a.Sound F ∧ args.SliceOf (a.tlog args.term) p ∧ follower.matchPrevLog args = some reply ∧
    Agree (a.tlog args.term) F b ∧ index = m ∧ m ≤ p ∧ Agree (a.tlog args.term) F m

namespace Rejected

variable {a a' : AbsState n C} {args : AppendEntriesArgs n C} {reply : AppendEntriesReply}
  {index : Int}

theorem mono (h : Rejected a args reply index) (hext : a.Ext a') :
    Rejected a' args reply index := by
  obtain ⟨follower, F, b, p, m, hF, hsound, hslice, hreply, hbase, hindex, hmp, hagree⟩ := h
  have hlog := hext.tlog_mono args.term
  exact ⟨follower, F, b, p, m, hF, hext.sound hsound, hslice.mono hlog, hreply, hbase.mono hlog,
    hindex, hmp, hagree.mono hlog⟩

/-- Read by a leader that may search its log, it points above the index. -/
theorem lt_nextAfter (hinv : a.Inv (majority n)) (hpos : ∀ {t}, a.leader t ≠ none → 0 < t)
    {rf : Peer n C} {dst : Fin n} {b : Nat} (h : Rejected a args reply (rf.matchIndex dst))
    (hc : rf.Compacts (a.tlog args.term) b) (hsearch : rf.Searches dst reply) :
    rf.matchIndex dst < rf.nextAfter reply := by
  obtain ⟨follower, F, bF, p, m, hF, hsound, hslice, hreply, hbase, hindex, hmp, hagree⟩ := h
  have ha := aligned_of_sound hinv hpos (hinv.sound_tlog args.term) hsound
  have hb := hc.index
  rcases lt_or_ge p bF with hlow | hhigh
  · -- the follower has compacted the index and names none of its terms
    rw [hF.matchPrevLog_below hslice.prev hlow] at hreply
    split at hreply
    · cases hreply
    · cases hreply
      have hsnap : 0 < rf.lastIncludedIndex := hsearch rfl
      rw [Peer.nextAfter_below hc ha.leaderStamped rfl rfl, if_neg (by omega)]
      show rf.matchIndex dst < (p : Int) + 1
      omega
  · obtain ⟨q, hq, -, hall⟩ :=
      Peer.nextAfter_rejected hc hF ha hslice.prev hslice.term hslice.le hhigh hbase hreply
    obtain ⟨-, -, hnot, ⟨-, hx⟩ | ⟨-, heq⟩ | ⟨hlen, hx, hterm, i, -, hip, -⟩⟩ :=
      hF.of_rejected hslice.prev hslice.term hhigh hreply
    · -- the follower's log is too short, but it has what the leader knows
      have hlen := hagree.2.1
      rw [Peer.nextAfter, if_pos (by omega), hx]
      omega
    · exact absurd (heq ▸ hbase) hnot
    · -- a conflict: the leader's log reaches down to the index
      have hstamp := ha.followerStamped.termOf_pos (show p ≠ 0 by omega) hlen
      have hreach := hsearch hx
      rw [if_neg (by rw [hterm]; omega)] at hreach
      rcases hall m hagree with hlow | hmq <;> omega

end Rejected

namespace Cluster

/-! ## The condition -/

/-- Server `i` has read no success of server `p` since worker `m` made its call. -/
def Fresh (w : Cluster n C) (m : Nat) (i p : Fin n) : Prop :=
  Event.acknowledged i p ∉ w.history.takeWhile fun e => e ≠ .called m

instance (w : Cluster n C) (m : Nat) (i p : Fin n) : Decidable (w.Fresh m i p) :=
  inferInstanceAs (Decidable (_ ∉ _))

/-- A rejection is used only if its reader has learned nothing of the peer since the call. -/
def ReadsFresh (w : Cluster n C) (act : Action n C) : Prop :=
  ∀ r ∈ w.read act, w.OnRejection (fun m i dst _ => w.Fresh m i dst) r

instance (w : Cluster n C) (act : Action n C) : Decidable (w.ReadsFresh act) :=
  inferInstanceAs (Decidable (∀ r ∈ w.read act, w.OnRejection _ r))

/-- A rejection is used only by a leader whose search is not misled. -/
def ReadsSearched (w : Cluster n C) (act : Action n C) : Prop :=
  ∀ r ∈ w.read act, w.OnRejection (fun _ i dst reply => (w.peers i).Searches dst reply) r

instance (w : Cluster n C) (act : Action n C) : Decidable (w.ReadsSearched act) :=
  inferInstanceAs (Decidable (∀ r ∈ w.read act, w.OnRejection _ r))

structure Timely (w : Cluster n C) (act : Action n C) : Prop where
  abreast : Abreast w act
  fresh : ReadsFresh w act
  searched : ReadsSearched w act

instance (w : Cluster n C) (act : Action n C) : Decidable (Timely w act) :=
  decidable_of_iff (Abreast w act ∧ ReadsFresh w act ∧ ReadsSearched w act)
    ⟨fun ⟨ha, hf, hs⟩ => ⟨ha, hf, hs⟩, fun ⟨ha, hf, hs⟩ => ⟨ha, hf, hs⟩⟩

/-! ## Calls that still count -/

section Step

variable {w w' : Cluster n C} {act : Action n C}

/-- What a step records: only a worker that is not spent makes a call. -/
theorem history_of_step (hs : w.step act = some w') :
    ∃ new, w'.history = new ++ w.history ∧
      ∀ k, Event.called k ∈ new → ∃ wk, w.workers[k]? = some wk ∧ ¬ wk.pc.Spent := by
  cases trans_of_step hs with
  | tickHeartbeat i elapsed timeout hlead => exact ⟨[], by simp, by simp⟩
  | tickElection i elapsed timeout hnot hn => exact ⟨[.voted i _ i], rfl, by simp⟩
  | tickIdle i elapsed timeout => exact ⟨[], rfl, by simp⟩
  | start i command => exact ⟨[], by simp [setPeer], by simp⟩
  | snapshot i index data => exact ⟨[], rfl, by simp⟩
  | heartbeatRun k i inc hk hinc hlead => exact ⟨[], rfl, by simp⟩
  | heartbeatQuit k => exact ⟨[], rfl, by simp⟩
  | workerMoves k wk pc hk hinc hpc => exact ⟨[], rfl, by simp⟩
  | workerEntries k wk args hk hinc hpc hargs =>
      refine ⟨[.called k], rfl, fun k' hk' => ?_⟩
      cases List.mem_singleton.mp hk'
      exact ⟨wk, hk, by simp [WorkerPc.Spent, hpc]⟩
  | workerFlag k wk flag pc hk hinc hpc => exact ⟨[], rfl, by simp⟩
  | workerSnapshot k wk args hk hinc hpc hargs =>
      refine ⟨[.called k], rfl, fun k' hk' => ?_⟩
      cases List.mem_singleton.mp hk'
      exact ⟨wk, hk, by simp [WorkerPc.Spent, hpc]⟩
  | deliverVote k e dst args hk =>
      refine ⟨_, rfl, fun k' hk' => ?_⟩
      unfold voteOf at hk'
      split at hk' <;> simp at hk'
  | deliverEntries k m dst args hk => exact ⟨[], rfl, by simp⟩
  | deliverSnapshot k m dst args hk => exact ⟨[], rfl, by simp⟩
  | receiveVote k e dst args reply el rf votes started hk hel hinc hwait hreply =>
      exact ⟨[], by simp, by simp⟩
  | receiveEntries k m dst args reply wk hk hm hinc hpc =>
      refine ⟨_, rfl, fun k' hk' => ?_⟩
      unfold successOf at hk'
      split at hk' <;> simp at hk'
  | receiveSnapshot k m dst args reply wk hk hm hinc hpc => exact ⟨_, rfl, by simp⟩
  | callFails k wk hk hinc hpc => exact ⟨[], rfl, by simp⟩
  | voteFails e peer el hel => exact ⟨[], rfl, by simp⟩
  | apply i rf msgs hsend happly => exact ⟨[], rfl, by simp⟩
  | send i msg rest hsend => exact ⟨[], rfl, by simp⟩
  | crash i => exact ⟨[], rfl, by simp⟩

/-- Nothing recorded since the call of a spent worker is taken back. -/
theorem Fresh.before (hs : w.step act = some w') {m : Nat} {wk : Worker n} {i p : Fin n}
    (h : w'.Fresh m i p) (hm : w.workers[m]? = some wk) (hspent : wk.pc.Spent) :
    w.Fresh m i p ∧ ∀ new, w'.history = new ++ w.history → Event.acknowledged i p ∉ new := by
  obtain ⟨new, hnew, hcalled⟩ := history_of_step hs
  have hnot : ∀ e ∈ new, decide (e ≠ Event.called m) = true := by
    intro e he
    refine decide_eq_true fun heq => ?_
    obtain ⟨wk', hwk', hno⟩ := hcalled m (heq ▸ he)
    rw [hm] at hwk'
    cases hwk'
    exact hno hspent
  unfold Fresh at h
  rw [hnew, List.takeWhile_append_of_pos hnot, List.mem_append, not_or] at h
  refine ⟨h.2, fun new' hnew' => ?_⟩
  rw [hnew] at hnew'
  rw [← List.append_cancel_right hnew']
  exact h.1

/-- Reading a success is recorded. -/
theorem history_of_receive {k m : Nat} {dst : Fin n} {args : AppendEntriesArgs n C}
    {reply : AppendEntriesReply} {wk : Worker n} (hs : w.step (.receive k) = some w')
    (hk : w.responses[k]? = some (.appendEntries m dst args reply))
    (hm : w.workers[m]? = some wk) : w'.history = successOf wk.src dst reply ++ w.history := by
  cases trans_of_step hs with
  | receiveVote _ e dst' args' reply' el rf votes started hk' hel hinc hwait hreply =>
      rw [hk] at hk'
      cases hk'
  | receiveEntries _ m' dst' args' reply' wk' hk' hm' hinc hpc =>
      rw [hk] at hk'
      cases hk'
      rw [hm] at hm'
      cases hm'
      rfl
  | receiveSnapshot _ m' dst' args' reply' wk' hk' hm' hinc hpc =>
      rw [hk] at hk'
      cases hk'

theorem history_of_receiveSnapshot {k m : Nat} {dst : Fin n} {args : InstallSnapshotArgs n}
    {reply : InstallSnapshotReply} {wk : Worker n} (hs : w.step (.receive k) = some w')
    (hk : w.responses[k]? = some (.installSnapshot m dst args reply))
    (hm : w.workers[m]? = some wk) : w'.history = [.acknowledged wk.src dst] ++ w.history := by
  cases trans_of_step hs with
  | receiveVote _ e dst' args' reply' el rf votes started hk' hel hinc hwait hreply =>
      rw [hk] at hk'
      cases hk'
  | receiveEntries _ m' dst' args' reply' wk' hk' hm' hinc hpc =>
      rw [hk] at hk'
      cases hk'
  | receiveSnapshot _ m' dst' args' reply' wk' hk' hm' hinc hpc =>
      rw [hk] at hk'
      cases hk'
      rw [hm] at hm'
      cases hm'
      rfl

/-- A server that leads has led before, with the same knowledge of a peer, or was a candidate,
or has just read a success of that peer. -/
theorem matchIndex_of_step (h : Books w) (hs : w.step act = some w') {i p : Fin n}
    (hlead : (w'.peers i).status = .leader) :
    (w.peers i).status = .leader ∧ (w'.peers i).currentTerm = (w.peers i).currentTerm ∧
        (w'.peers i).matchIndex p = (w.peers i).matchIndex p ∨
      (w.peers i).status = .candidate ∧
        (w'.peers i).currentTerm = (w.peers i).currentTerm ∨
      ∃ new, w'.history = new ++ w.history ∧ Event.acknowledged i p ∈ new := by
  rcases goes_of_step (fun i => (h.durable i).me) hs i with heq | ⟨s, hrun, hissue⟩
  · rw [heq] at hlead ⊢
    exact .inl ⟨hlead, rfl, rfl⟩
  · generalize w'.peers i = rf' at hlead hrun ⊢
    cases Peer.learns_of_run hrun with
    | nothing hkeeps =>
        obtain ⟨hold, hterm, -, hmatch⟩ := hkeeps hlead
        exact .inl ⟨hold, hterm, congrFun hmatch p⟩
    | elected args reply votes hwins =>
        refine .inr (.inl ⟨hwins.2.1, ?_⟩)
        rw [Peer.becomeLeader_of_candidate hwins.2.1]
    | entries dst args reply =>
        obtain ⟨k, m, wk, rfl, hk, hm, rfl⟩ := hissue
        obtain ⟨hold, hterm, heq | ⟨-, hsuccess, heq⟩⟩ :=
          Peer.handleAppendEntriesReply_matchIndex hlead
        · exact .inl ⟨hold, hterm, congrFun heq p⟩
        · by_cases hp : p = dst
          · refine .inr (.inr ⟨_, history_of_receive hs hk hm, ?_⟩)
            simp [successOf, hsuccess, hp]
          · refine .inl ⟨hold, hterm, ?_⟩
            rw [heq, Function.update_of_ne hp]
    | snapshot dst args reply =>
        obtain ⟨k, m, wk, rfl, hk, hm, rfl⟩ := hissue
        obtain ⟨hold, hterm, heq | ⟨-, -, heq⟩⟩ :=
          Peer.handleInstallSnapshotReply_matchIndex hlead
        · exact .inl ⟨hold, hterm, congrFun heq p⟩
        · by_cases hp : p = dst
          · exact .inr (.inr ⟨_, history_of_receiveSnapshot hs hk hm, by simp [hp]⟩)
          · refine .inl ⟨hold, hterm, ?_⟩
            rw [heq, Function.update_of_ne hp]

/-- Server `i` leads the term of worker `m`'s call to `p`, and knows no more of `p` than when
the call was made. -/
structure Counts (w : Cluster n C) (m : Nat) (i p : Fin n) (t : Int) : Prop where
  lead : (w.peers i).status = .leader
  term : (w.peers i).currentTerm = t
  fresh : w.Fresh m i p

theorem Counts.before (hbooks : Books w) (hs : w.step act = some w') {c : Call n C}
    (hc : c ∈ w.calls) {wk : Worker n} (hm : w.workers[c.worker]? = some wk)
    (hspent : wk.pc.Spent) {p : Fin n} (h : w'.Counts c.worker wk.src p c.term) :
    w.Counts c.worker wk.src p c.term ∧
      (w'.peers wk.src).matchIndex p = (w.peers wk.src).matchIndex p := by
  obtain ⟨hfresh, hnone⟩ := h.fresh.before hs hm hspent
  rcases matchIndex_of_step hbooks hs h.lead (p := p) with
    ⟨hlead, hterm, hmatch⟩ | ⟨hcand, hterm⟩ | ⟨new, hnew, hack⟩
  · exact ⟨⟨hlead, hterm.symm.trans h.term, hfresh⟩, hmatch⟩
  · -- the caller was a leader in the term of the call, and no candidate afterwards
    have hrole := (hbooks.sent hc hm).role (h.term.symm.trans hterm)
    exact absurd hcand hrole.1
  · exact absurd hack (hnone new hnew)

end Step

/-! ## Runs -/

/-- What is known of the calls in flight: a call that still counts builds on what its server
knows or above, and a rejection of it comes from a peer that has what the server knows. -/
structure Answers (w : Cluster n C) (a : AbsState n C) : Prop where
  spent : ∀ c ∈ w.calls, ∃ wk, w.workers[c.worker]? = some wk ∧ wk.pc.Spent
  asked : ∀ m dst args, Call.entries m dst args ∈ w.calls →
    ∀ wk, w.workers[m]? = some wk → w.Counts m wk.src dst args.term →
      (w.peers wk.src).matchIndex dst ≤ args.prevLogIndex
  rejected : ∀ m dst args reply, Response.appendEntries m dst args reply ∈ w.responses →
    reply.success = false → reply.term ≤ args.term →
    ∀ wk, w.workers[m]? = some wk → w.Counts m wk.src dst args.term →
      Rejected a args reply ((w.peers wk.src).matchIndex dst)

namespace Answers

variable {w w' : Cluster n C} {a a' : AbsState n C} {act : Action n C}

theorem init : Answers (init : Cluster n C) (State.init 0) where
  spent := by simp [calls, Cluster.init]
  asked := by simp [calls, Cluster.init]
  rejected := by simp [Cluster.init]

/-- Every rejection that is read in time points above what its reader knows. -/
theorem ahead (h : Answers w a) (href : Refines w a)
    (hok : Timely w act) : GoesBackAbove w act := by
  intro r hr
  cases r with
  | appendEntries m dst args reply =>
      intro wk hm hlead hterm hle hfail
      have hfresh := hok.fresh _ hr wk hm hlead hterm hle hfail
      have hsearch := hok.searched _ hr wk hm hlead hterm hle hfail
      have hmem : Response.appendEntries m dst args reply ∈ w.responses := by
        cases act with
        | receive k => exact List.mem_of_getElem? hr
        | _ => cases hr
      have hrej := h.rejected m dst args reply hmem hfail hle wk hm ⟨hlead, hterm, hfresh⟩
      obtain ⟨b, hc, -⟩ := (href.peers wk.src).base
      rw [href.log_eq_tlog hlead, hterm] at hc
      exact hrej.lt_nextAfter href.inv href.positive hc hsearch
  | _ => trivial

theorem spent_of_step (h : Answers w a) (hs : w.step act = some w') :
    ∀ c ∈ w'.calls, ∃ wk, w'.workers[c.worker]? = some wk ∧ wk.pc.Spent := by
  intro c hc
  rcases calls_of_step hs hc with hold | hmakes
  · obtain ⟨wk, hwk, hspent⟩ := h.spent c hold
    obtain ⟨wk', hwk', -, hkeep⟩ := worker_of_step hs hwk
    exact ⟨wk', hwk', hkeep hspent⟩
  · obtain ⟨wk, hwk, hpc⟩ := hmakes.waits
    exact ⟨wk, hwk, .inl hpc⟩

/-- A call that was in flight and counts has counted before the step. -/
theorem before (h : Answers w a) (hbooks : Books w) (hs : w.step act = some w') {c : Call n C}
    (hc : c ∈ w.calls) {wk' : Worker n} (hm : w'.workers[c.worker]? = some wk') {p : Fin n}
    (hcounts : w'.Counts c.worker wk'.src p c.term) :
    ∃ wk, w.workers[c.worker]? = some wk ∧ w.Counts c.worker wk.src p c.term ∧
      (w'.peers wk'.src).matchIndex p = (w.peers wk.src).matchIndex p := by
  obtain ⟨wk, hwk, hspent⟩ := h.spent c hc
  obtain ⟨wk₁, hwk₁, hsrc, -⟩ := worker_of_step hs hwk
  rw [hm] at hwk₁
  cases hwk₁
  rw [hsrc] at hcounts ⊢
  exact ⟨wk, hwk, hcounts.before hbooks hs hc hwk hspent⟩

theorem asked_of_step (h : Answers w a) (hbooks : Books w) (habove : ∀ i, (w.peers i).Above)
    (hs : w.step act = some w') :
    ∀ m dst args, Call.entries m dst args ∈ w'.calls → ∀ wk, w'.workers[m]? = some wk →
      w'.Counts m wk.src dst args.term → (w'.peers wk.src).matchIndex dst ≤ args.prevLogIndex := by
  intro m dst args hc wk' hm hcounts
  rcases calls_of_step hs hc with hold | hmakes
  · obtain ⟨wk, hwk, hcounts, hmatch⟩ := h.before hbooks hs hold hm hcounts
    rw [hmatch]
    exact h.asked m dst args hold wk hwk hcounts
  · cases act with
    | worker k =>
        obtain ⟨wk, hwk, ⟨-, args', hargs, heq⟩ | ⟨-, args', -, heq⟩⟩ := hmakes.sends
        · cases heq
          obtain ⟨wk₁, hwk₁, hsrc, -⟩ := worker_of_step hs hwk
          rw [hm] at hwk₁
          cases hwk₁
          obtain ⟨hlead, -, -, rfl⟩ := Peer.heartbeatWorker_sendEntries hargs
          have hlt := habove wk.src hlead wk.peer
          rw [hmakes.peers, hsrc]
          show _ ≤ (w.peers wk.src).nextIndex wk.peer - 1
          omega
        · cases heq
    | _ => exact hmakes.sends.elim

/-- The receiver has what the caller knows it to have, as it has followed no later term. -/
theorem rejected_of_delivery (h : Answers w a) (href : Refines w a) (ht : Truthful w a)
    {k m : Nat} {dst : Fin n} {args : AppendEntriesArgs n C} {wk : Worker n}
    (hk : w.requests[k]? = some (.appendEntries m dst args))
    (hfail : ((w.peers dst).appendEntries args).2.success = false)
    (hle : ¬ args.term < (w.peers dst).currentTerm) (hm : w.workers[m]? = some wk)
    (hne : wk.src ≠ dst) (hcounts : w.Counts m wk.src dst args.term) :
    Rejected a args ((w.peers dst).appendEntries args).2
      ((w.peers wk.src).matchIndex dst) := by
  have hprev := h.asked m dst args (mem_calls_of_request hk rfl) wk hm hcounts
  obtain ⟨known, hknown, hlen, hbacks⟩ := ht wk.src hcounts.lead dst hne.symm
  rw [hcounts.term] at hlen hbacks
  obtain ⟨hlead, p, c, hslice, -⟩ := href.requests _ (List.mem_of_getElem? hk)
  obtain ⟨b, hc, hb⟩ := (href.peers dst).base
  have hbase := href.agree_base hb hc.le (not_lt.mp hle) hlead.1
  cases hreply : ((w.peers dst).follow args.term).matchPrevLog args with
  | none =>
      rw [Peer.appendEntries_of_none hle hreply] at hfail
      cases hfail
  | some reply =>
      rw [Peer.appendEntries_of_some hle hreply]
      have hlog := (hbacks (by rw [href.cur_eq]; omega)).1
      have hprevp := hslice.prev
      exact ⟨_, a.log dst, b, p, known, hc.follow args.term, href.inv.sound_log dst, hslice, hreply,
        hbase, hknown, by omega, agree_of_isPrefix hlen hlog⟩

theorem rejected_of_step (h : Answers w a) (hbooks : Books w) (href : Refines w a)
    (ht : Truthful w a) (hs : w.step act = some w') (hext : a.Ext a') :
    ∀ m dst args reply, Response.appendEntries m dst args reply ∈ w'.responses →
      reply.success = false → reply.term ≤ args.term → ∀ wk, w'.workers[m]? = some wk →
      w'.Counts m wk.src dst args.term →
      Rejected a' args reply ((w'.peers wk.src).matchIndex dst) := by
  intro m dst args reply hr hfail hterm wk' hm hcounts
  rcases answer_of_step hs hr with hold | ⟨k, hk, hreply, rfl⟩
  · have hc : Call.entries m dst args ∈ w.calls := mem_calls.mpr (.inr ⟨_, hold, rfl⟩)
    obtain ⟨wk, hwk, hcounts, hmatch⟩ := h.before hbooks hs hc hm hcounts
    rw [hmatch]
    exact (h.rejected m dst args reply hold hfail hterm wk hwk hcounts).mono hext
  · have hle : ¬ args.term < (w.peers dst).currentTerm := by
      intro hlt
      rw [hreply, Peer.appendEntries, if_pos hlt] at hterm
      exact absurd hterm (not_le.mpr hlt)
    -- the receiver follows, so it is not the leader that has called
    have hne : wk'.src ≠ dst := by
      intro heq
      have hlead := hcounts.lead
      rw [heq] at hlead
      have hpeer : Function.update w.peers dst ((w.peers dst).appendEntries args).1 dst =
        ((w.peers dst).appendEntries args).1 := Function.update_self ..
      have hfollow := Peer.appendEntries_status hle
      rw [← hpeer] at hfollow
      exact absurd (hlead.symm.trans hfollow) (by decide)
    have hpeer : Function.update w.peers dst ((w.peers dst).appendEntries args).1 wk'.src =
      w.peers wk'.src := Function.update_of_ne hne _ _
    have hlead : (Function.update w.peers dst ((w.peers dst).appendEntries args).1 wk'.src).status =
      .leader := hcounts.lead
    have hcur : (Function.update w.peers dst ((w.peers dst).appendEntries args).1
      wk'.src).currentTerm = args.term := hcounts.term
    show Rejected a' args reply
      ((Function.update w.peers dst ((w.peers dst).appendEntries args).1 wk'.src).matchIndex dst)
    rw [hpeer] at hlead hcur ⊢
    rw [hreply] at hfail ⊢
    exact (h.rejected_of_delivery href ht hk hfail hle hm hne
      ⟨hlead, hcur, hcounts.fresh⟩).mono hext

end Answers

/-- The cluster refines a replicated log, and what its leaders know is true and below what
they send next. -/
structure Informed (w : Cluster n C) (a : AbsState n C) : Prop where
  refines : Refines w a
  acks : a.AcksBacked (majority n)
  truthful : Truthful w a
  books : Books w
  above : ∀ i, (w.peers i).Above
  answers : Answers w a

theorem informed_init : Informed (init : Cluster n C) (State.init 0) where
  refines := refines_init
  acks := .init 0
  truthful := by
    intro i hlead
    cases hlead
  books := .init
  above := by
    intro i hlead
    cases hlead
  answers := .init

theorem Informed.step {w w' : Cluster n C} {a : AbsState n C} {act : Action n C}
    (h : Informed w a) (hok : Timely w act) (hs : w.step act = some w') :
    ∃ a', Informed w' a' := by
  obtain ⟨a', hsteps, href⟩ := h.refines.step hok.abreast.safe hs
  have hext := (h.refines.inv.steps hsteps).2
  exact ⟨a', href, h.acks.steps h.refines.inv hsteps,
    h.truthful.step h.refines h.acks hok.abreast.elects hs hsteps href,
    h.books.step hs, h.books.above_of_step h.above (h.answers.ahead h.refines hok) hs,
    h.answers.spent_of_step hs, h.answers.asked_of_step h.books h.above hs,
    h.answers.rejected_of_step h.books h.refines h.truthful hs hext⟩

theorem informed_of_path {w : Cluster n C} (h : Run.Path step Timely init w) :
    ∃ a, Informed w a :=
  h.invariant (P := fun w => ∃ a, Informed w a) (fun _ _ _ ⟨_, ha⟩ hok hs => ha.step hok hs)
    ⟨_, informed_init⟩

/-- In every timely run a leader's next indices are above what it knows.  In every run they
are not beyond its log, and what it knows does not fall while it leads the term. -/
theorem progress_bookkeeping {w : Cluster n C} {i : Fin n}
    (hlead : (w.peers i).status = .leader) :
    (Run.Path step Timely init w → ∀ p, (w.peers i).matchIndex p < (w.peers i).nextIndex p) ∧
    (Run.Path step Run.always init w →
      ∀ p, (w.peers i).nextIndex p ≤ (w.peers i).lastLogIndex + 1) ∧
    (Run.Path step Run.always init w → ∀ w', Run.Path step Run.always w w' →
      (w'.peers i).status = .leader → (w'.peers i).currentTerm = (w.peers i).currentTerm →
      ∀ p, (w.peers i).matchIndex p ≤ (w'.peers i).matchIndex p) := by
  refine ⟨fun h p => ?_, fun h p => ?_, fun h w' h' hlead' hterm p => ?_⟩
  · obtain ⟨a, ha⟩ := informed_of_path h
    exact ha.above i hlead p
  · exact ((Books.init.path h).kept i hlead p).2.2
  · have hled : (w.peers i).HasLed (w.peers i).currentTerm p ((w.peers i).matchIndex p) :=
      .inr ⟨rfl, .inr ⟨hlead, le_refl _⟩⟩
    rcases hasLed_of_path h h' hled with hlt | ⟨-, hfollow | ⟨-, hle⟩⟩
    · omega
    · rw [hlead'] at hfollow
      cases hfollow
    · exact hle

/-- The first rejection makes peer 0 go back, and then it replicates everything to
peer 1. -/
def caughtUp : List (Action 3 Nat) :=
  rejectedTwice ++
    [.receive 0, .start 0 (some 9), .sendHeartbeat 2, .worker 6, .deliver 2, .receive 1]

theorem progress_bookkeeping_caughtUp : ∃ w : Cluster 3 Nat, Run.Path step Timely init w ∧
    (w.peers 0).matchIndex 1 = 3 ∧ (w.peers 0).lastLogIndex = 3 ∧
    (w.peers 0).nextIndex 1 = 4 := by
  have hrun : (Run.exec step Timely (init : Cluster 3 Nat) caughtUp).map (fun w =>
      ((w.peers 0).status, (w.peers 0).matchIndex 1, (w.peers 0).lastLogIndex)) =
      some (.leader, 3, 3) := by
    decide +kernel
  obtain ⟨w, hpath, hend⟩ := Run.path_of_exec_map caughtUp _ hrun
  simp only [Prod.mk.injEq] at hend
  obtain ⟨hlead, hmatch, hlast⟩ := hend
  obtain ⟨habove, hwithin, -⟩ := progress_bookkeeping hlead
  have hlt := habove hpath 1
  have hle := hwithin (hpath.mono fun _ _ _ => trivial) 1
  exact ⟨w, hpath, hmatch, hlast, by omega⟩

/-- Then the second rejection arrives, and peer 0 goes back to an entry that it knows
peer 1 to have. -/
theorem rejection_behind_match : ∃ w : Cluster 3 Nat, Run.Path step Ordered init w ∧
    (w.peers 0).status = .leader ∧ (w.peers 0).matchIndex 1 = 3 ∧
    (w.peers 0).nextIndex 1 = 2 := by
  have hrun : (Run.exec step Ordered (init : Cluster 3 Nat) (caughtUp ++ [.receive 0])).map
      (fun w => ((w.peers 0).status, (w.peers 0).matchIndex 1, (w.peers 0).nextIndex 1)) =
      some (.leader, 3, 2) := by
    decide +kernel
  obtain ⟨w, hpath, hend⟩ := Run.path_of_exec_map (caughtUp ++ [.receive 0]) _ hrun
  simp only [Prod.mk.injEq] at hend
  exact ⟨w, hpath, hend⟩

/-- A request reaches peer 1 when it has compacted the entry that the request builds on. -/
def compactedAhead : List (Action 3 Nat) :=
  -- peer 0 leads, peer 1 has entry 1 and peer 0 knows it
  [.tick 0 400 200, .deliver 0, .receive 0, .start 0 (some 7), .sendHeartbeat 0, .worker 0,
   .deliver 1, .receive 0,
   -- entry 2 is sent to both others, and the answer of peer 2 commits it
   .start 0 (some 8), .sendHeartbeat 0, .worker 2, .worker 3, .deliver 2, .receive 0,
   -- peer 1 has entry 2 from a second request, which also says that it is committed
   .sendHeartbeat 0, .worker 4, .deliver 2, .apply 1, .send 1, .send 1, .snapshot 1 2 [2],
   -- now it gets the first one
   .deliver 1, .receive 1]

/-- Peer 0 has no snapshot and starts again from entry 1, though it has read no success
meanwhile. -/
theorem compactedAhead_behind_match : ∃ w : Cluster 3 Nat,
    Run.Path step (fun w act => Ordered w act ∧ Abreast w act ∧ ReadsFresh w act) init w ∧
    (w.peers 0).status = .leader ∧ (w.peers 0).matchIndex 1 = 1 ∧
    (w.peers 0).nextIndex 1 = 1 := by
  have hrun : (Run.exec step (fun w act => Ordered w act ∧ Abreast w act ∧ ReadsFresh w act)
      (init : Cluster 3 Nat) compactedAhead).map (fun w =>
        ((w.peers 0).status, (w.peers 0).matchIndex 1, (w.peers 0).nextIndex 1)) =
      some (.leader, 1, 1) := by
    decide +kernel
  obtain ⟨w, hpath, hend⟩ := Run.path_of_exec_map compactedAhead _ hrun
  simp only [Prod.mk.injEq] at hend
  exact ⟨w, hpath, hend⟩

/-- A leader compacts more than it knows peer 1 to have while a rejection is in flight. -/
def compactedBeyond : List (Action 3 Nat) :=
  -- peer 1 leads term 1 and has entry 1 committed everywhere, and a second one that only it has
  [.tick 1 400 200, .deliver 0, .receive 0, .start 1 (some 7), .sendHeartbeat 0, .worker 0,
   .worker 1, .deliver 1, .deliver 1, .receive 0, .receive 0, .sendHeartbeat 0, .worker 2,
   .deliver 1, .start 1 (some 8),
   -- peer 0 compacts entry 1, has another second entry from term 2, and leads term 3
   .apply 0, .send 0, .snapshot 0 1 [1], .tick 0 400 200, .deliver 2, .receive 1,
   .start 0 (some 9), .crash 0, .tick 0 400 200, .deliver 3, .receive 1,
   -- peer 1 rejects its second entry; peer 2 gets the log, which is committed
   .sendHeartbeat 3, .worker 4, .worker 5, .deliver 3, .deliver 3, .receive 2,
   .start 0 (some 10), .sendHeartbeat 3, .worker 7, .deliver 3, .receive 2,
   -- with its second entry compacted, peer 0 has nothing of term 1 and goes where peer 1 points
   .apply 0, .send 0, .send 0, .snapshot 0 2 [2], .receive 1]

theorem compactedBeyond_behind_match : ∃ w : Cluster 3 Nat,
    Run.Path step (fun w act => Ordered w act ∧ Abreast w act ∧ ReadsFresh w act) init w ∧
    (w.peers 0).status = .leader ∧ (w.peers 0).matchIndex 1 = 1 ∧
    (w.peers 0).nextIndex 1 = 1 := by
  have hrun : (Run.exec step (fun w act => Ordered w act ∧ Abreast w act ∧ ReadsFresh w act)
      (init : Cluster 3 Nat) compactedBeyond).map (fun w =>
        ((w.peers 0).status, (w.peers 0).matchIndex 1, (w.peers 0).nextIndex 1)) =
      some (.leader, 1, 1) := by
    decide +kernel
  obtain ⟨w, hpath, hend⟩ := Run.path_of_exec_map compactedBeyond _ hrun
  simp only [Prod.mk.injEq] at hend
  exact ⟨w, hpath, hend⟩

end Cluster
end Raft
end Labs
