import Labs.Raft.Apply

/-!
# Runs without snapshots

If no service ever calls `Snapshot`, no peer compacts its log and no snapshot is ever
sent, so that every step meets the conditions of the refinement.  The safety properties
of Raft then hold of the cluster as it is: logs match, a leader has whatever was
committed before its term, and all servers deliver the same commands at the same indices.
-/

namespace Labs
namespace Raft
namespace Cluster

open Consensus

variable {n : Nat} {C : Type}

def NeverSnapshots (_ : Cluster n C) : Action n C → Prop
  | .snapshot .. => False
  | _ => True

instance (w : Cluster n C) : (act : Action n C) → Decidable (NeverSnapshots w act)
  | .snapshot .. => isFalse id
  | .tick .. | .start .. | .worker .. | .sendHeartbeat .. | .deliver .. | .receive ..
  | .callFails .. | .voteFails .. | .apply .. | .send .. | .crash .. => isTrue trivial

/-- No trace of a snapshot, in any peer, on the network or on a channel; without one no
peer forgets its vote. -/
structure Uncompacted (w : Cluster n C) : Prop where
  index : ∀ i, (w.peers i).lastIncludedIndex = 0
  flag : ∀ i, (w.peers i).applySnapshot = false
  requests : ∀ m dst args, Request.installSnapshot m dst args ∉ w.requests
  loaded : ∀ i inc, w.loaded i inc = 0
  messages : w.Carries fun msg => msg.snapshotValid = false
  remembers : w.Remembers

/-- A snapshot on the network was there before or comes from a peer that has one to send. -/
theorem installSnapshot_of_step {w w' : Cluster n C} {act : Action n C}
    (hs : w.step act = some w') {m : Nat} {dst : Fin n} {args : InstallSnapshotArgs n}
    (hr : Request.installSnapshot m dst args ∈ w'.requests) :
    .installSnapshot m dst args ∈ w.requests ∨
      ∃ i peer, (w.peers i).installSnapshotArgs peer = some args := by
  cases trans_of_step hs with
  | tickHeartbeat i elapsed timeout hlead => exact .inl hr
  | tickElection i elapsed timeout hnot hn =>
      rw [startElection_requests] at hr
      rcases List.mem_append.mp hr with hold | hnew
      · exact .inl hold
      · obtain ⟨p, -, hp⟩ := List.mem_map.mp hnew
        cases hp
  | tickIdle i elapsed timeout => exact .inl hr
  | start i command =>
      rw [goHeartbeat_requests] at hr
      exact .inl hr
  | snapshot i index data => exact .inl hr
  | heartbeatRun k i inc hk hinc hlead => exact .inl hr
  | heartbeatQuit k => exact .inl hr
  | workerMoves k wk pc hk hinc hpc => exact .inl hr
  | workerEntries k wk args' hk hinc hpc hargs =>
      rcases List.mem_append.mp hr with hold | hnew
      · exact .inl hold
      · cases List.mem_singleton.mp hnew
  | workerFlag k wk flag pc hk hinc hpc => exact .inl hr
  | workerSnapshot k wk args' hk hinc hpc hargs =>
      rcases List.mem_append.mp hr with hold | hnew
      · exact .inl hold
      · cases List.mem_singleton.mp hnew
        exact .inr ⟨_, _, hargs⟩
  | deliverVote k e dst' args' hk => exact .inl (List.mem_of_mem_eraseIdx hr)
  | deliverEntries k m' dst' args' hk => exact .inl (List.mem_of_mem_eraseIdx hr)
  | deliverSnapshot k m' dst' args' hk => exact .inl (List.mem_of_mem_eraseIdx hr)
  | receiveVote k e dst' args' reply el rf votes started hk hel hinc hwait hreply =>
      rw [readVote_requests] at hr
      exact .inl hr
  | receiveEntries k m' dst' args' reply wk hk hm hinc hpc => exact .inl hr
  | receiveSnapshot k m' dst' args' reply wk hk hm hinc hpc => exact .inl hr
  | callFails k wk hk hinc hpc => exact .inl hr
  | voteFails e peer el hel => exact .inl hr
  | apply i rf msgs hsend happly => exact .inl hr
  | send i msg rest hsend => exact .inl hr
  | crash i => exact .inl hr

namespace Uncompacted

variable {w w' : Cluster n C} {a : AbsState n C} {act : Action n C}

theorem init : Uncompacted (init : Cluster n C) where
  index := fun _ => rfl
  flag := fun _ => rfl
  requests := by simp [Cluster.init]
  loaded := fun _ _ => rfl
  messages := carries_init _
  remembers := .init

theorem not_delivered (h : Uncompacted w) {m : Nat} {dst : Fin n} {args : InstallSnapshotArgs n} :
    Request.installSnapshot m dst args ∉ w.delivered act := by
  intro hr
  cases act with
  | deliver k => exact h.requests m dst args (List.mem_of_getElem? hr)
  | _ => cases hr

theorem keepsVote (h : Uncompacted w) (act : Action n C) : KeepsVote w act := by
  intro r hr
  cases r with
  | installSnapshot m dst args => exact absurd hr h.not_delivered
  | _ => trivial

/-- Without snapshots there is nothing to meet. -/
theorem ordered (h : Uncompacted w) (href : Refines w a) (hok : NeverSnapshots w act) :
    Ordered w act where
  vote := h.remembers.votesOnce act
  placeholder := by
    cases act with
    | worker k =>
        intro wk hk hpc hlead hrep heq
        have hnext := ((href.peers wk.src).next hlead wk.peer).1
        have hindex := h.index wk.src
        omega
    | _ => trivial
  received := by
    cases act with
    | snapshot i index data => exact hok.elim
    | _ => trivial
  ahead := by
    intro r hr
    cases r with
    | installSnapshot m dst args => exact absurd hr h.not_delivered
    | _ => trivial

/-- A leader's next indices are positive, so no peer needs a snapshot. -/
theorem no_installSnapshot (h : Uncompacted w) (href : Refines w a)
    (hs : w.step act = some w') (m : Nat) (dst : Fin n) (args : InstallSnapshotArgs n) :
    Request.installSnapshot m dst args ∉ w'.requests := by
  intro hr
  rcases installSnapshot_of_step hs hr with hold | ⟨i, peer, hargs⟩
  · exact h.requests m dst args hold
  · unfold Peer.installSnapshotArgs at hargs
    split at hargs
    · cases hargs
    · next hlead =>
        split at hargs
        · cases hargs
        · next hneed =>
            have hnext := ((href.peers i).next (not_not.mp hlead) peer).1
            have hindex := h.index i
            omega

/-- A round finds no snapshot to deliver. -/
theorem applyCommitted (h : Uncompacted w) (hd : Delivers w a) {i : Fin n} {rf : Peer n C}
    {msgs : List (ApplyMsg C)} (happly : (w.peers i).applyCommitted = some (rf, msgs)) :
    rf.lastIncludedIndex = 0 ∧ rf.applySnapshot = false ∧
      ∀ msg ∈ msgs, msg.snapshotValid = false := by
  obtain ⟨b, hc, -⟩ := (hd.refines.peers i).base
  rcases hc.applyCommitted (hd.refines.commitIndex_le i) (hd.applied.peers i).covered happly with
    ⟨hflag, -, -⟩ | ⟨-, rfl, k, m, -, -, rfl⟩
  · rw [h.flag i] at hflag
    cases hflag
  · refine ⟨h.index i, h.flag i, fun msg hm => ?_⟩
    obtain ⟨_, _, -, rfl⟩ := mem_commands hm
    rfl

theorem step (h : Uncompacted w) (hd : Delivers w a) (hok : NeverSnapshots w act)
    (hs : w.step act = some w') : Uncompacted w' := by
  have hreq := h.no_installSnapshot hd.refines hs
  have hmsgs := h.messages.step hs fun happly => (h.applyCommitted hd happly).2.2
  have hrem := h.remembers.step (h.keepsVote act) hs
  -- one peer moves and has no more of a snapshot than it had
  have hpeers : ∀ {i : Fin n} {rf : Peer n C}, rf.lastIncludedIndex = 0 →
      rf.applySnapshot = false → (∀ j, (Function.update w.peers i rf j).lastIncludedIndex = 0) ∧
        ∀ j, (Function.update w.peers i rf j).applySnapshot = false := by
    intro i rf hindex hflag
    exact ⟨(Function.forall_update_iff w.peers (p := fun _ rf => rf.lastIncludedIndex = 0)).mpr
        ⟨hindex, fun j _ => h.index j⟩,
      (Function.forall_update_iff w.peers (p := fun _ rf => rf.applySnapshot = false)).mpr
        ⟨hflag, fun j _ => h.flag j⟩⟩
  cases applyTrans_of_step hs with
  | quiet hq =>
      refine ⟨fun i => ?_, fun i => ?_, hreq, ?_, hmsgs, hrem⟩
      · rw [(hq.peers i).index]
        exact h.index i
      · rw [(hq.peers i).flag]
        exact h.flag i
      · rw [hq.loaded]
        exact h.loaded
  | snapshot i index data => exact hok.elim
  | install k m dst args hk => exact absurd (List.mem_of_getElem? hk) (h.requests m dst args)
  | apply i rf msgs hsend happly =>
      obtain ⟨hzero, hno, -⟩ := h.applyCommitted hd happly
      obtain ⟨hindex, hflag⟩ := hpeers (i := i) hzero hno
      exact ⟨hindex, hflag, hreq, h.loaded, hmsgs, hrem⟩
  | send i msg rest hsend => exact ⟨h.index, h.flag, hreq, h.loaded, hmsgs, hrem⟩
  | crash i =>
      have hmake : (Peer.make i (w.peers i).persister).lastIncludedIndex = 0 := by
        obtain ⟨-, -, -, hsaved, -⟩ := hd.refines.votes.saved i
        rw [hd.refines.votes.me i] at hsaved
        rw [hsaved]
        exact h.index i
      obtain ⟨hindex, hflag⟩ := hpeers (i := i) hmake (Peer.make_applySnapshot i _)
      refine ⟨hindex, hflag, hreq, ?_, hmsgs, hrem⟩
      refine (Function.forall_update_iff w.loaded (p := fun _ l => ∀ inc, l inc = 0)).mpr
        ⟨?_, fun j _ => h.loaded j⟩
      exact (Function.forall_update_iff (w.loaded i) (p := fun _ l => l = 0)).mpr
        ⟨hmake, fun inc _ => h.loaded i inc⟩

/-- A run without snapshots delivers what the replicated log has committed. -/
theorem path (h : Uncompacted w) (hd : Delivers w a)
    (hp : Run.Path Cluster.step NeverSnapshots w w') :
    ∃ a', State.Steps (majority n) a a' ∧ Delivers w' a' ∧ Uncompacted w' := by
  refine hp.simulates (R := fun w a => Delivers w a ∧ Uncompacted w) ?_ ⟨hd, h⟩
  intro w a act w' ⟨hd, h⟩ hok hs
  obtain ⟨a', hsteps, hd'⟩ := hd.step (h.ordered hd.refines hok) hs
  exact ⟨a', hsteps, hd', h.step hd hok hs⟩

end Uncompacted

/-! ## The commands delivered -/

theorem getElem?_of_inOrder {last : Int} {msgs : List (ApplyMsg C)} (h : InOrder last msgs)
    (hcmd : ∀ msg ∈ msgs, msg.snapshotValid = false) {k : Nat} {msg : ApplyMsg C}
    (hk : msgs[k]? = some msg) : msg.commandValid = true ∧ msg.commandIndex = last + k + 1 := by
  induction msgs generalizing last k with
  | nil => cases hk
  | cons first rest ih =>
      have hfirst : first.commandValid = true ∧ first.commandIndex = last + 1 := by
        rcases h.1 with ⟨hs, -⟩ | ⟨-, hvalid, hindex⟩
        · rw [hcmd first List.mem_cons_self] at hs
          cases hs
        · exact ⟨hvalid, hindex⟩
      cases k with
      | zero =>
          cases hk
          simpa using hfirst
      | succ k =>
          have hlast : first.index = last + 1 := by
            rw [ApplyMsg.index, hcmd first List.mem_cons_self]
            exact hfirst.2
          obtain ⟨hvalid, hindex⟩ := ih h.2 (fun m hm => hcmd m (List.mem_cons_of_mem _ hm))
            (by simpa using hk)
          refine ⟨hvalid, ?_⟩
          rw [hindex, hlast]
          push_cast
          omega

/-- State machine safety: every incarnation delivers commands with the indices 1, 2, 3
and so on, and all incarnations of all servers the same command at each index. -/
theorem delivered_agree {w : Cluster n C} (h : Run.Path step NeverSnapshots init w) :
    (∀ i inc (k : Nat) msg, (w.applyCh i inc)[k]? = some msg →
      msg.commandValid = true ∧ msg.snapshotValid = false ∧ msg.commandIndex = k + 1) ∧
    ∀ i inc j inc' msg msg', msg ∈ w.applyCh i inc → msg' ∈ w.applyCh j inc' →
      msg.commandIndex = msg'.commandIndex → msg.command = msg'.command := by
  obtain ⟨a, -, hd, hun⟩ := Uncompacted.init.path delivers_init h
  constructor
  · intro i inc k msg hk
    have hcmd := hun.messages.applyCh i inc
    have horder := hd.applied.past i inc
    rw [hun.loaded] at horder
    obtain ⟨hvalid, hindex⟩ := getElem?_of_inOrder horder hcmd hk
    exact ⟨hvalid, hcmd msg (List.mem_of_getElem? hk), by omega⟩
  · intro i inc j inc' msg msg' hm hm' hindex
    exact (hd.agreed.applyCh i inc msg hm).command_eq hd.refines.inv
      (hd.agreed.applyCh j inc' msg' hm') (hun.messages.applyCh i inc msg hm)
      (hun.messages.applyCh j inc' msg' hm') hindex

/-- Peer 0 commits a command with peer 1, and both deliver it. -/
def bothDeliver : List (Action 3 Nat) :=
  elected ++ replicated ++
    [.apply 0, .send 0, .sendHeartbeat 0, .worker 2, .deliver 1, .apply 1, .send 1]

set_option maxRecDepth 100000 in
theorem bothDeliver_agree : ∃ w : Cluster 3 Nat, Run.Path step NeverSnapshots init w ∧
    (w.applyCh 0 0).map ApplyMsg.command = [some 7] ∧
    ∀ msg ∈ w.applyCh 0 0, ∀ msg' ∈ w.applyCh 1 0, msg.commandIndex = msg'.commandIndex →
      msg.command = msg'.command :=
  ⟨_, Run.path_of_exec bothDeliver rfl, by decide, fun msg hm msg' hm' =>
    (delivered_agree (Run.path_of_exec bothDeliver rfl)).2 0 0 1 0 msg msg' hm hm'⟩

/-! ## The logs -/

/-- The log of a peer is a log of the abstract state behind the placeholder. -/
theorem Uncompacted.getElem?_log {w : Cluster n C} {a : AbsState n C} (h : Uncompacted w)
    (href : Refines w a) (i : Fin n) (k : Nat) :
    (w.peers i).log[k + 1]? = (a.log i)[k]? := by
  obtain ⟨b, hc, -⟩ := (href.peers i).base
  have hindex := hc.index
  rw [h.index i] at hindex
  rw [hc.getElem?, show b + k = k by omega]

/-- Log matching, and the terms of a log are sorted and not ahead of the peer's. -/
theorem logs_match {w : Cluster n C} (h : Run.Path step NeverSnapshots init w) :
    (∀ i j (k : Nat) e e', 1 ≤ k → (w.peers i).log[k]? = some e →
      (w.peers j).log[k]? = some e' → e.term = e'.term →
      ∀ m, 1 ≤ m → m ≤ k → (w.peers i).log[m]? = (w.peers j).log[m]?) ∧
    ∀ i (k : Nat) e, 1 ≤ k → (w.peers i).log[k]? = some e →
      e.term ≤ (w.peers i).currentTerm ∧
      ∀ (m : Nat) d, 1 ≤ m → m ≤ k → (w.peers i).log[m]? = some d → d.term ≤ e.term := by
  obtain ⟨a, -, hd, hun⟩ := Uncompacted.init.path delivers_init h
  have hlog := hun.getElem?_log hd.refines
  have hinv := hd.refines.inv
  constructor
  · intro i j k e e' hk he he' hterm m hm hmk
    obtain ⟨k, rfl⟩ : ∃ k', k = k' + 1 := ⟨k - 1, by omega⟩
    obtain ⟨m, rfl⟩ : ∃ m', m = m' + 1 := ⟨m - 1, by omega⟩
    rw [hlog] at he he'
    have htake := (hinv.sound_log i).take_eq (hinv.sound_log j) he he' hterm
    rw [hlog, hlog, ← List.getElem?_take_of_lt (show m < k + 1 by omega), htake,
      List.getElem?_take_of_lt (by omega)]
  · intro i k e hk he
    obtain ⟨k, rfl⟩ : ∃ k', k = k' + 1 := ⟨k - 1, by omega⟩
    rw [hlog] at he
    refine ⟨?_, fun m d hm hmk hdm => ?_⟩
    · rw [← hd.refines.cur_eq]
      exact hinv.term_log (List.mem_of_getElem? he)
    · obtain ⟨m, rfl⟩ : ∃ m', m = m' + 1 := ⟨m - 1, by omega⟩
      rw [hlog] at hdm
      exact hinv.term_le (hinv.sound_log i) (by omega) hdm he

set_option maxRecDepth 100000 in
theorem bothDeliver_logs_match : ∃ (w : Cluster 3 Nat) (e e' : LogEntry Nat),
    Run.Path step NeverSnapshots init w ∧ (w.peers 0).log[1]? = some e ∧
    (w.peers 1).log[1]? = some e' ∧ (w.peers 0).log[1]? = (w.peers 1).log[1]? :=
  ⟨_, _, _, Run.path_of_exec bothDeliver rfl, rfl, rfl,
    (logs_match (Run.path_of_exec bothDeliver rfl)).1 0 1 1 _ _ (by decide) rfl rfl rfl 1
      (by decide) (by decide)⟩

/-- What one peer has committed is in the log of another, if the abstract logs say so. -/
theorem Uncompacted.committed_log {w w' : Cluster n C} {a a' : AbsState n C} {i j : Fin n}
    (h : Uncompacted w) (href : Refines w a) (h' : Uncompacted w') (href' : Refines w' a')
    (hpre : (a.log i).take (a.commit i) <+: a'.log j) (m : Nat) (hm : 1 ≤ m)
    (hcommit : m ≤ (w.peers i).commitIndex) :
    ∃ e, (w.peers i).log[m]? = some e ∧ (w'.peers j).log[m]? = some e := by
  obtain ⟨m, rfl⟩ : ∃ m', m = m' + 1 := ⟨m - 1, by omega⟩
  have hle := href.inv.commit_le i
  rw [(href.peers i).commit] at hcommit
  obtain ⟨e, he⟩ : ∃ e, (a.log i)[m]? = some e := ⟨_, List.getElem?_eq_getElem (by omega)⟩
  obtain ⟨post, hpost⟩ := hpre
  refine ⟨e, by rw [h.getElem?_log href, he], ?_⟩
  rw [h'.getElem?_log href', ← hpost, List.getElem?_append_left (by rw [List.length_take]; omega),
    List.getElem?_take_of_lt (by omega), he]

/-- Leader completeness: what a peer knows to be committed, in particular a leader that has
just moved its commit index, is in the log of every leader of a later term, at any time
of the run. -/
theorem leader_complete {w w' : Cluster n C} {i j : Fin n}
    (hw : Run.Path step NeverSnapshots init w) (hw' : Run.Path step NeverSnapshots init w')
    (hrun : Run.Path step NeverSnapshots w w' ∨ Run.Path step NeverSnapshots w' w)
    (hj : (w'.peers j).status = .leader)
    (hterm : (w.peers i).currentTerm < (w'.peers j).currentTerm) :
    ∀ m : Nat, 1 ≤ m → m ≤ (w.peers i).commitIndex →
      ∃ e, (w.peers i).log[m]? = some e ∧ (w'.peers j).log[m]? = some e := by
  rcases hrun with hafter | hbefore
  · obtain ⟨a, -, hd, hun⟩ := Uncompacted.init.path delivers_init hw
    obtain ⟨a', hsteps, hd', hun'⟩ := hun.path hd hafter
    obtain ⟨hinv', hext⟩ := hd.refines.inv.steps hsteps
    refine hun.committed_log hd.refines hun' hd'.refines ?_
    rw [← hd.refines.cur_eq, ← hd'.refines.cur_eq] at hterm
    rw [hinv'.lead_log (hd'.refines.leads hj)]
    exact hinv'.committedTo_tlog (hext.committedTo hterm.le (hd.refines.inv.commit_ok i))
      (by rw [hd'.refines.leads hj]; simp)
  · obtain ⟨a', -, hd', hun'⟩ := Uncompacted.init.path delivers_init hw'
    obtain ⟨a, hsteps, hd, hun⟩ := hun'.path hd' hbefore
    obtain ⟨hinv, hext⟩ := hd'.refines.inv.steps hsteps
    refine hun.committed_log hd.refines hun' hd'.refines ?_
    rw [← hd.refines.cur_eq, ← hd'.refines.cur_eq] at hterm
    rw [hd'.refines.inv.lead_log (hd'.refines.leads hj)]
    exact hinv.committedTo_tlog_of_ext hext hterm (hinv.commit_ok i)
      (by rw [hd'.refines.leads hj]; simp)

/-- Peer 1 takes over in term 2. -/
def succeeded : List (Action 3 Nat) :=
  [.tick 1 400 200, .deliver 2, .receive 0]

set_option maxRecDepth 100000 in
theorem succeeded_complete : ∃ w w' : Cluster 3 Nat,
    Run.Path step NeverSnapshots init w ∧ Run.Path step NeverSnapshots w w' ∧
    (w.peers 0).status = .leader ∧ (w.peers 0).commitIndex = 1 ∧
    (w'.peers 1).status = .leader ∧ (w.peers 0).currentTerm < (w'.peers 1).currentTerm ∧
    ∃ e, (w.peers 0).log[1]? = some e ∧ (w'.peers 1).log[1]? = some e :=
  ⟨_, _, Run.path_of_exec (elected ++ replicated) rfl, Run.path_of_exec succeeded rfl,
    by decide, by decide, by decide, by decide,
    leader_complete (Run.path_of_exec (elected ++ replicated) rfl)
      ((Run.path_of_exec (elected ++ replicated) rfl).trans (Run.path_of_exec succeeded rfl))
      (.inl (Run.path_of_exec succeeded rfl)) (by decide) (by decide) 1 (by decide)
      (by decide)⟩

end Cluster
end Raft
end Labs
