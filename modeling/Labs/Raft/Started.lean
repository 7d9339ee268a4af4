import Labs.Raft.Section
import Labs.Raft.Uncompacted

/-!
# Where commands come from

An entry is moved between peers, cut off, compacted and restored from a disk, and all
the while its index is only the distance to a placeholder.  `Holds` says of every copy
of an entry that its command meets a condition at the index the copy stands for, and
every step keeps it.  The one entry that is not a command is the placeholder itself,
which a heartbeat may send by mistake.  So whatever is delivered was passed to `Start`
at a leader, which returned the index it is delivered with, or it is nil.
-/

namespace Labs
namespace Raft

variable {n : Nat} {C : Type} {P P' : Int → Option C → Prop}

/-! ## Logs -/

/-- Every entry behind the placeholder meets the condition at the index it stands for. -/
structure HoldsFrom (P : Int → Option C → Prop) (base : Int) (log : List (LogEntry C)) : Prop where
  head : ∃ t, log[0]? = some (placeholder t)
  entry : ∀ (p : Nat) e, log[p + 1]? = some e → P (base + p + 1) e.command

namespace HoldsFrom

variable {base : Int} {log es : List (LogEntry C)}

theorem single (base t : Int) : HoldsFrom P base [(placeholder t : LogEntry C)] where
  head := ⟨t, rfl⟩
  entry := fun p e he => by simp at he

theorem mono (h : HoldsFrom P base log) (hP : ∀ index c, P index c → P' index c) :
    HoldsFrom P' base log where
  head := h.head
  entry := fun p e he => hP _ _ (h.entry p e he)

theorem length_pos (h : HoldsFrom P base log) : 0 < log.length := by
  obtain ⟨t, ht⟩ := h.head
  exact (List.getElem?_eq_some_iff.mp ht).1

/-- The log is cut off behind `m` entries and goes on with others. -/
theorem splice (h : HoldsFrom P base log) {m : Nat} (hm : m + 1 ≤ log.length)
    (hes : ∀ (j : Nat) e, es[j]? = some e → P (base + m + j + 1) e.command) :
    HoldsFrom P base (log.take (m + 1) ++ es) := by
  have hlen : (log.take (m + 1)).length = m + 1 := by
    rw [List.length_take, Nat.min_eq_left hm]
  constructor
  · obtain ⟨t, ht⟩ := h.head
    refine ⟨t, ?_⟩
    rw [List.getElem?_append_left (by omega), List.getElem?_take_of_lt (by omega), ht]
  · intro p e he
    rcases Nat.lt_or_ge p m with hlt | hge
    · rw [List.getElem?_append_left (by omega), List.getElem?_take_of_lt (by omega)] at he
      exact h.entry p e he
    · rw [List.getElem?_append_right (by omega), hlen] at he
      have hP := hes _ e he
      rwa [show base + m + ((p + 1 - (m + 1) : Nat) : Int) + 1 = base + p + 1 by omega] at hP

/-- The first entries are compacted. -/
theorem compact (h : HoldsFrom P base log) (m : Nat) (t : Int) :
    HoldsFrom P (base + m) (placeholder t :: log.drop (m + 1)) := by
  refine ⟨⟨t, rfl⟩, fun p e he => ?_⟩
  rw [List.getElem?_cons_succ, List.getElem?_drop, show m + 1 + p = m + p + 1 by omega] at he
  have hP := h.entry _ e he
  rwa [show base + ((m + p : Nat) : Int) + 1 = base + m + p + 1 by omega] at hP

end HoldsFrom

/-! ## Peers -/

def AppendEntriesArgs.Holds (P : Int → Option C → Prop) (args : AppendEntriesArgs n C) : Prop :=
  ∀ (j : Nat) e, args.entries[j]? = some e → P (args.prevLogIndex + j + 1) e.command

namespace Peer

abbrev Holds (P : Int → Option C → Prop) (rf : Peer n C) : Prop :=
  HoldsFrom P rf.lastIncludedIndex rf.log

namespace Holds

variable {rf rf' : Peer n C}

theorem of_eq (h : rf.Holds P) (hindex : rf'.lastIncludedIndex = rf.lastIncludedIndex)
    (hlog : rf'.log = rf.log) : rf'.Holds P := by
  unfold Holds
  rw [hindex, hlog]
  exact h

theorem same (h : rf.Holds P) (hsame : SameLog rf rf') : rf'.Holds P :=
  h.of_eq hsame.index hsame.log

theorem start (h : rf.Holds P) {command : Option C}
    (hnew : rf.status = .leader → P (rf.start command).2.1 command) :
    (rf.start command).1.Holds P := by
  by_cases hlead : rf.status = .leader
  · have hpos := h.length_pos
    have hP := hnew hlead
    have hindex : (rf.start command).2.1 = rf.lastIncludedIndex + rf.log.length := by
      simp only [Peer.start, hlead, persist, lastLogIndex]
      simp
      omega
    rw [hindex] at hP
    obtain ⟨m, hm⟩ : ∃ m, rf.log.length = m + 1 := ⟨rf.log.length - 1, by omega⟩
    have hes : ∀ (j : Nat) (e : LogEntry C),
        [({ term := rf.currentTerm, command := command } : LogEntry C)][j]? = some e →
        P (rf.lastIncludedIndex + m + j + 1) e.command := by
      intro j e he
      cases j with
      | zero =>
          cases he
          rwa [show rf.lastIncludedIndex + m + ((0 : Nat) : Int) + 1 =
            rf.lastIncludedIndex + rf.log.length by omega]
      | succ j => cases he
    have hsplice := h.splice (by omega) hes
    rw [← hm, List.take_length] at hsplice
    rw [start_of_leader hlead]
    exact hsplice
  · rw [start_of_not_leader hlead]
    exact h

/-- The loop of `AppendEntries`, at the entry `i`: all before it are there. -/
theorem mergeEntries (h : rf.Holds P) {prev : Int} {i : Nat} {rest : List (LogEntry C)}
    (hle : prev + i ≤ rf.lastLogIndex)
    (hrest : ∀ (j : Nat) e, rest[j]? = some e → P (prev + i + j + 1) e.command) :
    HoldsFrom P rf.lastIncludedIndex (rf.mergeEntries prev i rest) := by
  induction rest generalizing i with
  | nil => exact h
  | cons entry rest ih =>
      have hpos := h.length_pos
      have hnext : prev + ((i + 1 : Nat) : Int) ≤ rf.lastLogIndex →
          HoldsFrom P rf.lastIncludedIndex (rf.mergeEntries prev (i + 1) rest) := by
        intro hle'
        refine ih hle' fun j e he => ?_
        have hP := hrest (j + 1) e he
        rwa [show prev + ((i + 1 : Nat) : Int) + j + 1 =
          prev + i + ((j + 1 : Nat) : Int) + 1 by omega]
      -- the entry takes the place `m + 1`, behind entries that stay
      have hplace : ∀ m : Nat, rf.toPhysicalIndex (prev + 1 + i) = ((m + 1 : Nat) : Int) →
          m + 1 ≤ rf.log.length →
          HoldsFrom P rf.lastIncludedIndex (rf.log.take (m + 1) ++ entry :: rest) := by
        intro m hm hlen
        unfold toPhysicalIndex at hm
        refine h.splice hlen fun j e he => ?_
        have hP := hrest j e he
        rwa [show rf.lastIncludedIndex + m + j + 1 = prev + i + j + 1 by omega]
      unfold lastLogIndex at hle hnext
      unfold Peer.mergeEntries
      dsimp only
      split
      · next hlow =>
          unfold toPhysicalIndex at hlow
          exact hnext (by omega)
      · next hlow =>
          obtain ⟨m, hm⟩ : ∃ m : Nat, rf.toPhysicalIndex (prev + 1 + i) = ((m + 1 : Nat) : Int) :=
            ⟨(rf.toPhysicalIndex (prev + 1 + i) - 1).toNat, by omega⟩
          have hm' : prev + 1 + i - rf.lastIncludedIndex = ((m + 1 : Nat) : Int) := hm
          split
          · have hkeep := hplace m hm (by omega)
            rwa [List.take_of_length_le (by omega)] at hkeep
          · split
            · rw [hm, Int.toNat_natCast]
              exact hplace m hm (by omega)
            · exact hnext (by omega)

/-- If the entry before the request is there, so is all that the loop needs. -/
theorem accept {args : AppendEntriesArgs n C} (hmatch : rf.matchPrevLog args = none)
    (h : rf.Holds P) (hargs : args.Holds P) :
    HoldsFrom P rf.lastIncludedIndex (rf.mergeEntries args.prevLogIndex 0 args.entries) := by
  have hle : args.prevLogIndex ≤ rf.lastLogIndex := by
    unfold matchPrevLog at hmatch
    dsimp only at hmatch
    split at hmatch
    · cases hmatch
    · omega
  refine h.mergeEntries (by omega) fun j e he => ?_
  have hP := hargs j e he
  rwa [show args.prevLogIndex + ((0 : Nat) : Int) + j + 1 = args.prevLogIndex + j + 1 by omega]

theorem appendEntries (h : rf.Holds P) {args : AppendEntriesArgs n C} (hargs : args.Holds P) :
    (rf.appendEntries args).1.Holds P := by
  have hdown := sameLog_stepDown rf args.term
  unfold Peer.appendEntries
  split
  · exact h
  · dsimp only
    split
    · exact h.of_eq hdown.index hdown.log
    · next hmatch =>
        have haccept := accept hmatch (h.of_eq hdown.index hdown.log) hargs
        unfold updateFollowerCommitIndex
        split
        · split <;> exact haccept
        · exact haccept

theorem snapshot (h : rf.Holds P) (index : Int) (data : Bytes) :
    (rf.snapshot index data).Holds P := by
  unfold Peer.snapshot
  split
  · exact h
  · next hlater =>
      dsimp only
      split
      · exact .single index 0
      · have hphys : rf.toPhysicalIndex index = index - rf.lastIncludedIndex := rfl
        have hcompact := h.compact (rf.toPhysicalIndex index).toNat 0
        rwa [show rf.lastIncludedIndex + ((rf.toPhysicalIndex index).toNat : Int) = index by
          omega] at hcompact

theorem installSnapshot (h : rf.Holds P) (args : InstallSnapshotArgs n) :
    (rf.installSnapshot args).1.Holds P := by
  unfold Peer.installSnapshot
  dsimp only
  split
  · exact h
  · split
    · exact h
    · show HoldsFrom P args.lastIncludedIndex _
      dsimp only [persist]
      split
      · next i hfind =>
          have hpred := List.find?_some hfind
          rw [decide_eq_true_eq] at hpred
          have hindex : (i : Int) + rf.lastIncludedIndex = args.lastIncludedIndex := hpred.1
          rw [← hindex, Int.add_comm]
          exact h.compact i args.lastIncludedTerm
      · exact .single _ _

theorem handleRequestVoteReply (h : rf.Holds P) (args : RequestVoteArgs n)
    (reply : RequestVoteReply) (votes : Nat) :
    (rf.handleRequestVoteReply args reply votes).1.Holds P := by
  rcases handleRequestVoteReply_frame rf args reply votes with
    heq | ⟨status, next, known, heq, -⟩
  · rw [heq]
    exact h.same (sameLog_stepDown rf _)
  · rw [heq]
    exact h

theorem handleAppendEntriesReply (h : rf.Holds P) (peer : Fin n) (args : AppendEntriesArgs n C)
    (reply : AppendEntriesReply) : (rf.handleAppendEntriesReply peer args reply).Holds P := by
  rcases handleAppendEntriesReply_frame rf peer args reply with
    heq | ⟨next, known, commit, heq⟩
  · rw [heq]
    exact h.same (sameLog_stepDown rf _)
  · rw [heq]
    exact h

theorem handleInstallSnapshotReply (h : rf.Holds P) (peer : Fin n)
    (args : InstallSnapshotArgs n) (reply : InstallSnapshotReply) :
    (rf.handleInstallSnapshotReply peer args reply).Holds P := by
  rcases handleInstallSnapshotReply_frame rf peer args reply with heq | ⟨next, known, heq⟩
  · rw [heq]
    exact h.same (sameLog_stepDown rf _)
  · rw [heq]
    exact h

/-- What a worker sends is cut out of the log, or begins with the placeholder. -/
theorem sendEntries (h : rf.Holds P) {peer : Fin n} {args : AppendEntriesArgs n C}
    (hargs : rf.heartbeatWorker peer = .sendEntries args)
    (hnil : rf.nextIndex peer ≠ rf.lastIncludedIndex ∨ ∀ index, P index none) :
    args.Holds P := by
  obtain ⟨-, hlow, -, rfl⟩ := heartbeatWorker_sendEntries hargs
  intro j e he
  dsimp only at he ⊢
  unfold toPhysicalIndex at hlow he
  rw [List.getElem?_drop] at he
  obtain ⟨t, ht⟩ := h.head
  cases hp : (rf.nextIndex peer - rf.lastIncludedIndex).toNat + j with
  | zero =>
      rw [hp, ht] at he
      cases he
      rcases hnil with hne | hnone
      · omega
      · exact hnone _
  | succ p =>
      rw [hp] at he
      have hP := h.entry p e he
      rwa [show rf.lastIncludedIndex + p + 1 = rf.nextIndex peer - 1 + j + 1 by omega] at hP

theorem applyCommitted (h : rf.Holds P) {msgs : List (ApplyMsg C)}
    (happly : rf.applyCommitted = some (rf', msgs)) :
    ∀ msg ∈ msgs, msg.snapshotValid = false → P msg.commandIndex msg.command := by
  intro msg hmsg hvalid
  unfold Peer.applyCommitted at happly
  split at happly
  · cases happly
  · split at happly
    · cases happly
      rw [List.mem_singleton.mp hmsg] at hvalid
      cases hvalid
    · cases happly
      obtain ⟨k, -, hk⟩ := List.mem_filterMap.mp hmsg
      dsimp only at hk
      split at hk
      · next hphys =>
          obtain ⟨entry, hentry, rfl⟩ := Option.map_eq_some_iff.mp hk
          unfold toPhysicalIndex at hphys hentry
          obtain ⟨p, hp⟩ : ∃ p : Nat, rf.lastApplied + 1 + k - rf.lastIncludedIndex =
              ((p + 1 : Nat) : Int) :=
            ⟨(rf.lastApplied + 1 + k - rf.lastIncludedIndex - 1).toNat, by omega⟩
          rw [hp, Int.toNat_natCast] at hentry
          have hP := h.entry p entry hentry
          rwa [show rf.lastIncludedIndex + p + 1 = rf.lastApplied + 1 + k by omega] at hP
      · cases hk

end Holds
end Peer

/-! ## The cluster -/

namespace Cluster

/-- Every copy of an entry meets the condition at its index. -/
structure Holds (P : Int → Option C → Prop) (w : Cluster n C) : Prop where
  durable : ∀ i, (w.peers i).Durable i
  peers : ∀ i, (w.peers i).Holds P
  requests : ∀ m dst args, Request.appendEntries m dst args ∈ w.requests → args.Holds P
  messages : w.Carries fun msg => msg.snapshotValid = false → P msg.commandIndex msg.command

namespace Holds

variable {w w' : Cluster n C} {act : Action n C}

theorem init : Holds P (init : Cluster n C) where
  durable := Peer.durable_make
  peers := fun _ => .single 0 0
  requests := by simp [Cluster.init]
  messages := carries_init _

theorem mono (h : Holds P w) (hP : ∀ index c, P index c → P' index c) : Holds P' w where
  durable := h.durable
  peers := fun i => (h.peers i).mono hP
  requests := fun m dst args hr j e he => hP _ _ (h.requests m dst args hr j e he)
  messages := h.messages.mono fun _ hm hvalid => hP _ _ (hm hvalid)

theorem setPeer (h : Holds P w) {i : Fin n} {rf : Peer n C} (hrf : rf.Holds P) (j : Fin n) :
    (Function.update w.peers i rf j).Holds P := by
  rw [Function.update_apply]
  split
  · exact hrf
  · exact h.peers j

theorem step_peers (h : Holds P w) (hs : w.step act = some w')
    (hnew : ∀ i command, act = .start i command → (w.peers i).status = .leader →
      P ((w.peers i).start command).2.1 command) (i : Fin n) : (w'.peers i).Holds P := by
  cases trans_of_step hs with
  | tickHeartbeat j elapsed timeout hlead =>
      rw [goHeartbeat_peers]
      exact h.peers i
  | tickElection j elapsed timeout hnot hn =>
      exact h.setPeer ((h.peers j).same (Peer.sameLog_startElection _)) i
  | tickIdle j elapsed timeout => exact h.peers i
  | start j command =>
      rw [goHeartbeat_peers]
      exact h.setPeer ((h.peers j).start (hnew j command rfl)) i
  | snapshot j index data => exact h.setPeer ((h.peers j).snapshot index data) i
  | heartbeatRun k j inc hk hinc hlead => exact h.peers i
  | heartbeatQuit k => exact h.peers i
  | workerMoves k wk pc hk hinc hpc => exact h.peers i
  | workerEntries k wk args hk hinc hpc hargs => exact h.peers i
  | workerFlag k wk flag pc hk hinc hpc =>
      have hflag : ((w.peers wk.src).setReplicating wk.peer flag).Holds P :=
        (h.peers wk.src).of_eq rfl rfl
      exact h.setPeer hflag i
  | workerSnapshot k wk args hk hinc hpc hargs => exact h.peers i
  | deliverVote k e dst args hk =>
      exact h.setPeer ((h.peers dst).same (Peer.sameLog_requestVote _ args)) i
  | deliverEntries k m dst args hk =>
      exact h.setPeer
        ((h.peers dst).appendEntries (h.requests m dst args (List.mem_of_getElem? hk))) i
  | deliverSnapshot k m dst args hk => exact h.setPeer ((h.peers dst).installSnapshot args) i
  | receiveVote k e dst args reply el rf votes started hk hel hinc hwait hreply =>
      rw [readVote_peers]
      have hrf := (h.peers el.src).handleRequestVoteReply el.args reply el.votes
      rw [hreply] at hrf
      exact h.setPeer hrf i
  | receiveEntries k m dst args reply wk hk hm hinc hpc =>
      exact h.setPeer ((h.peers wk.src).handleAppendEntriesReply dst args reply) i
  | receiveSnapshot k m dst args reply wk hk hm hinc hpc =>
      exact h.setPeer ((h.peers wk.src).handleInstallSnapshotReply dst args reply) i
  | callFails k wk hk hinc hpc => exact h.peers i
  | voteFails e peer el hel => exact h.peers i
  | apply j rf msgs hsend happly =>
      have hsame := Peer.sameSnapshot_applyCommitted happly
      obtain ⟨applied, flag, hrf⟩ := Peer.applyCommitted_frame happly
      have hlog : rf.log = (w.peers j).log := by rw [hrf]
      exact h.setPeer ((h.peers j).of_eq hsame.index hlog) i
  | send j msg rest hsend => exact h.peers i
  | crash j =>
      have hsaved := (h.durable j).saved
      unfold Peer.Saved at hsaved
      rw [(h.durable j).me] at hsaved
      exact h.setPeer ((h.peers j).of_eq hsaved.2.2.2.1 hsaved.2.2.1) i

/-- A new request comes from a worker, and is cut out of the log of its leader. -/
theorem step_requests (h : Holds P w) (hs : w.step act = some w')
    (hnil : SkipsPlaceholder w act ∨ ∀ index, P index none) (m : Nat) (dst : Fin n)
    (args : AppendEntriesArgs n C) (hr : Request.appendEntries m dst args ∈ w'.requests) :
    args.Holds P := by
  have hold : Request.appendEntries m dst args ∈ w.requests → args.Holds P :=
    h.requests m dst args
  cases trans_of_step hs with
  | tickHeartbeat i elapsed timeout hlead => exact hold hr
  | tickElection i elapsed timeout hnot hn =>
      rw [startElection_requests] at hr
      rcases List.mem_append.mp hr with hmem | hvote
      · exact hold hmem
      · obtain ⟨p, -, hp⟩ := List.mem_map.mp hvote
        cases hp
  | tickIdle i elapsed timeout => exact hold hr
  | start i command =>
      rw [goHeartbeat_requests] at hr
      exact hold hr
  | snapshot i index data => exact hold hr
  | heartbeatRun k i inc hk hinc hlead => exact hold hr
  | heartbeatQuit k => exact hold hr
  | workerMoves k wk pc hk hinc hpc => exact hold hr
  | workerEntries k wk args' hk hinc hpc hargs =>
      rcases List.mem_append.mp hr with hmem | hsent
      · exact hold hmem
      · cases List.mem_singleton.mp hsent
        exact (h.peers wk.src).sendEntries hargs
          (hnil.imp_left fun hskip => hskip.nextIndex_ne hk hpc hargs)
  | workerFlag k wk flag pc hk hinc hpc => exact hold hr
  | workerSnapshot k wk args' hk hinc hpc hargs =>
      rcases List.mem_append.mp hr with hmem | hsent
      · exact hold hmem
      · cases List.mem_singleton.mp hsent
  | deliverVote k e dst' args' hk => exact hold (List.mem_of_mem_eraseIdx hr)
  | deliverEntries k m' dst' args' hk => exact hold (List.mem_of_mem_eraseIdx hr)
  | deliverSnapshot k m' dst' args' hk => exact hold (List.mem_of_mem_eraseIdx hr)
  | receiveVote k e dst' args' reply el rf votes started hk hel hinc hwait hreply =>
      rw [readVote_requests] at hr
      exact hold hr
  | receiveEntries k m' dst' args' reply wk hk hm hinc hpc => exact hold hr
  | receiveSnapshot k m' dst' args' reply wk hk hm hinc hpc => exact hold hr
  | callFails k wk hk hinc hpc => exact hold hr
  | voteFails e peer el hel => exact hold hr
  | apply i rf msgs hsend happly => exact hold hr
  | send i msg rest hsend => exact hold hr
  | crash i => exact hold hr

/-- Only `Start` brings in a command, at the index it returns. -/
theorem step (h : Holds P w) (hs : w.step act = some w')
    (hnil : SkipsPlaceholder w act ∨ ∀ index, P index none)
    (hnew : ∀ i command, act = .start i command → (w.peers i).status = .leader →
      P ((w.peers i).start command).2.1 command) : Holds P w' where
  durable := by
    intro i
    rcases peerMoves_of_step (fun i => (h.durable i).me) hs i with heq | ⟨s, hrun, -⟩
    · rw [heq]
      exact h.durable i
    · exact ((h.durable i).run hrun).1
  peers := h.step_peers hs hnew
  requests := h.step_requests hs hnil
  messages := h.messages.step hs fun happly => (h.peers _).applyCommitted happly

end Holds

/-! ## Whole runs -/

/-- On the way, `Start` was called with the command at a leader, which returned the
index. -/
def StartedAt (acts : List (Action n C)) (index : Int) (command : Option C) : Prop :=
  ∃ pre post i w, acts = pre ++ .start i command :: post ∧
    Run.exec step Run.always init pre = some w ∧ (w.peers i).status = .leader ∧
    ((w.peers i).start command).2.1 = index

theorem StartedAt.append {acts : List (Action n C)} {index : Int} {command : Option C}
    (h : StartedAt acts index command) (more : List (Action n C)) :
    StartedAt (acts ++ more) index command := by
  obtain ⟨pre, post, i, w, rfl, hrest⟩ := h
  exact ⟨pre, post ++ more, i, w, by simp, hrest⟩

theorem holds_exec {acts : List (Action n C)} {w : Cluster n C}
    (h : Run.exec step Run.always init acts = some w) :
    Holds (fun index command => command = none ∨ StartedAt acts index command) w := by
  have hinit : Run.exec step Run.always init [] = some (init : Cluster n C) ∧
      Holds (fun index command => command = none ∨
        StartedAt ([] : List (Action n C)) index command) (init : Cluster n C) := ⟨rfl, .init⟩
  refine (Run.exec_invariant (P := fun acts w => Run.exec step Run.always init acts = some w ∧
      Holds (fun index command => command = none ∨ StartedAt acts index command) w)
    (fun done w act w' ⟨hdone, hw⟩ _ hs => ⟨Run.exec_concat hdone trivial hs, ?_⟩)
    acts hinit h).2
  have hmono : Holds (fun index command =>
      command = none ∨ StartedAt (done ++ [act]) index command) w :=
    hw.mono fun index command hP => hP.imp_right fun hst => hst.append [act]
  refine hmono.step hs (.inr fun _ => .inl rfl) fun i command hact hlead => .inr ?_
  exact ⟨done, [], i, w, by rw [hact], hdone, hlead, rfl⟩

/-- A command that any incarnation of any server delivers was passed to `Start` at a
leader, which returned the index it is delivered with. -/
theorem delivered_started {acts : List (Action n C)} {w : Cluster n C}
    (h : Run.exec step Run.always init acts = some w) {i : Fin n} {inc : Nat}
    {msg : ApplyMsg C} (hmsg : msg ∈ w.applyCh i inc) (hvalid : msg.snapshotValid = false)
    (hcommand : msg.command ≠ none) : StartedAt acts msg.commandIndex msg.command :=
  ((holds_exec h).messages.applyCh i inc msg hmsg hvalid).resolve_left hcommand

theorem delivered_started_bothDeliver : ∃ (w : Cluster 3 Nat) (msg : ApplyMsg Nat),
    Run.exec step Run.always init bothDeliver = some w ∧ msg ∈ w.applyCh 1 0 ∧
    msg.command = some 7 ∧ StartedAt bothDeliver msg.commandIndex msg.command := by
  have hrun : (Run.exec step Run.always (init : Cluster 3 Nat) bothDeliver).map
      (fun w => w.applyCh 1 0) =
      some [{ commandValid := true, command := some 7, commandIndex := 1 }] := by
    decide +kernel
  obtain ⟨w, hw, hch⟩ := Option.map_eq_some_iff.mp hrun
  have hmem : ({ commandValid := true, command := some 7, commandIndex := 1 } : ApplyMsg Nat) ∈
      w.applyCh 1 0 := by
    rw [hch]
    exact List.mem_singleton_self _
  exact ⟨w, _, hw, hmem, rfl, delivered_started hw hmem rfl (by decide)⟩

end Cluster
end Raft
end Labs
