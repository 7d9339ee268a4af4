import Labs.Raft.Heartbeat

/-!
# Compaction is not seen from outside

`Compacted rf rf' p` says that `rf'` is `rf` without the first `p` entries of its log: the
last of these has left its term in `lastIncludedTerm`, and what follows has moved down
by `p`.  A placeholder stands first, with a term that differs between `Snapshot` and
`InstallSnapshot` and is never looked at.  Whatever is asked about indices above the
snapshot, or at its end, has the same answer in both.
-/

namespace Labs
namespace Raft
namespace Peer

variable {n : Nat} {C : Type}

structure Compacted (rf rf' : Peer n C) (p : Nat) : Prop where
  pos : 0 < p
  lt : p < rf.log.length
  index : rf'.lastIncludedIndex = rf.lastIncludedIndex + p
  log : ∃ first, rf'.log = first :: rf.log.drop (p + 1)
  term : rf'.lastIncludedTerm = rf.termAt p false

/-- The fields that decide about votes and replication, the log apart. -/
structure SameRole (rf rf' : Peer n C) : Prop where
  me : rf'.me = rf.me
  currentTerm : rf'.currentTerm = rf.currentTerm
  votedFor : rf'.votedFor = rf.votedFor
  status : rf'.status = rf.status
  commitIndex : rf'.commitIndex = rf.commitIndex
  nextIndex : rf'.nextIndex = rf.nextIndex
  matchIndex : rf'.matchIndex = rf.matchIndex

/-! ## Reading the log -/

namespace Compacted

variable {rf rf' : Peer n C} {p : Nat}

theorem length (h : Compacted rf rf' p) : rf'.log.length + p = rf.log.length := by
  obtain ⟨first, hlog⟩ := h.log
  have hlt := h.lt
  rw [hlog, List.length_cons, List.length_drop]
  omega

theorem lastLogIndex (h : Compacted rf rf' p) : rf'.lastLogIndex = rf.lastLogIndex := by
  have hlen := h.length
  unfold Peer.lastLogIndex
  rw [h.index]
  omega

theorem getElem? (h : Compacted rf rf' p) {j : Nat} (hj : 0 < j) :
    rf'.log[j]? = rf.log[p + j]? := by
  obtain ⟨first, hlog⟩ := h.log
  obtain ⟨j, rfl⟩ : ∃ i, j = i + 1 := ⟨j - 1, by omega⟩
  rw [hlog, List.getElem?_cons_succ, List.getElem?_drop]
  congr 1
  omega

/-- The entry at a physical index of the compacted log. -/
theorem termAt_physical (h : Compacted rf rf' p) {i : Int} (hi : 0 < i) :
    rf'.termAt i false = rf.termAt (i + p) false := by
  unfold termAt
  simp only [Bool.false_eq_true, if_false]
  rw [if_neg (by omega), if_neg (by omega), h.getElem? (by omega),
    show (i + p).toNat = p + i.toNat by omega]

theorem termAt_logical (h : Compacted rf rf' p) {i : Int} (hi : rf.lastIncludedIndex + p < i) :
    rf'.termAt i true = rf.termAt i true := by
  have hindex := h.index
  have hshift := h.termAt_physical (i := rf'.toPhysicalIndex i) (by unfold toPhysicalIndex; omega)
  have hback : rf'.toPhysicalIndex i + p = rf.toPhysicalIndex i := by
    unfold toPhysicalIndex
    omega
  rw [hback] at hshift
  exact hshift

/-- The term at the end of the snapshot. -/
theorem termAt_end (h : Compacted rf rf' p) :
    rf.termAt (rf.lastIncludedIndex + p) true = rf'.lastIncludedTerm := by
  rw [h.term]
  show rf.termAt (rf.lastIncludedIndex + p - rf.lastIncludedIndex) false = _
  rw [show rf.lastIncludedIndex + (p : Int) - rf.lastIncludedIndex = p by omega]

theorem entryAt (h : Compacted rf rf' p) {i : Int} (hi : rf.lastIncludedIndex + p < i) :
    rf'.entryAt i = rf.entryAt i := by
  have hindex := h.index
  unfold Peer.entryAt
  rw [if_pos (by omega), if_pos (by omega), h.getElem? (by omega)]
  congr 1
  omega

theorem lastLogIndexTerm (h : Compacted rf rf' p) :
    rf'.lastLogIndexTerm = rf.lastLogIndexTerm := by
  have hlen := h.length
  have hpos := h.pos
  have hlt := h.lt
  have hlast : ∀ r : Peer n C, 1 < r.log.length →
      r.lastLogIndexTerm = r.termAt (r.log.length - 1) false := by
    intro r hr
    unfold Peer.lastLogIndexTerm termAt
    rw [if_pos hr, List.getLast?_eq_getElem?]
    simp only [Bool.false_eq_true, if_false]
    rw [if_neg (by omega), show ((r.log.length : Int) - 1).toNat = r.log.length - 1 by omega,
      List.getElem?_eq_getElem (by omega)]
  rw [hlast rf (by omega)]
  by_cases hmore : 1 < rf'.log.length
  · rw [hlast rf' hmore, h.termAt_physical (by omega)]
    congr 1
    omega
  · -- nothing is left above the snapshot
    unfold Peer.lastLogIndexTerm
    rw [if_neg hmore, h.term]
    congr 1
    omega

theorem isLogUpToDate (h : Compacted rf rf' p) (candidateIndex candidateTerm : Int) :
    rf'.isLogUpToDate candidateIndex candidateTerm =
      rf.isLogUpToDate candidateIndex candidateTerm := by
  unfold Peer.isLogUpToDate
  rw [h.lastLogIndex, h.lastLogIndexTerm]

/-- A section that leaves the log and the snapshot alone. -/
theorem of_eq {r r' : Peer n C} (h : Compacted rf rf' p) (hlog : r.log = rf.log)
    (hindex : r.lastIncludedIndex = rf.lastIncludedIndex) (hlog' : r'.log = rf'.log)
    (hindex' : r'.lastIncludedIndex = rf'.lastIncludedIndex)
    (hterm' : r'.lastIncludedTerm = rf'.lastIncludedTerm) : Compacted r r' p where
  pos := h.pos
  lt := hlog ▸ h.lt
  index := by rw [hindex', hindex, h.index]
  log := by rw [hlog', hlog]; exact h.log
  term := by
    rw [hterm', h.term]
    unfold termAt
    rw [hlog]
    rfl

end Compacted

/-! ## Where it comes from -/

section Origin

variable {rf : Peer n C} {index : Int}

theorem compacted_snapshot (data : Bytes) (hlow : rf.lastIncludedIndex < index)
    (hhigh : index ≤ rf.lastLogIndex) :
    Compacted rf (rf.snapshot index data) (index - rf.lastIncludedIndex).toNat ∧
      SameRole rf (rf.snapshot index data) := by
  have hlt : index - rf.lastIncludedIndex < rf.log.length := by
    unfold lastLogIndex at hhigh
    omega
  unfold snapshot toPhysicalIndex
  rw [if_neg (by omega)]
  simp only
  rw [if_neg (by omega)]
  constructor
  · refine ⟨by omega, by omega, ?_, ⟨_, rfl⟩, ?_⟩
    · show index = rf.lastIncludedIndex + ((index - rf.lastIncludedIndex).toNat : Int)
      omega
    · show rf.termAt (index - rf.lastIncludedIndex) false = _
      congr 1
      omega
  · exact ⟨rfl, rfl, rfl, rfl, rfl, rfl, rfl⟩

/-- The snapshot's last entry is found where it is. -/
theorem findSnapshotEntry_eq {args : InstallSnapshotArgs n} (hlow : rf.lastIncludedIndex < index)
    (hhigh : index ≤ rf.lastLogIndex) (hindex : args.lastIncludedIndex = index)
    (hterm : args.lastIncludedTerm = rf.termAt index true) :
    rf.findSnapshotEntry args = some (index - rf.lastIncludedIndex).toNat := by
  unfold lastLogIndex at hhigh
  unfold findSnapshotEntry
  rw [List.find?_range'_eq_some]
  refine ⟨?_, by simp; omega, fun j hj hlt => ?_⟩
  · have hphys : rf.termAt ((index - rf.lastIncludedIndex).toNat : Int) false =
        rf.termAt index true := by
      show _ = rf.termAt (index - rf.lastIncludedIndex) false
      congr 1
      omega
    rw [decide_eq_true_eq, hphys]
    exact ⟨by omega, hterm.symm⟩
  · rw [Bool.not_eq_true', decide_eq_false_iff_not]
    omega

theorem compacted_installSnapshot {args : InstallSnapshotArgs n}
    (hlow : rf.lastIncludedIndex < index) (hhigh : index ≤ rf.lastLogIndex)
    (hcur : rf.currentTerm ≤ args.term) (hindex : args.lastIncludedIndex = index)
    (hterm : args.lastIncludedTerm = rf.termAt index true) :
    Compacted rf (rf.installSnapshot args).1 (index - rf.lastIncludedIndex).toNat := by
  have hfind := findSnapshotEntry_eq hlow hhigh hindex hterm
  unfold lastLogIndex at hhigh
  unfold installSnapshot
  dsimp only
  rw [if_neg (by omega), if_neg (by omega)]
  refine ⟨by omega, by omega, ?_, ⟨placeholder args.lastIncludedTerm, ?_⟩, ?_⟩
  · show args.lastIncludedIndex = rf.lastIncludedIndex + _
    omega
  · have hfind' : { rf with
        currentTerm := args.term, votedFor := none, status := .follower }.findSnapshotEntry args =
          some (index - rf.lastIncludedIndex).toNat := hfind
    simp only [persist, hfind']
  · show args.lastIncludedTerm = _
    rw [hterm]
    show rf.termAt (index - rf.lastIncludedIndex) false = _
    congr 1
    omega

end Origin

/-! ## The same answers -/

section Answers

variable {rf rf' : Peer n C} {p : Nat}

theorem SameRole.stepDown (h : SameRole rf rf') (newTerm : Int) :
    SameRole (rf.stepDown newTerm).1 (rf'.stepDown newTerm).1 := by
  rcases lt_or_ge rf.currentTerm newTerm with hlt | hle
  · rw [stepDown_of_lt hlt, stepDown_of_lt (by rw [h.currentTerm]; exact hlt)]
    exact ⟨h.me, rfl, rfl, rfl, h.commitIndex, h.nextIndex, h.matchIndex⟩
  · rw [stepDown_of_le hle, stepDown_of_le (by rw [h.currentTerm]; exact hle)]
    exact h

theorem Compacted.stepDown (h : Compacted rf rf' p) (newTerm : Int) :
    Compacted (rf.stepDown newTerm).1 (rf'.stepDown newTerm).1 p := by
  have hrf := sameLog_stepDown rf newTerm
  have hrf' := sameLog_stepDown rf' newTerm
  exact h.of_eq hrf.log hrf.index hrf'.log hrf'.index hrf'.term

theorem Compacted.requestVote (h : Compacted rf rf' p) (hr : SameRole rf rf')
    (args : RequestVoteArgs n) : (rf'.requestVote args).2 = (rf.requestVote args).2 := by
  rcases lt_or_ge args.term rf.currentTerm with hlt | hle
  · rw [requestVote_of_lt hlt, requestVote_of_lt (by rw [hr.currentTerm]; exact hlt),
      hr.currentTerm]
  · have hdown := hr.stepDown args.term
    rw [requestVote_of_le hle, requestVote_of_le (by rw [hr.currentTerm]; exact hle)]
    dsimp only
    rw [hdown.votedFor, (h.stepDown args.term).isLogUpToDate, hdown.currentTerm]
    split <;> rfl

/-- What a leader learns from a reply, up to where the conflicting run begins. -/
def decision (reply : AppendEntriesReply) : Bool × Int × Int × Int :=
  (reply.success, reply.term, reply.xLen, reply.xTerm)

theorem Compacted.matchPrevLog (h : Compacted rf rf' p) (hr : SameRole rf rf')
    {args : AppendEntriesArgs n C} (hprev : rf.lastIncludedIndex + p ≤ args.prevLogIndex) :
    (rf'.matchPrevLog args).map decision = (rf.matchPrevLog args).map decision := by
  have hpos := h.pos
  have hindex := h.index
  unfold Peer.matchPrevLog
  dsimp only
  rw [h.lastLogIndex, hr.currentTerm]
  by_cases hlong : args.prevLogIndex > rf.lastLogIndex
  · rw [if_pos hlong, if_pos hlong]
  · have hlow : ¬ args.prevLogIndex = rf.lastIncludedIndex := by omega
    rw [if_neg hlong, if_neg hlong, if_neg hlow]
    by_cases hend : args.prevLogIndex = rf.lastIncludedIndex + p
    · -- the boundary: one has the term in `lastIncludedTerm`, the other in the log
      have hterm : rf.termAt args.prevLogIndex true = rf'.lastIncludedTerm := by
        rw [hend, h.termAt_end]
      rw [if_pos (show args.prevLogIndex = rf'.lastIncludedIndex by omega), hterm]
      split <;> rfl
    · rw [if_neg (show ¬ args.prevLogIndex = rf'.lastIncludedIndex by omega),
        h.termAt_logical (by omega)]
      split <;> rfl

theorem mergeEntries_above {prevLogIndex : Int} {i : Nat}
    (h : 1 ≤ rf.toPhysicalIndex (prevLogIndex + 1 + i)) (e : LogEntry C)
    (rest : List (LogEntry C)) :
    rf.mergeEntries prevLogIndex i (e :: rest) =
      if rf.toPhysicalIndex (prevLogIndex + 1 + i) ≥ rf.log.length then rf.log ++ e :: rest
      else if rf.termAt (rf.toPhysicalIndex (prevLogIndex + 1 + i)) false ≠ e.term then
        rf.log.take (rf.toPhysicalIndex (prevLogIndex + 1 + i)).toNat ++ e :: rest
      else rf.mergeEntries prevLogIndex (i + 1) rest := by
  rw [Peer.mergeEntries]
  exact if_neg (by omega)

theorem Compacted.mergeEntries (h : Compacted rf rf' p) {prevLogIndex : Int}
    (hprev : rf.lastIncludedIndex + p ≤ prevLogIndex) (i : Nat) (es : List (LogEntry C)) :
    ∃ first, rf'.mergeEntries prevLogIndex i es =
        first :: (rf.mergeEntries prevLogIndex i es).drop (p + 1) ∧
      (rf.mergeEntries prevLogIndex i es).take (p + 1) = rf.log.take (p + 1) := by
  have hpos := h.pos
  have hlt := h.lt
  have hlen := h.length
  obtain ⟨first, hlog⟩ := h.log
  induction es generalizing i with
  | nil => exact ⟨first, hlog, rfl⟩
  | cons e rest ih =>
      have hphys : rf'.toPhysicalIndex (prevLogIndex + 1 + i) + p =
          rf.toPhysicalIndex (prevLogIndex + 1 + i) := by
        unfold toPhysicalIndex
        rw [h.index]
        omega
      have habove : 1 ≤ rf'.toPhysicalIndex (prevLogIndex + 1 + i) := by
        unfold toPhysicalIndex
        rw [h.index]
        omega
      have habove' : 1 ≤ rf.toPhysicalIndex (prevLogIndex + 1 + i) := by omega
      rw [mergeEntries_above habove, mergeEntries_above habove']
      by_cases hend : rf.toPhysicalIndex (prevLogIndex + 1 + i) ≥ rf.log.length
      · have hend' : rf'.toPhysicalIndex (prevLogIndex + 1 + i) ≥ rf'.log.length := by omega
        rw [if_pos hend, if_pos hend']
        refine ⟨first, ?_, ?_⟩
        · rw [hlog, List.drop_append_of_le_length (by omega)]
          rfl
        · rw [List.take_append_of_le_length (by omega)]
      · have hend' : ¬ rf'.toPhysicalIndex (prevLogIndex + 1 + i) ≥ rf'.log.length := by omega
        rw [if_neg hend, if_neg hend', h.termAt_physical (by omega), hphys]
        by_cases hterm : rf.termAt (rf.toPhysicalIndex (prevLogIndex + 1 + i)) false ≠ e.term
        · rw [if_pos hterm, if_pos hterm]
          have htake : p + 1 ≤ (rf.toPhysicalIndex (prevLogIndex + 1 + i)).toNat := by omega
          have hlength : p + 1 ≤
              (rf.log.take (rf.toPhysicalIndex (prevLogIndex + 1 + i)).toNat).length := by
            rw [List.length_take]
            omega
          refine ⟨first, ?_, ?_⟩
          · rw [hlog, List.drop_append_of_le_length hlength, List.drop_take,
              show (rf'.toPhysicalIndex (prevLogIndex + 1 + i)).toNat =
                (rf.toPhysicalIndex (prevLogIndex + 1 + i)).toNat - (p + 1) + 1 by omega,
              List.take_succ_cons]
            rfl
          · rw [List.take_append_of_le_length hlength, List.take_take, Nat.min_eq_left htake]
        · rw [if_neg hterm, if_neg hterm]
          exact ih (i + 1)

/-- What is left of the two logs after the entries have been merged in. -/
theorem Compacted.merged (h : Compacted rf rf' p) {prevLogIndex : Int}
    (hprev : rf.lastIncludedIndex + p ≤ prevLogIndex) (es : List (LogEntry C)) {r r' : Peer n C}
    (hlog : r.log = rf.mergeEntries prevLogIndex 0 es)
    (hindex : r.lastIncludedIndex = rf.lastIncludedIndex)
    (hlog' : r'.log = rf'.mergeEntries prevLogIndex 0 es)
    (hindex' : r'.lastIncludedIndex = rf'.lastIncludedIndex)
    (hterm' : r'.lastIncludedTerm = rf'.lastIncludedTerm) : Compacted r r' p := by
  have hlt := h.lt
  obtain ⟨first, hmerge, htake⟩ := h.mergeEntries hprev 0 es
  have hkept : p < r.log.length := by
    have hlen := congrArg List.length htake
    rw [List.length_take, List.length_take] at hlen
    rw [hlog]
    omega
  refine ⟨h.pos, hkept, ?_, ⟨first, ?_⟩, ?_⟩
  · rw [hindex', hindex, h.index]
  · rw [hlog', hlog, hmerge]
  · have hsame : r.log[p]? = rf.log[p]? := by
      rw [hlog, ← List.getElem?_take_of_lt (Nat.lt_succ_self p), htake,
        List.getElem?_take_of_lt (Nat.lt_succ_self p)]
    rw [hterm', h.term]
    unfold termAt
    simp only [Bool.false_eq_true, if_false]
    rw [if_neg (by omega), if_neg (by omega), Int.toNat_natCast, hsame]

/-- The follower after a request of its term or a later one, before it looks at its log. -/
def follow (rf : Peer n C) (term : Int) : Peer n C :=
  { (rf.stepDown term).1 with status := .follower }

/-- The follower after a request that matches its log. -/
def accept (rf : Peer n C) (args : AppendEntriesArgs n C) : Peer n C :=
  ({ rf with log := rf.mergeEntries args.prevLogIndex 0 args.entries }.persist
    ).updateFollowerCommitIndex args.leaderCommit (args.prevLogIndex + args.entries.length)

theorem appendEntries_of_none {args : AppendEntriesArgs n C} (h : ¬ args.term < rf.currentTerm)
    (hm : (rf.follow args.term).matchPrevLog args = none) :
    rf.appendEntries args = ((rf.follow args.term).accept args,
      { term := ((rf.follow args.term).accept args).currentTerm, success := true }) := by
  unfold follow at hm
  unfold Peer.appendEntries
  rw [if_neg h]
  dsimp only
  rw [hm]
  rfl

theorem appendEntries_of_some {args : AppendEntriesArgs n C} {reply : AppendEntriesReply}
    (h : ¬ args.term < rf.currentTerm)
    (hm : (rf.follow args.term).matchPrevLog args = some reply) :
    rf.appendEntries args = (rf.follow args.term, reply) := by
  unfold follow at hm
  unfold Peer.appendEntries
  rw [if_neg h]
  dsimp only
  rw [hm]
  rfl

theorem accept_eq (rf : Peer n C) (args : AppendEntriesArgs n C) :
    (rf.accept args).currentTerm = rf.currentTerm ∧
      (rf.accept args).log = rf.mergeEntries args.prevLogIndex 0 args.entries ∧
      (rf.accept args).lastIncludedIndex = rf.lastIncludedIndex ∧
      (rf.accept args).lastIncludedTerm = rf.lastIncludedTerm := by
  unfold accept updateFollowerCommitIndex
  split
  · split <;> exact ⟨rfl, rfl, rfl, rfl⟩
  · exact ⟨rfl, rfl, rfl, rfl⟩

theorem accept_commitIndex (rf : Peer n C) (args : AppendEntriesArgs n C) :
    (rf.accept args).commitIndex =
      if args.leaderCommit > rf.commitIndex then
        min args.leaderCommit (args.prevLogIndex + args.entries.length)
      else rf.commitIndex := by
  unfold accept updateFollowerCommitIndex
  show (if args.leaderCommit > rf.commitIndex then _ else _ : Peer n C).commitIndex = _
  split
  · split
    · next hlt => exact (min_eq_left hlt.le).symm
    · next hge => exact (min_eq_right (not_lt.mp hge)).symm
  · rfl

/-- The handler of `AppendEntries` on both logs. -/
theorem Compacted.appendEntries (h : Compacted rf rf' p) (hr : SameRole rf rf')
    {args : AppendEntriesArgs n C} (hprev : rf.lastIncludedIndex + p ≤ args.prevLogIndex) :
    decision (rf'.appendEntries args).2 = decision (rf.appendEntries args).2 ∧
      (rf'.appendEntries args).1.commitIndex = (rf.appendEntries args).1.commitIndex ∧
      Compacted (rf.appendEntries args).1 (rf'.appendEntries args).1 p := by
  by_cases hterm : args.term < rf.currentTerm
  · unfold Peer.appendEntries
    rw [hr.currentTerm, if_pos hterm, if_pos hterm]
    exact ⟨rfl, hr.commitIndex, h⟩
  · have hterm' : ¬ args.term < rf'.currentTerm := by
      rw [hr.currentTerm]
      exact hterm
    have hdown := hr.stepDown args.term
    have hc : Compacted (rf.follow args.term) (rf'.follow args.term) p :=
      (h.stepDown args.term).of_eq rfl rfl rfl rfl rfl
    have hrs : SameRole (rf.follow args.term) (rf'.follow args.term) :=
      ⟨hdown.me, hdown.currentTerm, hdown.votedFor, rfl, hdown.commitIndex, hdown.nextIndex,
        hdown.matchIndex⟩
    have hprevs : (rf.follow args.term).lastIncludedIndex + p ≤ args.prevLogIndex := by
      rw [show (rf.follow args.term).lastIncludedIndex = rf.lastIncludedIndex from
        (sameLog_stepDown rf args.term).index]
      exact hprev
    have hmatch := hc.matchPrevLog hrs hprevs
    cases hm : (rf.follow args.term).matchPrevLog args with
    | some reply =>
        rw [hm, Option.map_some] at hmatch
        obtain ⟨reply', hm', hdec⟩ := Option.map_eq_some_iff.mp hmatch
        rw [appendEntries_of_some hterm hm, appendEntries_of_some hterm' hm']
        exact ⟨hdec, hrs.commitIndex, hc⟩
    | none =>
        rw [hm, Option.map_none] at hmatch
        rw [appendEntries_of_none hterm hm,
          appendEntries_of_none hterm' (Option.map_eq_none_iff.mp hmatch)]
        obtain ⟨hcur, hlog, hindex, -⟩ := accept_eq (rf.follow args.term) args
        obtain ⟨hcur', hlog', hindex', hiterm'⟩ := accept_eq (rf'.follow args.term) args
        refine ⟨?_, ?_, hc.merged hprevs args.entries hlog hindex hlog' hindex' hiterm'⟩
        · show (true, ((rf'.follow args.term).accept args).currentTerm, _, _) =
            (true, ((rf.follow args.term).accept args).currentTerm, _, _)
          rw [hcur, hcur', hrs.currentTerm]
        · rw [accept_commitIndex, accept_commitIndex, hrs.commitIndex]

theorem Compacted.commitLoop (h : Compacted rf rf' p) (hr : SameRole rf rf')
    (hcommit : rf.lastIncludedIndex + p ≤ rf.commitIndex) (fuel : Nat) (N : Int) :
    (rf'.commitLoop fuel N).commitIndex = (rf.commitLoop fuel N).commitIndex := by
  induction fuel generalizing N with
  | zero => exact hr.commitIndex
  | succ fuel ih =>
      have hcount : rf'.countMatch N = rf.countMatch N := by
        unfold countMatch
        rw [hr.me, hr.matchIndex]
      unfold Peer.commitLoop
      rw [hr.commitIndex]
      by_cases hN : N > rf.commitIndex
      · rw [if_pos hN, if_pos hN, h.termAt_logical (by omega), hr.currentTerm, hcount]
        split
        · rfl
        · exact ih (N - 1)
      · rw [if_neg hN, if_neg hN]
        exact hr.commitIndex

theorem Compacted.updateLeaderCommitIndex (h : Compacted rf rf' p) (hr : SameRole rf rf')
    (hcommit : rf.lastIncludedIndex + p ≤ rf.commitIndex) :
    rf'.updateLeaderCommitIndex.commitIndex = rf.updateLeaderCommitIndex.commitIndex := by
  unfold Peer.updateLeaderCommitIndex
  rw [h.lastLogIndex, hr.commitIndex]
  exact h.commitLoop hr hcommit _ _

theorem Compacted.heartbeatWorker (h : Compacted rf rf' p) (hr : SameRole rf rf')
    {peer : Fin n} (hnext : rf.lastIncludedIndex + p < rf.nextIndex peer) :
    rf'.heartbeatWorker peer = rf.heartbeatWorker peer := by
  have hpos := h.pos
  have hlt := h.lt
  have hlen := h.length
  have hindex := h.index
  obtain ⟨first, hlog⟩ := h.log
  have hphys : rf'.toPhysicalIndex (rf.nextIndex peer) + p =
      rf.toPhysicalIndex (rf.nextIndex peer) := by
    unfold toPhysicalIndex
    omega
  have habove : 1 ≤ rf'.toPhysicalIndex (rf.nextIndex peer) := by
    unfold toPhysicalIndex
    omega
  have hprev : rf'.getPrevLogTerm (rf.nextIndex peer - 1) =
      rf.getPrevLogTerm (rf.nextIndex peer - 1) := by
    unfold getPrevLogTerm
    rw [if_neg (show ¬ rf.nextIndex peer - 1 = rf.lastIncludedIndex by omega)]
    by_cases hend : rf.nextIndex peer - 1 = rf.lastIncludedIndex + p
    · rw [if_pos (by omega), hend, h.termAt_end]
    · rw [if_neg (by omega), h.termAt_logical (by omega)]
  have hdrop : rf'.log.drop (rf'.toPhysicalIndex (rf.nextIndex peer)).toNat =
      rf.log.drop (rf.toPhysicalIndex (rf.nextIndex peer)).toNat := by
    rw [hlog, show (rf'.toPhysicalIndex (rf.nextIndex peer)).toNat =
      (rf.toPhysicalIndex (rf.nextIndex peer)).toNat - (p + 1) + 1 by omega, List.drop_succ_cons,
      List.drop_drop]
    congr 1
    omega
  unfold Peer.heartbeatWorker
  rw [hr.status, hr.nextIndex, hr.currentTerm, hr.me, hr.commitIndex]
  dsimp only
  rw [hprev, hdrop, if_neg (show ¬ (rf.nextIndex peer ≤ rf'.lastIncludedIndex ∧ _) by omega),
    if_neg (show ¬ (rf.nextIndex peer ≤ rf.lastIncludedIndex ∧ _) by omega)]
  congr 1
  by_cases hout : rf.toPhysicalIndex (rf.nextIndex peer) > rf.log.length
  · rw [if_pos (.inr (by omega)), if_pos (.inr hout)]
  · rw [if_neg (by omega), if_neg (by omega)]

end Answers

/-- A peer that compacts its log up to a committed index answers as before, replicates as
before, and holds what a peer holds that is sent the same snapshot. -/
theorem snapshot_transparent {rf : Peer n C} {index : Int} (data : Bytes)
    (hlow : rf.lastIncludedIndex < index) (hcommit : index ≤ rf.commitIndex)
    (hlast : rf.commitIndex ≤ rf.lastLogIndex) :
    (∀ args, ((rf.snapshot index data).requestVote args).2 = (rf.requestVote args).2) ∧
    (∀ args : AppendEntriesArgs n C, index ≤ args.prevLogIndex →
      ((rf.snapshot index data).appendEntries args).2.success =
        (rf.appendEntries args).2.success ∧
      ((rf.snapshot index data).appendEntries args).2.xLen = (rf.appendEntries args).2.xLen ∧
      ((rf.snapshot index data).appendEntries args).2.xTerm = (rf.appendEntries args).2.xTerm ∧
      (∀ i, index < i → ((rf.snapshot index data).appendEntries args).1.entryAt i =
        (rf.appendEntries args).1.entryAt i) ∧
      ((rf.snapshot index data).appendEntries args).1.commitIndex =
        (rf.appendEntries args).1.commitIndex) ∧
    (rf.snapshot index data).updateLeaderCommitIndex.commitIndex =
      rf.updateLeaderCommitIndex.commitIndex ∧
    (∀ peer, index < rf.nextIndex peer →
      (rf.snapshot index data).heartbeatWorker peer = rf.heartbeatWorker peer) ∧
    ∀ (term : Int) (leaderId : Fin n) (installed : Peer n C), rf.currentTerm ≤ term →
      installed = (rf.installSnapshot
        { term := term, leaderId := leaderId, lastIncludedIndex := index,
          lastIncludedTerm := rf.termAt index true, data := data }).1 →
      installed.lastIncludedIndex = (rf.snapshot index data).lastIncludedIndex ∧
      installed.lastIncludedTerm = (rf.snapshot index data).lastIncludedTerm ∧
      installed.lastLogIndex = (rf.snapshot index data).lastLogIndex ∧
      ∀ i, index < i → installed.entryAt i = (rf.snapshot index data).entryAt i := by
  obtain ⟨hc, hr⟩ := compacted_snapshot data hlow (hcommit.trans hlast)
  have hp : rf.lastIncludedIndex + ((index - rf.lastIncludedIndex).toNat : Int) = index := by
    omega
  refine ⟨hc.requestVote hr, fun args hprev => ?_, hc.updateLeaderCommitIndex hr (by omega),
    fun peer hnext => hc.heartbeatWorker hr (by omega), fun term leaderId installed hterm hi => ?_⟩
  · obtain ⟨hdec, hcom, hc'⟩ := hc.appendEntries hr (show _ ≤ args.prevLogIndex by omega)
    simp only [decision, Prod.mk.injEq] at hdec
    refine ⟨hdec.1, hdec.2.2.1, hdec.2.2.2, fun i hi => hc'.entryAt ?_, hcom⟩
    rw [(sameApplied_appendEntries rf args).index]
    omega
  · have hinst : Compacted rf installed (index - rf.lastIncludedIndex).toNat := by
      rw [hi]
      exact compacted_installSnapshot hlow (hcommit.trans hlast) hterm rfl rfl
    refine ⟨?_, ?_, ?_, fun i hi => ?_⟩
    · rw [hinst.index, hc.index]
    · rw [hinst.term, hc.term]
    · rw [hinst.lastLogIndex, hc.lastLogIndex]
    · rw [hinst.entryAt (by omega), hc.entryAt (by omega)]

/-- A follower with three entries, two of them committed. -/
def threeEntries : Peer 3 Nat :=
  ((make 0 Persister.makePersister).appendEntries
    { term := 2, leaderId := 1, prevLogIndex := 0, prevLogTerm := -1, leaderCommit := 2,
      entries := [{ term := 1, command := some 7 }, { term := 2, command := some 8 },
        { term := 2, command := some 9 }] }).1

/-- It compacts both, and still refuses a candidate whose log is shorter. -/
theorem snapshot_transparent_threeEntries :
    (threeEntries.snapshot 2 [1]).log.length = 2 ∧
    ((threeEntries.snapshot 2 [1]).requestVote
      { term := 3, candidateId := 2, lastLogIndex := 2, lastLogTerm := 2 }).2 =
        { term := 3, voteGranted := false } := by
  refine ⟨by decide, ?_⟩
  rw [(@snapshot_transparent 3 Nat threeEntries 2 [1] (by decide) (by decide) (by decide)).1]
  decide

end Peer
end Raft
end Labs
