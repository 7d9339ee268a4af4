import Labs.Raft.Durable

/-!
# The log behind a compacted log

A peer keeps the part of its log above `lastIncludedIndex`, behind a placeholder.
`Compacts rf ℓ b` says that `ℓ` is the whole log and that the peer has compacted its
first `b` entries.  The critical sections that read or write the log are described
here in terms of the whole log.
-/

namespace Labs
namespace Raft

open Consensus

variable {n : Nat} {C : Type}

/-- The term at a logical index, with the source's `-1` where there is none. -/
def termOf (ℓ : List (LogEntry C)) : Nat → Int
  | 0 => -1
  | k + 1 =>
    match ℓ[k]? with
    | some e => e.term
    | none => -1

theorem termOf_succ {ℓ : List (LogEntry C)} {k : Nat} {e : LogEntry C} (h : ℓ[k]? = some e) :
    termOf ℓ (k + 1) = e.term := by
  simp [termOf, h]

theorem termOf_take (ℓ : List (LogEntry C)) (k : Nat) : termOf (ℓ.take k) k = termOf ℓ k := by
  cases k with
  | zero => rfl
  | succ k => simp [termOf]

theorem termOf_congr {ℓ ℓ' : List (LogEntry C)} {k : Nat} (h : ℓ.take k = ℓ'.take k) :
    termOf ℓ k = termOf ℓ' k := by
  rw [← termOf_take ℓ, h, termOf_take]

theorem termOf_take_of_le (ℓ : List (LogEntry C)) {k m : Nat} (h : k ≤ m) :
    termOf (ℓ.take m) k = termOf ℓ k := by
  refine termOf_congr ?_
  rw [List.take_take, min_eq_left h]

theorem termOf_of_isPrefix {P ℓ : List (LogEntry C)} (h : P <+: ℓ) {k : Nat}
    (hk : k ≤ P.length) : termOf ℓ k = termOf P k := by
  rw [List.prefix_iff_eq_take.mp h, termOf_take_of_le ℓ hk]

/-- Terms are positive, so that none is mistaken for the `-1` of an absent entry. -/
def Stamped (ℓ : List (LogEntry C)) : Prop := ∀ e ∈ ℓ, 0 < e.term

theorem Stamped.termOf_pos {ℓ : List (LogEntry C)} (h : Stamped ℓ) {k : Nat} (h0 : k ≠ 0)
    (hk : k ≤ ℓ.length) : 0 < termOf ℓ k := by
  obtain ⟨j, rfl⟩ : ∃ j, k = j + 1 := ⟨k - 1, by omega⟩
  obtain ⟨e, he⟩ : ∃ e, ℓ[j]? = some e := ⟨_, List.getElem?_eq_getElem (by omega)⟩
  rw [termOf_succ he]
  exact h e (List.mem_of_getElem? he)

/-- Where two logs have entries of one term they agree so far. -/
def Matching (ℓ L : List (LogEntry C)) : Prop :=
  ∀ k, k ≠ 0 → k ≤ ℓ.length → k ≤ L.length → termOf ℓ k = termOf L k → ℓ.take k = L.take k

/-- The request carries the entries of `L` that follow index `p`, and the term there. -/
structure AppendEntriesArgs.SliceOf (args : AppendEntriesArgs n C) (L : List (LogEntry C))
    (p : Nat) : Prop where
  prev : args.prevLogIndex = p
  le : p ≤ L.length
  term : args.prevLogTerm = termOf L p
  entries : L.take p ++ args.entries <+: L

theorem AppendEntriesArgs.SliceOf.mono {args : AppendEntriesArgs n C} {L L' : List (LogEntry C)}
    {p : Nat} (h : args.SliceOf L p) (hL : L <+: L') : args.SliceOf L' p := by
  have htake : L'.take p = L.take p := by
    obtain ⟨new, rfl⟩ := hL
    rw [List.take_append_of_le_length h.le]
  refine ⟨h.prev, h.le.trans hL.length_le, ?_, ?_⟩
  · rw [termOf_congr htake]
    exact h.term
  · rw [htake]
    exact h.entries.trans hL

theorem AppendEntriesArgs.SliceOf.length_le {args : AppendEntriesArgs n C}
    {L : List (LogEntry C)} {p : Nat} (h : args.SliceOf L p) :
    p + args.entries.length ≤ L.length := by
  have hle := h.entries.length_le
  have hp := h.le
  rw [List.length_append, List.length_take] at hle
  omega

namespace Peer

structure Compacts (rf : Peer n C) (ℓ : List (LogEntry C)) (b : Nat) : Prop where
  index : rf.lastIncludedIndex = b
  le : b ≤ ℓ.length
  log : ∃ d, rf.log = d :: ℓ.drop b
  term : rf.lastIncludedTerm = termOf ℓ b

namespace Compacts

variable {rf : Peer n C} {ℓ : List (LogEntry C)} {b : Nat}

/-- Only three fields matter. -/
theorem of_eq {rf' : Peer n C} (h : Compacts rf ℓ b)
    (hindex : rf'.lastIncludedIndex = rf.lastIncludedIndex) (hlog : rf'.log = rf.log)
    (hterm : rf'.lastIncludedTerm = rf.lastIncludedTerm) : Compacts rf' ℓ b :=
  ⟨hindex.trans h.index, h.le, by rw [hlog]; exact h.log, hterm.trans h.term⟩

theorem length (h : Compacts rf ℓ b) : rf.log.length = ℓ.length - b + 1 := by
  obtain ⟨d, hlog⟩ := h.log
  rw [hlog, List.length_cons, List.length_drop]

theorem getElem? (h : Compacts rf ℓ b) (k : Nat) : rf.log[k + 1]? = ℓ[b + k]? := by
  obtain ⟨d, hlog⟩ := h.log
  rw [hlog, List.getElem?_cons_succ, List.getElem?_drop]

theorem lastLogIndex (h : Compacts rf ℓ b) : rf.lastLogIndex = ℓ.length := by
  have hle := h.le
  unfold Peer.lastLogIndex
  rw [h.length, h.index]
  omega

theorem lastLogIndexTerm (h : Compacts rf ℓ b) : rf.lastLogIndexTerm = termOf ℓ ℓ.length := by
  obtain ⟨d, hlog⟩ := h.log
  have hle := h.le
  unfold Peer.lastLogIndexTerm
  by_cases hb : b < ℓ.length
  · rw [if_pos (by rw [h.length]; omega)]
    obtain ⟨k, hk⟩ : ∃ k, ℓ.length = k + 1 := ⟨ℓ.length - 1, by omega⟩
    have hlast : rf.log.getLast? = ℓ[k]? := by
      rw [List.getLast?_eq_getElem?, h.length, show ℓ.length - b + 1 - 1 = k - b + 1 by omega,
        h.getElem?, show b + (k - b) = k by omega]
    obtain ⟨e, hget⟩ : ∃ e, ℓ[k]? = some e := ⟨_, List.getElem?_eq_getElem (by omega)⟩
    rw [hlast, hget, hk, termOf_succ hget]
  · have hb : b = ℓ.length := by omega
    rw [if_neg (by rw [h.length]; omega), h.term, hb]

theorem termAt_physical (h : Compacts rf ℓ b) {k : Nat} (hk : 1 ≤ k) :
    rf.termAt k false = termOf ℓ (b + k) := by
  obtain ⟨j, rfl⟩ : ∃ j, k = j + 1 := ⟨k - 1, by omega⟩
  have hnot : ¬ ((j + 1 : Nat) : Int) < 0 := by omega
  unfold Peer.termAt
  simp only [Bool.false_eq_true, if_false, if_neg hnot, Int.toNat_natCast, h.getElem?]
  show _ = termOf ℓ (b + j + 1)
  cases hget : ℓ[b + j]? with
  | none => simp [termOf, hget]
  | some e => rw [termOf_succ hget]

theorem termAt_logical (h : Compacts rf ℓ b) {k : Nat} (hk : b < k) :
    rf.termAt k true = termOf ℓ k := by
  have hphys := h.termAt_physical (k := k - b) (by omega)
  rw [show b + (k - b) = k by omega] at hphys
  rw [← hphys]
  unfold Peer.termAt toPhysicalIndex
  simp only [if_true, Bool.false_eq_true, if_false, h.index]
  rw [show (k : Int) - (b : Int) = ((k - b : Nat) : Int) by omega]

theorem termAt_below (h : Compacts rf ℓ b) {k : Int} (hk : k < b) : rf.termAt k true = -1 := by
  unfold Peer.termAt toPhysicalIndex
  simp only [if_true, h.index]
  rw [if_pos (by omega)]

end Compacts

/-! ## Accepting entries -/

theorem conflictStart_nonneg (rf : Peer n C) (term : Int) (fuel : Nat) {i : Int}
    (hlii : 0 ≤ rf.lastIncludedIndex) (hi : 0 ≤ i) : 0 ≤ rf.conflictStart term fuel i := by
  induction fuel generalizing i with
  | zero => exact hi
  | succ fuel ih =>
      unfold conflictStart
      split
      · next hrun => exact ih (by omega)
      · exact hi

section Accept

variable {rf : Peer n C} {ℓ L : List (LogEntry C)} {b p : Nat} {args : AppendEntriesArgs n C}

/-- A request that is not rejected names the term the peer has at its index. -/
theorem Compacts.of_matchPrevLog_none (h : Compacts rf ℓ b) (hs : args.SliceOf L p)
    (hL : Stamped L) (hm : rf.matchPrevLog args = none) :
    p ≤ ℓ.length ∧ (p ≠ 0 → termOf ℓ p = termOf L p) := by
  unfold matchPrevLog at hm
  simp only [h.lastLogIndex, h.index, h.term, hs.prev, hs.term] at hm
  split at hm
  · cases hm
  · next hlen =>
      have hlen : p ≤ ℓ.length := by omega
      split at hm
      · next hb =>
          split at hm
          · cases hm
          · next heq =>
              have hb : p = b := by omega
              subst hb
              exact ⟨hlen, fun _ => not_not.mp heq⟩
      · next hb =>
          split at hm
          · cases hm
          · next heq =>
              have heq := not_not.mp heq
              by_cases hlt : b < p
              · rw [h.termAt_logical hlt] at heq
                exact ⟨hlen, fun _ => heq⟩
              · rw [h.termAt_below (by omega)] at heq
                refine ⟨hlen, fun h0 => ?_⟩
                have := hL.termOf_pos h0 hs.le
                omega

/-- A rejection tells the leader an index to go back to, which is never 0. -/
theorem Compacts.of_matchPrevLog_some (h : Compacts rf ℓ b) (hs : args.SliceOf L p)
    {reply : AppendEntriesReply} (hm : rf.matchPrevLog args = some reply) :
    reply.success = false ∧ (1 ≤ reply.xLen ∨ reply.xLen = 0 ∧ 1 ≤ reply.xIndex) := by
  unfold matchPrevLog at hm
  simp only [h.lastLogIndex, h.index, h.term, hs.prev, hs.term] at hm
  split at hm
  · cases hm
    refine ⟨rfl, .inl ?_⟩
    show 1 ≤ (ℓ.length : Int) + 1
    omega
  · split at hm
    · next hb =>
        split at hm
        · next hne =>
            cases hm
            refine ⟨rfl, .inr ⟨rfl, ?_⟩⟩
            show 1 ≤ (b : Int)
            have hb : p = b := by omega
            by_cases h0 : b = 0
            · exact absurd (by rw [hb, h0]; rfl) hne
            · omega
        · cases hm
    · split at hm
      · cases hm
        refine ⟨rfl, .inr ⟨rfl, ?_⟩⟩
        have hnonneg := conflictStart_nonneg rf (rf.termAt p true)
          ((p : Int) - b).toNat (by rw [h.index]; omega) (show (0 : Int) ≤ p by omega)
        show 1 ≤ _ + (1 : Int)
        omega
      · cases hm

/-- The entries that follow the first `k` of a log, taken one by one. -/
theorem next_of_isPrefix {k : Nat} {entry : LogEntry C} {rest : List (LogEntry C)}
    (h : L.take k ++ entry :: rest <+: L) :
    k + (rest.length + 1) ≤ L.length ∧ L[k]? = some entry ∧ L.take (k + 1) ++ rest <+: L ∧
      L.take (k + (rest.length + 1)) = L.take k ++ entry :: rest := by
  have hle := h.length_le
  rw [List.length_append, List.length_take, List.length_cons] at hle
  have hwhole : (L.take k).length = k := List.length_take_of_le (by omega)
  have htake : L.take (k + (rest.length + 1)) = L.take k ++ entry :: rest := by
    rw [List.prefix_iff_eq_take.mp h, List.length_append, hwhole, List.length_cons]
  have hget : L[k]? = some entry := by
    obtain ⟨post, hpost⟩ := h
    rw [← hpost, List.append_assoc, List.getElem?_append_right (by omega), hwhole]
    simp
  refine ⟨by omega, hget, ?_, htake⟩
  rw [List.take_add_one, hget, Option.toList_some, List.append_assoc]
  exact h

/-- The loop over the entries takes over the leader's log up to the last of them,
unless the peer has it already.  The induction is on the entries that are left; up
to the first of these the two logs agree. -/
theorem Compacts.mergeEntries (h : Compacts rf ℓ b) (hb : ℓ.take b = L.take b)
    (hmatch : Matching ℓ L) {d : LogEntry C} (hlog : rf.log = d :: ℓ.drop b)
    (rest : List (LogEntry C))
    (i : Nat) (hagree : ℓ.take (p + i) = L.take (p + i)) (hlen : p + i ≤ ℓ.length)
    (hrest : L.take (p + i) ++ rest <+: L) :
    rf.mergeEntries p i rest = d :: (adopt L (p + i + rest.length) ℓ).drop b := by
  induction rest generalizing i with
  | nil =>
      unfold Peer.mergeEntries
      rw [adopt_of_isPrefix, hlog]
      rw [List.length_nil, Nat.add_zero, ← hagree]
      exact List.take_prefix _ _
  | cons entry rest ih =>
      obtain ⟨hLlen, hget, hstep, htake⟩ := next_of_isPrefix hrest
      have hterm : termOf L (p + (i + 1)) = entry.term := termOf_succ hget
      rw [List.length_cons]
      unfold Peer.mergeEntries
      simp only [toPhysicalIndex, h.index, h.length]
      split
      · next hbelow =>
          -- below the snapshot the logs agree anyway
          have hsub : ℓ.take (p + (i + 1)) = L.take (p + (i + 1)) := by
            have := congrArg (List.take (p + (i + 1))) hb
            rw [List.take_take, List.take_take, min_eq_left (by omega)] at this
            exact this
          have hle := h.le
          rw [ih (i + 1) hsub (by omega) hstep]
          congr 3
          omega
      · split
        · next hbelow hend =>
            -- the log ends where the first new entry goes
            have hle := h.le
            have hall : ℓ = L.take (p + i) := by
              rw [← hagree, List.take_of_length_le (by omega)]
            have hnot : ¬ L.take (p + i + (rest.length + 1)) <+: ℓ := by
              intro hpre
              have := hpre.length_le
              rw [List.length_take] at this
              omega
            rw [adopt_of_not hnot, htake, ← hall, hlog, List.cons_append,
              List.drop_append_of_le_length hle]
        · next hbelow hend =>
            have hin : p + i < ℓ.length := by omega
            have hphys : (p : Int) + 1 + i - b = ((p + i - b + 1 : Nat) : Int) := by omega
            have htermAt : rf.termAt ((p : Int) + 1 + i - b) false = termOf ℓ (p + (i + 1)) := by
              rw [hphys, h.termAt_physical (by omega)]
              congr 1
              omega
            rw [htermAt]
            split
            · next hne =>
                have hnot : ¬ L.take (p + i + (rest.length + 1)) <+: ℓ := by
                  intro hpre
                  refine hne ?_
                  have hlen' := List.length_take_of_le hLlen
                  rw [termOf_of_isPrefix hpre (by omega), termOf_take_of_le L (by omega), hterm]
                rw [adopt_of_not hnot, htake, ← hagree, hlog, hphys, Int.toNat_natCast,
                  List.take_succ_cons, List.cons_append,
                  List.drop_append_of_le_length (by rw [List.length_take]; omega)]
                congr 2
                rw [List.drop_take]
            · next heq =>
                have heq := not_not.mp heq
                have hsub := hmatch (p + (i + 1)) (by omega) (by omega) (by omega)
                  (heq.trans hterm.symm)
                rw [ih (i + 1) hsub (by omega) hstep]
                congr 3
                omega

end Accept

/-! ## Sections that leave the log alone -/

/-- The log, the snapshot and how far it is committed and applied stay. -/
structure SameLog (rf rf' : Peer n C) : Prop where
  index : rf'.lastIncludedIndex = rf.lastIncludedIndex
  log : rf'.log = rf.log
  term : rf'.lastIncludedTerm = rf.lastIncludedTerm
  commit : rf'.commitIndex = rf.commitIndex
  applied : rf'.lastApplied = rf.lastApplied
  flag : rf'.applySnapshot = rf.applySnapshot

theorem SameLog.refl (rf : Peer n C) : SameLog rf rf := ⟨rfl, rfl, rfl, rfl, rfl, rfl⟩

theorem SameLog.compacts {rf rf' : Peer n C} {ℓ : List (LogEntry C)} {b : Nat}
    (h : SameLog rf rf') (hc : Compacts rf ℓ b) : Compacts rf' ℓ b :=
  hc.of_eq h.index h.log h.term

/-- The snapshot stays, and how far the log is applied. -/
structure SameApplied (rf rf' : Peer n C) : Prop where
  index : rf'.lastIncludedIndex = rf.lastIncludedIndex
  applied : rf'.lastApplied = rf.lastApplied
  flag : rf'.applySnapshot = rf.applySnapshot

theorem SameApplied.refl (rf : Peer n C) : SameApplied rf rf := ⟨rfl, rfl, rfl⟩

theorem SameLog.sameApplied {rf rf' : Peer n C} (h : SameLog rf rf') : SameApplied rf rf' :=
  ⟨h.index, h.applied, h.flag⟩

theorem sameLog_stepDown (rf : Peer n C) (newTerm : Int) :
    SameLog rf (rf.stepDown newTerm).1 := by
  unfold stepDown
  split
  · exact SameLog.refl rf
  · exact ⟨rfl, rfl, rfl, rfl, rfl, rfl⟩

theorem sameLog_requestVote (rf : Peer n C) (args : RequestVoteArgs n) :
    SameLog rf (rf.requestVote args).1 := by
  rcases lt_or_ge args.term rf.currentTerm with hlt | hle
  · rw [requestVote_of_lt hlt]
    exact SameLog.refl rf
  · have hdown := sameLog_stepDown rf args.term
    rw [requestVote_of_le hle]
    dsimp only
    split
    · exact ⟨hdown.index, hdown.log, hdown.term, hdown.commit, hdown.applied, hdown.flag⟩
    · exact hdown

theorem sameLog_startElection (rf : Peer n C) : SameLog rf rf.startElection.1 :=
  ⟨rfl, rfl, rfl, rfl, rfl, rfl⟩

/-! ## The handlers, on the whole log -/

section Handlers

variable {rf : Peer n C} {ℓ L : List (LogEntry C)} {b : Nat}

theorem updateFollowerCommitIndex_commit (rf : Peer n C) {leaderCommit lastNewIndex : Int}
    (h : leaderCommit ≤ lastNewIndex) :
    rf.updateFollowerCommitIndex leaderCommit lastNewIndex =
      { rf with commitIndex := max rf.commitIndex leaderCommit } := by
  unfold updateFollowerCommitIndex
  split
  · split
    · rw [max_eq_right (by omega)]
    · rw [show lastNewIndex = leaderCommit by omega, max_eq_right (by omega)]
  · rw [max_eq_left (by omega)]

/-- What `AppendEntries` does to a peer that is not ahead of the leader, which has the
log `L`: a rejection only makes it a follower, and otherwise it adopts the log up to
the last entry of the request. -/
theorem Compacts.appendEntries (h : Compacts rf ℓ b) {args : AppendEntriesArgs n C} {p : Nat}
    {rf' : Peer n C} {reply : AppendEntriesReply} (hle : rf.currentTerm ≤ args.term)
    (hs : args.SliceOf L p) (hL : Stamped L) (hb : ℓ.take b = L.take b) (hmatch : Matching ℓ L)
    (hcommit : args.leaderCommit ≤ p + args.entries.length)
    (hrun : rf.appendEntries args = (rf', reply)) :
    rf'.currentTerm = args.term ∧ rf'.status = .follower ∧
      (SameLog rf rf' ∧ reply.success = false ∧
          (1 ≤ reply.xLen ∨ reply.xLen = 0 ∧ 1 ≤ reply.xIndex) ∨
        reply.success = true ∧ Compacts rf' (adopt L (p + args.entries.length) ℓ) b ∧
          rf'.commitIndex = max rf.commitIndex args.leaderCommit ∧
          rf'.lastApplied = rf.lastApplied ∧ rf'.applySnapshot = rf.applySnapshot) := by
  have hterm : (rf.stepDown args.term).1.currentTerm = args.term := by
    rw [stepDown_currentTerm, max_eq_right hle]
  have hdown : SameLog rf { (rf.stepDown args.term).1 with status := .follower } := by
    have := sameLog_stepDown rf args.term
    exact ⟨this.index, this.log, this.term, this.commit, this.applied, this.flag⟩
  have hc := hdown.compacts h
  unfold Peer.appendEntries at hrun
  rw [if_neg (by omega)] at hrun
  dsimp only at hrun
  split at hrun
  · next rejected hm =>
      cases hrun
      exact ⟨hterm, rfl, .inl ⟨hdown, hc.of_matchPrevLog_some hs hm⟩⟩
  · next hm =>
      obtain ⟨hlen, heq⟩ := hc.of_matchPrevLog_none hs hL hm
      have hagree : ℓ.take p = L.take p := by
        by_cases h0 : p = 0
        · rw [h0, List.take_zero, List.take_zero]
        · exact hmatch p h0 hlen hs.le (heq h0)
      obtain ⟨d, hlog⟩ := hc.log
      have hmerge := hc.mergeEntries hb hmatch hlog args.entries 0 hagree hlen hs.entries
      rw [Nat.add_zero] at hmerge
      rw [hs.prev, updateFollowerCommitIndex_commit _ hcommit, hmerge] at hrun
      cases hrun
      have hL' : ℓ.take b <+: adopt L (p + args.entries.length) ℓ :=
        prefix_adopt _ (hb ▸ List.take_prefix _ _) (List.take_prefix _ _)
      have hbl : (ℓ.take b).length = b := by
        rw [List.length_take, min_eq_left h.le]
      refine ⟨hterm, rfl, .inr ⟨rfl, ⟨hc.index, ?_, ⟨d, rfl⟩, ?_⟩, ?_, hdown.applied, hdown.flag⟩⟩
      · rw [← hbl]
        exact hL'.length_le
      · rw [termOf_of_isPrefix hL' hbl.ge, termOf_take]
        exact hc.term
      · show max (rf.stepDown args.term).1.commitIndex args.leaderCommit = _
        rw [hdown.commit]

/-- Looking for the entry a snapshot ends with is asking whether the log covers it. -/
theorem Compacts.findSnapshotEntry (h : Compacts rf ℓ b) {args : InstallSnapshotArgs n} {k : Nat}
    (hindex : args.lastIncludedIndex = k) (hterm : args.lastIncludedTerm = termOf L k)
    (hk : k ≤ L.length) (hbk : b < k) (hmatch : Matching ℓ L) :
    rf.findSnapshotEntry args = some (k - b) ∧ L.take k <+: ℓ ∨
      rf.findSnapshotEntry args = none ∧ ¬ L.take k <+: ℓ := by
  cases hfind : rf.findSnapshotEntry args with
  | some i =>
      unfold Peer.findSnapshotEntry at hfind
      have hmem := List.mem_range'_1.mp (List.mem_of_find?_eq_some hfind)
      have hpred := List.find?_some hfind
      rw [decide_eq_true_eq] at hpred
      rw [h.length] at hmem
      rw [h.index, hindex, h.termAt_physical hmem.1, hterm] at hpred
      obtain ⟨hi, hti⟩ := hpred
      have hik : i = k - b := by omega
      refine .inl ⟨by rw [hik], ?_⟩
      rw [show b + i = k by omega] at hti
      rw [← hmatch k (by omega) (by have := h.le; omega) hk hti]
      exact List.take_prefix _ _
  | none =>
      refine .inr ⟨rfl, fun hpre => ?_⟩
      unfold Peer.findSnapshotEntry at hfind
      have hlen : (L.take k).length = k := by
        rw [List.length_take, min_eq_left hk]
      have hkl := hpre.length_le
      rw [hlen] at hkl
      have hnot := List.find?_eq_none.mp hfind (k - b) (List.mem_range'_1.mpr (by
        rw [h.length]
        omega))
      refine hnot (decide_eq_true ⟨by rw [h.index, hindex]; omega, ?_⟩)
      rw [h.termAt_physical (by omega), hterm, show b + (k - b) = k by omega,
        termOf_of_isPrefix hpre hlen.ge, termOf_take]

/-- What `InstallSnapshot` does to a peer that is not ahead of the leader: a snapshot
it has passed leaves its log alone, any other replaces what the log has below it. -/
theorem Compacts.installSnapshot (h : Compacts rf ℓ b) {args : InstallSnapshotArgs n} {k : Nat}
    {rf' : Peer n C} {reply : InstallSnapshotReply} (hle : rf.currentTerm ≤ args.term)
    (hindex : args.lastIncludedIndex = k) (hterm : args.lastIncludedTerm = termOf L k)
    (hk : k ≤ L.length) (hmatch : Matching ℓ L)
    (hrun : rf.installSnapshot args = (rf', reply)) :
    rf'.currentTerm = args.term ∧ rf'.status = .follower ∧
      (k ≤ b ∧ SameLog rf rf' ∨
        b < k ∧ Compacts rf' (adopt L k ℓ) k ∧ rf'.commitIndex = max rf.commitIndex k ∧
          rf'.lastApplied = max rf.lastApplied k ∧ rf'.applySnapshot = true) := by
  unfold Peer.installSnapshot at hrun
  dsimp only at hrun
  rw [if_neg (by omega)] at hrun
  by_cases hkb : k ≤ b
  · rw [if_pos (by rw [h.index, hindex]; omega)] at hrun
    cases hrun
    exact ⟨rfl, rfl, .inl ⟨hkb, ⟨rfl, rfl, rfl, rfl, rfl, rfl⟩⟩⟩
  · rw [if_neg (by rw [h.index, hindex]; omega)] at hrun
    have hbk : b < k := by omega
    have hmax : ∀ x : Int,
        (if x < args.lastIncludedIndex then args.lastIncludedIndex else x) = max x k := by
      intro x
      rw [hindex]
      split
      · rw [max_eq_right (by omega)]
      · rw [max_eq_left (by omega)]
    have hpre := take_prefix_adopt L k ℓ
    have hlen : (L.take k).length = k := by
      rw [List.length_take, min_eq_left hk]
    have hc : Compacts { rf with
        currentTerm := args.term, votedFor := none, status := .follower } ℓ b :=
      h.of_eq rfl rfl rfl
    obtain ⟨d, hd⟩ := h.log
    cases hrun
    refine ⟨rfl, rfl, .inr ⟨hbk, ⟨hindex, ?_, ⟨placeholder args.lastIncludedTerm, ?_⟩, ?_⟩,
      hmax _, hmax _, rfl⟩⟩
    · have := hpre.length_le
      omega
    · rcases hc.findSnapshotEntry hindex hterm hk hbk hmatch with ⟨hfind, hin⟩ | ⟨hfind, hout⟩
      · simp only [persist, hfind]
        rw [adopt_of_isPrefix hin, hd, List.drop_succ_cons, List.drop_drop,
          show b + (k - b) = k by omega]
      · simp only [persist, hfind]
        rw [adopt_of_not hout, List.drop_take, Nat.sub_self, List.take_zero]
    · rw [termOf_of_isPrefix hpre hlen.ge, termOf_take]
      exact hterm

theorem snapshot_eq (rf : Peer n C) (index : Int) (data : Bytes) :
    ∃ lastIndex lastTerm log bytes persister, rf.snapshot index data = { rf with
      lastIncludedIndex := lastIndex
      lastIncludedTerm := lastTerm
      log := log
      snapshotBytes := bytes
      persister := persister } := by
  unfold Peer.snapshot
  split
  · exact ⟨_, _, _, _, _, rfl⟩
  · dsimp only
    split <;> exact ⟨_, _, _, _, _, rfl⟩

theorem snapshot_lastIncludedIndex (rf : Peer n C) (index : Int) (data : Bytes) :
    (rf.snapshot index data).lastIncludedIndex = max rf.lastIncludedIndex index := by
  unfold Peer.snapshot
  split
  · next hle => rw [max_eq_left hle]
  · next hlt =>
      rw [max_eq_right (not_le.mp hlt).le]
      dsimp only
      split <;> rfl

/-- A snapshot that does not reach beyond the log moves the compacted part up. -/
theorem Compacts.snapshot (h : Compacts rf ℓ b) {index : Int} (data : Bytes)
    (hindex : index ≤ ℓ.length) : Compacts (rf.snapshot index data) ℓ (max b index.toNat) := by
  have hle := h.le
  unfold Peer.snapshot
  by_cases hib : index ≤ b
  · rw [if_pos (by rw [h.index]; exact hib), max_eq_left (by omega)]
    exact h
  · obtain ⟨k, rfl⟩ : ∃ k : Nat, index = b + k := ⟨(index - b).toNat, by omega⟩
    have hphys : rf.toPhysicalIndex (b + k) = k := by
      rw [toPhysicalIndex, h.index]
      omega
    have hlen := h.length
    rw [if_neg (by rw [h.index]; exact hib)]
    dsimp only
    rw [hphys, if_neg (by omega), show max b ((b : Int) + k).toNat = b + k by omega]
    obtain ⟨d, hlog⟩ := h.log
    refine ⟨by simp [persist], by omega, ⟨placeholder 0, ?_⟩, h.termAt_physical (by omega)⟩
    show placeholder 0 :: rf.log.drop ((k : Int).toNat + 1) = _
    rw [hlog, List.drop_succ_cons, List.drop_drop, Int.toNat_natCast]

theorem start_of_leader {command : Option C} (hlead : rf.status = .leader) :
    (rf.start command).1 = { rf with
      log := rf.log ++ [({ term := rf.currentTerm, command := command } : LogEntry C)]
      }.persist := by
  simp [Peer.start, hlead]

theorem start_of_not_leader {command : Option C} (hlead : rf.status ≠ .leader) :
    (rf.start command).1 = rf := by
  simp [Peer.start, hlead]

theorem Compacts.start (h : Compacts rf ℓ b) (command : Option C) (hlead : rf.status = .leader) :
    Compacts (rf.start command).1 (ℓ ++ [{ term := rf.currentTerm, command := command }]) b := by
  have hle := h.le
  obtain ⟨d, hlog⟩ := h.log
  rw [start_of_leader hlead]
  refine ⟨h.index, ?_, ⟨d, ?_⟩, ?_⟩
  · rw [List.length_append]
    omega
  · show rf.log ++ _ = _
    rw [hlog, List.cons_append, List.drop_append_of_le_length hle]
  · rw [termOf_of_isPrefix (List.prefix_append _ _) hle]
    exact h.term

/-- After a restart the peer has the log it had. -/
theorem Compacts.make (h : Compacts rf ℓ b) (hs : rf.Saved) :
    Compacts (make rf.me rf.persister) ℓ b :=
  h.of_eq hs.2.2.2.1 hs.2.2.1 hs.2.2.2.2.1

/-- The peer's answer to a candidate is the comparison of the whole logs. -/
theorem Compacts.upToDate (h : Compacts rf ℓ b) {c : List (LogEntry C)} (hℓ : Stamped ℓ)
    (hup : rf.isLogUpToDate c.length (termOf c c.length) = true) : UpToDate c ℓ := by
  intro l hl
  have hlast : ∀ {m : List (LogEntry C)} {e}, m.getLast? = some e → termOf m m.length = e.term := by
    intro m e he
    rw [List.getLast?_eq_getElem?] at he
    have hlt := (List.getElem?_eq_some_iff.mp he).1
    rw [← termOf_succ he]
    congr 1
    omega
  have hpos : 0 < l.term := hℓ l (List.mem_of_getLast? hl)
  unfold Peer.isLogUpToDate at hup
  simp only [h.lastLogIndex, h.lastLogIndexTerm, hlast hl] at hup
  cases hc : c.getLast? with
  | none =>
      rw [List.getLast?_eq_none_iff.mp hc] at hup
      have h0 : termOf ([] : List (LogEntry C)) 0 = -1 := rfl
      simp only [List.length_nil, h0] at hup
      split at hup
      · have := of_decide_eq_true hup
        omega
      · omega
  | some e =>
      refine ⟨e, rfl, ?_⟩
      rw [hlast hc] at hup
      split at hup
      · exact .inl (of_decide_eq_true hup)
      · next heq =>
          have := of_decide_eq_true hup
          exact .inr ⟨(not_not.mp heq).symm, by omega⟩

/-! ## Leading -/

/-- The commit index of a leader moves to an index of its own term that enough peers
have matched, or stays. -/
theorem commitLoop_cases (rf : Peer n C) (fuel : Nat) (N : Int) :
    rf.commitLoop fuel N = rf ∨ ∃ k, rf.commitIndex < k ∧ k ≤ N ∧
      rf.termAt k true = rf.currentTerm ∧ rf.countMatch k > n / 2 ∧
      rf.commitLoop fuel N = { rf with commitIndex := k } := by
  induction fuel generalizing N with
  | zero => exact .inl rfl
  | succ fuel ih =>
      unfold commitLoop
      split
      · next hN =>
          split
          · next hguard => exact .inr ⟨N, hN, le_refl _, hguard.1, hguard.2, rfl⟩
          · rcases ih (N - 1) with hsame | ⟨k, hk, hkN, hterm, hcount, heq⟩
            · exact .inl hsame
            · exact .inr ⟨k, hk, by omega, hterm, hcount, heq⟩
      · exact .inl rfl

theorem updateLeaderCommitIndex_eq (rf : Peer n C) :
    ∃ k, rf.updateLeaderCommitIndex = { rf with commitIndex := k } := by
  unfold updateLeaderCommitIndex
  rcases commitLoop_cases rf (rf.lastLogIndex - rf.commitIndex).toNat rf.lastLogIndex with
    heq | ⟨k, -, -, -, -, heq⟩
  · exact ⟨rf.commitIndex, heq⟩
  · exact ⟨k, heq⟩

theorem updateMatchAndNextIndex_eq (rf : Peer n C) (peer : Fin n) (newMatchIndex : Int) :
    rf.updateMatchAndNextIndex peer newMatchIndex = { rf with
      matchIndex := Function.update rf.matchIndex peer (max (rf.matchIndex peer) newMatchIndex)
      nextIndex :=
        Function.update rf.nextIndex peer (max (rf.matchIndex peer) newMatchIndex + 1) } := by
  unfold updateMatchAndNextIndex
  split
  · next hlt =>
      rw [max_eq_right hlt.le]
      simp
  · next hle =>
      rw [max_eq_left (not_lt.mp hle), Function.update_eq_self]

theorem findLastIndexOfTerm_cases (rf : Peer n C) (term : Int) :
    rf.findLastIndexOfTerm term = -1 ∨ rf.lastIncludedIndex ≤ rf.findLastIndexOfTerm term := by
  have hloop : ∀ (is : List Nat) (index : Int), index = -1 ∨ rf.lastIncludedIndex ≤ index →
      is.foldl (fun index (i : Nat) =>
        if rf.termAt i false = term then (i : Int) + rf.lastIncludedIndex else index) index = -1 ∨
      rf.lastIncludedIndex ≤ is.foldl (fun index (i : Nat) =>
        if rf.termAt i false = term then (i : Int) + rf.lastIncludedIndex else index) index := by
    intro is
    induction is with
    | nil => exact fun index h => h
    | cons i is ih =>
        intro index h
        refine ih _ ?_
        dsimp only
        split
        · exact .inr (by omega)
        · exact h
  unfold findLastIndexOfTerm
  dsimp only
  split
  · exact .inr (le_refl _)
  · exact hloop _ _ (.inl rfl)

/-- A reply makes the leader step down, raises what it knows of the peer, or moves
the index of the next entry to try. -/
theorem handleAppendEntriesReply_cases (rf : Peer n C) (peer : Fin n)
    (args : AppendEntriesArgs n C) (reply : AppendEntriesReply) :
    rf.handleAppendEntriesReply peer args reply = rf ∨
    rf.currentTerm < reply.term ∧
      rf.handleAppendEntriesReply peer args reply = (rf.stepDown reply.term).1 ∨
    rf.status = .leader ∧ rf.currentTerm = args.term ∧ reply.term ≤ args.term ∧
      (reply.success = true ∧ rf.handleAppendEntriesReply peer args reply =
          (rf.updateMatchAndNextIndex peer
            (args.prevLogIndex + args.entries.length)).updateLeaderCommitIndex ∨
        reply.success = false ∧ ∃ next, rf.handleAppendEntriesReply peer args reply =
            { rf with nextIndex := Function.update rf.nextIndex peer next } ∧
          (next = reply.xLen ∧ reply.xLen ≠ 0 ∨ next = reply.xIndex ∧ reply.xLen = 0 ∨
            rf.lastIncludedIndex < next)) := by
  by_cases hguard : rf.status ≠ .leader ∨ rf.currentTerm ≠ args.term
  · refine .inl ?_
    unfold handleAppendEntriesReply
    rw [if_pos hguard]
  · have hlead : rf.status = .leader ∧ rf.currentTerm = args.term := by
      simpa only [ne_eq, not_or, not_not] using hguard
    by_cases hterm : rf.currentTerm < reply.term
    · refine .inr (.inl ⟨hterm, ?_⟩)
      unfold handleAppendEntriesReply
      rw [if_neg hguard, stepDown_of_lt hterm]
      rfl
    · refine .inr (.inr ⟨hlead.1, hlead.2, by omega, ?_⟩)
      have hdown : rf.stepDown reply.term = (rf, false) := stepDown_of_le (by omega)
      unfold handleAppendEntriesReply
      rw [if_neg hguard, hdown]
      simp only [Bool.false_eq_true, if_false]
      by_cases hs : reply.success = true
      · exact .inl ⟨hs, by rw [if_pos hs]⟩
      · refine .inr ⟨by simpa using hs, ?_⟩
        rw [if_neg hs]
        by_cases hx : reply.xLen = 0
        · rw [if_neg (not_not.mpr hx)]
          by_cases hi : rf.findLastIndexOfTerm reply.xTerm = -1
          · rw [if_pos hi]
            exact ⟨_, rfl, .inr (.inl ⟨rfl, hx⟩)⟩
          · rw [if_neg hi]
            refine ⟨_, rfl, .inr (.inr ?_)⟩
            rcases findLastIndexOfTerm_cases rf reply.xTerm with h | h
            · exact absurd h hi
            · omega
        · rw [if_pos hx]
          exact ⟨_, rfl, .inl ⟨rfl, hx⟩⟩

theorem handleInstallSnapshotReply_cases (rf : Peer n C) (peer : Fin n)
    (args : InstallSnapshotArgs n) (reply : InstallSnapshotReply) :
    rf.handleInstallSnapshotReply peer args reply = rf ∨
    rf.currentTerm < reply.term ∧
      rf.handleInstallSnapshotReply peer args reply = (rf.stepDown reply.term).1 ∨
    rf.status = .leader ∧ rf.currentTerm = args.term ∧ reply.term ≤ args.term ∧
      rf.handleInstallSnapshotReply peer args reply =
        rf.updateMatchAndNextIndex peer args.lastIncludedIndex := by
  by_cases hguard : rf.status ≠ .leader ∨ rf.currentTerm ≠ args.term
  · refine .inl ?_
    unfold handleInstallSnapshotReply
    rw [if_pos hguard]
  · have hlead : rf.status = .leader ∧ rf.currentTerm = args.term := by
      simpa only [ne_eq, not_or, not_not] using hguard
    unfold handleInstallSnapshotReply
    rw [if_neg hguard]
    by_cases hterm : rf.currentTerm < reply.term
    · refine .inr (.inl ⟨hterm, ?_⟩)
      rw [stepDown_of_lt hterm]
      rfl
    · refine .inr (.inr ⟨hlead.1, hlead.2, by omega, ?_⟩)
      rw [stepDown_of_le (by omega)]
      rfl

/-! ## What the other sections leave alone -/

theorem handleAppendEntriesReply_frame (rf : Peer n C) (peer : Fin n)
    (args : AppendEntriesArgs n C) (reply : AppendEntriesReply) :
    rf.handleAppendEntriesReply peer args reply = (rf.stepDown reply.term).1 ∨
      ∃ next known commit, rf.handleAppendEntriesReply peer args reply =
        { rf with nextIndex := next, matchIndex := known, commitIndex := commit } := by
  rcases handleAppendEntriesReply_cases rf peer args reply with
    heq | ⟨-, heq⟩ | ⟨-, -, -, ⟨-, heq⟩ | ⟨-, next, heq, -⟩⟩
  · exact .inr ⟨_, _, _, heq⟩
  · exact .inl heq
  · obtain ⟨k, heq'⟩ := updateLeaderCommitIndex_eq
      (rf.updateMatchAndNextIndex peer (args.prevLogIndex + args.entries.length))
    rw [heq, heq', updateMatchAndNextIndex_eq]
    exact .inr ⟨_, _, _, rfl⟩
  · exact .inr ⟨_, _, _, heq⟩

theorem handleInstallSnapshotReply_frame (rf : Peer n C) (peer : Fin n)
    (args : InstallSnapshotArgs n) (reply : InstallSnapshotReply) :
    rf.handleInstallSnapshotReply peer args reply = (rf.stepDown reply.term).1 ∨
      ∃ next known, rf.handleInstallSnapshotReply peer args reply =
        { rf with nextIndex := next, matchIndex := known } := by
  rcases handleInstallSnapshotReply_cases rf peer args reply with
    heq | ⟨-, heq⟩ | ⟨-, -, -, heq⟩
  · exact .inr ⟨_, _, heq⟩
  · exact .inl heq
  · rw [heq, updateMatchAndNextIndex_eq]
    exact .inr ⟨_, _, rfl⟩

/-- Only a candidate changes its role, unless it steps down. -/
theorem handleRequestVoteReply_frame (rf : Peer n C) (args : RequestVoteArgs n)
    (reply : RequestVoteReply) (votes : Nat) :
    (rf.handleRequestVoteReply args reply votes).1 = (rf.stepDown reply.term).1 ∨
      ∃ status next known, (rf.handleRequestVoteReply args reply votes).1 =
          { rf with status := status, nextIndex := next, matchIndex := known } ∧
        (status = rf.status ∨ rf.status = .candidate) := by
  unfold handleRequestVoteReply
  split
  · exact .inr ⟨_, _, _, rfl, .inl rfl⟩
  · next hguard =>
      split
      · exact .inl rfl
      · split
        · exact .inr ⟨_, _, _, rfl, .inl rfl⟩
        · dsimp only
          split
          · have hcand : rf.status = .candidate := not_not.mp fun hne => hguard (.inr hne)
            unfold becomeLeader
            split <;> exact .inr ⟨_, _, _, rfl, .inr hcand⟩
          · exact .inr ⟨_, _, _, rfl, .inl rfl⟩

theorem applyCommitted_frame {rf' : Peer n C} {msgs : List (ApplyMsg C)}
    (h : rf.applyCommitted = some (rf', msgs)) :
    ∃ applied flag, rf' = { rf with lastApplied := applied, applySnapshot := flag } := by
  unfold applyCommitted at h
  split at h
  · cases h
  · split at h <;> cases h <;> exact ⟨_, _, rfl⟩

/-! ## Sections that apply nothing -/

theorem sameApplied_handleRequestVoteReply {rf' : Peer n C} {args : RequestVoteArgs n}
    {reply : RequestVoteReply} {votes votes' : Nat} {started : Bool}
    (h : rf.handleRequestVoteReply args reply votes = (rf', votes', started)) :
    SameApplied rf rf' := by
  have hframe := handleRequestVoteReply_frame rf args reply votes
  rw [h] at hframe
  dsimp only at hframe
  rcases hframe with heq | ⟨status, next, known, heq, -⟩
  · rw [heq]
    exact (sameLog_stepDown rf _).sameApplied
  · rw [heq]
    exact ⟨rfl, rfl, rfl⟩

theorem sameApplied_appendEntries (rf : Peer n C) (args : AppendEntriesArgs n C) :
    SameApplied rf (rf.appendEntries args).1 := by
  have hdown := (sameLog_stepDown rf args.term).sameApplied
  unfold Peer.appendEntries
  split
  · exact SameApplied.refl rf
  · dsimp only
    split
    · exact ⟨hdown.index, hdown.applied, hdown.flag⟩
    · unfold updateFollowerCommitIndex
      split
      · split <;> exact ⟨hdown.index, hdown.applied, hdown.flag⟩
      · exact ⟨hdown.index, hdown.applied, hdown.flag⟩

/-- An `InstallSnapshot` that is stale or has nothing new applies nothing. -/
theorem installSnapshot_applied (rf : Peer n C) (args : InstallSnapshotArgs n) :
    SameApplied rf (rf.installSnapshot args).1 ∨
      rf.currentTerm ≤ args.term ∧ rf.lastIncludedIndex < args.lastIncludedIndex ∧
        (rf.installSnapshot args).1.lastIncludedIndex = args.lastIncludedIndex ∧
        (rf.installSnapshot args).1.lastApplied =
          max rf.lastApplied args.lastIncludedIndex ∧
        (rf.installSnapshot args).1.applySnapshot = true := by
  unfold Peer.installSnapshot
  dsimp only
  split
  · exact .inl (SameApplied.refl rf)
  · next hterm =>
      split
      · exact .inl ⟨rfl, rfl, rfl⟩
      · next hindex =>
          refine .inr ⟨not_lt.mp hterm, not_le.mp hindex, rfl, ?_, rfl⟩
          show (if rf.lastApplied < args.lastIncludedIndex then args.lastIncludedIndex
            else rf.lastApplied) = _
          split
          · next hlt => rw [max_eq_right hlt.le]
          · next hge => rw [max_eq_left (not_lt.mp hge)]

theorem sameApplied_start (rf : Peer n C) (command : Option C) :
    SameApplied rf (rf.start command).1 := by
  by_cases hlead : rf.status = .leader
  · rw [start_of_leader hlead]
    exact ⟨rfl, rfl, rfl⟩
  · rw [start_of_not_leader hlead]
    exact SameApplied.refl rf

theorem sameApplied_handleAppendEntriesReply (rf : Peer n C) (peer : Fin n)
    (args : AppendEntriesArgs n C) (reply : AppendEntriesReply) :
    SameApplied rf (rf.handleAppendEntriesReply peer args reply) := by
  rcases handleAppendEntriesReply_frame rf peer args reply with
    heq | ⟨next, known, commit, heq⟩
  · rw [heq]
    exact (sameLog_stepDown rf _).sameApplied
  · rw [heq]
    exact ⟨rfl, rfl, rfl⟩

theorem sameApplied_handleInstallSnapshotReply (rf : Peer n C) (peer : Fin n)
    (args : InstallSnapshotArgs n) (reply : InstallSnapshotReply) :
    SameApplied rf (rf.handleInstallSnapshotReply peer args reply) := by
  rcases handleInstallSnapshotReply_frame rf peer args reply with heq | ⟨next, known, heq⟩
  · rw [heq]
    exact (sameLog_stepDown rf _).sameApplied
  · rw [heq]
    exact ⟨rfl, rfl, rfl⟩

end Handlers
end Peer
end Raft
end Labs
