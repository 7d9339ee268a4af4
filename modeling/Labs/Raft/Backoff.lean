import Labs.Raft.Compact
import Mathlib.Order.Bounds.Basic

/-!
# Going back to where the logs match

A follower that rejects `AppendEntries` tells the leader the length of its log, or the
term that it has at `PrevLogIndex` and where its run of that term begins.  From this the
leader computes the next index to try.  The lemmas below are about two logs that are
`Aligned`: terms do not fall, and what the follower has of a term is what the leader has
of it, as far as the leader has it.
-/

namespace Labs
namespace Raft

variable {n : Nat} {C : Type}

def Rising (ℓ : List (LogEntry C)) : Prop :=
  ∀ i j, i ≠ 0 → i ≤ j → j ≤ ℓ.length → termOf ℓ i ≤ termOf ℓ j

/-- Both logs have the index, with one term; they agree at 0, which is before them. -/
def Agree (L F : List (LogEntry C)) (k : Nat) : Prop :=
  k ≤ L.length ∧ k ≤ F.length ∧ termOf L k = termOf F k

theorem Agree.mono {L L' F : List (LogEntry C)} {k : Nat} (h : Agree L F k) (hL : L <+: L') :
    Agree L' F k := by
  obtain ⟨hk, hF, heq⟩ := h
  exact ⟨hk.trans hL.length_le, hF, by rw [termOf_of_isPrefix hL hk, heq]⟩

theorem agree_of_isPrefix {L F : List (LogEntry C)} {k : Nat} (hk : k ≤ L.length)
    (h : L.take k <+: F) : Agree L F k := by
  have hlen : (L.take k).length = k := List.length_take_of_le hk
  refine ⟨hk, hlen ▸ h.length_le, ?_⟩
  rw [termOf_of_isPrefix h hlen.ge, termOf_take]

/-- An entry of the follower is the leader's as soon as the leader has its term at the
index or above. -/
def OneSource (L F : List (LogEntry C)) : Prop :=
  ∀ i j, i ≠ 0 → i ≤ j → i ≤ F.length → j ≤ L.length → termOf F i = termOf L j →
    termOf F i = termOf L i

/-- The log `L` of a leader and the log `F` of a follower. -/
structure Aligned (L F : List (LogEntry C)) : Prop where
  leaderStamped : Stamped L
  followerStamped : Stamped F
  leaderRising : Rising L
  followerRising : Rising F
  matching : Matching F L
  oneSource : OneSource L F

namespace Aligned

variable {L F : List (LogEntry C)} (h : Aligned L F)

include h

/-- Where the logs agree, they agree below. -/
theorem agree_of_le {k m : Nat} (hm : Agree L F m) (hk : k ≤ m) : Agree L F k := by
  obtain ⟨hL, hF, heq⟩ := hm
  refine ⟨by omega, by omega, ?_⟩
  by_cases h0 : m = 0
  · have hk : k = 0 := by omega
    rw [hk]
    rfl
  · have htake := h.matching m h0 hF hL heq.symm
    rw [← termOf_take_of_le L hk, ← termOf_take_of_le F hk, htake]

/-- The leader has the term that the follower has at a conflict only below it. -/
theorem lt_of_termOf_eq {p k : Nat} (hp : ¬ Agree L F p) (hF : p ≤ F.length) (hL : p ≤ L.length)
    (hk : k ≤ L.length) (heq : termOf L k = termOf F p) : k < p := by
  by_contra hle
  have h0 : p ≠ 0 := by
    rintro rfl
    exact hp ⟨hL, hF, rfl⟩
  exact hp ⟨hL, hF, (h.oneSource p k h0 (by omega) hF hk heq.symm).symm⟩

/-- A point of agreement above an entry that has the term of a conflict has it too. -/
theorem termOf_agree {p k m : Nat} (hp : ¬ Agree L F p) (hF : p ≤ F.length) (hk : k ≠ 0)
    (hkm : k ≤ m) (hm : Agree L F m) (heq : termOf L k = termOf F p) :
    termOf L m = termOf F p := by
  have hmp : m < p := by
    by_contra hle
    exact hp (h.agree_of_le hm (by omega))
  have hlow := h.leaderRising k m hk hkm hm.1
  have hhigh := h.followerRising m p (by omega) (by omega) hF
  have heq' := hm.2.2
  omega

end Aligned

namespace Peer

/-! ## The two searches -/

section Search

variable {rf : Peer n C} {ℓ : List (LogEntry C)} {b : Nat}

/-- The loop goes down over entries of the term only, and not below the snapshot. -/
theorem Compacts.conflictStart (h : Compacts rf ℓ b) (t : Int) (fuel : Nat) {j : Nat}
    (hb : b ≤ j) :
    ∃ i : Nat, rf.conflictStart t fuel j = i ∧ b ≤ i ∧ i ≤ j ∧
      ∀ k, i < k → k ≤ j → termOf ℓ k = t := by
  induction fuel generalizing j with
  | zero => exact ⟨j, rfl, hb, le_refl _, fun k hk hkj => by omega⟩
  | succ fuel ih =>
      unfold Peer.conflictStart
      rw [h.index]
      split
      · next hrun =>
          have hbj : b < j := by omega
          have hterm := hrun.2
          rw [h.termAt_logical hbj] at hterm
          obtain ⟨i, hi, hbi, hij, hall⟩ := ih (j := j - 1) (by omega)
          rw [show (j : Int) - 1 = ((j - 1 : Nat) : Int) by omega]
          refine ⟨i, hi, hbi, by omega, fun k hik hkj => ?_⟩
          by_cases hk : k = j
          · rw [hk, hterm]
          · exact hall k hik (by omega)
      · exact ⟨j, rfl, hb, le_refl _, fun k hk hkj => by omega⟩

/-- The loop of `findLastIndexOfTerm` after `c` rounds. -/
theorem Compacts.lastOfTerm_loop (h : Compacts rf ℓ b) (t : Int) (c : Nat) :
    let index := (List.range' 1 c).foldl (fun index (i : Nat) =>
      if rf.termAt i false = t then (i : Int) + rf.lastIncludedIndex else index) (-1)
    (index = -1 ∧ ∀ k, b < k → k ≤ b + c → termOf ℓ k ≠ t) ∨
      ∃ k : Nat, index = k ∧ b < k ∧ k ≤ b + c ∧ termOf ℓ k = t ∧
        ∀ j, k < j → j ≤ b + c → termOf ℓ j ≠ t := by
  induction c with
  | zero => exact .inl ⟨rfl, fun k hk hkb => by omega⟩
  | succ c ih =>
      rw [List.range'_1_concat, List.foldl_append, List.foldl_cons, List.foldl_nil,
        h.termAt_physical (show 1 ≤ 1 + c by omega), h.index]
      rw [h.index] at ih
      dsimp only at ih ⊢
      split
      · next hterm =>
          refine .inr ⟨b + (1 + c), by omega, by omega, by omega, hterm, fun j hj hjc => ?_⟩
          omega
      · next hterm =>
          have hlast : ∀ j, j ≤ b + (c + 1) → ¬ j ≤ b + c → termOf ℓ j ≠ t := by
            intro j hj hjc
            rw [show j = b + (1 + c) by omega]
            exact hterm
          rcases ih with ⟨hnone, hall⟩ | ⟨k, hk, hbk, hkc, heq, hall⟩
          · refine .inl ⟨hnone, fun k hbk hkc => ?_⟩
            by_cases hle : k ≤ b + c
            · exact hall k hbk hle
            · exact hlast k hkc hle
          · refine .inr ⟨k, hk, hbk, by omega, heq, fun j hkj hjc => ?_⟩
            by_cases hle : j ≤ b + c
            · exact hall j hkj hle
            · exact hlast j hjc hle

/-- The last index of the term that the leader still has, the end of the snapshot
included. -/
theorem Compacts.findLastIndexOfTerm (h : Compacts rf ℓ b) (t : Int) :
    (rf.findLastIndexOfTerm t = -1 ∧ ∀ k, b ≤ k → k ≤ ℓ.length → termOf ℓ k ≠ t) ∨
      ∃ k : Nat, rf.findLastIndexOfTerm t = k ∧ b ≤ k ∧ k ≤ ℓ.length ∧ termOf ℓ k = t ∧
        ∀ j, k < j → j ≤ ℓ.length → termOf ℓ j ≠ t := by
  have hle := h.le
  have hloop := h.lastOfTerm_loop t (rf.log.length - 1)
  rw [show b + (rf.log.length - 1) = ℓ.length by rw [h.length]; omega] at hloop
  unfold Peer.findLastIndexOfTerm
  dsimp only at hloop ⊢
  rcases hloop with ⟨hnone, hall⟩ | ⟨k, hk, hbk, hkl, heq, hall⟩
  · rw [hnone, h.term, h.index]
    by_cases hb : t = termOf ℓ b
    · rw [if_pos ⟨rfl, hb⟩]
      exact .inr ⟨b, rfl, le_refl _, hle, hb.symm, hall⟩
    · rw [if_neg (fun hc => hb hc.2)]
      refine .inl ⟨rfl, fun k hbk hkl heq => ?_⟩
      by_cases hkb : k = b
      · exact hb (by rw [← heq, hkb])
      · exact hall k (by omega) hkl heq
  · rw [hk, if_neg (fun hc => by omega)]
    exact .inr ⟨k, rfl, by omega, hkl, heq, hall⟩

end Search

/-! ## One rejection -/

/-- The next index that the leader computes from a rejection. -/
def nextAfter (rf : Peer n C) (reply : AppendEntriesReply) : Int :=
  if reply.xLen ≠ 0 then reply.xLen
  else if rf.findLastIndexOfTerm reply.xTerm = -1 then reply.xIndex
  else rf.findLastIndexOfTerm reply.xTerm + 1

def setNext (rf : Peer n C) (peer : Fin n) (next : Int) : Peer n C :=
  { rf with nextIndex := Function.update rf.nextIndex peer next }

theorem setNext_nextIndex (rf : Peer n C) (peer : Fin n) (next : Int) :
    (rf.setNext peer next).nextIndex peer = next :=
  Function.update_self ..

theorem Compacts.setNext {rf : Peer n C} {ℓ : List (LogEntry C)} {b : Nat} (h : Compacts rf ℓ b)
    (peer : Fin n) (next : Int) : Compacts (rf.setNext peer next) ℓ b :=
  h.of_eq rfl rfl rfl

theorem handleAppendEntriesReply_of_rejected {rf : Peer n C} {peer : Fin n}
    {args : AppendEntriesArgs n C} {reply : AppendEntriesReply} (hlead : rf.status = .leader)
    (hargs : args.term = rf.currentTerm) (hterm : reply.term ≤ rf.currentTerm)
    (hs : reply.success = false) :
    rf.handleAppendEntriesReply peer args reply = rf.setNext peer (rf.nextAfter reply) := by
  have hguard : ¬ (rf.status ≠ .leader ∨ rf.currentTerm ≠ args.term) := by
    rintro (hne | hne)
    · exact hne hlead
    · exact hne hargs.symm
  unfold handleAppendEntriesReply nextAfter setNext
  rw [if_neg hguard, stepDown_of_le hterm]
  simp only [hs, Bool.false_eq_true, if_false]
  split
  · rfl
  · split <;> rfl

section Rejected

variable {leader follower : Peer n C} {L F : List (LogEntry C)} {bL bF p : Nat}
  {args : AppendEntriesArgs n C} {reply : AppendEntriesReply}

/-- What a follower that has not compacted the index answers to a request it rejects. -/
theorem Compacts.of_rejected (h : Compacts follower F bF) (hprev : args.prevLogIndex = p)
    (hterm : args.prevLogTerm = termOf L p) (hp : bF ≤ p)
    (hm : follower.matchPrevLog args = some reply) :
    reply.success = false ∧ reply.term = follower.currentTerm ∧ ¬ Agree L F p ∧
      (F.length < p ∧ reply.xLen = F.length + 1 ∨ p ≤ F.length ∧ p = bF ∨
        p ≤ F.length ∧ reply.xLen = 0 ∧ reply.xTerm = termOf F p ∧
          ∃ i : Nat, reply.xIndex = i + 1 ∧ i < p ∧
            ∀ k, i < k → k ≤ p → termOf F k = termOf F p) := by
  unfold matchPrevLog at hm
  simp only [h.lastLogIndex, h.index, h.term, hprev, hterm] at hm
  split at hm
  · next hlen =>
      cases hm
      exact ⟨rfl, rfl, fun ha => by have := ha.2.1; omega, .inl ⟨by omega, rfl⟩⟩
  · next hlen =>
      split at hm
      · next heq =>
          have heq : p = bF := by omega
          split at hm
          · next hne =>
              cases hm
              refine ⟨rfl, rfl, fun ha => hne ?_, .inr (.inl ⟨by omega, heq⟩)⟩
              rw [ha.2.2, heq]
          · cases hm
      · next hneq =>
          have hlt : bF < p := by omega
          rw [h.termAt_logical hlt] at hm
          split at hm
          · next hne =>
              cases hm
              refine ⟨rfl, rfl, fun ha => hne ha.2.2.symm, .inr (.inr ⟨by omega, rfl, rfl, ?_⟩)⟩
              -- the loop passes at least the conflicting entry itself
              have hfuel : ((p : Int) - bF).toNat = p - bF - 1 + 1 := by omega
              obtain ⟨i, hi, -, hip, hall⟩ :=
                h.conflictStart (termOf F p) (p - bF - 1) (show bF ≤ p - 1 by omega)
              refine ⟨i, ?_, by omega, fun k hik hkp => ?_⟩
              · show follower.conflictStart (termOf F p) ((p : Int) - bF).toNat p + 1 = i + 1
                rw [hfuel, Peer.conflictStart, h.index,
                  if_pos ⟨by omega, h.termAt_logical hlt⟩,
                  show (p : Int) - 1 = ((p - 1 : Nat) : Int) by omega, hi]
              · by_cases hk : k = p
                · rw [hk]
                · exact hall k hik (by omega)
          · cases hm

/-- The leader goes back, and not beyond a point where the logs agree, unless that point is
in its snapshot. -/
theorem nextAfter_rejected (hL : Compacts leader L bL) (hF : Compacts follower F bF)
    (ha : Aligned L F) (hprev : args.prevLogIndex = p) (hpt : args.prevLogTerm = termOf L p)
    (hle : p ≤ L.length) (hp : bF ≤ p) (hbase : Agree L F bF)
    (hm : follower.matchPrevLog args = some reply) :
    ∃ q : Nat, leader.nextAfter reply = q + 1 ∧ q < p ∧
      ∀ m, Agree L F m → m < bL ∨ m ≤ q := by
  obtain ⟨-, -, hnot, hcases⟩ := hF.of_rejected hprev hpt hp hm
  unfold nextAfter
  rcases hcases with ⟨hlen, hx⟩ | ⟨hlen, heq⟩ | ⟨hlen, hx, hterm, i, hindex, hip, hrun⟩
  · rw [if_pos (by omega), hx]
    exact ⟨F.length, rfl, hlen, fun m hagree => .inr hagree.2.1⟩
  · exact absurd (heq ▸ hbase) hnot
  · have h0 : p ≠ 0 := by omega
    have hpos := ha.followerStamped.termOf_pos h0 hlen
    rw [if_neg (not_not.mpr hx), hterm, hindex]
    rcases hL.findLastIndexOfTerm (termOf F p) with
      ⟨hnone, hall⟩ | ⟨k, hk, -, hkl, heq, hall⟩
    · -- the leader does not have the term: back to where the follower's run begins
      rw [hnone, if_pos rfl]
      refine ⟨i, rfl, hip, fun m hagree => ?_⟩
      by_contra hcon
      have hmp : m ≤ p := by
        by_contra hlt
        exact hnot (ha.agree_of_le hagree (by omega))
      refine hall m (by omega) hagree.1 ?_
      rw [hagree.2.2, hrun m (by omega) hmp]
    · -- the leader has the term: back to its last entry of it
      have hkp := ha.lt_of_termOf_eq hnot hlen hle hkl heq
      have hk0 : k ≠ 0 := by
        rintro rfl
        have : termOf L 0 = -1 := rfl
        omega
      rw [hk, if_neg (by omega)]
      refine ⟨k, rfl, hkp, fun m hagree => ?_⟩
      by_contra hcon
      exact hall m (by omega) hagree.1
        (ha.termOf_agree hnot hlen hk0 (by omega) hagree heq)

end Rejected

/-! ## Round after round -/

/-- How a series of exchanges ends: a request is accepted, or a snapshot is due. -/
inductive Settled where
  | accepted (prevLogIndex : Int)
  | snapshot
  deriving DecidableEq, Repr

/-- At most `fuel` exchanges with no other step in between: `heartbeatWorker` builds a
request, the follower runs `AppendEntries`, and the leader takes a rejection as `retreat`
says. -/
def settle (retreat : Peer n C → AppendEntriesArgs n C → AppendEntriesReply → Peer n C)
    (peer : Fin n) : Nat → Peer n C → Peer n C → Option Settled
  | 0, _, _ => none
  | fuel + 1, leader, follower =>
    if leader.nextIndex peer ≤ leader.lastIncludedIndex then some .snapshot
    else match leader.heartbeatWorker peer with
      | .sendEntries args =>
        let (follower, reply) := follower.appendEntries args
        if reply.success then some (.accepted args.prevLogIndex)
        else settle retreat peer fuel (retreat leader args reply) follower
      | _ => none

/-- The exchange as the code has it. -/
def backOff (peer : Fin n) : Nat → Peer n C → Peer n C → Option Settled :=
  settle (fun leader args reply => leader.handleAppendEntriesReply peer args reply) peer

/-- Decrementing `nextIndex` instead. -/
def stepBack (peer : Fin n) : Nat → Peer n C → Peer n C → Option Settled :=
  settle (fun leader _ _ => leader.setNext peer (leader.nextIndex peer - 1)) peer

theorem follow_of_le {rf : Peer n C} {t : Int} (h : rf.currentTerm ≤ t) :
    (rf.follow t).currentTerm = t := by
  show (rf.stepDown t).1.currentTerm = t
  rw [stepDown_currentTerm, max_eq_right h]

theorem Compacts.follow {rf : Peer n C} {ℓ : List (LogEntry C)} {b : Nat} (h : Compacts rf ℓ b)
    (t : Int) : Compacts (rf.follow t) ℓ b :=
  have hdown := (sameLog_stepDown rf t).compacts h
  hdown.of_eq rfl rfl rfl

/-- The leader is about to ask the follower for a match at index `p`. -/
structure Probes (leader follower : Peer n C) (peer : Fin n) (L F : List (LogEntry C))
    (bL bF p : Nat) : Prop where
  lead : leader.status = .leader
  term : follower.currentTerm ≤ leader.currentTerm
  leaderLog : leader.Compacts L bL
  followerLog : follower.Compacts F bF
  next : leader.nextIndex peer = p + 1
  above : bL ≤ p
  le : p ≤ L.length

namespace Probes

variable {leader follower : Peer n C} {peer : Fin n} {L F : List (LogEntry C)} {bL bF p : Nat}
  {retreat : Peer n C → AppendEntriesArgs n C → AppendEntriesReply → Peer n C}

theorem back (h : Probes leader follower peer L F bL bF p) {q : Nat} (hb : bL ≤ q)
    (hq : q ≤ L.length) :
    Probes (leader.setNext peer (q + 1)) (follower.follow leader.currentTerm) peer L F bL bF q where
  lead := h.lead
  term := (follow_of_le h.term).le
  leaderLog := h.leaderLog.setNext peer _
  followerLog := h.followerLog.follow _
  next := setNext_nextIndex leader peer _
  above := hb
  le := hq

/-- One exchange: the follower accepts, or the leader handles the rejection. -/
theorem round (h : Probes leader follower peer L F bL bF p) (hL : Stamped L) (fuel : Nat) :
    ∃ args : AppendEntriesArgs n C, args.prevLogIndex = p ∧ args.prevLogTerm = termOf L p ∧
      args.term = leader.currentTerm ∧
      ((follower.follow leader.currentTerm).matchPrevLog args = none ∧ Agree L F p ∧
          settle retreat peer (fuel + 1) leader follower = some (.accepted p) ∨
        ∃ reply, (follower.follow leader.currentTerm).matchPrevLog args = some reply ∧
          settle retreat peer (fuel + 1) leader follower =
            settle retreat peer fuel (retreat leader args reply)
              (follower.follow leader.currentTerm)) := by
  have hnot : ¬ leader.nextIndex peer ≤ leader.lastIncludedIndex := by
    have hnext := h.next
    have hindex := h.leaderLog.index
    have habove := h.above
    omega
  obtain ⟨args, hargs, hslice, hterm⟩ :=
    h.leaderLog.heartbeatWorker h.lead h.next h.above h.le
  have hcur : ¬ args.term < follower.currentTerm := by
    rw [hterm]
    exact not_lt.mpr h.term
  have hc := h.followerLog.follow args.term
  have hround : settle retreat peer (fuel + 1) leader follower =
      if (follower.appendEntries args).2.success then some (.accepted args.prevLogIndex)
      else settle retreat peer fuel (retreat leader args (follower.appendEntries args).2)
        (follower.appendEntries args).1 := by
    rw [settle, if_neg hnot, hargs]
  refine ⟨args, hslice.prev, hslice.term, hterm, ?_⟩
  rw [hround, ← hterm]
  cases hm : (follower.follow args.term).matchPrevLog args with
  | none =>
      obtain ⟨hlen, heq⟩ := hc.of_matchPrevLog_none hslice hL hm
      refine .inl ⟨rfl, ⟨h.le, hlen, ?_⟩, ?_⟩
      · by_cases h0 : p = 0
        · rw [h0]
          rfl
        · exact (heq h0).symm
      · rw [appendEntries_of_none hcur hm, hslice.prev]
        rfl
  | some reply =>
      have hfail := (hc.of_matchPrevLog_some hslice hm).1
      refine .inr ⟨reply, rfl, ?_⟩
      rw [appendEntries_of_some hcur hm]
      dsimp only
      rw [hfail, if_neg Bool.false_ne_true]

/-- A leader that goes back at every rejection, but not beyond a point of agreement,
gets to the last one at or below the index it starts from. -/
theorem settle_eq (h : Probes leader follower peer L F 0 0 p) (ha : Aligned L F) {m : Nat}
    (hm : IsGreatest {k | Agree L F k} m)
    (hretreat : ∀ {leader follower : Peer n C} {args : AppendEntriesArgs n C}
      {reply : AppendEntriesReply} {p : Nat},
      Probes leader follower peer L F 0 0 p → args.prevLogIndex = p →
      args.prevLogTerm = termOf L p → args.term = leader.currentTerm →
      (follower.follow leader.currentTerm).matchPrevLog args = some reply →
      ∃ q : Nat, retreat leader args reply = leader.setNext peer (q + 1) ∧ q < p ∧ m ≤ q)
    {fuel : Nat} (hfuel : p < fuel) :
    settle retreat peer fuel leader follower = some (.accepted (min m p : Nat)) := by
  induction fuel generalizing leader follower p with
  | zero => omega
  | succ fuel ih =>
      obtain ⟨args, hprev, hpt, hterm, ⟨-, hagree, hrun⟩ | ⟨reply, hrej, hrun⟩⟩ :=
        h.round ha.leaderStamped fuel
      · rw [hrun, min_eq_right (hm.2 hagree)]
      · obtain ⟨q, hq, hqp, hmq⟩ := hretreat h hprev hpt hterm hrej
        have hle := h.le
        rw [hrun, hq, ih (h.back (Nat.zero_le q) (by omega)) (by omega), min_eq_left hmq,
          min_eq_left (by omega)]

end Probes

section Uncompacted

variable {leader follower : Peer n C} {peer : Fin n} {L F : List (LogEntry C)} {p m : Nat}
  {args : AppendEntriesArgs n C} {reply : AppendEntriesReply}

theorem agree_zero (L F : List (LogEntry C)) : Agree L F 0 :=
  ⟨Nat.zero_le _, Nat.zero_le _, rfl⟩

/-- Of two whole logs, the next index lies above every point of agreement and below the
index that was rejected. -/
theorem handleAppendEntriesReply_retreats (hL : leader.Compacts L 0) (hF : follower.Compacts F 0)
    (ha : Aligned L F) (hlead : leader.status = .leader)
    (hterm : follower.currentTerm ≤ leader.currentTerm) (hargs : args.term = leader.currentTerm)
    (hprev : args.prevLogIndex = p) (hpt : args.prevLogTerm = termOf L p) (hp : p ≤ L.length)
    (hm : (follower.follow leader.currentTerm).matchPrevLog args = some reply) :
    ∃ q : Nat, leader.handleAppendEntriesReply peer args reply = leader.setNext peer (q + 1) ∧
      q < p ∧ ∀ m, Agree L F m → m ≤ q := by
  have hc := hF.follow leader.currentTerm
  obtain ⟨hfail, hcur, -, -⟩ := hc.of_rejected hprev hpt (Nat.zero_le p) hm
  rw [follow_of_le hterm] at hcur
  obtain ⟨q, hq, hqp, hall⟩ :=
    nextAfter_rejected hL hc ha hprev hpt hp (Nat.zero_le p) (agree_zero L F) hm
  refine ⟨q, ?_, hqp, fun m hagree => (hall m hagree).resolve_left (by omega)⟩
  rw [handleAppendEntriesReply_of_rejected hlead hargs hcur.le hfail, hq]

/-- A rejected request moves the next index to one above a point where the logs agree and
at most to the index that was tried; round after round the leader gets to the same point
as by going back one index at a time. -/
theorem backOff_settles (hL : leader.Compacts L 0) (hF : follower.Compacts F 0)
    (ha : Aligned L F) (hlead : leader.status = .leader)
    (hterm : follower.currentTerm ≤ leader.currentTerm) (hp : p ≤ L.length)
    (hm : IsGreatest {k | Agree L F k} m) :
    (∀ args : AppendEntriesArgs n C, args.term = leader.currentTerm → args.prevLogIndex = p →
      args.prevLogTerm = termOf L p → (follower.appendEntries args).2.success = false →
      (m + 1 : Int) ≤ (leader.handleAppendEntriesReply peer args
          (follower.appendEntries args).2).nextIndex peer ∧
        (leader.handleAppendEntriesReply peer args
          (follower.appendEntries args).2).nextIndex peer ≤ p) ∧
    (leader.nextIndex peer = p + 1 →
      backOff peer (p + 1) leader follower = some (.accepted (min m p : Nat)) ∧
      stepBack peer (p + 1) leader follower = some (.accepted (min m p : Nat))) := by
  constructor
  · intro args hargs hprev hpt hfail
    have hcur : ¬ args.term < follower.currentTerm := by omega
    cases hmatch : (follower.follow args.term).matchPrevLog args with
    | none =>
        rw [appendEntries_of_none hcur hmatch] at hfail
        cases hfail
    | some reply =>
        rw [appendEntries_of_some hcur hmatch]
        rw [hargs] at hmatch
        obtain ⟨q, hq, hqp, hall⟩ :=
          handleAppendEntriesReply_retreats hL hF ha hlead hterm hargs hprev hpt hp hmatch
        have hmq := hall m hm.1
        rw [hq, setNext_nextIndex]
        omega
  · intro hnext
    have hprobes : Probes leader follower peer L F 0 0 p :=
      ⟨hlead, hterm, hL, hF, hnext, Nat.zero_le p, hp⟩
    refine ⟨hprobes.settle_eq ha hm ?_ (Nat.lt_succ_self p),
      hprobes.settle_eq ha hm ?_ (Nat.lt_succ_self p)⟩
    · intro leader follower args reply p h hprev hpt hargs hrej
      obtain ⟨q, hq, hqp, hall⟩ := handleAppendEntriesReply_retreats h.leaderLog h.followerLog ha
        h.lead h.term hargs hprev hpt h.le hrej
      exact ⟨q, hq, hqp, hall m hm.1⟩
    · intro leader follower args reply p h hprev hpt hargs hrej
      obtain ⟨-, -, hnot, -⟩ :=
        (h.followerLog.follow leader.currentTerm).of_rejected hprev hpt (Nat.zero_le p) hrej
      have hmp : m < p := by
        by_contra hle
        exact hnot (ha.agree_of_le hm.1 (by omega))
      refine ⟨p - 1, ?_, by omega, by omega⟩
      have hnext := h.next
      rw [show leader.nextIndex peer - 1 = ((p - 1 : Nat) : Int) + 1 by omega]

/-- Entries of the given terms. -/
def ofTerms (terms : List Int) : List (LogEntry Nat) :=
  terms.map fun t => { term := t, command := none }

/-- A peer in term 3 that has compacted nothing. -/
def holding (i : Fin 3) (status : Status) (terms : List Int) (next : Int) : Peer 3 Nat :=
  { make i Persister.makePersister with
    currentTerm := 3
    status := status
    log := placeholder 0 :: ofTerms terms
    nextIndex := fun _ => next }

theorem compacts_holding (i : Fin 3) (status : Status) (terms : List Int) (next : Int) :
    (holding i status terms next).Compacts (ofTerms terms) 0 :=
  ⟨rfl, Nat.zero_le _, ⟨_, rfl⟩, rfl⟩

theorem stamped_ofTerms {terms : List Int} (h : ∀ t ∈ terms, 0 < t) : Stamped (ofTerms terms) := by
  intro e he
  obtain ⟨t, ht, rfl⟩ := List.mem_map.mp he
  exact h t ht

theorem rising_ofTerms {terms : List Int} (h : ∀ j ≤ (ofTerms terms).length, ∀ i ≤ j, i ≠ 0 →
    termOf (ofTerms terms) i ≤ termOf (ofTerms terms) j) : Rising (ofTerms terms) :=
  fun i j h0 hij hj => h j hj i hij h0

theorem matching_ofTerms {ts us : List Int} (h : ∀ k ≤ (ofTerms ts).length, k ≠ 0 →
    termOf (ofTerms ts) k = termOf (ofTerms us) k → ts.take k = us.take k) :
    Matching (ofTerms ts) (ofTerms us) := by
  intro k h0 hk _ heq
  unfold ofTerms
  rw [← List.map_take, ← List.map_take, h k hk h0 heq]

theorem backOff_settles_conflict :
    backOff 1 3 (holding 0 .leader [1, 1, 3] 3) (holding 1 .follower [1, 2] 1) =
      some (.accepted 1) ∧
    stepBack 1 3 (holding 0 .leader [1, 1, 3] 3) (holding 1 .follower [1, 2] 1) =
      some (.accepted 1) := by
  have ha : Aligned (ofTerms [1, 1, 3]) (ofTerms [1, 2]) := by
    refine ⟨stamped_ofTerms (by decide), stamped_ofTerms (by decide), rising_ofTerms (by decide),
      rising_ofTerms (by decide), matching_ofTerms (by decide), ?_⟩
    have h : ∀ j ≤ 3, ∀ i ≤ 2, i ≠ 0 → i ≤ j →
        termOf (ofTerms [1, 2]) i = termOf (ofTerms [1, 1, 3]) j →
        termOf (ofTerms [1, 2]) i = termOf (ofTerms [1, 1, 3]) i := by decide
    exact fun i j h0 hij hi hj heq => h j hj i hi h0 hij heq
  have hm : IsGreatest {k | Agree (ofTerms [1, 1, 3]) (ofTerms [1, 2]) k} 1 := by
    refine ⟨⟨by decide, by decide, by decide⟩, fun k hk => ?_⟩
    have h : ∀ k ≤ 2, termOf (ofTerms [1, 1, 3]) k = termOf (ofTerms [1, 2]) k → k ≤ 1 := by
      decide
    exact h k hk.2.1 hk.2.2
  exact (backOff_settles (p := 2) (compacts_holding 0 .leader [1, 1, 3] 3)
    (compacts_holding 1 .follower [1, 2] 1) ha rfl (by decide) (by decide) hm).2 rfl

/-- Log matching alone is not enough: the follower has at index 1 a term that the leader
has only at index 3, and the leader goes from index 2 up to index 4. -/
theorem backOff_overshoots : ∃ (leader follower : Peer 3 Nat) (L F : List (LogEntry Nat)),
    leader.Compacts L 0 ∧ follower.Compacts F 0 ∧ Stamped L ∧ Stamped F ∧ Rising L ∧ Rising F ∧
    Matching F L ∧ leader.status = .leader ∧ follower.currentTerm = leader.currentTerm ∧
    1 ≤ L.length ∧ ∃ args, leader.heartbeatWorker 1 = .sendEntries args ∧
      args.prevLogIndex = 1 ∧ args.prevLogTerm = termOf L 1 ∧
      (follower.appendEntries args).2.success = false ∧
      (leader.handleAppendEntriesReply 1 args (follower.appendEntries args).2).nextIndex 1 = 4 := by
  exact ⟨holding 0 .leader [1, 1, 2] 2, holding 1 .follower [2] 1, ofTerms [1, 1, 2], ofTerms [2],
    compacts_holding .., compacts_holding .., stamped_ofTerms (by decide),
    stamped_ofTerms (by decide), rising_ofTerms (by decide), rising_ofTerms (by decide),
    matching_ofTerms (by decide), rfl, rfl, by decide, _, rfl, rfl, rfl, by decide, by decide⟩

end Uncompacted

end Peer
end Raft
end Labs
