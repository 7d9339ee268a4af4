import Labs.Raft.Apply
import Labs.Raft.Bookkeeping

/-!
# The back-off of a leader in a cluster

The next index of a peer never goes beyond the end of the leader's log, so that
`heartbeatWorker` always has something to send.  In a safe run the logs of a leader and of a
follower of its term are aligned, and agree on what the follower has compacted.  From
there on the exchange ends unless it starts below the follower's snapshot: there the
follower has no term to answer with, and a leader that has a snapshot itself tries the
same index again.
-/

namespace Labs
namespace Raft

open Consensus

variable {n : Nat} {C : Type}

/-! ## Logs of one cluster -/

section Logs

variable {a : AbsState n C} {ℓ L F : List (LogEntry C)}

/-- Up to an entry, a log is the log of the leader of the entry's term. -/
theorem take_prefix_tlog (h : a.Sound ℓ) {k : Nat} (h0 : k ≠ 0) (hk : k ≤ ℓ.length) :
    ℓ.take k <+: a.tlog (termOf ℓ k) := by
  obtain ⟨j, rfl⟩ : ∃ j, k = j + 1 := ⟨k - 1, by omega⟩
  obtain ⟨e, he⟩ : ∃ e, ℓ[j]? = some e := ⟨_, List.getElem?_eq_getElem (by omega)⟩
  rw [termOf_succ he]
  exact h.take_prefix he

theorem rising_of_sound (hinv : a.Inv (majority n)) (h : a.Sound ℓ) : Rising ℓ := by
  intro i j h0 hij hj
  obtain ⟨i, rfl⟩ : ∃ i', i = i' + 1 := ⟨i - 1, by omega⟩
  obtain ⟨j, rfl⟩ : ∃ j', j = j' + 1 := ⟨j - 1, by omega⟩
  obtain ⟨d, hd⟩ : ∃ d, ℓ[i]? = some d := ⟨_, List.getElem?_eq_getElem (by omega)⟩
  obtain ⟨e, he⟩ : ∃ e, ℓ[j]? = some e := ⟨_, List.getElem?_eq_getElem (by omega)⟩
  rw [termOf_succ hd, termOf_succ he]
  exact hinv.term_le h (by omega) hd he

theorem oneSource_of_sound (hL : a.Sound L) (hF : a.Sound F) : OneSource L F := by
  intro i j h0 hij hi hj heq
  have hpreF := take_prefix_tlog hF h0 hi
  have hpreL := take_prefix_tlog hL (show j ≠ 0 by omega) hj
  rw [← heq] at hpreL
  have hlenF : (F.take i).length = i := List.length_take_of_le hi
  have hlenL : (L.take j).length = j := List.length_take_of_le hj
  calc termOf F i = termOf (F.take i) i := (termOf_take F i).symm
    _ = termOf (a.tlog (termOf F i)) i := (termOf_of_isPrefix hpreF hlenF.ge).symm
    _ = termOf (L.take j) i := termOf_of_isPrefix hpreL (by omega)
    _ = termOf L i := termOf_take_of_le L hij

theorem aligned_of_sound (hinv : a.Inv (majority n)) (hpos : ∀ {t}, a.leader t ≠ none → 0 < t)
    (hL : a.Sound L) (hF : a.Sound F) : Aligned L F where
  leaderStamped := stamped_of_sound hinv hpos hL
  followerStamped := stamped_of_sound hinv hpos hF
  leaderRising := rising_of_sound hinv hL
  followerRising := rising_of_sound hinv hF
  matching := matching_of_sound hF hL
  oneSource := oneSource_of_sound hL hF

end Logs

namespace Peer

/-! ## How the exchange ends -/

section Below

variable {leader follower : Peer n C} {L F : List (LogEntry C)} {bL bF p : Nat}
  {args : AppendEntriesArgs n C} {reply : AppendEntriesReply} {peer : Fin n}

/-- Below its snapshot a follower has no term to compare, and names the index that was
tried. -/
theorem Compacts.matchPrevLog_below (h : Compacts follower F bF) (hprev : args.prevLogIndex = p)
    (hp : p < bF) : follower.matchPrevLog args =
      if args.prevLogTerm = -1 then none
      else some { success := false
                  term := follower.currentTerm
                  xTerm := -1
                  xIndex := p + 1 } := by
  have hle := h.le
  have hfuel : ((p : Int) - bF).toNat = 0 := by omega
  unfold matchPrevLog
  simp only [h.lastLogIndex, h.index, hprev, h.termAt_below (show (p : Int) < bF by omega), hfuel]
  rw [if_neg (by omega), if_neg (by omega)]
  by_cases hpt : args.prevLogTerm = -1
  · rw [if_pos hpt, if_neg (not_not.mpr hpt.symm)]
  · rw [if_neg hpt, if_pos (Ne.symm hpt)]
    rfl

/-- Without a snapshot a leader takes that answer for the beginning of its log, with one
it finds nothing and keeps the index. -/
theorem nextAfter_below (hL : Compacts leader L bL) (hstamped : Stamped L) (hx : reply.xLen = 0)
    (hterm : reply.xTerm = -1) :
    leader.nextAfter reply = if bL = 0 then 1 else reply.xIndex := by
  have hzero : ∀ k, k ≤ L.length → termOf L k = -1 → k = 0 := by
    intro k hk heq
    by_contra h0
    have := hstamped.termOf_pos h0 hk
    omega
  unfold nextAfter
  rw [if_neg (not_not.mpr hx), hterm]
  rcases hL.findLastIndexOfTerm (-1) with ⟨hnone, hall⟩ | ⟨k, hk, hbk, hkl, heq, -⟩
  · have hb : bL ≠ 0 := by
      intro hb
      exact hall 0 (by omega) (Nat.zero_le _) rfl
    rw [hnone, if_pos rfl, if_neg hb]
  · have hk0 := hzero k hkl heq
    rw [hk, if_neg (by omega), if_pos (by omega), hk0]
    rfl

namespace Probes

/-- From an index that the follower has not compacted, the leader gets to an index where
the logs match or into its snapshot. -/
theorem backOff_isSome (h : Probes leader follower peer L F bL bF p) (ha : Aligned L F)
    (hbase : Agree L F bF) (hp : bF ≤ p) {fuel : Nat} (hfuel : p < fuel) :
    (backOff peer fuel leader follower).isSome := by
  unfold backOff
  induction fuel generalizing leader follower p with
  | zero => omega
  | succ fuel ih =>
      obtain ⟨args, hprev, hpt, hargs, ⟨-, -, hrun⟩ | ⟨reply, hrej, hrun⟩⟩ :=
        h.round ha.leaderStamped fuel
      · rw [hrun]
        rfl
      · have hc := h.followerLog.follow leader.currentTerm
        obtain ⟨hfail, hcur, -, -⟩ := hc.of_rejected hprev hpt hp hrej
        rw [follow_of_le h.term] at hcur
        obtain ⟨q, hq, hqp, hall⟩ :=
          nextAfter_rejected h.leaderLog hc ha hprev hpt h.le hp hbase hrej
        rw [hrun, handleAppendEntriesReply_of_rejected h.lead hargs hcur.le hfail, hq]
        by_cases hqb : q < bL
        · -- the next index is one of the snapshot
          obtain ⟨fuel, rfl⟩ : ∃ f, fuel = f + 1 := ⟨fuel - 1, by omega⟩
          have hdue : (leader.setNext peer (q + 1)).nextIndex peer ≤
              (leader.setNext peer (q + 1)).lastIncludedIndex := by
            rw [setNext_nextIndex, (h.leaderLog.setNext peer _).index]
            omega
          rw [settle, if_pos hdue]
          rfl
        · have hle := h.le
          have hbq : bF ≤ q := by
            rcases hall bF hbase with hlow | hbq <;> omega
          exact ih (h.back (by omega) (by omega)) hbq (by omega)

/-- A rejection from below the follower's snapshot. -/
theorem handle_below (h : Probes leader follower peer L F bL bF p) (hL : Stamped L) (hp : p < bF)
    (hprev : args.prevLogIndex = p) (hpt : args.prevLogTerm = termOf L p)
    (hargs : args.term = leader.currentTerm)
    (hrej : (follower.follow leader.currentTerm).matchPrevLog args = some reply) :
    p ≠ 0 ∧ leader.handleAppendEntriesReply peer args reply =
      leader.setNext peer (if bL = 0 then 1 else (p + 1 : Int)) := by
  rw [(h.followerLog.follow leader.currentTerm).matchPrevLog_below hprev hp] at hrej
  split at hrej
  · cases hrej
  · next hne =>
      cases hrej
      refine ⟨fun h0 => hne (by rw [hpt, h0]; rfl), ?_⟩
      rw [handleAppendEntriesReply_of_rejected h.lead hargs (follow_of_le h.term).le rfl,
        nextAfter_below h.leaderLog hL rfl rfl]

/-- From below the follower's snapshot, a leader that has no snapshot goes to the
beginning of its log. -/
theorem backOff_of_uncompacted (h : Probes leader follower peer L F 0 bF p) (hL : Stamped L)
    (hp : p < bF) : (backOff peer 2 leader follower).isSome := by
  unfold backOff
  obtain ⟨args, hprev, hpt, hargs, ⟨-, -, hrun⟩ | ⟨reply, hrej, hrun⟩⟩ := h.round hL 1
  · rw [hrun]
    rfl
  · have h' : Probes (leader.setNext peer 1) (follower.follow leader.currentTerm) peer L F 0 bF 0 :=
      h.back (Nat.le_refl 0) (Nat.zero_le _)
    rw [hrun, (h.handle_below hL hp hprev hpt hargs hrej).2, if_pos rfl]
    obtain ⟨args', hprev', hpt', hargs', ⟨-, -, hrun'⟩ | ⟨reply', hrej', -⟩⟩ := h'.round hL 0
    · rw [hrun']
      rfl
    · exact absurd rfl (h'.handle_below hL (by omega) hprev' hpt' hargs' hrej').1

/-- From below the follower's snapshot, a leader that has a snapshot tries the same index
for ever. -/
theorem backOff_eq_none (h : Probes leader follower peer L F bL bF p) (hL : Stamped L)
    (hp : p < bF) (hb : bL ≠ 0) (fuel : Nat) : backOff peer fuel leader follower = none := by
  have habove := h.above
  have hle := h.le
  unfold backOff
  induction fuel generalizing leader follower with
  | zero => rfl
  | succ fuel ih =>
      obtain ⟨args, hprev, hpt, hargs, ⟨hnone, -, -⟩ | ⟨reply, hrej, hrun⟩⟩ := h.round hL fuel
      · have hpos := hL.termOf_pos (show p ≠ 0 by omega) hle
        rw [(h.followerLog.follow leader.currentTerm).matchPrevLog_below hprev hp,
          if_neg (by omega)] at hnone
        cases hnone
      · rw [hrun, (h.handle_below hL hp hprev hpt hargs hrej).2, if_neg hb]
        exact ih (h.back habove hle)

/-- The exchange ends unless it starts below the follower's snapshot and the leader has
a snapshot itself. -/
theorem backOff_iff (h : Probes leader follower peer L F bL bF p) (ha : Aligned L F)
    (hbase : Agree L F bF) :
    (∃ fuel, (backOff peer fuel leader follower).isSome) ↔ bF ≤ p ∨ bL = 0 := by
  constructor
  · rintro ⟨fuel, hsome⟩
    by_contra hcon
    rw [h.backOff_eq_none ha.leaderStamped (by omega) (by omega)] at hsome
    cases hsome
  · intro hcases
    by_cases hp : bF ≤ p
    · exact ⟨p + 1, h.backOff_isSome ha hbase hp (Nat.lt_succ_self p)⟩
    · have hb : bL = 0 := hcases.resolve_left hp
      subst hb
      exact ⟨2, h.backOff_of_uncompacted ha.leaderStamped (by omega)⟩

end Probes
end Below

end Peer

/-! ## Reachable states -/

/-- What a peer has compacted, the leader of a term that it may follow has with the same
terms. -/
theorem Refines.agree_base {w : Cluster n C} {a : AbsState n C} (h : Refines w a) {i : Fin n}
    {t : Int} {b : Nat} (hb : b ≤ a.commit i) (hlen : b ≤ (a.log i).length)
    (hle : (w.peers i).currentTerm ≤ t) (hlead : a.leader t ≠ none) :
    Agree (a.tlog t) (a.log i) b := by
  have htake := h.take_base hb hle hlead
  have hsame := congrArg List.length htake
  rw [List.length_take_of_le hlen, List.length_take] at hsame
  refine agree_of_isPrefix (by omega) ?_
  rw [← htake]
  exact List.take_prefix _ _

namespace Cluster

/-- The leader `i` is about to try an index at or above its snapshot with a follower of
its term. -/
theorem probes_of_refines {w : Cluster n C} {a : AbsState n C} (h : Refines w a)
    (hbooks : Books w) {i j : Fin n} (hlead : (w.peers i).status = .leader)
    (hterm : (w.peers j).currentTerm = (w.peers i).currentTerm)
    (habove : (w.peers i).lastIncludedIndex < (w.peers i).nextIndex j) :
    ∃ bL bF p : Nat, (w.peers i).lastIncludedIndex = bL ∧ (w.peers j).lastIncludedIndex = bF ∧
      (w.peers i).nextIndex j = p + 1 ∧ Aligned (a.log i) (a.log j) ∧
      Agree (a.log i) (a.log j) bF ∧
      Peer.Probes (w.peers i) (w.peers j) j (a.log i) (a.log j) bL bF p := by
  obtain ⟨bL, hL, -⟩ := (h.peers i).base
  obtain ⟨bF, hF, hcommit⟩ := (h.peers j).base
  have hindex := hL.index
  obtain ⟨p, hp⟩ : ∃ p : Nat, (w.peers i).nextIndex j = p + 1 :=
    ⟨((w.peers i).nextIndex j - 1).toNat, by omega⟩
  have hbound := (hbooks.kept i hlead j).2.2
  rw [hL.lastLogIndex] at hbound
  have hlog := h.log_eq_tlog hlead
  have hleads : a.leader (w.peers i).currentTerm ≠ none := by
    rw [h.votes.leads i hlead]
    simp
  have hbase := h.agree_base hcommit hF.le hterm.le hleads
  rw [← hlog] at hbase
  exact ⟨bL, bF, p, hindex, hF.index, hp,
    aligned_of_sound h.inv h.positive (h.inv.sound_log i) (h.inv.sound_log j), hbase,
    ⟨hlead, hterm.le, hL, hF, hp, by omega, by omega⟩⟩

theorem backOff_iff_of_refines {w : Cluster n C} {a : AbsState n C} (h : Refines w a)
    (hbooks : Books w) {i j : Fin n} (hlead : (w.peers i).status = .leader)
    (hterm : (w.peers j).currentTerm = (w.peers i).currentTerm) :
    (∃ fuel, (Peer.backOff j fuel (w.peers i) (w.peers j)).isSome) ↔
      (w.peers i).nextIndex j ≤ (w.peers i).lastIncludedIndex ∨
      (w.peers j).lastIncludedIndex < (w.peers i).nextIndex j ∨
      (w.peers i).lastIncludedIndex = 0 := by
  by_cases hdue : (w.peers i).nextIndex j ≤ (w.peers i).lastIncludedIndex
  · refine iff_of_true ⟨1, ?_⟩ (.inl hdue)
    rw [Peer.backOff, Peer.settle, if_pos hdue]
    rfl
  · obtain ⟨bL, bF, p, hL, hF, hp, ha, hbase, hprobes⟩ :=
      probes_of_refines h hbooks hlead hterm (not_le.mp hdue)
    rw [hprobes.backOff_iff ha hbase]
    omega

/-- A run in which the apply channels stay in order is safe. -/
theorem safe_of_ordered {w : Cluster n C} (h : Run.Path step Ordered init w) :
    Run.Path step Safe init w := by
  refine (h.strengthen (P := fun w => ∃ a, Delivers w a) ?_ ?_ ⟨_, delivers_init⟩).1
  · rintro w act w' ⟨a, hd⟩ hok hs
    obtain ⟨a', -, hd'⟩ := hd.step hok hs
    exact ⟨a', hd'⟩
  · rintro w act w' ⟨a, hd⟩ hok -
    exact hd.applied.safe hd.refines hok

/-- In every state that a safe run reaches, for every leader and every peer of its term,
the exchange ends exactly if a snapshot is due, the index tried is not below the
follower's snapshot, or the leader has no snapshot. -/
theorem backOff_ends_iff {w : Cluster n C} {i j : Fin n} (h : Run.Path step Safe init w)
    (hlead : (w.peers i).status = .leader)
    (hterm : (w.peers j).currentTerm = (w.peers i).currentTerm) :
    (∃ fuel, (Peer.backOff j fuel (w.peers i) (w.peers j)).isSome) ↔
      (w.peers i).nextIndex j ≤ (w.peers i).lastIncludedIndex ∨
      (w.peers j).lastIncludedIndex < (w.peers i).nextIndex j ∨
      (w.peers i).lastIncludedIndex = 0 := by
  obtain ⟨a, -, href⟩ := refines_init.path h
  exact backOff_iff_of_refines href (Books.init.path (h.mono fun _ _ _ => trivial)) hlead hterm

/-- Peer 0 leads term 2 with two entries, of which peer 1 has the first, and peer 1 has
rejected two requests of it. -/
def rejectedTwice : List (Action 3 Nat) :=
  [.tick 0 400 200, .deliver 1, .receive 0, .start 0 (some 7), .sendHeartbeat 0, .worker 0,
   .deliver 1, .receive 0, .start 0 (some 8), .crash 0,
   .tick 0 400 200, .deliver 2, .receive 0, .sendHeartbeat 2, .tick 0 100 200,
   .sendHeartbeat 2, .worker 2, .worker 4, .deliver 2, .deliver 2]

theorem backOff_ends_rejectedTwice : ∃ w : Cluster 3 Nat, Run.Path step Safe init w ∧
    (w.peers 0).nextIndex 1 = 3 ∧
    ∃ fuel, (Peer.backOff 1 fuel (w.peers 0) (w.peers 1)).isSome := by
  have hrun : (Run.exec step Ordered (init : Cluster 3 Nat) rejectedTwice).map (fun w =>
      ((w.peers 0).status, (w.peers 0).currentTerm, (w.peers 1).currentTerm,
        (w.peers 0).nextIndex 1, (w.peers 1).lastIncludedIndex)) =
      some (.leader, 2, 2, 3, 0) := by
    decide +kernel
  obtain ⟨w, hpath, hend⟩ := Run.path_of_exec_map rejectedTwice _ hrun
  simp only [Prod.mk.injEq] at hend
  obtain ⟨hlead, hterm, hterm', hnext, hindex⟩ := hend
  have hsafe := safe_of_ordered hpath
  refine ⟨w, hsafe, hnext, (backOff_ends_iff hsafe hlead (hterm'.trans hterm.symm)).mpr ?_⟩
  exact .inr (.inl (by omega))

/-- The first rejection makes peer 0 replicate everything to peer 1, which compacts all
three entries, and peer 0 the first; then the second rejection arrives. -/
def rejectionLate : List (Action 3 Nat) :=
  rejectedTwice ++
    [.receive 0, .start 0 (some 9), .sendHeartbeat 2, .worker 6, .deliver 2, .receive 1,
     .tick 0 100 200, .sendHeartbeat 2, .worker 8, .deliver 2,
     .apply 1, .send 1, .send 1, .send 1, .snapshot 1 3 [3],
     .apply 0, .send 0, .snapshot 0 1 [1], .receive 0]

/-- Peer 0 tries index 1 for ever, which peer 1 has compacted. -/
theorem rejectionLate_stalls : ∃ w : Cluster 3 Nat, Run.Path step Ordered init w ∧
    (w.peers 0).status = .leader ∧ (w.peers 1).currentTerm = (w.peers 0).currentTerm ∧
    (w.peers 0).lastIncludedIndex = 1 ∧ (w.peers 0).nextIndex 1 = 2 ∧
    (w.peers 1).lastIncludedIndex = 3 ∧
    ∀ fuel, Peer.backOff 1 fuel (w.peers 0) (w.peers 1) = none := by
  have hrun : (Run.exec step Ordered (init : Cluster 3 Nat) rejectionLate).map (fun w =>
      ((w.peers 0).status, (w.peers 0).currentTerm, (w.peers 1).currentTerm,
        (w.peers 0).lastIncludedIndex, (w.peers 0).nextIndex 1,
        (w.peers 1).lastIncludedIndex)) =
      some (.leader, 2, 2, 1, 2, 3) := by
    decide +kernel
  obtain ⟨w, hpath, hend⟩ := Run.path_of_exec_map rejectionLate _ hrun
  simp only [Prod.mk.injEq] at hend
  obtain ⟨hlead, hterm, hterm', hindex, hnext, hindex'⟩ := hend
  have hsame := hterm'.trans hterm.symm
  obtain ⟨a, -, href⟩ := refines_init.path (safe_of_ordered hpath)
  have hbooks := Books.init.path (hpath.mono fun _ _ _ => trivial)
  refine ⟨w, hpath, hlead, hsame, hindex, hnext, hindex', fun fuel => ?_⟩
  by_contra hsome
  have hends := (backOff_iff_of_refines href hbooks hlead hsame).mp
    ⟨fuel, Option.isSome_iff_ne_none.mpr hsome⟩
  omega

end Cluster
end Raft
end Labs
