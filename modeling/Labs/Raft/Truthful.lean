import Labs.Consensus.Backing
import Labs.Raft.Apply
import Labs.Raft.Bookkeeping

/-!
# What a leader knows is true

`matchIndex[p]` is meant to be an index up to which peer `p` has the leader's log.  What
an answer to the leader's own requests adds to it is true, and stays true until the peer
enters a later term: the peer backs it.  What it starts with is not: `becomeLeader` sets
it to the leader's own `lastIncludedIndex` for every peer, also for one that has nothing.
`NoneLags` is the condition that at an election every peer backs what the new leader has
compacted.  The commit rule is not misled, since that part is committed.
-/

namespace Labs
namespace Raft

open Consensus

variable {n : Nat} {C : Type}

namespace Peer

/-- The peer has the part that the other one has compacted, and will keep it in the other
one's term: it knows it to be committed, or it has the last entry of it and is in the
term already. -/
def Shares (rf other : Peer n C) : Prop :=
  other.lastIncludedIndex ≤ rf.commitIndex ∨ rf.currentTerm = other.currentTerm ∧
    rf.termOfEntry other.lastIncludedIndex = some other.lastIncludedTerm

instance (rf other : Peer n C) : Decidable (rf.Shares other) :=
  inferInstanceAs (Decidable (_ ∨ _ ∧ _))

theorem Compacts.of_termOfEntry {rf : Peer n C} {ℓ : List (LogEntry C)} {b k : Nat} {t : Int}
    (h : Compacts rf ℓ b) (hk : b < k) (ht : rf.termOfEntry k = some t) :
    k ≤ ℓ.length ∧ termOf ℓ k = t := by
  obtain ⟨j, rfl⟩ : ∃ j, k = j + 1 := ⟨k - 1, by omega⟩
  rw [Peer.termOfEntry, h.index, if_neg (by omega),
    show ((j + 1 : Nat) : Int) = (j : Int) + 1 by omega, h.entryAt (by omega)] at ht
  obtain ⟨e, he, rfl⟩ := Option.map_eq_some_iff.mp ht
  obtain ⟨hlt, -⟩ := List.getElem?_eq_some_iff.mp he
  exact ⟨hlt, termOf_succ he⟩

end Peer

namespace Cluster

/-- If the answer elects its reader, the other servers that may follow it share what it
has compacted. -/
def ElectsAbreast (w : Cluster n C) : Response n C → Prop
  | .requestVote e _ _ reply => ∀ el ∈ w.elections[e]?,
      (w.peers el.src).Wins el.args reply el.votes → ∀ p ≠ el.src,
      (w.peers p).currentTerm ≤ (w.peers el.src).currentTerm →
      (w.peers p).Shares (w.peers el.src)
  | .appendEntries .. => True
  | .installSnapshot .. => True

instance (w : Cluster n C) : (r : Response n C) → Decidable (w.ElectsAbreast r)
  | .requestVote e _ _ reply => inferInstanceAs (Decidable (∀ el ∈ w.elections[e]?,
      (w.peers el.src).Wins el.args reply el.votes → ∀ p ≠ el.src,
      (w.peers p).currentTerm ≤ (w.peers el.src).currentTerm →
      (w.peers p).Shares (w.peers el.src)))
  | .appendEntries .. => isTrue trivial
  | .installSnapshot .. => isTrue trivial

/-- No server becomes leader while another one that may follow it lacks what it has
compacted. -/
def NoneLags (w : Cluster n C) (act : Action n C) : Prop :=
  ∀ r ∈ w.read act, w.ElectsAbreast r

instance (w : Cluster n C) (act : Action n C) : Decidable (w.NoneLags act) :=
  inferInstanceAs (Decidable (∀ r ∈ w.read act, w.ElectsAbreast r))

structure Abreast (w : Cluster n C) (act : Action n C) : Prop where
  safe : Safe w act
  elects : NoneLags w act

instance (w : Cluster n C) (act : Action n C) : Decidable (Abreast w act) :=
  decidable_of_iff (Safe w act ∧ NoneLags w act)
    ⟨fun ⟨hs, he⟩ => ⟨hs, he⟩, fun ⟨hs, he⟩ => ⟨hs, he⟩⟩

end Cluster

/-! ## Known indices -/

/-- Peer `p` backs the log of term `t` up to the index. -/
def Known (a : AbsState n C) (t : Int) (p : Fin n) (index : Int) : Prop :=
  ∃ m : Nat, index = m ∧ m ≤ (a.tlog t).length ∧ a.Backs (majority n) p t m

namespace Known

variable {a a' : AbsState n C} {t index : Int} {p : Fin n}

theorem steps (hinv : a.Inv (majority n)) (h : Known a t p index)
    (hs : State.Steps (majority n) a a') : Known a' t p index := by
  obtain ⟨m, hindex, hm, hbacks⟩ := h
  obtain ⟨-, hext⟩ := hinv.steps hs
  exact ⟨m, hindex, hm.trans (hext.tlog_mono t).length_le, hbacks.steps hinv hm hs⟩

theorem of_ack (hinv : a.Inv (majority n)) (hacks : a.AcksBacked (majority n))
    (h0 : 0 ≤ index) (hack : index ≤ a.ack p t) : Known a t p index := by
  obtain ⟨m, rfl⟩ : ∃ m : Nat, index = m := ⟨index.toNat, by omega⟩
  have hm : m ≤ a.ack p t := by omega
  exact ⟨m, rfl, hm.trans (hinv.ack_le p t), (hacks p t).of_le hm⟩

/-- The greater of two known indices, one of them at `q`. -/
theorem update {known : Fin n → Int} (h : Known a t p (known p)) {q : Fin n}
    (hq : Known a t q index) :
    Known a t p (Function.update known q (max (known q) index) p) := by
  rw [Function.update_apply]
  split
  · next heq =>
      subst heq
      rcases le_total (known p) index with hle | hle
      · rw [max_eq_right hle]
        exact hq
      · rw [max_eq_left hle]
        exact h
  · exact h

end Known

section Elected

variable {w : Cluster n C} {a : AbsState n C} {i p : Fin n}

/-- What a server shares it backs. -/
theorem Refines.take_of_shares (h : Refines w a) {b : Nat} (hb : b ≤ a.commit i)
    (hc : (w.peers i).Compacts (a.log i) b) (hs : (w.peers p).Shares (w.peers i)) :
    (a.log i).take b <+: a.log p ∧
      (a.cur p < a.cur i → a.CommittedTo (majority n) (a.cur p) ((a.log i).take b)) := by
  have hcommitted : b ≤ a.commit p → (a.log i).take b <+: a.log p ∧
      (a.cur p < a.cur i → a.CommittedTo (majority n) (a.cur p) ((a.log i).take b)) := by
    intro hbp
    rw [h.inv.take_commit_eq hb hbp]
    exact ⟨List.take_prefix _ _, fun _ =>
      (h.inv.commit_ok p).of_isPrefix (List.take_prefix_take_left hbp)⟩
  have hindex := hc.index
  have hcommit := (h.peers p).commit
  rcases hs with hle | ⟨hterm, hlast⟩
  · exact hcommitted (by omega)
  · obtain ⟨b', hc', hb'⟩ := (h.peers p).base
    by_cases hbb : b ≤ b'
    · exact hcommitted (hbb.trans hb')
    · -- the last entry is the same, so all below it are
      rw [hindex, hc.term] at hlast
      obtain ⟨hlen, heq⟩ := hc'.of_termOfEntry (by omega) hlast
      have htake := matching_of_sound (h.inv.sound_log p) (h.inv.sound_log i) b (by omega) hlen
        hc.le heq
      rw [← htake, h.cur_eq, h.cur_eq, hterm]
      exact ⟨List.take_prefix _ _, fun hlt => absurd hlt (lt_irrefl _)⟩

theorem Known.of_shares (h : Refines w a) (hlead : (w.peers i).status = .leader)
    (hs : (w.peers p).currentTerm ≤ (w.peers i).currentTerm →
      (w.peers p).Shares (w.peers i)) :
    Known a (w.peers i).currentTerm p (w.peers i).lastIncludedIndex := by
  obtain ⟨b, hc, hb⟩ := (h.peers i).base
  have hlog := h.log_eq_tlog hlead
  refine ⟨b, hc.index, by rw [← hlog]; exact hc.le, fun hcur => ?_⟩
  rw [← hlog, ← h.cur_eq i]
  rw [h.cur_eq p] at hcur
  exact h.take_of_shares hb hc (hs hcur)

end Elected

/-! ## Runs -/

def Truthful (w : Cluster n C) (a : AbsState n C) : Prop :=
  ∀ i, (w.peers i).status = .leader → ∀ p ≠ i,
    Known a (w.peers i).currentTerm p ((w.peers i).matchIndex p)

/-- Reading a vote moves the reader only. -/
theorem Cluster.peers_of_readVote {w w' : Cluster n C} {k e : Nat} {dst p : Fin n}
    {args : RequestVoteArgs n} {reply : RequestVoteReply} {el : Election n}
    (hs : w.step (.receive k) = some w')
    (hk : w.responses[k]? = some (.requestVote e dst args reply))
    (hel : w.elections[e]? = some el) (hp : p ≠ el.src) : w'.peers p = w.peers p := by
  cases trans_of_step hs with
  | receiveVote _ e' dst' args' reply' el' rf votes started hk' hel' hinc hwait hreply =>
      rw [hk] at hk'
      cases hk'
      rw [hel] at hel'
      cases hel'
      rw [readVote_peers]
      exact Function.update_of_ne hp _ _
  | receiveEntries _ m dst' args' reply' wk hk' hm hinc hpc =>
      rw [hk] at hk'
      cases hk'
  | receiveSnapshot _ m dst' args' reply' wk hk' hm hinc hpc =>
      rw [hk] at hk'
      cases hk'

section Step

variable {w w' : Cluster n C} {a a' : AbsState n C} {act : Action n C}

theorem Truthful.step (ht : Truthful w a) (h : Refines w a) (hacks : a.AcksBacked (majority n))
    (hok : w.NoneLags act) (hs : w.step act = some w') (hsteps : State.Steps (majority n) a a')
    (h' : Refines w' a') : Truthful w' a' := by
  intro i hlead' p hp
  have hold : (w.peers i).status = .leader →
      Known a' (w.peers i).currentTerm p ((w.peers i).matchIndex p) :=
    fun hlead => (ht i hlead p hp).steps h.inv hsteps
  rcases Cluster.goes_of_step h.votes.me hs i with heq | ⟨s, hrun, hissue⟩
  · rw [heq] at hlead' ⊢
    exact hold hlead'
  · obtain ⟨rf', hrf⟩ : ∃ rf', w'.peers i = rf' := ⟨_, rfl⟩
    rw [hrf] at hrun
    cases Peer.learns_of_run hrun with
    | nothing hkeeps =>
        rw [hrf] at hlead' ⊢
        obtain ⟨hlead, hterm, -, hmatch⟩ := hkeeps hlead'
        rw [hterm, hmatch]
        exact hold hlead
    | elected args reply votes hwins =>
        obtain ⟨k, e, dst, sent, el, rfl, hk, hel, rfl, rfl, rfl⟩ := hissue
        have hshares := hok _ hk el hel hwins p hp
        have hpeer := Cluster.peers_of_readVote hs hk hel hp
        have hknown : Known a' (w'.peers el.src).currentTerm p
            (w'.peers el.src).lastIncludedIndex := by
          refine .of_shares h' hlead' ?_
          rw [hpeer, hrf, Peer.becomeLeader_of_candidate hwins.2.1]
          exact hshares
        rw [hrf, Peer.becomeLeader_of_candidate hwins.2.1] at hknown ⊢
        exact hknown
    | entries dst args reply =>
        obtain ⟨k, m, wk, rfl, hk, hm, rfl⟩ := hissue
        obtain ⟨hprev, hsuccess, -⟩ := h.responses _ (List.mem_of_getElem? hk)
        rw [hrf] at hlead' ⊢
        obtain ⟨hlead, hterm, heq | ⟨hargs, hs, heq⟩⟩ :=
          Peer.handleAppendEntriesReply_matchIndex hlead'
        · rw [hterm, heq]
          exact hold hlead
        · rw [hterm, heq]
          refine (hold hlead).update ?_
          rw [hargs]
          exact (Known.of_ack h.inv hacks (by omega) (hsuccess hs)).steps h.inv hsteps
    | snapshot dst args reply =>
        obtain ⟨k, m, wk, rfl, hk, hm, rfl⟩ := hissue
        obtain ⟨hindex, hack⟩ := h.responses _ (List.mem_of_getElem? hk)
        rw [hrf] at hlead' ⊢
        obtain ⟨hlead, hterm, heq | ⟨hargs, hle, heq⟩⟩ :=
          Peer.handleInstallSnapshotReply_matchIndex hlead'
        · rw [hterm, heq]
          exact hold hlead
        · rw [hterm, heq]
          refine (hold hlead).update ?_
          rw [hargs]
          exact (Known.of_ack h.inv hacks hindex (hack hle)).steps h.inv hsteps

end Step

namespace Cluster

theorem truthful_of_path {w : Cluster n C} (h : Run.Path step Abreast init w) :
    ∃ a : AbsState n C, Refines w a ∧ Truthful w a := by
  have hinv : ∃ a : AbsState n C, Refines w a ∧ a.AcksBacked (majority n) ∧ Truthful w a := by
    refine h.invariant (P := fun w => ∃ a : AbsState n C, Refines w a ∧
      a.AcksBacked (majority n) ∧ Truthful w a) ?_ ⟨_, refines_init, .init 0, ?_⟩
    · rintro w act w' ⟨a, href, hacks, ht⟩ hok hs
      obtain ⟨a', hsteps, href'⟩ := href.step hok.safe hs
      exact ⟨a', href', hacks.steps href.inv hsteps,
        ht.step href hacks hok.elects hs hsteps href'⟩
    · intro i hlead
      cases hlead
  obtain ⟨a, href, -, ht⟩ := hinv
  exact ⟨a, href, ht⟩

/-- In every run whose elections leave none behind, a peer that is not in a later term has
the leader's log as far as the leader's `matchIndex` says. -/
theorem matchIndex_truthful {w : Cluster n C} (h : Run.Path step Abreast init w) {i p : Fin n}
    (hlead : (w.peers i).status = .leader) (hp : p ≠ i)
    (hterm : (w.peers p).currentTerm ≤ (w.peers i).currentTerm) :
    (w.peers i).matchIndex p ≤ (w.peers p).lastLogIndex ∧
      ∀ k, (w.peers i).lastIncludedIndex < k → (w.peers p).lastIncludedIndex < k →
        k ≤ (w.peers i).matchIndex p →
        ∃ e, (w.peers p).entryAt k = some e ∧ (w.peers i).entryAt k = some e := by
  obtain ⟨a, href, ht⟩ := truthful_of_path h
  obtain ⟨m, hm, hlen, hbacks⟩ := ht i hlead p hp
  obtain ⟨b, hc, -⟩ := (href.peers i).base
  obtain ⟨b', hc', -⟩ := (href.peers p).base
  rw [← href.log_eq_tlog hlead] at hlen
  obtain ⟨hpre, -⟩ := hbacks (by rw [href.cur_eq]; exact hterm)
  rw [← href.log_eq_tlog hlead] at hpre
  have hle := hpre.length_le
  rw [List.length_take_of_le hlen] at hle
  refine ⟨by rw [hm, hc'.lastLogIndex]; omega, fun k hk hk' hkm => ?_⟩
  have hindex := hc.index
  have hindex' := hc'.index
  obtain ⟨j, rfl⟩ : ∃ j : Nat, k = j + 1 := ⟨(k - 1).toNat, by omega⟩
  obtain ⟨e, he⟩ : ∃ e, (a.log i)[j]? = some e := ⟨_, List.getElem?_eq_getElem (by omega)⟩
  refine ⟨e, ?_, ?_⟩
  · obtain ⟨post, hpost⟩ := hpre
    rw [hc'.entryAt (by omega), ← hpost, List.getElem?_append_left
      (by rw [List.length_take]; omega), List.getElem?_take_of_lt (by omega), he]
  · rw [hc.entryAt (by omega), he]

/-- Peer 0 has entry 1 committed and compacted, restarts, and is elected again with the
votes of peers that both have the entry; then it replicates a second entry to peer 1. -/
def reelected : List (Action 3 Nat) :=
  [.tick 0 400 200, .deliver 1, .receive 0, .start 0 (some 7), .sendHeartbeat 0, .worker 0,
   .worker 1, .deliver 1, .deliver 1, .receive 0, .receive 0, .apply 0, .send 0,
   .snapshot 0 1 [1], .crash 0, .tick 0 400 200, .deliver 1, .deliver 1, .receive 0,
   .start 0 (some 8), .sendHeartbeat 1, .worker 2, .deliver 1, .receive 1]

theorem matchIndex_truthful_reelected : ∃ w : Cluster 3 Nat, Run.Path step Abreast init w ∧
    (w.peers 0).lastIncludedIndex = 1 ∧ (w.peers 0).matchIndex 1 = 2 ∧
    2 ≤ (w.peers 1).lastLogIndex ∧
    ∃ e, (w.peers 1).entryAt 2 = some e ∧ (w.peers 0).entryAt 2 = some e := by
  have hrun : (Run.exec step Abreast (init : Cluster 3 Nat) reelected).map (fun w =>
      ((w.peers 0).status, (w.peers 0).currentTerm, (w.peers 0).lastIncludedIndex,
        (w.peers 0).matchIndex 1, (w.peers 1).currentTerm, (w.peers 1).lastIncludedIndex)) =
      some (.leader, 2, 1, 2, 2, 0) := by
    decide +kernel
  obtain ⟨w, hpath, hend⟩ := Run.path_of_exec_map reelected _ hrun
  simp only [Prod.mk.injEq] at hend
  obtain ⟨hlead, hterm, hindex, hmatch, hterm', hindex'⟩ := hend
  obtain ⟨hle, hsame⟩ :=
    matchIndex_truthful hpath hlead (show (1 : Fin 3) ≠ 0 by decide) (by omega)
  exact ⟨w, hpath, hindex, hmatch, by omega, hsame 2 (by omega) (by omega) (by omega)⟩

/-- Peer 1 has not got entry 1 when peer 0, which has compacted it, is elected again. -/
def laggedBehind : List (Action 3 Nat) :=
  [.tick 0 400 200, .deliver 1, .receive 0, .start 0 (some 7), .sendHeartbeat 0, .worker 1,
   .deliver 1, .receive 0, .apply 0, .send 0, .snapshot 0 1 [1], .crash 0, .tick 0 400 200,
   .deliver 2, .receive 0]

theorem laggedBehind_untrue : ∃ w : Cluster 3 Nat, Run.Path step Ordered init w ∧
    (w.peers 0).status = .leader ∧ (w.peers 1).currentTerm ≤ (w.peers 0).currentTerm ∧
    (w.peers 0).matchIndex 1 = 1 ∧ (w.peers 1).lastLogIndex = 0 := by
  have hrun : (Run.exec step Ordered (init : Cluster 3 Nat) laggedBehind).map (fun w =>
      ((w.peers 0).status, (w.peers 0).currentTerm, (w.peers 1).currentTerm,
        (w.peers 0).matchIndex 1, (w.peers 1).lastLogIndex)) = some (.leader, 2, 0, 1, 0) := by
    decide +kernel
  obtain ⟨w, hpath, hend⟩ := Run.path_of_exec_map laggedBehind _ hrun
  simp only [Prod.mk.injEq] at hend
  obtain ⟨hlead, hterm, hterm', hmatch, hlast⟩ := hend
  exact ⟨w, hpath, hlead, by omega, hmatch, hlast⟩

end Cluster
end Raft
end Labs
