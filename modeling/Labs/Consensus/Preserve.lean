import Labs.Consensus.Invariant
import Mathlib.Logic.Relation

/-!
# Every move keeps the invariant
-/

namespace Labs
namespace Consensus
namespace State

variable {S T C : Type} [DecidableEq S]

section Access

theorem setLog_log (a : State S T C) (s q : S) (ℓ : List (Entry T C)) :
    (a.setLog s ℓ).log q = if q = s then ℓ else a.log q := by
  simp [setLog, Function.update_apply]

theorem setCommit_commit (a : State S T C) (s q : S) (k : Nat) :
    (a.setCommit s k).commit q = if q = s then k else a.commit q := by
  simp [setCommit, Function.update_apply]

variable [LinearOrder T]

theorem setAck_ack (a : State S T C) (s q : S) (t u : T) (m : Nat) :
    (a.setAck s t m).ack q u = if q = s ∧ u = t then m else a.ack q u := by
  by_cases hq : q = s
  · subst hq
    simp [setAck, Function.update_apply]
  · simp [setAck, hq]

theorem stand_cand (a : State S T C) (s c : S) (t u : T) :
    (a.stand s t).cand c u = if c = s ∧ u = t then some (a.log s) else a.cand c u := by
  by_cases hc : c = s
  · subst hc
    simp [stand, Function.update_apply]
  · simp [stand, hc]

theorem elect_tlog (a : State S T C) (c : S) (t u : T) :
    (a.elect c t).tlog u = if u = t then a.log c else a.tlog u := by
  simp [elect, Function.update_apply]

theorem append_tlog (a : State S T C) (s : S) (v : C) (u : T) :
    (a.append s v).tlog u =
      if u = a.cur s then a.log s ++ [{ term := a.cur s, command := v }] else a.tlog u := by
  simp [append, Function.update_apply]

theorem append_log (a : State S T C) (s q : S) (v : C) :
    (a.append s v).log q =
      if q = s then a.log s ++ [{ term := a.cur s, command := v }] else a.log q :=
  setLog_log a s q _

theorem append_ack (a : State S T C) (s q : S) (v : C) (u : T) :
    (a.append s v).ack q u =
      if q = s ∧ u = a.cur s then (a.log s).length + 1 else a.ack q u := by
  simp only [append, List.length_append, List.length_singleton]
  exact setAck_ack _ s q _ u _

theorem elect_ack (a : State S T C) (c q : S) (t u : T) :
    (a.elect c t).ack q u = if q = c ∧ u = t then (a.log c).length else a.ack q u :=
  setAck_ack a c q t u _

theorem accept_ack (a : State S T C) (q s : S) (m : Nat) (u : T) :
    (a.accept q m).ack s u =
      if s = q ∧ u = a.cur q then max (a.ack q (a.cur q)) m else a.ack s u :=
  setAck_ack _ q s _ u _

theorem accept_log (a : State S T C) (q s : S) (m : Nat) :
    (a.accept q m).log s =
      if s = q then adopt (a.tlog (a.cur q)) m (a.log q) else a.log s :=
  setLog_log a q s _

end Access

variable [LinearOrder T] {𝒬 : QuorumSystem S} {a : State S T C}

/-! ## A new term -/

theorem ext_advance {s : S} {t : T} (ht : a.cur s ≤ t) : Ext a (a.advance s t) where
  cur_le := by
    intro q
    simp only [advance, Ballots.advance_cur]
    split
    · next hq => rw [hq]; exact ht
    · exact le_refl _
  vote := fun h => h
  cand := fun h => h
  leader := fun h => h
  tlog := fun _ => ⟨[], by simp [advance], by simp⟩
  ack_le := fun _ _ => Nat.le_refl _
  ack_left := fun _ => rfl

theorem Inv.advance (h : Inv 𝒬 a) {s : S} {t : T} (ht : a.cur s < t) :
    Inv 𝒬 (a.advance s t) := by
  have hext : Ext a (a.advance s t) := ext_advance ht.le
  have hlead : ∀ {q}, a.leader ((a.advance s t).cur q) = some q → q ≠ s := by
    rintro q hq rfl
    have hcur : (a.advance q t).cur q = t := by simp [State.advance, Ballots.advance_cur]
    rw [hcur] at hq
    exact absurd (h.lead_le hq) (not_le.mpr ht)
  exact {
    ballots := h.ballots.advance ht.le
    vote_cand := h.vote_cand
    cand_le := fun hc => (h.cand_le hc).trans (hext.cur_le _)
    lead_le := fun hl => (h.lead_le hl).trans (hext.cur_le _)
    no_lead := h.no_lead
    lead_log := by
      intro q hq
      have hne := hlead hq
      have hcur : (a.advance s t).cur q = a.cur q := by
        simp [State.advance, Ballots.advance_cur, hne]
      rw [hcur] at hq ⊢
      exact h.lead_log hq
    sound_log := fun q => hext.sound (h.sound_log q)
    sound_tlog := fun u => hext.sound (h.sound_tlog u)
    sound_cand := fun hc => hext.sound (h.sound_cand hc)
    term_log := fun he => (h.term_log he).trans (hext.cur_le _)
    term_tlog := h.term_tlog
    term_cand := h.term_cand
    ack_le := h.ack_le
    ack_cur := fun hk => (h.ack_cur hk).trans (hext.cur_le _)
    ack_log := h.ack_log_of_ext hext
    vote_log := h.vote_log_of_ext hext
    complete := h.complete_of_ext hext
    commit_le := h.commit_le
    commit_ok := fun _ => h.commit_ok_of_ext hext rfl }

/-! ## Standing for election -/

theorem stand_vote_cases {s q c : S} {t u : T} (hv : (a.stand s t).vote q u = some c) :
    q = s ∧ u = t ∧ c = s ∨ a.vote q u = some c := by
  simp only [State.stand, Ballots.cast_vote, Ballots.advance_vote] at hv
  split at hv
  · next hs =>
      cases hv
      exact .inl ⟨hs.1, hs.2, rfl⟩
  · exact .inr hv

theorem stand_cand_cases {s c : S} {t u : T} {ℓ : List (Entry T C)}
    (hc : (a.stand s t).cand c u = some ℓ) :
    c = s ∧ u = t ∧ ℓ = a.log s ∨ a.cand c u = some ℓ := by
  rw [stand_cand] at hc
  split at hc
  · next hs =>
      cases hc
      exact .inl ⟨hs.1, hs.2, rfl⟩
  · exact .inr hc

theorem ext_stand (h : Inv 𝒬 a) {s : S} {t : T} (ht : a.cur s < t) : Ext a (a.stand s t) where
  cur_le := (ext_advance ht.le).cur_le
  vote := by
    intro q u c hv
    exact Ballots.cast_vote_of (.inl (h.ballots.vote_none ht)) hv
  cand := by
    intro c u ℓ hc
    rw [stand_cand, if_neg, hc]
    rintro ⟨rfl, rfl⟩
    exact absurd (h.cand_le hc) (not_le.mpr ht)
  leader := fun hl => hl
  tlog := fun _ => ⟨[], by simp [stand], by simp⟩
  ack_le := fun _ _ => Nat.le_refl _
  ack_left := fun _ => rfl

theorem Inv.stand (h : Inv 𝒬 a) {s : S} {t : T} (ht : a.cur s < t) : Inv 𝒬 (a.stand s t) := by
  have hext : Ext a (a.stand s t) := ext_stand h ht
  have hadv : Inv 𝒬 (a.advance s t) := h.advance ht
  have hcurs : (a.advance s t).cur s = t := by simp [State.advance, Ballots.advance_cur]
  exact {
    ballots := by
      refine hadv.ballots.cast hcurs.ge (.inl ?_)
      exact h.ballots.vote_none ht
    vote_cand := by
      intro q u c hv
      rcases stand_vote_cases hv with ⟨rfl, rfl, rfl⟩ | hv
      · exact ⟨a.log c, by rw [stand_cand, if_pos ⟨rfl, rfl⟩]⟩
      · obtain ⟨ℓ, hℓ⟩ := h.vote_cand hv
        exact ⟨ℓ, hext.cand hℓ⟩
    cand_le := by
      intro c u ℓ hc
      rcases stand_cand_cases hc with ⟨rfl, rfl, -⟩ | hc
      · exact hcurs.ge
      · exact (h.cand_le hc).trans (hext.cur_le c)
    lead_le := hadv.lead_le
    no_lead := h.no_lead
    lead_log := hadv.lead_log
    sound_log := fun q => hext.sound (h.sound_log q)
    sound_tlog := fun u => hext.sound (h.sound_tlog u)
    sound_cand := by
      intro c u ℓ hc
      rcases stand_cand_cases hc with ⟨-, -, rfl⟩ | hc
      · exact hext.sound (h.sound_log s)
      · exact hext.sound (h.sound_cand hc)
    term_log := hadv.term_log
    term_tlog := h.term_tlog
    term_cand := by
      intro c u ℓ e hc he
      rcases stand_cand_cases hc with ⟨-, rfl, rfl⟩ | hc
      · exact (h.term_log he).trans_lt ht
      · exact h.term_cand hc he
    ack_le := h.ack_le
    ack_cur := hadv.ack_cur
    ack_log := h.ack_log_of_ext hext
    vote_log := by
      intro q u c ℓ t' j hv hc hlt hj hown
      rcases stand_cand_cases hc with ⟨rfl, rfl, rfl⟩ | hold
      · -- the only vote for the new candidate is its own
        rcases stand_vote_cases hv with ⟨rfl, -, -⟩ | hv
        · exact h.ack_log_of_ext hext hj hown
        · obtain ⟨ℓ, hℓ⟩ := h.vote_cand hv
          exact absurd (h.cand_le hℓ) (not_le.mpr ht)
      · rcases stand_vote_cases hv with ⟨rfl, rfl, rfl⟩ | hv
        · exact absurd (h.cand_le hold) (not_le.mpr ht)
        · exact h.vote_log_of_ext hext hv hold hlt hj hown
    complete := h.complete_of_ext hext
    commit_le := h.commit_le
    commit_ok := fun _ => h.commit_ok_of_ext hext rfl }

/-! ## Granting a vote -/

theorem ext_grant {q c : S} (hfree : a.vote q (a.cur q) = none ∨ a.vote q (a.cur q) = some c) :
    Ext a (a.grant q (a.cur q) c) where
  cur_le := fun _ => le_refl _
  vote := fun hv => Ballots.cast_vote_of hfree hv
  cand := fun h => h
  leader := fun h => h
  tlog := fun _ => ⟨[], by simp [grant], by simp⟩
  ack_le := fun _ _ => Nat.le_refl _
  ack_left := fun _ => rfl

theorem grant_vote_cases {q c s d : S} {u : T}
    (hv : (a.grant q (a.cur q) c).vote s u = some d) :
    s = q ∧ u = a.cur q ∧ d = c ∨ a.vote s u = some d := by
  simp only [State.grant, Ballots.cast_vote] at hv
  split at hv
  · next hs =>
      cases hv
      exact .inl ⟨hs.1, hs.2, rfl⟩
  · exact .inr hv

theorem Inv.grant (h : Inv 𝒬 a) {q c : S} {ℓ : List (Entry T C)}
    (hfree : a.vote q (a.cur q) = none ∨ a.vote q (a.cur q) = some c)
    (hcand : a.cand c (a.cur q) = some ℓ) (hup : UpToDate ℓ (a.log q)) :
    Inv 𝒬 (a.grant q (a.cur q) c) := by
  have hext : Ext a (a.grant q (a.cur q) c) := ext_grant hfree
  exact {
    ballots := h.ballots.cast (le_refl _) hfree
    vote_cand := by
      intro s u d hv
      rcases grant_vote_cases hv with ⟨rfl, rfl, rfl⟩ | hv
      · exact ⟨ℓ, hcand⟩
      · exact h.vote_cand hv
    cand_le := h.cand_le
    lead_le := h.lead_le
    no_lead := h.no_lead
    lead_log := h.lead_log
    sound_log := fun s => hext.sound (h.sound_log s)
    sound_tlog := fun u => hext.sound (h.sound_tlog u)
    sound_cand := fun hc => hext.sound (h.sound_cand hc)
    term_log := h.term_log
    term_tlog := h.term_tlog
    term_cand := h.term_cand
    ack_le := h.ack_le
    ack_cur := h.ack_cur
    ack_log := h.ack_log_of_ext hext
    vote_log := by
      intro s u d ℓ' t j hv hc hlt hj hown
      rcases grant_vote_cases hv with ⟨rfl, rfl, rfl⟩ | hv
      · obtain rfl : ℓ = ℓ' := Option.some.inj (hcand.symm.trans hc)
        refine hext.held (hj.trans_le (h.ack_le s t)) ?_
        exact h.held_of_upToDate hown (h.sound_log s) (h.sound_cand hcand) hup
          (h.ack_log hj hown)
      · exact h.vote_log_of_ext hext hv hc hlt hj hown
    complete := h.complete_of_ext hext
    commit_le := h.commit_le
    commit_ok := fun _ => h.commit_ok_of_ext hext rfl }

/-! ## Winning an election -/

theorem ext_elect (h : Inv 𝒬 a) {c : S} (hnone : a.leader (a.cur c) = none) :
    Ext a (a.elect c (a.cur c)) where
  cur_le := fun _ => le_refl _
  vote := fun hv => hv
  cand := fun hc => hc
  leader := by
    intro t d hd
    simp only [elect, Ballots.elect_leader]
    rw [if_neg, hd]
    rintro rfl
    rw [hnone] at hd
    cases hd
  tlog := by
    intro t
    rw [elect_tlog]
    split
    · next ht =>
        subst ht
        exact ⟨a.log c, by rw [h.no_lead hnone, List.nil_append],
          fun hne => absurd hnone hne⟩
    · exact ⟨[], by simp, by simp⟩
  ack_le := by
    intro q t
    rw [elect_ack]
    split
    · next hq =>
        obtain ⟨rfl, rfl⟩ := hq
        have := h.ack_le q (a.cur q)
        rw [h.no_lead hnone, List.length_nil] at this
        omega
    · exact Nat.le_refl _
  ack_left := by
    intro q t ht
    rw [elect_ack, if_neg]
    rintro ⟨rfl, rfl⟩
    exact absurd ht (lt_irrefl _)

theorem elect_leader_cases {c d : S} {t : T}
    (hd : (a.elect c (a.cur c)).leader t = some d) :
    t = a.cur c ∧ d = c ∨ t ≠ a.cur c ∧ a.leader t = some d := by
  simp only [State.elect, Ballots.elect_leader] at hd
  split at hd
  · next ht =>
      cases hd
      exact .inl ⟨ht, rfl⟩
  · next ht => exact .inr ⟨ht, hd⟩

theorem elect_ack_cases {c q : S} {t : T} {j : Nat}
    (hj : j < (a.elect c (a.cur c)).ack q t) : q = c ∧ t = a.cur c ∨ j < a.ack q t := by
  rw [elect_ack] at hj
  split at hj
  · next hq => exact .inl hq
  · exact .inr hj

omit [DecidableEq S] in
/-- A candidate with a quorum of votes holds all that an earlier term may have committed: a
voter that acknowledged it has passed it on. -/
theorem Inv.complete_of_votes (h : Inv 𝒬 a) {c : S} {u t : T} {j : Nat} {Q : Finset S}
    {ℓ : List (Entry T C)} (hQ : 𝒬.isQuorum Q) (hv : ∀ q ∈ Q, a.vote q u = some c)
    (hcand : a.cand c u = some ℓ) (hlt : t < u)
    (hown : ∀ e, (a.tlog t)[j]? = some e → e.term = t) :
    j < (a.tlog t).length ∧ (a.tlog t).take (j + 1) <+: ℓ ∨ a.Refuted 𝒬 t j := by
  by_cases hq : ∃ q ∈ Q, j < a.ack q t
  · obtain ⟨q, hqQ, hj⟩ := hq
    have hlen := hj.trans_le (h.ack_le q t)
    have he := List.getElem?_eq_getElem hlen
    rcases h.vote_log (hv q hqQ) hcand hlt hj ⟨_, he, hown _ he⟩ with hp | hr
    · exact .inl ⟨hlen, hp⟩
    · exact .inr hr
  · refine .inr ⟨Q, hQ, fun q hqQ => ?_⟩
    have hcur := h.ballots.vote_le (hv q hqQ)
    exact ⟨hlt.trans_le hcur, not_lt.mp fun hj => hq ⟨q, hqQ, hj⟩⟩

theorem Inv.elect (h : Inv 𝒬 a) {c : S} {Q : Finset S} (hQ : 𝒬.isQuorum Q)
    (hv : ∀ q ∈ Q, a.vote q (a.cur c) = some c)
    (hcand : a.cand c (a.cur c) = some (a.log c)) (hnone : a.leader (a.cur c) = none) :
    Inv 𝒬 (a.elect c (a.cur c)) := by
  have hext : Ext a (a.elect c (a.cur c)) := ext_elect h hnone
  have hempty : a.tlog (a.cur c) = [] := h.no_lead hnone
  exact {
    ballots := h.ballots.elect hQ hv
    vote_cand := h.vote_cand
    cand_le := h.cand_le
    lead_le := by
      intro t d hd
      rcases elect_leader_cases hd with ⟨rfl, rfl⟩ | ⟨-, hd⟩
      · exact le_refl _
      · exact h.lead_le hd
    no_lead := by
      intro t ht
      have hne : t ≠ a.cur c := by
        rintro rfl
        simp [State.elect, Ballots.elect_leader] at ht
      simp only [State.elect, Ballots.elect_leader, if_neg hne] at ht
      rw [elect_tlog, if_neg hne]
      exact h.no_lead ht
    lead_log := by
      intro s hs
      rw [elect_tlog]
      rcases elect_leader_cases hs with ⟨hcur, rfl⟩ | ⟨hcur, hs⟩
      · rw [if_pos hcur]
        rfl
      · rw [if_neg hcur]
        exact h.lead_log hs
    sound_log := fun s => hext.sound (h.sound_log s)
    sound_tlog := by
      intro t
      rw [elect_tlog]
      split
      · exact hext.sound (h.sound_log c)
      · exact hext.sound (h.sound_tlog t)
    sound_cand := fun hc => hext.sound (h.sound_cand hc)
    term_log := h.term_log
    term_tlog := by
      intro t e he
      rw [elect_tlog] at he
      split at he
      · next ht =>
          rw [ht]
          exact h.term_log he
      · exact h.term_tlog he
    term_cand := h.term_cand
    ack_le := by
      intro q t
      rw [elect_ack, elect_tlog]
      split
      · next hq => rw [if_pos hq.2]
      · split
        · next ht =>
            have := h.ack_le q t
            rw [ht, hempty, List.length_nil] at this
            rw [ht]
            omega
        · exact h.ack_le q t
    ack_cur := by
      intro q t hpos
      rcases elect_ack_cases hpos with ⟨rfl, rfl⟩ | hpos
      · exact le_refl _
      · exact h.ack_cur hpos
    ack_log := by
      intro q t j hj hown
      rcases elect_ack_cases hj with ⟨rfl, rfl⟩ | hj
      · left
        rw [elect_tlog, if_pos rfl]
        exact List.take_prefix _ _
      · exact h.ack_log_of_ext hext hj hown
    vote_log := h.vote_log_of_ext hext
    complete := by
      intro u t j hu hlt hown
      by_cases huc : u = a.cur c
      · subst huc
        rw [elect_tlog a c _ t, if_neg hlt.ne] at hown ⊢
        rw [elect_tlog, if_pos rfl]
        exact (h.complete_of_votes hQ hv hcand hlt hown).imp_right hext.refuted
      · refine h.complete_of_ext hext ?_ hlt hown
        simpa [State.elect, Ballots.elect_leader, huc] using hu
    commit_le := h.commit_le
    commit_ok := fun _ => h.commit_ok_of_ext hext rfl }

/-! ## A leader appends -/

theorem ext_append (h : Inv 𝒬 a) {s : S} {v : C} (hlead : a.leader (a.cur s) = some s) :
    Ext a (a.append s v) where
  cur_le := fun _ => le_refl _
  vote := fun hv => hv
  cand := fun hc => hc
  leader := fun hl => hl
  tlog := by
    intro t
    rw [append_tlog]
    split
    · next ht =>
        subst ht
        refine ⟨_, by rw [h.lead_log hlead], fun _ e he => ?_⟩
        rw [List.mem_singleton.mp he]
    · exact ⟨[], by simp, by simp⟩
  ack_le := by
    intro q t
    rw [append_ack]
    split
    · next hq =>
        obtain ⟨rfl, rfl⟩ := hq
        have := h.ack_le q (a.cur q)
        rw [← h.lead_log hlead] at this
        omega
    · exact Nat.le_refl _
  ack_left := by
    intro q t ht
    rw [append_ack, if_neg]
    rintro ⟨rfl, rfl⟩
    exact absurd ht (lt_irrefl _)

theorem append_ack_cases {s q : S} {v : C} {t : T} {j : Nat} (hj : j < (a.append s v).ack q t) :
    q = s ∧ t = a.cur s ∨ j < a.ack q t := by
  rw [append_ack] at hj
  split at hj
  · next hq => exact .inl hq
  · exact .inr hj

theorem prefix_append_log {s : S} {v : C} (q : S) : a.log q <+: (a.append s v).log q := by
  rw [append_log]
  split
  · next hq =>
      subst hq
      exact List.prefix_append _ _
  · exact List.prefix_refl _

theorem Inv.sound_append (h : Inv 𝒬 a) {s : S} {v : C} (hlead : a.leader (a.cur s) = some s) :
    (a.append s v).Sound (a.log s ++ [{ term := a.cur s, command := v }]) := by
  intro p e hp
  rcases List.prefix_concat_iff.mp hp with heq | hp
  · obtain ⟨-, he⟩ := List.append_inj' heq rfl
    cases he
    rw [append_tlog, if_pos rfl, heq]
  · exact (ext_append h hlead).sound (h.sound_log s) p e hp

theorem Inv.append (h : Inv 𝒬 a) {s : S} {v : C} (hlead : a.leader (a.cur s) = some s) :
    Inv 𝒬 (a.append s v) := by
  have hext : Ext a (a.append s v) := ext_append h hlead
  have hlog := h.lead_log hlead
  have hnew := h.sound_append (v := v) hlead
  exact {
    ballots := h.ballots
    vote_cand := h.vote_cand
    cand_le := h.cand_le
    lead_le := h.lead_le
    no_lead := by
      intro t ht
      have hne : t ≠ a.cur s := by
        rintro rfl
        rw [show (a.append s v).leader = a.leader from rfl, hlead] at ht
        cases ht
      rw [append_tlog, if_neg hne]
      exact h.no_lead ht
    lead_log := by
      intro q hq
      rw [append_log, append_tlog]
      by_cases hqs : q = s
      · rw [hqs, if_pos rfl]
        exact (if_pos rfl).symm
      · have hcur : (a.append s v).cur q ≠ a.cur s := by
          intro he
          rw [he] at hq
          exact hqs (Option.some.inj (hq.symm.trans hlead))
        rw [if_neg hqs, if_neg hcur]
        exact h.lead_log hq
    sound_log := by
      intro q
      rw [append_log]
      split
      · exact hnew
      · exact hext.sound (h.sound_log q)
    sound_tlog := by
      intro t
      rw [append_tlog]
      split
      · exact hnew
      · exact hext.sound (h.sound_tlog t)
    sound_cand := fun hc => hext.sound (h.sound_cand hc)
    term_log := by
      intro q e he
      rw [append_log] at he
      split at he
      · next hq =>
          rw [hq]
          rcases List.mem_append.mp he with he | he
          · exact h.term_log he
          · rw [List.mem_singleton.mp he]
            exact le_refl _
      · exact h.term_log he
    term_tlog := by
      intro t e he
      rw [append_tlog] at he
      split at he
      · next ht =>
          rw [ht]
          rcases List.mem_append.mp he with he | he
          · exact h.term_log he
          · rw [List.mem_singleton.mp he]
      · exact h.term_tlog he
    term_cand := h.term_cand
    ack_le := by
      intro q t
      rw [append_ack, append_tlog]
      split
      · next hq =>
          rw [if_pos hq.2, List.length_append]
          exact Nat.le_refl _
      · split
        · next ht =>
            have := h.ack_le q t
            rw [ht, ← hlog] at this
            rw [ht, List.length_append]
            omega
        · exact h.ack_le q t
    ack_cur := by
      intro q t hpos
      rcases append_ack_cases hpos with ⟨rfl, rfl⟩ | hpos
      · exact le_refl _
      · exact h.ack_cur hpos
    ack_log := by
      intro q t j hj hown
      rcases append_ack_cases hj with ⟨rfl, rfl⟩ | hj
      · left
        rw [append_tlog, append_log, if_pos rfl, if_pos rfl]
        exact List.take_prefix _ _
      · exact (h.ack_log_of_ext hext hj hown).imp_left fun hp => hp.trans (prefix_append_log q)
    vote_log := h.vote_log_of_ext hext
    complete := h.complete_of_ext hext
    commit_le := fun q => (h.commit_le q).trans (prefix_append_log q).length_le
    commit_ok := by
      intro q
      obtain ⟨new, hnew⟩ : a.log q <+: (a.append s v).log q := prefix_append_log q
      refine h.commit_ok_of_ext hext ?_
      show ((a.append s v).log q).take (a.commit q) = (a.log q).take (a.commit q)
      rw [← hnew, List.take_append_of_le_length (h.commit_le q)] }

/-! ## Taking over a part of the leader's log -/

theorem ext_accept (q : S) (m : Nat) : Ext a (a.accept q m) where
  cur_le := fun _ => le_refl _
  vote := fun hv => hv
  cand := fun hc => hc
  leader := fun hl => hl
  tlog := fun _ => ⟨[], by simp [accept, setLog, setAck], by simp⟩
  ack_le := by
    intro s t
    rw [accept_ack]
    split
    · next hs =>
        obtain ⟨rfl, rfl⟩ := hs
        exact Nat.le_max_left _ _
    · exact Nat.le_refl _
  ack_left := by
    intro s t ht
    rw [accept_ack, if_neg]
    rintro ⟨rfl, rfl⟩
    exact absurd ht (lt_irrefl _)

theorem accept_ack_cases {q s : S} {m : Nat} {t : T} {j : Nat} (hj : j < (a.accept q m).ack s t) :
    s = q ∧ t = a.cur q ∧ j < m ∨ j < a.ack s t := by
  rw [accept_ack] at hj
  split at hj
  · next hs =>
      rcases lt_max_iff.mp hj with hj | hj
      · right
        rw [hs.1, hs.2]
        exact hj
      · exact .inl ⟨hs.1, hs.2, hj⟩
  · exact .inr hj

omit [DecidableEq S] in
/-- The committed part is in the leader's log too, and stays. -/
theorem Inv.commit_prefix_adopt (h : Inv 𝒬 a) {q : S} (m : Nat)
    (hlead : a.leader (a.cur q) ≠ none) :
    (a.log q).take (a.commit q) <+: adopt (a.tlog (a.cur q)) m (a.log q) :=
  prefix_adopt m (h.committedTo_tlog (h.commit_ok q) hlead) (List.take_prefix _ _)

omit [DecidableEq S] in
/-- What a server has acknowledged the leader of its term has too, so both logs begin with
it. -/
theorem Inv.held_adopt (h : Inv 𝒬 a) {q : S} (m : Nat) (hlead : a.leader (a.cur q) ≠ none)
    {t : T} {j : Nat} (hj : j < a.ack q t) (hown : a.OwnEntry t j) :
    a.Held 𝒬 t j (adopt (a.tlog (a.cur q)) m (a.log q)) := by
  rcases h.ack_log hj hown with hp | hr
  · rcases (h.ack_cur (Nat.zero_lt_of_lt hj)).lt_or_eq with htc | rfl
    · rcases h.complete hlead htc fun e => hown.term_eq with ⟨-, hpl⟩ | hr
      · exact .inl (prefix_adopt m hpl hp)
      · exact .inr hr
    · exact .inl (prefix_adopt m (List.take_prefix _ _) hp)
  · exact .inr hr

theorem Inv.accept (h : Inv 𝒬 a) {q : S} {m : Nat} (hlead : a.leader (a.cur q) ≠ none)
    (hne : a.leader (a.cur q) ≠ some q) (hm : m ≤ (a.tlog (a.cur q)).length) :
    Inv 𝒬 (a.accept q m) := by
  have hext : Ext a (a.accept q m) := ext_accept q m
  have hcommit := h.commit_prefix_adopt m hlead
  exact {
    ballots := h.ballots
    vote_cand := h.vote_cand
    cand_le := h.cand_le
    lead_le := h.lead_le
    no_lead := h.no_lead
    lead_log := by
      intro s hs
      have hsq : s ≠ q := by
        rintro rfl
        exact hne hs
      rw [accept_log, if_neg hsq]
      exact h.lead_log hs
    sound_log := by
      intro s
      rw [accept_log]
      split
      · rcases adopt_eq (a.tlog (a.cur q)) m (a.log q) with he | he
        · rw [he]
          exact hext.sound (h.sound_log q)
        · rw [he]
          exact hext.sound ((h.sound_tlog _).of_isPrefix (List.take_prefix _ _))
      · exact hext.sound (h.sound_log s)
    sound_tlog := fun t => hext.sound (h.sound_tlog t)
    sound_cand := fun hc => hext.sound (h.sound_cand hc)
    term_log := by
      intro s e he
      rw [accept_log] at he
      split at he
      · next hs =>
          subst hs
          rcases adopt_eq (a.tlog (a.cur s)) m (a.log s) with heq | heq
          · rw [heq] at he
            exact h.term_log he
          · rw [heq] at he
            exact h.term_tlog ((List.take_prefix _ _).subset he)
      · exact h.term_log he
    term_tlog := h.term_tlog
    term_cand := h.term_cand
    ack_le := by
      intro s t
      rw [accept_ack]
      split
      · next hs =>
          rw [hs.2]
          exact max_le (h.ack_le _ _) hm
      · exact h.ack_le s t
    ack_cur := by
      intro s t hpos
      rcases accept_ack_cases hpos with ⟨rfl, rfl, -⟩ | hpos
      · exact le_refl _
      · exact h.ack_cur hpos
    ack_log := by
      intro s t j hj hown
      rw [accept_log]
      rcases accept_ack_cases hj with ⟨rfl, rfl, hjm⟩ | hold
      · left
        rw [if_pos rfl]
        refine List.IsPrefix.trans ?_ (take_prefix_adopt _ m _)
        exact List.take_prefix_take_left hjm
      · split
        · next hs =>
            subst hs
            have hlen := hold.trans_le (h.ack_le s t)
            exact hext.held hlen (h.held_adopt m hlead hold ((hext.ownEntry_iff hlen).mp hown))
        · exact h.ack_log_of_ext hext hold hown
    vote_log := h.vote_log_of_ext hext
    complete := h.complete_of_ext hext
    commit_le := by
      intro s
      rw [accept_log]
      split
      · next hs =>
          subst hs
          have hle := hcommit.length_le
          rwa [List.length_take, Nat.min_eq_left (h.commit_le s)] at hle
      · exact h.commit_le s
    commit_ok := by
      intro s
      refine h.commit_ok_of_ext hext ?_
      show ((a.accept q m).log s).take (a.commit s) = (a.log s).take (a.commit s)
      rw [accept_log]
      split
      · next hs =>
          subst hs
          have heq := List.prefix_iff_eq_take.mp hcommit
          rw [List.length_take, Nat.min_eq_left (h.commit_le s)] at heq
          exact heq.symm
      · rfl }

/-! ## Moving the commit index -/

theorem ext_setCommit (s : S) (k : Nat) : Ext a (a.setCommit s k) where
  cur_le := fun _ => le_refl _
  vote := fun hv => hv
  cand := fun hc => hc
  leader := fun hl => hl
  tlog := fun _ => ⟨[], by simp [setCommit], by simp⟩
  ack_le := fun _ _ => Nat.le_refl _
  ack_left := fun _ => rfl

theorem Inv.setCommit (h : Inv 𝒬 a) {s : S} {k : Nat} (hk : k ≤ (a.log s).length)
    (hc : a.CommittedTo 𝒬 (a.cur s) ((a.log s).take k)) : Inv 𝒬 (a.setCommit s k) :=
  { h with
    commit_le := by
      intro q
      rw [setCommit_commit]
      split
      · next hq =>
          subst hq
          exact hk
      · exact h.commit_le q
    commit_ok := by
      intro q
      rw [setCommit_commit]
      split
      · next hq =>
          subst hq
          exact hc
      · exact h.commit_ok q }

/-! ## Runs -/

omit [DecidableEq S] in
theorem Inv.init (t₀ : T) : Inv 𝒬 (State.init t₀ : State S T C) where
  ballots := ⟨by simp [State.init], by simp [State.init]⟩
  vote_cand := by simp [State.init]
  cand_le := by simp [State.init]
  lead_le := by simp [State.init]
  no_lead := by simp [State.init]
  lead_log := by simp [State.init]
  sound_log := by simp [State.init, Sound]
  sound_tlog := by simp [State.init, Sound]
  sound_cand := by simp [State.init]
  term_log := by simp [State.init]
  term_tlog := by simp [State.init]
  term_cand := by simp [State.init]
  ack_le := by simp [State.init]
  ack_cur := by simp [State.init]
  ack_log := by simp [State.init]
  vote_log := by simp [State.init]
  complete := by simp [State.init]
  commit_le := by simp [State.init]
  commit_ok := by simp [State.init, CommittedTo]

theorem Inv.step {a' : State S T C} (h : Inv 𝒬 a) (hs : Step 𝒬 a a') : Inv 𝒬 a' ∧ Ext a a' := by
  cases hs with
  | advance ht => exact ⟨h.advance ht, ext_advance ht.le⟩
  | stand ht => exact ⟨h.stand ht, ext_stand h ht⟩
  | grant hfree hcand hup => exact ⟨h.grant hfree hcand hup, ext_grant hfree⟩
  | elect hQ hv hcand hnone => exact ⟨h.elect hQ hv hcand hnone, ext_elect h hnone⟩
  | append v hlead => exact ⟨h.append hlead, ext_append h hlead⟩
  | accept hlead hne hm => exact ⟨h.accept hlead hne hm, ext_accept _ _⟩
  | commit hk hc => exact ⟨h.setCommit hk hc, ext_setCommit _ _⟩

/-- The moves of the protocol, one after the other. -/
abbrev Steps (𝒬 : QuorumSystem S) : State S T C → State S T C → Prop :=
  Relation.ReflTransGen (Step 𝒬)

theorem Inv.steps {a' : State S T C} (h : Inv 𝒬 a) (hs : Steps 𝒬 a a') :
    Inv 𝒬 a' ∧ Ext a a' := by
  induction hs with
  | refl => exact ⟨h, Ext.refl a⟩
  | tail _ hst ih =>
      obtain ⟨hinv, hext⟩ := ih
      obtain ⟨hinv', hext'⟩ := hinv.step hst
      exact ⟨hinv', hext.trans hext'⟩

/-! ## Following a leader, in one go -/

omit [LinearOrder T] in
theorem advance_self (a : State S T C) (s : S) : a.advance s (a.cur s) = a := by
  simp [advance, Ballots.advance]

theorem steps_advance {s : S} {t : T} (ht : a.cur s ≤ t) : Steps 𝒬 a (a.advance s t) := by
  rcases ht.lt_or_eq with hlt | rfl
  · exact .single (.advance hlt)
  · rw [advance_self]

omit [DecidableEq S] in
/-- What a server has committed is in the log of every leader it may follow. -/
theorem Inv.take_commit_tlog (h : Inv 𝒬 a) {s : S} {t : T} (ht : a.cur s ≤ t)
    (hlead : a.leader t ≠ none) : (a.log s).take (a.commit s) <+: a.tlog t :=
  h.committedTo_tlog ((Ext.refl a).committedTo ht (h.commit_ok s)) hlead

/-- A server enters the term of a leader, takes over the first `m` entries of its log
and learns that `k` of them are committed. -/
noncomputable def follow (a : State S T C) (q : S) (t : T) (m k : Nat) : State S T C :=
  ((a.advance q t).accept q m).setCommit q (max (a.commit q) k)

section Follow

variable {q : S} {t : T} {m k : Nat}

omit [LinearOrder T] in
theorem advance_cur_self : (a.advance q t).cur q = t := by
  simp [advance, Ballots.advance_cur]

theorem follow_log_self : (a.follow q t m k).log q = adopt (a.tlog t) m (a.log q) := by
  have h := accept_log (a.advance q t) q q m
  rw [if_pos rfl, advance_cur_self] at h
  exact h

theorem follow_log_ne {s : S} (hs : s ≠ q) : (a.follow q t m k).log s = a.log s := by
  have h := accept_log (a.advance q t) q s m
  rw [if_neg hs] at h
  exact h

theorem follow_commit_self : (a.follow q t m k).commit q = max (a.commit q) k := by
  simp [follow, setCommit_commit]

theorem follow_commit_ne {s : S} (hs : s ≠ q) : (a.follow q t m k).commit s = a.commit s := by
  rw [follow, setCommit_commit, if_neg hs]
  rfl

theorem le_follow_ack : m ≤ (a.follow q t m k).ack q t := by
  have h := accept_ack (a.advance q t) q q m t
  rw [advance_cur_self, if_pos ⟨rfl, rfl⟩] at h
  exact (Nat.le_max_right _ _).trans h.ge

theorem steps_follow (h : Inv 𝒬 a) (ht : a.cur q ≤ t) (hlead : a.leader t ≠ none)
    (hne : a.leader t ≠ some q) (hm : m ≤ (a.tlog t).length) (hk : k ≤ m)
    (hc : a.CommittedTo 𝒬 t ((a.tlog t).take k)) : Steps 𝒬 a (a.follow q t m k) := by
  have hadv : Steps 𝒬 a (a.advance q t) := steps_advance ht
  have hacc : Step 𝒬 (a.advance q t) ((a.advance q t).accept q m) := by
    refine .accept ?_ ?_ ?_
    · rw [advance_cur_self]
      exact hlead
    · rw [advance_cur_self]
      exact hne
    · rw [advance_cur_self]
      exact hm
  have hsteps := hadv.tail hacc
  obtain ⟨hinv, hext⟩ := h.steps hsteps
  have hlog : ((a.advance q t).accept q m).log q = adopt (a.tlog t) m (a.log q) :=
    follow_log_self (k := k)
  have hcur : ((a.advance q t).accept q m).cur q = t := advance_cur_self
  refine hsteps.tail (.commit ?_ ?_) <;> rcases le_total k (a.commit q) with hle | hle
  · rw [max_eq_left hle]
    exact hinv.commit_le q
  · rw [max_eq_right hle, hlog]
    exact hk.trans (le_length_adopt hm _)
  · rw [max_eq_left hle]
    exact hinv.commit_ok q
  · rw [max_eq_right hle, hlog, take_adopt hm hk, hcur]
    exact hext.committedTo (le_refl t) hc

end Follow

/-! ## Committing -/

/-- A leader commits up to an entry of its own term that a quorum has acknowledged. -/
theorem steps_commit_own (h : Inv 𝒬 a) {s : S} {k : Nat} {e : Entry T C} {Q : Finset S}
    (hlead : a.leader (a.cur s) = some s) (he : (a.log s)[k]? = some e)
    (hterm : e.term = a.cur s) (hQ : 𝒬.isQuorum Q) (hack : ∀ q ∈ Q, k < a.ack q (a.cur s)) :
    Steps 𝒬 a (a.setCommit s (k + 1)) := by
  have hlog := h.lead_log hlead
  refine .single (.commit (List.getElem?_eq_some_iff.mp he).1
    (.inr ⟨a.cur s, le_refl _, k, ?_, ?_⟩))
  · rw [hlog] at he
    exact ⟨⟨e, he, hterm⟩, Q, hQ, hack⟩
  · rw [hlog]

/-- A commit index may always be lowered. -/
theorem steps_lower_commit (h : Inv 𝒬 a) {s : S} {k : Nat} (hk : k ≤ a.commit s) :
    Steps 𝒬 a (a.setCommit s k) := by
  refine .single (.commit (hk.trans (h.commit_le s)) ((h.commit_ok s).of_isPrefix ?_))
  exact List.take_prefix_take_left hk

end State
end Consensus
end Labs
