import Labs.Consensus.Model

/-!
# The invariant of the replicated log

Every log is explained by the logs of the leaders: the entries of a log up to one
of term `t` are the ones the leader of `t` had there (`Sound`).  The argument for
commitment is carried by three fields of one form.  An entry that a server
acknowledged in the term that created it is still in that server's log
(`ack_log`), is in the log of every candidate the server later votes for
(`vote_log`), and is in the log of every later leader (`complete`), unless a
quorum has left the term without acknowledging it, in which case it can no longer
be committed there.
-/

namespace Labs
namespace Consensus
namespace State

variable {S T C : Type} [LinearOrder T]

/-- Each entry sits where the leader of its term put it, below the same entries. -/
def Sound (a : State S T C) (ℓ : List (Entry T C)) : Prop :=
  ∀ p e, p ++ [e] <+: ℓ → p ++ [e] <+: a.tlog e.term

/-- The log begins with the first `j + 1` entries of `t`'s leader, or these can no
longer be committed in `t`. -/
def Held (𝒬 : QuorumSystem S) (a : State S T C) (t : T) (j : Nat)
    (ℓ : List (Entry T C)) : Prop :=
  (a.tlog t).take (j + 1) <+: ℓ ∨ a.Refuted 𝒬 t j

structure Inv (𝒬 : QuorumSystem S) (a : State S T C) : Prop where
  ballots : a.toBallots.Inv 𝒬
  vote_cand : ∀ {q t c}, a.vote q t = some c → ∃ ℓ, a.cand c t = some ℓ
  cand_le : ∀ {c t ℓ}, a.cand c t = some ℓ → t ≤ a.cur c
  lead_le : ∀ {t c}, a.leader t = some c → t ≤ a.cur c
  no_lead : ∀ {t}, a.leader t = none → a.tlog t = []
  lead_log : ∀ {s}, a.leader (a.cur s) = some s → a.log s = a.tlog (a.cur s)
  sound_log : ∀ s, a.Sound (a.log s)
  sound_tlog : ∀ t, a.Sound (a.tlog t)
  sound_cand : ∀ {c t ℓ}, a.cand c t = some ℓ → a.Sound ℓ
  term_log : ∀ {s e}, e ∈ a.log s → e.term ≤ a.cur s
  term_tlog : ∀ {t e}, e ∈ a.tlog t → e.term ≤ t
  term_cand : ∀ {c t ℓ e}, a.cand c t = some ℓ → e ∈ ℓ → e.term < t
  ack_le : ∀ q t, a.ack q t ≤ (a.tlog t).length
  ack_cur : ∀ {q t}, 0 < a.ack q t → t ≤ a.cur q
  ack_log : ∀ {q t j}, j < a.ack q t → a.OwnEntry t j → a.Held 𝒬 t j (a.log q)
  vote_log : ∀ {q u c ℓ t j}, a.vote q u = some c → a.cand c u = some ℓ → t < u →
    j < a.ack q t → a.OwnEntry t j → a.Held 𝒬 t j ℓ
  complete : ∀ {u t j}, a.leader u ≠ none → t < u →
    (∀ e, (a.tlog t)[j]? = some e → e.term = t) →
    j < (a.tlog t).length ∧ (a.tlog t).take (j + 1) <+: a.tlog u ∨ a.Refuted 𝒬 t j
  commit_le : ∀ s, a.commit s ≤ (a.log s).length
  commit_ok : ∀ s, a.CommittedTo 𝒬 (a.cur s) ((a.log s).take (a.commit s))

/-- What never goes away: terms rise, votes, candidates and leaders stay, a
leader's log grows by entries of its own term, and a server that has left a term
acknowledges nothing more in it. -/
structure Ext (a a' : State S T C) : Prop where
  cur_le : ∀ s, a.cur s ≤ a'.cur s
  vote : ∀ {q t c}, a.vote q t = some c → a'.vote q t = some c
  cand : ∀ {c t ℓ}, a.cand c t = some ℓ → a'.cand c t = some ℓ
  leader : ∀ {t c}, a.leader t = some c → a'.leader t = some c
  tlog : ∀ t, ∃ new, a'.tlog t = a.tlog t ++ new ∧
    (a.leader t ≠ none → ∀ e ∈ new, e.term = t)
  ack_le : ∀ q t, a.ack q t ≤ a'.ack q t
  ack_left : ∀ {q t}, t < a.cur q → a'.ack q t = a.ack q t

namespace Ext

variable {𝒬 : QuorumSystem S} {a a' a'' : State S T C}

theorem refl (a : State S T C) : Ext a a where
  cur_le := fun _ => le_refl _
  vote := fun h => h
  cand := fun h => h
  leader := fun h => h
  tlog := fun _ => ⟨[], by simp, by simp⟩
  ack_le := fun _ _ => Nat.le_refl _
  ack_left := fun _ => rfl

theorem leader_ne (h : Ext a a') {t : T} (ht : a.leader t ≠ none) : a'.leader t ≠ none := by
  obtain ⟨c, hc⟩ := Option.ne_none_iff_exists'.mp ht
  rw [h.leader hc]
  simp

theorem tlog_mono (h : Ext a a') (t : T) : a.tlog t <+: a'.tlog t := by
  obtain ⟨new, hnew, -⟩ := h.tlog t
  exact ⟨new, hnew.symm⟩

theorem trans (h : Ext a a') (h' : Ext a' a'') : Ext a a'' where
  cur_le := fun s => (h.cur_le s).trans (h'.cur_le s)
  vote := fun hv => h'.vote (h.vote hv)
  cand := fun hc => h'.cand (h.cand hc)
  leader := fun hl => h'.leader (h.leader hl)
  tlog := by
    intro t
    obtain ⟨new, hnew, hterm⟩ := h.tlog t
    obtain ⟨new', hnew', hterm'⟩ := h'.tlog t
    refine ⟨new ++ new', by rw [hnew', hnew, List.append_assoc], fun hl e he => ?_⟩
    rcases List.mem_append.mp he with he | he
    · exact hterm hl e he
    · exact hterm' (h.leader_ne hl) e he
  ack_le := fun q t => (h.ack_le q t).trans (h'.ack_le q t)
  ack_left := fun ht => (h'.ack_left (ht.trans_le (h.cur_le _))).trans (h.ack_left ht)

theorem sound (h : Ext a a') {ℓ : List (Entry T C)} (hℓ : a.Sound ℓ) : a'.Sound ℓ :=
  fun p e hp => (hℓ p e hp).trans (h.tlog_mono _)

theorem refuted (h : Ext a a') {t : T} {j : Nat} (hr : a.Refuted 𝒬 t j) :
    a'.Refuted 𝒬 t j := by
  obtain ⟨Q, hQ, hq⟩ := hr
  refine ⟨Q, hQ, fun q hqQ => ?_⟩
  obtain ⟨hcur, hack⟩ := hq q hqQ
  exact ⟨hcur.trans_le (h.cur_le q), by rw [h.ack_left hcur]; exact hack⟩

/-- Below the length a leader's log had, it is what it was. -/
theorem take_tlog (h : Ext a a') {t : T} {k : Nat} (hk : k ≤ (a.tlog t).length) :
    (a'.tlog t).take k = (a.tlog t).take k := by
  obtain ⟨new, hnew, -⟩ := h.tlog t
  rw [hnew, List.take_append_of_le_length hk]

theorem getElem?_tlog (h : Ext a a') {t : T} {j : Nat} (hj : j < (a.tlog t).length) :
    (a'.tlog t)[j]? = (a.tlog t)[j]? := by
  obtain ⟨new, hnew, -⟩ := h.tlog t
  rw [hnew, List.getElem?_append_left hj]

theorem held (h : Ext a a') {t : T} {j : Nat} {ℓ : List (Entry T C)}
    (hj : j < (a.tlog t).length) (hh : a.Held 𝒬 t j ℓ) : a'.Held 𝒬 t j ℓ := by
  rcases hh with hp | hr
  · left
    rw [h.take_tlog hj]
    exact hp
  · exact .inr (h.refuted hr)

theorem ownEntry_iff (h : Ext a a') {t : T} {j : Nat} (hj : j < (a.tlog t).length) :
    a'.OwnEntry t j ↔ a.OwnEntry t j := by
  rw [OwnEntry, OwnEntry, h.getElem?_tlog hj]

theorem committed (h : Ext a a') {t : T} {j : Nat} (hc : a.Committed 𝒬 t j) :
    a'.Committed 𝒬 t j := by
  obtain ⟨⟨e, he, het⟩, Q, hQ, hq⟩ := hc
  have hj := (List.getElem?_eq_some_iff.mp he).1
  exact ⟨(h.ownEntry_iff hj).mpr ⟨e, he, het⟩, Q, hQ,
    fun q hqQ => (hq q hqQ).trans_le (h.ack_le q t)⟩

theorem committedTo (h : Ext a a') {u v : T} (huv : u ≤ v) {P : List (Entry T C)}
    (hc : a.CommittedTo 𝒬 u P) : a'.CommittedTo 𝒬 v P := by
  rcases hc with rfl | ⟨t, ht, j, hj, hP⟩
  · exact .inl rfl
  · obtain ⟨⟨e, he, het⟩, -⟩ := id hj
    have hlt := (List.getElem?_eq_some_iff.mp he).1
    refine .inr ⟨t, ht.trans huv, j, h.committed hj, ?_⟩
    rw [h.take_tlog hlt]
    exact hP

end Ext

omit [LinearOrder T] in
theorem OwnEntry.term_eq {a : State S T C} {t : T} {j : Nat} {e : Entry T C}
    (h : a.OwnEntry t j) (he : (a.tlog t)[j]? = some e) : e.term = t := by
  obtain ⟨d, hd, hterm⟩ := h
  rw [hd] at he
  cases he
  exact hterm

/-- A prefix of a committed part is committed. -/
theorem CommittedTo.of_isPrefix {𝒬 : QuorumSystem S} {a : State S T C} {u : T}
    {P P' : List (Entry T C)} (h : a.CommittedTo 𝒬 u P) (hp : P' <+: P) :
    a.CommittedTo 𝒬 u P' := by
  rcases h with rfl | ⟨t, ht, j, hj, hP⟩
  · exact .inl (List.prefix_nil.mp hp)
  · exact .inr ⟨t, ht, j, hj, hp.trans hP⟩

/-- Two quorums meet, so nothing is both committed and given up. -/
theorem Committed.not_refuted {𝒬 : QuorumSystem S} {a : State S T C} {t : T} {j : Nat}
    (hc : a.Committed 𝒬 t j) : ¬ a.Refuted 𝒬 t j := by
  rintro ⟨P, hP, hp⟩
  obtain ⟨-, Q, hQ, hq⟩ := hc
  obtain ⟨s, hsP, hsQ⟩ := 𝒬.inter hP hQ
  exact absurd (hq s hsQ) (not_lt.mpr (hp s hsP).2)

omit [LinearOrder T] in
theorem Sound.of_isPrefix {a : State S T C} {ℓ ℓ' : List (Entry T C)} (h : a.Sound ℓ)
    (hp : ℓ' <+: ℓ) : a.Sound ℓ' :=
  fun p e hpe => h p e (hpe.trans hp)

omit [LinearOrder T] in
/-- A whole log is a part of the log of its last entry's leader. -/
theorem Sound.prefix_last {a : State S T C} {ℓ : List (Entry T C)} (h : a.Sound ℓ)
    {e : Entry T C} (he : ℓ.getLast? = some e) : ℓ <+: a.tlog e.term := by
  obtain ⟨p, rfl⟩ := List.getLast?_eq_some_iff.mp he
  exact h p e (List.prefix_refl _)

omit [LinearOrder T] in
/-- Up to an entry, a log is a part of the log of the entry's leader. -/
theorem Sound.take_prefix {a : State S T C} {ℓ : List (Entry T C)} (h : a.Sound ℓ) {k : Nat}
    {e : Entry T C} (he : ℓ[k]? = some e) : ℓ.take (k + 1) <+: a.tlog e.term := by
  have htake : ℓ.take (k + 1) = ℓ.take k ++ [e] := by
    rw [List.take_add_one, he, Option.toList_some]
  rw [htake]
  exact h _ e (htake ▸ List.take_prefix _ _)

omit [LinearOrder T] in
/-- Log matching: two logs with entries of one term at one index agree up to it. -/
theorem Sound.take_eq {a : State S T C} {ℓ ℓ' : List (Entry T C)} (h : a.Sound ℓ)
    (h' : a.Sound ℓ') {k : Nat} {e e' : Entry T C} (he : ℓ[k]? = some e)
    (he' : ℓ'[k]? = some e') (ht : e.term = e'.term) : ℓ.take (k + 1) = ℓ'.take (k + 1) := by
  have hp := h.take_prefix he
  have hp' := h'.take_prefix he'
  rw [← ht] at hp'
  have hlen : (ℓ.take (k + 1)).length = (ℓ'.take (k + 1)).length := by
    have hlt := (List.getElem?_eq_some_iff.mp he).1
    have hlt' := (List.getElem?_eq_some_iff.mp he').1
    simp only [List.length_take]
    omega
  exact (List.prefix_of_prefix_length_le hp hp' hlen.le).eq_of_length hlen

namespace Inv

variable {𝒬 : QuorumSystem S} {a : State S T C}

theorem leader_ne_none (h : Inv 𝒬 a) {t : T} (ht : a.tlog t ≠ []) : a.leader t ≠ none :=
  fun hn => ht (h.no_lead hn)

/-! ### What the invariant says of an earlier state stays true -/

section Later

variable {a' : State S T C} (h : Inv 𝒬 a) (hext : a.Ext a')

include h hext

theorem ack_log_of_ext {q : S} {t : T} {j : Nat} (hj : j < a.ack q t)
    (hown : a'.OwnEntry t j) : a'.Held 𝒬 t j (a.log q) := by
  have hlen := hj.trans_le (h.ack_le q t)
  exact hext.held hlen (h.ack_log hj ((hext.ownEntry_iff hlen).mp hown))

/-- A voter has left all earlier terms, and acknowledges nothing more in them. -/
theorem vote_log_of_ext {q c : S} {u t : T} {j : Nat} {ℓ : List (Entry T C)}
    (hv : a.vote q u = some c) (hc : a.cand c u = some ℓ) (hlt : t < u)
    (hj : j < a'.ack q t) (hown : a'.OwnEntry t j) : a'.Held 𝒬 t j ℓ := by
  rw [hext.ack_left (hlt.trans_le (h.ballots.vote_le hv))] at hj
  have hlen := hj.trans_le (h.ack_le q t)
  exact hext.held hlen (h.vote_log hv hc hlt hj ((hext.ownEntry_iff hlen).mp hown))

theorem complete_of_ext {u t : T} {j : Nat} (hu : a.leader u ≠ none) (hlt : t < u)
    (hown : ∀ e, (a'.tlog t)[j]? = some e → e.term = t) :
    j < (a'.tlog t).length ∧ (a'.tlog t).take (j + 1) <+: a'.tlog u ∨ a'.Refuted 𝒬 t j := by
  have hold : ∀ e, (a.tlog t)[j]? = some e → e.term = t := by
    intro e he
    have hj := (List.getElem?_eq_some_iff.mp he).1
    exact hown e (by rw [hext.getElem?_tlog hj, he])
  rcases h.complete hu hlt hold with ⟨hj, hp⟩ | hr
  · left
    rw [hext.take_tlog hj]
    exact ⟨hj.trans_le (hext.tlog_mono t).length_le, hp.trans (hext.tlog_mono u)⟩
  · exact .inr (hext.refuted hr)

theorem commit_ok_of_ext {s : S}
    (hs : (a'.log s).take (a'.commit s) = (a.log s).take (a.commit s)) :
    a'.CommittedTo 𝒬 (a'.cur s) ((a'.log s).take (a'.commit s)) := by
  rw [hs]
  exact hext.committedTo (hext.cur_le s) (h.commit_ok s)

end Later

/-- A committed part of the log is in the log of every later leader. -/
theorem committedTo_tlog (h : Inv 𝒬 a) {u : T} {P : List (Entry T C)}
    (hc : a.CommittedTo 𝒬 u P) (hu : a.leader u ≠ none) : P <+: a.tlog u := by
  rcases hc with rfl | ⟨t, ht, j, hj, hP⟩
  · exact List.nil_prefix
  · rcases ht.lt_or_eq with hlt | rfl
    · rcases h.complete hu hlt fun e => hj.1.term_eq with ⟨-, hp⟩ | hr
      · exact hP.trans hp
      · exact absurd hr hj.not_refuted
    · exact hP.trans (List.take_prefix _ _)

/-- The terms of a log do not fall: what is below an entry was there when its leader
created it. -/
theorem term_le (h : Inv 𝒬 a) {ℓ : List (Entry T C)} (hℓ : a.Sound ℓ) {m k : Nat}
    (hmk : m ≤ k) {d e : Entry T C} (hd : ℓ[m]? = some d) (he : ℓ[k]? = some e) :
    d.term ≤ e.term := by
  have hpre := hℓ.take_prefix he
  have hmem : d ∈ ℓ.take (k + 1) := by
    refine List.mem_of_getElem? (i := m) ?_
    rw [List.getElem?_take_of_lt (by omega)]
    exact hd
  exact h.term_tlog (hpre.subset hmem)

/-- What was committed up to a term was already there when a later term got its leader:
the leader adds only entries of its own. -/
theorem committedTo_tlog_of_ext {a' : State S T C} (h' : Inv 𝒬 a') (hext : a.Ext a')
    {u v : T} (huv : u < v) {P : List (Entry T C)} (hc : a'.CommittedTo 𝒬 u P)
    (hv : a.leader v ≠ none) : P <+: a.tlog v := by
  have hP : P <+: a'.tlog v :=
    h'.committedTo_tlog ((Ext.refl a').committedTo huv.le hc) (hext.leader_ne hv)
  obtain ⟨new, hnew, hown⟩ := hext.tlog v
  rw [hnew] at hP
  rcases List.prefix_or_prefix_of_prefix hP (List.prefix_append _ new) with hle | ⟨post, rfl⟩
  · exact hle
  · rw [List.prefix_append_right_inj] at hP
    cases post with
    | nil => rw [List.append_nil]
    | cons e rest =>
        -- an entry of `v` itself cannot have been committed before
        have he : e.term = v := hown hv e (hP.subset List.mem_cons_self)
        rcases hc with hnil | ⟨t, ht, j, -, hpre⟩
        · simp at hnil
        · have hmem : e ∈ a'.tlog t :=
            (List.take_prefix _ _).subset (hpre.subset (List.mem_append_right _
              List.mem_cons_self))
          exact absurd (h'.term_tlog hmem) (not_le.mpr (he ▸ ht.trans_lt huv))

/-- Two committed parts are comparable. -/
theorem committedTo_comparable (h : Inv 𝒬 a) {u v : T} {P P' : List (Entry T C)}
    (hP : a.CommittedTo 𝒬 u P) (hP' : a.CommittedTo 𝒬 v P') : P <+: P' ∨ P' <+: P := by
  rcases hP with rfl | ⟨t, ht, j, hj, hp⟩
  · exact .inl List.nil_prefix
  rcases hP' with rfl | ⟨t', ht', j', hj', hp'⟩
  · exact .inr List.nil_prefix
  -- both are below the leader of the later of the two terms
  have key : ∀ {x y : T} {i k : Nat} {R R' : List (Entry T C)}, x ≤ y → a.Committed 𝒬 x i →
      a.Committed 𝒬 y k → R <+: (a.tlog x).take (i + 1) → R' <+: (a.tlog y).take (k + 1) →
      R <+: R' ∨ R' <+: R := by
    intro x y i k R R' hxy hi hk hR hR'
    have hy : a.leader y ≠ none := by
      obtain ⟨e, he, -⟩ := hk.1
      refine h.leader_ne_none fun hnil => ?_
      rw [hnil] at he
      cases he
    have h1 : R <+: a.tlog y := h.committedTo_tlog (.inr ⟨x, hxy, i, hi, hR⟩) hy
    exact List.prefix_or_prefix_of_prefix h1 (hR'.trans (List.take_prefix _ _))
  rcases le_total t t' with htt | htt
  · exact key htt hj hj' hp hp'
  · exact (key htt hj' hj hp' hp).symm

/-- The heart of the election restriction: what a voter holds of term `t`, a
candidate that is up to date with the voter holds too. -/
theorem held_of_upToDate (h : Inv 𝒬 a) {t : T} {j : Nat} {ℓ c : List (Entry T C)}
    (hown : a.OwnEntry t j) (hℓ : a.Sound ℓ) (hc : a.Sound c) (hup : UpToDate c ℓ)
    (hheld : a.Held 𝒬 t j ℓ) : a.Held 𝒬 t j c := by
  rcases hheld with hP | hr
  swap
  · exact .inr hr
  obtain ⟨e, he, het⟩ := id hown
  obtain ⟨hjlt, hje⟩ := List.getElem?_eq_some_iff.mp he
  have heP : e ∈ (a.tlog t).take (j + 1) := by
    rw [← hje]
    exact List.mem_take_iff_getElem.mpr ⟨j, by omega, rfl⟩
  obtain ⟨l, hl⟩ : ∃ l, ℓ.getLast? = some l := by
    cases hlast : ℓ.getLast? with
    | none =>
        rw [List.getLast?_eq_none_iff.mp hlast] at hP
        rw [List.prefix_nil.mp hP] at heP
        cases heP
    | some l => exact ⟨l, rfl⟩
  obtain ⟨d, hd, hcmp⟩ := hup l hl
  have hℓl := hℓ.prefix_last hl
  have hcd := hc.prefix_last hd
  have htl : t ≤ l.term := by
    rw [← het]
    exact h.term_tlog ((hP.trans hℓl).subset heP)
  rcases hcmp with hlt | ⟨heq, hlen⟩
  · -- the candidate's last entry is of a later leader, which is complete
    have hdlog : d ∈ a.tlog d.term := hcd.subset (List.mem_of_getLast? hd)
    have hlead : a.leader d.term ≠ none := h.leader_ne_none (List.ne_nil_of_mem hdlog)
    rcases h.complete hlead (htl.trans_lt hlt) fun e => hown.term_eq with ⟨-, hp⟩ | hr
    · rcases List.prefix_or_prefix_of_prefix hp hcd with hpc | hcp
      · exact .inl hpc
      · have : d ∈ a.tlog t :=
          (List.take_prefix _ _).subset (hcp.subset (List.mem_of_getLast? hd))
        exact absurd (h.term_tlog this) (not_le.mpr (htl.trans_lt hlt))
    · exact .inr hr
  · rw [← heq] at hcd
    exact .inl (hP.trans (List.prefix_of_prefix_length_le hℓl hcd hlen))

end Inv
end State
end Consensus
end Labs
