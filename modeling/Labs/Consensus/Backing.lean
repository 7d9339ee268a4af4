import Labs.Consensus.Preserve

/-!
# What a server will not lose

A server backs the first entries of a leader's log if it has them and will have them
until it enters a later term: it is in the leader's term already, where it takes over
only parts of that log, or a leader of a term up to its own has committed them, so that
every leader it may follow has them too.  No move of the protocol takes that back, and
what a server acknowledges it backs.
-/

namespace Labs
namespace Consensus
namespace State

variable {S T C : Type} [DecidableEq S] [LinearOrder T] {𝒬 : QuorumSystem S}
  {a a' : State S T C}

def Backs (𝒬 : QuorumSystem S) (a : State S T C) (q : S) (t : T) (m : Nat) : Prop :=
  a.cur q ≤ t → (a.tlog t).take m <+: a.log q ∧
    (a.cur q < t → a.CommittedTo 𝒬 (a.cur q) ((a.tlog t).take m))

omit [DecidableEq S] in
theorem Backs.of_le {q : S} {t : T} {m k : Nat} (h : a.Backs 𝒬 q t m) (hk : k ≤ m) :
    a.Backs 𝒬 q t k := by
  intro hcur
  obtain ⟨hpre, hcommit⟩ := h hcur
  have hle : (a.tlog t).take k <+: (a.tlog t).take m := List.take_prefix_take_left hk
  exact ⟨hle.trans hpre, fun hlt => (hcommit hlt).of_isPrefix hle⟩

/-- A log grows, or takes over a part of the log of its term. -/
theorem Step.log_cases (hs : Step 𝒬 a a') (q : S) :
    a.log q <+: a'.log q ∨
      a.leader (a.cur q) ≠ none ∧ ∃ m, a'.log q = adopt (a.tlog (a.cur q)) m (a.log q) := by
  cases hs with
  | advance ht => exact .inl (List.prefix_refl _)
  | stand ht => exact .inl (List.prefix_refl _)
  | grant hfree hcand hup => exact .inl (List.prefix_refl _)
  | elect hQ hv hcand hnone => exact .inl (List.prefix_refl _)
  | append v hlead => exact .inl (prefix_append_log q)
  | @accept s m hlead hne hm =>
      rw [accept_log]
      split
      · next heq =>
          rw [heq]
          exact .inr ⟨hlead, m, rfl⟩
      · exact .inl (List.prefix_refl _)
  | commit hk hc => exact .inl (List.prefix_refl _)

/-- What is newly acknowledged is in the log. -/
theorem Step.ack_cases (hs : Step 𝒬 a a') (q : S) (t : T) :
    a'.ack q t = a.ack q t ∨ t = a'.cur q ∧ (a'.tlog t).take (a'.ack q t) <+: a'.log q := by
  cases hs with
  | advance ht => exact .inl rfl
  | stand ht => exact .inl rfl
  | grant hfree hcand hup => exact .inl rfl
  | @elect c Q hQ hv hcand hnone =>
      rw [elect_ack]
      split
      · next heq =>
          obtain ⟨rfl, rfl⟩ := heq
          refine .inr ⟨rfl, ?_⟩
          rw [elect_tlog, if_pos rfl]
          exact List.take_prefix _ _
      · exact .inl rfl
  | @append s v hlead =>
      rw [append_ack]
      split
      · next heq =>
          obtain ⟨rfl, rfl⟩ := heq
          refine .inr ⟨rfl, ?_⟩
          rw [append_tlog, if_pos rfl, append_log, if_pos rfl]
          exact List.take_prefix _ _
      · exact .inl rfl
  | @accept s m hlead hne hm =>
      rw [accept_ack]
      split
      · next heq =>
          obtain ⟨rfl, rfl⟩ := heq
          rcases Nat.le_total m (a.ack q (a.cur q)) with hle | hle
          · exact .inl (Nat.max_eq_left hle)
          · refine .inr ⟨rfl, ?_⟩
            rw [Nat.max_eq_right hle, accept_log, if_pos rfl]
            exact take_prefix_adopt _ _ _
      · exact .inl rfl
  | commit hk hc => exact .inl rfl

theorem Backs.step (hinv : a.Inv 𝒬) {q : S} {t : T} {m : Nat} (h : a.Backs 𝒬 q t m)
    (hm : m ≤ (a.tlog t).length) (hs : Step 𝒬 a a') : a'.Backs 𝒬 q t m := by
  obtain ⟨-, hext⟩ := hinv.step hs
  intro hcur'
  have hcur := (hext.cur_le q).trans hcur'
  obtain ⟨hpre, hcommit⟩ := h hcur
  rw [hext.take_tlog hm]
  refine ⟨?_, fun hlt => hext.committedTo (hext.cur_le q) (hcommit ((hext.cur_le q).trans_lt hlt))⟩
  rcases hs.log_cases q with hgrow | ⟨hlead, k, heq⟩
  · exact hpre.trans hgrow
  · -- the leader that the server follows has the entries as well
    rw [heq]
    refine prefix_adopt k ?_ hpre
    rcases hcur.lt_or_eq with hlt | hterm
    · exact hinv.committedTo_tlog (hcommit hlt) hlead
    · rw [hterm]
      exact List.take_prefix _ _

/-- The servers back what they have acknowledged. -/
def AcksBacked (𝒬 : QuorumSystem S) (a : State S T C) : Prop :=
  ∀ q t, a.Backs 𝒬 q t (a.ack q t)

omit [DecidableEq S] in
theorem AcksBacked.init (t₀ : T) : (State.init t₀ : State S T C).AcksBacked 𝒬 :=
  fun _ _ _ => ⟨List.nil_prefix, fun _ => .inl rfl⟩

theorem AcksBacked.step (hinv : a.Inv 𝒬) (h : a.AcksBacked 𝒬) (hs : Step 𝒬 a a') :
    a'.AcksBacked 𝒬 := by
  intro q t
  rcases hs.ack_cases q t with heq | ⟨rfl, hpre⟩
  · rw [heq]
    exact (h q t).step hinv (hinv.ack_le q t) hs
  · exact fun _ => ⟨hpre, fun hlt => absurd hlt (lt_irrefl _)⟩

theorem AcksBacked.steps (hinv : a.Inv 𝒬) (h : a.AcksBacked 𝒬) (hs : Steps 𝒬 a a') :
    a'.AcksBacked 𝒬 := by
  induction hs with
  | refl => exact h
  | tail hsteps hst ih => exact ih.step (hinv.steps hsteps).1 hst

theorem Backs.steps (hinv : a.Inv 𝒬) {q : S} {t : T} {m : Nat} (h : a.Backs 𝒬 q t m)
    (hm : m ≤ (a.tlog t).length) (hs : Steps 𝒬 a a') : a'.Backs 𝒬 q t m := by
  induction hs with
  | refl => exact h
  | tail hsteps hst ih =>
      obtain ⟨hinv', hext⟩ := hinv.steps hsteps
      exact ih.step hinv' (hm.trans (hext.tlog_mono t).length_le) hst

omit [DecidableEq S] in
/-- Two servers that have committed as many entries have committed the same. -/
theorem Inv.take_commit_eq (h : a.Inv 𝒬) {q s : S} {k : Nat} (hq : k ≤ a.commit q)
    (hs : k ≤ a.commit s) : (a.log q).take k = (a.log s).take k := by
  have hcommit : ∀ r, k ≤ a.commit r → a.CommittedTo 𝒬 (a.cur r) ((a.log r).take k) :=
    fun r hr => (h.commit_ok r).of_isPrefix (List.take_prefix_take_left hr)
  have hlen : ∀ r, k ≤ a.commit r → ((a.log r).take k).length = k :=
    fun r hr => List.length_take_of_le (hr.trans (h.commit_le r))
  rcases h.committedTo_comparable (hcommit q hq) (hcommit s hs) with hpre | hpre
  · exact hpre.eq_of_length ((hlen q hq).trans (hlen s hs).symm)
  · exact (hpre.eq_of_length ((hlen s hs).trans (hlen q hq).symm)).symm

end State
end Consensus
end Labs
