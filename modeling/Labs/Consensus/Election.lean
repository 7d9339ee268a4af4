import Labs.Quorum
import Mathlib.Logic.Function.Basic
import Mathlib.Order.Defs.LinearOrder

/-!
# Elections by quorum

The part of a replicated log that chooses leaders: each server has a current
term, casts at most one vote a term, and a candidate leads a term once a quorum
voted for it there.  The votes of past terms are kept, so that uniqueness of the
leader is a property of one state.
-/

namespace Labs
namespace Consensus

/-- Current terms, all votes ever cast, and the leader each term has had. -/
structure Ballots (S T : Type) where
  cur : S → T
  vote : S → T → Option S
  leader : T → Option S

namespace Ballots

variable {S T : Type}

section Advance

variable [DecidableEq S]

def advance (b : Ballots S T) (s : S) (t : T) : Ballots S T :=
  { b with cur := Function.update b.cur s t }

@[simp] theorem advance_vote (b : Ballots S T) (s : S) (t : T) :
    (b.advance s t).vote = b.vote := rfl

@[simp] theorem advance_leader (b : Ballots S T) (s : S) (t : T) :
    (b.advance s t).leader = b.leader := rfl

theorem advance_cur (b : Ballots S T) (s : S) (t : T) (q : S) :
    (b.advance s t).cur q = if q = s then t else b.cur q := by
  simp [advance, Function.update_apply]

end Advance

section Cast

variable [DecidableEq S] [LinearOrder T]

def cast (b : Ballots S T) (q : S) (t : T) (c : S) : Ballots S T :=
  { b with vote := Function.update b.vote q (Function.update (b.vote q) t (some c)) }

@[simp] theorem cast_cur (b : Ballots S T) (q : S) (t : T) (c : S) :
    (b.cast q t c).cur = b.cur := rfl

@[simp] theorem cast_leader (b : Ballots S T) (q : S) (t : T) (c : S) :
    (b.cast q t c).leader = b.leader := rfl

theorem cast_vote (b : Ballots S T) (q : S) (t : T) (c s : S) (u : T) :
    (b.cast q t c).vote s u = if s = q ∧ u = t then some c else b.vote s u := by
  by_cases hs : s = q
  · subst hs
    simp [cast, Function.update_apply]
  · simp [cast, hs]

/-- A vote that is cast where there was none, or the same one, takes none back. -/
theorem cast_vote_of {b : Ballots S T} {q : S} {t : T} {c : S}
    (hfree : b.vote q t = none ∨ b.vote q t = some c) {s : S} {u : T} {d : S}
    (hv : b.vote s u = some d) : (b.cast q t c).vote s u = some d := by
  rw [cast_vote]
  split
  · next hs =>
      obtain ⟨rfl, rfl⟩ := hs
      rcases hfree with hnone | hsome
      · rw [hnone] at hv
        cases hv
      · exact hsome.symm.trans hv
  · exact hv

end Cast

section Elect

variable [LinearOrder T]

def elect (b : Ballots S T) (c : S) (t : T) : Ballots S T :=
  { b with leader := Function.update b.leader t (some c) }

@[simp] theorem elect_cur (b : Ballots S T) (c : S) (t : T) :
    (b.elect c t).cur = b.cur := rfl

@[simp] theorem elect_vote (b : Ballots S T) (c : S) (t : T) :
    (b.elect c t).vote = b.vote := rfl

theorem elect_leader (b : Ballots S T) (c : S) (t u : T) :
    (b.elect c t).leader u = if u = t then some c else b.leader u := by
  simp [elect, Function.update_apply]

end Elect

/-- No vote is ahead of its voter's term, and a leader has a quorum of votes. -/
structure Inv [LE T] (𝒬 : QuorumSystem S) (b : Ballots S T) : Prop where
  vote_le : ∀ {q t c}, b.vote q t = some c → t ≤ b.cur q
  elected : ∀ {t c}, b.leader t = some c →
    ∃ Q, 𝒬.isQuorum Q ∧ ∀ q ∈ Q, b.vote q t = some c

namespace Inv

variable [LinearOrder T] {𝒬 : QuorumSystem S} {b : Ballots S T}

/-- A vote for a term ahead of the voter has not been cast. -/
theorem vote_none (h : Inv 𝒬 b) {q : S} {t : T} (ht : b.cur q < t) : b.vote q t = none := by
  cases hv : b.vote q t with
  | none => rfl
  | some c => exact absurd (h.vote_le hv) (not_le.mpr ht)

/-- Two candidates with a quorum of votes each in one term are one candidate. -/
theorem leader_eq (h : Inv 𝒬 b) {t : T} {c d : S} {Q : Finset S}
    (hc : b.leader t = some c) (hQ : 𝒬.isQuorum Q) (hv : ∀ q ∈ Q, b.vote q t = some d) :
    c = d := by
  obtain ⟨P, hP, hvP⟩ := h.elected hc
  obtain ⟨q, hqP, hqQ⟩ := 𝒬.inter hP hQ
  have := (hvP q hqP).symm.trans (hv q hqQ)
  exact Option.some.inj this

theorem elect (h : Inv 𝒬 b) {c : S} {t : T} {Q : Finset S} (hQ : 𝒬.isQuorum Q)
    (hv : ∀ q ∈ Q, b.vote q t = some c) : Inv 𝒬 (b.elect c t) where
  vote_le := h.vote_le
  elected := by
    intro u d hd
    rw [elect_leader] at hd
    split at hd
    · next hu =>
        subst hu
        cases hd
        exact ⟨Q, hQ, hv⟩
    · exact h.elected hd

variable [DecidableEq S]

theorem advance (h : Inv 𝒬 b) {s : S} {t : T} (ht : b.cur s ≤ t) :
    Inv 𝒬 (b.advance s t) where
  vote_le := by
    intro q u c hv
    rw [advance_cur]
    split
    · next hq =>
        subst hq
        exact (h.vote_le hv).trans ht
    · exact h.vote_le hv
  elected := h.elected

theorem cast (h : Inv 𝒬 b) {q : S} {t : T} {c : S} (ht : t ≤ b.cur q)
    (hfree : b.vote q t = none ∨ b.vote q t = some c) : Inv 𝒬 (b.cast q t c) where
  vote_le := by
    intro s u d hv
    rw [cast_vote] at hv
    split at hv
    · next hs =>
        obtain ⟨rfl, rfl⟩ := hs
        exact ht
    · exact h.vote_le hv
  elected := by
    intro u d hd
    obtain ⟨Q, hQ, hv⟩ := h.elected hd
    exact ⟨Q, hQ, fun s hs => cast_vote_of hfree (hv s hs)⟩

end Inv
end Ballots
end Consensus
end Labs
