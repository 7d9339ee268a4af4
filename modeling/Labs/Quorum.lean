import Mathlib.Data.Fintype.Card

/-!
# Quorums

Any two quorums have a member in common.  Majorities are the instance every
election and every commit rule of the developments uses.
-/

namespace Labs

/-- A family of sets of servers any two of which intersect. -/
structure QuorumSystem (S : Type) where
  isQuorum : Finset S → Prop
  inter : ∀ {P Q : Finset S}, isQuorum P → isQuorum Q → ∃ s ∈ P, s ∈ Q

namespace QuorumSystem

/-- More than half of the servers, with the division rounding down. -/
def majority (S : Type) [Fintype S] [DecidableEq S] : QuorumSystem S where
  isQuorum Q := Fintype.card S / 2 < Q.card
  inter := by
    intro P Q hP hQ
    by_contra hne
    have hdisj : Disjoint P Q :=
      Finset.disjoint_left.mpr fun s hs hs' => hne ⟨s, hs, hs'⟩
    have hcard : P.card + Q.card ≤ Fintype.card S := by
      rw [← Finset.card_union_of_disjoint hdisj]
      exact Finset.card_le_univ _
    omega

end QuorumSystem
end Labs
