import Labs.Consensus.Election
import Mathlib.Data.List.Infix

/-!
# A replicated log

The abstract protocol that a log-replication implementation is compared with.
Servers hold whole logs, nothing is compacted and there is no network: a server
takes over a part of a leader's log as one step, whatever messages brought it
there.  Besides the logs the state keeps what the safety argument talks about,
namely the log each leader has built (`tlog`), the log each candidate stood with
(`cand`) and how much of a leader's log each server has acknowledged (`ack`).
-/

namespace Labs
namespace Consensus

/-- A command stamped with the term of the leader that created it. -/
structure Entry (T C : Type) where
  term : T
  command : C
  deriving DecidableEq, Repr

section Adopt

variable {α : Type}

open Classical in
/-- Take over the first `m` entries of `L`, unless the log has them already. -/
noncomputable def adopt (L : List α) (m : Nat) (ℓ : List α) : List α :=
  if L.take m <+: ℓ then ℓ else L.take m

theorem adopt_eq (L : List α) (m : Nat) (ℓ : List α) :
    adopt L m ℓ = ℓ ∨ adopt L m ℓ = L.take m := by
  unfold adopt
  split
  · exact .inl rfl
  · exact .inr rfl

theorem adopt_of_isPrefix {L ℓ : List α} {m : Nat} (h : L.take m <+: ℓ) : adopt L m ℓ = ℓ :=
  if_pos h

theorem adopt_of_not {L ℓ : List α} {m : Nat} (h : ¬ L.take m <+: ℓ) :
    adopt L m ℓ = L.take m :=
  if_neg h

theorem take_prefix_adopt (L : List α) (m : Nat) (ℓ : List α) : L.take m <+: adopt L m ℓ := by
  unfold adopt
  split
  · assumption
  · exact List.prefix_refl _

theorem le_length_adopt {L : List α} {m : Nat} (hm : m ≤ L.length) (ℓ : List α) :
    m ≤ (adopt L m ℓ).length := by
  have hle := (take_prefix_adopt L m ℓ).length_le
  rw [List.length_take] at hle
  omega

theorem take_adopt {L : List α} {m k : Nat} (hm : m ≤ L.length) (hk : k ≤ m) (ℓ : List α) :
    (adopt L m ℓ).take k = L.take k := by
  obtain ⟨post, hpost⟩ := take_prefix_adopt L m ℓ
  rw [← hpost, List.take_append_of_le_length (by rw [List.length_take]; omega), List.take_take,
    min_eq_left hk]

/-- What both logs begin with survives. -/
theorem prefix_adopt {P L ℓ : List α} (m : Nat) (hL : P <+: L) (hℓ : P <+: ℓ) :
    P <+: adopt L m ℓ := by
  unfold adopt
  split
  · exact hℓ
  · next hnot =>
      rcases List.prefix_or_prefix_of_prefix hL (List.take_prefix m L) with h | h
      · exact h
      · exact absurd (h.trans hℓ) hnot

/-- Adopting twice is adopting the longer beginning. -/
theorem adopt_adopt (L : List α) (m k : Nat) (ℓ : List α) :
    adopt L k (adopt L m ℓ) = adopt L (max m k) ℓ := by
  rcases Nat.le_total k m with hkm | hmk
  · have hpre : L.take k <+: L.take m := List.take_prefix_take_left hkm
    rw [Nat.max_eq_left hkm]
    exact adopt_of_isPrefix (hpre.trans (take_prefix_adopt L m ℓ))
  · have hpre : L.take m <+: L.take k := List.take_prefix_take_left hmk
    rw [Nat.max_eq_right hmk]
    by_cases hall : L.take k <+: ℓ
    · rw [adopt_of_isPrefix (hpre.trans hall)]
    · rcases adopt_eq L m ℓ with heq | heq
      · rw [heq]
      · rw [heq, adopt_of_not hall]
        by_cases hlen : L.take k <+: L.take m
        · rw [adopt_of_isPrefix hlen]
          exact hpre.eq_of_length_le hlen.length_le
        · exact adopt_of_not hlen

end Adopt

variable {S T C : Type}

structure State (S T C : Type) extends Ballots S T where
  log : S → List (Entry T C)
  cand : S → T → Option (List (Entry T C))
  tlog : T → List (Entry T C)
  ack : S → T → Nat
  commit : S → Nat

/-- The comparison a voter makes: a later last term wins, then length. -/
def UpToDate [LinearOrder T] (c ℓ : List (Entry T C)) : Prop :=
  ∀ l, ℓ.getLast? = some l → ∃ e, c.getLast? = some e ∧
    (l.term < e.term ∨ l.term = e.term ∧ ℓ.length ≤ c.length)

namespace State

def init (t₀ : T) : State S T C where
  cur := fun _ => t₀
  vote := fun _ _ => none
  leader := fun _ => none
  log := fun _ => []
  cand := fun _ _ => none
  tlog := fun _ => []
  ack := fun _ _ => 0
  commit := fun _ => 0

/-- Index `j` of the log of `t` holds an entry that `t`'s own leader created. -/
def OwnEntry (a : State S T C) (t : T) (j : Nat) : Prop :=
  ∃ e, (a.tlog t)[j]? = some e ∧ e.term = t

/-- Acknowledged by a quorum in the term that created it. -/
def Committed (𝒬 : QuorumSystem S) (a : State S T C) (t : T) (j : Nat) : Prop :=
  a.OwnEntry t j ∧ ∃ Q, 𝒬.isQuorum Q ∧ ∀ q ∈ Q, j < a.ack q t

/-- A part of a log that a leader of a term up to `u` committed. -/
def CommittedTo [LE T] (𝒬 : QuorumSystem S) (a : State S T C) (u : T)
    (P : List (Entry T C)) : Prop :=
  P = [] ∨ ∃ t ≤ u, ∃ j, a.Committed 𝒬 t j ∧ P <+: (a.tlog t).take (j + 1)

/-- A quorum has left term `t` without acknowledging index `j` there, so that it
will never be committed in `t`. -/
def Refuted [LT T] (𝒬 : QuorumSystem S) (a : State S T C) (t : T) (j : Nat) : Prop :=
  ∃ Q, 𝒬.isQuorum Q ∧ ∀ q ∈ Q, t < a.cur q ∧ a.ack q t ≤ j

section Moves

variable [DecidableEq S]

def setLog (a : State S T C) (s : S) (ℓ : List (Entry T C)) : State S T C :=
  { a with log := Function.update a.log s ℓ }

def advance (a : State S T C) (s : S) (t : T) : State S T C :=
  { a with toBallots := a.toBallots.advance s t }

def setCommit (a : State S T C) (s : S) (k : Nat) : State S T C :=
  { a with commit := Function.update a.commit s k }

variable [LinearOrder T]

def setAck (a : State S T C) (s : S) (t : T) (m : Nat) : State S T C :=
  { a with ack := Function.update a.ack s (Function.update (a.ack s) t m) }

def stand (a : State S T C) (s : S) (t : T) : State S T C :=
  { a with
    toBallots := (a.toBallots.advance s t).cast s t s
    cand := Function.update a.cand s (Function.update (a.cand s) t (some (a.log s))) }

def grant (a : State S T C) (q : S) (t : T) (c : S) : State S T C :=
  { a with toBallots := a.toBallots.cast q t c }

def elect (a : State S T C) (c : S) (t : T) : State S T C :=
  { a.setAck c t (a.log c).length with
    toBallots := a.toBallots.elect c t
    tlog := Function.update a.tlog t (a.log c) }

def append (a : State S T C) (s : S) (v : C) : State S T C :=
  let ℓ := a.log s ++ [{ term := a.cur s, command := v }]
  { (a.setLog s ℓ).setAck s (a.cur s) ℓ.length with
    tlog := Function.update a.tlog (a.cur s) ℓ }

noncomputable def accept (a : State S T C) (q : S) (m : Nat) : State S T C :=
  (a.setLog q (adopt (a.tlog (a.cur q)) m (a.log q))).setAck q (a.cur q)
    (max (a.ack q (a.cur q)) m)

end Moves

/-- The moves of the protocol.  `setCommit` also lowers a commit index, which is
what a server does that restarts. -/
inductive Step [DecidableEq S] [LinearOrder T] (𝒬 : QuorumSystem S) :
    State S T C → State S T C → Prop
  | advance {a : State S T C} {s : S} {t : T} : a.cur s < t → Step 𝒬 a (a.advance s t)
  | stand {a : State S T C} {s : S} {t : T} : a.cur s < t → Step 𝒬 a (a.stand s t)
  | grant {a : State S T C} {q c : S} {ℓ : List (Entry T C)} :
      a.vote q (a.cur q) = none ∨ a.vote q (a.cur q) = some c →
      a.cand c (a.cur q) = some ℓ → UpToDate ℓ (a.log q) →
      Step 𝒬 a (a.grant q (a.cur q) c)
  | elect {a : State S T C} {c : S} {Q : Finset S} :
      𝒬.isQuorum Q → (∀ q ∈ Q, a.vote q (a.cur c) = some c) →
      a.cand c (a.cur c) = some (a.log c) → a.leader (a.cur c) = none →
      Step 𝒬 a (a.elect c (a.cur c))
  | append {a : State S T C} {s : S} (v : C) :
      a.leader (a.cur s) = some s → Step 𝒬 a (a.append s v)
  | accept {a : State S T C} {q : S} {m : Nat} :
      a.leader (a.cur q) ≠ none → a.leader (a.cur q) ≠ some q →
      m ≤ (a.tlog (a.cur q)).length → Step 𝒬 a (a.accept q m)
  | commit {a : State S T C} {s : S} {k : Nat} :
      k ≤ (a.log s).length → a.CommittedTo 𝒬 (a.cur s) ((a.log s).take k) →
      Step 𝒬 a (a.setCommit s k)

end State
end Consensus
end Labs
