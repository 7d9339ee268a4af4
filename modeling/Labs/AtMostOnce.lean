import Mathlib.Logic.Relation

/-!
# Remote calls that are executed at most once

What a caller may rely on, for calls with arguments in `A` and replies in `R`: the handler of
a call starts at most once and finishes at most once, a call returns at most once, and if it
returns a reply then its own handler has finished with it.  A call that fails says nothing:
its handler may not have started, may be running, or may still start later.
-/

namespace Labs
namespace AtMostOnce

variable {A R : Type*}

inductive Execution (R : Type*) where
  | idle
  | running
  | finished (reply : R)

/-- The outcome is `none` until the call returns, and then a reply or a failure. -/
structure Call (A R : Type*) where
  args : A
  execution : Execution R
  outcome : Option (Option R)

inductive Move : Call A R → Call A R → Prop
  | start (c : Call A R) : c.execution = .idle → Move c { c with execution := .running }
  | finish (c : Call A R) (reply : R) : c.execution = .running →
      Move c { c with execution := .finished reply }
  | succeed (c : Call A R) (reply : R) : c.outcome = none → c.execution = .finished reply →
      Move c { c with outcome := some (some reply) }
  | fail (c : Call A R) : c.outcome = none → Move c { c with outcome := some none }

inductive Step : List (Call A R) → List (Call A R) → Prop
  | invoke (calls : List (Call A R)) (args : A) :
      Step calls (calls ++ [{ args := args, execution := .idle, outcome := none }])
  | move (calls : List (Call A R)) (k : Nat) (c c' : Call A R) : calls[k]? = some c →
      Move c c' → Step calls (calls.set k c')

/-- A caller that has a reply has the one of its handler. -/
def Call.Truthful (c : Call A R) : Prop :=
  ∀ reply, c.outcome = some (some reply) → c.execution = .finished reply

theorem Move.truthful {c c' : Call A R} (h : Move c c') (hc : c.Truthful) : c'.Truthful := by
  intro reply hreply
  cases h with
  | start hidle =>
      have hfinished := hc reply hreply
      rw [hidle] at hfinished
      cases hfinished
  | finish reply' hrunning =>
      have hfinished := hc reply hreply
      rw [hrunning] at hfinished
      cases hfinished
  | succeed reply' hnone hfinished =>
      cases hreply
      exact hfinished
  | fail hnone => cases hreply

theorem truthful_of_steps {calls : List (Call A R)}
    (h : Relation.ReflTransGen Step [] calls) : ∀ c ∈ calls, c.Truthful := by
  induction h with
  | refl =>
      intro c hc
      cases hc
  | tail _ hstep ih =>
      intro c hc
      cases hstep with
      | invoke args =>
          rcases List.mem_append.mp hc with hold | hnew
          · exact ih c hold
          · rw [List.mem_singleton.mp hnew]
            intro reply hreply
            cases hreply
      | move k d d' hk hmove =>
          rcases List.mem_or_eq_of_mem_set hc with hold | rfl
          · exact ih c hold
          · exact hmove.truthful (ih d (List.mem_of_getElem? hk))

end AtMostOnce
end Labs
