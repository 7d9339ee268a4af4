import Mathlib.Logic.Relation

/-!
# Runs of a partial step function

A system is a function `step` from a state and an action to the next state, with
`none` for an action that is not enabled.  `Path step ok` relates the ends of a
run all of whose steps meet the condition `ok` on the state before the step and
the action taken.  The three rules below are what the developments use: an
invariant is carried along a run, a run is simulated by another system, and a
list of actions that executes gives a run.
-/

namespace Labs
namespace Run

variable {σ α τ : Type*}

/-- The ends of a run whose steps all meet `ok`. -/
inductive Path (step : σ → α → Option σ) (ok : σ → α → Prop) : σ → σ → Prop
  | refl (s : σ) : Path step ok s s
  | tail {s t u : σ} {a : α} :
      Path step ok s t → ok t a → step t a = some u → Path step ok s u

/-- The condition met by every step. -/
def always : σ → α → Prop := fun _ _ => True

namespace Path

variable {step : σ → α → Option σ} {ok ok' : σ → α → Prop}

theorem single {s t : σ} {a : α} (hok : ok s a) (hs : step s a = some t) :
    Path step ok s t :=
  tail (refl s) hok hs

theorem trans {s t u : σ} (h₁ : Path step ok s t) (h₂ : Path step ok t u) :
    Path step ok s u := by
  induction h₂ with
  | refl => exact h₁
  | tail _ hok hs ih => exact tail ih hok hs

/-- What one step preserves, a whole run preserves. -/
theorem invariant {P : σ → Prop}
    (hstep : ∀ s a t, P s → ok s a → step s a = some t → P t)
    {s t : σ} (h : Path step ok s t) (hs : P s) : P t := by
  induction h with
  | refl => exact hs
  | tail _ hok hst ih => exact hstep _ _ _ ih hok hst

/-- What no step brings about, given an invariant, was there at the start of the run. -/
theorem traced {P Q : σ → Prop}
    (hstep : ∀ s a t, P s → ok s a → step s a = some t → P t ∧ (Q t → Q s))
    {s t : σ} (h : Path step ok s t) (hs : P s) : P t ∧ (Q t → Q s) := by
  induction h with
  | refl => exact ⟨hs, id⟩
  | tail _ hok hst ih =>
      obtain ⟨hP, hback⟩ := ih
      obtain ⟨hP', hQ⟩ := hstep _ _ _ hP hok hst
      exact ⟨hP', fun h => hback (hQ h)⟩

/-- A condition that follows from an invariant may be added to every step. -/
theorem strengthen {P : σ → Prop}
    (hstep : ∀ s a t, P s → ok s a → step s a = some t → P t)
    (hok : ∀ s a t, P s → ok s a → step s a = some t → ok' s a)
    {s t : σ} (h : Path step ok s t) (hs : P s) : Path step ok' s t ∧ P t := by
  induction h with
  | refl => exact ⟨refl _, hs⟩
  | tail _ ha hst ih =>
      obtain ⟨hp, hP⟩ := ih
      exact ⟨tail hp (hok _ _ _ hP ha hst) hst, hstep _ _ _ hP ha hst⟩

theorem mono (hok : ∀ s a, ok s a → ok' s a) {s t : σ} (h : Path step ok s t) :
    Path step ok' s t := by
  induction h with
  | refl => exact refl _
  | tail _ ha hst ih => exact tail ih (hok _ _ ha) hst

/-- Forward simulation: if every step is matched by a run of `abs` that restores
the relation `R`, so is every run. -/
theorem simulates {R : σ → τ → Prop} {abs : τ → τ → Prop}
    (hsim : ∀ s x a t, R s x → ok s a → step s a = some t →
      ∃ y, Relation.ReflTransGen abs x y ∧ R t y)
    {s t : σ} {x : τ} (h : Path step ok s t) (hR : R s x) :
    ∃ y, Relation.ReflTransGen abs x y ∧ R t y := by
  induction h with
  | refl => exact ⟨x, .refl, hR⟩
  | tail _ ha hst ih =>
      obtain ⟨y, hxy, hy⟩ := ih
      obtain ⟨z, hyz, hz⟩ := hsim _ _ _ _ hy ha hst
      exact ⟨z, hxy.trans hyz, hz⟩

end Path

instance (s : σ) (a : α) : Decidable (always s a) := isTrue trivial

/-- Take a list of actions, one after the other, each if it meets `ok`. -/
def exec (step : σ → α → Option σ) (ok : σ → α → Prop) [∀ s a, Decidable (ok s a)] :
    σ → List α → Option σ
  | s, [] => some s
  | s, a :: rest => if ok s a then (step s a).bind fun t => exec step ok t rest else none

theorem path_of_exec {step : σ → α → Option σ} {ok : σ → α → Prop}
    [∀ s a, Decidable (ok s a)] (actions : List α) {s t : σ}
    (h : exec step ok s actions = some t) : Path step ok s t := by
  induction actions generalizing s with
  | nil =>
      cases h
      exact .refl _
  | cons a rest ih =>
      unfold exec at h
      split at h
      · next hok =>
          obtain ⟨u, hu, hrest⟩ := Option.bind_eq_some_iff.mp h
          exact (Path.single hok hu).trans (ih hrest)
      · cases h

theorem exec_concat {step : σ → α → Option σ} {ok : σ → α → Prop} [∀ s a, Decidable (ok s a)]
    {actions : List α} {s t u : σ} {a : α} (h : exec step ok s actions = some t) (hok : ok t a)
    (hs : step t a = some u) : exec step ok s (actions ++ [a]) = some u := by
  induction actions generalizing s with
  | nil =>
      cases h
      simp [exec, hok, hs]
  | cons b rest ih =>
      rw [List.cons_append]
      unfold exec at h ⊢
      split at h
      · next hb =>
          obtain ⟨v, hv, hrest⟩ := Option.bind_eq_some_iff.mp h
          rw [if_pos hb, hv]
          exact ih hrest
      · cases h

/-- What each action preserves, with the actions taken so far in sight, a list of actions
preserves. -/
theorem exec_invariant {step : σ → α → Option σ} {ok : σ → α → Prop}
    [∀ s a, Decidable (ok s a)] {P : List α → σ → Prop}
    (hstep : ∀ done s a t, P done s → ok s a → step s a = some t → P (done ++ [a]) t)
    (actions : List α) {done : List α} {s t : σ} (hs : P done s)
    (h : exec step ok s actions = some t) : P (done ++ actions) t := by
  induction actions generalizing done s with
  | nil =>
      cases h
      rw [List.append_nil]
      exact hs
  | cons a rest ih =>
      unfold exec at h
      split at h
      · next hok =>
          obtain ⟨u, hu, hrest⟩ := Option.bind_eq_some_iff.mp h
          have hnext := ih (hstep done s a u hs hok hu) hrest
          rwa [List.append_assoc] at hnext
      · cases h

/-- What is seen of the last state of a list of actions is seen at the end of a run. -/
theorem path_of_exec_map {β : Type*} {step : σ → α → Option σ} {ok : σ → α → Prop}
    [∀ s a, Decidable (ok s a)] (actions : List α) {s : σ} (f : σ → β) {v : β}
    (h : (exec step ok s actions).map f = some v) : ∃ t, Path step ok s t ∧ f t = v := by
  obtain ⟨t, ht, hv⟩ := Option.map_eq_some_iff.mp h
  exact ⟨t, path_of_exec actions ht, hv⟩

/-- The same for a run in two parts, the second under a condition of its own. -/
theorem paths_of_exec_map {β γ : Type*} {step : σ → α → Option σ} {ok ok' : σ → α → Prop}
    [∀ s a, Decidable (ok s a)] [∀ s a, Decidable (ok' s a)] (first second : List α) {s : σ}
    (f : σ → β) (g : σ → γ) {v : β} {w : γ}
    (h : ((exec step ok s first).bind fun t =>
      (exec step ok' t second).map fun u => (f t, g u)) = some (v, w)) :
    ∃ t u, Path step ok s t ∧ Path step ok' t u ∧ f t = v ∧ g u = w := by
  obtain ⟨t, ht, h⟩ := Option.bind_eq_some_iff.mp h
  obtain ⟨u, hu, hv⟩ := Option.map_eq_some_iff.mp h
  cases hv
  exact ⟨t, u, path_of_exec first ht, path_of_exec second hu, rfl, rfl⟩

/-- No run goes on for ever, and none stops short of the goal. -/
structure Ends (step : σ → α → Option σ) (s : σ) (goal : σ → Prop) : Prop where
  bounded : ∃ bound, ∀ actions t, exec step always s actions = some t → actions.length ≤ bound
  progress : ∀ t, Path step always s t → goal t ∨ ∃ a u, step t a = some u

/-! ## Small systems

Runs are shown for systems of one, two or three parties, which are numerals of `Fin`.
With these instances the numerals of all such runs rest on the same three proofs. -/

instance neZeroOne : @NeZero Nat Zero.ofOfNat0 1 := ⟨by decide⟩

instance neZeroTwo : @NeZero Nat Zero.ofOfNat0 2 := ⟨by decide⟩

instance neZeroThree : @NeZero Nat Zero.ofOfNat0 3 := ⟨by decide⟩

end Run
end Labs
