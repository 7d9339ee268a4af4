import Labs.Linearizable

/-!
# One history under two clocks

Two systems that do the same may record it at different times, if one of them takes steps
that the other does not.  What counts is that an operation which has returned before another
is called under the first clock has done so under the second: then an order that explains
the second record explains the first.
-/

namespace Labs
namespace History

variable {I O S : Type*}

/-- `ops`, recorded up to the time `t`, and `ops'`, up to `t'`, have the same inputs and
results, and the real-time order of the first is also that of the second. -/
structure Retimed (t : Nat) (ops : List (Operation I O)) (t' : Nat)
    (ops' : List (Operation I O)) : Prop where
  length : ops'.length = ops.length
  input : ∀ (k : Nat) (a a' : Operation I O), ops[k]? = some a → ops'[k]? = some a' →
    a'.input = a.input
  result : ∀ (k : Nat) (a a' : Operation I O), ops[k]? = some a → ops'[k]? = some a' →
    a'.result.map Prod.fst = a.result.map Prod.fst
  order : ∀ (j k : Nat) (a b a' b' : Operation I O), ops[j]? = some a → ops[k]? = some b →
    ops'[j]? = some a' → ops'[k]? = some b' → a.Precedes b → a'.Precedes b'
  calls : ∀ (k : Nat) (a : Operation I O), ops[k]? = some a → a.call < t
  returns : ∀ (k : Nat) (a : Operation I O), ops'[k]? = some a → ∀ r ∈ a.result, r.2 < t'

namespace Retimed

variable {t t' : Nat} {ops ops' : List (Operation I O)}

theorem nil (t t' : Nat) : Retimed t ([] : List (Operation I O)) t' [] := by
  constructor <;> simp

theorem tick (h : Retimed t ops t' ops') {u u' : Nat} (hu : t ≤ u) (hu' : t' ≤ u') :
    Retimed u ops u' ops' where
  length := h.length
  input := h.input
  result := h.result
  order := h.order
  calls := fun k a hk => Nat.lt_of_lt_of_le (h.calls k a hk) hu
  returns := fun k a hk r hr => Nat.lt_of_lt_of_le (h.returns k a hk r hr) hu'

/-- The operation at a place of one record has its counterpart in the other. -/
theorem counterpart (h : Retimed t ops t' ops') {k : Nat} {a : Operation I O}
    (hk : ops[k]? = some a) : ∃ a', ops'[k]? = some a' := by
  have hlt := (List.getElem?_eq_some_iff.mp hk).1
  exact ⟨_, List.getElem?_eq_getElem (h.length ▸ hlt)⟩

/-- An operation is called.  Whatever has returned has done so under both clocks. -/
theorem called (h : Retimed t ops t' ops') (i : I) :
    Retimed (t + 1) (called ops i t) (t' + 1) (called ops' i t') := by
  have hpair : ∀ (k : Nat) (a a' : Operation I O), (History.called ops i t)[k]? = some a →
      (History.called ops' i t')[k]? = some a' →
      ops[k]? = some a ∧ ops'[k]? = some a' ∨
        a = { input := i, call := t, result := none } ∧
        a' = { input := i, call := t', result := none } := by
    intro k a a' ha ha'
    rcases getElem?_called_cases ha with hold | ⟨hk, hnew⟩
    · have hlt := (List.getElem?_eq_some_iff.mp hold).1
      rw [getElem?_called_of_lt (h.length ▸ hlt)] at ha'
      exact .inl ⟨hold, ha'⟩
    · rcases getElem?_called_cases ha' with hold' | ⟨-, hnew'⟩
      · have hlt := (List.getElem?_eq_some_iff.mp hold').1
        rw [h.length, ← hk] at hlt
        omega
      · exact .inr ⟨hnew, hnew'⟩
  refine ⟨?_, ?_, ?_, ?_, ?_, ?_⟩
  · simp [History.called, h.length]
  · intro k a a' ha ha'
    rcases hpair k a a' ha ha' with ⟨hold, hold'⟩ | ⟨rfl, rfl⟩
    · exact h.input k a a' hold hold'
    · rfl
  · intro k a a' ha ha'
    rcases hpair k a a' ha ha' with ⟨hold, hold'⟩ | ⟨rfl, rfl⟩
    · exact h.result k a a' hold hold'
    · rfl
  · intro j k a b a' b' ha hb ha' hb' hprec
    obtain ⟨r, hr, hlt⟩ := hprec
    rcases hpair j a a' ha ha' with ⟨hold, hold'⟩ | ⟨rfl, rfl⟩
    · rcases hpair k b b' hb hb' with ⟨hob, hob'⟩ | ⟨rfl, rfl⟩
      · exact h.order j k a b a' b' hold hob hold' hob' ⟨r, hr, hlt⟩
      · -- the call is new, and the result of the other is in the past of both clocks
        have hresult := h.result j a a' hold hold'
        rw [Option.mem_def.mp hr] at hresult
        obtain ⟨r', hr', -⟩ := Option.map_eq_some_iff.mp hresult
        exact ⟨r', hr', h.returns j a' hold' r' hr'⟩
    · cases hr
  · intro k a ha
    rcases getElem?_called_cases ha with hold | ⟨-, rfl⟩
    · exact Nat.lt_succ_of_lt (h.calls k a hold)
    · exact Nat.lt_succ_self t
  · intro k a ha r hr
    rcases getElem?_called_cases ha with hold | ⟨-, rfl⟩
    · exact Nat.lt_succ_of_lt (h.returns k a hold r hr)
    · cases hr

/-- An operation returns, too late to precede any that has been called. -/
theorem returned (h : Retimed t ops t' ops') (k : Nat) (o : O) :
    Retimed (t + 1) (returned ops k o t) (t' + 1) (returned ops' k o t') := by
  have hcases : ∀ {ops : List (Operation I O)} {t j : Nat} {a : Operation I O},
      (History.returned ops k o t)[j]? = some a →
      ∃ b, ops[j]? = some b ∧ (j ≠ k ∧ a = b ∨ j = k ∧ a = { b with result := some (o, t) }) := by
    intro ops t j a ha
    by_cases hj : j = k
    · subst hj
      obtain ⟨b, hb⟩ : ∃ b, ops[j]? = some b := by
        have hlt := (List.getElem?_eq_some_iff.mp ha).1
        rw [History.returned, List.length_modify] at hlt
        exact ⟨_, List.getElem?_eq_getElem hlt⟩
      rw [getElem?_returned_self hb] at ha
      exact ⟨b, hb, .inr ⟨rfl, (Option.some.inj ha).symm⟩⟩
    · rw [getElem?_returned_ne ops hj] at ha
      exact ⟨a, ha, .inl ⟨hj, rfl⟩⟩
  refine ⟨?_, ?_, ?_, ?_, ?_, ?_⟩
  · simp [History.returned, h.length]
  · intro j a a' ha ha'
    obtain ⟨b, hb, hab⟩ := hcases ha
    obtain ⟨b', hb', hab'⟩ := hcases ha'
    have hinput := h.input j b b' hb hb'
    rcases hab with ⟨-, rfl⟩ | ⟨-, rfl⟩ <;> rcases hab' with ⟨-, rfl⟩ | ⟨-, rfl⟩ <;>
      exact hinput
  · intro j a a' ha ha'
    obtain ⟨b, hb, hab⟩ := hcases ha
    obtain ⟨b', hb', hab'⟩ := hcases ha'
    rcases hab with ⟨hne, rfl⟩ | ⟨heq, rfl⟩ <;> rcases hab' with ⟨hne', rfl⟩ | ⟨heq', rfl⟩
    · exact h.result j a a' hb hb'
    · exact absurd heq' hne
    · exact absurd heq hne'
    · rfl
  · intro i j a b a' b' ha hb ha' hb' hprec
    obtain ⟨r, hr, hlt⟩ := hprec
    obtain ⟨c, hc, hac⟩ := hcases ha
    obtain ⟨d, hd, hbd⟩ := hcases hb
    obtain ⟨c', hc', hac'⟩ := hcases ha'
    obtain ⟨d', hd', hbd'⟩ := hcases hb'
    have hcall : b.call = d.call := by
      rcases hbd with ⟨-, rfl⟩ | ⟨-, rfl⟩ <;> rfl
    have hcall' : b'.call = d'.call := by
      rcases hbd' with ⟨-, rfl⟩ | ⟨-, rfl⟩ <;> rfl
    have hpast := h.calls j d hd
    rcases hac with ⟨hne, rfl⟩ | ⟨heq, rfl⟩
    · rcases hac' with ⟨-, rfl⟩ | ⟨heq, -⟩
      · obtain ⟨r', hr', hlt'⟩ := h.order i j a d a' d' hc hd hc' hd' ⟨r, hr, hcall ▸ hlt⟩
        exact ⟨r', hr', hcall' ▸ hlt'⟩
      · exact absurd heq hne
    · cases hr
      omega
  · intro j a ha
    obtain ⟨b, hb, hab⟩ := hcases ha
    have hpast := h.calls j b hb
    rcases hab with ⟨-, rfl⟩ | ⟨-, rfl⟩
    · exact Nat.lt_succ_of_lt hpast
    · exact Nat.lt_succ_of_lt hpast
  · intro j a ha r hr
    obtain ⟨b, hb, hab⟩ := hcases ha
    rcases hab with ⟨-, rfl⟩ | ⟨-, rfl⟩
    · exact Nat.lt_succ_of_lt (h.returns j a hb r hr)
    · cases hr
      exact Nat.lt_succ_self t'

theorem inputs_eq (h : Retimed t ops t' ops') : inputs ops' = inputs ops := by
  refine List.ext_getElem? fun k => ?_
  rw [inputs, inputs, List.getElem?_map, List.getElem?_map]
  cases hk : ops[k]? with
  | none =>
      have hge := List.getElem?_eq_none_iff.mp hk
      rw [List.getElem?_eq_none (h.length ▸ hge)]
  | some a =>
      obtain ⟨a', ha'⟩ := h.counterpart hk
      rw [ha']
      exact congrArg some (h.input k a a' hk ha')

theorem legal (h : Retimed t ops t' ops') {obj : Object I O S} {order : List Nat} {s : S}
    (hlegal : obj.Legal ops' s order) : obj.Legal ops s order := by
  induction order generalizing s with
  | nil => trivial
  | cons k rest ih =>
      obtain ⟨hfirst, hrest⟩ := hlegal
      rw [h.inputs_eq] at hrest
      refine ⟨fun a ha r hr => ?_, ih hrest⟩
      obtain ⟨a', ha'⟩ := h.counterpart ha
      have hresult := h.result k a a' ha ha'
      rw [Option.mem_def.mp hr] at hresult
      obtain ⟨r', hr', heq⟩ := Option.map_eq_some_iff.mp hresult
      have hok := hfirst a' ha' r' hr'
      rwa [h.input k a a' ha ha', heq] at hok

/-- An order that explains the second record explains the first. -/
theorem linearizable (h : Retimed t ops t' ops') {obj : Object I O S}
    (hlin : Linearizable obj ops') : Linearizable obj ops := by
  obtain ⟨order, hord⟩ := hlin
  refine ⟨order, hord.nodup, fun k hk => h.length ▸ hord.called k hk, ?_, ?_, h.legal hord.legal⟩
  · intro k a hk hdone
    obtain ⟨a', ha'⟩ := h.counterpart hk
    refine hord.completed k a' ha' fun hnone => hdone ?_
    have hresult := h.result k a a' hk ha'
    rw [hnone] at hresult
    exact Option.map_eq_none_iff.mp hresult.symm
  · refine hord.realtime.imp fun hnot a ha b hb hprec => ?_
    obtain ⟨a', ha'⟩ := h.counterpart ha
    obtain ⟨b', hb'⟩ := h.counterpart hb
    exact hnot a' ha' b' hb' (h.order _ _ b a b' a' hb ha hb' ha' hprec)

end Retimed
end History
end Labs
