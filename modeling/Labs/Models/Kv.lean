import Labs.Linearizable

/-!
# The key/value model

`KvModel.Step` of the linearizability tests, which is about the value of one key, and the
map of strings that behaves like it at every key.  A missing key reads as the empty
string.  Strings are byte sequences.
-/

namespace Labs
namespace Models

/-- A Go string. -/
abbrev Str := List UInt8

/-- The codes 0, 1, 2 and any other. -/
inductive KvOp where
  | get
  | put
  | append
  | appendReturn
  deriving DecidableEq, Repr

structure KvInput where
  op : KvOp
  key : Str
  value : Str
  deriving DecidableEq, Repr

structure KvOutput where
  value : Str
  deriving DecidableEq, Repr

namespace KvModel

def init : Str := []

def step (st : Str) (inp : KvInput) (out : KvOutput) : Bool × Str :=
  match inp.op with
  | .get => (out.value = st, st)
  | .put => (true, inp.value)
  | .append => (true, st ++ inp.value)
  | .appendReturn => (out.value = st, st ++ inp.value)

end KvModel

open History

/-- The map of strings: every input acts on the value of its key. -/
def kvMap : Object KvInput KvOutput (Str → Str) where
  init := fun _ => KvModel.init
  next := fun st inp =>
    Function.update st inp.key (KvModel.step (st inp.key) inp { value := [] }).2
  ok := fun st inp out => (KvModel.step (st inp.key) inp out).1 = true

theorem kvMap_readOnly {inp : KvInput} (h : inp.op = .get) : kvMap.ReadOnly inp := by
  intro st
  simp [kvMap, KvModel.step, h]

theorem kvMap_ok_get {inp : KvInput} (h : inp.op = .get) {st : Str → Str} {out : KvOutput} :
    kvMap.ok st inp out ↔ out.value = st inp.key := by
  simp [kvMap, KvModel.step, h]

theorem kvMap_ok_appendReturn {inp : KvInput} (h : inp.op = .appendReturn) {st : Str → Str}
    {out : KvOutput} : kvMap.ok st inp out ↔ out.value = st inp.key := by
  simp [kvMap, KvModel.step, h]

theorem kvMap_ok_put {inp : KvInput} (h : inp.op = .put ∨ inp.op = .append) (st : Str → Str)
    (out : KvOutput) : kvMap.ok st inp out := by
  rcases h with h | h <;> simp [kvMap, KvModel.step, h]

/-! ## Answers -/

section Answers

variable {ops ops' : List (Operation KvInput KvOutput)} {sched sched' : Schedule}
  {clock clock' k : Nat} {a : Operation KvInput KvOutput} {out : KvOutput}

/-- The output is what the map returns: for a read at a tick since the call, for a write in
the state in which it took effect. -/
def Answers (ops : List (Operation KvInput KvOutput)) (sched : Schedule) (clock k : Nat)
    (a : Operation KvInput KvOutput) (out : KvOutput) : Prop :=
  (a.input.op = .get ∧ ∃ t, a.call ≤ t ∧ t < clock ∧
    kvMap.ok (stateAt kvMap ops sched t) a.input out) ∨
  ∃ s, Placed kvMap ops sched clock k s ∧ kvMap.ok s a.input out

theorem Answers.mono (hg : Grows kvMap ops sched clock ops' sched' clock')
    (h : Answers ops sched clock k a out) : Answers ops' sched' clock' k a out := by
  rcases h with ⟨hget, t, hcall, ht, hok⟩ | ⟨s, hp, hok⟩
  · refine .inl ⟨hget, t, hcall, Nat.lt_of_lt_of_le ht hg.le, ?_⟩
    rw [hg.stateAt_eq (Nat.le_of_lt ht)]
    exact hok
  · exact .inr ⟨s, hg.placed hp, hok⟩

theorem Answers.placed (h : Answers ops sched clock k a out) (hw : a.input.op ≠ .get) :
    ∃ s, Placed kvMap ops sched clock k s ∧ kvMap.ok s a.input out := by
  rcases h with ⟨hget, -⟩ | hplaced
  · exact absurd hget hw
  · exact hplaced

/-- A call returns with its answer.  A read enters the schedule at this moment. -/
theorem Answers.ret (h : Answers ops sched clock k a out)
    (hrec : Recorded kvMap ops sched clock) (hk : ops[k]? = some a) (hpending : a.result = none)
    (hfree : a.input.op = .get → ¬ sched.Scheduled k) : ∃ sched',
      Recorded kvMap (returned ops k out clock) sched' (clock + 1) ∧
      Grows kvMap ops sched clock (returned ops k out clock) sched' (clock + 1) ∧
      (∀ j ≠ k, sched'.Scheduled j ↔ sched.Scheduled j) ∧
      stateAt kvMap (returned ops k out clock) sched' (clock + 1) =
        stateAt kvMap ops sched clock := by
  -- once the operation is placed, returning it and one tick are left
  have finish : ∀ {sched' : Schedule} {s}, Recorded kvMap ops sched' clock →
      Grows kvMap ops sched clock ops sched' clock →
      Placed kvMap ops sched' clock k s → kvMap.ok s a.input out →
      Recorded kvMap (returned ops k out clock) sched' (clock + 1) ∧
      Grows kvMap ops sched clock (returned ops k out clock) sched' (clock + 1) ∧
      stateAt kvMap (returned ops k out clock) sched' (clock + 1) =
        stateAt kvMap ops sched clock := by
    intro sched' s hrec' hg hp hok
    obtain ⟨hret, hg₁⟩ := hrec'.ret hk hp hok
    obtain ⟨htick, hg₂⟩ := hret.tick
    refine ⟨htick, (hg.trans hg₁).trans hg₂, ?_⟩
    rw [stateAt_succ (hrec'.future (Nat.le_refl _)), hg₁.stateAt_eq (Nat.le_refl _),
      hg.stateAt_eq (Nat.le_refl _)]
  rcases h with ⟨hget, t, hcall, ht, hok⟩ | ⟨s, hp, hok⟩
  · obtain ⟨hrec', hg, hp⟩ :=
      hrec.place hk hpending (kvMap_readOnly hget) (hfree hget) hcall ht
    obtain ⟨hfin, hg', hstate⟩ := finish hrec' hg hp hok
    refine ⟨_, hfin, hg', fun j hj => ?_, hstate⟩
    rw [Schedule.scheduled_insert]
    simp [hj]
  · obtain ⟨hfin, hg', hstate⟩ := finish hrec (.refl _ _ _ _) hp hok
    exact ⟨sched, hfin, hg', fun _ _ => Iff.rfl, hstate⟩

end Answers
end Models
end Labs
