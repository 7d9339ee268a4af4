import Mathlib.Data.List.Basic
import Mathlib.Data.List.Flatten
import Mathlib.Data.List.Nodup
import Mathlib.Logic.Function.Basic

/-!
# Linearizability

A history is a list of operations, each with the time of its call and, once it has
returned, its result and the time of the return.  It is linearizable if some of its
operations, all completed ones among them, can be put in an order that respects real
time and in which a sequential object gives the results that were returned.

The order is found while the history is recorded.  A schedule says which operations take
effect at each tick of the clock.  A write enters it when it happens.  A read enters it
when it returns, at an earlier tick whose state it has seen: it changes no state, so
whatever was recorded since stays right.
-/

namespace Labs
namespace History

variable {I O S : Type*}

/-- A sequential object: how an input changes the state, and which outputs it may have. -/
structure Object (I O S : Type*) where
  init : S
  next : S → I → S
  ok : S → I → O → Prop

structure Operation (I O : Type*) where
  input : I
  call : Nat
  result : Option (O × Nat)
  deriving DecidableEq

/-- The first has returned before the second is called. -/
def Operation.Precedes (a b : Operation I O) : Prop :=
  ∃ r ∈ a.result, r.2 < b.call

def inputs (ops : List (Operation I O)) : List I := ops.map fun a => a.input

/-- An operation is called. -/
def called (ops : List (Operation I O)) (i : I) (t : Nat) : List (Operation I O) :=
  ops ++ [{ input := i, call := t, result := none }]

theorem inputs_called (ops : List (Operation I O)) (i : I) (t : Nat) :
    inputs (called ops i t) = inputs ops ++ [i] := by
  simp [inputs, called]

theorem getElem?_called_of_lt {ops : List (Operation I O)} {k : Nat} (h : k < ops.length) (i : I)
    (t : Nat) : (called ops i t)[k]? = ops[k]? :=
  List.getElem?_append_left h

theorem getElem?_called_cases {ops : List (Operation I O)} {i : I} {t k : Nat}
    {a : Operation I O} (h : (called ops i t)[k]? = some a) :
    ops[k]? = some a ∨ k = ops.length ∧ a = { input := i, call := t, result := none } := by
  rcases Nat.lt_or_ge k ops.length with hlt | hge
  · rw [getElem?_called_of_lt hlt] at h
    exact .inl h
  · rw [called, List.getElem?_append_right hge] at h
    have hlt := (List.getElem?_eq_some_iff.mp h).1
    refine .inr ⟨?_, List.mem_singleton.mp (List.mem_of_getElem? h)⟩
    rw [List.length_singleton] at hlt
    omega

/-- Operation `k` returns. -/
def returned (ops : List (Operation I O)) (k : Nat) (o : O) (t : Nat) : List (Operation I O) :=
  ops.modify k fun a => { a with result := some (o, t) }

theorem inputs_returned (ops : List (Operation I O)) (k : Nat) (o : O) (t : Nat) :
    inputs (returned ops k o t) = inputs ops := by
  refine List.ext_getElem? fun j => ?_
  simp only [inputs, returned, List.getElem?_map, List.getElem?_modify, Option.map_eq_map,
    Option.map_map]
  congr 1
  funext a
  by_cases hk : k = j <;> simp [hk]

theorem getElem?_returned_self {ops : List (Operation I O)} {k : Nat} {a : Operation I O}
    (hk : ops[k]? = some a) (o : O) (t : Nat) :
    (returned ops k o t)[k]? = some { a with result := some (o, t) } := by
  simp [returned, hk]

theorem getElem?_returned_ne (ops : List (Operation I O)) {k j : Nat} (h : j ≠ k) (o : O)
    (t : Nat) : (returned ops k o t)[j]? = ops[j]? := by
  simp [returned, Ne.symm h]

namespace Object

variable (obj : Object I O S)

def perform (ins : List I) (s : S) (k : Nat) : S :=
  match ins[k]? with
  | some i => obj.next s i
  | none => s

def run (ins : List I) (s : S) (order : List Nat) : S := order.foldl (obj.perform ins) s

/-- The results returned are outputs the object may have, in this order. -/
def Legal (ops : List (Operation I O)) : S → List Nat → Prop
  | _, [] => True
  | s, k :: rest =>
    (∀ a ∈ ops[k]?, ∀ r ∈ a.result, obj.ok s a.input r.1) ∧
      Legal ops (obj.perform (inputs ops) s k) rest

/-- An input that leaves every state as it is. -/
def ReadOnly (i : I) : Prop := ∀ s, obj.next s i = s

structure Linearizes (ops : List (Operation I O)) (order : List Nat) : Prop where
  nodup : order.Nodup
  called : ∀ k ∈ order, k < ops.length
  completed : ∀ k a, ops[k]? = some a → a.result ≠ none → k ∈ order
  realtime : order.Pairwise fun k k' =>
    ∀ a ∈ ops[k]?, ∀ b ∈ ops[k']?, ¬ b.Precedes a
  legal : obj.Legal ops obj.init order

end Object

def Linearizable (obj : Object I O S) (ops : List (Operation I O)) : Prop :=
  ∃ order, obj.Linearizes ops order

/-! ## Orders -/

section Order

variable {obj : Object I O S} {ins : List I} {ops ops' : List (Operation I O)}

theorem run_append (s : S) (l l' : List Nat) :
    obj.run ins s (l ++ l') = obj.run ins (obj.run ins s l) l' :=
  List.foldl_append

theorem perform_readOnly {k : Nat} {i : I} (hk : ins[k]? = some i) (hr : obj.ReadOnly i) (s : S) :
    obj.perform ins s k = s := by
  rw [Object.perform, hk]
  exact hr s

/-- New operations do not matter to an order of old ones. -/
theorem run_append_inputs (new : List I) {order : List Nat} (h : ∀ k ∈ order, k < ins.length)
    (s : S) : obj.run (ins ++ new) s order = obj.run ins s order := by
  induction order generalizing s with
  | nil => rfl
  | cons k rest ih =>
      have hk : (ins ++ new)[k]? = ins[k]? := List.getElem?_append_left (h k List.mem_cons_self)
      show obj.run (ins ++ new) (obj.perform (ins ++ new) s k) rest =
        obj.run ins (obj.perform ins s k) rest
      rw [Object.perform, hk, ← Object.perform]
      exact ih (fun j hj => h j (List.mem_cons_of_mem _ hj)) _

theorem legal_append {s : S} {l l' : List Nat} : obj.Legal ops s (l ++ l') ↔
    obj.Legal ops s l ∧ obj.Legal ops (obj.run (inputs ops) s l) l' := by
  induction l generalizing s with
  | nil => simp [Object.Legal, Object.run]
  | cons k rest ih =>
      show _ ∧ obj.Legal ops _ (rest ++ l') ↔ _
      rw [ih]
      simp only [Object.Legal, Object.run, List.foldl_cons, and_assoc]

/-- Legality looks only at the inputs and at the results of the operations in the order. -/
theorem Object.Legal.congr {s : S} {order : List Nat} (h : obj.Legal ops s order)
    (hins : ∀ k ∈ order, (inputs ops')[k]? = (inputs ops)[k]?)
    (hres : ∀ k ∈ order, ∀ a ∈ ops'[k]?, ∀ r ∈ a.result, ∃ b ∈ ops[k]?, r ∈ b.result) :
    obj.Legal ops' s order := by
  induction order generalizing s with
  | nil => trivial
  | cons k rest ih =>
      have hperform : obj.perform (inputs ops') s k = obj.perform (inputs ops) s k := by
        rw [Object.perform, hins k List.mem_cons_self, ← Object.perform]
      refine ⟨fun a ha r hr => ?_, ?_⟩
      · obtain ⟨b, hb, hrb⟩ := hres k List.mem_cons_self a ha r hr
        have heq : a.input = b.input := by
          have hk := hins k List.mem_cons_self
          simp only [inputs, List.getElem?_map] at hk
          rw [Option.mem_def.mp ha, Option.mem_def.mp hb] at hk
          exact Option.some.inj hk
        rw [heq]
        exact h.1 b hb r hrb
      · rw [hperform]
        exact ih h.2 (fun j hj => hins j (List.mem_cons_of_mem _ hj))
          (fun j hj => hres j (List.mem_cons_of_mem _ hj))

end Order

/-! ## Schedules -/

/-- The operations that take effect at each tick, in order. -/
abbrev Schedule := Nat → List Nat

namespace Schedule

variable {sched : Schedule}

def order (sched : Schedule) (t : Nat) : List Nat := (List.range t).flatMap sched

theorem order_succ (sched : Schedule) (t : Nat) :
    sched.order (t + 1) = sched.order t ++ sched t := by
  simp [order, List.range_succ]

theorem mem_order {t k : Nat} : k ∈ sched.order t ↔ ∃ u < t, k ∈ sched u := by
  simp [order]

/-- A change at a tick changes nothing before it. -/
theorem order_update_of_le {t u : Nat} (h : t ≤ u) (l : List Nat) :
    order (Function.update sched u l) t = sched.order t := by
  induction t with
  | zero => rfl
  | succ t ih => rw [order_succ, order_succ, ih (by omega), Function.update_of_ne (by omega)]

/-- An operation put first at a tick comes right after all that happens before. -/
theorem order_insert (sched : Schedule) (k : Nat) {u t : Nat} (h : u < t) : ∃ rest,
    sched.order t = sched.order u ++ rest ∧
    order (Function.update sched u (k :: sched u)) t = sched.order u ++ k :: rest := by
  induction t with
  | zero => omega
  | succ t ih =>
      rcases Nat.lt_succ_iff_lt_or_eq.mp h with hlt | rfl
      · obtain ⟨rest, h₁, h₂⟩ := ih hlt
        refine ⟨rest ++ sched t, ?_, ?_⟩
        · rw [order_succ, h₁, List.append_assoc]
        · rw [order_succ, h₂, Function.update_of_ne (by omega)]
          simp
      · exact ⟨sched u, order_succ sched u, by
          rw [order_succ, order_update_of_le (Nat.le_refl u), Function.update_self]⟩

def Scheduled (sched : Schedule) (k : Nat) : Prop := ∃ t, k ∈ sched t

theorem scheduled_insert {u k j : Nat} :
    Scheduled (Function.update sched u (k :: sched u)) j ↔ j = k ∨ sched.Scheduled j := by
  constructor
  · rintro ⟨t, ht⟩
    rw [Function.update_apply] at ht
    split at ht
    · next hu =>
        rcases List.mem_cons.mp ht with rfl | ht
        · exact .inl rfl
        · exact .inr ⟨u, ht⟩
    · exact .inr ⟨t, ht⟩
  · rintro (rfl | ⟨t, ht⟩)
    · exact ⟨u, by simp⟩
    · by_cases htu : t = u
      · exact ⟨u, by rw [Function.update_self]; exact List.mem_cons_of_mem _ (htu ▸ ht)⟩
      · exact ⟨t, by rw [Function.update_of_ne htu]; exact ht⟩

end Schedule

/-! ## Recording -/

section Record

variable {obj : Object I O S} {ops ops' : List (Operation I O)} {sched sched' : Schedule}
  {clock clock' : Nat}

/-- The state before a tick. -/
def stateAt (obj : Object I O S) (ops : List (Operation I O)) (sched : Schedule) (t : Nat) : S :=
  obj.run (inputs ops) obj.init (sched.order t)

/-- The operation is scheduled, in this state. -/
def Placed (obj : Object I O S) (ops : List (Operation I O)) (sched : Schedule)
    (clock k : Nat) (s : S) : Prop :=
  ∃ pre post, sched.order clock = pre ++ k :: post ∧ obj.run (inputs ops) obj.init pre = s

theorem stateAt_succ {t : Nat} (h : sched t = []) :
    stateAt obj ops sched (t + 1) = stateAt obj ops sched t := by
  rw [stateAt, Schedule.order_succ, h, List.append_nil, stateAt]

theorem Placed.scheduled {k : Nat} {s : S} (h : Placed obj ops sched clock k s) :
    sched.Scheduled k := by
  obtain ⟨pre, post, hsplit, -⟩ := h
  have hmem : k ∈ sched.order clock := by
    rw [hsplit]
    simp
  obtain ⟨t, -, ht⟩ := Schedule.mem_order.mp hmem
  exact ⟨t, ht⟩

/-- The schedule explains the history up to now. -/
structure Recorded (obj : Object I O S) (ops : List (Operation I O)) (sched : Schedule)
    (clock : Nat) : Prop where
  past : ∀ {k : Nat} {a}, ops[k]? = some a → a.call < clock
  future : ∀ {t}, clock ≤ t → sched t = []
  owned : ∀ {t k}, k ∈ sched t →
    ∃ a, ops[k]? = some a ∧ a.call ≤ t ∧ ∀ r ∈ a.result, t ≤ r.2
  nodup : (sched.order clock).Nodup
  completed : ∀ {k : Nat} {a}, ops[k]? = some a → a.result ≠ none → sched.Scheduled k
  legal : obj.Legal ops obj.init (sched.order clock)

/-- What later steps of the recording keep. -/
structure Grows (obj : Object I O S) (ops : List (Operation I O)) (sched : Schedule)
    (clock : Nat) (ops' : List (Operation I O)) (sched' : Schedule) (clock' : Nat) : Prop where
  le : clock ≤ clock'
  stateAt_eq : ∀ {t}, t ≤ clock → stateAt obj ops' sched' t = stateAt obj ops sched t
  placed : ∀ {k s}, Placed obj ops sched clock k s → Placed obj ops' sched' clock' k s

theorem Grows.refl (obj : Object I O S) (ops : List (Operation I O)) (sched : Schedule)
    (clock : Nat) : Grows obj ops sched clock ops sched clock :=
  ⟨Nat.le_refl _, fun _ => rfl, fun h => h⟩

theorem Grows.trans {ops'' : List (Operation I O)} {sched'' : Schedule} {clock'' : Nat}
    (h : Grows obj ops sched clock ops' sched' clock')
    (h' : Grows obj ops' sched' clock' ops'' sched'' clock'') :
    Grows obj ops sched clock ops'' sched'' clock'' where
  le := Nat.le_trans h.le h'.le
  stateAt_eq := fun ht => (h'.stateAt_eq (Nat.le_trans ht h.le)).trans (h.stateAt_eq ht)
  placed := fun hp => h'.placed (h.placed hp)

namespace Recorded

theorem scheduled_iff (h : Recorded obj ops sched clock) {k : Nat} :
    sched.Scheduled k ↔ k ∈ sched.order clock := by
  rw [Schedule.mem_order]
  constructor
  · rintro ⟨t, ht⟩
    refine ⟨t, ?_, ht⟩
    by_contra hle
    rw [h.future (Nat.not_lt.mp hle)] at ht
    cases ht
  · rintro ⟨t, -, ht⟩
    exact ⟨t, ht⟩

theorem lt_length (h : Recorded obj ops sched clock) {k t : Nat} (hk : k ∈ sched.order t) :
    k < (inputs ops).length := by
  obtain ⟨u, -, hu⟩ := Schedule.mem_order.mp hk
  obtain ⟨a, ha, -⟩ := h.owned hu
  rw [inputs, List.length_map]
  exact (List.getElem?_eq_some_iff.mp ha).1

theorem placed (h : Recorded obj ops sched clock) {k : Nat} (hk : sched.Scheduled k) :
    ∃ s, Placed obj ops sched clock k s := by
  obtain ⟨pre, post, hsplit⟩ := List.append_of_mem (h.scheduled_iff.mp hk)
  exact ⟨_, pre, post, hsplit, rfl⟩

/-- An operation is placed once. -/
theorem placed_unique (h : Recorded obj ops sched clock) {k : Nat} {s s' : S}
    (hs : Placed obj ops sched clock k s) (hs' : Placed obj ops sched clock k s') : s = s' := by
  obtain ⟨pre, post, hsplit, rfl⟩ := hs
  obtain ⟨pre', post', hsplit', rfl⟩ := hs'
  have hnodup := h.nodup
  rw [hsplit] at hnodup hsplit'
  have hnot := (List.nodup_cons.mp (List.nodup_middle.mp hnodup)).1
  rw [List.mem_append, not_or] at hnot
  rw [((List.append_cons_inj_of_notMem hnot.1 hnot.2).mp hsplit').1]

theorem init (obj : Object I O S) : Recorded obj [] (fun _ => []) 0 where
  past := fun h => by cases h
  future := fun _ => rfl
  owned := fun h => by cases h
  nodup := List.nodup_nil
  completed := fun h => by cases h
  legal := trivial

/-- A recorded history is linearizable. -/
theorem linearizable (h : Recorded obj ops sched clock) : Linearizable obj ops := by
  refine ⟨sched.order clock, h.nodup, fun k hk => ?_, fun k a hk hr => ?_, ?_, h.legal⟩
  · simpa [inputs] using h.lt_length hk
  · exact h.scheduled_iff.mp (h.completed hk hr)
  · -- whoever returned before a call took effect at an earlier tick than the caller
    have key : ∀ {t t' k k'}, t ≤ t' → k ∈ sched t → k' ∈ sched t' →
        ∀ a ∈ ops[k]?, ∀ b ∈ ops[k']?, ¬ b.Precedes a := by
      rintro t t' k k' hle hk hk' a ha b hb ⟨r, hr, hlt⟩
      obtain ⟨a', ha', hcall, -⟩ := h.owned hk
      obtain ⟨b', hb', -, hret⟩ := h.owned hk'
      rw [Option.mem_def.mp ha] at ha'
      rw [Option.mem_def.mp hb] at hb'
      cases ha'
      cases hb'
      have := hret r hr
      omega
    rw [Schedule.order, List.pairwise_flatMap]
    refine ⟨fun t _ => List.pairwise_of_forall_mem_list fun k hk k' hk' =>
      key (Nat.le_refl t) hk hk', ?_⟩
    exact List.pairwise_lt_range.imp fun hlt k hk k' hk' => key (Nat.le_of_lt hlt) hk hk'

/-- Time passes. -/
theorem tick (h : Recorded obj ops sched clock) :
    Recorded obj ops sched (clock + 1) ∧ Grows obj ops sched clock ops sched (clock + 1) := by
  have horder : sched.order (clock + 1) = sched.order clock := by
    rw [Schedule.order_succ, h.future (Nat.le_refl _), List.append_nil]
  refine ⟨⟨fun hk => Nat.lt_succ_of_lt (h.past hk), fun ht => h.future (by omega), h.owned, ?_,
    h.completed, ?_⟩, Nat.le_succ _, fun _ => rfl, ?_⟩
  · rw [horder]
    exact h.nodup
  · rw [horder]
    exact h.legal
  · rintro k s ⟨pre, post, hsplit, hrun⟩
    exact ⟨pre, post, by rw [horder, hsplit], hrun⟩

/-- An operation is called. -/
theorem call (h : Recorded obj ops sched clock) (i : I) :
    Recorded obj (called ops i clock) sched (clock + 1) ∧
      Grows obj ops sched clock (called ops i clock) sched (clock + 1) := by
  obtain ⟨h', hgrows⟩ := h.tick
  have hins := inputs_called ops i clock
  have hlt : ∀ {k t}, k ∈ sched.order t → k < ops.length := by
    intro k t hk
    simpa [inputs] using h.lt_length hk
  constructor
  · refine ⟨fun hk => ?_, h'.future, fun hk => ?_, h'.nodup, fun hk hr => ?_, ?_⟩
    · rcases getElem?_called_cases hk with hk | ⟨-, rfl⟩
      · exact h'.past hk
      · exact Nat.lt_succ_self _
    · obtain ⟨a, ha, hle⟩ := h.owned hk
      refine ⟨a, ?_, hle⟩
      rw [getElem?_called_of_lt (List.getElem?_eq_some_iff.mp ha).1, ha]
    · rcases getElem?_called_cases hk with hk | ⟨-, rfl⟩
      · exact h.completed hk hr
      · exact absurd rfl hr
    · refine h'.legal.congr (fun k hk => ?_) (fun k hk a ha r hr => ?_)
      · rw [hins, List.getElem?_append_left (h.lt_length hk)]
      · rw [getElem?_called_of_lt (hlt hk)] at ha
        exact ⟨a, ha, hr⟩
  · refine ⟨Nat.le_succ _, fun _ => ?_, fun hp => ?_⟩
    · rw [stateAt, stateAt, hins]
      exact run_append_inputs _ (fun k hk => h.lt_length hk) _
    · obtain ⟨pre, post, hsplit, hrun⟩ := hgrows.placed hp
      refine ⟨pre, post, hsplit, ?_⟩
      rw [hins, ← hrun]
      refine run_append_inputs _ (fun k hk => h.lt_length (t := clock + 1) ?_) _
      rw [hsplit]
      exact List.mem_append_left _ hk

/-- A write takes effect now. -/
theorem write (h : Recorded obj ops sched clock) {k : Nat} {a : Operation I O}
    (hk : ops[k]? = some a) (hpending : a.result = none) (hfree : ¬ sched.Scheduled k) :
    Recorded obj ops (Function.update sched clock [k]) (clock + 1) ∧
      Grows obj ops sched clock ops (Function.update sched clock [k]) (clock + 1) ∧
      stateAt obj ops (Function.update sched clock [k]) (clock + 1) =
        obj.next (stateAt obj ops sched clock) a.input ∧
      Placed obj ops (Function.update sched clock [k]) (clock + 1) k
        (stateAt obj ops sched clock) := by
  have hbefore : ∀ {t}, t ≤ clock →
      Schedule.order (Function.update sched clock [k]) t = sched.order t :=
    fun ht => Schedule.order_update_of_le ht _
  have horder : Schedule.order (Function.update sched clock [k]) (clock + 1) =
      sched.order clock ++ [k] := by
    rw [Schedule.order_succ, hbefore (Nat.le_refl _), Function.update_self]
  have hnot : k ∉ sched.order clock := fun hmem => hfree (h.scheduled_iff.mpr hmem)
  refine ⟨⟨fun hj => Nat.lt_succ_of_lt (h.past hj), fun ht => ?_, fun {t j} hj => ?_, ?_,
    fun hj hr => ?_, ?_⟩, ⟨Nat.le_succ _, fun ht => ?_, ?_⟩, ?_, ?_⟩
  · rw [Function.update_of_ne (by omega)]
    exact h.future (by omega)
  · rw [Function.update_apply] at hj
    split at hj
    · next ht =>
        rw [List.mem_singleton.mp hj]
        refine ⟨a, hk, ?_, ?_⟩
        · have := h.past hk
          omega
        · rw [hpending]
          simp
    · exact h.owned hj
  · rw [horder]
    exact h.nodup.append (List.nodup_singleton k) (by simpa using hnot)
  · have hj' := h.completed hj hr
    rw [h.scheduled_iff, Schedule.mem_order] at hj'
    obtain ⟨t, ht, hmem⟩ := hj'
    exact ⟨t, by rw [Function.update_of_ne (by omega)]; exact hmem⟩
  · rw [horder, legal_append]
    refine ⟨h.legal, fun b hb r hr => ?_, trivial⟩
    rw [hk] at hb
    cases hb
    rw [hpending] at hr
    cases hr
  · rw [stateAt, stateAt, hbefore ht]
  · rintro j s ⟨pre, post, hsplit, hrun⟩
    exact ⟨pre, post ++ [k], by rw [horder, hsplit]; simp, hrun⟩
  · rw [stateAt, horder, run_append, stateAt]
    show obj.perform (inputs ops) _ k = _
    rw [Object.perform, inputs, List.getElem?_map, hk]
    rfl
  · exact ⟨sched.order clock, [], horder, rfl⟩

/-- A read is placed at a tick in the past. -/
theorem place (h : Recorded obj ops sched clock) {k t : Nat} {a : Operation I O}
    (hk : ops[k]? = some a) (hpending : a.result = none) (hread : obj.ReadOnly a.input)
    (hfree : ¬ sched.Scheduled k) (hcall : a.call ≤ t) (ht : t < clock) :
    Recorded obj ops (Function.update sched t (k :: sched t)) clock ∧
      Grows obj ops sched clock ops (Function.update sched t (k :: sched t)) clock ∧
      Placed obj ops (Function.update sched t (k :: sched t)) clock k
        (stateAt obj ops sched t) := by
  obtain ⟨rest, hold, hnew⟩ := Schedule.order_insert sched k ht
  have hnot : k ∉ sched.order clock := fun hmem => hfree (h.scheduled_iff.mpr hmem)
  have hin : (inputs ops)[k]? = some a.input := by
    rw [inputs, List.getElem?_map, hk]
    rfl
  have hrun : ∀ (s : S) (l : List Nat), obj.run (inputs ops) s (k :: l) =
      obj.run (inputs ops) s l := by
    intro s l
    show obj.run (inputs ops) (obj.perform (inputs ops) s k) l = _
    rw [perform_readOnly hin hread]
  refine ⟨⟨h.past, fun hle => ?_, fun {u j} hj => ?_, ?_, fun hj hr => ?_, ?_⟩,
    ⟨Nat.le_refl _, fun {u} hu => ?_, ?_⟩, ?_⟩
  · rw [Function.update_of_ne (by omega)]
    exact h.future hle
  · rw [Function.update_apply] at hj
    split at hj
    · next hut =>
        rcases List.mem_cons.mp hj with rfl | hj
        · refine ⟨a, hk, by omega, ?_⟩
          rw [hpending]
          simp
        · rw [hut]
          exact h.owned hj
    · exact h.owned hj
  · rw [hold] at hnot
    have hnodup := h.nodup
    rw [hold] at hnodup
    rw [hnew]
    exact List.nodup_middle.mpr (List.nodup_cons.mpr ⟨hnot, hnodup⟩)
  · exact Schedule.scheduled_insert.mpr (.inr (h.completed hj hr))
  · have hlegal := h.legal
    rw [hold, legal_append] at hlegal
    rw [hnew, legal_append]
    refine ⟨hlegal.1, fun b hb r hr => ?_, ?_⟩
    · rw [hk] at hb
      cases hb
      rw [hpending] at hr
      cases hr
    · rw [perform_readOnly hin hread]
      exact hlegal.2
  · rcases Nat.lt_or_ge t u with hlt | hge
    · obtain ⟨rest', hold', hnew'⟩ := Schedule.order_insert sched k hlt
      rw [stateAt, stateAt, hold', hnew', run_append, run_append, hrun]
    · rw [stateAt, stateAt, Schedule.order_update_of_le hge]
  · rintro j s ⟨pre, post, hsplit, hs⟩
    rw [hold] at hsplit
    rcases List.append_eq_append_iff.mp hsplit with ⟨mid, hpre, hrest⟩ | ⟨mid, hbefore, hrest⟩
    · refine ⟨sched.order t ++ k :: mid, post, by rw [hnew, hrest]; simp, ?_⟩
      rw [run_append, hrun, ← run_append, ← hpre]
      exact hs
    · cases mid with
      | nil =>
          have hpre : sched.order t = pre := by simpa using hbefore
          have htail : rest = j :: post := by simpa using hrest.symm
          refine ⟨pre ++ [k], post, by rw [hnew, hpre, htail]; simp, ?_⟩
          rw [run_append, hrun, ← hs]
          rfl
      | cons x mid =>
          rw [List.cons_append] at hrest
          cases hrest
          exact ⟨pre, mid ++ k :: rest, by rw [hnew, hbefore]; simp, hs⟩
  · exact ⟨sched.order t, rest, hnew, rfl⟩

/-- An operation that has taken effect returns what the object gives there. -/
theorem ret (h : Recorded obj ops sched clock) {k : Nat} {a : Operation I O} {s : S} {o : O}
    (hk : ops[k]? = some a) (hplaced : Placed obj ops sched clock k s)
    (hok : obj.ok s a.input o) :
    Recorded obj (returned ops k o clock) sched clock ∧
      Grows obj ops sched clock (returned ops k o clock) sched clock := by
  have hins := inputs_returned ops k o clock
  obtain ⟨pre, post, hsplit, hrun⟩ := hplaced
  have hnodup := h.nodup
  rw [hsplit] at hnodup
  have hnot : ∀ j ∈ pre ++ post, j ≠ k := by
    intro j hj heq
    exact (List.nodup_cons.mp (List.nodup_middle.mp hnodup)).1 (heq ▸ hj)
  constructor
  · refine ⟨fun {j b} hj => ?_, h.future, fun {t j} hj => ?_, h.nodup, fun {j b} hj hr => ?_, ?_⟩
    · by_cases hjk : j = k
      · rw [hjk, getElem?_returned_self hk] at hj
        cases hj
        show a.call < clock
        exact h.past hk
      · rw [getElem?_returned_ne ops hjk] at hj
        exact h.past hj
    · obtain ⟨b, hb, hcall, hret⟩ := h.owned hj
      by_cases hjk : j = k
      · rw [hjk] at hb hj ⊢
        rw [hk] at hb
        cases hb
        refine ⟨_, getElem?_returned_self hk o clock, hcall, fun r hr => ?_⟩
        cases hr
        by_contra hlt
        rw [h.future (by omega)] at hj
        cases hj
      · exact ⟨b, by rw [getElem?_returned_ne ops hjk]; exact hb, hcall, hret⟩
    · by_cases hjk : j = k
      · rw [hjk, h.scheduled_iff, hsplit]
        simp
      · rw [getElem?_returned_ne ops hjk] at hj
        exact h.completed hj hr
    · have hlegal := h.legal
      rw [hsplit, legal_append] at hlegal ⊢
      obtain ⟨hpre, hself, hpost⟩ := hlegal
      have hother : ∀ j ∈ pre ++ post, ∀ b ∈ (returned ops k o clock)[j]?, ∀ r ∈ b.result,
          ∃ c ∈ ops[j]?, r ∈ c.result := by
        intro j hj b hb r hr
        rw [getElem?_returned_ne ops (hnot j hj)] at hb
        exact ⟨b, hb, hr⟩
      refine ⟨hpre.congr (fun j _ => by rw [hins]) fun j hj =>
        hother j (List.mem_append_left _ hj), fun b hb r hr => ?_, ?_⟩
      · rw [getElem?_returned_self hk] at hb
        cases hb
        cases hr
        rw [hins, hrun]
        exact hok
      · rw [hins]
        exact hpost.congr (fun j _ => by rw [hins]) fun j hj =>
          hother j (List.mem_append_right _ hj)
  · refine ⟨Nat.le_refl _, fun _ => by rw [stateAt, stateAt, hins], ?_⟩
    rintro j s' ⟨pre', post', hsplit', hrun'⟩
    exact ⟨pre', post', hsplit', by rw [hins]; exact hrun'⟩

end Recorded
end Record
end History
end Labs
