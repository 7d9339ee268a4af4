import Labs.KvRaft.Sessions

/-!
# Sessions over an agreed log are linearizable

A write takes effect when its first copy enters the log, a `Get` when the copy did whose
value it returns.  Every entry of the log has a tick, at which the map was what the
entries before it stand for; it lies after the call of the entry's operation, as long as
that is in progress.
-/

namespace Labs
namespace KvRaft
namespace Sessions

open Models History

variable {m : Nat}

/-- The operation `b` is in progress. -/
structure InProgress (a : Sessions m) (sched : Schedule) (tick : Nat → Nat) (call : Pending)
    (b : Operation KvInput KvOutput) : Prop where
  op : a.ops[call.op]? = some b
  pending : b.result = none
  input : b.input = call.cmd.input
  scheduled : sched.Scheduled call.op ↔ call.cmd.opType ≠ .get ∧ call.cmd ∈ a.log
  called : ∀ p, a.log[p]? = some call.cmd → b.call ≤ tick p

structure Explained (a : Sessions m) (sched : Schedule) (tick : Nat → Nat) : Prop where
  recorded : Recorded kvMap a.ops sched a.clock
  state : stateAt kvMap a.ops sched a.clock = view (replay a.log).1
  tick_lt : ∀ p < a.log.length, tick p < a.clock
  tick_state : ∀ p < a.log.length,
    stateAt kvMap a.ops sched (tick p) = view (replay (a.log.take p)).1
  calling : ∀ i, ∀ call ∈ a.calling i, ∃ b, InProgress a sched tick call b
  distinct : ∀ i j, ∀ call ∈ a.calling i, ∀ call' ∈ a.calling j, call.op = call'.op → i = j

section Moves

variable {id : Fin m → Int64} {a a' : Sessions m} {sched sched' : Schedule}
  {tick tick' : Nat → Nat}

/-- The state at every tick of the log stays what it is. -/
theorem Explained.tick_state_grows (h : Explained a sched tick) {ops : List _} {clock : Nat}
    (hg : Grows kvMap a.ops sched a.clock ops sched' clock) :
    ∀ p < a.log.length, stateAt kvMap ops sched' (tick p) = view (replay (a.log.take p)).1 := by
  intro p hp
  rw [hg.stateAt_eq (Nat.le_of_lt (h.tick_lt p hp))]
  exact h.tick_state p hp

theorem Explained.idle (h : Explained a sched tick) :
    Explained { a with clock := a.clock + 1 } sched tick := by
  obtain ⟨hrec, hg⟩ := h.recorded.tick
  refine ⟨hrec, ?_, fun p hp => Nat.lt_succ_of_lt (h.tick_lt p hp), h.tick_state_grows hg,
    fun i call hcall => ?_, h.distinct⟩
  · rw [← h.state]
    exact stateAt_succ (h.recorded.future (Nat.le_refl _))
  · obtain ⟨b, hb⟩ := h.calling i call hcall
    exact ⟨b, hb.op, hb.pending, hb.input, hb.scheduled, hb.called⟩

theorem Explained.invoke (h : Explained a sched tick) (hwf : Wf id a)
    (hinj : Function.Injective id) {i : Fin m} {cmd : Op} (hclient : cmd.clientId = id i)
    (hseq : cmd.seq = a.seq i) : Explained (a.invoked i cmd) sched tick := by
  obtain ⟨hrec, hg⟩ := h.recorded.call cmd.input
  have hnotsched : ¬ sched.Scheduled a.ops.length := by
    rintro ⟨t, ht⟩
    obtain ⟨b, hb, -⟩ := h.recorded.owned ht
    have := (List.getElem?_eq_some_iff.mp hb).1
    omega
  have hnotin : cmd ∉ a.log := fun hmem => hwf.fresh hinj hclient hseq cmd hmem ⟨rfl, rfl⟩
  have hlt : ∀ j, ∀ call ∈ a.calling j, call.op < a.ops.length := by
    intro j call hcall
    obtain ⟨b, hb⟩ := h.calling j call hcall
    exact (List.getElem?_eq_some_iff.mp hb.op).1
  refine ⟨hrec, ?_, fun p hp => Nat.lt_succ_of_lt (h.tick_lt p hp), h.tick_state_grows hg,
    fun j call hcall => ?_, fun j j' call hcall call' hcall' heq => ?_⟩
  · show stateAt kvMap (called a.ops cmd.input a.clock) sched (a.clock + 1) = _
    rw [stateAt_succ (h.recorded.future (Nat.le_refl _)), hg.stateAt_eq (Nat.le_refl _)]
    exact h.state
  · by_cases hj : j = i
    · subst hj
      rw [invoked_calling_self] at hcall
      cases hcall
      refine ⟨{ input := cmd.input, call := a.clock, result := none }, ?_, rfl, rfl, ?_, ?_⟩
      · simp [invoked, called]
      · constructor
        · exact fun hs => absurd hs hnotsched
        · exact fun hex => absurd hex.2 hnotin
      · exact fun p hp => absurd (List.mem_of_getElem? hp) hnotin
    · rw [invoked_calling_of_ne a i cmd hj] at hcall
      obtain ⟨b, hb⟩ := h.calling j call hcall
      refine ⟨b, ?_, hb.pending, hb.input, hb.scheduled, hb.called⟩
      show (History.called a.ops cmd.input a.clock)[call.op]? = some b
      rw [getElem?_called_of_lt (hlt j call hcall)]
      exact hb.op
  · by_cases hj : j = i
    · by_cases hj' : j' = i
      · rw [hj, hj']
      · rw [hj, invoked_calling_self] at hcall
        rw [invoked_calling_of_ne a i cmd hj'] at hcall'
        cases hcall
        have := hlt j' call' hcall'
        have heq' : a.ops.length = call'.op := heq
        omega
    · rw [invoked_calling_of_ne a i cmd hj] at hcall
      by_cases hj' : j' = i
      · rw [hj', invoked_calling_self] at hcall'
        cases hcall'
        have := hlt j call hcall
        have heq' : call.op = a.ops.length := heq
        omega
      · rw [invoked_calling_of_ne a i cmd hj'] at hcall'
        exact h.distinct j j' call hcall call' hcall' heq

/-- A command enters the log, and the schedule says whether it takes effect. -/
theorem Explained.committed (h : Explained a sched tick) {x : Op}
    (hrec : Recorded kvMap a.ops sched' (a.clock + 1))
    (hg : Grows kvMap a.ops sched a.clock a.ops sched' (a.clock + 1))
    (hstate : stateAt kvMap a.ops sched' (a.clock + 1) = view (replay (a.log ++ [x])).1)
    (hsched : ∀ i, ∀ call ∈ a.calling i, (sched'.Scheduled call.op ↔
      call.cmd.opType ≠ .get ∧ call.cmd ∈ a.log ++ [x])) :
    Explained (a.committed x) sched' (Function.update tick a.log.length a.clock) := by
  have hcases : ∀ p < (a.log ++ [x]).length, p < a.log.length ∨ p = a.log.length := by
    intro p hp
    rw [List.length_append, List.length_singleton] at hp
    omega
  refine ⟨hrec, hstate, fun p hp => ?_, fun p hp => ?_, fun i call hcall => ?_, h.distinct⟩
  · show _ < a.clock + 1
    rcases hcases p hp with hlt | rfl
    · rw [Function.update_of_ne (by omega)]
      exact Nat.lt_succ_of_lt (h.tick_lt p hlt)
    · rw [Function.update_self]
      omega
  · show stateAt kvMap a.ops sched' _ = view (replay ((a.log ++ [x]).take p)).1
    rcases hcases p hp with hlt | rfl
    · rw [Function.update_of_ne (by omega), List.take_append_of_le_length (Nat.le_of_lt hlt)]
      exact h.tick_state_grows hg p hlt
    · rw [Function.update_self, List.take_left, hg.stateAt_eq (Nat.le_refl _)]
      exact h.state
  · obtain ⟨b, hb⟩ := h.calling i call hcall
    refine ⟨b, hb.op, hb.pending, hb.input, hsched i call hcall, fun p hp => ?_⟩
    rcases hcases p (List.getElem?_eq_some_iff.mp hp).1 with hlt | rfl
    · rw [Function.update_of_ne (by omega)]
      refine hb.called p ?_
      rw [← hp]
      exact (List.getElem?_append_left hlt).symm
    · rw [Function.update_self]
      exact Nat.le_of_lt (h.recorded.past hb.op)

theorem Explained.commit (h : Explained a sched tick) (hwf : Wf id a)
    (hinj : Function.Injective id) {i : Fin m} {x : Op} (hx : IssuedBy id a i x) :
    ∃ sched', Explained (a.committed x) sched' (Function.update tick a.log.length a.clock) := by
  by_cases hquiet : x ∈ a.log ∨ x.opType = .get
  · -- a copy or a read
    obtain ⟨hrec, hg⟩ := h.recorded.tick
    refine ⟨sched, h.committed hrec hg ?_ fun j call hcall => ?_⟩
    · have hsame : (replay (a.log ++ [x])).1 = (replay a.log).1 := by
        rcases hquiet with hmem | hget
        · rw [replay_concat_mem hmem]
        · exact replay_concat_get hget
      rw [stateAt_succ (h.recorded.future (Nat.le_refl _)), hsame]
      exact h.state
    · obtain ⟨b, hb⟩ := h.calling j call hcall
      rw [hb.scheduled, List.mem_append, List.mem_singleton]
      constructor
      · exact fun hw => ⟨hw.1, .inl hw.2⟩
      · rintro ⟨hw, hmem | rfl⟩
        · exact ⟨hw, hmem⟩
        · exact ⟨hw, hquiet.resolve_right hw⟩
  · -- the first copy of a write is the operation in progress
    rw [not_or] at hquiet
    obtain ⟨hnew, hw⟩ := hquiet
    rcases hx.progress with ⟨call, hcall, rfl⟩ | ⟨hmem, -⟩
    · obtain ⟨b, hb⟩ := h.calling i call hcall
      have hfree : ¬ sched.Scheduled call.op := fun hs => hnew (hb.scheduled.mp hs).2
      obtain ⟨hrec, hg, hnext, -⟩ := h.recorded.write hb.op hb.pending hfree
      have hinsert : Function.update sched a.clock [call.op] =
          Function.update sched a.clock (call.op :: sched a.clock) := by
        rw [h.recorded.future (Nat.le_refl _)]
      refine ⟨_, h.committed hrec hg ?_ fun j call' hcall' => ?_⟩
      · have hocc : ¬ Session.Occurs Op.clientId Op.seq a.log call.cmd := by
          rintro ⟨e, he, hsame⟩
          exact hnew (hx.unique e he hsame ▸ he)
        rw [hnext, h.state, hb.input, replay_concat_new (hwf.inOrder_commit hinj hx) hocc,
          view_execute]
      · rw [hinsert, Schedule.scheduled_insert, List.mem_append, List.mem_singleton]
        by_cases hj : j = i
        · subst hj
          rw [Option.mem_def.mp hcall] at hcall'
          cases hcall'
          exact ⟨fun _ => ⟨hw, .inr rfl⟩, fun _ => .inl rfl⟩
        · have hop : call'.op ≠ call.op := fun heq =>
            hj (h.distinct j i call' hcall' call hcall heq)
          have hcmd : call'.cmd ≠ call.cmd := by
            intro heq
            have hid := hwf.client j call' hcall'
            rw [heq, hwf.client i call hcall] at hid
            exact hj (hinj hid.symm)
          obtain ⟨b', hb'⟩ := h.calling j call' hcall'
          rw [hb'.scheduled]
          simp [hop, hcmd]
    · exact absurd hmem hnew

theorem Explained.ret (h : Explained a sched tick) {i : Fin m} {call : Pending} {p : Nat}
    {out : Str} (hcall : a.calling i = some call) (hp : a.log[p]? = some call.cmd)
    (hout : call.cmd.opType = .get →
      out = Request.shown (((replay (a.log.take p)).1 call.cmd.key).getD errNoKey) ∧
      Unmarked (replay (a.log.take p)).1 call.cmd.key) :
    ∃ sched', Explained (a.answered i call out) sched' tick := by
  obtain ⟨b, hb⟩ := h.calling i call hcall
  have hlt := (List.getElem?_eq_some_iff.mp hp).1
  have hgetOp : b.input.op = .get ↔ call.cmd.opType = .get := by
    rw [hb.input, Op.input_op_get]
  have hanswer : Answers a.ops sched a.clock call.op b { value := out } := by
    by_cases hget : call.cmd.opType = .get
    · obtain ⟨hval, hclean⟩ := hout hget
      refine .inl ⟨hgetOp.mpr hget, tick p, hb.called p hp, h.tick_lt p hlt, ?_⟩
      rw [kvMap_ok_get (hgetOp.mpr hget), h.tick_state p hlt, hb.input, hval, hclean.shown_eq]
      rfl
    · obtain ⟨s, hs⟩ := h.recorded.placed
        (hb.scheduled.mpr ⟨hget, List.mem_of_getElem? hp⟩)
      refine .inr ⟨s, hs, kvMap_ok_put ?_ s _⟩
      rw [hb.input]
      exact Op.input_op_write hget
  have hfree : b.input.op = .get → ¬ sched.Scheduled call.op := fun hget hs =>
    (hb.scheduled.mp hs).1 (hgetOp.mp hget)
  obtain ⟨sched', hrec, hg, hsched, hstate⟩ := hanswer.ret h.recorded hb.op hb.pending hfree
  refine ⟨sched', hrec, hstate.trans h.state, fun p hp => Nat.lt_succ_of_lt (h.tick_lt p hp),
    h.tick_state_grows hg, fun j call' hcall' => ?_, fun j j' c hc c' hc' => ?_⟩
  · obtain ⟨hj, hcall'⟩ := mem_answered_calling a i call out hcall'
    have hne : call'.op ≠ call.op := fun heq => hj (h.distinct j i call' hcall' call hcall heq)
    obtain ⟨b', hb'⟩ := h.calling j call' hcall'
    refine ⟨b', ?_, hb'.pending, hb'.input, (hsched _ hne).trans hb'.scheduled, hb'.called⟩
    show (returned a.ops call.op { value := out } a.clock)[call'.op]? = some b'
    rw [getElem?_returned_ne a.ops hne]
    exact hb'.op
  · exact h.distinct j j' c (mem_answered_calling a i call out hc).2 c'
      (mem_answered_calling a i call out hc').2

theorem Explained.move (h : Explained a sched tick) (hwf : Wf id a)
    (hinj : Function.Injective id) (hm : Move Unmarked id a a') :
    ∃ sched' tick', Explained a' sched' tick' := by
  cases hm with
  | tick => exact ⟨sched, tick, h.idle⟩
  | invoke i cmd hidle hclient hseq => exact ⟨sched, tick, h.invoke hwf hinj hclient hseq⟩
  | commit i x hx =>
      obtain ⟨sched', h'⟩ := h.commit hwf hinj hx
      exact ⟨sched', _, h'⟩
  | ret i call p out hcall hp hout =>
      obtain ⟨sched', h'⟩ := h.ret hcall hp hout
      exact ⟨sched', tick, h'⟩

theorem explained_start : Explained (start : Sessions m) (fun _ => []) fun _ => 0 where
  recorded := Recorded.init kvMap
  state := rfl
  tick_lt := fun _ hp => absurd hp (Nat.not_lt_zero _)
  tick_state := fun _ hp => absurd hp (Nat.not_lt_zero _)
  calling := fun _ _ hc => by cases hc
  distinct := fun _ _ _ hc => by cases hc

theorem explained_run (hinj : Function.Injective id)
    (h : Relation.ReflTransGen (Move Unmarked id) start a) :
    ∃ sched tick, Explained a sched tick := by
  induction h with
  | refl => exact ⟨_, _, explained_start⟩
  | tail hrun hm ih =>
      obtain ⟨sched, tick, hexp⟩ := ih
      exact hexp.move (Wf.run hinj hrun) hinj hm

end Moves
end Sessions
end KvRaft
end Labs
