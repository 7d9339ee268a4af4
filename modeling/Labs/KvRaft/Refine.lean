import Labs.KvRaft.Replica
import Labs.KvRaft.Linear

/-!
# The service refines the sessions

What the clerks and the log do, seen without the servers, is a run of `Sessions`.  A
handler starts only commands that a clerk has issued, and a clerk accepts only a reply to
its last call, which the servers justify by an entry of the log.  So the effects are those
of the first copies, and the calls are linearizable as long as no `Get` is applied where
the stored value is the string that stands for a missing key.
-/

namespace Labs
namespace KvRaft

open Models History

def Call.pending (call : Call) : Pending where
  op := call.op
  cmd := call.request.cmd

namespace System

variable {n m : Nat} {clean : (Str → Option Str) → Str → Prop} {id : Fin m → Int64}
  {w w' : System n m}

def sessions (w : System n m) : Sessions m where
  log := w.log
  seq := fun i => (w.clerks i).seq
  calling := fun i => (w.clerks i).calling.map Call.pending
  ops := w.ops
  clock := w.clock

/-- The calls to servers that are on their way, handled or answered. -/
def rpcs (w : System n m) : List (Rpc n m) :=
  w.requests ++ (w.waiting.map Handler.rpc ++ w.replies.map Response.rpc)

theorem forall_rpcs {P : Rpc n m → Prop} : (∀ rpc ∈ w.rpcs, P rpc) ↔
    (∀ rpc ∈ w.requests, P rpc) ∧ (∀ h ∈ w.waiting, P h.rpc) ∧ ∀ r ∈ w.replies, P r.rpc := by
  rw [rpcs, List.forall_mem_append, List.forall_mem_append, List.forall_mem_map,
    List.forall_mem_map]

theorem rpcs_self : (∀ rpc ∈ w.requests, rpc ∈ w.rpcs) ∧ (∀ h ∈ w.waiting, h.rpc ∈ w.rpcs) ∧
    ∀ r ∈ w.replies, r.rpc ∈ w.rpcs :=
  forall_rpcs.mp fun _ h => h

/-! ## Steps of the servers and of Raft -/

/-- What a step does to the clerks' side if it is not the step of a clerk. -/
structure Quiet (w w' : System n m) : Prop where
  clerks : w'.clerks = w.clerks
  calls : w'.calls = w.calls
  ops : w'.ops = w.ops
  clock : w'.clock = w.clock + 1
  log : w'.log = w.log ∨ ∃ s ∈ w.started, w'.log = w.log ++ [s.2]
  started : ∀ s ∈ w'.started, s ∈ w.started ∨ ∃ rpc ∈ w.rpcs, s.2 = rpc.request.cmd
  rpcs : ∀ rpc ∈ w'.rpcs, rpc ∈ w.rpcs

theorem quiet_deliver {k : Nat} {start : Option Nat} (hs : w.deliver k start = some w') :
    Quiet w w' := by
  obtain ⟨hreq, hwait, hrep⟩ := w.rpcs_self
  unfold System.deliver at hs
  split at hs
  · cases hs
  · next rpc hk =>
      cases hs
      have hrpc := hreq rpc (List.mem_of_getElem? hk)
      refine ⟨rfl, rfl, rfl, rfl, .inl rfl, fun s hs => .inl hs, forall_rpcs.mpr
        ⟨fun rpc' h => hreq rpc' (List.mem_of_mem_eraseIdx h), hwait, fun r hr => ?_⟩⟩
      rcases List.mem_append.mp hr with hold | hnew
      · exact hrep r hold
      · cases List.mem_singleton.mp hnew
        exact hrpc
  · next rpc index hk =>
      cases hs
      have hrpc := hreq rpc (List.mem_of_getElem? hk)
      refine ⟨rfl, rfl, rfl, rfl, .inl rfl, fun s hs => ?_, forall_rpcs.mpr
        ⟨fun rpc' h => hreq rpc' (List.mem_of_mem_eraseIdx h), fun h hh => ?_, hrep⟩⟩
      · rcases List.mem_append.mp hs with hold | hnew
        · exact .inl hold
        · cases List.mem_singleton.mp hnew
          exact .inr ⟨rpc, hrpc, rfl⟩
      · rcases List.mem_append.mp hh with hold | hnew
        · exact hwait h hold
        · cases List.mem_singleton.mp hnew
          exact hrpc

theorem quiet_commit {k : Nat} (hs : w.commit k = some w') : Quiet w w' := by
  rw [System.commit] at hs
  split at hs
  · cases hs
  · next index op hk =>
      split at hs
      · cases hs
        exact ⟨rfl, rfl, rfl, rfl, .inr ⟨_, List.mem_of_getElem? hk, rfl⟩, fun s hs => .inl hs,
          fun _ h => h⟩
      · cases hs

theorem quiet_turn {i : Fin (n + 1)} {size : Int} {msg : ApplyMsg}
    (hs : w.turn i size msg = some w') : Quiet w w' := by
  rw [System.turn] at hs
  split at hs
  · cases hs
  · cases hs
    exact ⟨rfl, rfl, rfl, rfl, .inl rfl, fun s hs => .inl hs, fun _ h => h⟩

theorem quiet_apply {i : Fin (n + 1)} {size : Int} (hs : w.apply i size = some w') :
    Quiet w w' := by
  rw [System.apply] at hs
  split at hs
  · cases hs
  · exact quiet_turn hs

theorem quiet_install {i : Fin (n + 1)} {k : Nat} (hs : w.install i k = some w') :
    Quiet w w' := by
  rw [System.install] at hs
  split at hs
  · cases hs
  · exact quiet_turn hs

theorem quiet_notify {i : Fin (n + 1)} (hs : w.notify i = some w') : Quiet w w' := by
  rw [System.notify] at hs
  split at hs
  · cases hs
  · cases hs
    exact ⟨rfl, rfl, rfl, rfl, .inl rfl, fun s hs => .inl hs, fun _ h => h⟩

/-- A handler answers and is gone. -/
theorem rpcs_respond {k : Nat} {h : Handler n m} {reply : Reply} (hk : w.waiting[k]? = some h)
    (hreq : w'.requests = w.requests) (hwait : w'.waiting = w.waiting.eraseIdx k)
    (hrep : w'.replies = w.replies ++ [{ rpc := h.rpc, reply := reply }]) :
    ∀ rpc ∈ w'.rpcs, rpc ∈ w.rpcs := by
  obtain ⟨hreq₀, hwait₀, hrep₀⟩ := w.rpcs_self
  rw [forall_rpcs, hreq, hwait, hrep]
  refine ⟨hreq₀, fun h' hh' => hwait₀ h' (List.mem_of_mem_eraseIdx hh'), fun r hr => ?_⟩
  rcases List.mem_append.mp hr with hold | hnew
  · exact hrep₀ r hold
  · cases List.mem_singleton.mp hnew
    exact hwait₀ h (List.mem_of_getElem? hk)

theorem quiet_wake {k : Nat} (hs : w.wake k = some w') : Quiet w w' := by
  rw [System.wake] at hs
  split at hs
  · cases hs
  · next h hk =>
      split at hs
      · cases hs
      · cases hs
        exact ⟨rfl, rfl, rfl, rfl, .inl rfl, fun s hs => .inl hs,
          rpcs_respond hk rfl rfl rfl⟩

theorem quiet_timeout {k : Nat} (hs : w.timeout k = some w') : Quiet w w' := by
  rw [System.timeout] at hs
  split at hs
  · cases hs
  · next h hk =>
      cases hs
      exact ⟨rfl, rfl, rfl, rfl, .inl rfl, fun s hs => .inl hs, rpcs_respond hk rfl rfl rfl⟩

theorem quiet_restart (i : Fin (n + 1)) (persisted : Option Nat) :
    Quiet w (w.restart i persisted) := by
  obtain ⟨hreq, hwait, hrep⟩ := w.rpcs_self
  exact ⟨rfl, rfl, rfl, rfl, .inl rfl, fun s hs => .inl hs, forall_rpcs.mpr
    ⟨hreq, fun h hh => hwait h (List.mem_of_mem_filter hh), hrep⟩⟩

/-! ## What is on its way -/

/-- A call to a server carries a command of its clerk, and if it is the last one, the
operation in progress. -/
structure Sent (id : Fin m → Int64) (w : System n m) (rpc : Rpc n m) : Prop where
  number_lt : rpc.number < w.calls
  issued : w.sessions.IssuedBy id rpc.src rpc.request.cmd
  current : ∀ call ∈ (w.clerks rpc.src).calling, (w.clerks rpc.src).number = rpc.number →
    rpc.request = call.request

structure InFlight (id : Fin m → Int64) (w : System n m) : Prop where
  clerk_id : ∀ i, (w.clerks i).id = id i
  started : ∀ s ∈ w.started, ∃ i, w.sessions.IssuedBy id i s.2
  sent : ∀ rpc ∈ w.rpcs, Sent id w rpc

structure Inv (clean : (Str → Option Str) → Str → Prop) (id : Fin m → Int64)
    (w : System n m) : Prop where
  replicated : Replicated clean w
  inFlight : InFlight id w
  wf : w.sessions.Wf id

/-- A clerk that still waits for an old call is as it was. -/
theorem Sent.step {rpc : Rpc n m} (h : Sent id w rpc) (hinj : Function.Injective id)
    (hm : Sessions.Move clean id w.sessions w'.sessions) (hcalls : w.calls ≤ w'.calls)
    (hck : ∀ call ∈ (w'.clerks rpc.src).calling, (w'.clerks rpc.src).number < w.calls →
      w'.clerks rpc.src = w.clerks rpc.src) : Sent id w' rpc := by
  refine ⟨Nat.lt_of_lt_of_le h.number_lt hcalls, h.issued.move hinj hm,
    fun call hcall hnum => ?_⟩
  have heq := hck call hcall (by rw [hnum]; exact h.number_lt)
  rw [heq] at hcall hnum
  exact h.current call hcall hnum

theorem InFlight.quiet (h : InFlight id w) (hinj : Function.Injective id) (hq : Quiet w w')
    (hm : Sessions.Move clean id w.sessions w'.sessions) : InFlight id w' := by
  refine ⟨fun i => ?_, fun s hs => ?_, fun rpc hrpc => ?_⟩
  · rw [hq.clerks]
    exact h.clerk_id i
  · rcases hq.started s hs with hold | ⟨rpc, hrpc, heq⟩
    · obtain ⟨i, hi⟩ := h.started s hold
      exact ⟨i, hi.move hinj hm⟩
    · rw [heq]
      exact ⟨rpc.src, (h.sent rpc hrpc).issued.move hinj hm⟩
  · refine (h.sent rpc (hq.rpcs rpc hrpc)).step hinj hm (Nat.le_of_eq hq.calls.symm) ?_
    intro _ _ _
    rw [hq.clerks]

theorem Quiet.move (hq : Quiet w w') (h : InFlight id w) :
    Sessions.Move clean id w.sessions w'.sessions := by
  rcases hq.log with hlog | ⟨s, hs, hlog⟩
  · have heq : w'.sessions = { w.sessions with clock := w.sessions.clock + 1 } := by
      simp only [sessions, hlog, hq.clerks, hq.ops, hq.clock]
    rw [heq]
    exact .tick
  · obtain ⟨i, hi⟩ := h.started s hs
    have heq : w'.sessions = w.sessions.committed s.2 := by
      simp only [sessions, Sessions.committed, hlog, hq.clerks, hq.ops, hq.clock]
    rw [heq]
    exact .commit i s.2 hi

/-- What the step of a server or of Raft keeps. -/
theorem Inv.quiet (h : Inv clean id w) (hinj : Function.Injective id) (hq : Quiet w w')
    (hrep : Replicated clean w') :
    Sessions.Move clean id w.sessions w'.sessions ∧ Inv clean id w' := by
  have hm : Sessions.Move clean id w.sessions w'.sessions := hq.move h.inFlight
  exact ⟨hm, hrep, h.inFlight.quiet hinj hq hm, h.wf.move hinj hm⟩

/-! ## Steps of the clerks -/

theorem sessions_transmit (w : System n m) (i : Fin m) (ck : Clerk n) (request : Request) :
    (w.transmit i ck request).sessions =
      { w.sessions with
        seq := Function.update w.sessions.seq i ck.seq
        calling := Function.update w.sessions.calling i (ck.calling.map Call.pending)
        clock := w.clock + 1 } := by
  have hseq : (fun j => ((w.transmit i ck request).clerks j).seq) =
      Function.update w.sessions.seq i ck.seq := by
    funext j
    by_cases hj : j = i
    · subst hj
      simp [transmit]
    · simp [transmit, sessions, hj]
  have hcalling : (fun j => ((w.transmit i ck request).clerks j).calling.map Call.pending) =
      Function.update w.sessions.calling i (ck.calling.map Call.pending) := by
    funext j
    by_cases hj : j = i
    · subst hj
      simp [transmit]
    · simp [transmit, sessions, hj]
  show Sessions.mk _ _ _ _ _ = _
  rw [hseq, hcalling]
  rfl

/-- A clerk calls a server for the operation in progress. -/
theorem Inv.transmit (h : Inv clean id w) (hinj : Function.Injective id)
    {ops : List (Operation KvInput KvOutput)} {i : Fin m} {ck : Clerk n} {call : Call}
    (hm : Sessions.Move clean id w.sessions
      ({ w with ops := ops }.transmit i ck call.request).sessions)
    (hid : ck.id = id i) (hcalling : ck.calling = some call) :
    Inv clean id ({ w with ops := ops }.transmit i ck call.request) := by
  have hwf := h.wf.move hinj hm
  have hself : ({ w with ops := ops }.transmit i ck call.request).clerks i =
      { ck with number := w.calls } := Function.update_self ..
  have hother : ∀ j ≠ i, ({ w with ops := ops }.transmit i ck call.request).clerks j =
      w.clerks j := fun j hj => Function.update_of_ne hj ..
  have hcur : call.pending ∈
      ({ w with ops := ops }.transmit i ck call.request).sessions.calling i := by
    rw [sessions_transmit]
    simp [hcalling]
  -- whatever was sent before is not the last call any more
  have hold : ∀ rpc ∈ w.rpcs,
      Sent id ({ w with ops := ops }.transmit i ck call.request) rpc := by
    intro rpc hrpc
    refine (h.inFlight.sent rpc hrpc).step hinj hm (Nat.le_succ _) fun _ _ hlt => ?_
    by_cases hj : rpc.src = i
    · rw [hj, hself] at hlt
      exact absurd hlt (Nat.lt_irrefl _)
    · exact hother _ hj
  obtain ⟨hreq, hwait, hrep⟩ := forall_rpcs.mp hold
  refine ⟨⟨h.replicated.servers, h.replicated.snapshots, h.replicated.replies⟩,
    ⟨fun j => ?_, fun s hs => ?_, forall_rpcs.mpr ⟨fun rpc hrpc => ?_, hwait, hrep⟩⟩, hwf⟩
  · by_cases hj : j = i
    · rw [hj, hself]
      exact hid
    · rw [hother j hj]
      exact h.inFlight.clerk_id j
  · obtain ⟨j, hj⟩ := h.inFlight.started s hs
    exact ⟨j, hj.move hinj hm⟩
  · rcases List.mem_append.mp hrpc with hprev | hnew
    · exact hreq rpc hprev
    · cases List.mem_singleton.mp hnew
      refine ⟨Nat.lt_succ_self _, hwf.issuedBy_call hinj hcur, fun call' hcall' _ => ?_⟩
      rw [hself, hcalling] at hcall'
      cases hcall'
      rfl

theorem request_cmd (ck : Clerk n) (opType : OpType) (key value : Str) :
    (ck.request opType key value).cmd.clientId = ck.id ∧
    (ck.request opType key value).cmd.seq = ck.seq := by
  cases opType <;> exact ⟨rfl, rfl⟩

theorem Inv.invoke (h : Inv clean id w) (hinj : Function.Injective id) {i : Fin m}
    {opType : OpType} {key value : Str} (hs : w.invoke i opType key value = some w') :
    Sessions.Move clean id w.sessions w'.sessions ∧ Inv clean id w' := by
  rw [System.invoke] at hs
  split at hs
  · cases hs
  · next hidle =>
      cases hs
      obtain ⟨hclient, hseq⟩ := request_cmd (w.clerks i) opType key value
      rw [h.inFlight.clerk_id] at hclient
      have hnone : w.sessions.calling i = none := congrArg (Option.map Call.pending) hidle
      suffices hm : Sessions.Move clean id w.sessions _ from
        ⟨hm, h.transmit hinj hm (h.inFlight.clerk_id i) rfl⟩
      rw [sessions_transmit]
      exact .invoke i ((w.clerks i).request opType key value).cmd hnone hclient hseq

theorem Inv.retry (h : Inv clean id w) (hinj : Function.Injective id) {i : Fin m}
    (hs : w.retry i = some w') :
    Sessions.Move clean id w.sessions w'.sessions ∧ Inv clean id w' := by
  rw [System.retry] at hs
  split at hs
  · cases hs
  · next call hcall =>
      cases hs
      suffices hm : Sessions.Move clean id w.sessions _ from
        ⟨hm, h.transmit hinj hm (h.inFlight.clerk_id i) hcall⟩
      rw [sessions_transmit]
      show Sessions.Move clean id w.sessions
        { w.sessions with
          seq := Function.update w.sessions.seq i (w.sessions.seq i)
          calling := Function.update w.sessions.calling i (w.sessions.calling i)
          clock := w.sessions.clock + 1 }
      rw [Function.update_eq_self, Function.update_eq_self]
      exact .tick

/-- A reply that is not wanted is dropped. -/
theorem Inv.drop (h : Inv clean id w) (k : Nat) :
    Inv clean id { w with replies := w.replies.eraseIdx k } := by
  obtain ⟨hreq, hwait, hrep⟩ := forall_rpcs.mp h.inFlight.sent
  refine ⟨⟨h.replicated.servers, h.replicated.snapshots, fun r hr =>
    h.replicated.replies r (List.mem_of_mem_eraseIdx hr)⟩,
    ⟨h.inFlight.clerk_id, h.inFlight.started, ?_⟩, h.wf⟩
  have hsent : ∀ rpc, Sent id w rpc → Sent id { w with replies := w.replies.eraseIdx k } rpc :=
    fun rpc hs => ⟨hs.number_lt, hs.issued, hs.current⟩
  exact forall_rpcs.mpr ⟨fun rpc hr => hsent rpc (hreq rpc hr),
    fun hd hh => hsent _ (hwait hd hh),
    fun r hr => hsent _ (hrep r (List.mem_of_mem_eraseIdx hr))⟩

theorem sessions_finish (w : System n m) (i : Fin m) (call : Call) (value : Str) :
    (w.finish i call value).sessions = w.sessions.answered i call.pending value := by
  have hseq : (fun j => ((w.finish i call value).clerks j).seq) = w.sessions.seq := by
    funext j
    by_cases hj : j = i
    · subst hj
      simp [finish, sessions]
    · simp [finish, sessions, hj]
  have hcalling : (fun j => ((w.finish i call value).clerks j).calling.map Call.pending) =
      Function.update w.sessions.calling i none := by
    funext j
    by_cases hj : j = i
    · subst hj
      simp [finish]
    · simp [finish, sessions, hj]
  show Sessions.mk _ _ _ _ _ = _
  rw [hseq, hcalling]
  rfl

/-- An operation returns what an entry of the log justifies. -/
theorem Inv.finish (h : Inv clean id w) (hinj : Function.Injective id) {i : Fin m} {call : Call}
    {value : Str} (hcall : (w.clerks i).calling = some call)
    (hanswer : Answer clean w.log call.request.cmd value) :
    Sessions.Move clean id w.sessions (w.finish i call value).sessions ∧
      Inv clean id (w.finish i call value) := by
  have hpending : w.sessions.calling i = some call.pending :=
    congrArg (Option.map Call.pending) hcall
  obtain ⟨p, e, hp, hsame, hread⟩ := hanswer
  have he : e = call.request.cmd :=
    (h.wf.issuedBy_call hinj hpending).unique e (List.mem_of_getElem? hp) hsame
  subst he
  have hm : Sessions.Move clean id w.sessions (w.finish i call value).sessions := by
    rw [sessions_finish]
    exact .ret i call.pending p value hpending hp fun hget => hread hget hget
  have hself : (w.finish i call value).clerks i = { w.clerks i with calling := none } :=
    Function.update_self ..
  have hother : ∀ j ≠ i, (w.finish i call value).clerks j = w.clerks j :=
    fun j hj => Function.update_of_ne hj ..
  refine ⟨hm, ⟨h.replicated.servers, h.replicated.snapshots, h.replicated.replies⟩,
    ⟨fun j => ?_, fun s hs => ?_, fun rpc hrpc => ?_⟩, h.wf.move hinj hm⟩
  · by_cases hj : j = i
    · rw [hj, hself]
      exact h.inFlight.clerk_id i
    · rw [hother j hj]
      exact h.inFlight.clerk_id j
  · obtain ⟨j, hj⟩ := h.inFlight.started s hs
    exact ⟨j, hj.move hinj hm⟩
  · refine (h.inFlight.sent rpc hrpc).step hinj hm (Nat.le_refl _) fun c hc _ => ?_
    by_cases hj : rpc.src = i
    · rw [hj, hself] at hc
      cases hc
    · exact hother _ hj

theorem Inv.receive (h : Inv clean id w) (hinj : Function.Injective id) {k : Nat}
    (hs : w.receive k = some w') :
    Sessions.Move clean id w.sessions w'.sessions ∧ Inv clean id w' := by
  rw [System.receive] at hs
  split at hs
  · cases hs
  · next r hk =>
      split at hs
      · cases hs
      · next call hcall =>
          split at hs
          · next hnum =>
              split at hs
              · next value hvalue =>
                  cases hs
                  have hmem := List.mem_of_getElem? hk
                  have hsent := h.inFlight.sent r.rpc (w.rpcs_self.2.2 r hmem)
                  have hrequest := hsent.current call hcall hnum
                  have hanswer := h.replicated.replies r hmem value (hrequest ▸ hvalue)
                  exact (h.drop k).finish hinj hcall (hrequest ▸ hanswer)
              · exact (h.drop k).retry hinj hs
          · cases hs

/-- A step of the service is a move of the sessions. -/
theorem Inv.step (h : Inv clean id w) (hinj : Function.Injective id) {act : Action n m}
    (hok : Reads clean w act) (hs : w.step act = some w') :
    Sessions.Move clean id w.sessions w'.sessions ∧ Inv clean id w' := by
  have hrep := h.replicated
  cases act with
  | invoke i opType key value => exact h.invoke hinj hs
  | retry i => exact h.retry hinj hs
  | deliver k start => exact h.quiet hinj (quiet_deliver hs) (hrep.deliver hs)
  | commit k => exact h.quiet hinj (quiet_commit hs) (hrep.commit hs)
  | apply i size => exact h.quiet hinj (quiet_apply hs) (hrep.apply hok hs)
  | install i k => exact h.quiet hinj (quiet_install hs) (hrep.install hs)
  | notify i => exact h.quiet hinj (quiet_notify hs) (hrep.notify hs)
  | wake k => exact h.quiet hinj (quiet_wake hs) (hrep.wake hs)
  | timeout k => exact h.quiet hinj (quiet_timeout hs) (hrep.timeout hs)
  | receive k => exact h.receive hinj hs
  | restart i persisted =>
      cases hs
      exact h.quiet hinj (quiet_restart i persisted) (hrep.restart i persisted)

theorem inv_init (maxraftstate : Int) (id : Fin m → Int64) :
    Inv clean id (init maxraftstate id : System n m) where
  replicated := replicated_init maxraftstate id
  inFlight := ⟨fun _ => rfl, fun _ hs => (by cases hs), fun _ hr => (by cases hr)⟩
  wf := Sessions.wf_start id

/-- Every run of the service is a run of the sessions. -/
theorem refines (hinj : Function.Injective id) {maxraftstate : Int}
    (hp : Run.Path step (Reads clean) (init maxraftstate id) w) :
    Inv clean id w ∧
      Relation.ReflTransGen (Sessions.Move clean id) Sessions.start w.sessions := by
  refine hp.invariant (P := fun w => Inv clean id w ∧
    Relation.ReflTransGen (Sessions.Move clean id) Sessions.start w.sessions)
    (fun w act w' h hok hs => ?_) ⟨inv_init maxraftstate id, .refl⟩
  obtain ⟨hm, hinv⟩ := h.1.step hinj hok hs
  exact ⟨hinv, h.2.tail hm⟩

end System
end KvRaft
end Labs
