import Labs.KvSrv.Service
import Labs.Session
import Mathlib.Data.Nat.Basic

/-!
# Every write is executed once

The writes delivered to the single server are a log with copies in it: a retransmission, or
an old request that arrives late.  A clerk has one operation at a time, so a request that
is delivered for the first time has a higher number than all its clerk had delivered
before, although the numbers in between may belong to reads, which are not numbered on the
wire.  So the server executes the first copies and nothing else, and its handlers never
wait, whatever `pending` is asked for.
-/

namespace Labs
namespace KvSrv

open Models

inductive Write where
  | put (args : PutAppendArgs)
  | append (args : PutAppendArgs)
  deriving DecidableEq, Repr

namespace Write

def args : Write → PutAppendArgs
  | .put args => args
  | .append args => args

def clientId (x : Write) : Int64 := x.args.clientId

def seq (x : Write) : Nat := x.args.seq

abbrev Same (x y : Write) : Prop := Session.Same clientId seq x y

/-- The effect of a write that is executed. -/
def execute (kv : Str → Str) : Write → Str → Str
  | .put args => Function.update kv args.key args.value
  | .append args => Function.update kv args.key (kv args.key ++ args.value)

end Write

def Request.write : Request → Option Write
  | .get _ => none
  | .put args => some (.put args)
  | .append args => some (.append args)

/-! ## The server -/

namespace KVServer

variable {srv srv' : KVServer} {request : Request} {value : Str}

theorem Writes.filterStep {x : Write} {new : Str}
    (hnew : ¬ srv.Executed x.clientId x.seq) (hw : Writes srv x.args new srv')
    (heffect : Function.update srv.kv x.args.key new = Write.execute srv.kv x) :
    (srv'.kv, srv'.requestCache) = Session.filterStep Write.clientId Write.seq Write.execute
      (srv.kv, srv.requestCache) x := by
  have hunmarked : ¬ Session.Marked Write.clientId Write.seq srv.requestCache x := hnew
  rw [Session.filterStep, if_neg hunmarked, hw.kv, hw.requestCache, heffect]
  rfl

/-- A handler of a write passes it through the filter. -/
theorem serve_write {x : Write} (hx : request.write = some x)
    (h : srv.serve request = some (srv', value)) :
    (srv'.kv, srv'.requestCache) = Session.filterStep Write.clientId Write.seq Write.execute
      (srv.kv, srv.requestCache) x ∧
    ∀ key, srv.pending key = false → srv'.pending key = false := by
  cases request with
  | get args => cases hx
  | put args =>
      cases hx
      rcases put_cases h with ⟨hex, rfl⟩ | ⟨hnew, hw⟩
      · exact ⟨(if_pos hex).symm, fun _ hkey => hkey⟩
      · exact ⟨Writes.filterStep (x := .put args) hnew hw rfl, hw.pending⟩
  | append args =>
      cases hx
      rcases append_cases h with ⟨hex, rfl, -⟩ | ⟨hnew, -, hw⟩
      · exact ⟨(if_pos hex).symm, fun _ hkey => hkey⟩
      · exact ⟨Writes.filterStep (x := .append args) hnew hw rfl, hw.pending⟩

theorem serve_read (hx : request.write = none) (h : srv.serve request = some (srv', value)) :
    srv' = srv := by
  cases request with
  | get args =>
      cases h
      rfl
  | put args => cases hx
  | append args => cases hx

/-- No handler waits while no key is pending. -/
theorem serve_isSome (h : ∀ key, srv.pending key = false) (request : Request) :
    (srv.serve request).isSome = true := by
  cases request with
  | get args => rfl
  | put args =>
      simp only [serve, put, h, Bool.false_eq_true, if_false]
      split <;> rfl
  | append args =>
      simp only [serve, append, h, Bool.false_eq_true, if_false]
      split <;> rfl

end KVServer

/-! ## The service -/

namespace Service

variable {n : Nat} {id : Fin n → Int64} {w w' : Service n} {i : Fin n} {x y : Write}

/-! ## Numbers in order -/

/-- The writes delivered so far, with the copies. -/
def delivered (w : Service n) : List Write := w.served.filterMap fun e => e.1.write

/-- The writes that the server has executed, in this order. -/
def executed (w : Service n) : List Write := Session.firsts Write.clientId Write.seq w.delivered

/-- A write of clerk `i`: that of its operation in progress, or an older one, which was
delivered. -/
structure IssuedBy (w : Service n) (i : Fin n) (x : Write) : Prop where
  client : x.clientId = (w.clerks i).id
  unique : ∀ e ∈ w.delivered, Write.Same e x → e = x
  progress : (x.seq = (w.clerks i).seq ∧
      ∃ call ∈ (w.clerks i).calling, call.request.write = some x) ∨
    x ∈ w.delivered ∧ x.seq < (w.clerks i).seq

theorem IssuedBy.eq (hx : IssuedBy w i x) (hy : IssuedBy w i y) (h : Write.Same x y) :
    x = y := by
  rcases hx.progress with ⟨hseq, call, hcall, hwrite⟩ | ⟨hmem, -⟩
  · rcases hy.progress with ⟨-, call', hcall', hwrite'⟩ | ⟨-, hlt⟩
    · rw [Option.mem_def.mp hcall] at hcall'
      cases hcall'
      exact Option.some.inj (hwrite.symm.trans hwrite')
    · have hnumber : x.seq = y.seq := h.2
      omega
  · exact hy.unique x hmem h

structure Numbered (id : Fin n → Int64) (w : Service n) : Prop where
  clerk_id : ∀ i, (w.clerks i).id = id i
  pending : ∀ key, w.srv.pending key = false
  store : (w.srv.kv, w.srv.requestCache) =
    Session.filtered Write.clientId Write.seq Write.execute (fun _ => []) w.delivered
  inOrder : Session.InOrder Write.clientId Write.seq w.delivered
  delivered : ∀ x ∈ w.delivered, ∃ i, IssuedBy w i x
  calling : ∀ i, ∀ call ∈ (w.clerks i).calling, call.number < w.calls ∧
    ∀ x, call.request.write = some x → x.clientId = id i ∧ x.seq = (w.clerks i).seq
  requests : ∀ m ∈ w.requests, m.number < w.calls ∧
    (∀ x, m.request.write = some x → IssuedBy w m.src x) ∧
    ∀ call ∈ (w.clerks m.src).calling, call.number = m.number → m.request = call.request
  replies : ∀ r ∈ w.replies, r.number < w.calls ∧
    ∀ call ∈ (w.clerks r.src).calling, call.number = r.number →
      ∀ x, call.request.write = some x → x ∈ w.delivered

namespace Numbered

theorem init (id : Fin n → Int64) : Numbered id (init id) where
  clerk_id := fun _ => rfl
  pending := fun _ => rfl
  store := rfl
  inOrder := fun pre x hpre => by simp [Service.delivered, Service.init] at hpre
  delivered := fun _ hx => by cases hx
  calling := fun _ _ hc => by cases hc
  requests := fun _ hm => by cases hm
  replies := fun _ hr => by cases hr

/-- The map is what the executed writes give. -/
theorem kv_eq (h : Numbered id w) : w.srv.kv = w.executed.foldl Write.execute fun _ => [] := by
  rw [executed, ← h.inOrder.filtered_eq, ← h.store]

/-- A write that was delivered was issued by the clerk whose id it has. -/
theorem issuedBy (h : Numbered id w) (hinj : Function.Injective id) (hx : x ∈ w.delivered)
    (hclient : x.clientId = id i) : IssuedBy w i x := by
  obtain ⟨j, hj⟩ := h.delivered x hx
  have hji : j = i := hinj ((h.clerk_id j).symm.trans (hj.client.symm.trans hclient))
  exact hji ▸ hj

/-- The numbers delivered do not pass that of the clerk. -/
theorem seq_le (h : IssuedBy w i x) : x.seq ≤ (w.clerks i).seq := by
  rcases h.progress with ⟨hseq, -⟩ | ⟨-, hlt⟩ <;> omega

/-! ### Sending -/

section Transmit

variable {ops : List (History.Operation KvInput KvOutput)} {call : Call}

/-- An operation that is sent, again or for the first time, leaves the writes issued. -/
theorem issuedBy_transmit (hsame : ∀ c ∈ (w.clerks i).calling, c.request = call.request)
    {j : Fin n} (hx : IssuedBy w j x) :
    IssuedBy ({ w with ops := ops }.transmit i call) j x := by
  by_cases hj : j = i
  · subst hj
    refine ⟨?_, hx.unique, ?_⟩
    · rw [transmit_self]
      exact hx.client
    · rw [transmit_self]
      refine hx.progress.imp_left ?_
      rintro ⟨hseq, c, hc, hwrite⟩
      exact ⟨hseq, _, rfl, by rw [← hwrite, hsame c hc]⟩
  · refine ⟨?_, hx.unique, ?_⟩
    · rw [transmit_ne hj]
      exact hx.client
    · rw [transmit_ne hj]
      exact hx.progress

/-- The write that is sent is issued: if its number was delivered before, it was this
write. -/
theorem issuedBy_new (h : Numbered id w) (hinj : Function.Injective id)
    (hcall : ∀ x, call.request.write = some x → x.clientId = id i ∧ x.seq = (w.clerks i).seq)
    (hsame : ∀ c ∈ (w.clerks i).calling, c.request = call.request)
    (hx : call.request.write = some x) :
    IssuedBy ({ w with ops := ops }.transmit i call) i x := by
  obtain ⟨hclient, hseq⟩ := hcall x hx
  constructor
  · rw [transmit_self]
    exact hclient.trans (h.clerk_id i).symm
  · intro e he hsame'
    have hcopy : e.seq = x.seq := hsame'.2
    have hissued := h.issuedBy hinj he (hsame'.1.trans hclient)
    rcases hissued.progress with ⟨-, c, hc, hwrite⟩ | ⟨-, hlt⟩
    · rw [hsame c hc, hx] at hwrite
      exact (Option.some.inj hwrite).symm
    · omega
  · rw [transmit_self]
    exact .inl ⟨hseq, _, rfl, hx⟩

theorem transmit (h : Numbered id w) (hinj : Function.Injective id)
    (hcall : ∀ x, call.request.write = some x → x.clientId = id i ∧ x.seq = (w.clerks i).seq)
    (hsame : ∀ c ∈ (w.clerks i).calling, c.request = call.request) :
    Numbered id ({ w with ops := ops }.transmit i call) where
  clerk_id := fun j => (transmit_id_seq j).1.trans (h.clerk_id j)
  pending := h.pending
  store := h.store
  inOrder := h.inOrder
  delivered := by
    intro x hx
    obtain ⟨j, hj⟩ := h.delivered x hx
    exact ⟨j, issuedBy_transmit hsame hj⟩
  calling := by
    intro j c hc
    by_cases hj : j = i
    · subst hj
      rw [transmit_self] at hc ⊢
      cases hc
      exact ⟨Nat.lt_succ_self _, hcall⟩
    · rw [transmit_ne hj] at hc ⊢
      obtain ⟨hlt, hwrite⟩ := h.calling j c hc
      exact ⟨Nat.lt_succ_of_lt hlt, hwrite⟩
  requests := by
    intro m hm
    rcases List.mem_append.mp hm with hold | hnew
    · obtain ⟨hlt, hissued, hcur⟩ := h.requests m hold
      refine ⟨Nat.lt_succ_of_lt hlt, fun x hx => issuedBy_transmit hsame (hissued x hx), ?_⟩
      intro c hc hnum
      by_cases hj : m.src = i
      · -- the number of the last transmission is a new one
        rw [hj, transmit_self] at hc
        cases hc
        exact absurd hnum.symm (Nat.ne_of_lt hlt)
      · rw [transmit_ne hj] at hc
        exact hcur c hc hnum
    · cases List.mem_singleton.mp hnew
      refine ⟨Nat.lt_succ_self _, fun x hx => h.issuedBy_new hinj hcall hsame hx, ?_⟩
      intro c hc _
      rw [transmit_self] at hc
      cases hc
      rfl
  replies := by
    intro r hr
    obtain ⟨hlt, hcur⟩ := h.replies r hr
    refine ⟨Nat.lt_succ_of_lt hlt, fun c hc hnum => ?_⟩
    by_cases hj : r.src = i
    · rw [hj, transmit_self] at hc
      cases hc
      exact absurd hnum.symm (Nat.ne_of_lt hlt)
    · rw [transmit_ne hj] at hc
      exact hcur c hc hnum

end Transmit

theorem invoke (h : Numbered id w) (hinj : Function.Injective id) {inp : KvInput}
    (hidle : (w.clerks i).calling = none) :
    Numbered id ({ w with ops := History.called w.ops inp w.clock }.transmit i
      { op := w.ops.length, request := (w.clerks i).request inp, number := w.calls }) := by
  refine h.transmit hinj (fun x hx => ?_) fun c hc => ?_
  · rw [← h.clerk_id i]
    obtain ⟨op, key, value⟩ := inp
    cases op <;> cases hx <;> exact ⟨rfl, rfl⟩
  · rw [hidle] at hc
    cases hc

theorem resend (h : Numbered id w) (hinj : Function.Injective id) {call : Call}
    (hcalling : (w.clerks i).calling = some call) : Numbered id (w.transmit i call) := by
  show Numbered id ({ w with ops := w.ops }.transmit i call)
  refine h.transmit hinj (h.calling i call hcalling).2 fun c hc => ?_
  rw [hcalling] at hc
  cases hc
  rfl

/-! ### Delivering -/

/-- The write is delivered for the first time after smaller numbers only. -/
theorem inOrder_deliver (h : Numbered id w) (hinj : Function.Injective id) (hx : IssuedBy w i x) :
    Session.InOrder Write.clientId Write.seq (w.delivered ++ [x]) := by
  refine Session.inOrder_concat.mpr ⟨h.inOrder, ?_⟩
  rcases hx.progress with ⟨hseq, -⟩ | ⟨hmem, -⟩
  · by_cases hocc : Session.Occurs Write.clientId Write.seq w.delivered x
    · exact .inl hocc
    · refine .inr fun y hy hclient => ?_
      have hissued := h.issuedBy hinj hy
        (hclient.trans (hx.client.trans (h.clerk_id i)))
      have hle := seq_le hissued
      have hne : y.seq ≠ x.seq := fun heq => hocc ⟨y, hy, hclient, heq⟩
      omega
  · exact .inl ⟨x, hmem, rfl, rfl⟩

/-- A write that is delivered stays issued, and so do the others. -/
theorem issuedBy_deliver (h : Numbered id w) (hinj : Function.Injective id) (hx : IssuedBy w i x)
    {j : Fin n} (hy : IssuedBy w j y) (hclerks : w'.clerks = w.clerks)
    (hdelivered : w'.delivered = w.delivered ++ [x]) : IssuedBy w' j y := by
  refine ⟨?_, fun e he hsame => ?_, ?_⟩
  · rw [hclerks]
    exact hy.client
  · rw [hdelivered] at he
    rcases List.mem_append.mp he with hold | hnew
    · exact hy.unique e hold hsame
    · cases List.mem_singleton.mp hnew
      have hids : id i = id j := by
        rw [← h.clerk_id i, ← h.clerk_id j, ← hx.client, ← hy.client]
        exact hsame.1
      have hij : i = j := hinj hids
      subst hij
      exact hx.eq hy hsame
  · rw [hclerks, hdelivered]
    exact hy.progress.imp_right fun ⟨hmem, hlt⟩ => ⟨List.mem_append_left _ hmem, hlt⟩

section Deliver

variable {k : Nat} {m : Message n} {srv : KVServer} {value : Str}

theorem delivered_answered : (answered w k m srv value).delivered =
    w.delivered ++ m.request.write.toList := by
  cases hx : m.request.write <;>
    simp [answered, Service.delivered, List.filterMap_append, hx]

theorem executed_isPrefix_answered : w.executed <+: (answered w k m srv value).executed := by
  unfold executed
  rw [delivered_answered]
  exact Session.firsts_isPrefix _ _

/-- A write that the server has not noted is executed when it is delivered. -/
theorem executed_answered (h : Numbered id w) (hx : m.request.write = some x)
    (hnew : ¬ w.srv.Executed x.clientId x.seq) :
    x ∉ w.executed ∧ (answered w k m srv value).executed = w.executed ++ [x] := by
  have hunmarked : ¬ Session.Marked Write.clientId Write.seq w.srv.requestCache x := hnew
  have hcache : w.srv.requestCache = _ := congrArg Prod.snd h.store
  have hno : ¬ Session.Occurs Write.clientId Write.seq w.executed x := by
    rw [executed, Session.occurs_firsts]
    rintro ⟨y, hy, hclient, hnumber⟩
    rw [hcache, Session.marked_filtered] at hunmarked
    exact hunmarked ⟨y, hy, hclient, hnumber.ge⟩
  refine ⟨fun hmem => hno ⟨x, hmem, rfl, rfl⟩, ?_⟩
  show Session.firsts _ _ (answered w k m srv value).delivered = _
  rw [delivered_answered, hx, Option.toList_some, Session.firsts_concat]
  exact if_neg hno

theorem issuedBy_answered (h : Numbered id w) (hinj : Function.Injective id)
    (hm : m ∈ w.requests) {j : Fin n} (hy : IssuedBy w j y) :
    IssuedBy (answered w k m srv value) j y := by
  have hlog : (answered w k m srv value).delivered = _ := delivered_answered
  cases hx : m.request.write with
  | none =>
      rw [hx, Option.toList_none, List.append_nil] at hlog
      refine ⟨hy.client, ?_, ?_⟩
      · rw [hlog]
        exact hy.unique
      · rw [hlog]
        exact hy.progress
  | some x =>
      rw [hx, Option.toList_some] at hlog
      exact h.issuedBy_deliver hinj ((h.requests m hm).2.1 x hx) hy rfl hlog

theorem store_answered (h : Numbered id w)
    (hserve : w.srv.serve m.request = some (srv, value)) :
    (srv.kv, srv.requestCache) = Session.filtered Write.clientId Write.seq Write.execute
      (fun _ => []) (w.delivered ++ m.request.write.toList) ∧
    ∀ key, srv.pending key = false := by
  cases hx : m.request.write with
  | none =>
      rw [Option.toList_none, List.append_nil, KVServer.serve_read hx hserve]
      exact ⟨h.store, h.pending⟩
  | some x =>
      obtain ⟨hstore, hpending⟩ := KVServer.serve_write hx hserve
      rw [Option.toList_some, Session.filtered_concat, ← h.store]
      exact ⟨hstore, fun key => hpending key (h.pending key)⟩

theorem inOrder_answered (h : Numbered id w) (hinj : Function.Injective id)
    (hm : m ∈ w.requests) :
    Session.InOrder Write.clientId Write.seq (w.delivered ++ m.request.write.toList) := by
  cases hx : m.request.write with
  | none =>
      rw [Option.toList_none, List.append_nil]
      exact h.inOrder
  | some x => exact h.inOrder_deliver hinj ((h.requests m hm).2.1 x hx)

theorem deliver (h : Numbered id w) (hinj : Function.Injective id)
    (hk : w.requests[k]? = some m) (hserve : w.srv.serve m.request = some (srv, value)) :
    Numbered id (answered w k m srv value) := by
  have hm := List.mem_of_getElem? hk
  obtain ⟨hlt, hissued, hcur⟩ := h.requests m hm
  have hlog : (answered w k m srv value).delivered = _ := delivered_answered
  obtain ⟨hstore, hpending⟩ := h.store_answered hserve
  constructor
  · exact h.clerk_id
  · exact hpending
  · rw [hlog]
    exact hstore
  · rw [hlog]
    exact h.inOrder_answered hinj hm
  · rw [hlog]
    intro y hy
    rcases List.mem_append.mp hy with hold | hnew
    · obtain ⟨j, hj⟩ := h.delivered y hold
      exact ⟨j, h.issuedBy_answered hinj hm hj⟩
    · exact ⟨m.src, h.issuedBy_answered hinj hm (hissued y (Option.mem_toList.mp hnew))⟩
  · exact h.calling
  · intro m' hm'
    obtain ⟨hnum, hiss, hc⟩ := h.requests m' (List.mem_of_mem_eraseIdx hm')
    exact ⟨hnum, fun x hx => h.issuedBy_answered hinj hm (hiss x hx), hc⟩
  · intro r hr
    rw [hlog]
    rcases List.mem_append.mp hr with hold | hnew
    · obtain ⟨hnum, hmem⟩ := h.replies r hold
      exact ⟨hnum, fun c hc hn x hx => List.mem_append_left _ (hmem c hc hn x hx)⟩
    · cases List.mem_singleton.mp hnew
      refine ⟨hlt, fun c hc hn x hx => List.mem_append_right _ ?_⟩
      rw [hcur c hc hn]
      exact Option.mem_toList.mpr hx

end Deliver

/-! ### Receiving -/

section Receive

variable {k : Nat} {r : Reply n} {call : Call}

/-- The write that was answered is now an older one. -/
theorem issuedBy_taken (hcall : (w.clerks r.src).calling = some call)
    (hwrite : ∀ x, call.request.write = some x → x ∈ w.delivered) {j : Fin n}
    (hx : IssuedBy w j x) : IssuedBy (taken w k r call) j x := by
  by_cases hj : j = r.src
  · subst hj
    refine ⟨?_, hx.unique, .inr ?_⟩
    · rw [taken_self]
      exact hx.client
    · rw [taken_self]
      have hle := seq_le hx
      refine ⟨?_, Nat.lt_succ_of_le hle⟩
      rcases hx.progress with ⟨-, c, hc, hcx⟩ | ⟨hmem, -⟩
      · rw [hcall] at hc
        cases hc
        exact hwrite x hcx
      · exact hmem
  · refine ⟨?_, hx.unique, ?_⟩
    · rw [taken_ne hj]
      exact hx.client
    · rw [taken_ne hj]
      exact hx.progress

theorem receive (h : Numbered id w) (hk : w.replies[k]? = some r)
    (hcall : (w.clerks r.src).calling = some call) (hnum : call.number = r.number) :
    Numbered id (taken w k r call) := by
  have hwrite := (h.replies r (List.mem_of_getElem? hk)).2 call hcall hnum
  constructor
  · exact fun j => (taken_id j).trans (h.clerk_id j)
  · exact h.pending
  · exact h.store
  · exact h.inOrder
  · intro x hx
    obtain ⟨j, hj⟩ := h.delivered x hx
    exact ⟨j, issuedBy_taken hcall hwrite hj⟩
  · intro j c hc
    obtain ⟨hj, hc⟩ := calling_taken hc
    rw [taken_ne hj]
    exact h.calling j c hc
  · intro m hm
    obtain ⟨hlt, hissued, hcur⟩ := h.requests m hm
    exact ⟨hlt, fun x hx => issuedBy_taken hcall hwrite (hissued x hx),
      fun c hc => hcur c (calling_taken hc).2⟩
  · intro r' hr'
    obtain ⟨hlt, hcur⟩ := h.replies r' (List.mem_of_mem_eraseIdx hr')
    exact ⟨hlt, fun c hc => hcur c (calling_taken hc).2⟩

end Receive

/-! ### Runs -/

theorem step (h : Numbered id w) (hinj : Function.Injective id) {act : Action n}
    (hs : w.step act = some w') : Numbered id w' := by
  cases trans_of_step hs with
  | invoke i inp hcall => exact h.invoke hinj hcall
  | resend i call hcall => exact h.resend hinj hcall
  | deliver k m srv value hk hserve => exact h.deliver hinj hk hserve
  | receive k r call hk hcall hnum => exact h.receive hk hcall hnum

theorem path {w : Service n} (h : Numbered id w) (hinj : Function.Injective id)
    (hp : Run.Path Service.step Run.always w w') : Numbered id w' :=
  hp.invariant (fun _ _ _ hn _ hs => hn.step hinj hs) h

end Numbered

/-- What was delivered stays delivered. -/
theorem delivered_path (hp : Run.Path step Run.always w w') : ∀ x ∈ w.delivered,
    x ∈ w'.delivered := by
  intro x hx
  refine hp.invariant (P := fun v => x ∈ v.delivered) (fun u act v hu _ hs => ?_) hx
  cases trans_of_step hs with
  | invoke i inp hcall => exact hu
  | resend i call hcall => exact hu
  | deliver k m srv value hk hserve =>
      unfold answered delivered
      rw [List.filterMap_append]
      exact List.mem_append_left _ hu
  | receive k r call hk hcall hnum => exact hu

/-- The map is what executing the delivered writes gives, each at its first delivery.  A
write whose clerk takes the answer is among them, as it was sent, then and later.  No
handler ever waits. -/
theorem writes_executed_once (hinj : Function.Injective id)
    (hp : Run.Path step Run.always (init id) w) :
    w.srv.kv = (Session.firsts Write.clientId Write.seq w.delivered).foldl Write.execute
      (fun _ => []) ∧
    (∀ k w', w.step (.receive k) = some w' → ∀ r ∈ w.replies[k]?,
      ∀ call ∈ (w.clerks r.src).calling, ∀ x, call.request.write = some x →
      ∀ w'', Run.Path step Run.always w' w'' →
        (Session.firsts Write.clientId Write.seq w''.delivered).filter
          (fun y => Write.Same y x) = [x]) ∧
    ∀ request, (w.srv.serve request).isSome = true := by
  have h := (Numbered.init id).path hinj hp
  refine ⟨?_, ?_, KVServer.serve_isSome h.pending⟩
  · exact h.kv_eq
  · intro k w' hs r hr call hcall x hx w'' hp''
    cases trans_of_step hs with
    | receive _ r' call' hk hcall' hnum =>
        rw [Option.mem_def, hk] at hr
        cases hr
        rw [Option.mem_def, hcall'] at hcall
        cases hcall
        have hmem := (h.replies r (List.mem_of_getElem? hk)).2 call hcall' hnum x hx
        have hlater := delivered_path hp'' x hmem
        have h'' := (h.receive hk hcall' hnum).path hinj hp''
        obtain ⟨y, hy, hsame, hfilter⟩ := Session.filter_firsts
          (⟨x, hlater, rfl, rfl⟩ : Session.Occurs Write.clientId Write.seq w''.delivered x)
        obtain ⟨i, hi⟩ := h''.delivered x hlater
        rw [hfilter, hi.unique y hy hsame]

/-- Clerk 0 appends `a`, sends it again and is answered, reads, and appends `b`.  Then the
first copy arrives. -/
def copyArrivesLate : List (Action 2) :=
  [.invoke 0 { op := .append, key := [120], value := [97] }, .resend 0, .deliver 1, .receive 0,
   .invoke 0 { op := .get, key := [120], value := [] }, .deliver 1, .receive 0,
   .invoke 0 { op := .append, key := [120], value := [98] }, .deliver 1, .deliver 0]

theorem writes_executed_once_copyArrivesLate : ∃ w : Service 2,
    Run.Path step Run.always (init ids) w ∧ w.delivered.map Write.seq = [0, 2, 0] ∧
    w.srv.kv [120] = [97, 98] ∧
    w.srv.kv = (Session.firsts Write.clientId Write.seq w.delivered).foldl Write.execute
      (fun _ => []) := by
  have hrun : (Run.exec step Run.always (init ids) copyArrivesLate).map
      (fun w => (w.delivered.map Write.seq, w.srv.kv [120])) = some ([0, 2, 0], [97, 98]) := by
    decide +kernel
  obtain ⟨w, hp, hend⟩ := Run.path_of_exec_map copyArrivesLate _ hrun
  obtain ⟨hseq, hkv⟩ := Prod.mk.inj hend
  exact ⟨w, hp, hseq, hkv, (writes_executed_once ids_injective hp).1⟩

end Service
end KvSrv
end Labs
