import Labs.KvSrv.Server
import Labs.Run

/-!
# Clerks and the single server

Clerks that call one operation at a time, retransmit it until a reply comes, and count
their operations; a network that loses, delays and reorders what they send; and the
server.
-/

namespace Labs
namespace KvSrv

open Models History

inductive Request where
  | get (args : GetArgs)
  | put (args : PutAppendArgs)
  | append (args : PutAppendArgs)
  deriving DecidableEq, Repr

def KVServer.serve (srv : KVServer) : Request → Option (KVServer × Str)
  | .get args => some (srv, srv.get args)
  | .put args => srv.put args
  | .append args => srv.append args

/-- The operation in progress: its place in the history, what is sent, and the number of
the last transmission. -/
structure Call where
  op : Nat
  request : Request
  number : Nat

structure Clerk where
  id : Int64
  seq : Nat
  calling : Option Call

/-- What `Clerk.Get`, `Clerk.Put` and `Clerk.Append` send. -/
def Clerk.request (ck : Clerk) (inp : KvInput) : Request :=
  let args : PutAppendArgs :=
    { key := inp.key, value := inp.value, clientId := ck.id, seq := ck.seq }
  match inp.op with
  | .get => .get { key := inp.key }
  | .put => .put args
  | .append | .appendReturn => .append args

structure Message (n : Nat) where
  src : Fin n
  number : Nat
  request : Request

structure Reply (n : Nat) where
  src : Fin n
  number : Nat
  value : Str

/-- `served` lists what the handlers have answered, `ops` the calls of the clerks. -/
structure Service (n : Nat) where
  srv : KVServer
  clerks : Fin n → Clerk
  requests : List (Message n)
  replies : List (Reply n)
  calls : Nat
  served : List (Request × Str)
  ops : List (Operation KvInput KvOutput)
  clock : Nat

inductive Action (n : Nat) where
  | invoke (i : Fin n) (inp : KvInput)
  | resend (i : Fin n)
  | deliver (k : Nat)
  | receive (k : Nat)

namespace Service

variable {n : Nat}

def init (id : Fin n → Int64) : Service n where
  srv := .startKVServer
  clerks := fun i => { id := id i, seq := 0, calling := none }
  requests := []
  replies := []
  calls := 0
  served := []
  ops := []
  clock := 0

/-- Clerk `i` sends its request under a new number. -/
def transmit (w : Service n) (i : Fin n) (call : Call) : Service n :=
  { w with
    clerks := Function.update w.clerks i
      { w.clerks i with calling := some { call with number := w.calls } }
    requests := w.requests ++ [{ src := i, number := w.calls, request := call.request }]
    calls := w.calls + 1
    clock := w.clock + 1 }

def invoke (w : Service n) (i : Fin n) (inp : KvInput) : Option (Service n) :=
  match (w.clerks i).calling with
  | some _ => none
  | none =>
    some ({ w with ops := called w.ops inp w.clock }.transmit i
      { op := w.ops.length, request := (w.clerks i).request inp, number := w.calls })

def resend (w : Service n) (i : Fin n) : Option (Service n) :=
  match (w.clerks i).calling with
  | none => none
  | some call => some (w.transmit i call)

def deliver (w : Service n) (k : Nat) : Option (Service n) :=
  match w.requests[k]? with
  | none => none
  | some m =>
    match w.srv.serve m.request with
    | none => none
    | some (srv, value) =>
      some { w with
        srv := srv
        requests := w.requests.eraseIdx k
        replies := w.replies ++ [{ src := m.src, number := m.number, value := value }]
        served := w.served ++ [(m.request, value)]
        clock := w.clock + 1 }

/-- A reply to a transmission that the clerk has given up is not read. -/
def receive (w : Service n) (k : Nat) : Option (Service n) :=
  match w.replies[k]? with
  | none => none
  | some r =>
    match (w.clerks r.src).calling with
    | none => none
    | some call =>
      if call.number = r.number then
        some { w with
          clerks := Function.update w.clerks r.src
            { w.clerks r.src with seq := (w.clerks r.src).seq + 1, calling := none }
          replies := w.replies.eraseIdx k
          ops := returned w.ops call.op { value := r.value } w.clock
          clock := w.clock + 1 }
      else none

def step (w : Service n) : Action n → Option (Service n)
  | .invoke i inp => w.invoke i inp
  | .resend i => w.resend i
  | .deliver k => w.deliver k
  | .receive k => w.receive k

/-! ## What a step does -/

/-- The state after the server has answered `m`. -/
def answered (w : Service n) (k : Nat) (m : Message n) (srv : KVServer) (value : Str) :
    Service n :=
  { w with
    srv := srv
    requests := w.requests.eraseIdx k
    replies := w.replies ++ [{ src := m.src, number := m.number, value := value }]
    served := w.served ++ [(m.request, value)]
    clock := w.clock + 1 }

/-- The state after the clerk has taken a reply as the answer to its call. -/
def taken (w : Service n) (k : Nat) (r : Reply n) (call : Call) : Service n :=
  { w with
    clerks := Function.update w.clerks r.src
      { w.clerks r.src with seq := (w.clerks r.src).seq + 1, calling := none }
    replies := w.replies.eraseIdx k
    ops := returned w.ops call.op { value := r.value } w.clock
    clock := w.clock + 1 }

inductive Trans (w : Service n) : Action n → Service n → Prop
  | invoke (i : Fin n) (inp : KvInput) : (w.clerks i).calling = none →
      Trans w (.invoke i inp) ({ w with ops := called w.ops inp w.clock }.transmit i
        { op := w.ops.length, request := (w.clerks i).request inp, number := w.calls })
  | resend (i : Fin n) (call : Call) : (w.clerks i).calling = some call →
      Trans w (.resend i) (w.transmit i call)
  | deliver (k : Nat) (m : Message n) (srv : KVServer) (value : Str) :
      w.requests[k]? = some m → w.srv.serve m.request = some (srv, value) →
      Trans w (.deliver k) (w.answered k m srv value)
  | receive (k : Nat) (r : Reply n) (call : Call) :
      w.replies[k]? = some r → (w.clerks r.src).calling = some call →
      call.number = r.number → Trans w (.receive k) (w.taken k r call)

theorem trans_of_step {w w' : Service n} {act : Action n} (hs : w.step act = some w') :
    Trans w act w' := by
  cases act with
  | invoke i inp =>
      replace hs : w.invoke i inp = some w' := hs
      unfold invoke at hs
      split at hs
      · cases hs
      · next hcall =>
          cases hs
          exact .invoke i inp hcall
  | resend i =>
      replace hs : w.resend i = some w' := hs
      unfold resend at hs
      split at hs
      · cases hs
      · next call hcall =>
          cases hs
          exact .resend i call hcall
  | deliver k =>
      replace hs : w.deliver k = some w' := hs
      unfold deliver at hs
      split at hs
      · cases hs
      · next m hk =>
          split at hs
          · cases hs
          · next srv value hserve =>
              cases hs
              exact .deliver k m srv value hk hserve
  | receive k =>
      replace hs : w.receive k = some w' := hs
      unfold receive at hs
      split at hs
      · cases hs
      · next r hk =>
          split at hs
          · cases hs
          · next call hcall =>
              split at hs
              · next hnum =>
                  cases hs
                  exact .receive k r call hk hcall hnum
              · cases hs

/-! ### Whose clerk changes -/

section Clerks

variable {w : Service n} {i j : Fin n} {ops : List (Operation KvInput KvOutput)} {call : Call}
  {k : Nat} {r : Reply n}

theorem transmit_self : ({ w with ops := ops }.transmit i call).clerks i =
    { w.clerks i with calling := some { call with number := w.calls } } :=
  Function.update_self _ _ _

theorem transmit_ne (hj : j ≠ i) :
    ({ w with ops := ops }.transmit i call).clerks j = w.clerks j :=
  Function.update_of_ne hj _ _

/-- Sending changes neither the identity of a clerk nor its number. -/
theorem transmit_id_seq (j : Fin n) :
    (({ w with ops := ops }.transmit i call).clerks j).id = (w.clerks j).id ∧
      (({ w with ops := ops }.transmit i call).clerks j).seq = (w.clerks j).seq := by
  by_cases hj : j = i
  · rw [hj, transmit_self]
    exact ⟨rfl, rfl⟩
  · rw [transmit_ne hj]
    exact ⟨rfl, rfl⟩

theorem taken_self : (taken w k r call).clerks r.src =
    { w.clerks r.src with seq := (w.clerks r.src).seq + 1, calling := none } :=
  Function.update_self _ _ _

theorem taken_ne (hj : j ≠ r.src) : (taken w k r call).clerks j = w.clerks j :=
  Function.update_of_ne hj _ _

theorem taken_id (j : Fin n) : ((taken w k r call).clerks j).id = (w.clerks j).id := by
  by_cases hj : j = r.src
  · rw [hj, taken_self]
  · rw [taken_ne hj]

theorem calling_taken {c : Call} (hc : c ∈ ((taken w k r call).clerks j).calling) :
    j ≠ r.src ∧ c ∈ (w.clerks j).calling := by
  by_cases hj : j = r.src
  · rw [hj, taken_self] at hc
    cases hc
  · rw [taken_ne hj] at hc
    exact ⟨hj, hc⟩

end Clerks

/-- Two clerks. -/
def ids : Fin 2 → Int64 := fun i => Int64.ofNat i

theorem ids_injective : Function.Injective ids := by
  show ∀ i j, ids i = ids j → i = j
  decide

end Service
end KvSrv
end Labs
