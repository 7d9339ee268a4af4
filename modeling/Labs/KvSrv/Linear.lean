import Labs.KvSrv.Writes

/-!
# The single server is linearizable

A write takes effect when it is executed for the first time, a `Get` when the execution
whose reply is read happens.  The invariant says of every call in progress whether it has
taken effect, which the server's cache of sequence numbers tells, and of every reply on
its way to it that it is what the map would return.

An `Append` that is delivered again is answered by a search for the last occurrence of its
string.  This finds the place of the first execution as long as no `Put` to the key was
executed since and the string does not occur again in what others have appended, which is
the condition `Retraces`.
-/

namespace Labs
namespace KvSrv

open Models History

variable {n : Nat}

/-- What a handler does with a request of a clerk. -/
theorem serve_request {srv srv' : KVServer} {ck : Clerk} {inp : KvInput} {value : Str}
    (h : srv.serve (ck.request inp) = some (srv', value)) :
    (inp.op = .get ∧ srv' = srv ∧ value = srv.kv inp.key) ∨
    (inp.op ≠ .get ∧ srv.Executed ck.id ck.seq ∧ srv' = srv ∧
      ∀ args, ck.request inp = .append args →
        value = cutLast (srv.kv args.key) args.value) ∨
    (inp.op ≠ .get ∧ ¬ srv.Executed ck.id ck.seq ∧ srv'.kv = kvMap.next srv.kv inp ∧
      srv'.requestCache = Function.update srv.requestCache ck.id (some ck.seq) ∧
      (∀ key, srv.pending key = false → srv'.pending key = false) ∧
      kvMap.ok srv.kv inp { value := value }) := by
  obtain ⟨op, key, val⟩ := inp
  cases op with
  | get =>
      cases h
      exact .inl ⟨rfl, rfl, rfl⟩
  | put =>
      rcases KVServer.put_cases h with ⟨hex, rfl⟩ | ⟨hnew, hw⟩
      · exact .inr (.inl ⟨by simp, hex, rfl, fun args heq => by cases heq⟩)
      · exact .inr (.inr ⟨by simp, hnew, hw.kv, hw.requestCache, hw.pending, rfl⟩)
  | append =>
      rcases KVServer.append_cases h with ⟨hex, rfl, rfl⟩ | ⟨hnew, rfl, hw⟩
      · exact .inr (.inl ⟨by simp, hex, rfl, fun args heq => by cases heq; rfl⟩)
      · exact .inr (.inr ⟨by simp, hnew, hw.kv, hw.requestCache, hw.pending, rfl⟩)
  | appendReturn =>
      rcases KVServer.append_cases h with ⟨hex, rfl, rfl⟩ | ⟨hnew, rfl, hw⟩
      · exact .inr (.inl ⟨by simp, hex, rfl, fun args heq => by cases heq; rfl⟩)
      · refine .inr (.inr ⟨by simp, hnew, hw.kv, hw.requestCache, hw.pending, ?_⟩)
        simp [kvMap, KvModel.step]

namespace Write

def isAppend : Write → Bool
  | .put _ => false
  | .append _ => true

/-- What a list of writes appends to the key. -/
def appendedTo (key : Str) (l : List Write) : Str :=
  (l.filter fun x => x.args.key = key).flatMap fun x => x.args.value

/-- Without a `Put` to the key its value only grows. -/
theorem foldl_execute_key {key : Str} {l : List Write}
    (h : ∀ x ∈ l, x.args.key = key → x.isAppend = true) (kv : Str → Str) :
    l.foldl execute kv key = kv key ++ appendedTo key l := by
  induction l generalizing kv with
  | nil => simp [appendedTo]
  | cons x l ih =>
      rw [List.foldl_cons, ih fun y hy => h y (List.mem_cons_of_mem _ hy)]
      by_cases hkey : x.args.key = key
      · have hx := h x List.mem_cons_self hkey
        cases x with
        | put args => cases hx
        | append args =>
            have hkey : args.key = key := hkey
            simp [appendedTo, execute, Write.args, hkey]
      · have hstay : execute kv x key = kv key := by
          cases x <;> exact Function.update_of_ne (Ne.symm hkey) _ _
        rw [hstay]
        simp [appendedTo, hkey]

end Write

namespace Service

/-! ## The condition -/

/-- The writes executed after `x`. -/
def since (w : Service n) (x : Write) : List Write := (w.executed.dropWhile fun y => y ≠ x).tail

theorem since_eq {w : Service n} {x : Write} {pre post : List Write}
    (h : w.executed = pre ++ x :: post) (hx : x ∉ pre) : w.since x = post := by
  have hpre : ∀ y ∈ pre, decide (y ≠ x) = true := by
    intro y hy
    exact decide_eq_true fun heq => hx (heq ▸ hy)
  unfold since
  rw [h, List.dropWhile_append_of_pos hpre, List.dropWhile_cons_of_neg (by simp), List.tail_cons]

/-- Since the `Append` was executed, no `Put` to its key was, and the string that it appended
does not occur again in it and what was appended after it. -/
def Unrepeated (w : Service n) : Request → Prop
  | .append args => .append args ∈ w.executed →
      (∀ y ∈ w.since (.append args), y.args.key = args.key → y.isAppend = true) ∧
      ∀ j ≤ (args.value ++ Write.appendedTo args.key (w.since (.append args))).length, 0 < j →
        ¬ args.value <+:
          (args.value ++ Write.appendedTo args.key (w.since (.append args))).drop j
  | .get _ => True
  | .put _ => True

instance (w : Service n) : (request : Request) → Decidable (Unrepeated w request)
  | .append args => inferInstanceAs (Decidable (.append args ∈ w.executed →
      (∀ y ∈ w.since (.append args), y.args.key = args.key → y.isAppend = true) ∧
      ∀ j ≤ (args.value ++ Write.appendedTo args.key (w.since (.append args))).length, 0 < j →
        ¬ args.value <+:
          (args.value ++ Write.appendedTo args.key (w.since (.append args))).drop j))
  | .get _ => isTrue trivial
  | .put _ => isTrue trivial

/-- An `Append` that is delivered while its clerk waits for it finds its string unrepeated. -/
def Retraces (w : Service n) : Action n → Prop
  | .deliver k => ∀ m ∈ w.requests[k]?, ∀ call ∈ (w.clerks m.src).calling,
      m.request = call.request → Unrepeated w m.request
  | _ => True

instance (w : Service n) : (act : Action n) → Decidable (Retraces w act)
  | .deliver k => inferInstanceAs (Decidable (∀ m ∈ w.requests[k]?,
      ∀ call ∈ (w.clerks m.src).calling, m.request = call.request → Unrepeated w m.request))
  | .invoke .. => isTrue trivial
  | .resend .. => isTrue trivial
  | .receive .. => isTrue trivial

/-- The search leads back to the value that the `Append` has found. -/
theorem cutLast_of_unrepeated {w : Service n} {args : PutAppendArgs} {pre post : List Write}
    (hkv : w.srv.kv = w.executed.foldl Write.execute fun _ => [])
    (hsplit : w.executed = pre ++ .append args :: post) (hfirst : .append args ∉ pre)
    (hok : w.Unrepeated (.append args)) :
    cutLast (w.srv.kv args.key) args.value = pre.foldl Write.execute (fun _ => []) args.key := by
  obtain ⟨hno, hlast⟩ := hok (by rw [hsplit]; simp)
  rw [since_eq hsplit hfirst] at hno hlast
  have hvalue : w.srv.kv args.key = pre.foldl Write.execute (fun _ => []) args.key ++
      (args.value ++ Write.appendedTo args.key post) := by
    rw [hkv, hsplit, List.foldl_append, List.foldl_cons, Write.foldl_execute_key hno,
      ← List.append_assoc]
    congr 1
    exact Function.update_self ..
  rw [hvalue]
  refine cutLast_eq ?_ fun j hj hlt => ?_
  · rw [← List.append_assoc]
    exact List.prefix_append _ _
  · rw [List.length_append] at hj
    rw [List.drop_append, List.drop_eq_nil_of_le hlt.le, List.nil_append]
    exact hlast _ (by omega) (by omega)

/-! ## The invariant -/

/-- A call in progress, of the operation `a`. -/
structure InProgress (w : Service n) (sched : Schedule) (i : Fin n) (call : Call)
    (a : Operation KvInput KvOutput) : Prop where
  number : call.number < w.calls
  op : w.ops[call.op]? = some a
  pending : a.result = none
  request : call.request = (w.clerks i).request a.input
  scheduled : sched.Scheduled call.op ↔
    a.input.op ≠ .get ∧ w.srv.Executed (w.clerks i).id (w.clerks i).seq
  origin : sched.Scheduled call.op → ∀ x, call.request.write = some x →
    ∃ pre post, w.executed = pre ++ x :: post ∧ x ∉ pre ∧
      Placed kvMap w.ops sched w.clock call.op (pre.foldl Write.execute fun _ => [])
  served : ∀ e ∈ w.served, e.1 = call.request → a.input.op ≠ .get →
    ∃ s, Placed kvMap w.ops sched w.clock call.op s ∧ kvMap.ok s a.input { value := e.2 }
  replies : ∀ r ∈ w.replies, r.src = i → r.number = call.number →
    Answers w.ops sched w.clock call.op a { value := r.value }
  requests : ∀ m ∈ w.requests, m.src = i → m.number = call.number → m.request = call.request

/-- A message on its way to the server: a read, a write that was executed, or the
operation in progress. -/
def Known (w : Service n) (m : Message n) : Prop :=
  m.number < w.calls ∧ ∃ ck inp, m.request = Clerk.request ck inp ∧
    ck.id = (w.clerks m.src).id ∧
    (inp.op = .get ∨ w.srv.Executed ck.id ck.seq ∨
      ∃ call ∈ (w.clerks m.src).calling, call.request = m.request)

/-- What was answered was a read, or a write that is executed. -/
def Answered (w : Service n) (request : Request) : Prop :=
  ∃ ck inp, request = Clerk.request ck inp ∧ (inp.op ≠ .get → w.srv.Executed ck.id ck.seq)

structure Inv (id : Fin n → Int64) (w : Service n) (sched : Schedule) : Prop where
  recorded : Recorded kvMap w.ops sched w.clock
  state : stateAt kvMap w.ops sched w.clock = w.srv.kv
  pending : ∀ key, w.srv.pending key = false
  clerk_id : ∀ i, (w.clerks i).id = id i
  cache : ∀ i s, w.srv.requestCache (id i) = some s → s ≤ (w.clerks i).seq ∧
    ((w.clerks i).calling = none → s < (w.clerks i).seq)
  calling : ∀ i, ∀ call ∈ (w.clerks i).calling, ∃ a, InProgress w sched i call a
  distinct : ∀ i j, ∀ call ∈ (w.clerks i).calling, ∀ call' ∈ (w.clerks j).calling,
    call.op = call'.op → i = j
  requests : ∀ m ∈ w.requests, Known w m
  replies : ∀ r ∈ w.replies, r.number < w.calls
  served : ∀ e ∈ w.served, Answered w e.1

/-- Two requests are the same only if they are the same kind of operation, and writes only
if client and sequence number agree. -/
theorem request_inj {ck ck' : Clerk} {inp inp' : KvInput}
    (h : ck.request inp = ck'.request inp') (hw : inp.op ≠ .get) :
    inp'.op ≠ .get ∧ ck.id = ck'.id ∧ ck.seq = ck'.seq := by
  obtain ⟨op, key, value⟩ := inp
  obtain ⟨op', key', value'⟩ := inp'
  cases op <;> cases op' <;> simp_all [Clerk.request]

section Frame

variable {w w' : Service n} {sched sched' : Schedule} {i : Fin n} {call : Call}
  {a : Operation KvInput KvOutput}

/-- A call in progress stays so, whatever is added, if what concerns it is right. -/
theorem InProgress.frame (h : InProgress w sched i call a)
    (hg : Grows kvMap w.ops sched w.clock w'.ops sched' w'.clock) (hcalls : w.calls ≤ w'.calls)
    (hck : w'.clerks i = w.clerks i) (hop : w'.ops[call.op]? = some a)
    (hex : w'.srv.Executed (w.clerks i).id (w.clerks i).seq ↔
      w.srv.Executed (w.clerks i).id (w.clerks i).seq)
    (hsched : sched'.Scheduled call.op ↔ sched.Scheduled call.op)
    (hexec : w.executed <+: w'.executed)
    (hserved : ∀ e ∈ w'.served, e ∈ w.served ∨ (e.1 = call.request → a.input.op ≠ .get →
      ∃ s, Placed kvMap w'.ops sched' w'.clock call.op s ∧
        kvMap.ok s a.input { value := e.2 }))
    (hreplies : ∀ r ∈ w'.replies, r ∈ w.replies ∨ (r.src = i → r.number = call.number →
      Answers w'.ops sched' w'.clock call.op a { value := r.value }))
    (hreq : ∀ m ∈ w'.requests, m ∈ w.requests ∨ (m.src = i → m.number = call.number →
      m.request = call.request)) : InProgress w' sched' i call a where
  number := Nat.lt_of_lt_of_le h.number hcalls
  op := hop
  pending := h.pending
  request := by
    rw [hck]
    exact h.request
  scheduled := by
    rw [hsched, hck, hex]
    exact h.scheduled
  origin := by
    intro hs x hx
    obtain ⟨pre, post, hsplit, hfirst, hp⟩ := h.origin (hsched.mp hs) x hx
    obtain ⟨more, hmore⟩ := hexec
    refine ⟨pre, post ++ more, ?_, hfirst, hg.placed hp⟩
    rw [← hmore, hsplit, List.append_assoc, List.cons_append]
  served := by
    intro e he heq hw
    rcases hserved e he with hold | hnew
    · obtain ⟨s, hp, hok⟩ := h.served e hold heq hw
      exact ⟨s, hg.placed hp, hok⟩
    · exact hnew heq hw
  replies := by
    intro r hr hsrc hnum
    rcases hreplies r hr with hold | hnew
    · exact (h.replies r hold hsrc hnum).mono hg
    · exact hnew hsrc hnum
  requests := by
    intro m hm hsrc hnum
    rcases hreq m hm with hold | hnew
    · exact h.requests m hold hsrc hnum
    · exact hnew hsrc hnum

end Frame

section Steps

variable {id : Fin n → Int64} {w w' : Service n} {sched : Schedule}

/-- A clerk sends a request for the operation `a`, which may be new. -/
theorem Inv.transmit (h : Inv id w sched) {ops : List (Operation KvInput KvOutput)} {i : Fin n}
    {call : Call} {a : Operation KvInput KvOutput}
    (hrec : Recorded kvMap ops sched (w.clock + 1))
    (hg : Grows kvMap w.ops sched w.clock ops sched (w.clock + 1))
    (hops : ∀ {k : Nat} {b}, w.ops[k]? = some b → ops[k]? = some b)
    (hop : ops[call.op]? = some a) (hpending : a.result = none)
    (hrequest : call.request = (w.clerks i).request a.input)
    (hsched : sched.Scheduled call.op ↔
      a.input.op ≠ .get ∧ w.srv.Executed (w.clerks i).id (w.clerks i).seq)
    (horigin : sched.Scheduled call.op → ∀ x, call.request.write = some x →
      ∃ pre post, w.executed = pre ++ x :: post ∧ x ∉ pre ∧
        Placed kvMap ops sched (w.clock + 1) call.op (pre.foldl Write.execute fun _ => []))
    (hserved : ∀ e ∈ w.served, e.1 = call.request → a.input.op ≠ .get →
      ∃ s, Placed kvMap ops sched (w.clock + 1) call.op s ∧ kvMap.ok s a.input { value := e.2 })
    (hsame : ∀ c ∈ (w.clerks i).calling, c.request = call.request)
    (hdistinct : ∀ j ≠ i, ∀ c ∈ (w.clerks j).calling, c.op ≠ call.op) :
    Inv id ({ w with ops := ops }.transmit i call) sched := by
  have hstate : stateAt kvMap ops sched (w.clock + 1) = w.srv.kv := by
    rw [stateAt_succ (h.recorded.future (Nat.le_refl _)), hg.stateAt_eq (Nat.le_refl _)]
    exact h.state
  refine ⟨hrec, hstate, h.pending, fun j => ?_, fun j s hs => ?_, fun j c hc => ?_,
    fun j j' c hc c' hc' heq => ?_, fun m hm => ?_, fun r hr => ?_, h.served⟩
  · rw [(transmit_id_seq j).1]
    exact h.clerk_id j
  · rw [(transmit_id_seq j).2]
    obtain ⟨hle, hlt⟩ := h.cache j s hs
    refine ⟨hle, fun hnone => ?_⟩
    by_cases hj : j = i
    · rw [hj, transmit_self] at hnone
      cases hnone
    · rw [transmit_ne hj] at hnone
      exact hlt hnone
  · by_cases hj : j = i
    · rw [hj, transmit_self] at hc
      cases hc
      rw [hj]
      refine ⟨a, Nat.lt_succ_self _, hop, hpending, ?_, ?_, horigin, hserved, ?_, ?_⟩
      · rw [transmit_self]
        exact hrequest
      · rw [transmit_self]
        exact hsched
      · intro r hr hsrc hnum
        have hlt := h.replies r hr
        exact absurd hnum (Nat.ne_of_lt hlt)
      · intro m hm hsrc hnum
        rcases List.mem_append.mp hm with hold | hnew
        · exact absurd hnum (Nat.ne_of_lt (h.requests m hold).1)
        · rw [List.mem_singleton.mp hnew]
    · rw [transmit_ne hj] at hc
      obtain ⟨b, hb⟩ := h.calling j c hc
      refine ⟨b, hb.frame hg (Nat.le_succ _) (transmit_ne hj) (hops hb.op) Iff.rfl Iff.rfl
        (List.prefix_refl _) (fun e he => .inl he) (fun r hr => .inl hr) (fun m hm => ?_)⟩
      rcases List.mem_append.mp hm with hold | hnew
      · exact .inl hold
      · rw [List.mem_singleton.mp hnew]
        exact .inr fun hsrc => absurd hsrc.symm hj
  · by_cases hj : j = i
    · by_cases hj' : j' = i
      · rw [hj, hj']
      · rw [hj, transmit_self] at hc
        rw [transmit_ne hj'] at hc'
        cases hc
        exact absurd heq.symm (hdistinct j' hj' c' hc')
    · rw [transmit_ne hj] at hc
      by_cases hj' : j' = i
      · rw [hj', transmit_self] at hc'
        cases hc'
        exact absurd heq (hdistinct j hj c hc)
      · rw [transmit_ne hj'] at hc'
        exact h.distinct j j' c hc c' hc' heq
  · rcases List.mem_append.mp hm with hold | hnew
    · obtain ⟨hnum, ck, inp, hreq, hck, hcase⟩ := h.requests m hold
      refine ⟨Nat.lt_succ_of_lt hnum, ck, inp, hreq,
        by rw [(transmit_id_seq m.src).1]; exact hck, ?_⟩
      rcases hcase with hget | hex | ⟨c, hc, hcr⟩
      · exact .inl hget
      · exact .inr (.inl hex)
      · by_cases hj : m.src = i
        · rw [hj] at hc
          refine .inr (.inr ⟨{ call with number := w.calls }, by rw [hj, transmit_self]; rfl, ?_⟩)
          rw [← hcr, hsame c hc]
        · exact .inr (.inr ⟨c, by rw [transmit_ne hj]; exact hc, hcr⟩)
    · rw [List.mem_singleton.mp hnew]
      refine ⟨Nat.lt_succ_self _, w.clerks i, a.input, hrequest, (transmit_id_seq i).1.symm, ?_⟩
      exact .inr (.inr ⟨{ call with number := w.calls }, by rw [transmit_self]; rfl, rfl⟩)
  · exact Nat.lt_succ_of_lt (h.replies r hr)

/-- A write that has been answered has been executed. -/
theorem Inv.executed_of_served (h : Inv id w sched) {e : Request × Str} (he : e ∈ w.served)
    {ck : Clerk} {inp : KvInput} (heq : e.1 = ck.request inp) (hw : inp.op ≠ .get) :
    w.srv.Executed ck.id ck.seq := by
  obtain ⟨ck', inp', hreq, hex⟩ := h.served e he
  obtain ⟨hw', hid, hseq⟩ := request_inj (heq.symm.trans hreq) hw
  rw [hid, hseq]
  exact hex hw'

theorem Inv.invoke (h : Inv id w sched) {i : Fin n} (hidle : (w.clerks i).calling = none)
    (inp : KvInput) : Inv id ({ w with ops := called w.ops inp w.clock }.transmit i
      { op := w.ops.length, request := (w.clerks i).request inp, number := w.calls }) sched := by
  obtain ⟨hrec, hg⟩ := h.recorded.call inp
  have hnotex : ¬ w.srv.Executed (w.clerks i).id (w.clerks i).seq := by
    rintro ⟨s, hs, hle⟩
    rw [h.clerk_id] at hs
    have := (h.cache i s hs).2 hidle
    omega
  have hnotsched : ¬ sched.Scheduled w.ops.length := by
    rintro ⟨t, ht⟩
    obtain ⟨b, hb, -⟩ := h.recorded.owned ht
    have := (List.getElem?_eq_some_iff.mp hb).1
    omega
  refine h.transmit (a := { input := inp, call := w.clock, result := none }) hrec hg
    (fun hb => ?_) ?_ rfl rfl ?_ (fun hs => absurd hs hnotsched) (fun e he heq hw => ?_)
    (fun c hc => ?_) (fun j hj c hc heq => ?_)
  · rw [getElem?_called_of_lt (List.getElem?_eq_some_iff.mp hb).1]
    exact hb
  · simp [called]
  · constructor
    · exact fun hs => absurd hs hnotsched
    · exact fun hex => absurd hex.2 hnotex
  · -- no write with this sequence number has been answered
    exact absurd (h.executed_of_served he heq hw) hnotex
  · rw [hidle] at hc
    cases hc
  · obtain ⟨b, hb⟩ := h.calling j c hc
    have hlt := (List.getElem?_eq_some_iff.mp hb.op).1
    have heq' : c.op = w.ops.length := heq
    omega

theorem Inv.resend (h : Inv id w sched) {i : Fin n} {call : Call}
    (hcall : (w.clerks i).calling = some call) : Inv id (w.transmit i call) sched := by
  obtain ⟨hrec, hg⟩ := h.recorded.tick
  obtain ⟨a, ha⟩ := h.calling i call hcall
  refine h.transmit hrec hg (fun hb => hb) ha.op ha.pending ha.request ha.scheduled
    (fun hs x hx => ?_) (fun e he heq hw => ?_) (fun c hc => ?_) (fun j hj c hc heq => ?_)
  · obtain ⟨pre, post, hsplit, hfirst, hp⟩ := ha.origin hs x hx
    exact ⟨pre, post, hsplit, hfirst, hg.placed hp⟩
  · obtain ⟨s, hp, hok⟩ := ha.served e he heq hw
    exact ⟨s, hg.placed hp, hok⟩
  · rw [hcall] at hc
    cases hc
    rfl
  · exact hj (h.distinct j i c hc call hcall heq)

/-- A request in flight that two clerks might have sent is one of the first. -/
theorem Inv.src_eq (h : Inv id w sched) (hinj : Function.Injective id) {m : Message n}
    (hm : m ∈ w.requests) {j : Fin n} {inp : KvInput}
    (heq : m.request = (w.clerks j).request inp) (hw : inp.op ≠ .get) : m.src = j := by
  obtain ⟨-, ck, inp', hreq, hck, -⟩ := h.requests m hm
  obtain ⟨-, hid, -⟩ := request_inj (heq.symm.trans hreq) hw
  rw [hck, h.clerk_id, h.clerk_id] at hid
  exact hinj hid.symm

/-- A request is answered and nothing changes at the server. -/
theorem Inv.reply (h : Inv id w sched) (hinj : Function.Injective id) {k : Nat} {m : Message n}
    {value : Str} (hk : w.requests[k]? = some m) (hserved : Answered w m.request)
    (hanswer : ∀ call a, InProgress w sched m.src call a → call ∈ (w.clerks m.src).calling →
      m.request = call.request →
      Answers w.ops sched (w.clock + 1) call.op a { value := value }) :
    Inv id (w.answered k m w.srv value) sched := by
  obtain ⟨hrec, hg⟩ := h.recorded.tick
  have hm := List.mem_of_getElem? hk
  refine ⟨hrec, ?_, h.pending, h.clerk_id, h.cache, fun j c hc => ?_, h.distinct,
    fun m' hm' => h.requests m' (List.mem_of_mem_eraseIdx hm'), fun r hr => ?_, fun e he => ?_⟩
  · show stateAt kvMap w.ops sched (w.clock + 1) = w.srv.kv
    rw [stateAt_succ (h.recorded.future (Nat.le_refl _))]
    exact h.state
  · obtain ⟨a, ha⟩ := h.calling j c hc
    refine ⟨a, ha.frame hg (Nat.le_refl _) rfl ha.op Iff.rfl Iff.rfl
      Numbered.executed_isPrefix_answered (fun e he => ?_) (fun r hr => ?_)
      (fun m' hm' => .inl (List.mem_of_mem_eraseIdx hm'))⟩
    · rcases List.mem_append.mp he with hold | hnew
      · exact .inl hold
      · rw [List.mem_singleton.mp hnew]
        refine .inr fun heq hw => ?_
        obtain rfl := h.src_eq hinj hm (heq.trans ha.request) hw
        exact (hanswer c a ha hc heq).placed hw
    · rcases List.mem_append.mp hr with hold | hnew
      · exact .inl hold
      · rw [List.mem_singleton.mp hnew]
        refine .inr fun hsrc hnum => ?_
        obtain rfl : m.src = j := hsrc
        exact hanswer c a ha hc (ha.requests m hm rfl hnum)
  · rcases List.mem_append.mp hr with hold | hnew
    · exact h.replies r hold
    · rw [List.mem_singleton.mp hnew]
      exact (h.requests m hm).1
  · rcases List.mem_append.mp he with hold | hnew
    · exact h.served e hold
    · rw [List.mem_singleton.mp hnew]
      exact hserved

/-- What was executed stays so when a clerk's number is noted. -/
theorem Inv.executed_mono (h : Inv id w sched) {srv : KVServer} {i : Fin n}
    (hcache : srv.requestCache = Function.update w.srv.requestCache (w.clerks i).id
      (some (w.clerks i).seq)) {c : Int64} {s : Nat} (hex : w.srv.Executed c s) :
    srv.Executed c s := by
  obtain ⟨s', hs', hle⟩ := hex
  by_cases hc : c = (w.clerks i).id
  · rw [hc, h.clerk_id] at hs'
    refine ⟨(w.clerks i).seq, by rw [hcache, hc, Function.update_self], ?_⟩
    exact Nat.le_trans hle (h.cache _ _ hs').1
  · exact ⟨s', by rw [hcache, Function.update_of_ne hc]; exact hs', hle⟩

/-- The write of a call has the clerk's id and number. -/
theorem write_request {ck : Clerk} {inp : KvInput} {x : Write}
    (h : (ck.request inp).write = some x) : x.clientId = ck.id ∧ x.seq = ck.seq := by
  obtain ⟨op, key, value⟩ := inp
  cases op <;> cases h <;> exact ⟨rfl, rfl⟩

/-- A write of the call in progress is executed for the first time. -/
theorem Inv.execute (h : Inv id w sched) (hnum : Numbered id w) (hinj : Function.Injective id)
    {k : Nat}
    {m : Message n} {srv : KVServer} {value : Str} {call : Call}
    {a : Operation KvInput KvOutput} (hk : w.requests[k]? = some m)
    (hcall : call ∈ (w.clerks m.src).calling) (ha : InProgress w sched m.src call a)
    (hrequest : m.request = call.request) (hw : a.input.op ≠ .get)
    (hnot : ¬ w.srv.Executed (w.clerks m.src).id (w.clerks m.src).seq)
    (hkv : srv.kv = kvMap.next w.srv.kv a.input)
    (hcache : srv.requestCache = Function.update w.srv.requestCache (w.clerks m.src).id
      (some (w.clerks m.src).seq))
    (hpending : ∀ key, w.srv.pending key = false → srv.pending key = false)
    (hok : kvMap.ok w.srv.kv a.input { value := value }) :
    Inv id (w.answered k m srv value) (Function.update sched w.clock [call.op]) := by
  have hm := List.mem_of_getElem? hk
  have hfree : ¬ sched.Scheduled call.op := fun hs => hnot (ha.scheduled.mp hs).2
  obtain ⟨hrec, hg, hstate, hplaced⟩ := h.recorded.write ha.op ha.pending hfree
  rw [h.state] at hstate hplaced
  have hsched : ∀ j, Schedule.Scheduled (Function.update sched w.clock [call.op]) j ↔
      j = call.op ∨ sched.Scheduled j := by
    intro j
    rw [← h.recorded.future (Nat.le_refl w.clock)]
    exact Schedule.scheduled_insert
  have hself : srv.Executed (w.clerks m.src).id (w.clerks m.src).seq :=
    ⟨_, by rw [hcache, Function.update_self], Nat.le_refl _⟩
  refine ⟨hrec, hstate.trans hkv.symm, fun key => hpending key (h.pending key), h.clerk_id,
    fun j s hs => ?_, fun j c hc => ?_, h.distinct, fun m' hm' => ?_, fun r hr => ?_,
    fun e he => ?_⟩
  · have hs' : srv.requestCache (id j) = some s := hs
    rw [hcache, h.clerk_id] at hs'
    by_cases hj : j = m.src
    · rw [hj, Function.update_self] at hs'
      cases hs'
      rw [hj]
      refine ⟨Nat.le_refl _, fun hnone => ?_⟩
      have hnone' : (w.clerks m.src).calling = none := hnone
      rw [Option.mem_def.mp hcall] at hnone'
      cases hnone'
    · rw [Function.update_of_ne fun heq => hj (hinj heq)] at hs'
      exact h.cache j s hs'
  · by_cases hj : j = m.src
    · subst hj
      obtain rfl : call = c := Option.mem_unique hcall hc
      refine ⟨a, ha.number, ha.op, ha.pending, ha.request, ?_, fun _ x hx => ?_,
        fun e he heq _ => ?_, fun r hr hsrc hnum => ?_,
        fun m' hm' => ha.requests m' (List.mem_of_mem_eraseIdx hm')⟩
      · exact ⟨fun _ => ⟨hw, hself⟩, fun _ => (hsched _).mpr (.inl rfl)⟩
      · obtain ⟨hclient, hseq⟩ := write_request (ha.request ▸ hx)
        rw [← hrequest] at hx
        obtain ⟨hfirst, hexec⟩ : x ∉ w.executed ∧
            (answered w k m srv value).executed = w.executed ++ [x] :=
          hnum.executed_answered hx (by rw [hclient, hseq]; exact hnot)
        refine ⟨w.executed, [], hexec, hfirst, ?_⟩
        rw [← hnum.kv_eq]
        exact hplaced
      · rcases List.mem_append.mp he with hold | hnew
        · -- had it been answered before, it would have been executed
          exact absurd (h.executed_of_served hold (heq.trans ha.request) hw) hnot
        · rw [List.mem_singleton.mp hnew]
          exact ⟨_, hplaced, hok⟩
      · rcases List.mem_append.mp hr with hold | hnew
        · exact (ha.replies r hold hsrc hnum).mono hg
        · rw [List.mem_singleton.mp hnew]
          exact .inr ⟨_, hplaced, hok⟩
    · obtain ⟨b, hb⟩ := h.calling j c hc
      have hne : c.op ≠ call.op := fun heq => hj (h.distinct j m.src c hc call hcall heq)
      refine ⟨b, hb.frame hg (Nat.le_refl _) rfl hb.op ?_ ?_
        Numbered.executed_isPrefix_answered (fun e he => ?_) (fun r hr => ?_)
        (fun m' hm' => .inl (List.mem_of_mem_eraseIdx hm'))⟩
      · show srv.Executed _ _ ↔ w.srv.Executed _ _
        unfold KVServer.Executed
        rw [hcache, h.clerk_id, h.clerk_id, Function.update_of_ne fun heq => hj (hinj heq)]
      · rw [hsched]
        simp [hne]
      · rcases List.mem_append.mp he with hold | hnew
        · exact .inl hold
        · rw [List.mem_singleton.mp hnew]
          refine .inr fun heq hw' => ?_
          exact absurd (h.src_eq hinj hm (heq.trans hb.request) hw').symm hj
      · rcases List.mem_append.mp hr with hold | hnew
        · exact .inl hold
        · rw [List.mem_singleton.mp hnew]
          exact .inr fun hsrc => absurd hsrc.symm hj
  · obtain ⟨hnum, ck, inp, hreq, hck, hcase⟩ := h.requests m' (List.mem_of_mem_eraseIdx hm')
    refine ⟨hnum, ck, inp, hreq, hck, ?_⟩
    rcases hcase with hget | hex | hcur
    · exact .inl hget
    · exact .inr (.inl (h.executed_mono hcache hex))
    · exact .inr (.inr hcur)
  · rcases List.mem_append.mp hr with hold | hnew
    · exact h.replies r hold
    · rw [List.mem_singleton.mp hnew]
      exact (h.requests m hm).1
  · rcases List.mem_append.mp he with hold | hnew
    · obtain ⟨ck, inp, hreq, hex⟩ := h.served e hold
      exact ⟨ck, inp, hreq, fun hw' => h.executed_mono hcache (hex hw')⟩
    · rw [List.mem_singleton.mp hnew]
      exact ⟨w.clerks m.src, a.input, hrequest.trans ha.request, fun _ => hself⟩

/-- An executed `Append` that is delivered again is answered as it was the first time. -/
theorem Inv.again (h : Inv id w sched) (hnum : Numbered id w) {i : Fin n} {call : Call}
    {a : Operation KvInput KvOutput} {value : Str} (ha : InProgress w sched i call a)
    (hw : a.input.op ≠ .get) (hex : w.srv.Executed (w.clerks i).id (w.clerks i).seq)
    (hvalue : ∀ args, call.request = .append args →
      value = cutLast (w.srv.kv args.key) args.value)
    (hok : Unrepeated w call.request) :
    ∃ s, Placed kvMap w.ops sched w.clock call.op s ∧
      kvMap.ok s a.input { value := value } := by
  have hs := ha.scheduled.mpr ⟨hw, hex⟩
  obtain ⟨s, hp⟩ := h.recorded.placed hs
  cases hop : a.input.op with
  | get => exact absurd hop hw
  | put => exact ⟨s, hp, kvMap_ok_put (.inl hop) s _⟩
  | append => exact ⟨s, hp, kvMap_ok_put (.inr hop) s _⟩
  | appendReturn =>
      have hreq : call.request = .append
          { key := a.input.key, value := a.input.value, clientId := (w.clerks i).id
            seq := (w.clerks i).seq } := by
        rw [ha.request, Clerk.request, hop]
      obtain ⟨pre, post, hsplit, hfirst, hp⟩ := ha.origin hs _ (by rw [hreq]; rfl)
      refine ⟨_, hp, (kvMap_ok_appendReturn hop).mpr ?_⟩
      rw [hreq] at hok
      rw [hvalue _ hreq]
      exact cutLast_of_unrepeated hnum.kv_eq hsplit hfirst hok

/-- The request of the call in progress is delivered. -/
theorem Inv.deliver_current (h : Inv id w sched) (hnum : Numbered id w)
    (hinj : Function.Injective id) {k : Nat} {m : Message n} {srv : KVServer} {value : Str}
    {call : Call} (hk : w.requests[k]? = some m)
    (hcall : call ∈ (w.clerks m.src).calling) (hcur : call.request = m.request)
    (hok : Unrepeated w m.request) (hserve : w.srv.serve m.request = some (srv, value)) :
    ∃ sched', Inv id (w.answered k m srv value) sched' := by
  obtain ⟨a, ha⟩ := h.calling m.src call hcall
  have hreq : m.request = (w.clerks m.src).request a.input := hcur.symm.trans ha.request
  -- there is one call in progress, of one operation
  have honly : ∀ {call' a'}, InProgress w sched m.src call' a' →
      call' ∈ (w.clerks m.src).calling → call' = call ∧ a' = a := by
    intro call' a' ha' hcall'
    obtain rfl : call' = call := Option.mem_unique hcall' hcall
    exact ⟨rfl, Option.some.inj (ha'.op.symm.trans ha.op)⟩
  rw [hreq] at hserve
  rcases serve_request hserve with ⟨hget, rfl, rfl⟩ | ⟨hw, hex, rfl, hvalue⟩ |
    ⟨hw, hnew, hkv, hcache, hpend, hanswer⟩
  · refine ⟨sched, h.reply hinj hk ⟨_, _, hreq, fun hw => absurd hget hw⟩
      fun call' a' ha' hcall' _ => ?_⟩
    obtain ⟨rfl, rfl⟩ := honly ha' hcall'
    refine .inl ⟨hget, w.clock, Nat.le_of_lt (h.recorded.past ha.op), Nat.lt_succ_self _, ?_⟩
    rw [kvMap_ok_get hget, h.state]
  · refine ⟨sched, h.reply hinj hk ⟨_, _, hreq, fun _ => hex⟩ fun call' a' ha' hcall' _ => ?_⟩
    obtain ⟨rfl, rfl⟩ := honly ha' hcall'
    have hagain := h.again hnum ha hw hex
      (fun args heq => hvalue args (ha.request.symm.trans heq)) (hcur ▸ hok)
    exact Answers.mono h.recorded.tick.2 (.inr hagain)
  · exact ⟨_, h.execute hnum hinj hk hcall ha hcur.symm hw hnew hkv hcache hpend hanswer⟩

theorem Inv.deliver (h : Inv id w sched) (hnum : Numbered id w) (hinj : Function.Injective id)
    {k : Nat} {m : Message n} {srv : KVServer} {value : Str} (hok : Retraces w (.deliver k))
    (hk : w.requests[k]? = some m) (hserve : w.srv.serve m.request = some (srv, value)) :
    ∃ sched', Inv id (w.answered k m srv value) sched' := by
  by_cases hcur : ∃ call ∈ (w.clerks m.src).calling, call.request = m.request
  · obtain ⟨call, hcall, heq⟩ := hcur
    exact h.deliver_current hnum hinj hk hcall heq (hok m hk call hcall heq.symm) hserve
  · -- an old request: a read, or a write that was executed; nobody waits for it
    have hnobody : ∀ call a, InProgress w sched m.src call a →
        call ∈ (w.clerks m.src).calling → m.request = call.request →
        Answers w.ops sched (w.clock + 1) call.op a { value := value } :=
      fun call a _ hcall heq => absurd ⟨call, hcall, heq.symm⟩ hcur
    obtain ⟨-, ck, inp, hreq, -, hcase⟩ := h.requests m (List.mem_of_getElem? hk)
    rw [hreq] at hserve
    rcases serve_request hserve with ⟨hget, rfl, -⟩ | ⟨hw, hex, rfl, -⟩ | ⟨hw, hnew, -⟩
    · exact ⟨sched, h.reply hinj hk ⟨ck, inp, hreq, fun hw => absurd hget hw⟩ hnobody⟩
    · exact ⟨sched, h.reply hinj hk ⟨ck, inp, hreq, fun _ => hex⟩ hnobody⟩
    · rcases hcase with hget | hex | hcall
      · exact absurd hget hw
      · exact absurd hex hnew
      · exact absurd hcall hcur

/-- A reply is read and its call returns. -/
theorem Inv.finish (h : Inv id w sched) {k : Nat} {r : Reply n} {call : Call}
    (hk : w.replies[k]? = some r) (hcall : (w.clerks r.src).calling = some call)
    (hnum : call.number = r.number) : ∃ sched', Inv id (w.taken k r call) sched' := by
  obtain ⟨a, ha⟩ := h.calling r.src call hcall
  have hans := ha.replies r (List.mem_of_getElem? hk) rfl hnum.symm
  have hexec : a.input.op = .get ∨
      w.srv.Executed (w.clerks r.src).id (w.clerks r.src).seq := by
    by_cases hget : a.input.op = .get
    · exact .inl hget
    · obtain ⟨s, hp, -⟩ := hans.placed hget
      exact .inr (ha.scheduled.mp hp.scheduled).2
  obtain ⟨sched', hrec, hg, hsched, hstate⟩ := hans.ret h.recorded ha.op ha.pending
    fun hget hs => (ha.scheduled.mp hs).1 hget
  refine ⟨sched', hrec, hstate.trans h.state, h.pending, fun j => ?_, fun j s hs => ?_,
    fun j c hc => ?_, fun j j' c hc c' hc' heq => ?_, fun m hm => ?_,
    fun r' hr' => h.replies r' (List.mem_of_mem_eraseIdx hr'), h.served⟩
  · exact (taken_id j).trans (h.clerk_id j)
  · obtain ⟨hle, hlt⟩ := h.cache j s hs
    by_cases hj : j = r.src
    · rw [hj, taken_self]
      rw [hj] at hle
      exact ⟨Nat.le_succ_of_le hle, fun _ => Nat.lt_succ_of_le hle⟩
    · rw [taken_ne hj]
      exact ⟨hle, hlt⟩
  · obtain ⟨hj, hc⟩ := calling_taken hc
    obtain ⟨b, hb⟩ := h.calling j c hc
    have hne : c.op ≠ call.op := fun heq => hj (h.distinct j r.src c hc call hcall heq)
    refine ⟨b, hb.frame hg (Nat.le_refl _) (taken_ne hj) ?_ Iff.rfl (hsched _ hne)
      (List.prefix_refl _) (fun e he => .inl he)
      (fun r' hr' => .inl (List.mem_of_mem_eraseIdx hr')) (fun m hm => .inl hm)⟩
    exact (getElem?_returned_ne w.ops hne _ _).trans hb.op
  · exact h.distinct j j' c (calling_taken hc).2 c' (calling_taken hc').2 heq
  · obtain ⟨hlt, ck, inp, hreq, hck, hcase⟩ := h.requests m hm
    have hid : ((w.taken k r call).clerks m.src).id = (w.clerks m.src).id := taken_id m.src
    rcases hcase with hget | hex | ⟨c, hc, hcr⟩
    · exact ⟨hlt, ck, inp, hreq, hck.trans hid.symm, .inl hget⟩
    · exact ⟨hlt, ck, inp, hreq, hck.trans hid.symm, .inr (.inl hex)⟩
    · by_cases hj : m.src = r.src
      · -- the request of the call that returns has been executed, if it is a write
        rw [hj, hcall] at hc
        cases hc
        refine ⟨hlt, w.clerks r.src, a.input, hcr.symm.trans ha.request, ?_, ?_⟩
        · rw [hid, hj]
        · exact hexec.imp_right fun hex => .inl hex
      · refine ⟨hlt, ck, inp, hreq, hck.trans hid.symm, .inr (.inr ⟨c, ?_, hcr⟩)⟩
        rw [taken_ne hj]
        exact hc

theorem Inv.step (h : Inv id w sched) (hnum : Numbered id w) (hinj : Function.Injective id)
    {act : Action n} (hok : Retraces w act) (hs : w.step act = some w') :
    ∃ sched', Inv id w' sched' := by
  cases trans_of_step hs with
  | invoke i inp hidle => exact ⟨sched, h.invoke hidle inp⟩
  | resend i call hcall => exact ⟨sched, h.resend hcall⟩
  | deliver k m srv value hk hserve => exact h.deliver hnum hinj hok hk hserve
  | receive k r call hk hcall hnum => exact h.finish hk hcall hnum

end Steps

theorem inv_init (id : Fin n → Int64) : Inv id (init id) fun _ => [] where
  recorded := Recorded.init kvMap
  state := rfl
  pending := fun _ => rfl
  clerk_id := fun _ => rfl
  cache := fun _ _ hs => by cases hs
  calling := fun _ _ hc => by cases hc
  distinct := fun _ _ _ hc => by cases hc
  requests := fun _ hm => by cases hm
  replies := fun _ hr => by cases hr
  served := fun _ he => by cases he

theorem Inv.path {id : Fin n → Int64} (hinj : Function.Injective id) {w : Service n}
    (hp : Run.Path Service.step Retraces (init id) w) : ∃ sched, Inv id w sched := by
  have hinv : Numbered id w ∧ ∃ sched, Inv id w sched := by
    refine hp.invariant (P := fun w => Numbered id w ∧ ∃ sched, Inv id w sched) ?_
      ⟨.init id, _, inv_init id⟩
    rintro w act w' ⟨hnum, sched, h⟩ hok hs
    exact ⟨hnum.step hinj hs, h.step hnum hinj hok hs⟩
  exact hinv.2

/-- The calls of the clerks are linearizable, and an `Append` is answered with the same old
value however often it is delivered. -/
theorem clerks_linearizable {id : Fin n → Int64} (hinj : Function.Injective id) {w : Service n}
    (hp : Run.Path step Retraces (init id) w) :
    Linearizable kvMap w.ops ∧
    ∀ i, ∀ call ∈ (w.clerks i).calling, ∀ a ∈ w.ops[call.op]?, a.input.op = .appendReturn →
      ∀ e ∈ w.served, ∀ e' ∈ w.served, e.1 = call.request → e'.1 = call.request →
        e.2 = e'.2 := by
  obtain ⟨sched, h⟩ := Inv.path hinj hp
  refine ⟨h.recorded.linearizable, fun i call hcall a ha hop e he e' he' heq heq' => ?_⟩
  obtain ⟨b, hb⟩ := h.calling i call hcall
  obtain rfl : a = b := Option.some.inj ((Option.mem_def.mp ha).symm.trans hb.op)
  have hw : a.input.op ≠ .get := by
    rw [hop]
    decide
  obtain ⟨s, hp, hok⟩ := hb.served e he heq hw
  obtain ⟨s', hp', hok'⟩ := hb.served e' he' heq' hw
  obtain rfl := h.recorded.placed_unique hp hp'
  rw [kvMap_ok_appendReturn hop] at hok hok'
  exact hok.trans hok'.symm

/-- A clerk appends the letter `a`, or `b`, to the key `x`. -/
def appendA : KvInput := { op := .appendReturn, key := [120], value := [97] }

def appendB : KvInput := { op := .appendReturn, key := [120], value := [98] }

/-- The first reply to clerk 0 is lost, and clerk 1 appends another letter before clerk 0
sends again. -/
def sentAgain : List (Action 2) :=
  [.invoke 0 appendA, .deliver 0, .invoke 1 appendB, .deliver 0, .receive 1, .resend 0,
   .deliver 0, .receive 1]

theorem sentAgain_linearizable : ∃ w : Service 2, Run.Path step Retraces (init ids) w ∧
    w.ops.map (fun a => a.result.map fun r => r.1.value) = [some [], some [97]] ∧
    Linearizable kvMap w.ops :=
  ⟨_, Run.path_of_exec sentAgain rfl, by decide,
    (clerks_linearizable ids_injective (Run.path_of_exec sentAgain rfl)).1⟩

/-- The first reply to clerk 0 is lost, and clerk 1 appends the same letter before clerk 0
sends again.  The last `a` of the value is then the one of clerk 1. -/
def sentAgainLate : List (Action 2) :=
  [.invoke 0 appendA, .deliver 0, .invoke 1 appendA, .deliver 0, .receive 1, .resend 0,
   .deliver 0, .receive 1]

/-- Neither append can be the first: both returned a value that was not there initially. -/
theorem sentAgainLate_not_linearizable : ∃ w : Service 2,
    Run.Path step Run.always (init ids) w ∧
    w.ops.map (fun a => (a.input, a.result.map fun r => r.1.value)) =
      [(appendA, some [97]), (appendA, some [97])] ∧
    ¬ Linearizable kvMap w.ops := by
  refine ⟨_, Run.path_of_exec sentAgainLate rfl, by decide, ?_⟩
  rintro ⟨order, h⟩
  cases order with
  | nil => exact absurd (h.completed 0 _ rfl (by decide)) List.not_mem_nil
  | cons k rest =>
      have hk : k < 2 := h.called k List.mem_cons_self
      have hlegal := h.legal.1
      have hcases : k = 0 ∨ k = 1 := by omega
      rcases hcases with rfl | rfl <;>
        exact absurd ((kvMap_ok_appendReturn rfl).mp (hlegal _ rfl _ rfl)) (by decide)

end Service
end KvSrv
end Labs
