import Labs.AtMostOnce
import Labs.LabRpc.Network

/-!
# What a call may rely on

The network is one that executes calls at most once, whatever its settings, and a caller
that gets a reply gets it only if the server was there when the handler had returned.
-/

namespace Labs
namespace LabRpc

variable {N : Type} {rn rn' : Network N} {c c' : Call N}

/-! ## A call and its handler -/

def Handler.server : Handler → Option Nat
  | .idle => none
  | .launched server | .running server | .finished server _ | .taken server _ => some server

/-- The reply that will be returned, or was. -/
def Phase.answer : Phase N → Option Bytes
  | .delayed reply => some reply
  | .replying reply | .returned reply => reply
  | _ => none

/-- `processReq` has looked up the server of the request, and it has been or may be passed to
its handler. -/
def Call.LookedUp (c : Call N) : Prop :=
  c.handler ≠ .idle ∨ ∃ info, c.phase = .connected info

/-- Where a call and its handler may stand together. -/
def Call.Consistent (c : Call N) : Prop :=
  match c.phase with
  | .sending | .aborted | .received | .tallied | .accepted | .connected _ => c.handler = .idle
  | .waiting info => c.handler.server = some info.server ∧ ∀ server reply,
      c.handler ≠ .taken server reply
  | .left info none => c.handler.server = some info.server
  | .left info (some reply) => c.handler = .taken info.server reply
  | .delayed reply | .replying (some reply) | .returned (some reply) =>
    ∃ server, c.handler = .taken server reply
  | .replying none | .returned none => True

/-- The handler moves on while nobody has its reply. -/
theorem Call.Consistent.handler (hc : c.Consistent) {handler : Handler}
    (hbusy : c.handler ≠ .idle) (hopen : ∀ server reply, c.handler ≠ .taken server reply)
    (hserver : handler.server = c.handler.server)
    (htaken : ∀ info, c.phase = .waiting info → ∀ server reply, handler ≠ .taken server reply) :
    ({ c with handler := handler } : Call N).Consistent := by
  obtain ⟨endname, svcMeth, args, phase, old⟩ := c
  cases phase with
  | sending => exact absurd hc hbusy
  | aborted => exact absurd hc hbusy
  | received => exact absurd hc hbusy
  | tallied => exact absurd hc hbusy
  | accepted => exact absurd hc hbusy
  | connected info => exact absurd hc hbusy
  | waiting info => exact ⟨hserver.trans hc.1, htaken info rfl⟩
  | left info reply =>
      cases reply with
      | none => exact hserver.trans hc
      | some reply => exact absurd hc (hopen _ _)
  | delayed reply =>
      obtain ⟨server, hs⟩ := hc
      exact absurd hs (hopen _ _)
  | replying reply =>
      cases reply with
      | none => trivial
      | some reply =>
          obtain ⟨server, hs⟩ := hc
          exact absurd hs (hopen _ _)
  | returned reply =>
      cases reply with
      | none => trivial
      | some reply =>
          obtain ⟨server, hs⟩ := hc
          exact absurd hs (hopen _ _)

/-- Nobody but the handler has made up a reply. -/
theorem Call.Consistent.taken (hc : c.Consistent) {reply : Bytes}
    (h : c.phase.answer = some reply) : ∃ server, c.handler = .taken server reply := by
  unfold Call.Consistent at hc
  cases hphase : c.phase with
  | delayed r =>
      rw [hphase] at h hc
      cases h
      exact hc
  | replying r =>
      rw [hphase] at h hc
      cases r with
      | none => cases h
      | some r =>
          cases h
          exact hc
  | returned r =>
      rw [hphase] at h hc
      cases r with
      | none => cases h
      | some r =>
          cases h
          exact hc
  | sending | aborted | received | tallied | accepted | connected | waiting | left =>
      rw [hphase] at h
      cases h

theorem Network.Moves.consistent {act : CallAction} (h : rn.Moves c act rn' c')
    (hc : c.Consistent) : c'.Consistent := by
  cases h with
  | dispatchFails server rs e hhandler hrs he => exact hc
  | pollAlive info hphase halive => exact hc
  | dispatch server rs method hhandler hrs hmethod =>
      refine hc.handler ?_ ?_ ?_ ?_ <;> simp [hhandler, Handler.server]
  | finish server reply hhandler =>
      refine hc.handler ?_ ?_ ?_ ?_ <;> simp [hhandler, Handler.server]
  | drain server reply hphase hhandler =>
      refine hc.handler ?_ ?_ ?_ fun info heq => absurd heq (hphase info) <;>
        simp [hhandler, Handler.server]
  | accept hphase hidle hstopped =>
      simp only [Call.Consistent, hphase] at hc ⊢
      exact hc
  | addCount hphase =>
      simp only [Call.Consistent, hphase] at hc ⊢
      exact hc
  | addBytes hphase =>
      simp only [Call.Consistent, hphase] at hc ⊢
      exact hc
  | abort hphase hdone =>
      simp only [Call.Consistent, hphase] at hc ⊢
      exact hc
  | readConnected info hphase hinfo =>
      simp only [Call.Consistent, hphase] at hc ⊢
      exact hc
  | readUnreachable hphase hnone => trivial
  | drop info hphase hunreliable => trivial
  | launch info hphase => exact ⟨rfl, fun _ _ heq => by cases heq⟩
  | take info server reply hphase hhandler =>
      simp only [Call.Consistent, hphase, hhandler, Handler.server] at hc ⊢
      rw [Option.some.inj hc.1]
  | pollDead info hphase hdead =>
      simp only [Call.Consistent, hphase] at hc ⊢
      exact hc.1
  | checkNone lost info hphase => trivial
  | checkDead lost info reply hphase hdead => trivial
  | checkLost info reply hphase halive hunreliable => trivial
  | check info reply hphase halive =>
      simp only [Call.Consistent, hphase] at hc ⊢
      exact ⟨info.server, hc⟩
  | reply reply hphase =>
      simp only [Call.Consistent, hphase] at hc ⊢
      exact hc
  | receive reply hphase =>
      cases reply with
      | none => trivial
      | some reply =>
          simp only [Call.Consistent, hphase] at hc ⊢
          exact hc

/-! ## At most once -/

def Handler.execution : Handler → AtMostOnce.Execution Bytes
  | .idle | .launched _ => .idle
  | .running _ => .running
  | .finished _ reply | .taken _ reply => .finished reply

/-- What `Call` has returned. -/
def Phase.outcome : Phase N → Option (Option Bytes)
  | .aborted => some none
  | .returned reply => some reply
  | _ => none

/-- The call as its caller and the server see it. -/
def Call.abs (c : Call N) : AtMostOnce.Call (N × Models.Str × Bytes) Bytes where
  args := (c.endname, c.svcMeth, c.args)
  execution := c.handler.execution
  outcome := c.phase.outcome

/-- A section is a step of the handler, the return of the call, or neither. -/
theorem Network.Moves.abs {act : CallAction} (h : rn.Moves c act rn' c') (hc : c.Consistent) :
    c'.abs = c.abs ∨ AtMostOnce.Move c.abs c'.abs := by
  have hphase_abs : ∀ phase : Phase N, phase.outcome = c.phase.outcome →
      ({ c with phase := phase } : Call N).abs = c.abs := by
    intro phase heq
    simp only [Call.abs, heq]
  cases h with
  | accept hphase hidle hstopped => exact .inl (hphase_abs _ (by rw [hphase]; rfl))
  | addCount hphase => exact .inl (hphase_abs _ (by rw [hphase]; rfl))
  | addBytes hphase => exact .inl (hphase_abs _ (by rw [hphase]; rfl))
  | abort hphase hdone =>
      exact .inr (.fail c.abs (by simp only [Call.abs, hphase, Phase.outcome]))
  | readConnected info hphase hinfo => exact .inl (hphase_abs _ (by rw [hphase]; rfl))
  | readUnreachable hphase hnone => exact .inl (hphase_abs _ (by rw [hphase]; rfl))
  | drop info hphase hunreliable => exact .inl (hphase_abs _ (by rw [hphase]; rfl))
  | launch info hphase =>
      simp only [Call.Consistent, hphase] at hc
      refine .inl ?_
      simp only [Call.abs, hphase, hc, Phase.outcome, Handler.execution]
  | dispatchFails server rs e hhandler hrs he => exact .inl rfl
  | dispatch server rs method hhandler hrs hmethod =>
      exact .inr (.start c.abs (by simp only [Call.abs, hhandler, Handler.execution]))
  | finish server reply hhandler =>
      exact .inr (.finish c.abs reply (by simp only [Call.abs, hhandler, Handler.execution]))
  | take info server reply hphase hhandler =>
      refine .inl ?_
      simp only [Call.abs, hphase, hhandler, Phase.outcome, Handler.execution]
  | pollDead info hphase hdead => exact .inl (hphase_abs _ (by rw [hphase]; rfl))
  | pollAlive info hphase halive => exact .inl rfl
  | drain server reply hphase hhandler =>
      refine .inl ?_
      simp only [Call.abs, hhandler, Handler.execution]
  | checkNone lost info hphase => exact .inl (hphase_abs _ (by rw [hphase]; rfl))
  | checkDead lost info reply hphase hdead => exact .inl (hphase_abs _ (by rw [hphase]; rfl))
  | checkLost info reply hphase halive hunreliable =>
      exact .inl (hphase_abs _ (by rw [hphase]; rfl))
  | check info reply hphase halive => exact .inl (hphase_abs _ (by rw [hphase]; rfl))
  | reply reply hphase => exact .inl (hphase_abs _ (by rw [hphase]; rfl))
  | receive reply hphase =>
      have hopen : c.abs.outcome = none := by simp only [Call.abs, hphase, Phase.outcome]
      cases reply with
      | none => exact .inr (.fail c.abs hopen)
      | some reply =>
          simp only [Call.Consistent, hphase] at hc
          obtain ⟨server, hserver⟩ := hc
          exact .inr (.succeed c.abs reply hopen
            (by simp only [Call.abs, hserver, Handler.execution]))

/-- The section starts the handler of the `k`-th call. -/
def NetAction.starts (k : Nat) : NetAction N → Bool
  | .moves j .dispatch => j = k
  | _ => false

/-- The handler of the `k`-th call returns. -/
def NetAction.finishes (k : Nat) : NetAction N → Bool
  | .moves j (.finish _) => j = k
  | _ => false

/-- The `k`-th call returns. -/
def NetAction.returns (k : Nat) : NetAction N → Bool
  | .moves j .abort => j = k
  | .moves j .receive => j = k
  | _ => false

def Call.startsLeft (c : Call N) : Nat :=
  match c.handler with
  | .idle | .launched _ => 1
  | .running _ | .finished .. | .taken .. => 0

def Call.finishesLeft (c : Call N) : Nat :=
  match c.handler with
  | .idle | .launched _ | .running _ => 1
  | .finished .. | .taken .. => 0

def Call.returnsLeft (c : Call N) : Nat :=
  match c.phase.outcome with
  | none => 1
  | some _ => 0

namespace Network

variable [DecidableEq N] {act : NetAction N}

def Consistent (rn : Network N) : Prop := ∀ c ∈ rn.calls, c.Consistent

theorem Consistent.step (h : rn.Consistent) (hs : rn.step act = some rn') : rn'.Consistent :=
  calls_invariant (P := fun _ c => c.Consistent) hs h (fun _ _ _ => rfl) (fun _ hc => hc)
    fun _ _ _ _ _ hmove _ hc => hmove.consistent hc

theorem Consistent.path {ok : Network N → NetAction N → Prop} (h : rn.Consistent)
    (hp : Run.Path Network.step ok rn rn') : rn'.Consistent :=
  hp.invariant (fun _ _ _ hc _ hs => hc.step hs) h

omit [DecidableEq N] in
theorem consistent_makeNetwork : (makeNetwork : Network N).Consistent := by
  intro c hc
  cases hc

theorem atMostOnce_of_step (h : rn.Consistent) (hs : rn.step act = some rn') :
    Relation.ReflTransGen AtMostOnce.Step (rn.calls.map Call.abs) (rn'.calls.map Call.abs) := by
  cases trans_of_step hs with
  | call endname svcMeth args =>
      rw [List.map_append]
      exact .single (.invoke _ _)
  | moves k act c c' rn'' hk hmove =>
      rw [List.map_set]
      have hget : (rn.calls.map Call.abs)[k]? = some c.abs := by rw [List.getElem?_map, hk]; rfl
      rcases hmove.abs (h c (List.mem_of_getElem? hk)) with heq | hstep
      · obtain ⟨hlt, hthere⟩ := List.getElem?_eq_some_iff.mp hget
        rw [heq, ← hthere, List.set_getElem_self]
      · exact .single (.move _ k _ _ hget hstep)
  | stop | makeServer | addService | makeEnd | deleteEnd | addServer | deleteServer | connect
  | enable | setReliable | cleanup | getCount | exits => exact .refl

/-- A run of the network is a run of calls that are executed at most once. -/
theorem atMostOnce_path (h : rn.Consistent) (hp : Run.Path step Run.always rn rn') :
    Relation.ReflTransGen AtMostOnce.Step (rn.calls.map Call.abs) (rn'.calls.map Call.abs) :=
  (hp.invariant (P := fun rn' => Relation.ReflTransGen AtMostOnce.Step
    (rn.calls.map Call.abs) (rn'.calls.map Call.abs) ∧ rn'.Consistent)
    (fun _ _ _ ⟨hsteps, hc⟩ _ hs => ⟨hsteps.trans (atMostOnce_of_step hc hs), hc.step hs⟩)
    ⟨.refl, h⟩).1

/-! ### Counting the sections of a call -/

/-- What the `k`-th call has left of something that happens to it once: nothing when the
program has ended, and all of it before the call is made. -/
def left (f : Call N → Nat) (k : Nat) (rn : Network N) : Nat :=
  if rn.exited = none then ((rn.calls[k]?).map f).getD 1 else 0

omit [DecidableEq N] in
theorem left_eq {f : Call N → Nat} {k : Nat} (h : rn.exited = none) :
    rn.left f k = ((rn.calls[k]?).map f).getD 1 := if_pos h

omit [DecidableEq N] in
theorem left_le {f : Call N → Nat} (hf : ∀ c, f c ≤ 1) (k : Nat) (rn : Network N) :
    rn.left f k ≤ 1 := by
  unfold left
  split
  · cases rn.calls[k]? with
    | none => exact Nat.le_refl 1
    | some c => exact hf c
  · exact Nat.zero_le 1

/-- The action is a section of the `k`-th call, and every such section takes of what the call
has left, unless it ends the program. -/
structure Charges (f : Call N → Nat) (k : Nat) (p : NetAction N → Bool) : Prop where
  le : ∀ c, f c ≤ 1
  own : ∀ act, p act = true → ∃ a, act = .moves k a
  pays : ∀ {rn rn' : Network N} {c c' : Call N} {a : CallAction}, rn.Moves c a rn' c' →
    c.Consistent → (p (.moves k a)).toNat ≤ f c ∧
      (rn'.exited = none → (p (.moves k a)).toNat + f c' ≤ f c)

theorem Charges.step {f : Call N → Nat} {k : Nat} {p : NetAction N → Bool} (h : Charges f k p)
    (hc : rn.Consistent) (hs : rn.step act = some rn') :
    (p act).toNat + rn'.left f k ≤ rn.left f k := by
  have hrun := running_of_step hs
  -- a step that is no section of the call
  have hquiet : (∀ a, act ≠ .moves k a) → rn'.left f k ≤ rn.left f k →
      (p act).toNat + rn'.left f k ≤ rn.left f k := by
    intro hnot hle
    have hno : p act = false := by
      cases hpa : p act with
      | false => rfl
      | true =>
          obtain ⟨a, ha⟩ := h.own act hpa
          exact absurd ha (hnot a)
    rw [hno]
    show 0 + rn'.left f k ≤ rn.left f k
    omega
  have hsame : rn'.calls[k]? = rn.calls[k]? → rn'.left f k ≤ rn.left f k := by
    intro hcalls
    rw [left_eq hrun, ← hcalls]
    unfold left
    split
    · exact Nat.le_refl _
    · exact Nat.zero_le _
  cases trans_of_step hs with
  | moves j a c c' rn'' hj hmoves =>
      by_cases hjk : j = k
      · subst hjk
        obtain ⟨hle, hpays⟩ := h.pays hmoves (hc c (List.mem_of_getElem? hj))
        rw [left_eq hrun, hj]
        by_cases hexit : rn''.exited = none
        · have hset : (rn.calls.set j c')[j]? = some c' :=
            List.getElem?_set_self (List.getElem?_eq_some_iff.mp hj).1
          have hnext : left f j { rn'' with calls := rn.calls.set j c' } = f c' := by
            refine (if_pos hexit).trans ?_
            show ((rn.calls.set j c')[j]?.map f).getD 1 = f c'
            rw [hset]
            rfl
          rw [hnext]
          exact hpays hexit
        · have hnext : left f j { rn'' with calls := rn.calls.set j c' } = 0 := if_neg hexit
          rw [hnext]
          exact hle
      · refine hquiet (fun a' heq => hjk ?_) (hsame (List.getElem?_set_ne hjk))
        cases heq
        rfl
  | call endname svcMeth args =>
      refine hquiet (fun _ heq => by cases heq) ?_
      rcases Nat.lt_or_ge k rn.calls.length with hlt | hge
      · exact hsame (List.getElem?_append_left hlt)
      · rw [left_eq hrun, List.getElem?_eq_none hge]
        exact left_le h.le k _
  | exits act e hnot => exact hquiet (hnot k) (hsame rfl)
  | stop | makeServer | addService | makeEnd | deleteEnd | addServer | deleteServer | connect
  | enable | setReliable | cleanup | getCount =>
      exact hquiet (fun _ heq => by cases heq) (hsame rfl)

/-- So it happens at most once in a run. -/
theorem Charges.countP_le {f : Call N → Nat} {k : Nat} {p : NetAction N → Bool}
    (h : Charges f k p) {acts : List (NetAction N)}
    (hrun : Run.exec Network.step Run.always (makeNetwork : Network N) acts = some rn) :
    acts.countP p ≤ 1 := by
  have hleft := Run.exec_invariant
    (P := fun acts rn => rn.Consistent ∧ acts.countP p + rn.left f k ≤ 1)
    (fun done rn act rn' ⟨hc, hspent⟩ _ hs => by
      have hcharge := h.step hc hs
      have hone : ([act] : List (NetAction N)).countP p = (p act).toNat := by
        cases hpa : p act <;> simp [hpa]
      refine ⟨hc.step hs, ?_⟩
      rw [List.countP_append, hone]
      omega)
    acts (show _ ∧ ([] : List (NetAction N)).countP p + _ ≤ 1 from
      ⟨consistent_makeNetwork, by simp [left_le h.le]⟩) hrun
  exact Nat.le_trans (Nat.le_add_right _ _) hleft.2

omit [DecidableEq N] in
theorem charges_starts (k : Nat) : Charges (N := N) Call.startsLeft k (NetAction.starts k) where
  le := fun c => by unfold Call.startsLeft; split <;> decide
  own := fun act h => by
    unfold NetAction.starts at h
    split at h
    · exact ⟨.dispatch, by rw [of_decide_eq_true h]⟩
    · cases h
  pays := fun {rn rn' c c' a} h hc => by
    cases h with
    | dispatch server rs method hhandler hrs hmethod =>
        simp [NetAction.starts, Call.startsLeft, hhandler]
    | dispatchFails server rs e hhandler hrs he =>
        simp [NetAction.starts, Call.startsLeft, hhandler, exit]
    | launch info hphase =>
        simp only [Call.Consistent, hphase] at hc
        simp [NetAction.starts, Call.startsLeft, hc]
    | finish server reply hhandler => simp [NetAction.starts, Call.startsLeft, hhandler]
    | take info server reply hphase hhandler =>
        simp [NetAction.starts, Call.startsLeft, hhandler]
    | drain server reply hphase hhandler => simp [NetAction.starts, Call.startsLeft, hhandler]
    | accept | addCount | addBytes | abort | readConnected | readUnreachable | drop | pollDead
    | pollAlive | checkNone | checkDead | checkLost | check | reply | receive =>
        simp [NetAction.starts, Call.startsLeft]

omit [DecidableEq N] in
theorem charges_finishes (k : Nat) :
    Charges (N := N) Call.finishesLeft k (NetAction.finishes k) where
  le := fun c => by unfold Call.finishesLeft; split <;> decide
  own := fun act h => by
    unfold NetAction.finishes at h
    split at h
    · next reply => exact ⟨.finish reply, by rw [of_decide_eq_true h]⟩
    · cases h
  pays := fun {rn rn' c c' a} h hc => by
    cases h with
    | dispatch server rs method hhandler hrs hmethod =>
        simp [NetAction.finishes, Call.finishesLeft, hhandler]
    | launch info hphase =>
        simp only [Call.Consistent, hphase] at hc
        simp [NetAction.finishes, Call.finishesLeft, hc]
    | finish server reply hhandler => simp [NetAction.finishes, Call.finishesLeft, hhandler]
    | take info server reply hphase hhandler =>
        simp [NetAction.finishes, Call.finishesLeft, hhandler]
    | drain server reply hphase hhandler =>
        simp [NetAction.finishes, Call.finishesLeft, hhandler]
    | accept | addCount | addBytes | abort | readConnected | readUnreachable | drop
    | dispatchFails | pollDead | pollAlive | checkNone | checkDead | checkLost | check | reply
    | receive => simp [NetAction.finishes, Call.finishesLeft]

omit [DecidableEq N] in
theorem charges_returns (k : Nat) : Charges (N := N) Call.returnsLeft k (NetAction.returns k) where
  le := fun c => by unfold Call.returnsLeft; split <;> decide
  own := fun act h => by
    unfold NetAction.returns at h
    split at h
    · exact ⟨.abort, by rw [of_decide_eq_true h]⟩
    · exact ⟨.receive, by rw [of_decide_eq_true h]⟩
    · cases h
  pays := fun {rn rn' c c' a} h hc => by
    cases h with
    | dispatchFails | dispatch | finish | pollAlive | drain =>
        simp [NetAction.returns, Call.returnsLeft]
    | accept hphase | addCount hphase | addBytes hphase | abort hphase | readConnected info hphase
    | readUnreachable hphase | drop info hphase | launch info hphase
    | take info server reply hphase | pollDead info hphase | checkNone lost info hphase
    | checkDead lost info reply hphase | checkLost info reply hphase | check info reply hphase
    | reply reply hphase | receive reply hphase =>
        simp [NetAction.returns, Call.returnsLeft, Phase.outcome, hphase]

omit [DecidableEq N] in
/-- A reply is the one with which the handler returned in this section or an earlier one. -/
theorem Moves.finished {a : CallAction} (h : rn.Moves c a rn' c') {reply : Bytes}
    (hdone : c'.handler.execution = .finished reply) :
    a = .finish reply ∨ c.handler.execution = .finished reply := by
  cases h with
  | finish server reply' hhandler =>
      cases hdone
      exact .inl rfl
  | dispatch server rs method hhandler hrs hmethod => cases hdone
  | launch info hphase => cases hdone
  | take info server reply' hphase hhandler =>
      rw [hhandler]
      exact .inr hdone
  | drain server reply' hphase hhandler =>
      rw [hhandler]
      exact .inr hdone
  | accept | addCount | addBytes | abort | readConnected | readUnreachable | drop | dispatchFails
  | pollDead | pollAlive | checkNone | checkDead | checkLost | check | reply | receive =>
      exact .inr hdone

/-- The handlers that have returned have done so in the sections taken. -/
theorem finished_of_exec {acts : List (NetAction N)}
    (hrun : Run.exec step Run.always (makeNetwork : Network N) acts = some rn) {k : Nat}
    (hk : rn.calls[k]? = some c) {reply : Bytes} (hdone : c.handler.execution = .finished reply) :
    .moves k (.finish reply) ∈ acts := by
  have hinv := Run.exec_invariant
    (P := fun acts rn => rn.Consistent ∧ ∀ c, rn.calls[k]? = some c →
      c.handler.execution = .finished reply → .moves k (.finish reply) ∈ acts)
    (fun done rn act rn' ⟨hc, hfin⟩ _ hs => ⟨hc.step hs, fun c' hk' hdone' => by
      rcases call_of_step hs hk' with ⟨-, -, hidle⟩ | ⟨c, hget, -, rfl | ⟨a, rn'', ha, hmove⟩⟩
      · rw [hidle] at hdone'
        cases hdone'
      · exact List.mem_append_left _ (hfin c' hget hdone')
      · rcases hmove.finished hdone' with rfl | hbefore
        · rw [ha]
          exact List.mem_append_right _ List.mem_cons_self
        · exact List.mem_append_left _ (hfin c hget hbefore)⟩)
    acts (show _ ∧ ∀ _, _ → _ → _ ∈ [] from
      ⟨consistent_makeNetwork, fun c hk => by cases hk⟩) hrun
  exact hinv.2 c hk hdone

/-- However often the settings change: in a run the handler of a call starts at most once and
returns at most once, and the call returns at most once; a caller that gets a reply gets the
one that the handler of its own call has returned.  What follows on a state that is reached
is a run of calls which are executed at most once. -/
theorem executes_at_most_once {acts : List (NetAction N)}
    (hrun : Run.exec step Run.always (makeNetwork : Network N) acts = some rn) :
    (∀ k, acts.countP (NetAction.starts k) ≤ 1 ∧ acts.countP (NetAction.finishes k) ≤ 1 ∧
      acts.countP (NetAction.returns k) ≤ 1) ∧
    (∀ k c, rn.calls[k]? = some c → ∀ reply, c.phase = .returned (some reply) →
      c.handler.execution = .finished reply ∧ .moves k (.finish reply) ∈ acts) ∧
    ∀ rn', Run.Path step Run.always rn rn' →
      Relation.ReflTransGen AtMostOnce.Step (rn.calls.map Call.abs) (rn'.calls.map Call.abs) := by
  have hpath := Run.path_of_exec acts hrun
  refine ⟨fun k => ⟨(charges_starts k).countP_le hrun, (charges_finishes k).countP_le hrun,
    (charges_returns k).countP_le hrun⟩, fun k c hk reply hphase => ?_,
    fun rn' hp => atMostOnce_path (consistent_makeNetwork.path hpath) hp⟩
  have htrue := AtMostOnce.truthful_of_steps (atMostOnce_path consistent_makeNetwork hpath)
    c.abs (List.mem_map_of_mem (List.mem_of_getElem? hk))
  have hdone : c.handler.execution = .finished reply :=
    htrue reply (by show c.phase.outcome = _; rw [hphase]; rfl)
  exact ⟨hdone, finished_of_exec hrun hk hdone⟩

/-- One server with a method, and an end that is connected to it. -/
def wiring : List (NetAction Bool) :=
  [.makeServer,
   .addService 0 (makeService [75] [{ name := [71], pkgPath := [], numIn := 3, replyIsPtr := true,
                                      numOut := 0 }]),
   .makeEnd true, .addServer true 0, .connect true true, .enable true true]

/-- A call whose handler has returned, and whose reply is decided on. -/
def answering : List (NetAction Bool) :=
  wiring ++
    [.call true [75, 46, 71] [1], .moves 0 .accept, .moves 0 .addCount, .moves 0 .addBytes,
     .moves 0 .read, .moves 0 .launch, .moves 0 .dispatch, .moves 0 .poll,
     .moves 0 (.finish [9]), .moves 0 .take, .moves 0 (.check false)]

theorem executes_at_most_once_answering : ∃ (rn : Network Bool) (acts : List (NetAction Bool)),
    Run.exec step Run.always makeNetwork acts = some rn ∧
    rn.calls.map (fun c => c.phase) = [.returned (some [9])] ∧
    acts.countP (NetAction.starts 0) = 1 ∧ .moves 0 (.finish [9]) ∈ acts := by
  have hrun : (Run.exec step Run.always (makeNetwork : Network Bool)
      (answering ++ [.moves 0 .reply, .moves 0 .receive])).map (fun rn => rn.calls) =
      some [{ endname := true, svcMeth := [75, 46, 71], args := [1],
              phase := .returned (some [9]), handler := .taken 0 [9] }] := by
    decide +kernel
  obtain ⟨rn, hexec, hcalls⟩ := Option.map_eq_some_iff.mp hrun
  obtain ⟨hcounts, hreplies, -⟩ := executes_at_most_once hexec
  have hstarts : 1 ≤ (answering ++ [NetAction.moves 0 .reply, .moves 0 .receive]).countP
      (NetAction.starts 0) := by
    decide
  exact ⟨rn, _, hexec, congrArg (List.map fun c => c.phase) hcalls,
    Nat.le_antisymm (hcounts 0).1 hstarts,
    (hreplies 0 _ (congrArg (fun calls => calls[0]?) hcalls) [9] rfl).2⟩

/-! ## Servers that are gone -/

/-- The server is not added under any name. -/
def NeverAdds (server : Nat) (_ : Network N) : NetAction N → Prop
  | .addServer _ other => other ≠ server
  | _ => True

omit [DecidableEq N] in
instance (server : Nat) (rn : Network N) (act : NetAction N) :
    Decidable (NeverAdds server rn act) :=
  match act with
  | .addServer _ other => inferInstanceAs (Decidable (other ≠ server))
  | .call .. | .moves .. | .stop | .makeServer | .addService .. | .makeEnd _ | .deleteEnd _
  | .deleteServer _ | .connect .. | .enable .. | .setReliable _ | .cleanup
  | .getCount _ => isTrue trivial

/-- No name leads to the server. -/
def Gone (rn : Network N) (server : Nat) : Prop := ∀ servername, rn.servers servername ≠ some server

omit [DecidableEq N] in
theorem Moves.settings {act : CallAction} (h : rn.Moves c act rn' c') :
    rn'.servers = rn.servers ∧ rn'.enabled = rn.enabled ∧ rn'.connections = rn.connections ∧
      rn'.reliable = rn.reliable ∧ rn'.done = rn.done ∧ rn'.ends = rn.ends ∧
      rn'.stopped = rn.stopped := by
  cases h <;> exact ⟨rfl, rfl, rfl, rfl, rfl, rfl, rfl⟩

theorem Gone.step {server : Nat} (h : rn.Gone server) (hact : NeverAdds server rn act)
    (hs : rn.step act = some rn') : rn'.Gone server := by
  intro name
  cases trans_of_step hs with
  | moves k act c c' rn'' hk hmove =>
      show rn''.servers name ≠ _
      rw [hmove.settings.1]
      exact h name
  | addServer servername other hlt =>
      show Function.update rn.servers servername (some other) name ≠ _
      rw [Function.update_apply]
      split
      · intro heq
        cases heq
        exact hact rfl
      · exact h name
  | deleteServer servername =>
      show Function.update rn.servers servername none name ≠ _
      rw [Function.update_apply]
      split
      · exact fun heq => by cases heq
      · exact h name
  | call | stop | makeServer | addService | makeEnd | deleteEnd | connect | enable | setReliable
  | cleanup | getCount | exits => exact h name

omit [DecidableEq N] in
/-- A reply is decided on only by a look at the network that finds the server. -/
theorem Moves.answer {act : CallAction} (h : rn.Moves c act rn' c') (hc : c.Consistent)
    {server : Nat} {reply : Bytes} (hserver : c'.handler = .taken server reply)
    (hanswer : c'.phase.answer = some reply) :
    c.handler = .taken server reply ∧ (c.phase.answer = some reply ∨
      ∃ servername, rn.isServerDead c.endname servername server = false) := by
  cases h with
  | accept | addCount | addBytes | abort | readConnected | readUnreachable | drop | launch
  | pollDead | checkNone | checkDead | checkLost => cases hanswer
  | take info server' reply' hphase hhandler => cases hanswer
  | dispatchFails server' rs e hhandler hrs he => exact ⟨hserver, .inl hanswer⟩
  | pollAlive info hphase halive => exact ⟨hserver, .inl hanswer⟩
  | dispatch server' rs method hhandler hrs hmethod => cases hserver
  | finish server' reply' hhandler => cases hserver
  | drain server' reply' hphase hhandler =>
      obtain ⟨other, htaken⟩ := hc.taken hanswer
      rw [hhandler] at htaken
      cases htaken
  | check info reply' hphase halive =>
      simp only [Call.Consistent, hphase] at hc
      rw [hc] at hserver
      cases hserver
      exact ⟨hc, .inr ⟨info.servername, halive⟩⟩
  | reply reply' hphase =>
      refine ⟨hserver, .inl ?_⟩
      rw [hphase]
      exact hanswer
  | receive reply' hphase =>
      refine ⟨hserver, .inl ?_⟩
      rw [hphase]
      exact hanswer

/-- The `k`-th call is one to the server whose reply is decided on. -/
def Answered (rn : Network N) (k server : Nat) (reply : Bytes) : Prop :=
  ∃ c, rn.calls[k]? = some c ∧ c.handler = .taken server reply ∧ c.phase.answer = some reply

/-- After a server is gone no reply of it is decided on. -/
theorem answered_before_gone {k server : Nat} {reply : Bytes} (h : rn.Consistent)
    (hgone : rn.Gone server) (hs : rn.step act = some rn') (ha : rn'.Answered k server reply) :
    rn.Answered k server reply := by
  obtain ⟨c', hk, hserver, hanswer⟩ := ha
  rcases call_of_step hs hk with ⟨-, -, hidle⟩ | ⟨c, hc, -, rfl | ⟨a, rn'', -, hmove⟩⟩
  · rw [hidle] at hserver
    cases hserver
  · exact ⟨c', hc, hserver, hanswer⟩
  · obtain ⟨hthere, hbefore | ⟨servername, halive⟩⟩ :=
      hmove.answer (h c (List.mem_of_getElem? hc)) hserver hanswer
    · exact ⟨c, hc, hthere, hbefore⟩
    · simp [isServerDead, hgone servername] at halive

/-- A caller that gets a reply from a server that was deleted meanwhile, and not added again,
gets one that was decided on before: its handler had returned when the server was deleted.
So what a tester copies after it has deleted a server has the effects of every call to it
that succeeds. -/
theorem reply_before_delete {server : Nat}
    (hp : Run.Path step Run.always (makeNetwork : Network N) rn) (hgone : rn.Gone server)
    (hp' : Run.Path step (NeverAdds server) rn rn') {k : Nat} {reply : Bytes}
    (hk : rn'.calls[k]? = some c') (hserver : c'.handler.server = some server)
    (hreply : c'.phase = .returned (some reply)) : rn.Answered k server reply := by
  have hc := consistent_makeNetwork.path hp
  have htrace := hp'.traced (P := fun t => t.Consistent ∧ t.Gone server)
    (Q := fun t => t.Answered k server reply)
    (fun t act t' ⟨hct, hgt⟩ hact hs =>
      ⟨⟨hct.step hs, hgt.step hact hs⟩, answered_before_gone hct hgt hs⟩) ⟨hc, hgone⟩
  have hanswer : c'.phase.answer = some reply := by rw [hreply]; rfl
  obtain ⟨other, htaken⟩ := (hc.path hp' c' (List.mem_of_getElem? hk)).taken hanswer
  rw [htaken] at hserver
  cases hserver
  exact htrace.2 ⟨c', hk, htaken, hanswer⟩

/-- The server is deleted while the reply to the call is under way. -/
theorem reply_before_delete_answering : ∃ rn rn' : Network Bool,
    Run.Path step Run.always makeNetwork rn ∧ Run.Path step (NeverAdds 0) rn rn' ∧
    rn.servers true = none ∧ rn.Answered 0 0 [9] := by
  have hrun : ((Run.exec step Run.always (makeNetwork : Network Bool)
      (answering ++ [.deleteServer true])).bind fun rn =>
      (Run.exec step (NeverAdds 0) rn [.moves 0 .reply, .moves 0 .receive]).map fun rn' =>
        ((rn.servers true, rn.servers false), rn'.calls[0]?)) =
      some ((none, none), some { endname := true, svcMeth := [75, 46, 71], args := [1],
                                 phase := .returned (some [9]), handler := .taken 0 [9] }) := by
    decide +kernel
  obtain ⟨rn, rn', hp, hp', hservers, hk⟩ := Run.paths_of_exec_map _ _ _ _ hrun
  obtain ⟨htrue, hfalse⟩ := Prod.mk.inj hservers
  have hgone : rn.Gone 0 := by
    intro name
    cases name <;> simp [htrue, hfalse]
  exact ⟨rn, rn', hp, hp', htrue, reply_before_delete hp hgone hp' hk rfl rfl⟩

/-! ## Ends that are disabled -/

/-- The end is not enabled. -/
def NeverEnables (endname : N) (_ : Network N) : NetAction N → Prop
  | .enable other yes => other = endname → yes = false
  | _ => True

instance (endname : N) (rn : Network N) (act : NetAction N) :
    Decidable (NeverEnables endname rn act) :=
  match act with
  | .enable other yes => inferInstanceAs (Decidable (other = endname → yes = false))
  | .call .. | .moves .. | .stop | .makeServer | .addService .. | .makeEnd _ | .deleteEnd _
  | .addServer .. | .deleteServer _ | .connect .. | .setReliable _ | .cleanup
  | .getCount _ => isTrue trivial

theorem disabled_of_step {endname : N} (h : rn.enabled endname = false)
    (hact : NeverEnables endname rn act) (hs : rn.step act = some rn') :
    rn'.enabled endname = false := by
  cases trans_of_step hs with
  | moves k act c c' rn'' hk hmove =>
      show rn''.enabled endname = false
      rw [hmove.settings.2.1]
      exact h
  | makeEnd other hnew =>
      show Function.update rn.enabled other false endname = false
      rw [Function.update_apply]
      split <;> first | rfl | exact h
  | deleteEnd other =>
      show Function.update rn.enabled other false endname = false
      rw [Function.update_apply]
      split <;> first | rfl | exact h
  | enable other yes =>
      show Function.update rn.enabled other yes endname = false
      rw [Function.update_apply]
      split
      · next heq => exact hact heq.symm
      · exact h
  | call | stop | makeServer | addService | addServer | deleteServer | connect | setReliable
  | cleanup | getCount | exits => exact h

omit [DecidableEq N] in
theorem Moves.lookedUp {act : CallAction} (h : rn.Moves c act rn' c')
    (hoff : rn.enabled c.endname = false) (hr : c'.LookedUp) : c.LookedUp := by
  have hbusy : ∀ {handler : Handler}, c.handler = handler → handler ≠ .idle → c.LookedUp :=
    fun heq hne => .inl (by rw [heq]; exact hne)
  cases h with
  | launch info hphase => exact .inr ⟨info, hphase⟩
  | readConnected info hphase hinfo =>
      unfold readEndnameInfo at hinfo
      rw [hoff] at hinfo
      cases hinfo
  | dispatchFails server rs e hhandler hrs he => exact hr
  | pollAlive info hphase halive => exact hr
  | dispatch server rs method hhandler hrs hmethod => exact hbusy hhandler (by simp)
  | finish server reply hhandler => exact hbusy hhandler (by simp)
  | take info server reply hphase hhandler => exact hbusy hhandler (by simp)
  | drain server reply hphase hhandler => exact hbusy hhandler (by simp)
  | accept | addCount | addBytes | abort | readUnreachable | drop | pollDead | checkNone
  | checkDead | checkLost | check | reply | receive =>
      rcases hr with hhandler | ⟨info, hphase⟩
      · exact .inl hhandler
      · cases hphase

theorem lookedUp_before_disabled {endname : N} {k : Nat} (hoff : rn.enabled endname = false)
    (hs : rn.step act = some rn')
    (hr : ∃ c, rn'.calls[k]? = some c ∧ c.endname = endname ∧ c.LookedUp) :
    ∃ c, rn.calls[k]? = some c ∧ c.endname = endname ∧ c.LookedUp := by
  obtain ⟨c', hk, hend, hr⟩ := hr
  rcases call_of_step hs hk with ⟨-, hphase, hidle⟩ | ⟨c, hc, heq, rfl | ⟨a, rn'', -, hmove⟩⟩
  · rcases hr with hbusy | ⟨info, hinfo⟩
    · exact absurd hidle hbusy
    · rw [hphase] at hinfo
      cases hinfo
  · exact ⟨c', hc, hend, hr⟩
  · rw [heq] at hend
    rw [← hend] at hoff
    exact ⟨c, hc, hend, hmove.lookedUp hoff hr⟩

theorem answered_before_disabled {endname : N} {k : Nat} {reply : Bytes} (h : rn.Consistent)
    (hoff : rn.enabled endname = false) (hs : rn.step act = some rn')
    (ha : ∃ c, rn'.calls[k]? = some c ∧ c.endname = endname ∧ c.phase.answer = some reply) :
    ∃ c, rn.calls[k]? = some c ∧ c.endname = endname ∧ c.phase.answer = some reply := by
  obtain ⟨c', hk, hend, ha⟩ := ha
  rcases call_of_step hs hk with ⟨-, hphase, -⟩ | ⟨c, hc, heq, rfl | ⟨a, rn'', -, hmove⟩⟩
  · rw [hphase] at ha
    cases ha
  · exact ⟨c', hc, hend, ha⟩
  · rw [heq] at hend
    have hcc := h c (List.mem_of_getElem? hc)
    obtain ⟨server, htaken⟩ := (hmove.consistent hcc).taken ha
    obtain ⟨-, hbefore | ⟨servername, halive⟩⟩ := hmove.answer hcc htaken ha
    · exact ⟨c, hc, hend, hbefore⟩
    · simp [isServerDead, hend, hoff] at halive

/-- Once an end is disabled, and as long as it is not enabled again, no request on it reaches
a handler whose server had not been looked up, and no caller on it gets a reply that was not
decided on. -/
theorem disabled_end_cut_off {endname : N}
    (hp : Run.Path step Run.always (makeNetwork : Network N) rn)
    (hoff : rn.enabled endname = false) (hp' : Run.Path step (NeverEnables endname) rn rn')
    {k : Nat} (hk : rn'.calls[k]? = some c') (hend : c'.endname = endname) :
    (c'.handler ≠ .idle → ∃ c, rn.calls[k]? = some c ∧ c.endname = endname ∧ c.LookedUp) ∧
      ∀ reply, c'.phase = .returned (some reply) →
        ∃ c, rn.calls[k]? = some c ∧ c.endname = endname ∧ c.phase.answer = some reply := by
  have hc := consistent_makeNetwork.path hp
  constructor
  · intro hbusy
    have htrace := hp'.traced (P := fun t => t.enabled endname = false)
      (Q := fun t => ∃ c, t.calls[k]? = some c ∧ c.endname = endname ∧ c.LookedUp)
      (fun t act t' hofft hact hs =>
        ⟨disabled_of_step hofft hact hs, lookedUp_before_disabled hofft hs⟩) hoff
    exact htrace.2 ⟨c', hk, hend, .inl hbusy⟩
  · intro reply hreply
    have htrace := hp'.traced (P := fun t => t.Consistent ∧ t.enabled endname = false)
      (Q := fun t => ∃ c, t.calls[k]? = some c ∧ c.endname = endname ∧
        c.phase.answer = some reply)
      (fun t act t' ⟨hct, hofft⟩ hact hs =>
        ⟨⟨hct.step hs, disabled_of_step hofft hact hs⟩,
          answered_before_disabled hct hofft hs⟩) ⟨hc, hoff⟩
    exact htrace.2 ⟨c', hk, hend, by rw [hreply]; rfl⟩

/-- The end is disabled before the reply to the call is decided on, which is then lost, and
before the server of another call is looked up. -/
theorem disabled_end_cut_off_answering : ∃ rn rn' : Network Bool,
    Run.Path step Run.always makeNetwork rn ∧ Run.Path step (NeverEnables true) rn rn' ∧
    rn'.calls.map (fun c => c.phase) = [.returned none, .returned none] ∧
    ∃ c, rn.calls[0]? = some c ∧ c.endname = true ∧ c.LookedUp := by
  have hrun : ((Run.exec step Run.always (makeNetwork : Network Bool)
      (answering.dropLast ++ [.call true [75, 46, 71] [2], .moves 1 .accept, .moves 1 .addCount,
        .moves 1 .addBytes, .enable true false])).bind fun rn =>
      (Run.exec step (NeverEnables true) rn
        [.moves 0 (.check false), .moves 1 .read, .moves 0 .receive, .moves 1 .receive]).map
        fun rn' => (rn.enabled true, rn'.calls)) =
      some (false,
        [{ endname := true, svcMeth := [75, 46, 71], args := [1], phase := .returned none,
           handler := .taken 0 [9] },
         { endname := true, svcMeth := [75, 46, 71], args := [2], phase := .returned none,
           handler := .idle }]) := by
    decide +kernel
  obtain ⟨rn, rn', hp, hp', hoff, hcalls⟩ := Run.paths_of_exec_map _ _ _ _ hrun
  have hcut := disabled_end_cut_off hp hoff hp' (congrArg (fun calls => calls[0]?) hcalls) rfl
  exact ⟨rn, rn', hp, hp', congrArg (List.map fun c => c.phase) hcalls,
    hcut.1 (fun hidle => by cases hidle)⟩

end Network
end LabRpc
end Labs
