import Labs.LabRpc.Calls

/-!
# Calls that return

A call on an intact connection of a reliable network never fails.  Any call returns unless
its handler does not, and does so even then once the server is gone.
-/

namespace Labs
namespace LabRpc

variable {N : Type} {rn rn' : Network N} {c c' : Call N}

/-! ## A reliable network -/

/-- No look at the network has found anything but the server, and nothing was dropped. -/
def Phase.Unhurt (servername : N) (server : Nat) : Phase N → Prop
  | .aborted => False
  | .connected info | .waiting info =>
    info = { servername := servername, server := server, reliable := true }
  | .left info reply =>
    info = { servername := servername, server := server, reliable := true } ∧ reply ≠ none
  | .replying reply | .returned reply => reply ≠ none
  | .sending | .received | .tallied | .accepted | .delayed _ => True

structure Call.Served (c : Call N) (servername : N) (server : Nat) : Prop where
  consistent : c.Consistent
  phase : c.phase.Unhurt servername server
  handler : ∀ other, c.handler.server = some other → other = server

theorem Call.Served.outcome {servername : N} {server : Nat} (h : c.Served servername server)
    {outcome : Option Bytes} (hreturned : c.phase.outcome = some outcome) :
    ∃ reply, outcome = some reply ∧ c.handler = .taken server reply := by
  have hphase := h.phase
  cases hp : c.phase with
  | returned reply =>
      rw [hp] at hreturned hphase
      cases hreturned
      cases outcome with
      | none => exact absurd rfl hphase
      | some reply =>
          obtain ⟨other, htaken⟩ := h.consistent.taken (by rw [hp]; rfl)
          have hserver := h.handler other (by rw [htaken]; rfl)
          rw [hserver] at htaken
          exact ⟨reply, rfl, htaken⟩
  | aborted =>
      rw [hp] at hphase
      exact hphase.elim
  | sending | received | tallied | accepted | connected | waiting | left | delayed | replying =>
      rw [hp] at hreturned
      cases hreturned

namespace Network

/-- The end is enabled and connected to the server, and the network is up and reliable. -/
structure Intact (rn : Network N) (endname servername : N) (server : Nat) : Prop where
  ends : rn.ends endname = true
  enabled : rn.enabled endname = true
  connected : rn.connections endname = some servername
  there : rn.servers servername = some server
  reliable : rn.reliable = true
  up : rn.done = false

/-- The action leaves the connection as it is. -/
def Leaves (endname servername : N) (server : Nat) (_ : Network N) : NetAction N → Prop
  | .enable other yes => other = endname → yes = true
  | .connect other name => other = endname → name = servername
  | .addServer name other => name = servername → other = server
  | .deleteServer name => name ≠ servername
  | .deleteEnd other => other ≠ endname
  | .setReliable yes => yes = true
  | .cleanup => False
  | _ => True

instance [DecidableEq N] (endname servername : N) (server : Nat) (rn : Network N)
    (act : NetAction N) : Decidable (Leaves endname servername server rn act) :=
  match act with
  | .enable other yes => inferInstanceAs (Decidable (other = endname → yes = true))
  | .connect other name => inferInstanceAs (Decidable (other = endname → name = servername))
  | .addServer name other => inferInstanceAs (Decidable (name = servername → other = server))
  | .deleteServer name => inferInstanceAs (Decidable (name ≠ servername))
  | .deleteEnd other => inferInstanceAs (Decidable (other ≠ endname))
  | .setReliable yes => inferInstanceAs (Decidable (yes = true))
  | .cleanup => isFalse id
  | .call .. | .moves .. | .stop | .makeServer | .addService .. | .makeEnd _
  | .getCount _ => isTrue trivial

theorem Intact.readEndnameInfo {endname servername : N} {server : Nat}
    (h : rn.Intact endname servername server) : rn.readEndnameInfo endname =
      some { servername := servername, server := server, reliable := true } := by
  simp [Network.readEndnameInfo, h.enabled, h.connected, h.there, h.reliable]

theorem Intact.alive {endname servername : N} {server : Nat}
    (h : rn.Intact endname servername server) :
    rn.isServerDead endname servername server = false := by
  simp [isServerDead, h.enabled, h.there]

theorem Moves.served {act : CallAction} {servername : N} {server : Nat}
    (h : rn.Moves c act rn' c') (hin : rn.Intact c.endname servername server)
    (hc : c.Served servername server) : c'.Served servername server := by
  have hphase := hc.phase
  refine ⟨h.consistent hc.consistent, ?_, ?_⟩
  · cases h with
    | accept hp hidle hstopped => trivial
    | addCount hp => trivial
    | addBytes hp => trivial
    | abort hp hdone =>
        rw [hin.up] at hdone
        cases hdone
    | readConnected info hp hinfo =>
        rw [hin.readEndnameInfo] at hinfo
        exact (Option.some.inj hinfo).symm
    | readUnreachable hp hnone =>
        rw [hin.readEndnameInfo] at hnone
        cases hnone
    | drop info hp hunreliable =>
        rw [hp] at hphase
        rw [hphase] at hunreliable
        cases hunreliable
    | launch info hp =>
        rw [hp] at hphase
        exact hphase
    | take info other reply hp hhandler =>
        rw [hp] at hphase
        exact ⟨hphase, Option.some_ne_none _⟩
    | pollDead info hp hdead =>
        rw [hp] at hphase
        rw [hphase, hin.alive] at hdead
        cases hdead
    | checkNone lost info hp =>
        rw [hp] at hphase
        exact absurd rfl hphase.2
    | checkDead lost info reply hp hdead =>
        rw [hp] at hphase
        rw [hphase.1, hin.alive] at hdead
        cases hdead
    | checkLost info reply hp halive hunreliable =>
        rw [hp] at hphase
        rw [hphase.1] at hunreliable
        cases hunreliable
    | check info reply hp halive => trivial
    | reply reply hp => exact Option.some_ne_none _
    | receive reply hp =>
        rw [hp] at hphase
        exact hphase
    | dispatchFails | pollAlive | dispatch | finish | drain => exact hphase
  · intro other hother
    cases h with
    | launch info hp =>
        rw [hp] at hphase
        rw [hphase] at hother
        exact (Option.some.inj hother).symm
    | dispatch server' rs method hhandler hrs hmethod =>
        exact hc.handler other (by rw [hhandler]; exact hother)
    | finish server' reply hhandler => exact hc.handler other (by rw [hhandler]; exact hother)
    | take info server' reply hp hhandler =>
        exact hc.handler other (by rw [hhandler]; exact hother)
    | drain server' reply hp hhandler => exact hc.handler other (by rw [hhandler]; exact hother)
    | accept | addCount | addBytes | abort | readConnected | readUnreachable | drop
    | dispatchFails | pollDead | pollAlive | checkNone | checkDead | checkLost | check | reply
    | receive => exact hc.handler other hother

variable [DecidableEq N] {act : NetAction N} {endname servername : N} {server : Nat}

theorem Intact.step (h : rn.Intact endname servername server)
    (hact : Leaves endname servername server rn act) (hs : rn.step act = some rn') :
    rn'.Intact endname servername server := by
  cases trans_of_step hs with
  | moves k act c c' rn'' hk hmove =>
      obtain ⟨hservers, henabled, hconnections, hreliable, hdone, hends, -⟩ := hmove.settings
      refine ⟨?_, ?_, ?_, ?_, ?_, ?_⟩
      · exact (congrFun hends endname).trans h.ends
      · exact (congrFun henabled endname).trans h.enabled
      · exact (congrFun hconnections endname).trans h.connected
      · exact (congrFun hservers servername).trans h.there
      · exact hreliable.trans h.reliable
      · exact hdone.trans h.up
  | makeEnd other hnew =>
      have hne : endname ≠ other := by
        rintro rfl
        rw [h.ends] at hnew
        cases hnew
      exact ⟨(Function.update_of_ne hne ..).trans h.ends,
        (Function.update_of_ne hne ..).trans h.enabled,
        (Function.update_of_ne hne ..).trans h.connected, h.there, h.reliable, h.up⟩
  | deleteEnd other =>
      have hne : endname ≠ other := fun heq => hact heq.symm
      exact ⟨(Function.update_of_ne hne ..).trans h.ends,
        (Function.update_of_ne hne ..).trans h.enabled,
        (Function.update_of_ne hne ..).trans h.connected, h.there, h.reliable, h.up⟩
  | addServer name other hlt =>
      refine ⟨h.ends, h.enabled, h.connected, ?_, h.reliable, h.up⟩
      show Function.update rn.servers name (some other) servername = _
      rw [Function.update_apply]
      split
      · next heq => rw [hact heq.symm]
      · exact h.there
  | deleteServer name =>
      exact ⟨h.ends, h.enabled, h.connected,
        (Function.update_of_ne (fun heq => hact heq.symm) ..).trans h.there, h.reliable, h.up⟩
  | connect other name =>
      refine ⟨h.ends, h.enabled, ?_, h.there, h.reliable, h.up⟩
      show Function.update rn.connections other (some name) endname = _
      rw [Function.update_apply]
      split
      · next heq => rw [hact heq.symm]
      · exact h.connected
  | enable other yes =>
      refine ⟨h.ends, ?_, h.connected, h.there, h.reliable, h.up⟩
      show Function.update rn.enabled other yes endname = _
      rw [Function.update_apply]
      split
      · next heq => exact hact heq.symm
      · exact h.enabled
  | setReliable yes => exact ⟨h.ends, h.enabled, h.connected, h.there, hact, h.up⟩
  | cleanup => exact hact.elim
  | call | stop | makeServer | addService | getCount | exits =>
      exact ⟨h.ends, h.enabled, h.connected, h.there, h.reliable, h.up⟩

/-- The calls on the end since there were `start` of them. -/
def Serves (rn : Network N) (start : Nat) (endname servername : N) (server : Nat) : Prop :=
  ∀ k c, start ≤ k → rn.calls[k]? = some c → c.endname = endname → c.Served servername server

theorem Serves.step {start : Nat} (h : rn.Serves start endname servername server)
    (hin : rn.Intact endname servername server) (hs : rn.step act = some rn') :
    rn'.Serves start endname servername server := by
  intro k c' hk hget hend
  rcases call_of_step hs hget with ⟨-, hphase, hidle⟩ | ⟨c, hc, heq, rfl | ⟨a, rn'', -, hmove⟩⟩
  · refine ⟨?_, ?_, ?_⟩
    · simp only [Call.Consistent, hphase, hidle]
    · rw [hphase]
      trivial
    · rw [hidle]
      exact fun other hother => by cases hother
  · exact h k c' hk hc hend
  · rw [heq] at hend
    rw [← hend] at hin
    exact hmove.served hin (h k c hk hc hend)

/-- As long as a connection of a reliable network is left as it is, a call on it that returns
returns true, with the reply of the handler at that server. -/
theorem reliable_call (hin : rn.Intact endname servername server)
    (hp : Run.Path step (Leaves endname servername server) rn rn') {k : Nat}
    (hk : rn'.calls[k]? = some c) (hnew : rn.calls.length ≤ k) (hend : c.endname = endname)
    {outcome : Option Bytes} (hreturned : c.phase.outcome = some outcome) :
    ∃ reply, outcome = some reply ∧ c.handler = .taken server reply := by
  obtain ⟨-, hserves⟩ := hp.invariant (P := fun t => t.Intact endname servername server ∧
      t.Serves rn.calls.length endname servername server)
    (fun t act t' ⟨hint, hserves⟩ hact hs => ⟨hint.step hact hs, hserves.step hint hs⟩)
    ⟨hin, fun k c hk hget _ => absurd (List.getElem?_eq_some_iff.mp hget).1 (Nat.not_lt.mpr hk)⟩
  exact (hserves k c hnew hk hend).outcome hreturned

/-- A call on the only connection, while another server comes and goes. -/
theorem reliable_call_answering : ∃ rn rn' : Network Bool,
    rn.Intact true true 0 ∧ Run.Path step (Leaves true true 0) rn rn' ∧
    ∃ c, rn'.calls[0]? = some c ∧ ∃ reply, some [9] = some reply ∧ c.handler = .taken 0 reply := by
  have hrun : ((Run.exec step Run.always (makeNetwork : Network Bool) wiring).bind fun rn =>
      (Run.exec step (Leaves true true 0) rn
        (answering.drop 6 ++ [.makeServer, .addServer false 1, .deleteServer false,
          .moves 0 .reply, .moves 0 .receive])).map fun rn' =>
        (decide (rn.ends true = true ∧ rn.enabled true = true ∧ rn.connections true = some true ∧
          rn.servers true = some 0 ∧ rn.reliable = true ∧ rn.done = false ∧ rn.calls.length = 0),
          rn'.calls[0]?)) =
      some (true, some { endname := true, svcMeth := [75, 46, 71], args := [1],
                         phase := .returned (some [9]), handler := .taken 0 [9] }) := by
    decide +kernel
  obtain ⟨rn, rn', -, hp, hsettings, hk⟩ := Run.paths_of_exec_map _ _ _ _ hrun
  obtain ⟨hends, henabled, hconnected, hthere, hreliable, hup, hlength⟩ :=
    of_decide_eq_true hsettings
  have hin : rn.Intact true true 0 := ⟨hends, henabled, hconnected, hthere, hreliable, hup⟩
  exact ⟨rn, rn', hin, hp, _, hk, reliable_call hin hp hk (Nat.le_of_eq hlength) rfl rfl⟩

end Network

/-! ## Every call returns -/

/-- The goroutine that accepts requests has the call. -/
def Phase.accepting : Phase N → Bool
  | .received | .tallied => true
  | _ => false

/-- How many sections are ahead at most. -/
def Phase.rank : Phase N → Nat
  | .sending => 10
  | .received => 9
  | .tallied => 8
  | .accepted => 7
  | .connected _ => 6
  | .waiting _ => 5
  | .left _ _ => 4
  | .delayed _ => 3
  | .replying _ => 2
  | .returned _ | .aborted => 0

def Handler.rank : Handler → Nat
  | .idle => 4
  | .launched _ => 3
  | .running _ => 2
  | .finished _ _ => 1
  | .taken _ _ => 0

def Call.rank (c : Call N) : Nat := c.phase.rank + c.handler.rank

/-- The return of the handler is up to the program that runs on the network. -/
def CallAction.ofHandler : CallAction → Bool
  | .finish _ => true
  | _ => false

/-- The server that the call has to do with is one of the first `m`. -/
def Call.Placed (c : Call N) (m : Nat) : Prop :=
  (∀ info, c.phase = .connected info → info.server < m) ∧
    ∀ server, c.handler.server = some server → server < m

theorem Call.Placed.mono {m m' : Nat} (h : c.Placed m) (hle : m ≤ m') : c.Placed m' :=
  ⟨fun info hi => Nat.lt_of_lt_of_le (h.1 info hi) hle,
    fun server hs => Nat.lt_of_lt_of_le (h.2 server hs) hle⟩

/-- One call changes, and a count of the calls with it. -/
theorem countP_set_add (p : Call N → Bool) {calls : List (Call N)} {k : Nat}
    (hk : calls[k]? = some c) (c' : Call N) :
    (calls.set k c').countP p + (p c).toNat = calls.countP p + (p c').toNat := by
  obtain ⟨hlt, hthere⟩ := List.getElem?_eq_some_iff.mp hk
  have hpos : (p c).toNat ≤ calls.countP p := by
    cases hpc : p c with
    | false => exact Nat.zero_le _
    | true => exact List.countP_pos_iff.mpr ⟨c, List.mem_of_getElem? hk, hpc⟩
  have hone : ∀ b : Bool, (if b = true then 1 else 0) = b.toNat := by decide
  rw [List.countP_set hlt, hthere, hone, hone]
  omega

namespace Network

/-- Every section brings a call closer to its end, but for a look at the network that finds
the server, and the end of the program. -/
theorem Moves.rank {act : CallAction} (h : rn.Moves c act rn' c') (hc : c.Consistent) :
    (rn' = rn ∧ c' = c) ∨ rn'.exited ≠ none ∨ c'.rank < c.rank := by
  cases h with
  | pollAlive info hphase halive => exact .inl ⟨rfl, rfl⟩
  | dispatchFails server rs e hhandler hrs he => exact .inr (.inl (Option.some_ne_none e))
  | launch info hphase =>
      simp only [Call.Consistent, hphase] at hc
      refine .inr (.inr ?_)
      simp only [Call.rank, hphase, hc, Phase.rank, Handler.rank]
      omega
  | dispatch server rs method hhandler hrs hmethod =>
      refine .inr (.inr ?_)
      simp only [Call.rank, hhandler, Handler.rank]
      omega
  | finish server reply hhandler =>
      refine .inr (.inr ?_)
      simp only [Call.rank, hhandler, Handler.rank]
      omega
  | take info server reply hphase hhandler =>
      refine .inr (.inr ?_)
      simp only [Call.rank, hphase, hhandler, Phase.rank, Handler.rank]
      omega
  | drain server reply hphase hhandler =>
      refine .inr (.inr ?_)
      simp only [Call.rank, hhandler, Handler.rank]
      omega
  | accept hphase | addCount hphase | addBytes hphase | abort hphase
  | readConnected info hphase | readUnreachable hphase | drop info hphase | pollDead info hphase
  | checkNone lost info hphase | checkDead lost info reply hphase | checkLost info reply hphase
  | check info reply hphase | reply reply hphase | receive reply hphase =>
      refine .inr (.inr ?_)
      simp only [Call.rank, hphase, Phase.rank]
      omega

/-- The servers that anybody refers to have been made.  The goroutine that accepts requests runs
until the network is destroyed, and has one request at a time. -/
structure Wired (rn : Network N) : Prop where
  stopped : rn.stopped = true → rn.done = true
  accepting : (rn.calls.countP fun c => c.phase.accepting) = rn.accepting.toNat
  servers : ∀ name server, rn.servers name = some server → server < rn.objects.length
  calls : ∀ c ∈ rn.calls, c.Placed rn.objects.length

theorem Moves.objects_length {act : CallAction} (h : rn.Moves c act rn' c') :
    rn'.objects.length = rn.objects.length := by
  cases h with
  | dispatchFails server rs e hhandler hrs he => exact List.length_set
  | dispatch server rs method hhandler hrs hmethod => exact List.length_set
  | accept | addCount | addBytes | abort | readConnected | readUnreachable | drop | launch
  | finish | take | pollDead | pollAlive | drain | checkNone | checkDead | checkLost | check
  | reply | receive => rfl

theorem Moves.placed {act : CallAction} (h : rn.Moves c act rn' c') (hw : rn.Wired)
    (hc : c.Placed rn.objects.length) : c'.Placed rn.objects.length := by
  have hsame : ∀ {handler : Handler}, handler.server = c.handler.server →
      ∀ server, handler.server = some server → server < rn.objects.length :=
    fun heq server hs => hc.2 server (heq ▸ hs)
  cases h with
  | readConnected info hphase hinfo =>
      refine ⟨fun info' heq => ?_, hc.2⟩
      cases heq
      unfold readEndnameInfo at hinfo
      split at hinfo
      · split at hinfo
        · cases hinfo
        · obtain ⟨server, hserver, rfl⟩ := Option.map_eq_some_iff.mp hinfo
          exact hw.servers _ server hserver
      · cases hinfo
  | launch info hphase =>
      refine ⟨fun info' heq => (by cases heq), fun server hs => ?_⟩
      cases hs
      exact hc.1 info hphase
  | dispatch server rs method hhandler hrs hmethod =>
      exact ⟨hc.1, hsame (by rw [hhandler]; rfl)⟩
  | finish server reply hhandler => exact ⟨hc.1, hsame (by rw [hhandler]; rfl)⟩
  | take info server reply hphase hhandler =>
      exact ⟨fun info' heq => (by cases heq), hsame (by rw [hhandler]; rfl)⟩
  | drain server reply hphase hhandler => exact ⟨hc.1, hsame (by rw [hhandler]; rfl)⟩
  | dispatchFails | pollAlive => exact hc
  | accept | addCount | addBytes | abort | readUnreachable | drop | pollDead | checkNone
  | checkDead | checkLost | check | reply | receive =>
      exact ⟨fun info' heq => (by cases heq), hc.2⟩

/-- It takes a request when it has none, and has none when it has passed it on. -/
theorem Moves.accepting {act : CallAction} (h : rn.Moves c act rn' c')
    (hbusy : c.phase.accepting = true → rn.accepting = true) :
    rn'.accepting.toNat + c.phase.accepting.toNat =
      rn.accepting.toNat + c'.phase.accepting.toNat := by
  cases h with
  | accept hphase hidle hstopped => simp [hphase, hidle, Phase.accepting]
  | addBytes hphase =>
      rw [hphase] at hbusy
      simp [hphase, hbusy rfl, Phase.accepting]
  | dispatchFails | dispatch | finish | pollAlive | drain => rfl
  | addCount hphase | abort hphase | readConnected info hphase | readUnreachable hphase
  | drop info hphase | launch info hphase | take info server reply hphase | pollDead info hphase
  | checkNone lost info hphase | checkDead lost info reply hphase | checkLost info reply hphase
  | check info reply hphase | reply reply hphase | receive reply hphase =>
      simp [hphase, Phase.accepting]

/-- A request that it has makes it busy. -/
theorem Wired.busy (hw : rn.Wired) (hmem : c ∈ rn.calls) (hacc : c.phase.accepting = true) :
    rn.accepting = true := by
  have hpos : 0 < rn.calls.countP fun c => c.phase.accepting :=
    List.countP_pos_iff.mpr ⟨c, hmem, hacc⟩
  rw [hw.accepting] at hpos
  cases hbusy : rn.accepting with
  | true => rfl
  | false =>
      rw [hbusy] at hpos
      cases hpos

theorem wired_makeNetwork : (makeNetwork : Network N).Wired where
  stopped := fun h => by cases h
  accepting := rfl
  servers := fun _ _ h => by cases h
  calls := fun _ h => by cases h

section

variable [DecidableEq N] {act : NetAction N}

theorem Wired.step (h : rn.Wired) (hs : rn.step act = some rn') : rn'.Wired := by
  have hlength : rn.objects.length ≤ rn'.objects.length := by
    cases trans_of_step hs with
    | moves k act c c' rn'' hk hmove => exact Nat.le_of_eq hmove.objects_length.symm
    | makeServer => exact List.length_append ▸ Nat.le_add_right _ _
    | addService server svc rs hrs => exact Nat.le_of_eq List.length_set.symm
    | call | stop | makeEnd | deleteEnd | addServer | deleteServer | connect | enable
    | setReliable | cleanup | getCount | exits => exact Nat.le_refl _
  have hcalls : ∀ c ∈ rn'.calls, c.Placed rn'.objects.length := by
    refine calls_invariant (P := fun rn c => c.Placed rn.objects.length) hs h.calls
      (fun _ _ _ => ⟨fun _ heq => (by cases heq), fun _ heq => by cases heq⟩)
      (fun c hc => hc.mono hlength) fun k a c c' rn'' hmove _ hc => ?_
    exact (hmove.placed h hc).mono hlength
  have hold : ∀ name server, rn.servers name = some server → server < rn'.objects.length :=
    fun name server heq => Nat.lt_of_lt_of_le (h.servers name server heq) hlength
  cases trans_of_step hs with
  | call endname svcMeth args =>
      refine ⟨h.stopped, ?_, hold, hcalls⟩
      rw [List.countP_append]
      exact h.accepting
  | moves k act c c' rn'' hk hmove =>
      obtain ⟨hservers, -, -, -, hdone, -, hstopped⟩ := hmove.settings
      refine ⟨fun hstop => ?_, ?_, fun name server heq => ?_, hcalls⟩
      · exact hdone.trans (h.stopped (hstopped.symm.trans hstop))
      · have hbusy := hmove.accepting (h.busy (List.mem_of_getElem? hk))
        have hset := countP_set_add (fun c => c.phase.accepting) hk c'
        have hold := h.accepting
        show (rn.calls.set k c').countP (fun c => c.phase.accepting) = rn''.accepting.toNat
        omega
      · exact hold name server ((congrFun hservers name).symm.trans heq)
  | stop hdone hidle => exact ⟨fun _ => hdone, h.accepting, hold, hcalls⟩
  | addServer servername other hlt =>
      refine ⟨h.stopped, h.accepting, fun name server heq => ?_, hcalls⟩
      have heq : Function.update rn.servers servername (some other) name = some server := heq
      rw [Function.update_apply] at heq
      split at heq
      · cases heq
        exact hlt
      · exact hold name server heq
  | deleteServer servername =>
      refine ⟨h.stopped, h.accepting, fun name server heq => ?_, hcalls⟩
      have heq : Function.update rn.servers servername none name = some server := heq
      rw [Function.update_apply] at heq
      split at heq
      · cases heq
      · exact hold name server heq
  | cleanup => exact ⟨fun _ => rfl, h.accepting, hold, hcalls⟩
  | makeServer | addService | makeEnd | deleteEnd | connect | enable | setReliable | getCount
  | exits => exact ⟨h.stopped, h.accepting, hold, hcalls⟩

end

/-- The call waits for its handler at a server that is there. -/
def Awaits (rn : Network N) (c : Call N) : Prop :=
  ∃ info, c.phase = .waiting info ∧ c.handler = .running info.server ∧
    rn.isServerDead c.endname info.servername info.server = false

/-- The call waits for the goroutine that accepts requests, which has another one. -/
def Queued (rn : Network N) (c : Call N) : Prop :=
  c.phase = .sending ∧ rn.accepting = true

/-- A goroutine of the call other than its handler can move, and gets it closer to its end. -/
def CanMove (rn : Network N) (c : Call N) : Prop :=
  ∃ act rn' c', act.ofHandler = false ∧ rn.move c act = some (rn', c') ∧
    (rn'.exited ≠ none ∨ c'.rank < c.rank)

theorem canMove_phase (act : CallAction) (phase : Phase N) (hact : act.ofHandler = false)
    (hmove : rn.move c act = some (rn', { c with phase := phase }))
    (hrank : phase.rank < c.phase.rank) : rn.CanMove c :=
  ⟨act, rn', _, hact, hmove, .inr (Nat.add_lt_add_right hrank _)⟩

/-- While a call waits, its handler can be started or its reply be taken, or it runs. -/
theorem canMove_waiting {info : Info N} (hphase : c.phase = .waiting info) (hc : c.Consistent)
    (hplaced : c.Placed rn.objects.length) (hfree : ¬ rn.Awaits c) : rn.CanMove c := by
  simp only [Call.Consistent, hphase] at hc
  cases hhandler : c.handler with
  | idle =>
      rw [hhandler] at hc
      cases hc.1
  | launched server =>
      have hlt := hplaced.2 server (by rw [hhandler]; rfl)
      obtain ⟨rs, hrs⟩ : ∃ rs, rn.objects[server]? = some rs := ⟨_, List.getElem?_eq_getElem hlt⟩
      cases hmethod : (rs.dispatch c.svcMeth : Except (Fatal N) Method) with
      | error e =>
          refine ⟨.dispatch, { rn with objects := rn.objects.set server rs.counted }.exit e, c, rfl,
            ?_, .inl (Option.some_ne_none e)⟩
          simp only [move, hhandler, dispatch, hrs, hmethod]
      | ok method =>
          refine ⟨.dispatch, { rn with objects := rn.objects.set server rs.counted },
            { c with handler := .running server }, rfl, ?_, .inr ?_⟩
          · simp only [move, hhandler, dispatch, hrs, hmethod]
          · simp [Call.rank, hhandler, Handler.rank]
  | running server =>
      have hserver : server = info.server := by
        rw [hhandler] at hc
        exact Option.some.inj hc.1
      have hdead : rn.isServerDead c.endname info.servername info.server = true := by
        cases hd : rn.isServerDead c.endname info.servername info.server with
        | true => rfl
        | false => exact absurd ⟨info, hphase, hserver ▸ hhandler, hd⟩ hfree
      exact canMove_phase .poll (.left info none) rfl
        (by simp only [move, hphase, hdead]; rfl) (by simp [hphase, Phase.rank])
  | finished server reply =>
      refine ⟨.take, rn,
        { c with phase := .left info (some reply), handler := .taken server reply }, rfl, ?_,
        .inr ?_⟩
      · simp only [move, hphase, hhandler]
      · simp [Call.rank, hphase, hhandler, Phase.rank, Handler.rank]
  | taken server reply => exact absurd hhandler (hc.2 _ _)

theorem canMove_left {info : Info N} {reply : Option Bytes} (hphase : c.phase = .left info reply) :
    rn.CanMove c := by
  cases reply with
  | none =>
      exact canMove_phase (.check false) (.replying none) rfl
        (by simp only [move, hphase]; rfl) (by simp [hphase, Phase.rank])
  | some reply =>
      cases hd : rn.isServerDead c.endname info.servername info.server with
      | true =>
          exact canMove_phase (.check false) (.replying none) rfl
            (by simp only [move, hphase, hd]; rfl) (by simp [hphase, Phase.rank])
      | false =>
          exact canMove_phase (.check false) (.delayed reply) rfl
            (by simp only [move, hphase, hd]; rfl) (by simp [hphase, Phase.rank])

/-- Unless a call has returned, waits for its handler or is not its turn, one of its goroutines
can move. -/
theorem canMove (hw : rn.Wired) (hc : c.Consistent) (hplaced : c.Placed rn.objects.length)
    (hopen : c.phase.outcome = none) (hfree : ¬ rn.Awaits c) (hturn : ¬ rn.Queued c) :
    rn.CanMove c := by
  cases hphase : c.phase with
  | sending =>
      have hidle : rn.accepting = false := Bool.eq_false_iff.mpr fun h => hturn ⟨hphase, h⟩
      cases hstopped : rn.stopped with
      | false =>
          exact canMove_phase .accept .received rfl
            (by simp only [move, hphase, hidle, hstopped]; rfl) (by simp [hphase, Phase.rank])
      | true =>
          exact canMove_phase .abort .aborted rfl
            (by simp only [move, hphase, hw.stopped hstopped]; rfl) (by simp [hphase, Phase.rank])
  | received =>
      exact canMove_phase .addCount .tallied rfl
        (by simp only [move, hphase]; rfl) (by simp [hphase, Phase.rank])
  | tallied =>
      exact canMove_phase .addBytes .accepted rfl
        (by simp only [move, hphase]; rfl) (by simp [hphase, Phase.rank])
  | accepted =>
      cases hinfo : rn.readEndnameInfo c.endname with
      | some info =>
          exact canMove_phase .read (.connected info) rfl
            (by simp only [move, hphase, hinfo]; rfl) (by simp [hphase, Phase.rank])
      | none =>
          exact canMove_phase .read (.replying none) rfl
            (by simp only [move, hphase, hinfo]; rfl) (by simp [hphase, Phase.rank])
  | connected info =>
      simp only [Call.Consistent, hphase] at hc
      refine ⟨.launch, rn, { c with phase := .waiting info, handler := .launched info.server },
        rfl, ?_, .inr ?_⟩
      · simp only [move, hphase]
      · simp [Call.rank, hphase, hc, Phase.rank, Handler.rank]
  | waiting info => exact canMove_waiting hphase hc hplaced hfree
  | left info reply => exact canMove_left hphase
  | delayed reply =>
      exact canMove_phase .reply (.replying (some reply)) rfl
        (by simp only [move, hphase]; rfl) (by simp [hphase, Phase.rank])
  | replying reply =>
      exact canMove_phase .receive (.returned reply) rfl
        (by simp only [move, hphase]; rfl) (by simp [hphase, Phase.rank])
  | aborted =>
      rw [hphase] at hopen
      cases hopen
  | returned reply =>
      rw [hphase] at hopen
      cases hopen

variable [DecidableEq N]

/-- A goroutine other than the handler can take a section of the `k`-th call that gets the call
closer to its end, unless it ends the program. -/
def Advances (rn : Network N) (k : Nat) : Prop :=
  ∃ act rn' c c', act.ofHandler = false ∧ rn.step (.moves k act) = some rn' ∧
    rn.calls[k]? = some c ∧ rn'.calls[k]? = some c' ∧ (rn'.exited ≠ none ∨ c'.rank < c.rank)

theorem step_of_move {k : Nat} {a : CallAction} (hrun : rn.exited = none)
    (hk : rn.calls[k]? = some c) (hmove : rn.move c a = some (rn', c')) :
    rn.step (.moves k a) = some { rn' with calls := rn.calls.set k c' } := by
  simp only [step, hrun, hk, hmove, Option.isSome_none, Bool.false_eq_true, if_false,
    Option.bind_eq_bind, Option.bind_some]

theorem CanMove.advances {k : Nat} (h : rn.CanMove c) (hrun : rn.exited = none)
    (hk : rn.calls[k]? = some c) : rn.Advances k := by
  obtain ⟨act, rn', c', hact, hmove, hrank⟩ := h
  exact ⟨act, _, c, c', hact, step_of_move hrun hk hmove, hk,
    List.getElem?_set_self (List.getElem?_eq_some_iff.mp hk).1, hrank⟩

/-- The request for which a call has to wait is passed on. -/
theorem Wired.advances (hw : rn.Wired) (hc : rn.Consistent) (hrun : rn.exited = none)
    (hbusy : rn.accepting = true) :
    ∃ (j : Nat) (d : Call N), rn.calls[j]? = some d ∧ d.phase.accepting = true ∧
      rn.Advances j := by
  have hpos : 0 < rn.calls.countP fun c => c.phase.accepting := by
    rw [hw.accepting, hbusy]
    exact Nat.one_pos
  obtain ⟨d, hd, hacc⟩ := List.countP_pos_iff.mp hpos
  obtain ⟨j, hj⟩ := List.mem_iff_getElem?.mp hd
  have hphase : d.phase = .received ∨ d.phase = .tallied := by
    cases hp : d.phase <;> simp [hp, Phase.accepting] at hacc ⊢
  refine ⟨j, d, hj, hacc, (canMove hw (hc d hd) (hw.calls d hd) ?_ ?_ ?_).advances hrun hj⟩
  · rcases hphase with hp | hp <;> rw [hp] <;> rfl
  · rintro ⟨info, hp, -⟩
    rw [hp] at hacc
    cases hacc
  · rintro ⟨hp, -⟩
    rw [hp] at hacc
    cases hacc

/-- What a handler sends can be received: by `processReq` as long as it waits, and then by the
goroutine that drains the channel. -/
theorem handler_send {k : Nat} {server : Nat} {reply : Bytes} (hrun : rn.exited = none)
    (hk : rn.calls[k]? = some c) (hdone : c.handler = .finished server reply) :
    ∃ act rn' c', (act = .take ∨ act = .drain) ∧ rn.step (.moves k act) = some rn' ∧
      rn'.calls[k]? = some c' ∧ c'.handler = .taken server reply := by
  have hset : ∀ c' : Call N, (rn.calls.set k c')[k]? = some c' :=
    fun c' => List.getElem?_set_self (List.getElem?_eq_some_iff.mp hk).1
  by_cases hwait : ∃ info, c.phase = .waiting info
  · obtain ⟨info, hphase⟩ := hwait
    have hmove : rn.move c .take =
        some (rn, { c with phase := .left info (some reply), handler := .taken server reply }) := by
      simp only [move, hphase, hdone]
    exact ⟨.take, _, _, .inl rfl, step_of_move hrun hk hmove, hset _, rfl⟩
  · have hmove : rn.move c .drain = some (rn, { c with handler := .taken server reply }) := by
      simp only [move, hdone]
      split
      · next info hphase => exact absurd ⟨info, hphase⟩ hwait
      · next hsame _ =>
          cases hsame
          rfl
      · next hnot => exact absurd rfl (hnot _ _)
    exact ⟨.drain, _, _, .inr rfl, step_of_move hrun hk hmove, hset _, rfl⟩

/-- The steps of a call come to an end: each brings it closer to its return, but for a look at
the network that finds the server there.  Until then one of its goroutines can move, unless
the handler has not returned and the server is still there, or the goroutine that accepts
requests has another one, which it can pass on; with the server gone, or the end disabled, the
call does not wait for its handler.  What the handler or `processReq` sends is received, also
when the call has returned without it. -/
theorem call_returns (hp : Run.Path step Run.always (makeNetwork : Network N) rn)
    (hrun : rn.exited = none) {k : Nat} (hk : rn.calls[k]? = some c) :
    (∀ act rn', rn.step (.moves k act) = some rn' → rn' = rn ∨ rn'.exited ≠ none ∨
      ∃ c', rn'.calls[k]? = some c' ∧ c'.rank < c.rank) ∧
    (c.phase.outcome ≠ none ∨ rn.Awaits c ∨ rn.Advances k ∨
      rn.Queued c ∧ ∃ (j : Nat) (d : Call N), rn.calls[j]? = some d ∧
        d.phase.accepting = true ∧ rn.Advances j) ∧
    (∀ server reply, c.handler = .finished server reply →
      ∃ act rn' c', (act = .take ∨ act = .drain) ∧ rn.step (.moves k act) = some rn' ∧
        rn'.calls[k]? = some c' ∧ c'.handler = .taken server reply) ∧
    ∀ reply, c.phase = .replying reply → ∃ rn' c', rn.step (.moves k .receive) = some rn' ∧
      rn'.calls[k]? = some c' ∧ c'.phase = .returned reply := by
  have hmem := List.mem_of_getElem? hk
  have hlt := (List.getElem?_eq_some_iff.mp hk).1
  have hcons := consistent_makeNetwork.path hp
  have hc := hcons c hmem
  have hw := hp.invariant (fun _ _ _ hw _ hs => Wired.step hw hs) wired_makeNetwork
  refine ⟨fun act rn' hs => ?_, ?_, fun server reply hdone => handler_send hrun hk hdone,
    fun reply hphase => ?_⟩
  · cases trans_of_step hs with
    | moves k act d c' rn'' hd hmove =>
        cases Option.some.inj (hk.symm.trans hd)
        rcases hmove.rank hc with ⟨rfl, rfl⟩ | hexit | hrank
        · left
          obtain ⟨_, hthere⟩ := List.getElem?_eq_some_iff.mp hk
          rw [← hthere, List.set_getElem_self]
        · exact .inr (.inl hexit)
        · exact .inr (.inr ⟨c', List.getElem?_set_self hlt, hrank⟩)
    | exits act e hnot => exact absurd rfl (hnot k act)
  · by_cases hopen : c.phase.outcome = none
    · by_cases hfree : rn.Awaits c
      · exact .inr (.inl hfree)
      · by_cases hturn : rn.Queued c
        · exact .inr (.inr (.inr ⟨hturn, hw.advances hcons hrun hturn.2⟩))
        · exact .inr (.inr (.inl
            ((canMove hw hc (hw.calls c hmem) hopen hfree hturn).advances hrun hk)))
    · exact .inl hopen
  · have hmove : rn.move c .receive = some (rn, { c with phase := .returned reply }) := by
      simp only [move, hphase]
    exact ⟨_, _, step_of_move hrun hk hmove, List.getElem?_set_self hlt, rfl⟩

/-- The server is deleted while the handler runs, which returns after the call. -/
theorem call_returns_deleted : ∃ (rn : Network Bool) (c : Call Bool),
    Run.Path step Run.always makeNetwork rn ∧ rn.calls[0]? = some c ∧
    c.phase = .returned none ∧ c.handler = .finished 0 [9] ∧
    ∃ act rn' c', (act = .take ∨ act = .drain) ∧ rn.step (.moves 0 act) = some rn' ∧
      rn'.calls[0]? = some c' ∧ c'.handler = .taken 0 [9] := by
  have hrun : (Run.exec step Run.always (makeNetwork : Network Bool)
      (answering.take 14 ++ [.deleteServer true, .moves 0 .poll, .moves 0 (.check false),
        .moves 0 .receive, .cleanup, .stop, .moves 0 (.finish [9])])).map
      (fun rn => (rn.exited, rn.calls[0]?)) =
      some (none, some { endname := true, svcMeth := [75, 46, 71], args := [1],
                         phase := .returned none, handler := .finished 0 [9] }) := by
    decide +kernel
  obtain ⟨rn, hp, hseen⟩ := Run.path_of_exec_map _ _ hrun
  obtain ⟨hexited, hk⟩ := Prod.mk.inj hseen
  exact ⟨rn, _, hp, hk, rfl, rfl, (call_returns hp hexited hk).2.2.1 0 [9] rfl⟩

end Network

end LabRpc
end Labs
