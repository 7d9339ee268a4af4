import Labs.LabRpc.Returns

/-!
# The counters

The network counts requests and bytes, and a server its calls, in goroutines that only share
the counters.  However these interleave, each call is counted once; a reader of the counters
may miss the one request that is being accepted.
-/

namespace Labs
namespace LabRpc

variable {N : Type} {rn rn' : Network N} {c c' : Call N}

/-- The goroutine that accepts requests has counted the call. -/
def Phase.counted : Phase N → Bool
  | .sending | .aborted | .received => false
  | _ => true

/-- It has counted its bytes too, and passed it on. -/
def Phase.passedOn : Phase N → Bool
  | .sending | .aborted | .received | .tallied => false
  | _ => true

/-- The bytes of the reply that has been sent. -/
def Phase.replyBytes : Phase N → Nat
  | .replying (some reply) | .returned (some reply) => reply.length
  | _ => 0

/-- The server has been given the call. -/
def Handler.dispatched (server : Nat) : Handler → Bool
  | .running other | .finished other _ | .taken other _ => other = server
  | .idle | .launched _ => false

/-- The bytes that the call has put on the network. -/
def Call.bytes (c : Call N) : Nat :=
  (if c.phase.passedOn then c.args.length else 0) + c.phase.replyBytes

/-- The bytes of all the calls. -/
def totalBytes : List (Call N) → Nat
  | [] => 0
  | c :: rest => c.bytes + totalBytes rest

theorem totalBytes_append (calls calls' : List (Call N)) :
    totalBytes (calls ++ calls') = totalBytes calls + totalBytes calls' := by
  induction calls with
  | nil => simp [totalBytes]
  | cons c rest ih => simp [totalBytes, ih, Nat.add_assoc]

theorem totalBytes_set {calls : List (Call N)} {k : Nat} (hk : calls[k]? = some c)
    (c' : Call N) : totalBytes (calls.set k c') + c.bytes = totalBytes calls + c'.bytes := by
  induction calls generalizing k with
  | nil => cases hk
  | cons d rest ih =>
      cases k with
      | zero =>
          cases hk
          simp only [List.set_cons_zero, totalBytes]
          omega
      | succ k =>
          have := ih (k := k) (by simpa using hk)
          simp only [List.set_cons_succ, totalBytes]
          omega

namespace Network

/-- The counters are machine integers. -/
structure Counted (rn : Network N) : Prop where
  count : rn.count = .ofNat (rn.calls.countP fun c => c.phase.counted)
  bytes : rn.bytes = .ofNat (totalBytes rn.calls)
  servers : rn.exited = none → ∀ (server : Nat) (rs : Server), rn.objects[server]? = some rs →
    rs.count = .ofNat (rn.calls.countP fun c => c.handler.dispatched server)

/-- What a section adds to the counters of the network is what it adds to the call. -/
theorem Moves.counted {act : CallAction} (h : rn.Moves c act rn' c') :
    ∃ n m, rn'.count = rn.count + .ofNat n ∧
      c'.phase.counted.toNat = c.phase.counted.toNat + n ∧
      rn'.bytes = rn.bytes + .ofNat m ∧ c'.bytes = c.bytes + m := by
  cases h with
  | addCount hphase =>
      refine ⟨1, 0, rfl, ?_, (Int64.add_zero _).symm, ?_⟩
      · simp [hphase, Phase.counted]
      · simp [Call.bytes, hphase, Phase.passedOn, Phase.replyBytes]
  | addBytes hphase =>
      refine ⟨0, c.args.length, (Int32.add_zero _).symm, ?_, rfl, ?_⟩
      · simp [hphase, Phase.counted]
      · simp [Call.bytes, hphase, Phase.passedOn, Phase.replyBytes]
  | reply reply hphase =>
      refine ⟨0, reply.length, (Int32.add_zero _).symm, ?_, rfl, ?_⟩
      · simp [hphase, Phase.counted]
      · simp [Call.bytes, hphase, Phase.passedOn, Phase.replyBytes]
  | receive reply hphase =>
      refine ⟨0, 0, (Int32.add_zero _).symm, ?_, (Int64.add_zero _).symm, ?_⟩
      · simp [hphase, Phase.counted]
      · cases reply <;> simp [Call.bytes, hphase, Phase.passedOn, Phase.replyBytes]
  | dispatchFails | dispatch | finish | pollAlive | drain =>
      exact ⟨0, 0, (Int32.add_zero _).symm, rfl, (Int64.add_zero _).symm, rfl⟩
  | accept hphase | abort hphase | readConnected info hphase | readUnreachable hphase
  | drop info hphase | launch info hphase | take info server reply hphase | pollDead info hphase
  | checkNone lost info hphase | checkDead lost info reply hphase | checkLost info reply hphase
  | check info reply hphase =>
      refine ⟨0, 0, (Int32.add_zero _).symm, ?_, (Int64.add_zero _).symm, ?_⟩
      · simp [hphase, Phase.counted]
      · simp [Call.bytes, hphase, Phase.passedOn, Phase.replyBytes]

/-- And to the counter of a server, unless it ends the program. -/
theorem Moves.dispatched {act : CallAction} (h : rn.Moves c act rn' c') (hc : c.Consistent)
    (hrun : rn'.exited = none) {server : Nat} {rs' : Server}
    (hrs' : rn'.objects[server]? = some rs') :
    ∃ (rs : Server) (n : Nat), rn.objects[server]? = some rs ∧ rs'.count = rs.count + .ofNat n ∧
      (c'.handler.dispatched server).toNat = (c.handler.dispatched server).toNat + n := by
  have hsame := (Int64.add_zero rs'.count).symm
  cases h with
  | dispatchFails other rs e hhandler hrs he => cases hrun
  | dispatch other rs method hhandler hrs hmethod =>
      have hrs' : (rn.objects.set other rs.counted)[server]? = some rs' := hrs'
      simp only [hhandler, Handler.dispatched]
      by_cases hother : other = server
      · subst hother
        rw [List.getElem?_set_self (List.getElem?_eq_some_iff.mp hrs).1] at hrs'
        cases hrs'
        exact ⟨rs, 1, hrs, rfl, by simp⟩
      · rw [List.getElem?_set_ne hother] at hrs'
        exact ⟨rs', 0, hrs', hsame, by simp [hother]⟩
  | launch info hphase =>
      simp only [Call.Consistent, hphase] at hc
      exact ⟨rs', 0, hrs', hsame, by rw [hc]; rfl⟩
  | finish other reply hhandler => exact ⟨rs', 0, hrs', hsame, by rw [hhandler]; rfl⟩
  | take info other reply hphase hhandler => exact ⟨rs', 0, hrs', hsame, by rw [hhandler]; rfl⟩
  | drain other reply hphase hhandler => exact ⟨rs', 0, hrs', hsame, by rw [hhandler]; rfl⟩
  | accept | addCount | addBytes | abort | readConnected | readUnreachable | drop | pollDead
  | pollAlive | checkNone | checkDead | checkLost | check | reply | receive =>
      exact ⟨rs', 0, hrs', hsame, rfl⟩

/-- No call has been given to a server that was not made yet. -/
theorem Wired.unused (hw : rn.Wired) {server : Nat} (hge : rn.objects.length ≤ server) :
    (rn.calls.countP fun c => c.handler.dispatched server) = 0 := by
  refine List.countP_eq_zero.mpr fun c hmem hdispatched => ?_
  have hplaced := (hw.calls c hmem).2 server
  cases hhandler : c.handler with
  | idle | launched =>
      rw [hhandler] at hdispatched
      cases hdispatched
  | running | finished | taken =>
      rw [hhandler] at hdispatched hplaced
      have hlt := hplaced (congrArg some (of_decide_eq_true hdispatched))
      omega

theorem counted_makeNetwork : (makeNetwork : Network N).Counted where
  count := rfl
  bytes := rfl
  servers := fun _ server rs hrs => by cases hrs

theorem Counted.moves {a : CallAction} {k : Nat} (h : rn.Counted) (hk : rn.calls[k]? = some c)
    (hrun : rn.exited = none) (hc : c.Consistent) (hmove : rn.Moves c a rn' c') :
    Counted { rn' with calls := rn.calls.set k c' } := by
  obtain ⟨n, m, hcount, hn, hbytes, hm⟩ := hmove.counted
  refine ⟨?_, ?_, fun hrun' server rs' hrs' => ?_⟩
  · have hset := countP_set_add (fun c => c.phase.counted) hk c'
    have hadd : (rn.calls.set k c').countP (fun c => c.phase.counted) =
        (rn.calls.countP fun c => c.phase.counted) + n := by omega
    rw [hadd, Int32.ofNat_add, ← h.count]
    exact hcount
  · have hset := totalBytes_set hk c'
    have hadd : totalBytes (rn.calls.set k c') = totalBytes rn.calls + m := by omega
    rw [hadd, Int64.ofNat_add, ← h.bytes]
    exact hbytes
  · obtain ⟨rs, n, hrs, hcount, hn⟩ := hmove.dispatched hc hrun' hrs'
    have hset := countP_set_add (fun c => c.handler.dispatched server) hk c'
    have hadd : (rn.calls.set k c').countP (fun c => c.handler.dispatched server) =
        (rn.calls.countP fun c => c.handler.dispatched server) + n := by omega
    rw [hadd, Int64.ofNat_add, ← h.servers hrun server rs hrs]
    exact hcount

variable [DecidableEq N] {act : NetAction N}

theorem Counted.step (h : rn.Counted) (hc : rn.Consistent) (hw : rn.Wired)
    (hs : rn.step act = some rn') : rn'.Counted := by
  have hrun := running_of_step hs
  cases trans_of_step hs with
  | call endname svcMeth args =>
      refine ⟨?_, ?_, fun _ server rs hrs => ?_⟩
      · rw [List.countP_append]
        exact h.count
      · rw [totalBytes_append]
        exact h.bytes
      · rw [List.countP_append]
        exact h.servers hrun server rs hrs
  | moves k a c c' rn'' hk hmove =>
      exact h.moves hk hrun (hc c (List.mem_of_getElem? hk)) hmove
  | makeServer =>
      refine ⟨h.count, h.bytes, fun _ server rs hrs => ?_⟩
      rcases Nat.lt_or_ge server rn.objects.length with hlt | hge
      · rw [List.getElem?_append_left hlt] at hrs
        exact h.servers hrun server rs hrs
      · have hmem := List.mem_of_getElem? (List.getElem?_append_right hge ▸ hrs)
        rw [List.mem_singleton.mp hmem]
        exact congrArg Int64.ofNat (hw.unused hge).symm
  | addService server svc rs hrs =>
      refine ⟨h.count, h.bytes, fun _ other rs' hrs' => ?_⟩
      have hrs' : (rn.objects.set server (rs.addService svc))[other]? = some rs' := hrs'
      by_cases hother : server = other
      · subst hother
        rw [List.getElem?_set_self (List.getElem?_eq_some_iff.mp hrs).1] at hrs'
        cases hrs'
        exact h.servers hrun server rs hrs
      · rw [List.getElem?_set_ne hother] at hrs'
        exact h.servers hrun other rs' hrs'
  | exits act e hnot => exact ⟨h.count, h.bytes, fun hno => by cases hno⟩
  | stop | makeEnd | deleteEnd | addServer | deleteServer | connect | enable | setReliable
  | cleanup | getCount => exact ⟨h.count, h.bytes, h.servers⟩

/-- The total count is the number of calls that were counted, the total of bytes that of the
arguments of those passed on and of the replies sent, and the count of a server the number of
calls that it was given: exact up to the width of the counters, which are of 32, 64 and 64
bits.  At most one request has been received and not passed on, and none while the goroutine
that accepts them waits for the next. -/
theorem counters_exact (hp : Run.Path step Run.always (makeNetwork : Network N) rn) :
    rn.getTotalCount = Int.bmod (rn.calls.countP fun c => c.phase.counted) Int32.size ∧
      rn.getTotalBytes = Int.bmod (totalBytes rn.calls) Int64.size ∧
      (rn.calls.countP fun c => c.phase.accepting) = rn.accepting.toNat ∧
      (rn.exited = none → ∀ servername count, rn.getCount servername = .ok count →
        ∃ server, rn.servers servername = some server ∧
          count = Int.bmod (rn.calls.countP fun c => c.handler.dispatched server) Int64.size) := by
  obtain ⟨h, -, hw⟩ := hp.invariant (P := fun rn => rn.Counted ∧ rn.Consistent ∧ rn.Wired)
    (fun _ _ _ ⟨h, hc, hw⟩ _ hs => ⟨h.step hc hw hs, hc.step hs, hw.step hs⟩)
    ⟨counted_makeNetwork, consistent_makeNetwork, wired_makeNetwork⟩
  refine ⟨?_, ?_, hw.accepting, fun hrun servername count hget => ?_⟩
  · unfold getTotalCount
    rw [h.count, Int32.toInt_ofNat']
  · unfold getTotalBytes
    rw [h.bytes, Int64.toInt_ofNat']
  · unfold getCount at hget
    split at hget
    · next rs hrs =>
        cases hget
        obtain ⟨server, hserver, hobject⟩ := Option.bind_eq_some_iff.mp hrs
        refine ⟨server, hserver, ?_⟩
        unfold Server.getCount
        rw [h.servers hrun server rs hobject, Int64.toInt_ofNat']
    · cases hget

/-- One call has returned, and a second is counted without its bytes. -/
theorem counters_exact_answering : ∃ rn : Network Bool,
    Run.Path step Run.always makeNetwork rn ∧ rn.calls.length = 2 ∧ rn.getTotalCount = 2 ∧
    rn.getTotalBytes = 2 ∧
    (rn.calls.countP fun c => c.phase.accepting) = rn.accepting.toNat ∧
    rn.getTotalCount = Int.bmod (rn.calls.countP fun c => c.phase.counted) Int32.size := by
  have hrun : (Run.exec step Run.always (makeNetwork : Network Bool)
      (answering ++ [.moves 0 .reply, .moves 0 .receive, .call true [75, 46, 71] [1, 2],
        .moves 1 .accept, .moves 1 .addCount])).map
      (fun rn => (rn.calls.length, rn.getTotalCount, rn.getTotalBytes)) = some (2, 2, 2) := by
    decide +kernel
  obtain ⟨rn, hp, hseen⟩ := Run.path_of_exec_map _ _ hrun
  obtain ⟨hlength, hseen⟩ := Prod.mk.inj hseen
  obtain ⟨hcount, hbytes⟩ := Prod.mk.inj hseen
  obtain ⟨hexact, -, hone, -⟩ := counters_exact hp
  exact ⟨rn, hp, hlength, hcount, hbytes, hone, hexact⟩

end Network
end LabRpc
end Labs
