import Labs.Models.Kv
import Labs.Run
import Mathlib.Logic.Function.Basic

/-!
# The simulated network

`labrpc` runs every call of a `ClientEnd` through goroutines: the caller, the single
goroutine that accepts requests, `processReq` for each request, a goroutine that runs the
handler and one that drains its result.  They meet at channels without buffers and at the
network's mutex, and the tester changes ends, servers and settings meanwhile.  A state has
all of them, and an action is one of their sections in any order.

How long anything waits is left open: `longDelays` and `longReordering` only choose delays.
-/

namespace Labs
namespace LabRpc

open Models (Str)

abbrev Bytes := List UInt8

/-! ## Services -/

/-- A method of the receiver's type, as reflection shows it. -/
structure Method where
  name : Str
  pkgPath : Str
  numIn : Nat
  replyIsPtr : Bool
  numOut : Nat
  deriving DecidableEq

/-- The method looks like a handler. -/
def Method.suitable (method : Method) : Bool :=
  !(method.pkgPath ≠ [] || method.numIn ≠ 3 || method.replyIsPtr = false || method.numOut ≠ 0)

structure Service where
  name : Str
  methods : Str → Option Method

/-- The map of the methods that may be called; a later one of the same name would replace
an earlier one. -/
def makeService (name : Str) (methods : List Method) : Service where
  name := name
  methods := methods.foldl (fun map method =>
    if method.suitable then Function.update map method.name (some method) else map) fun _ => none

/-- `count` is the number of incoming calls. -/
structure Server where
  services : Str → Option Service
  count : Int64

def makeServer : Server where
  services := fun _ => none
  count := 0

def Server.addService (rs : Server) (svc : Service) : Server :=
  { rs with services := Function.update rs.services svc.name (some svc) }

/-- One more call has come in. -/
def Server.counted (rs : Server) : Server := { rs with count := rs.count + 1 }

def Server.getCount (rs : Server) : Int := rs.count.toInt

/-- The two parts of the name around its last dot. -/
def splitMethod : Str → Option (Str × Str)
  | [] => none
  | c :: rest =>
    match splitMethod rest with
    | some (serviceName, methodName) => some (c :: serviceName, methodName)
    | none => if c = 46 then some ([], rest) else none

/-- What ends the whole program: a call of `log.Fatalf`, a slice at the dot of a name without
one, the use of a server that is nil, or a second `Cleanup`. -/
inductive Fatal (N : Type) where
  | endExists (endname : N)
  | noEnd (endname : N)
  | noDot (svcMeth : Str)
  | unknownService (serviceName methodName : Str)
  | unknownMethod (methname svcMeth : Str)
  | nilServer (servername : N)
  | closedTwice
  deriving DecidableEq

/-- How `dispatch` of the server and of the service find the method to call. -/
def Server.dispatch {N : Type} (rs : Server) (svcMeth : Str) : Except (Fatal N) Method :=
  match splitMethod svcMeth with
  | none => .error (.noDot svcMeth)
  | some (serviceName, methodName) =>
    match rs.services serviceName with
    | none => .error (.unknownService serviceName methodName)
    | some service =>
      match service.methods methodName with
      | none => .error (.unknownMethod methodName svcMeth)
      | some method => .ok method

/-! ## Calls -/

/-- What `processReq` remembers of its look at the network.  Servers are pointers. -/
structure Info (N : Type) where
  servername : N
  server : Nat
  reliable : Bool
  deriving DecidableEq

/-- Where a call stands, apart from its handler.  The goroutine that accepts requests has it
while it is `received` and `tallied`.  A reply is `none` for `replyMsg{false, nil}`, and
`delayed` until it is sent. -/
inductive Phase (N : Type) where
  | sending
  | aborted
  | received
  | tallied
  | accepted
  | connected (info : Info N)
  | waiting (info : Info N)
  | left (info : Info N) (reply : Option Bytes)
  | delayed (reply : Bytes)
  | replying (reply : Option Bytes)
  | returned (reply : Option Bytes)
  deriving DecidableEq

/-- The goroutine that runs the handler at a server, and sends its reply on `ech`. -/
inductive Handler where
  | idle
  | launched (server : Nat)
  | running (server : Nat)
  | finished (server : Nat) (reply : Bytes)
  | taken (server : Nat) (reply : Bytes)
  deriving DecidableEq

structure Call (N : Type) where
  endname : N
  svcMeth : Str
  args : Bytes
  phase : Phase N
  handler : Handler
  deriving DecidableEq

/-- `objects` has the servers that were made, and `servers` their addresses by name.  The
goroutine which accepts requests is busy with one if `accepting`, and has returned if
`stopped`. -/
structure Network (N : Type) where
  reliable : Bool
  ends : N → Bool
  enabled : N → Bool
  servers : N → Option Nat
  connections : N → Option N
  done : Bool
  count : Int32
  bytes : Int64
  objects : List Server
  accepting : Bool
  stopped : Bool
  calls : List (Call N)
  exited : Option (Fatal N)

/-- The sections of the goroutines of a call. -/
inductive CallAction where
  | accept
  | addCount
  | addBytes
  | abort
  | read
  | drop
  | launch
  | dispatch
  | finish (reply : Bytes)
  | take
  | poll
  | drain
  | check (lost : Bool)
  | reply
  | receive
  deriving DecidableEq

inductive NetAction (N : Type) where
  | call (endname : N) (svcMeth : Str) (args : Bytes)
  | moves (k : Nat) (act : CallAction)
  | stop
  | makeServer
  | addService (server : Nat) (svc : Service)
  | makeEnd (endname : N)
  | deleteEnd (endname : N)
  | addServer (servername : N) (server : Nat)
  | deleteServer (servername : N)
  | connect (endname servername : N)
  | enable (endname : N) (enabled : Bool)
  | setReliable (yes : Bool)
  | cleanup
  | getCount (servername : N)

namespace Network

variable {N : Type}

def makeNetwork : Network N where
  reliable := true
  ends := fun _ => false
  enabled := fun _ => false
  servers := fun _ => none
  connections := fun _ => none
  done := false
  count := 0
  bytes := 0
  objects := []
  accepting := false
  stopped := false
  calls := []
  exited := none

def exit (rn : Network N) (e : Fatal N) : Network N := { rn with exited := some e }

/-- What is needed of the result, if the end is enabled and connected to a server. -/
def readEndnameInfo (rn : Network N) (endname : N) : Option (Info N) :=
  if rn.enabled endname then
    match rn.connections endname with
    | none => none
    | some servername =>
      (rn.servers servername).map fun server =>
        { servername := servername, server := server, reliable := rn.reliable }
  else none

def isServerDead (rn : Network N) (endname servername : N) (server : Nat) : Bool :=
  rn.enabled endname = false || rn.servers servername ≠ some server

/-- The counter of a server, and the method or the end of the program. -/
def dispatch (rn : Network N) (c : Call N) (server : Nat) : Option (Network N × Call N) :=
  match rn.objects[server]? with
  | none => none
  | some rs =>
    let rn := { rn with objects := rn.objects.set server rs.counted }
    match rs.dispatch c.svcMeth with
    | .error e => some (rn.exit e, c)
    | .ok _ => some (rn, { c with handler := .running server })

/-- One section of a goroutine of the call. -/
def move (rn : Network N) (c : Call N) : CallAction → Option (Network N × Call N)
  | .accept =>
    match c.phase with
    | .sending =>
      if rn.accepting || rn.stopped then none
      else some ({ rn with accepting := true }, { c with phase := .received })
    | _ => none
  | .addCount =>
    match c.phase with
    | .received => some ({ rn with count := rn.count + 1 }, { c with phase := .tallied })
    | _ => none
  | .addBytes =>
    match c.phase with
    | .tallied =>
      some ({ rn with bytes := rn.bytes + .ofNat c.args.length, accepting := false },
        { c with phase := .accepted })
    | _ => none
  | .abort =>
    match c.phase with
    | .sending => if rn.done then some (rn, { c with phase := .aborted }) else none
    | _ => none
  | .read =>
    match c.phase with
    | .accepted =>
      match rn.readEndnameInfo c.endname with
      | some info => some (rn, { c with phase := .connected info })
      | none => some (rn, { c with phase := .replying none })
    | _ => none
  | .drop =>
    match c.phase with
    | .connected info =>
      if info.reliable = false then some (rn, { c with phase := .replying none }) else none
    | _ => none
  | .launch =>
    match c.phase with
    | .connected info =>
      some (rn, { c with phase := .waiting info, handler := .launched info.server })
    | _ => none
  | .dispatch =>
    match c.handler with
    | .launched server => rn.dispatch c server
    | _ => none
  | .finish reply =>
    match c.handler with
    | .running server => some (rn, { c with handler := .finished server reply })
    | _ => none
  | .take =>
    match c.phase, c.handler with
    | .waiting info, .finished server reply =>
      some (rn, { c with phase := .left info (some reply), handler := .taken server reply })
    | _, _ => none
  | .poll =>
    match c.phase with
    | .waiting info =>
      if rn.isServerDead c.endname info.servername info.server then
        some (rn, { c with phase := .left info none })
      else some (rn, c)
    | _ => none
  | .drain =>
    match c.phase, c.handler with
    | .waiting _, _ => none
    | _, .finished server reply => some (rn, { c with handler := .taken server reply })
    | _, _ => none
  | .check lost =>
    match c.phase with
    | .left info reply =>
      match reply with
      | none => some (rn, { c with phase := .replying none })
      | some reply =>
        if rn.isServerDead c.endname info.servername info.server then
          some (rn, { c with phase := .replying none })
        else if lost then
          -- only an unreliable network drops a reply
          if info.reliable = false then some (rn, { c with phase := .replying none }) else none
        else some (rn, { c with phase := .delayed reply })
    | _ => none
  | .reply =>
    match c.phase with
    | .delayed reply =>
      some ({ rn with bytes := rn.bytes + .ofNat reply.length },
        { c with phase := .replying (some reply) })
    | _ => none
  | .receive =>
    match c.phase with
    | .replying reply => some (rn, { c with phase := .returned reply })
    | _ => none

/-! ## The cases of a section -/

inductive Moves (rn : Network N) (c : Call N) : CallAction → Network N → Call N → Prop
  | accept : c.phase = .sending → rn.accepting = false → rn.stopped = false →
      Moves rn c .accept { rn with accepting := true } { c with phase := .received }
  | addCount : c.phase = .received →
      Moves rn c .addCount { rn with count := rn.count + 1 } { c with phase := .tallied }
  | addBytes : c.phase = .tallied →
      Moves rn c .addBytes
        { rn with bytes := rn.bytes + .ofNat c.args.length, accepting := false }
        { c with phase := .accepted }
  | abort : c.phase = .sending → rn.done = true →
      Moves rn c .abort rn { c with phase := .aborted }
  | readConnected (info : Info N) : c.phase = .accepted →
      rn.readEndnameInfo c.endname = some info →
      Moves rn c .read rn { c with phase := .connected info }
  | readUnreachable : c.phase = .accepted → rn.readEndnameInfo c.endname = none →
      Moves rn c .read rn { c with phase := .replying none }
  | drop (info : Info N) : c.phase = .connected info → info.reliable = false →
      Moves rn c .drop rn { c with phase := .replying none }
  | launch (info : Info N) : c.phase = .connected info →
      Moves rn c .launch rn { c with phase := .waiting info, handler := .launched info.server }
  | dispatchFails (server : Nat) (rs : Server) (e : Fatal N) : c.handler = .launched server →
      rn.objects[server]? = some rs → rs.dispatch c.svcMeth = .error e →
      Moves rn c .dispatch ({ rn with
        objects := rn.objects.set server rs.counted }.exit e) c
  | dispatch (server : Nat) (rs : Server) (method : Method) : c.handler = .launched server →
      rn.objects[server]? = some rs →
      (rs.dispatch c.svcMeth : Except (Fatal N) Method) = .ok method →
      Moves rn c .dispatch
        { rn with objects := rn.objects.set server rs.counted }
        { c with handler := .running server }
  | finish (server : Nat) (reply : Bytes) : c.handler = .running server →
      Moves rn c (.finish reply) rn { c with handler := .finished server reply }
  | take (info : Info N) (server : Nat) (reply : Bytes) : c.phase = .waiting info →
      c.handler = .finished server reply →
      Moves rn c .take rn
        { c with phase := .left info (some reply), handler := .taken server reply }
  | pollDead (info : Info N) : c.phase = .waiting info →
      rn.isServerDead c.endname info.servername info.server = true →
      Moves rn c .poll rn { c with phase := .left info none }
  | pollAlive (info : Info N) : c.phase = .waiting info →
      rn.isServerDead c.endname info.servername info.server = false → Moves rn c .poll rn c
  | drain (server : Nat) (reply : Bytes) : (∀ info, c.phase ≠ .waiting info) →
      c.handler = .finished server reply →
      Moves rn c .drain rn { c with handler := .taken server reply }
  | checkNone (lost : Bool) (info : Info N) : c.phase = .left info none →
      Moves rn c (.check lost) rn { c with phase := .replying none }
  | checkDead (lost : Bool) (info : Info N) (reply : Bytes) : c.phase = .left info (some reply) →
      rn.isServerDead c.endname info.servername info.server = true →
      Moves rn c (.check lost) rn { c with phase := .replying none }
  | checkLost (info : Info N) (reply : Bytes) : c.phase = .left info (some reply) →
      rn.isServerDead c.endname info.servername info.server = false → info.reliable = false →
      Moves rn c (.check true) rn { c with phase := .replying none }
  | check (info : Info N) (reply : Bytes) : c.phase = .left info (some reply) →
      rn.isServerDead c.endname info.servername info.server = false →
      Moves rn c (.check false) rn { c with phase := .delayed reply }
  | reply (reply : Bytes) : c.phase = .delayed reply →
      Moves rn c .reply { rn with bytes := rn.bytes + .ofNat reply.length }
        { c with phase := .replying (some reply) }
  | receive (reply : Option Bytes) : c.phase = .replying reply →
      Moves rn c .receive rn { c with phase := .returned reply }

theorem moves_of_move {rn rn' : Network N} {c c' : Call N} {act : CallAction}
    (h : rn.move c act = some (rn', c')) : Moves rn c act rn' c' := by
  cases act with
  | accept =>
      simp only [move] at h
      split at h
      · next hphase =>
          split at h
          · cases h
          · next hfree =>
              obtain ⟨hidle, hstopped⟩ := Bool.or_eq_false_iff.mp (Bool.eq_false_iff.mpr hfree)
              cases h
              exact .accept hphase hidle hstopped
      · cases h
  | addCount =>
      simp only [move] at h
      split at h
      · next hphase =>
          cases h
          exact .addCount hphase
      · cases h
  | addBytes =>
      simp only [move] at h
      split at h
      · next hphase =>
          cases h
          exact .addBytes hphase
      · cases h
  | abort =>
      simp only [move] at h
      split at h
      · next hphase =>
          split at h
          · next hdone =>
              cases h
              exact .abort hphase hdone
          · cases h
      · cases h
  | read =>
      simp only [move] at h
      split at h
      · next hphase =>
          split at h
          · next info hinfo =>
              cases h
              exact .readConnected info hphase hinfo
          · next hnone =>
              cases h
              exact .readUnreachable hphase hnone
      · cases h
  | drop =>
      simp only [move] at h
      split at h
      · next info hphase =>
          split at h
          · next hunreliable =>
              cases h
              exact .drop info hphase hunreliable
          · cases h
      · cases h
  | launch =>
      simp only [move] at h
      split at h
      · next info hphase =>
          cases h
          exact .launch info hphase
      · cases h
  | dispatch =>
      simp only [move] at h
      split at h
      · next server hhandler =>
          unfold dispatch at h
          split at h
          · cases h
          · next rs hrs =>
              dsimp only at h
              split at h
              · next e he =>
                  cases h
                  exact .dispatchFails server rs e hhandler hrs he
              · next method hmethod =>
                  cases h
                  exact .dispatch server rs method hhandler hrs hmethod
      · cases h
  | finish reply =>
      simp only [move] at h
      split at h
      · next server hhandler =>
          cases h
          exact .finish server reply hhandler
      · cases h
  | take =>
      simp only [move] at h
      split at h
      · next info server reply hphase hhandler =>
          cases h
          exact .take info server reply hphase hhandler
      · cases h
  | poll =>
      simp only [move] at h
      split at h
      · next info hphase =>
          split at h
          · next hdead =>
              cases h
              exact .pollDead info hphase hdead
          · next halive =>
              cases h
              exact .pollAlive info hphase (Bool.eq_false_iff.mpr halive)
      · cases h
  | drain =>
      simp only [move] at h
      split at h
      · cases h
      · next hphase server reply hhandler hnot =>
          cases h
          exact .drain server reply (fun info heq => hnot info heq) hhandler
      · cases h
  | check lost =>
      simp only [move] at h
      split at h
      · next info reply hphase =>
          split at h
          · cases h
            exact .checkNone lost info hphase
          · next reply =>
              split at h
              · next hdead =>
                  cases h
                  exact .checkDead lost info reply hphase hdead
              · next halive =>
                  split at h
                  · next hlost =>
                      split at h
                      · next hunreliable =>
                          cases h
                          rw [hlost]
                          exact .checkLost info reply hphase (Bool.eq_false_iff.mpr halive)
                            hunreliable
                      · cases h
                  · next hkept =>
                      cases h
                      rw [Bool.eq_false_iff.mpr hkept]
                      exact .check info reply hphase (Bool.eq_false_iff.mpr halive)
      · cases h
  | reply =>
      simp only [move] at h
      split at h
      · next reply hphase =>
          cases h
          exact .reply reply hphase
      · cases h
  | receive =>
      simp only [move] at h
      split at h
      · next reply hphase =>
          cases h
          exact .receive reply hphase
      · cases h

def getTotalCount (rn : Network N) : Int := rn.count.toInt

def getTotalBytes (rn : Network N) : Int := rn.bytes.toInt

section Names

variable [DecidableEq N]

def makeEnd (rn : Network N) (endname : N) : Network N :=
  if rn.ends endname then rn.exit (.endExists endname)
  else
    { rn with
      ends := Function.update rn.ends endname true
      enabled := Function.update rn.enabled endname false
      connections := Function.update rn.connections endname none }

def deleteEnd (rn : Network N) (endname : N) : Network N :=
  if rn.ends endname then
    { rn with
      ends := Function.update rn.ends endname false
      enabled := Function.update rn.enabled endname false
      connections := Function.update rn.connections endname none }
  else rn.exit (.noEnd endname)

def addServer (rn : Network N) (servername : N) (server : Nat) : Network N :=
  { rn with servers := Function.update rn.servers servername (some server) }

def deleteServer (rn : Network N) (servername : N) : Network N :=
  { rn with servers := Function.update rn.servers servername none }

def connect (rn : Network N) (endname servername : N) : Network N :=
  { rn with connections := Function.update rn.connections endname (some servername) }

def enable (rn : Network N) (endname : N) (enabled : Bool) : Network N :=
  { rn with enabled := Function.update rn.enabled endname enabled }

/-- The count of a server, or the end of the program if there is none of the name. -/
def getCount (rn : Network N) (servername : N) : Except (Fatal N) Int :=
  match (rn.servers servername).bind fun server => rn.objects[server]? with
  | some svr => .ok svr.getCount
  | none => .error (.nilServer servername)

/-- A call may be made on any end; nothing happens any more when the program has ended. -/
def step (rn : Network N) (act : NetAction N) : Option (Network N) :=
  if rn.exited.isSome then none
  else match act with
    | .call endname svcMeth args => some { rn with
        calls := rn.calls ++ [{ endname := endname, svcMeth := svcMeth, args := args,
                                phase := .sending, handler := .idle }] }
    | .moves k act => do
      let c ← rn.calls[k]?
      let (rn', c') ← rn.move c act
      some { rn' with calls := rn.calls.set k c' }
    | .stop =>
      if rn.done && !rn.accepting then some { rn with stopped := true } else none
    | .makeServer => some { rn with objects := rn.objects ++ [LabRpc.makeServer] }
    | .addService server svc =>
      (rn.objects[server]?).map fun rs =>
        { rn with objects := rn.objects.set server (rs.addService svc) }
    | .makeEnd endname => some (rn.makeEnd endname)
    | .deleteEnd endname => some (rn.deleteEnd endname)
    | .addServer servername server =>
      if server < rn.objects.length then some (rn.addServer servername server) else none
    | .deleteServer servername => some (rn.deleteServer servername)
    | .connect endname servername => some (rn.connect endname servername)
    | .enable endname enabled => some (rn.enable endname enabled)
    | .setReliable yes => some { rn with reliable := yes }
    | .cleanup => some (if rn.done then rn.exit .closedTwice else { rn with done := true })
    | .getCount servername =>
      match rn.getCount servername with
      | .ok _ => some rn
      | .error e => some (rn.exit e)

/-! ## The cases of a step -/

inductive Trans (rn : Network N) : NetAction N → Network N → Prop
  | call (endname : N) (svcMeth : Str) (args : Bytes) :
      Trans rn (.call endname svcMeth args) { rn with
        calls := rn.calls ++ [{ endname := endname, svcMeth := svcMeth, args := args,
                                phase := .sending, handler := .idle }] }
  | moves (k : Nat) (act : CallAction) (c c' : Call N) (rn' : Network N) :
      rn.calls[k]? = some c → Moves rn c act rn' c' →
      Trans rn (.moves k act) { rn' with calls := rn.calls.set k c' }
  | stop : rn.done = true → rn.accepting = false → Trans rn .stop { rn with stopped := true }
  | makeServer : Trans rn .makeServer { rn with objects := rn.objects ++ [LabRpc.makeServer] }
  | addService (server : Nat) (svc : Service) (rs : Server) : rn.objects[server]? = some rs →
      Trans rn (.addService server svc)
        { rn with objects := rn.objects.set server (rs.addService svc) }
  | makeEnd (endname : N) : rn.ends endname = false → Trans rn (.makeEnd endname)
      { rn with
        ends := Function.update rn.ends endname true
        enabled := Function.update rn.enabled endname false
        connections := Function.update rn.connections endname none }
  | deleteEnd (endname : N) : Trans rn (.deleteEnd endname)
      { rn with
        ends := Function.update rn.ends endname false
        enabled := Function.update rn.enabled endname false
        connections := Function.update rn.connections endname none }
  | addServer (servername : N) (server : Nat) : server < rn.objects.length →
      Trans rn (.addServer servername server) (rn.addServer servername server)
  | deleteServer (servername : N) :
      Trans rn (.deleteServer servername) (rn.deleteServer servername)
  | connect (endname servername : N) :
      Trans rn (.connect endname servername) (rn.connect endname servername)
  | enable (endname : N) (enabled : Bool) :
      Trans rn (.enable endname enabled) (rn.enable endname enabled)
  | setReliable (yes : Bool) : Trans rn (.setReliable yes) { rn with reliable := yes }
  | cleanup : Trans rn .cleanup { rn with done := true }
  | getCount (servername : N) : Trans rn (.getCount servername) rn
  | exits (act : NetAction N) (e : Fatal N) : (∀ k a, act ≠ .moves k a) →
      Trans rn act (rn.exit e)

theorem running_of_step {rn rn' : Network N} {act : NetAction N} (h : rn.step act = some rn') :
    rn.exited = none := by
  unfold step at h
  split at h
  · cases h
  · next hrunning => simpa using hrunning

theorem trans_of_step {rn rn' : Network N} {act : NetAction N} (h : rn.step act = some rn') :
    Trans rn act rn' := by
  have hrunning : ¬ rn.exited.isSome = true := by simp [running_of_step h]
  unfold step at h
  rw [if_neg hrunning] at h
  cases act with
  | call endname svcMeth args =>
      cases h
      exact .call endname svcMeth args
  | moves k act =>
      obtain ⟨c, hc, h⟩ := Option.bind_eq_some_iff.mp h
      obtain ⟨⟨rn', c'⟩, hmove, h⟩ := Option.bind_eq_some_iff.mp h
      cases h
      exact .moves k act c c' rn' hc (moves_of_move hmove)
  | stop =>
      dsimp only at h
      split at h
      · next hfree =>
          obtain ⟨hdone, hidle⟩ := (Bool.and_eq_true ..).mp hfree
          cases h
          exact .stop hdone (by simpa using hidle)
      · cases h
  | makeServer =>
      cases h
      exact .makeServer
  | addService server svc =>
      obtain ⟨rs, hrs, rfl⟩ := Option.map_eq_some_iff.mp h
      exact .addService server svc rs hrs
  | makeEnd endname =>
      cases h
      unfold makeEnd
      split
      · exact .exits _ _ fun _ _ heq => by cases heq
      · next hnew => exact .makeEnd endname (Bool.eq_false_iff.mpr hnew)
  | deleteEnd endname =>
      cases h
      unfold deleteEnd
      split
      · exact .deleteEnd endname
      · exact .exits _ _ fun _ _ heq => by cases heq
  | addServer servername server =>
      dsimp only at h
      split at h
      · next hlt =>
          cases h
          exact .addServer servername server hlt
      · cases h
  | deleteServer servername =>
      cases h
      exact .deleteServer servername
  | connect endname servername =>
      cases h
      exact .connect endname servername
  | enable endname enabled =>
      cases h
      exact .enable endname enabled
  | setReliable yes =>
      cases h
      exact .setReliable yes
  | cleanup =>
      cases h
      split
      · exact .exits _ _ fun _ _ heq => by cases heq
      · exact .cleanup
  | getCount servername =>
      dsimp only at h
      split at h
      · cases h
        exact .getCount servername
      · cases h
        exact .exits _ _ fun _ _ heq => by cases heq

/-- A property of single calls that a new call has and every section keeps holds of all. -/
theorem calls_invariant {P : Network N → Call N → Prop} {rn rn' : Network N} {act : NetAction N}
    (h : rn.step act = some rn') (hold : ∀ c ∈ rn.calls, P rn c)
    (hnew : ∀ endname svcMeth args, P rn' { endname := endname, svcMeth := svcMeth, args := args,
                                            phase := .sending, handler := .idle })
    (hkeep : ∀ c, P rn c → P rn' c)
    (hmove : ∀ k a c c' rn'', Moves rn c a rn'' c' →
      rn' = { rn'' with calls := rn.calls.set k c' } → P rn c → P rn' c') :
    ∀ c ∈ rn'.calls, P rn' c := by
  intro c hc
  cases trans_of_step h with
  | call endname svcMeth args =>
      rcases List.mem_append.mp hc with hmem | hlast
      · exact hkeep c (hold c hmem)
      · rw [List.mem_singleton.mp hlast]
        exact hnew endname svcMeth args
  | moves k act d d' rn'' hk hmoves =>
      rcases List.mem_or_eq_of_mem_set hc with hmem | rfl
      · exact hkeep c (hold c hmem)
      · exact hmove k act d c rn'' hmoves rfl (hold d (List.mem_of_getElem? hk))
  | stop | makeServer | addService | makeEnd | deleteEnd | addServer | deleteServer | connect
  | enable | setReliable | cleanup | getCount | exits => exact hkeep c (hold c hc)

/-- Where a call comes from: it is new, or it was there and has taken a section or none. -/
theorem call_of_step {rn rn' : Network N} {act : NetAction N} (h : rn.step act = some rn') {k : Nat}
    {c' : Call N} (hk : rn'.calls[k]? = some c') :
    (rn.calls.length ≤ k ∧ c'.phase = .sending ∧ c'.handler = .idle) ∨
      ∃ c, rn.calls[k]? = some c ∧ c'.endname = c.endname ∧
        (c' = c ∨ ∃ a rn'', act = .moves k a ∧ Moves rn c a rn'' c') := by
  cases trans_of_step h with
  | call endname svcMeth args =>
      rcases Nat.lt_or_ge k rn.calls.length with hlt | hge
      · rw [List.getElem?_append_left hlt] at hk
        exact .inr ⟨c', hk, rfl, .inl rfl⟩
      · have hmem := List.mem_of_getElem? (List.getElem?_append_right hge ▸ hk)
        rw [List.mem_singleton.mp hmem]
        exact .inl ⟨hge, rfl, rfl⟩
  | moves j act c d rn'' hj hmove =>
      have hk : (rn.calls.set j d)[k]? = some c' := hk
      by_cases hkj : j = k
      · subst hkj
        rw [List.getElem?_set_self (List.getElem?_eq_some_iff.mp hj).1] at hk
        cases hk
        refine .inr ⟨c, hj, ?_, .inr ⟨act, rn'', rfl, hmove⟩⟩
        cases hmove <;> rfl
      · rw [List.getElem?_set_ne hkj] at hk
        exact .inr ⟨c', hk, rfl, .inl rfl⟩
  | stop | makeServer | addService | makeEnd | deleteEnd | addServer | deleteServer | connect
  | enable | setReliable | cleanup | getCount | exits => exact .inr ⟨c', hk, rfl, .inl rfl⟩

end Names
end Network
end LabRpc
end Labs
