import Labs.Raft.Host

/-!
# The tester

The checks that the test harness makes while a cluster runs: a goroutine for each server
reads its apply channel and compares every command with what the servers have applied
before, takes a snapshot every ten commands if it is asked to, and a test asks the servers
who leads and how many have applied an index.  Each ends the program when it finds
something wrong.  Here is what it does over the cluster, with the network and the time
left open: the tester's connections only restrict which messages arrive.
-/

namespace Labs
namespace Raft

variable {n : Nat} {C : Type}

/-- What the tester ends the program with. -/
inductive TestErr (n : Nat) (C : Type) where
  | differs (index : Int) (server : Fin n) (command : Option C) (other : Fin n)
      (old : Option C)
  | outOfOrder (server : Fin n) (index : Int)
  | unexpected (server : Fin n) (expected index : Int)
  | snapshotIndex (server : Fin n)
  | nilSnapshot
  | decode
  | leaders (term : Int) (count : Nat)
  | noLeader
  | noMatch (index : Int) (cmd cmd1 : Option C)
  deriving DecidableEq, Repr

/-- Its text, for a way to print commands. -/
def TestErr.text (value : Option C → String) : TestErr n C → String
  | .differs index server command other old =>
    s!"apply error: commit index={index} server={server} " ++ value command ++
      s!" != server={other} " ++ value old
  | .outOfOrder server index => s!"apply error: server {server} apply out of order {index}"
  | .unexpected server expected index =>
    s!"apply error: server {server} apply out of order, expected index {expected}, got {index}"
  | .snapshotIndex server =>
    s!"apply error: server {server} snapshot doesn't match m.SnapshotIndex"
  | .nilSnapshot => "nil snapshot"
  | .decode => "snapshot decode error"
  | .leaders term count => s!"term {term} has {count} (>1) leaders"
  | .noLeader => "expected one leader, got none"
  | .noMatch index cmd cmd1 =>
    s!"committed values do not match: index {index}, " ++ value cmd ++ ", " ++ value cmd1

/-- A call that a test has not returned from: the server to be asked next, and what was
found before.  Terms with their leaders are listed in the order they were found. -/
inductive Check (n : Nat) (C : Type) where
  | checkOneLeader (iters : Nat) (i : Nat) (leaders : List (Int × Fin n))
  | nCommitted (index : Int) (i : Nat) (count : Nat) (cmd : Option C)
  deriving DecidableEq, Repr

/-- What a test has got from a call. -/
inductive Finding (n : Nat) (C : Type) where
  | leader (i : Fin n)
  | committed (index : Int) (count : Nat) (cmd : Option C)
  deriving DecidableEq, Repr

/-- `snapshot` says which of the two readers the servers have.  `logs` has what each server
has applied by its index, `snapshots` what was encoded, `compacting` the snapshot that a
reader is about to give to its peer, and `taken` how much of the channel of each
incarnation was read. -/
structure Config (n : Nat) (C : Type) where
  snapshot : Bool
  raft : Cluster n C
  connected : Fin n → Bool
  logs : Fin n → Int → Option (Option C)
  lastApplied : Fin n → Nat
  maxIndex : Int
  snapshots : List (Nat × List (Option C))
  compacting : Fin n → Option (Nat × List (Option C))
  taken : Fin n → Nat → Nat
  checks : List (Check n C)
  findings : List (Finding n C)
  failed : Option (TestErr n C)

inductive TestAction (n : Nat) (C : Type) where
  | raft (act : Action n C)
  | applier (i : Fin n) (inc : Nat)
  | compact (i : Fin n)
  | start1 (i : Fin n)
  | connect (i : Fin n)
  | disconnect (i : Fin n)
  | checkOneLeader
  | nCommitted (index : Int)
  | ask (k : Nat)

/-- `GetState`. -/
def Peer.getState (rf : Peer n C) : Int × Bool := (rf.currentTerm, rf.status = .leader)

namespace Config

def init (snapshot : Bool) : Config n C where
  snapshot := snapshot
  raft := .init
  connected := fun _ => true
  logs := fun _ _ => none
  lastApplied := fun _ => 0
  maxIndex := 0
  snapshots := []
  compacting := fun _ => none
  taken := fun _ _ => 0
  checks := []
  findings := []
  failed := none

def fail (s : Config n C) (e : TestErr n C) : Config n C := { s with failed := some e }

/-! ## The readers of the apply channels -/

section Reader

variable [DecidableEq C]

/-- The loop over the servers keeps the last difference that it finds. -/
def difference (s : Config n C) (i : Fin n) (m : ApplyMsg C) : Option (TestErr n C) :=
  (List.finRange n).foldl (fun err j =>
    match s.logs j m.commandIndex with
    | none => err
    | some old => if old ≠ m.command then some (.differs m.commandIndex i m.command j old) else err)
    none

def checkLogs (s : Config n C) (i : Fin n) (m : ApplyMsg C) :
    Option (TestErr n C) × Bool × Config n C :=
  (s.difference i m, (s.logs i (m.commandIndex - 1)).isSome,
    { s with
      logs := Function.update s.logs i
        (Function.update (s.logs i) m.commandIndex (some m.command))
      maxIndex := max s.maxIndex m.commandIndex })

/-- A command that is not the first must have its predecessor in the map. -/
def checkOrder (s : Config n C) (i : Fin n) (m : ApplyMsg C) : Config n C :=
  let (err, prevok, s) := s.checkLogs i m
  if m.commandIndex > 1 ∧ prevok = false then s.fail (.outOfOrder i m.commandIndex)
  else match err with
    | some e => s.fail e
    | none => s

/-- The message that the reader of an incarnation is at has been taken. -/
def took (s : Config n C) (i : Fin n) (inc : Nat) : Config n C :=
  { s with
    taken := Function.update s.taken i (Function.update (s.taken i) inc (s.taken i inc + 1)) }

/-- The reader without snapshots of one incarnation.  That of an instance that was killed
may still have messages to read. -/
def applier (s : Config n C) (i : Fin n) (inc : Nat) : Option (Config n C) := do
  let m ← (s.raft.applyCh i inc)[s.taken i inc]?
  let s := s.took i inc
  if m.commandValid = false then some s else some (s.checkOrder i m)

def ingestSnap (s : Config n C) (i : Fin n) (snapshot : Bytes) (index : Int) : Config n C :=
  match snapshotNumber snapshot with
  | none => s.fail .nilSnapshot
  | some k =>
    match s.snapshots[k]? with
    | none => s.fail .decode
    | some (lastIncludedIndex, xlog) =>
      if index ≠ -1 ∧ index ≠ lastIncludedIndex then s.fail (.snapshotIndex i)
      else
        { s with
          logs := Function.update s.logs i fun j => if 0 ≤ j then xlog[j.toNat]? else none
          lastApplied := Function.update s.lastApplied i lastIncludedIndex }

def snapShotInterval : Int := 10

/-- The commands up to the index, with nil for one that is missing. -/
def xlog (s : Config n C) (i : Fin n) (index : Nat) : List (Option C) :=
  (List.range (index + 1)).map fun (j : Nat) => (s.logs i (j : Int)).getD none

/-- The command is applied.  Every ten commands the reader has a snapshot to make, which
that of a killed instance gives to a peer that nobody hears of any more. -/
def advance (s : Config n C) (i : Fin n) (inc index : Nat) : Config n C :=
  { s with
    lastApplied := Function.update s.lastApplied i index
    compacting :=
      if inc = s.raft.incarnation i then
        Function.update s.compacting i
          (if ((index : Int) + 1) % snapShotInterval = 0 then some (index, s.xlog i index)
            else none)
      else s.compacting }

def applyCommand (s : Config n C) (i : Fin n) (inc : Nat) (m : ApplyMsg C) : Config n C :=
  if m.commandIndex ≠ s.lastApplied i + 1 then
    s.fail (.unexpected i (s.lastApplied i + 1) m.commandIndex)
  else (s.checkOrder i m).advance i inc m.commandIndex.toNat

/-- The reader with snapshots of one incarnation.  While it is about to call `Snapshot` it
reads nothing.  That of an instance that was killed reads on, and what it reads is compared
with the state that `start1` has left for the new one. -/
def applierSnap (s : Config n C) (i : Fin n) (inc : Nat) : Option (Config n C) :=
  if inc = s.raft.incarnation i ∧ (s.compacting i).isSome then none
  else do
    let m ← (s.raft.applyCh i inc)[s.taken i inc]?
    let s := s.took i inc
    if m.snapshotValid then some (s.ingestSnap i m.snapshot m.snapshotIndex)
    else if m.commandValid then some (s.applyCommand i inc m)
    else some s

/-- The reader of server `i` encodes its snapshot and calls `Snapshot`. -/
def compact (s : Config n C) (i : Fin n) : Option (Config n C) := do
  let snap ← s.compacting i
  let raft ← s.raft.step (.snapshot i snap.1 (snapshotBytes s.snapshots.length))
  some { s with
    raft := raft
    snapshots := s.snapshots ++ [snap]
    compacting := Function.update s.compacting i none }

/-- `crash1` and what `start1` does before it looks for a snapshot.  The persister is copied
before the old instance is killed, so that the new one does not see what `Kill` writes. -/
def crash1 (s : Config n C) (i : Fin n) : Config n C :=
  { s with
    raft := s.raft.crash i
    connected := Function.update s.connected i false
    lastApplied := Function.update s.lastApplied i 0
    compacting := Function.update s.compacting i none
    taken := Function.update s.taken i
      (Function.update (s.taken i) (s.raft.incarnation i + 1) 0) }

def start1 (s : Config n C) (i : Fin n) : Config n C :=
  let snapshot := (s.raft.peers i).persister.readSnapshot
  let s := s.crash1 i
  if snapshot = [] then s else s.ingestSnap i snapshot (-1)

/-! ## The calls of a test -/

def leadersOf (term : Int) (leaders : List (Int × Fin n)) : List (Fin n) :=
  (leaders.filter fun p => p.1 = term).map Prod.snd

def lastTermWithLeader (leaders : List (Int × Fin n)) : Int :=
  leaders.foldl (fun last p => if p.1 > last then p.1 else last) (-1)

/-- The end of a round of `checkOneLeader`.  Which of several contested terms is reported
depends on the order of a map; here it is the one that was found first. -/
def pick (s : Config n C) (k : Nat) (iters : Nat) (leaders : List (Int × Fin n)) : Config n C :=
  match leaders.find? fun p => 1 < (leadersOf p.1 leaders).length with
  | some p => s.fail (.leaders p.1 (leadersOf p.1 leaders).length)
  | none =>
    match leadersOf (lastTermWithLeader leaders) leaders with
    | i :: _ => { s with
        checks := s.checks.eraseIdx k
        findings := s.findings ++ [.leader i] }
    | [] =>
      if iters + 1 < 10 then { s with checks := s.checks.set k (.checkOneLeader (iters + 1) 0 []) }
      else s.fail .noLeader

/-- The next round of the loop over the servers in the `k`-th call. -/
def ask (s : Config n C) (k : Nat) : Option (Config n C) :=
  match s.checks[k]? with
  | none => none
  | some (.checkOneLeader iters i leaders) =>
    if h : i < n then
      let (term, leader) := (s.raft.peers ⟨i, h⟩).getState
      let leaders := if s.connected ⟨i, h⟩ ∧ leader then leaders ++ [(term, ⟨i, h⟩)] else leaders
      some { s with checks := s.checks.set k (.checkOneLeader iters (i + 1) leaders) }
    else some (s.pick k iters leaders)
  | some (.nCommitted index i count cmd) =>
    if h : i < n then
      match s.logs ⟨i, h⟩ index with
      | none => some { s with checks := s.checks.set k (.nCommitted index (i + 1) count cmd) }
      | some cmd1 =>
        if 0 < count ∧ cmd ≠ cmd1 then some (s.fail (.noMatch index cmd cmd1))
        else some { s with checks := s.checks.set k (.nCommitted index (i + 1) (count + 1) cmd1) }
    else some { s with
      checks := s.checks.eraseIdx k
      findings := s.findings ++ [.committed index count cmd] }

/-- What the cluster does by itself, and the calls of `Start`. -/
def Offers : Action n C → Bool
  | .snapshot .. | .crash .. => false
  | _ => true

def move (s : Config n C) : TestAction n C → Option (Config n C)
  | .raft act =>
    if Offers act then (s.raft.step act).map fun raft => { s with raft := raft } else none
  | .applier i inc =>
    if s.snapshot then s.applierSnap i inc else s.applier i inc
  | .compact i => s.compact i
  | .start1 i => some (s.start1 i)
  | .connect i => some { s with connected := Function.update s.connected i true }
  | .disconnect i => some { s with connected := Function.update s.connected i false }
  | .checkOneLeader => some { s with checks := s.checks ++ [.checkOneLeader 0 0 []] }
  | .nCommitted index => some { s with checks := s.checks ++ [.nCommitted index 0 0 none] }
  | .ask k => s.ask k

/-- Nothing happens any more when a check has failed. -/
def step (s : Config n C) (act : TestAction n C) : Option (Config n C) :=
  if s.failed.isSome then none else s.move act

theorem move_of_step {s s' : Config n C} {act : TestAction n C} (h : s.step act = some s') :
    s.move act = some s' := by
  unfold step at h
  split at h
  · cases h
  · exact h

/-! ## The kind of reader stays -/

omit [DecidableEq C] in
theorem ingestSnap_snapshot (s : Config n C) (i : Fin n) (data : Bytes) (index : Int) :
    (s.ingestSnap i data index).snapshot = s.snapshot := by
  unfold ingestSnap
  split
  · rfl
  · split
    · rfl
    · split <;> rfl

theorem checkOrder_snapshot (s : Config n C) (i : Fin n) (m : ApplyMsg C) :
    (s.checkOrder i m).snapshot = s.snapshot := by
  unfold checkOrder
  dsimp only
  split
  · rfl
  · split <;> rfl

theorem applier_snapshot {s s' : Config n C} {i : Fin n} {inc : Nat}
    (h : s.applier i inc = some s') : s'.snapshot = s.snapshot := by
  unfold applier at h
  obtain ⟨m, -, h⟩ := Option.bind_eq_some_iff.mp h
  dsimp only at h
  split at h
  · cases h
    rfl
  · cases h
    exact checkOrder_snapshot _ i m

theorem applierSnap_snapshot {s s' : Config n C} {i : Fin n} {inc : Nat}
    (h : s.applierSnap i inc = some s') : s'.snapshot = s.snapshot := by
  unfold applierSnap at h
  split at h
  · cases h
  · obtain ⟨m, -, h⟩ := Option.bind_eq_some_iff.mp h
    dsimp only at h
    split at h
    · cases h
      exact ingestSnap_snapshot _ i _ _
    · split at h
      · cases h
        unfold applyCommand
        split
        · rfl
        · exact checkOrder_snapshot _ i m
      · cases h
        rfl

theorem ask_snapshot {s s' : Config n C} {k : Nat} (h : s.ask k = some s') :
    s'.snapshot = s.snapshot := by
  unfold ask at h
  split at h
  · cases h
  · split at h
    · cases h
      rfl
    · cases h
      unfold pick
      split
      · rfl
      · split
        · rfl
        · split <;> rfl
  · split at h
    · split at h
      · cases h
        rfl
      · split at h
        · cases h
          rfl
        · cases h
          rfl
    · cases h
      rfl

theorem step_snapshot {s s' : Config n C} {act : TestAction n C} (h : s.step act = some s') :
    s'.snapshot = s.snapshot := by
  have hmove := move_of_step h
  cases act with
  | raft act =>
      simp only [move] at hmove
      split at hmove
      · obtain ⟨raft, -, rfl⟩ := Option.map_eq_some_iff.mp hmove
        rfl
      · cases hmove
  | applier i inc =>
      simp only [move] at hmove
      split at hmove
      · exact applierSnap_snapshot hmove
      · exact applier_snapshot hmove
  | compact i =>
      simp only [move, compact] at hmove
      obtain ⟨snap, -, hmove⟩ := Option.bind_eq_some_iff.mp hmove
      obtain ⟨raft, -, hmove⟩ := Option.bind_eq_some_iff.mp hmove
      cases hmove
      rfl
  | start1 i =>
      cases hmove
      unfold start1
      dsimp only
      split
      · rfl
      · exact ingestSnap_snapshot _ i _ _
  | connect i =>
      cases hmove
      rfl
  | disconnect i =>
      cases hmove
      rfl
  | checkOneLeader =>
      cases hmove
      rfl
  | nCommitted index =>
      cases hmove
      rfl
  | ask k => exact ask_snapshot hmove

end Reader
end Config
end Raft
end Labs
