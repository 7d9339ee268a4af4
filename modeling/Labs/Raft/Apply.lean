import Labs.Raft.Simulate

/-!
# The order of apply messages

What an incarnation of a server puts on its apply channel is in order when every command
carries the index after the last one delivered and every snapshot an index above it.  A
round of `applyCommitted` keeps the order as long as `lastApplied` is the last index
delivered.  `InstallSnapshot` can break that: if the peer has applied past the snapshot
that arrives, `applyCommitted` delivers the snapshot all the same and sets `lastApplied`
back, and the commands above the snapshot are delivered a second time.
-/

namespace Labs
namespace Raft

open Consensus

variable {n : Nat} {C : Type}

/-! ## Messages in order -/

def ApplyMsg.index (msg : ApplyMsg C) : Int :=
  if msg.snapshotValid then msg.snapshotIndex else msg.commandIndex

/-- The message may follow one with index `last`. -/
def ApplyMsg.Next (last : Int) (msg : ApplyMsg C) : Prop :=
  msg.snapshotValid = true ∧ last < msg.snapshotIndex ∨
    msg.snapshotValid = false ∧ msg.commandValid = true ∧ msg.commandIndex = last + 1

instance (last : Int) (msg : ApplyMsg C) : Decidable (msg.Next last) :=
  inferInstanceAs (Decidable (_ ∨ _))

def InOrder : Int → List (ApplyMsg C) → Prop
  | _, [] => True
  | last, msg :: rest => msg.Next last ∧ InOrder msg.index rest

instance decidableInOrder : (last : Int) → (msgs : List (ApplyMsg C)) →
    Decidable (InOrder last msgs)
  | _, [] => isTrue trivial
  | last, msg :: rest =>
    have := decidableInOrder msg.index rest
    inferInstanceAs (Decidable (msg.Next last ∧ InOrder msg.index rest))

/-- The last index delivered. -/
def lastIndex : Int → List (ApplyMsg C) → Int
  | last, [] => last
  | _, msg :: rest => lastIndex msg.index rest

theorem lastIndex_append (last : Int) (msgs msgs' : List (ApplyMsg C)) :
    lastIndex last (msgs ++ msgs') = lastIndex (lastIndex last msgs) msgs' := by
  induction msgs generalizing last with
  | nil => rfl
  | cons msg rest ih => exact ih msg.index

theorem inOrder_append {last : Int} {msgs msgs' : List (ApplyMsg C)} :
    InOrder last (msgs ++ msgs') ↔ InOrder last msgs ∧ InOrder (lastIndex last msgs) msgs' := by
  induction msgs generalizing last with
  | nil => simp [InOrder, lastIndex]
  | cons msg rest ih => simp [InOrder, lastIndex, ih, and_assoc]

theorem ApplyMsg.Next.lt_index {last : Int} {msg : ApplyMsg C} (h : msg.Next last) :
    last < msg.index := by
  unfold index
  rcases h with ⟨hs, hlt⟩ | ⟨hs, -, heq⟩
  · rw [hs, if_pos rfl]
    exact hlt
  · rw [hs, if_neg Bool.false_ne_true]
    omega

theorem InOrder.le_lastIndex {last : Int} {msgs : List (ApplyMsg C)} (h : InOrder last msgs) :
    last ≤ lastIndex last msgs := by
  induction msgs generalizing last with
  | nil => exact le_refl _
  | cons msg rest ih => exact h.1.lt_index.le.trans (ih h.2)

/-- Messages in order carry rising indices, so that none is delivered twice. -/
theorem InOrder.pairwise {last : Int} {msgs : List (ApplyMsg C)} (h : InOrder last msgs) :
    (∀ msg ∈ msgs, last < msg.index) ∧ msgs.Pairwise fun msg msg' => msg.index < msg'.index := by
  induction msgs generalizing last with
  | nil => exact ⟨by simp, .nil⟩
  | cons first rest ih =>
      obtain ⟨habove, hrest⟩ := ih h.2
      have hfirst := h.1.lt_index
      refine ⟨fun msg hm => ?_, .cons habove hrest⟩
      rcases List.mem_cons.mp hm with rfl | hm
      · exact hfirst
      · exact hfirst.trans (habove msg hm)

/-- No message is ahead of the last one. -/
theorem InOrder.index_le {last : Int} {msgs : List (ApplyMsg C)} (h : InOrder last msgs)
    {msg : ApplyMsg C} (hm : msg ∈ msgs) : msg.index ≤ lastIndex last msgs := by
  induction msgs generalizing last with
  | nil => cases hm
  | cons first rest ih =>
      rcases List.mem_cons.mp hm with rfl | hm
      · exact h.2.le_lastIndex
      · exact ih h.2 hm

/-- The message at a place of a channel in order may follow those before it. -/
theorem InOrder.next {base : Int} {msgs : List (ApplyMsg C)} (h : InOrder base msgs) {t : Nat}
    {msg : ApplyMsg C} (ht : msgs[t]? = some msg) :
    msg.Next (lastIndex base (msgs.take t)) := by
  induction msgs generalizing base t with
  | nil => cases ht
  | cons first rest ih =>
      cases t with
      | zero =>
          cases ht
          exact h.1
      | succ t => exact ih h.2 ht

theorem lastIndex_take_succ (base : Int) {msgs : List (ApplyMsg C)} {t : Nat}
    {msg : ApplyMsg C} (ht : msgs[t]? = some msg) :
    lastIndex base (msgs.take (t + 1)) = msg.index := by
  rw [List.take_add_one, ht, lastIndex_append]
  rfl

/-- The last index is the one before the channel, or that of a message. -/
theorem lastIndex_mem (base : Int) (msgs : List (ApplyMsg C)) :
    lastIndex base msgs = base ∨ ∃ msg ∈ msgs, lastIndex base msgs = msg.index := by
  induction msgs generalizing base with
  | nil => exact .inl rfl
  | cons first rest ih =>
      rcases ih first.index with heq | ⟨msg, hmsg, heq⟩
      · exact .inr ⟨first, List.mem_cons_self, heq⟩
      · exact .inr ⟨msg, List.mem_cons_of_mem _ hmsg, heq⟩

/-- The commands of consecutive entries, the first of which has the index after `last`. -/
def commands : Int → List (LogEntry C) → List (ApplyMsg C)
  | _, [] => []
  | last, e :: rest =>
    { commandValid := true, command := e.command, commandIndex := last + 1 } ::
      commands (last + 1) rest

theorem commands_append (last : Int) (es es' : List (LogEntry C)) :
    commands last (es ++ es') = commands last es ++ commands (last + es.length) es' := by
  induction es generalizing last with
  | nil => simp [commands]
  | cons e rest ih =>
      simp only [List.cons_append, commands, ih, List.length_cons]
      congr 3
      omega

theorem inOrder_commands (last : Int) (es : List (LogEntry C)) :
    InOrder last (commands last es) ∧ lastIndex last (commands last es) = last + es.length := by
  induction es generalizing last with
  | nil => simp [commands, InOrder, lastIndex]
  | cons e rest ih =>
      obtain ⟨horder, hlast⟩ := ih (last + 1)
      refine ⟨⟨.inr ⟨rfl, rfl, rfl⟩, horder⟩, ?_⟩
      show lastIndex (last + 1) (commands (last + 1) rest) = _
      rw [hlast, List.length_cons]
      omega

theorem mem_commands {last : Int} {es : List (LogEntry C)} {msg : ApplyMsg C}
    (h : msg ∈ commands last es) : ∃ (j : Nat) (e : LogEntry C), es[j]? = some e ∧
      msg = { commandValid := true, command := e.command, commandIndex := last + j + 1 } := by
  induction es generalizing last with
  | nil => cases h
  | cons e rest ih =>
      rcases List.mem_cons.mp h with rfl | h
      · exact ⟨0, e, rfl, by simp⟩
      · obtain ⟨j, d, hd, rfl⟩ := ih h
        refine ⟨j + 1, d, by simpa using hd, ?_⟩
        congr 1
        push_cast
        omega

/-! ## A round of `applyCommitted` -/

namespace Peer

/-- The loop over the indices that are committed and not applied collects them all. -/
theorem Compacts.collect {rf : Peer n C} {ℓ : List (LogEntry C)} {b k : Nat}
    (h : Compacts rf ℓ b) (hb : b ≤ k) (m : Nat) (hm : k + m ≤ ℓ.length) :
    ((List.range m).filterMap fun (j : Nat) =>
      if rf.toPhysicalIndex ((k : Int) + 1 + j) > 0 then
        rf.log[(rf.toPhysicalIndex ((k : Int) + 1 + j)).toNat]?.map fun entry =>
          ({ commandValid := true
             command := entry.command
             commandIndex := (k : Int) + 1 + j } : ApplyMsg C)
      else none) = commands k ((ℓ.drop k).take m) := by
  induction m with
  | zero => rfl
  | succ m ih =>
      obtain ⟨e, he⟩ : ∃ e, ℓ[k + m]? = some e := ⟨_, List.getElem?_eq_getElem (by omega)⟩
      have hphys : rf.toPhysicalIndex ((k : Int) + 1 + m) = ((k + m - b + 1 : Nat) : Int) := by
        rw [toPhysicalIndex, h.index]
        omega
      have hget : rf.log[k + m - b + 1]? = some e := by
        rw [h.getElem?, show b + (k + m - b) = k + m by omega, he]
      rw [List.range_succ, List.filterMap_append, ih (by omega), List.take_add_one,
        List.getElem?_drop, he, Option.toList_some, commands_append]
      congr 1
      rw [List.length_take, List.length_drop, min_eq_left (by omega)]
      simp only [List.filterMap_cons, List.filterMap_nil, hphys, Int.toNat_natCast, hget]
      rw [if_pos (by omega)]
      simp only [Option.map_some, commands]
      congr 2
      omega

/-- A round delivers a snapshot that has been installed, or else the commands from the
last one applied up to the commit index. -/
theorem Compacts.applyCommitted {rf rf' : Peer n C} {ℓ : List (LogEntry C)} {b : Nat}
    {msgs : List (ApplyMsg C)} (h : Compacts rf ℓ b) (hcommit : rf.commitIndex ≤ ℓ.length)
    (hcovered : rf.lastIncludedIndex ≤ rf.lastApplied)
    (happly : rf.applyCommitted = some (rf', msgs)) :
    rf.applySnapshot = true ∧
        rf' = { rf with lastApplied := rf.lastIncludedIndex, applySnapshot := false } ∧
        msgs = [{ snapshotValid := true
                  snapshot := rf.snapshotBytes
                  snapshotTerm := rf.lastIncludedTerm
                  snapshotIndex := rf.lastIncludedIndex }] ∨
      rf.applySnapshot = false ∧ rf' = { rf with lastApplied := rf.commitIndex } ∧
        ∃ k m : Nat, rf.lastApplied = k ∧ rf.commitIndex = k + m ∧
          msgs = commands k ((ℓ.drop k).take m) := by
  have hindex := h.index
  unfold Peer.applyCommitted at happly
  split at happly
  · cases happly
  · next hwait =>
      split at happly
      · next hsnap =>
          cases happly
          refine .inl ⟨?_, rfl, rfl⟩
          rcases hsnap with hlt | hflag
          · omega
          · exact hflag
      · next hsnap =>
          have hflag : rf.applySnapshot = false := by
            simpa using fun hf => hsnap (.inr hf)
          have hlt : rf.lastApplied < rf.commitIndex := by
            rw [hflag] at hwait
            simpa using hwait
          cases happly
          obtain ⟨k, hk⟩ : ∃ k : Nat, rf.lastApplied = k := ⟨rf.lastApplied.toNat, by omega⟩
          obtain ⟨m, hm⟩ : ∃ m : Nat, rf.commitIndex = k + m :=
            ⟨(rf.commitIndex - k).toNat, by omega⟩
          refine .inr ⟨hflag, rfl, k, m, hk, hm, ?_⟩
          rw [hk, show (rf.commitIndex - (k : Int)).toNat = m by omega]
          exact h.collect (by omega) m (by omega)

end Peer

/-! ## What a step does on the apply side -/

namespace Cluster

/-- Nothing: no peer applies or compacts, and nothing is put on a channel. -/
structure Quiet (w w' : Cluster n C) : Prop where
  peers : ∀ j, Peer.SameApplied (w.peers j) (w'.peers j)
  sending : w'.sending = w.sending
  applyCh : w'.applyCh = w.applyCh
  loaded : w'.loaded = w.loaded
  incarnation : w'.incarnation = w.incarnation

theorem Quiet.of_update {w w' : Cluster n C} {i : Fin n} {rf : Peer n C}
    (hrf : Peer.SameApplied (w.peers i) rf) (hw : w'.peers = Function.update w.peers i rf)
    (hsending : w'.sending = w.sending) (hch : w'.applyCh = w.applyCh)
    (hloaded : w'.loaded = w.loaded) (hinc : w'.incarnation = w.incarnation) : Quiet w w' := by
  refine ⟨fun j => ?_, hsending, hch, hloaded, hinc⟩
  rw [hw, Function.update_apply]
  split
  · next hj =>
      rw [hj]
      exact hrf
  · exact Peer.SameApplied.refl _

inductive ApplyTrans (w : Cluster n C) : Action n C → Cluster n C → Prop
  | quiet {act : Action n C} {w' : Cluster n C} : Quiet w w' → ApplyTrans w act w'
  | snapshot (i : Fin n) (index : Int) (data : Bytes) :
      ApplyTrans w (.snapshot i index data) (w.setPeer i ((w.peers i).snapshot index data))
  | install (k m : Nat) (dst : Fin n) (args : InstallSnapshotArgs n) :
      w.requests[k]? = some (.installSnapshot m dst args) →
      ApplyTrans w (.deliver k)
        (((w.dropRequest k).setPeer dst ((w.peers dst).installSnapshot args).1).respond
          (.installSnapshot m dst args ((w.peers dst).installSnapshot args).2))
  | apply (i : Fin n) (rf : Peer n C) (msgs : List (ApplyMsg C)) :
      w.sending i = [] → (w.peers i).applyCommitted = some (rf, msgs) →
      ApplyTrans w (.apply i)
        { w.setPeer i rf with sending := Function.update w.sending i msgs }
  | send (i : Fin n) (msg : ApplyMsg C) (rest : List (ApplyMsg C)) :
      w.sending i = msg :: rest →
      ApplyTrans w (.send i)
        { w with
          sending := Function.update w.sending i rest
          applyCh := Function.update w.applyCh i
            (Function.update (w.applyCh i) (w.incarnation i)
              (w.applyCh i (w.incarnation i) ++ [msg])) }
  | crash (i : Fin n) : ApplyTrans w (.crash i) (w.crash i)

theorem applyTrans_of_step {w w' : Cluster n C} {act : Action n C} (hs : w.step act = some w') :
    ApplyTrans w act w' := by
  have hrefl : ∀ j, Peer.SameApplied (w.peers j) (w.peers j) :=
    fun j => Peer.SameApplied.refl _
  cases trans_of_step hs with
  | tickHeartbeat i elapsed timeout hlead => exact .quiet ⟨hrefl, rfl, rfl, rfl, rfl⟩
  | tickElection i elapsed timeout hnot hn =>
      exact .quiet (.of_update (Peer.sameLog_startElection (w.peers i)).sameApplied rfl rfl rfl
        rfl rfl)
  | tickIdle i elapsed timeout => exact .quiet ⟨hrefl, rfl, rfl, rfl, rfl⟩
  | start i command =>
      refine .quiet (.of_update (Peer.sameApplied_start (w.peers i) command) ?_ ?_ ?_ ?_ ?_) <;>
        simp [setPeer]
  | snapshot i index data => exact .snapshot i index data
  | heartbeatRun k i inc hk hinc hlead => exact .quiet ⟨hrefl, rfl, rfl, rfl, rfl⟩
  | heartbeatQuit k => exact .quiet ⟨hrefl, rfl, rfl, rfl, rfl⟩
  | workerMoves k wk pc hk hinc hpc => exact .quiet ⟨hrefl, rfl, rfl, rfl, rfl⟩
  | workerEntries k wk args hk hinc hpc hargs => exact .quiet ⟨hrefl, rfl, rfl, rfl, rfl⟩
  | workerFlag k wk flag pc hk hinc hpc =>
      exact .quiet (.of_update
        (⟨rfl, rfl, rfl⟩ : Peer.SameApplied (w.peers wk.src)
          ((w.peers wk.src).setReplicating wk.peer flag)) rfl rfl rfl rfl rfl)
  | workerSnapshot k wk args hk hinc hpc hargs => exact .quiet ⟨hrefl, rfl, rfl, rfl, rfl⟩
  | deliverVote k e dst args hk =>
      exact .quiet (.of_update (Peer.sameLog_requestVote (w.peers dst) args).sameApplied rfl rfl
        rfl rfl rfl)
  | deliverEntries k m dst args hk =>
      exact .quiet (.of_update (Peer.sameApplied_appendEntries (w.peers dst) args) rfl rfl rfl
        rfl rfl)
  | deliverSnapshot k m dst args hk => exact .install k m dst args hk
  | receiveVote k e dst args reply el rf votes started hk hel hinc hwait hreply =>
      refine .quiet (.of_update (Peer.sameApplied_handleRequestVoteReply hreply)
        (readVote_peers ..) ?_ ?_ ?_ ?_) <;> simp
  | receiveEntries k m dst args reply wk hk hm hinc hpc =>
      exact .quiet (.of_update
        (Peer.sameApplied_handleAppendEntriesReply (w.peers wk.src) dst args reply) rfl rfl rfl
        rfl rfl)
  | receiveSnapshot k m dst args reply wk hk hm hinc hpc =>
      exact .quiet (.of_update
        (Peer.sameApplied_handleInstallSnapshotReply (w.peers wk.src) dst args reply) rfl rfl rfl
        rfl rfl)
  | callFails k wk hk hinc hpc => exact .quiet ⟨hrefl, rfl, rfl, rfl, rfl⟩
  | voteFails e peer el hel => exact .quiet ⟨hrefl, rfl, rfl, rfl, rfl⟩
  | apply i rf msgs hsend happly => exact .apply i rf msgs hsend happly
  | send i msg rest hsend => exact .send i msg rest hsend
  | crash i => exact .crash i

/-- A step without a crash only adds to the channels. -/
theorem channels_of_step {w w' : Cluster n C} {act : Action n C}
    (hs : w.step act = some w') (hact : ∀ i, act ≠ .crash i) :
    w'.incarnation = w.incarnation ∧ w'.loaded = w.loaded ∧
      ∀ i inc, w.applyCh i inc <+: w'.applyCh i inc := by
  cases applyTrans_of_step hs with
  | quiet hq =>
      refine ⟨hq.incarnation, hq.loaded, fun i inc => ?_⟩
      rw [hq.applyCh]
  | snapshot i index data => exact ⟨rfl, rfl, fun _ _ => List.prefix_refl _⟩
  | install k m dst args hk => exact ⟨rfl, rfl, fun _ _ => List.prefix_refl _⟩
  | apply i rf msgs hsend happly => exact ⟨rfl, rfl, fun _ _ => List.prefix_refl _⟩
  | send i msg rest hsend =>
      refine ⟨rfl, rfl, fun j inc => ?_⟩
      show w.applyCh j inc <+: Function.update w.applyCh i _ j inc
      by_cases hj : j = i
      · rw [hj, Function.update_self, Function.update_apply]
        split
        · next hinc =>
            rw [hinc]
            exact List.prefix_append _ _
        · exact List.prefix_refl _
      · rw [Function.update_of_ne hj]
  | crash i => exact absurd rfl (hact i)

end Cluster

/-! ## The last index delivered -/

/-- What a peer has applied, given the index it started from and the messages it has
collected since.  A snapshot that waits to be delivered is ahead of them all. -/
structure AppliedBy (rf : Peer n C) (base : Int) (msgs : List (ApplyMsg C)) : Prop where
  order : InOrder base msgs
  covered : rf.lastIncludedIndex ≤ rf.lastApplied
  pending : rf.applySnapshot = true →
    lastIndex base msgs < rf.lastIncludedIndex ∧ rf.lastApplied = rf.lastIncludedIndex
  done : rf.applySnapshot = false → lastIndex base msgs = rf.lastApplied

namespace AppliedBy

variable {rf rf' : Peer n C} {base : Int} {msgs : List (ApplyMsg C)}

theorem lastIndex_le (h : AppliedBy rf base msgs) : lastIndex base msgs ≤ rf.lastApplied := by
  cases hflag : rf.applySnapshot with
  | false => exact (h.done hflag).le
  | true =>
      obtain ⟨hlt, heq⟩ := h.pending hflag
      omega

theorem same (h : AppliedBy rf base msgs) (hsame : Peer.SameApplied rf rf') :
    AppliedBy rf' base msgs where
  order := h.order
  covered := by
    rw [hsame.index, hsame.applied]
    exact h.covered
  pending := by
    rw [hsame.index, hsame.applied, hsame.flag]
    exact h.pending
  done := by
    rw [hsame.applied, hsame.flag]
    exact h.done

/-- With a snapshot waiting, what the service has received is below that snapshot, and
`Snapshot` does nothing. -/
theorem snapshot (h : AppliedBy rf base msgs) {index : Int} (data : Bytes)
    (hindex : index ≤ lastIndex base msgs) : AppliedBy (rf.snapshot index data) base msgs := by
  have hlast := h.lastIndex_le
  have hcovered := h.covered
  have hlii := Peer.snapshot_lastIncludedIndex rf index data
  obtain ⟨k, t, log, bytes, ps, heq⟩ := Peer.snapshot_eq rf index data
  rw [heq] at hlii ⊢
  have hk : k = max rf.lastIncludedIndex index := hlii
  refine ⟨h.order, ?_, fun hflag => ?_, h.done⟩
  · show k ≤ rf.lastApplied
    omega
  · obtain ⟨hlt, happlied⟩ := h.pending hflag
    show lastIndex base msgs < k ∧ rf.lastApplied = k
    omega

theorem installSnapshot (h : AppliedBy rf base msgs) {args : InstallSnapshotArgs n}
    (hnew : rf.currentTerm ≤ args.term → rf.lastIncludedIndex < args.lastIncludedIndex →
      rf.lastApplied < args.lastIncludedIndex) :
    AppliedBy (rf.installSnapshot args).1 base msgs := by
  rcases Peer.installSnapshot_applied rf args with hsame | ⟨hterm, hlt, hindex, happlied, hflag⟩
  · exact h.same hsame
  · have hahead := hnew hterm hlt
    have hlast := h.lastIndex_le
    refine ⟨h.order, by omega, fun _ => by omega, fun hno => ?_⟩
    rw [hflag] at hno
    cases hno

theorem applyCommitted (h : AppliedBy rf base msgs) {ℓ : List (LogEntry C)} {b : Nat}
    {new : List (ApplyMsg C)} (hc : rf.Compacts ℓ b) (hcommit : rf.commitIndex ≤ ℓ.length)
    (happly : rf.applyCommitted = some (rf', new)) : AppliedBy rf' base (msgs ++ new) := by
  rcases hc.applyCommitted hcommit h.covered happly with
    ⟨hflag, rfl, rfl⟩ | ⟨hflag, rfl, k, m, hk, hm, rfl⟩
  · obtain ⟨hlt, -⟩ := h.pending hflag
    have hlast : lastIndex base (msgs ++ [({
        snapshotValid := true
        snapshot := rf.snapshotBytes
        snapshotTerm := rf.lastIncludedTerm
        snapshotIndex := rf.lastIncludedIndex } : ApplyMsg C)]) = rf.lastIncludedIndex := by
      rw [lastIndex_append]
      rfl
    refine ⟨inOrder_append.mpr ⟨h.order, .inl ⟨rfl, hlt⟩, trivial⟩, le_refl _, fun hno => ?_,
      fun _ => hlast⟩
    cases hno
  · have hdone := h.done hflag
    have hcovered := h.covered
    rw [hk] at hdone
    obtain ⟨horder, hlast⟩ := inOrder_commands (k : Int) ((ℓ.drop k).take m)
    have hlen : ((ℓ.drop k).take m).length = m := by
      rw [List.length_take, List.length_drop]
      omega
    refine ⟨inOrder_append.mpr ⟨h.order, ?_⟩, ?_, fun hyes => ?_, fun _ => ?_⟩
    · rw [hdone]
      exact horder
    · show rf.lastIncludedIndex ≤ rf.commitIndex
      omega
    · rw [hflag] at hyes
      cases hyes
    · show lastIndex base (msgs ++ commands k ((ℓ.drop k).take m)) = rf.commitIndex
      rw [lastIndex_append, hdone, hlast, hlen, hm]

/-- After a restart the snapshot that was saved has been loaded, and nothing is sent yet. -/
theorem make (i : Fin n) (ps : Persister n C) (hpos : 0 ≤ (Peer.make i ps).lastIncludedIndex) :
    AppliedBy (Peer.make i ps) (Peer.make i ps).lastIncludedIndex [] := by
  have happlied := (Peer.make_commitIndex i ps).2
  rw [max_eq_right hpos] at happlied
  refine ⟨trivial, happlied.ge, fun hflag => ?_, fun _ => happlied.symm⟩
  rw [Peer.make_applySnapshot] at hflag
  cases hflag

end AppliedBy

namespace Cluster

/-- Every channel is in order, and what a peer has applied is what its incarnation has
sent or is about to send. -/
structure Applied (w : Cluster n C) : Prop where
  peers : ∀ i, AppliedBy (w.peers i) (w.loaded i (w.incarnation i))
    (w.applyCh i (w.incarnation i) ++ w.sending i)
  past : ∀ i inc, InOrder (w.loaded i inc) (w.applyCh i inc)
  future : ∀ i inc, w.incarnation i < inc → w.applyCh i inc = []

/-- The service compacts only what it has received, by a message or from the persister. -/
def Received (w : Cluster n C) : Action n C → Prop
  | .snapshot i index _ => index ≤ w.loaded i (w.incarnation i) ∨
      ∃ msg ∈ w.applyCh i (w.incarnation i), index ≤ msg.index
  | _ => True

instance (w : Cluster n C) : (act : Action n C) → Decidable (Received w act)
  | .snapshot i index _ => inferInstanceAs (Decidable (index ≤ w.loaded i (w.incarnation i) ∨
      ∃ msg ∈ w.applyCh i (w.incarnation i), index ≤ msg.index))
  | .tick .. | .start .. | .worker .. | .sendHeartbeat .. | .deliver .. | .receive ..
  | .callFails .. | .voteFails .. | .apply .. | .send .. | .crash .. => isTrue trivial

/-- The snapshot is not one that its receiver has applied past without having it. -/
def Ahead (w : Cluster n C) : Request n C → Prop
  | .installSnapshot _ dst args => (w.peers dst).currentTerm ≤ args.term →
      (w.peers dst).lastIncludedIndex < args.lastIncludedIndex →
      (w.peers dst).lastApplied < args.lastIncludedIndex
  | .requestVote .. => True
  | .appendEntries .. => True

instance (w : Cluster n C) : (r : Request n C) → Decidable (Ahead w r)
  | .installSnapshot _ dst args => inferInstanceAs (Decidable
      ((w.peers dst).currentTerm ≤ args.term →
        (w.peers dst).lastIncludedIndex < args.lastIncludedIndex →
        (w.peers dst).lastApplied < args.lastIncludedIndex))
  | .requestVote .. => isTrue trivial
  | .appendEntries .. => isTrue trivial

/-- No `InstallSnapshot` is handled by a peer that has applied past the snapshot and
has not compacted that far itself. -/
def InstallsAhead (w : Cluster n C) (act : Action n C) : Prop :=
  ∀ r ∈ w.delivered act, Ahead w r

instance (w : Cluster n C) (act : Action n C) : Decidable (InstallsAhead w act) :=
  inferInstanceAs (Decidable (∀ r ∈ w.delivered act, Ahead w r))

structure Ordered (w : Cluster n C) (act : Action n C) : Prop where
  vote : VotesOnce w act
  placeholder : SkipsPlaceholder w act
  received : Received w act
  ahead : InstallsAhead w act

instance (w : Cluster n C) (act : Action n C) : Decidable (Ordered w act) :=
  decidable_of_iff (VotesOnce w act ∧ SkipsPlaceholder w act ∧ Received w act ∧
      InstallsAhead w act)
    ⟨fun ⟨hv, hp, hr, ha⟩ => ⟨hv, hp, hr, ha⟩, fun ⟨hv, hp, hr, ha⟩ => ⟨hv, hp, hr, ha⟩⟩

section Step

variable {w w' : Cluster n C} {a : AbsState n C} {act : Action n C}

theorem applied_init : Applied (init : Cluster n C) where
  peers := fun i => AppliedBy.make i Persister.makePersister (le_refl _)
  past := fun _ _ => trivial
  future := fun _ _ _ => rfl

/-- What the service has received is below the last index collected. -/
theorem Applied.le_lastIndex (h : Applied w) {i : Fin n} {index : Int} {data : Bytes}
    (hr : Received w (.snapshot i index data)) :
    index ≤ lastIndex (w.loaded i (w.incarnation i))
      (w.applyCh i (w.incarnation i) ++ w.sending i) := by
  have horder := (h.peers i).order
  rcases hr with hle | ⟨msg, hmsg, hle⟩
  · exact hle.trans horder.le_lastIndex
  · exact hle.trans (horder.index_le (List.mem_append_left _ hmsg))

theorem Applied.safe (h : Applied w) (href : Refines w a) (hok : Ordered w act) :
    Safe w act where
  vote := hok.vote
  placeholder := hok.placeholder
  snapshot := by
    have hr := hok.received
    cases act with
    | snapshot i index data =>
        exact (h.le_lastIndex hr).trans ((h.peers i).lastIndex_le.trans (href.peers i).applied)
    | _ => trivial

/-- A peer moves, and its channel and what it has collected stay. -/
theorem Applied.setPeer (h : Applied w) {i : Fin n} {rf : Peer n C}
    (hrf : AppliedBy rf (w.loaded i (w.incarnation i))
      (w.applyCh i (w.incarnation i) ++ w.sending i)) : Applied (w.setPeer i rf) := by
  refine ⟨fun j => ?_, h.past, h.future⟩
  show AppliedBy (Function.update w.peers i rf j) (w.loaded j (w.incarnation j))
    (w.applyCh j (w.incarnation j) ++ w.sending j)
  rw [Function.update_apply]
  split
  · next hj =>
      rw [hj]
      exact hrf
  · exact h.peers j

theorem Applied.apply (h : Applied w) (href : Refines w a) {i : Fin n} {rf : Peer n C}
    {msgs : List (ApplyMsg C)} (hsend : w.sending i = [])
    (happly : (w.peers i).applyCommitted = some (rf, msgs)) :
    Applied { w.setPeer i rf with sending := Function.update w.sending i msgs } := by
  obtain ⟨b, hc, -⟩ := (href.peers i).base
  have hi := (h.peers i).applyCommitted hc (href.commitIndex_le i) happly
  rw [hsend, List.append_nil] at hi
  refine ⟨fun j => ?_, h.past, h.future⟩
  show AppliedBy (Function.update w.peers i rf j) (w.loaded j (w.incarnation j))
    (w.applyCh j (w.incarnation j) ++ Function.update w.sending i msgs j)
  by_cases hj : j = i
  · rw [hj, Function.update_self, Function.update_self]
    exact hi
  · rw [Function.update_of_ne hj, Function.update_of_ne hj]
    exact h.peers j

theorem Applied.send (h : Applied w) {i : Fin n} {msg : ApplyMsg C} {rest : List (ApplyMsg C)}
    (hsend : w.sending i = msg :: rest) :
    Applied { w with
      sending := Function.update w.sending i rest
      applyCh := Function.update w.applyCh i
        (Function.update (w.applyCh i) (w.incarnation i)
          (w.applyCh i (w.incarnation i) ++ [msg])) } := by
  have hi := h.peers i
  rw [hsend, List.append_cons] at hi
  refine ⟨fun j => ?_, fun j inc => ?_, fun j inc hinc => ?_⟩
  · show AppliedBy (w.peers j) (w.loaded j (w.incarnation j))
      (Function.update w.applyCh i _ j (w.incarnation j) ++ Function.update w.sending i rest j)
    by_cases hj : j = i
    · rw [hj, Function.update_self, Function.update_self, Function.update_self]
      exact hi
    · rw [Function.update_of_ne hj, Function.update_of_ne hj]
      exact h.peers j
  · show InOrder (w.loaded j inc) (Function.update w.applyCh i _ j inc)
    by_cases hj : j = i
    · rw [hj, Function.update_self, Function.update_apply]
      split
      · next hcur =>
          rw [hcur]
          exact (inOrder_append.mp hi.order).1
      · exact h.past i inc
    · rw [Function.update_of_ne hj]
      exact h.past j inc
  · show Function.update w.applyCh i _ j inc = []
    by_cases hj : j = i
    · have hinc' : w.incarnation i < inc := hj ▸ hinc
      rw [hj, Function.update_self, Function.update_of_ne (by omega)]
      exact h.future i inc hinc'
    · rw [Function.update_of_ne hj]
      exact h.future j inc hinc

theorem Applied.crash (h : Applied w) (href : Refines w a) (i : Fin n) :
    Applied (w.crash i) := by
  have hpos : 0 ≤ (Peer.make i (w.peers i).persister).lastIncludedIndex := by
    obtain ⟨b, hc, -⟩ := (href.peers i).base
    obtain ⟨-, -, -, hindex, -⟩ := href.votes.saved i
    rw [href.votes.me i, hc.index] at hindex
    omega
  refine ⟨fun j => ?_, fun j inc => ?_, fun j inc hinc => ?_⟩
  · show AppliedBy (Function.update w.peers i _ j)
      (Function.update w.loaded i _ j (Function.update w.incarnation i _ j))
      (Function.update w.applyCh i _ j (Function.update w.incarnation i _ j) ++
        Function.update w.sending i [] j)
    by_cases hj : j = i
    · rw [hj]
      simp only [Function.update_self]
      rw [Function.update_of_ne (by omega), h.future i _ (Nat.lt_succ_self _), List.append_nil]
      exact AppliedBy.make i _ hpos
    · simp only [Function.update_of_ne hj]
      exact h.peers j
  · show InOrder (Function.update w.loaded i _ j inc) (Function.update w.applyCh i _ j inc)
    by_cases hj : j = i
    · rw [hj, Function.update_self, Function.update_self]
      by_cases hnew : inc = w.incarnation i + 1
      · have hne : w.incarnation i + 1 ≠ w.incarnation i := by omega
        rw [hnew, Function.update_of_ne hne, h.future i _ (Nat.lt_succ_self _)]
        trivial
      · rw [Function.update_of_ne hnew, Function.update_apply]
        split
        · next hold =>
            rw [hold]
            exact (h.peers i).order
        · exact h.past i inc
    · rw [Function.update_of_ne hj, Function.update_of_ne hj]
      exact h.past j inc
  · have hlt : Function.update w.incarnation i (w.incarnation i + 1) j < inc := hinc
    show Function.update w.applyCh i _ j inc = []
    by_cases hj : j = i
    · rw [hj, Function.update_self] at hlt
      rw [hj, Function.update_self, Function.update_of_ne (by omega)]
      exact h.future i inc (by omega)
    · rw [Function.update_of_ne hj] at hlt ⊢
      exact h.future j inc hlt

theorem Applied.quiet (h : Applied w) (hq : Quiet w w') : Applied w' := by
  refine ⟨fun i => ?_, ?_, ?_⟩
  · rw [hq.loaded, hq.applyCh, hq.sending, hq.incarnation]
    exact (h.peers i).same (hq.peers i)
  · rw [hq.loaded, hq.applyCh]
    exact h.past
  · rw [hq.applyCh, hq.incarnation]
    exact h.future

theorem Applied.step (h : Applied w) (href : Refines w a) (hok : Ordered w act)
    (hs : w.step act = some w') : Applied w' := by
  cases applyTrans_of_step hs with
  | quiet hq => exact h.quiet hq
  | snapshot i index data =>
      exact h.setPeer ((h.peers i).snapshot data (h.le_lastIndex hok.received))
  | install k m dst args hk =>
      have hset := h.setPeer ((h.peers dst).installSnapshot (hok.ahead _ hk))
      exact ⟨hset.peers, hset.past, hset.future⟩
  | apply i rf msgs hsend happly => exact h.apply href hsend happly
  | send i msg rest hsend => exact h.send hsend
  | crash i => exact h.crash href i

end Step
end Cluster

/-! ## What is delivered has been committed -/

/-- A command at its index in a committed part of the log. -/
def Chosen (a : AbsState n C) (msg : ApplyMsg C) : Prop :=
  msg.snapshotValid = false → ∃ (t : Int) (P : List (LogEntry C)) (k : Nat) (e : LogEntry C),
    a.CommittedTo (majority n) t P ∧ P[k]? = some e ∧ msg.commandIndex = k + 1 ∧
      msg.command = e.command

theorem Chosen.mono {a a' : AbsState n C} (hext : a.Ext a') {msg : ApplyMsg C}
    (h : Chosen a msg) : Chosen a' msg := by
  intro hs
  obtain ⟨t, P, k, e, hc, he, hindex, hcmd⟩ := h hs
  exact ⟨t, P, k, e, hext.committedTo (le_refl t) hc, he, hindex, hcmd⟩

/-- Committed parts are comparable, so at one index there is one command. -/
theorem Chosen.command_eq {a : AbsState n C} (hinv : a.Inv (majority n)) {msg msg' : ApplyMsg C}
    (h : Chosen a msg) (h' : Chosen a msg') (hs : msg.snapshotValid = false)
    (hs' : msg'.snapshotValid = false) (hindex : msg.commandIndex = msg'.commandIndex) :
    msg.command = msg'.command := by
  obtain ⟨t, P, k, e, hc, he, hk, hcmd⟩ := h hs
  obtain ⟨t', P', k', e', hc', he', hk', hcmd'⟩ := h' hs'
  have hkk : k' = k := by omega
  rw [hkk] at he'
  have hlt := (List.getElem?_eq_some_iff.mp he).1
  have hlt' := (List.getElem?_eq_some_iff.mp he').1
  have heq : some e = some e' := by
    rcases hinv.committedTo_comparable hc hc' with ⟨post, rfl⟩ | ⟨post, rfl⟩
    · rw [← he', List.getElem?_append_left hlt, he]
    · rw [← he, List.getElem?_append_left hlt', he']
  rw [hcmd, hcmd', Option.some.inj heq]

namespace Cluster

/-- Every message delivered or collected meets the condition. -/
structure Carries (w : Cluster n C) (P : ApplyMsg C → Prop) : Prop where
  applyCh : ∀ i inc, ∀ msg ∈ w.applyCh i inc, P msg
  sending : ∀ i, ∀ msg ∈ w.sending i, P msg

section Step

variable {w w' : Cluster n C} {a : AbsState n C} {act : Action n C} {P P' : ApplyMsg C → Prop}

theorem carries_init (P : ApplyMsg C → Prop) : Carries (init : Cluster n C) P where
  applyCh := by simp [init]
  sending := by simp [init]

theorem Carries.mono (h : Carries w P) (hP : ∀ msg, P msg → P' msg) : Carries w P' where
  applyCh := fun i inc msg hm => hP msg (h.applyCh i inc msg hm)
  sending := fun i msg hm => hP msg (h.sending i msg hm)

theorem Carries.of_eq (h : Carries w P) (hsending : w'.sending = w.sending)
    (hch : w'.applyCh = w.applyCh) : Carries w' P where
  applyCh := by
    rw [hch]
    exact h.applyCh
  sending := by
    rw [hsending]
    exact h.sending

theorem Carries.collect (h : Carries w P) {i : Fin n} {msgs : List (ApplyMsg C)}
    (hnew : ∀ msg ∈ msgs, P msg) : ∀ j, ∀ msg ∈ Function.update w.sending i msgs j, P msg :=
  (Function.forall_update_iff w.sending (p := fun _ ms => ∀ msg ∈ ms, P msg)).mpr
    ⟨hnew, fun j _ => h.sending j⟩

theorem Carries.delivered (h : Carries w P) {i : Fin n} {inc : Nat} {msgs : List (ApplyMsg C)}
    (hnew : ∀ msg ∈ msgs, P msg) :
    ∀ j inc', ∀ msg ∈ Function.update w.applyCh i
      (Function.update (w.applyCh i) inc (w.applyCh i inc ++ msgs)) j inc', P msg := by
  refine (Function.forall_update_iff w.applyCh
    (p := fun _ ch => ∀ inc, ∀ m ∈ ch inc, P m)).mpr ⟨?_, fun j _ => h.applyCh j⟩
  refine (Function.forall_update_iff (w.applyCh i)
    (p := fun _ ms => ∀ m ∈ ms, P m)).mpr ⟨fun m hm => ?_, fun inc _ => h.applyCh i inc⟩
  rcases List.mem_append.mp hm with hold | hlast
  · exact h.applyCh i _ m hold
  · exact hnew m hlast

/-- Only a round of `applyCommitted` brings messages that were not there. -/
theorem Carries.step (h : Carries w P) (hs : w.step act = some w')
    (hnew : ∀ {i rf msgs}, (w.peers i).applyCommitted = some (rf, msgs) → ∀ msg ∈ msgs, P msg) :
    Carries w' P := by
  cases applyTrans_of_step hs with
  | quiet hq => exact h.of_eq hq.sending hq.applyCh
  | snapshot i index data => exact h.of_eq rfl rfl
  | install k m dst args hk => exact h.of_eq rfl rfl
  | apply i rf msgs hsend happly => exact ⟨h.applyCh, h.collect (hnew happly)⟩
  | send i msg rest hsend =>
      have hmem : ∀ m ∈ msg :: rest, P m := hsend ▸ h.sending i
      refine ⟨h.delivered fun m hm => ?_, h.collect fun m hm => hmem m (List.mem_cons_of_mem _ hm)⟩
      rw [List.mem_singleton.mp hm]
      exact hmem msg List.mem_cons_self
  | crash i => exact ⟨h.delivered (h.sending i), h.collect (by simp)⟩

/-- What a round collects lies below the commit index. -/
theorem chosen_of_applyCommitted (href : Refines w a) (happ : Applied w) {i : Fin n}
    {rf : Peer n C} {msgs : List (ApplyMsg C)}
    (happly : (w.peers i).applyCommitted = some (rf, msgs)) : ∀ msg ∈ msgs, Chosen a msg := by
  intro msg hmsg
  obtain ⟨b, hc, -⟩ := (href.peers i).base
  rcases hc.applyCommitted (href.commitIndex_le i) (happ.peers i).covered happly with
    ⟨-, -, rfl⟩ | ⟨-, -, k, m, -, hm, rfl⟩
  · rw [List.mem_singleton.mp hmsg]
    intro hs
    cases hs
  · have hcommit := (href.peers i).commit
    obtain ⟨j, e, he, rfl⟩ := mem_commands hmsg
    have hlt := (List.getElem?_eq_some_iff.mp he).1
    rw [List.length_take] at hlt
    rw [List.getElem?_take_of_lt (by omega), List.getElem?_drop] at he
    intro _
    refine ⟨_, _, k + j, e, href.inv.commit_ok i, ?_, by push_cast; rfl, rfl⟩
    rw [List.getElem?_take_of_lt (by omega)]
    exact he

end Step

/-! ## Whole runs -/

/-- The cluster, the replicated log that it refines, and the apply channels. -/
structure Delivers (w : Cluster n C) (a : AbsState n C) : Prop where
  refines : Refines w a
  applied : Applied w
  agreed : w.Carries (Chosen a)

theorem delivers_init : Delivers (init : Cluster n C) (State.init 0) :=
  ⟨refines_init, applied_init, carries_init _⟩

theorem Delivers.step {w w' : Cluster n C} {a : AbsState n C} {act : Action n C}
    (h : Delivers w a) (hok : Ordered w act) (hs : w.step act = some w') :
    ∃ a', State.Steps (majority n) a a' ∧ Delivers w' a' := by
  obtain ⟨a', hsteps, href⟩ := h.refines.step (h.applied.safe h.refines hok) hs
  have hext := (h.refines.inv.steps hsteps).2
  have hagreed := h.agreed.step hs fun happly =>
    chosen_of_applyCommitted h.refines h.applied happly
  exact ⟨a', hsteps, href, h.applied.step h.refines hok hs,
    hagreed.mono fun _ hm => hm.mono hext⟩

theorem Delivers.path {w w' : Cluster n C} {a : AbsState n C} (h : Delivers w a)
    (hp : Run.Path Cluster.step Ordered w w') :
    ∃ a', State.Steps (majority n) a a' ∧ Delivers w' a' :=
  hp.simulates (fun _ _ _ _ hR hok hs => hR.step hok hs) h

/-- What every incarnation has delivered is in order: a command has the index after the
last one delivered, a snapshot an index above it, and no index comes twice. -/
theorem applyCh_inOrder {w : Cluster n C} (h : Run.Path step Ordered init w) (i : Fin n)
    (inc : Nat) : InOrder (w.loaded i inc) (w.applyCh i inc) ∧
      (w.applyCh i inc).Pairwise fun msg msg' => msg.index < msg'.index := by
  obtain ⟨a, -, ha⟩ := delivers_init.path h
  have horder := ha.applied.past i inc
  exact ⟨horder, horder.pairwise.2⟩

/-- Peer 1 is brought up to date by a snapshot and by entry 2 after it. -/
def snapshotInstalled : List (Action 3 Nat) :=
  snapshotAnnounced ++
    [.worker 0, .deliver 1, .receive 0, .worker 0, .apply 1, .send 1,
     .start 0 (some 8), .sendHeartbeat 0, .worker 4, .deliver 1, .receive 0, .worker 4,
     .tick 0 100 200, .sendHeartbeat 0, .worker 6, .deliver 1, .apply 1, .send 1]

set_option maxRecDepth 100000 in
theorem snapshotInstalled_inOrder : ∃ w : Cluster 3 Nat, Run.Path step Ordered init w ∧
    (w.applyCh 1 0).map ApplyMsg.index = [1, 2] ∧
    InOrder (w.loaded 1 0) (w.applyCh 1 0) ∧
    (w.applyCh 1 0).Pairwise fun msg msg' => msg.index < msg'.index :=
  ⟨_, Run.path_of_exec snapshotInstalled rfl, by decide,
    applyCh_inOrder (Run.path_of_exec snapshotInstalled rfl) 1 0⟩

/-- A snapshot of entry 1 is overtaken by the entries that it was sent for. -/
def snapshotOvertaken : List (Action 3 Nat) :=
  -- peer 0 leads and has entries 1 and 2 committed with peer 2; it sends them to peer 1
  [.tick 0 400 200, .deliver 1, .receive 0, .start 0 (some 7), .start 0 (some 8),
   .sendHeartbeat 0, .worker 1, .deliver 1, .receive 0, .worker 0,
   -- it compacts entry 1, and sends peer 1 the snapshot
   .apply 0, .send 0, .snapshot 0 1 [1], .sendHeartbeat 0, .worker 2, .worker 2, .worker 2,
   -- peer 1 delivers the entries, installs the snapshot and delivers it and entry 2
   .deliver 1, .apply 1, .send 1, .send 1, .deliver 1, .apply 1, .send 1, .apply 1, .send 1]

set_option maxRecDepth 100000 in
/-- No other condition is violated, and the channel of peer 1 goes back from 2 to 1. -/
theorem snapshotOvertaken_goes_back : ∃ w : Cluster 3 Nat,
    Run.Path step (fun w act => KeepsVote w act ∧ VotesOnce w act ∧ SkipsPlaceholder w act ∧
      Received w act) init w ∧
    (w.applyCh 1 0).map ApplyMsg.index = [1, 2, 1, 2] ∧
    ¬ InOrder (w.loaded 1 0) (w.applyCh 1 0) :=
  ⟨_, Run.path_of_exec snapshotOvertaken rfl, by decide, by decide⟩

end Cluster
end Raft
end Labs
