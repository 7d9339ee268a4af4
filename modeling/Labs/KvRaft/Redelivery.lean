import Labs.KvRaft.Log

/-!
# Entries delivered again

Raft may hand the server a part of the log a second time, after a snapshot that is behind
what the server has applied.  The loop applies a command whatever its index is, and moves
`lastApplied` back with it.  What protects the state is the filter of duplicates: it has
marked every operation of the log that was applied, so none of them passes again.
-/

namespace Labs
namespace KvRaft

/-- A copy of a part of the log changes nothing. -/
theorem replay_append_subset {log ops : List Op} (h : ops ⊆ log) :
    replay (log ++ ops) = replay log := by
  induction ops using List.reverseRecOn with
  | nil => rw [List.append_nil]
  | append_singleton ops op ih =>
      have hop : op ∈ log ++ ops := List.mem_append_left _ (h (by simp))
      rw [← List.append_assoc, replay_concat_mem hop]
      exact ih fun x hx => h (List.mem_append_left _ hx)

/-- The messages for consecutive entries of the log. -/
def commands (index : Nat) : List Op → List ApplyMsg
  | [] => []
  | op :: ops => .command op index :: commands (index + 1) ops

/-- A snapshot message that is not ahead of an index. -/
def ApplyMsg.Behind (n : Nat) : ApplyMsg → Prop
  | .snapshot _ index => index ≤ n
  | .command .. => False

instance (n : Nat) : DecidablePred (ApplyMsg.Behind n)
  | .snapshot _ index => inferInstanceAs (Decidable (index ≤ n))
  | .command .. => inferInstanceAs (Decidable False)

/-- The entries of the log from some index up to `n`, after late snapshots. -/
def Redelivers (log : List Op) (n : Nat) (msgs : List ApplyMsg) : Prop :=
  ∃ snapshots k, (∀ msg ∈ snapshots, ApplyMsg.Behind n msg) ∧ 1 ≤ k ∧ k ≤ n ∧
    msgs = snapshots ++ commands k ((log.take n).drop (k - 1))

namespace KVServer

/-- The loop over what arrives on the channel, with the size of the Raft state at each
message. -/
def process (srv : KVServer) (msgs : List (Int × ApplyMsg)) : KVServer :=
  msgs.foldl (fun srv msg => (srv.update msg.1 msg.2).srv) srv

theorem process_append (srv : KVServer) (msgs msgs' : List (Int × ApplyMsg)) :
    srv.process (msgs ++ msgs') = (srv.process msgs).process msgs' :=
  List.foldl_append

/-- The state of the first `n` entries of the log. -/
structure Holds (log : List Op) (n : Nat) (srv : KVServer) : Prop where
  store : (srv.kv, srv.requestCache) = replay (log.take n)
  lastApplied : srv.lastApplied = n

theorem store_update_command {srv : KVServer} {pre : List Op}
    (h : (srv.kv, srv.requestCache) = replay pre) (size : Int) (op : Op) (index : Nat) :
    ((srv.update size (.command op index)).srv.kv,
      (srv.update size (.command op index)).srv.requestCache) = replay (pre ++ [op]) := by
  rw [replay_concat, ← h]
  exact (srv.applyNew_applies op).store

theorem store_process_commands {ops : List Op} {msgs : List (Int × ApplyMsg)} {srv : KVServer}
    {pre : List Op} {index : Nat} (h : (srv.kv, srv.requestCache) = replay pre)
    (hmsgs : msgs.map Prod.snd = commands index ops) :
    ((srv.process msgs).kv, (srv.process msgs).requestCache) = replay (pre ++ ops) := by
  induction ops generalizing msgs srv pre index with
  | nil =>
      rw [commands, List.map_eq_nil_iff] at hmsgs
      rw [hmsgs, List.append_nil]
      exact h
  | cons op ops ih =>
      obtain ⟨⟨size, msg⟩, rest, rfl, rfl, hrest⟩ := List.map_eq_cons_iff.mp hmsgs
      have hops := ih (store_update_command h size op index) hrest
      rw [List.append_cons]
      exact hops

theorem lastApplied_process_commands {ops : List Op} {msgs : List (Int × ApplyMsg)}
    {srv : KVServer} {index : Nat} (h : srv.lastApplied + 1 = index ∨ ops ≠ [])
    (hmsgs : msgs.map Prod.snd = commands index ops) :
    (srv.process msgs).lastApplied + 1 = index + ops.length := by
  induction ops generalizing msgs srv index with
  | nil =>
      rw [commands, List.map_eq_nil_iff] at hmsgs
      rw [hmsgs]
      exact h.resolve_right (by simp)
  | cons op ops ih =>
      obtain ⟨⟨size, msg⟩, rest, rfl, rfl, hrest⟩ := List.map_eq_cons_iff.mp hmsgs
      have hnext : (srv.update size (.command op index)).srv.lastApplied + 1 = index + 1 := rfl
      have hlen := ih (.inl hnext) hrest
      rw [List.length_cons]
      exact hlen.trans (by omega)

/-- A snapshot that is not ahead of the server is ignored. -/
theorem process_behind {srv : KVServer} {msgs : List (Int × ApplyMsg)}
    (h : ∀ msg ∈ msgs.map Prod.snd, ApplyMsg.Behind srv.lastApplied msg) :
    srv.process msgs = srv := by
  induction msgs with
  | nil => rfl
  | cons msg rest ih =>
      obtain ⟨size, msg⟩ := msg
      have hmsg : ApplyMsg.Behind srv.lastApplied msg := h msg (by simp)
      have hskip : (srv.update size msg).srv = srv := by
        cases msg with
        | command op index => exact hmsg.elim
        | snapshot data index =>
            rw [update, if_neg (Nat.not_lt.mpr hmsg)]
      show (srv.update size msg).srv.process rest = srv
      rw [hskip]
      exact ih fun m hm => h m (List.mem_cons_of_mem _ hm)

/-- A new server that is given the log. -/
theorem holds_process {log : List Op} {n : Nat} {msgs : List (Int × ApplyMsg)}
    (maxraftstate : Int) (hn : n ≤ log.length)
    (hmsgs : msgs.map Prod.snd = commands 1 (log.take n)) :
    Holds log n ((startKVServer maxraftstate none).process msgs) where
  store := by
    have hempty : ((startKVServer maxraftstate none).kv,
        (startKVServer maxraftstate none).requestCache) = replay [] := rfl
    exact store_process_commands hempty hmsgs
  lastApplied := by
    have hnext : (startKVServer maxraftstate none).lastApplied + 1 = 1 := rfl
    have hlen := lastApplied_process_commands (.inl hnext) hmsgs
    rw [List.length_take, Nat.min_eq_left hn] at hlen
    omega

/-- One redelivery.  While it is under way `lastApplied` is behind the state. -/
theorem Holds.redelivers {log : List Op} {n : Nat} {srv : KVServer}
    {msgs : List (Int × ApplyMsg)} (h : Holds log n srv) (hn : n ≤ log.length)
    (hmsgs : Redelivers log n (msgs.map Prod.snd)) : Holds log n (srv.process msgs) := by
  obtain ⟨snapshots, k, hbehind, hk, hkn, heq⟩ := hmsgs
  obtain ⟨late, again, rfl, hlate, hagain⟩ := List.map_eq_append_iff.mp heq
  have hskip : srv.process late = srv := by
    refine process_behind fun msg hmsg => ?_
    rw [h.lastApplied]
    exact hbehind msg (hlate ▸ hmsg)
  have hlen : ((log.take n).drop (k - 1)).length = n - (k - 1) := by
    rw [List.length_drop, List.length_take, Nat.min_eq_left hn]
  rw [process_append, hskip]
  constructor
  · rw [store_process_commands h.store hagain]
    exact replay_append_subset (List.drop_subset _ _)
  · have hne : (log.take n).drop (k - 1) ≠ [] := by
      rw [ne_eq, ← List.length_eq_zero_iff, hlen]
      omega
    have hlast : (srv.process again).lastApplied + 1 = _ :=
      lastApplied_process_commands (.inr hne) hagain
    rw [hlen] at hlast
    omega

theorem Holds.rounds {log : List Op} {n : Nat} {srv : KVServer}
    {rounds : List (List (Int × ApplyMsg))} (h : Holds log n srv) (hn : n ≤ log.length)
    (hrounds : ∀ round ∈ rounds, Redelivers log n (round.map Prod.snd)) :
    Holds log n (srv.process rounds.flatten) := by
  induction rounds generalizing srv with
  | nil => exact h
  | cons round rounds ih =>
      rw [List.flatten_cons, process_append]
      exact ih (h.redelivers hn (hrounds round (by simp)))
        fun r hr => hrounds r (List.mem_cons_of_mem _ hr)

/-- Redelivery leaves the state of the server as it was. -/
theorem process_redelivered (log : List Op) (n : Nat) (maxraftstate : Int)
    {first : List (Int × ApplyMsg)} {rounds : List (List (Int × ApplyMsg))}
    (hn : n ≤ log.length) (hfirst : first.map Prod.snd = commands 1 (log.take n))
    (hrounds : ∀ round ∈ rounds, Redelivers log n (round.map Prod.snd)) :
    let srv := (startKVServer maxraftstate none).process first
    let srv' := srv.process rounds.flatten
    srv'.kv = srv.kv ∧ srv'.requestCache = srv.requestCache ∧ srv'.lastApplied = n := by
  intro srv srv'
  have hbefore : Holds log n srv := holds_process maxraftstate hn hfirst
  have hafter : Holds log n srv' := hbefore.rounds hn hrounds
  have hstore := hafter.store.trans hbefore.store.symm
  exact ⟨congrArg Prod.fst hstore, congrArg Prod.snd hstore, hafter.lastApplied⟩

/-- Two appends, both delivered again after a snapshot of the first, then the second. -/
theorem process_redelivered_twice :
    let log : List Op := [⟨.append, [107], [120], 1, 7⟩, ⟨.append, [107], [121], 2, 7⟩]
    let srv := (startKVServer (-1) none).process ((commands 1 log).map fun msg => (0, msg))
    let late : ApplyMsg := .snapshot none 1
    let rounds := [(late :: commands 1 log).map fun msg => ((0 : Int), msg),
      (commands 2 (log.drop 1)).map fun msg => (0, msg)]
    srv.kv [107] = some [120, 121] ∧ (srv.process rounds.flatten).kv = srv.kv := by
  intro log srv late rounds
  refine ⟨rfl, (process_redelivered log 2 (-1) (Nat.le_refl 2) rfl ?_).1⟩
  intro round hround
  simp only [rounds, List.mem_cons, List.not_mem_nil, or_false] at hround
  rcases hround with rfl | rfl
  · exact ⟨[late], 1, by simp [late, ApplyMsg.Behind], Nat.le_refl 1, by omega, rfl⟩
  · exact ⟨[], 2, by simp, by omega, Nat.le_refl 2, rfl⟩

end KVServer
end KvRaft
end Labs
