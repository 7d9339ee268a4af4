import Labs.KvRaft.Server
import Labs.Session
import Mathlib.Data.Int.Order.Basic

/-!
# What a log means

The state that a log of operations stands for, with the filter of duplicates: the server
computes it one entry at a time, and a snapshot is the state of a beginning of the log.
A server that applies an entry hands to the waiting handler the value that the state
before the entry has at its key.
-/

namespace Labs
namespace KvRaft

open Models

abbrev Same (x y : Op) : Prop := Session.Same Op.clientId Op.seq x y

/-- The effect of an operation that is executed. -/
def execute (kv : Str → Option Str) (op : Op) : Str → Option Str :=
  match op.opType with
  | .put => Function.update kv op.key (some op.value)
  | .append => Function.update kv op.key (some ((kv op.key).getD [] ++ op.value))
  | .get => kv

def replay (log : List Op) : (Str → Option Str) × (Int64 → Option Int) :=
  Session.filtered Op.clientId Op.seq execute (fun _ => none) log

/-- A map in which a missing key reads as the empty string. -/
def view (kv : Str → Option Str) : Str → Str := fun key => (kv key).getD []

def Op.input (op : Op) : KvInput where
  op := match op.opType with
    | .put => .put
    | .append => .append
    | .get => .get
  key := op.key
  value := op.value

theorem Op.input_op_get {op : Op} : op.input.op = .get ↔ op.opType = .get := by
  obtain ⟨opType, key, value, seq, clientId⟩ := op
  cases opType <;> simp [Op.input]

theorem Op.input_op_write {op : Op} (h : op.opType ≠ .get) :
    op.input.op = .put ∨ op.input.op = .append := by
  obtain ⟨opType, key, value, seq, clientId⟩ := op
  cases opType with
  | put => exact .inl rfl
  | append => exact .inr rfl
  | get => exact absurd rfl h

theorem view_execute (kv : Str → Option Str) (op : Op) :
    view (execute kv op) = kvMap.next (view kv) op.input := by
  funext key
  obtain ⟨opType, key', value, seq, clientId⟩ := op
  by_cases hkey : key = key'
  · cases opType <;> simp [view, execute, kvMap, KvModel.step, Op.input, hkey]
  · cases opType <;> simp [view, execute, kvMap, KvModel.step, Op.input, hkey]

theorem replay_concat (log : List Op) (op : Op) : replay (log ++ [op]) =
    Session.filterStep Op.clientId Op.seq execute (replay log) op :=
  Session.filtered_concat execute _ log op

theorem replay_take_succ {log : List Op} {p : Nat} {op : Op} (h : log[p]? = some op) :
    replay (log.take (p + 1)) =
      Session.filterStep Op.clientId Op.seq execute (replay (log.take p)) op := by
  rw [List.take_add_one, h]
  exact replay_concat _ _

/-- A read changes nothing. -/
theorem replay_concat_get {log : List Op} {op : Op} (h : op.opType = .get) :
    (replay (log ++ [op])).1 = (replay log).1 := by
  rw [replay_concat, Session.filterStep]
  split
  · rfl
  · simp [execute, h]

/-- A copy changes nothing. -/
theorem replay_concat_mem {log : List Op} {op : Op} (h : op ∈ log) :
    replay (log ++ [op]) = replay log := by
  rw [replay_concat]
  exact if_pos ((Session.marked_filtered _ _).mpr ⟨op, h, rfl, le_refl _⟩)

theorem replay_concat_new {log : List Op} {op : Op}
    (hord : Session.InOrder Op.clientId Op.seq (log ++ [op]))
    (h : ¬ Session.Occurs Op.clientId Op.seq log op) :
    (replay (log ++ [op])).1 = execute (replay log).1 op := by
  have hnew : ¬ Session.Marked Op.clientId Op.seq (replay log).2 op := fun hm =>
    h ((hord.marked_iff _ _).mp hm)
  rw [replay_concat, Session.filterStep, if_neg hnew]

/-! ## The server's state -/

/-- The state after some beginning of the log. -/
structure StateOf (log : List Op) (s : Snapshot) : Prop where
  le : s.lastApplied ≤ log.length
  store : (s.kv, s.requestCache) = replay (log.take s.lastApplied)

theorem StateOf.mono {log log' : List Op} {s : Snapshot} (h : StateOf log s)
    (hle : log <+: log') : StateOf log' s := by
  obtain ⟨rest, rfl⟩ := hle
  constructor
  · have := h.le
    rw [List.length_append]
    omega
  · rw [List.take_append_of_le_length h.le]
    exact h.store

namespace KVServer

theorem get_eq (srv : KVServer) (key : Str) : srv.get key = (srv.kv key).getD errNoKey := by
  rw [get]
  cases srv.kv key <;> rfl

theorem duplicate_iff {srv : KVServer} {op : Op} : srv.duplicate op.clientId op.seq = true ↔
    Session.Marked Op.clientId Op.seq srv.requestCache op := by
  rw [duplicate, Session.Marked]
  cases srv.requestCache op.clientId <;> simp

/-- What applying an entry of the log does. -/
structure Applies (srv srv' : KVServer) (op op' : Op) : Prop where
  store : (srv'.kv, srv'.requestCache) =
    Session.filterStep Op.clientId Op.seq execute (srv.kv, srv.requestCache) op
  notify : srv'.notify = srv.notify
  chans : srv'.chans = srv.chans
  same : Same op op'
  value : op.opType = .get → op'.value = (srv.kv op.key).getD errNoKey

theorem apply_applies (srv : KVServer) (op : Op)
    (hnew : ¬ Session.Marked Op.clientId Op.seq srv.requestCache op) :
    Applies srv (srv.apply op).1 op (srv.apply op).2 := by
  obtain ⟨opType, key, value, seq, clientId⟩ := op
  have hstep : ∀ f : (Str → Option Str) → Op → Str → Option Str,
      Session.filterStep Op.clientId Op.seq f (srv.kv, srv.requestCache)
        ⟨opType, key, value, seq, clientId⟩ =
      (f srv.kv ⟨opType, key, value, seq, clientId⟩,
        Function.update srv.requestCache clientId (some seq)) := fun f => if_neg hnew
  cases opType with
  | put => exact ⟨(hstep execute).symm, rfl, rfl, ⟨rfl, rfl⟩, fun h => by cases h⟩
  | append => exact ⟨(hstep execute).symm, rfl, rfl, ⟨rfl, rfl⟩, fun h => by cases h⟩
  | get => exact ⟨(hstep execute).symm, rfl, rfl, ⟨rfl, rfl⟩, fun _ => get_eq srv key⟩

theorem applyNew_applies (srv : KVServer) (op : Op) :
    Applies srv (srv.applyNew op).1 op (srv.applyNew op).2 := by
  rw [applyNew]
  by_cases hdup : srv.duplicate op.clientId op.seq = true
  · have hstep : Session.filterStep Op.clientId Op.seq execute (srv.kv, srv.requestCache) op =
        (srv.kv, srv.requestCache) := if_pos (duplicate_iff.mp hdup)
    rw [if_neg (by simp [hdup])]
    split
    · exact ⟨hstep.symm, rfl, rfl, ⟨rfl, rfl⟩, fun _ => get_eq srv op.key⟩
    · next hget => exact ⟨hstep.symm, rfl, rfl, ⟨rfl, rfl⟩, fun h => absurd h hget⟩
  · rw [if_pos (by simpa using hdup)]
    exact apply_applies srv op fun hm => hdup (duplicate_iff.mpr hm)

end KVServer

theorem StateOf.start (log : List Op) (maxraftstate : Int) {persisted : Option Snapshot}
    (h : ∀ s ∈ persisted, StateOf log s) :
    StateOf log (KVServer.startKVServer maxraftstate persisted).snapshot := by
  cases persisted with
  | none => exact ⟨Nat.zero_le _, rfl⟩
  | some s => exact ⟨(h s rfl).le, (h s rfl).store⟩

/-- A turn of the loop with the next command of the log. -/
theorem StateOf.command {log : List Op} {srv : KVServer} {op : Op}
    (h : StateOf log srv.snapshot) (hop : log[srv.lastApplied]? = some op) (size : Int) :
    StateOf log (srv.update size (.command op (srv.lastApplied + 1))).srv.snapshot ∧
    ∀ s ∈ (srv.update size (.command op (srv.lastApplied + 1))).snapshot, StateOf log s := by
  have happ := srv.applyNew_applies op
  have hnext : StateOf log
      { (srv.applyNew op).1 with lastApplied := srv.lastApplied + 1 }.snapshot := by
    constructor
    · exact (List.getElem?_eq_some_iff.mp hop).1
    · show ((srv.applyNew op).1.kv, (srv.applyNew op).1.requestCache) =
        replay (log.take (srv.lastApplied + 1))
      rw [happ.store, replay_take_succ hop]
      exact congrArg (Session.filterStep Op.clientId Op.seq execute · op) h.store
  refine ⟨hnext, fun s hs => ?_⟩
  simp only [KVServer.update, Option.mem_def] at hs
  split at hs
  · cases hs
    exact hnext
  · cases hs

/-- A turn of the loop with a snapshot of the log. -/
theorem StateOf.install {log : List Op} {srv : KVServer} {s : Snapshot}
    (h : StateOf log srv.snapshot) (hs : StateOf log s) (size : Int) :
    StateOf log (srv.update size (.snapshot (some s) s.lastApplied)).srv.snapshot := by
  simp only [KVServer.update]
  split
  · exact ⟨hs.le, hs.store⟩
  · exact h

/-! ## Values -/

/-- What is said of an entry and of the log below it stays true when the log grows. -/
theorem entry_mono {P : List Op → Op → Prop} {log log' : List Op}
    (h : ∃ p e, log[p]? = some e ∧ P (log.take p) e) (hle : log <+: log') :
    ∃ p e, log'[p]? = some e ∧ P (log'.take p) e := by
  obtain ⟨rest, rfl⟩ := hle
  obtain ⟨p, e, hp, hrest⟩ := h
  have hlt := (List.getElem?_eq_some_iff.mp hp).1
  refine ⟨p, e, ?_, ?_⟩
  · rw [List.getElem?_append_left hlt, hp]
  · rw [List.take_append_of_le_length (Nat.le_of_lt hlt)]
    exact hrest

/-- The operation carries the identity of an entry of the log, and if that is a read, the
value it has there.  A condition may be known of every state that is read. -/
def Outcome (clean : (Str → Option Str) → Str → Prop) (log : List Op) (op : Op) : Prop :=
  ∃ p e, log[p]? = some e ∧ Same e op ∧ (e.opType = .get →
    op.value = ((replay (log.take p)).1 e.key).getD errNoKey ∧
    clean (replay (log.take p)).1 e.key)

variable {clean : (Str → Option Str) → Str → Prop}

theorem Outcome.mono {log log' : List Op} {op : Op} (h : Outcome clean log op)
    (hle : log <+: log') : Outcome clean log' op :=
  entry_mono (P := fun pre e => Same e op ∧ (e.opType = .get →
    op.value = ((replay pre).1 e.key).getD errNoKey ∧ clean (replay pre).1 e.key)) h hle

/-- The value at the key is not the string that stands for a missing key. -/
def Unmarked (kv : Str → Option Str) (key : Str) : Prop := kv key ≠ some errNoKey

instance (kv : Str → Option Str) (key : Str) : Decidable (Unmarked kv key) :=
  inferInstanceAs (Decidable (kv key ≠ some errNoKey))

/-- The caller of a `Get` is given the value at the key, unless it is that string. -/
theorem Unmarked.shown_eq {kv : Str → Option Str} {key : Str} (h : Unmarked kv key) :
    Request.shown ((kv key).getD errNoKey) = view kv key := by
  rw [Request.shown, view]
  cases hkv : kv key with
  | none => exact if_pos rfl
  | some value => exact if_neg fun heq => h (by rw [hkv, ← heq]; rfl)

/-- What the loop sends to the waiting handler. -/
theorem StateOf.outcome {log : List Op} {srv : KVServer} {op : Op}
    (h : StateOf log srv.snapshot) (hop : log[srv.lastApplied]? = some op)
    (hclean : op.opType = .get → clean srv.kv op.key) :
    Outcome clean (log.take (srv.lastApplied + 1)) (srv.applyNew op).2 := by
  have happ := srv.applyNew_applies op
  have hkv : srv.kv = (replay (log.take srv.lastApplied)).1 := congrArg Prod.fst h.store
  have htake : (log.take (srv.lastApplied + 1)).take srv.lastApplied =
      log.take srv.lastApplied := by
    rw [List.take_take, Nat.min_eq_left (Nat.le_succ _)]
  refine ⟨srv.lastApplied, op, ?_, happ.same, fun hget => ?_⟩
  · rw [List.getElem?_take_of_lt (Nat.lt_succ_self _), hop]
  · rw [htake, ← hkv]
    exact ⟨happ.value hget, hclean hget⟩

end KvRaft
end Labs
