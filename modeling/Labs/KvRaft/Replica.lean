import Labs.KvRaft.System
import Mathlib.Data.List.Infix

/-!
# The servers replicate the log

Every server holds the state of a beginning of the log, and so does every snapshot.  What
waits in a channel, or is about to be sent on one, is an entry that the server has applied
with the value a read has there.  So every reply that a clerk accepts is about an entry of
the log with the clerk's own identity, whichever handlers shared a channel.
-/

namespace Labs
namespace KvRaft

open Models History

variable {clean : (Str → Option Str) → Str → Prop} {log log' : List Op} {srv : KVServer}
  {sending : Option (Nat × Op)}

/-! ## One server -/

structure Replica (clean : (Str → Option Str) → Str → Prop) (log : List Op) (srv : KVServer)
    (sending : Option (Nat × Op)) : Prop where
  state : StateOf log srv.snapshot
  chans : ∀ op, some op ∈ srv.chans → Outcome clean (log.take srv.lastApplied) op
  sending : ∀ s ∈ sending, Outcome clean (log.take srv.lastApplied) s.2

namespace Replica

theorem mono (h : Replica clean log srv sending) (hle : log <+: log') :
    Replica clean log' srv sending := by
  have hle' : log.take srv.lastApplied <+: log'.take srv.lastApplied := hle.take _
  exact ⟨h.state.mono hle, fun op hop => (h.chans op hop).mono hle',
    fun s hs => (h.sending s hs).mono hle'⟩

theorem start (maxraftstate : Int) (persisted : Option Snapshot)
    (hs : ∀ s ∈ persisted, StateOf log s) :
    Replica clean log (.startKVServer maxraftstate persisted) none := by
  refine ⟨.start log maxraftstate hs, fun op hop => ?_, fun s hs => by cases hs⟩
  cases persisted <;> cases hop

theorem getNotifyCh (h : Replica clean log srv sending) (index : Nat) :
    Replica clean log (srv.getNotifyCh index).1 sending := by
  rw [KVServer.getNotifyCh]
  split
  · exact h
  · refine ⟨⟨h.state.le, h.state.store⟩, fun op hop => ?_, h.sending⟩
    rcases List.mem_append.mp hop with hold | hnew
    · exact h.chans op hold
    · cases List.mem_singleton.mp hnew

theorem forget (h : Replica clean log srv sending) (index : Nat) :
    Replica clean log (srv.forget index) sending :=
  ⟨⟨h.state.le, h.state.store⟩, h.chans, h.sending⟩

theorem command (h : Replica clean log srv none) {op : Op}
    (hop : log[srv.lastApplied]? = some op) (hclean : op.opType = .get → clean srv.kv op.key)
    (size : Int) :
    Replica clean log (srv.update size (.command op (srv.lastApplied + 1))).srv
      (srv.update size (.command op (srv.lastApplied + 1))).notify := by
  have hle : log.take srv.lastApplied <+: log.take (srv.lastApplied + 1) :=
    List.take_prefix_take_left (Nat.le_succ _)
  refine ⟨(h.state.command hop size).1, fun op' hop' => ?_, fun s hs => ?_⟩
  · have hold : some op' ∈ srv.chans := (srv.applyNew_applies op).chans ▸ hop'
    exact (h.chans op' hold).mono hle
  · obtain ⟨ch, -, rfl⟩ := Option.map_eq_some_iff.mp hs
    exact h.state.outcome hop hclean

theorem install (h : Replica clean log srv none) {s : Snapshot} (hs : StateOf log s)
    (size : Int) :
    Replica clean log (srv.update size (.snapshot (some s) s.lastApplied)).srv
      (srv.update size (.snapshot (some s) s.lastApplied)).notify := by
  have hstate := h.state.install hs size
  rw [KVServer.update] at hstate ⊢
  split at hstate
  · next hlt =>
      rw [if_pos hlt]
      have hle : log.take srv.lastApplied <+: log.take s.lastApplied :=
        List.take_prefix_take_left (Nat.le_of_lt hlt)
      exact ⟨hstate, fun op hop => (h.chans op hop).mono hle, fun s hs => by cases hs⟩
  · next hge =>
      rw [if_neg hge]
      exact h

theorem send {ch : Nat} {op : Op} (h : Replica clean log srv (some (ch, op))) :
    Replica clean log (srv.send ch op) none := by
  refine ⟨⟨h.state.le, h.state.store⟩, fun op' hop' => ?_, fun s hs => by cases hs⟩
  obtain ⟨k, hk⟩ := List.getElem?_of_mem hop'
  rw [KVServer.send, List.getElem?_modify] at hk
  obtain ⟨buffer, hbuffer, heq⟩ := Option.map_eq_some_iff.mp hk
  have hmem : buffer ∈ srv.chans := List.mem_of_getElem? hbuffer
  split at heq
  · cases buffer with
    | none =>
        cases heq
        exact h.sending _ rfl
    | some old =>
        cases heq
        exact h.chans _ hmem
  · cases heq
    exact h.chans _ hmem

/-- What a handler takes from its channel is an entry that the server has applied. -/
theorem receive (h : Replica clean log srv sending) {ch : Nat} {applied : Op} {srv' : KVServer}
    (hr : srv.receive ch = some (applied, srv')) :
    Replica clean log srv' sending ∧ Outcome clean (log.take srv.lastApplied) applied := by
  rw [KVServer.receive] at hr
  split at hr
  · next op hop =>
      cases hr
      refine ⟨⟨⟨h.state.le, h.state.store⟩, fun op' hop' => ?_, h.sending⟩,
        h.chans _ (List.mem_of_getElem? hop)⟩
      rcases List.mem_or_eq_of_mem_set hop' with hold | hnew
      · exact h.chans op' hold
      · cases hnew
  · cases hr

end Replica

/-! ## All servers -/

/-- The result belongs to an entry of the log with the command's identity. -/
def Answer (clean : (Str → Option Str) → Str → Prop) (log : List Op) (cmd : Op) (out : Str) :
    Prop :=
  ∃ p e, log[p]? = some e ∧ Same e cmd ∧ (cmd.opType = .get → e.opType = .get →
    out = Request.shown (((replay (log.take p)).1 e.key).getD errNoKey) ∧
    clean (replay (log.take p)).1 e.key)

theorem Answer.mono {cmd : Op} {out : Str} (h : Answer clean log cmd out)
    (hle : log <+: log') : Answer clean log' cmd out :=
  entry_mono (P := fun pre e => Same e cmd ∧ (cmd.opType = .get → e.opType = .get →
    out = Request.shown (((replay pre).1 e.key).getD errNoKey) ∧ clean (replay pre).1 e.key))
    h hle

/-- A handler that wakes up answers what it was given. -/
theorem Outcome.answer {applied : Op} {request : Request} {out : Str}
    (h : Outcome clean log applied) (hout : request.result (request.reply applied) = some out) :
    Answer clean log request.cmd out := by
  obtain ⟨p, e, hp, hsame, hread⟩ := h
  obtain ⟨hclient, hseq⟩ := Request.reply_own (Request.result_ne hout)
  refine ⟨p, e, hp, ⟨hsame.1.trans hclient, hsame.2.trans hseq⟩, fun hget hget' => ?_⟩
  obtain ⟨hvalue, hclean⟩ := hread hget'
  rw [Request.result_reply_get hout hget, hvalue]
  exact ⟨rfl, hclean⟩

namespace System

variable {n m : Nat} {w w' : System n m}

structure Replicated (clean : (Str → Option Str) → Str → Prop) (w : System n m) : Prop where
  servers : ∀ i, Replica clean w.log (w.servers i) (w.sending i)
  snapshots : ∀ s ∈ w.snapshots, StateOf w.log s
  replies : ∀ r ∈ w.replies, ∀ out, r.rpc.request.result r.reply = some out →
    Answer clean w.log r.rpc.request.cmd out

theorem replicated_init (maxraftstate : Int) (id : Fin m → Int64) :
    Replicated clean (init maxraftstate id : System n m) where
  servers := fun _ => .start maxraftstate none fun _ hs => by cases hs
  snapshots := fun _ hs => by cases hs
  replies := fun _ hr => by cases hr

namespace Replicated

/-- One server takes a step. -/
theorem server (h : Replicated clean w) {i : Fin (n + 1)} {srv : KVServer}
    {sending : Option (Nat × Op)} (hs : Replica clean w.log srv sending) (j : Fin (n + 1)) :
    Replica clean w.log (Function.update w.servers i srv j)
      (Function.update w.sending i sending j) := by
  by_cases hj : j = i
  · subst hj
    rw [Function.update_self, Function.update_self]
    exact hs
  · rw [Function.update_of_ne hj, Function.update_of_ne hj]
    exact h.servers j

/-- One server takes a step that is not of its loop. -/
theorem handler (h : Replicated clean w) {i : Fin (n + 1)} {srv : KVServer}
    (hs : Replica clean w.log srv (w.sending i)) (j : Fin (n + 1)) :
    Replica clean w.log (Function.update w.servers i srv j) (w.sending j) := by
  have := h.server (i := i) hs j
  rwa [Function.update_eq_self] at this

/-- A reply is added. -/
theorem respond (h : Replicated clean w) {r : Response n m}
    (hr : ∀ out, r.rpc.request.result r.reply = some out →
      Answer clean w.log r.rpc.request.cmd out) :
    ∀ r' ∈ w.replies ++ [r], ∀ out, r'.rpc.request.result r'.reply = some out →
      Answer clean w.log r'.rpc.request.cmd out := by
  intro r' hr'
  rcases List.mem_append.mp hr' with hold | hnew
  · exact h.replies r' hold
  · cases List.mem_singleton.mp hnew
    exact hr

/-- The reply of a server that does not lead, or of a handler that gave up. -/
theorem respond_wrongLeader (h : Replicated clean w) (rpc : Rpc n m) :
    ∀ r ∈ w.replies ++ [{ rpc := rpc, reply := { err := .errWrongLeader, value := [] } }],
      ∀ out, r.rpc.request.result r.reply = some out →
        Answer clean w.log r.rpc.request.cmd out :=
  h.respond fun _ hout => absurd rfl (Request.result_ne hout)

theorem deliver (h : Replicated clean w) {k : Nat} {start : Option Nat}
    (hs : w.deliver k start = some w') : Replicated clean w' := by
  unfold System.deliver at hs
  split at hs
  · cases hs
  · cases hs
    exact ⟨h.servers, h.snapshots, h.respond_wrongLeader _⟩
  · cases hs
    exact ⟨h.handler ((h.servers _).getNotifyCh _), h.snapshots, h.replies⟩

theorem commit (h : Replicated clean w) {k : Nat} (hs : w.commit k = some w') :
    Replicated clean w' := by
  rw [System.commit] at hs
  split at hs
  · cases hs
  · next index op hop =>
      split at hs
      · cases hs
        have hle : w.log <+: w.log ++ [op] := List.prefix_append _ _
        exact ⟨fun i => (h.servers i).mono hle, fun s hs => (h.snapshots s hs).mono hle,
          fun r hr out hout => (h.replies r hr out hout).mono hle⟩
      · cases hs

/-- A turn of the loop with a message that keeps the server a replica. -/
theorem turn (h : Replicated clean w) {i : Fin (n + 1)} {size : Int} {msg : ApplyMsg}
    (hmsg : Replica clean w.log (w.servers i) none →
      Replica clean w.log ((w.servers i).update size msg).srv
        ((w.servers i).update size msg).notify ∧
      ∀ s ∈ ((w.servers i).update size msg).snapshot, StateOf w.log s)
    (hs : w.turn i size msg = some w') : Replicated clean w' := by
  rw [System.turn] at hs
  split at hs
  · cases hs
  · next hidle =>
      cases hs
      obtain ⟨hsrv, hsnap⟩ := hmsg (hidle ▸ h.servers i)
      refine ⟨h.server hsrv, fun s hs => ?_, h.replies⟩
      rcases List.mem_append.mp hs with hold | hnew
      · exact h.snapshots s hold
      · exact hsnap s (Option.mem_toList.mp hnew)

theorem apply (h : Replicated clean w) {i : Fin (n + 1)} {size : Int}
    (hok : Reads clean w (.apply i size)) (hs : w.apply i size = some w') :
    Replicated clean w' := by
  rw [System.apply] at hs
  split at hs
  · cases hs
  · next op hop =>
      exact h.turn (fun hsrv => ⟨hsrv.command hop (hok op hop) size,
        (hsrv.state.command hop size).2⟩) hs

theorem install (h : Replicated clean w) {i : Fin (n + 1)} {k : Nat}
    (hs : w.install i k = some w') : Replicated clean w' := by
  rw [System.install] at hs
  split at hs
  · cases hs
  · next s hk =>
      refine h.turn (fun hsrv =>
        ⟨hsrv.install (h.snapshots s (List.mem_of_getElem? hk)) 0, fun s' hs' => ?_⟩) hs
      rw [KVServer.update] at hs'
      split at hs' <;> cases hs'

theorem notify (h : Replicated clean w) {i : Fin (n + 1)} (hs : w.notify i = some w') :
    Replicated clean w' := by
  rw [System.notify] at hs
  split at hs
  · cases hs
  · next ch op hsend =>
      cases hs
      have hsrv := h.servers i
      rw [hsend] at hsrv
      exact ⟨h.server hsrv.send, h.snapshots, h.replies⟩

theorem wake (h : Replicated clean w) {k : Nat} (hs : w.wake k = some w') :
    Replicated clean w' := by
  rw [System.wake] at hs
  split at hs
  · cases hs
  · next hd hk =>
      split at hs
      · cases hs
      · next applied srv hr =>
          cases hs
          obtain ⟨hsrv, hout⟩ := (h.servers hd.rpc.server).receive hr
          exact ⟨h.handler hsrv, h.snapshots, h.respond fun out hres =>
            (hout.mono (List.take_prefix _ _)).answer hres⟩

theorem timeout (h : Replicated clean w) {k : Nat} (hs : w.timeout k = some w') :
    Replicated clean w' := by
  rw [System.timeout] at hs
  split at hs
  · cases hs
  · cases hs
    exact ⟨h.handler ((h.servers _).forget _), h.snapshots, h.respond_wrongLeader _⟩

theorem restart (h : Replicated clean w) (i : Fin (n + 1)) (persisted : Option Nat) :
    Replicated clean (w.restart i persisted) := by
  refine ⟨h.server (.start _ _ fun s hs => ?_), h.snapshots, h.replies⟩
  obtain ⟨k, -, hk⟩ := Option.bind_eq_some_iff.mp hs
  exact h.snapshots s (List.mem_of_getElem? hk)

end Replicated
end System
end KvRaft
end Labs
