import Labs.KvRaft.Refine

/-!
# Effects and results of the replicated service

Every operation that is answered has had its effect once, in the order in which its clerk
issued it, on every server that answers.  The results are those of a map of strings,
unless a `Get` is applied where the stored value is the string `ErrNoKey`: its caller is
then told that the key is missing.
-/

namespace Labs
namespace KvRaft
namespace System

open Models History

variable {n m : Nat} {id : Fin m → Int64} {w : System n m} {maxraftstate : Int}

theorem reads_true (w : System n m) (act : Action n m) :
    Reads (fun _ _ => True) w act := by
  cases act with
  | apply i size => exact fun _ _ _ => trivial
  | _ => trivial

/-- The map of every server is what the first copies among the entries it has applied give,
one after the other.  A handler that answers finds its command there, once, and the first
copies of a clerk's commands have rising numbers. -/
theorem effects_once (hinj : Function.Injective id)
    (hp : Run.Path step Run.always (init maxraftstate id) w) :
    (∀ i, (w.servers i).kv =
      (Session.firsts Op.clientId Op.seq (w.log.take (w.servers i).lastApplied)).foldl execute
        fun _ => none) ∧
    (∀ h ∈ w.waiting, ∀ applied srv,
      (w.servers h.rpc.server).receive h.ch = some (applied, srv) →
      (h.rpc.request.reply applied).err = .ok →
      h.rpc.request.cmd ∈ w.log.take (w.servers h.rpc.server).lastApplied ∧
      (Session.firsts Op.clientId Op.seq
        (w.log.take (w.servers h.rpc.server).lastApplied)).filter
          (fun op => Same op h.rpc.request.cmd) = [h.rpc.request.cmd]) ∧
    (Session.firsts Op.clientId Op.seq w.log).Pairwise
      fun x y => x.clientId = y.clientId → x.seq < y.seq := by
  obtain ⟨hinv, -⟩ := refines hinj (hp.mono fun w act _ => reads_true w act)
  have hord := hinv.wf.inOrder
  refine ⟨fun i => ?_, fun h hh applied srv hr herr => ?_, hord.firsts_rising⟩
  · have hstore := (hinv.replicated.servers i).state.store
    have hkv : (w.servers i).kv = (replay (w.log.take (w.servers i).lastApplied)).1 :=
      congrArg Prod.fst hstore
    rw [hkv]
    exact (hord.of_isPrefix (List.take_prefix _ _)).filtered_eq execute _
  · obtain ⟨-, p, e, hpe, hsame, -⟩ := (hinv.replicated.servers h.rpc.server).receive hr
    have hok : (h.rpc.request.reply applied).err ≠ .errWrongLeader := by
      rw [herr]
      decide
    obtain ⟨hclient, hseq⟩ := Request.reply_own hok
    have hown : Same e h.rpc.request.cmd := ⟨hsame.1.trans hclient, hsame.2.trans hseq⟩
    have hissued := (hinv.inFlight.sent h.rpc (w.rpcs_self.2.1 h hh)).issued
    have heq : ∀ e' ∈ w.log.take (w.servers h.rpc.server).lastApplied,
        Same e' h.rpc.request.cmd → e' = h.rpc.request.cmd :=
      fun e' he' => hissued.unique e' (List.mem_of_mem_take he')
    have hmem := List.mem_of_getElem? hpe
    obtain ⟨y, hy, hysame, hfilter⟩ := Session.filter_firsts ⟨e, hmem, hown⟩
    rw [heq y hy hysame] at hfilter
    exact ⟨heq e hmem hown ▸ hmem, hfilter⟩

def ids : Fin 2 → Int64 := fun i => Int64.ofNat i

theorem ids_injective : Function.Injective ids := by
  show ∀ i j, ids i = ids j → i = j
  decide

/-- An `Append` is started by both servers and is twice in the log. -/
def startedTwice : List (Action 1 2) :=
  [.invoke 0 .append [120] [97], .deliver 0 (some 1), .retry 0, .deliver 0 (some 2), .commit 0,
   .commit 1, .apply 0 0, .notify 0, .apply 0 0]

theorem startedTwice_once : ∃ w : System 1 2, Run.Path step Run.always (init (-1) ids) w ∧
    (w.log.length, (w.servers 0).lastApplied, (w.servers 0).kv [120]) = (2, 2, some [97]) ∧
    (w.servers 0).kv =
      (Session.firsts Op.clientId Op.seq (w.log.take (w.servers 0).lastApplied)).foldl execute
        fun _ => none := by
  have hrun : (Run.exec step Run.always (init (-1) ids : System 1 2) startedTwice).map
      (fun w => (w.log.length, (w.servers 0).lastApplied, (w.servers 0).kv [120])) =
      some (2, 2, some [97]) := by
    decide +kernel
  obtain ⟨w, hp, hw⟩ := Run.path_of_exec_map startedTwice _ hrun
  exact ⟨w, hp, hw, (effects_once ids_injective hp).1 0⟩

/-- The calls are linearizable as long as no `Get` is applied to the marker. -/
theorem calls_linearizable (hinj : Function.Injective id)
    (hp : Run.Path step (Reads Unmarked) (init maxraftstate id) w) :
    Linearizable kvMap w.ops := by
  obtain ⟨-, hrun⟩ := refines hinj hp
  obtain ⟨sched, tick, hexp⟩ := Sessions.explained_run hinj hrun
  exact hexp.recorded.linearizable

/-- Server 1 answers a `Put` that both started, and makes snapshots.  Server 0 restarts from
one of them and answers a `Get`. -/
def leaderChanges : List (Action 1 2) :=
  [.invoke 0 .put [120] [97], .deliver 0 (some 1), .retry 0, .deliver 0 (some 2), .commit 0,
   .commit 1, .apply 1 100, .apply 1 100, .notify 1, .wake 1, .receive 0, .invoke 1 .get [120] [],
   .install 0 0, .timeout 0, .restart 0 (some 1), .deliver 0 (some 3), .commit 2, .apply 0 0,
   .notify 0, .wake 0, .receive 1]

theorem leaderChanges_linearizable : ∃ w : System 1 2,
    Run.Path step (Reads Unmarked) (init 50 ids) w ∧
    w.ops.map (fun a => a.result.map fun r => r.1.value) = [some [], some [97]] ∧
    Linearizable kvMap w.ops := by
  have hrun : (Run.exec step (Reads Unmarked) (init 50 ids : System 1 2) leaderChanges).map
      (fun w => w.ops.map fun a => a.result.map fun r => r.1.value) =
      some [some [], some [97]] := by
    decide +kernel
  obtain ⟨w, hp, hw⟩ := Run.path_of_exec_map leaderChanges _ hrun
  exact ⟨w, hp, hw, calls_linearizable ids_injective hp⟩

/-- A clerk of three servers stores the string `ErrNoKey` at their leader and then reads it,
without any failure.  One of the followers applies both entries too. -/
def storesMarker : List (Action 2 2) :=
  [.invoke 0 .put [120] errNoKey, .deliver 0 (some 1), .commit 0, .apply 0 0, .notify 0, .wake 0,
   .receive 0, .apply 1 0, .invoke 0 .get [120] [], .deliver 0 (some 2), .commit 1, .apply 0 0,
   .notify 0, .wake 0, .receive 0, .apply 1 0]

/-- The history of that run. -/
def markerHistory : List (Operation KvInput KvOutput) :=
  [{ input := { op := .put, key := [120], value := errNoKey }, call := 0,
     result := some ({ value := [] }, 6) },
   { input := { op := .get, key := [120], value := [] }, call := 8,
     result := some ({ value := [] }, 14) }]

/-- The `Get` comes after the `Put` and returns the empty string. -/
theorem storesMarker_not_linearizable : ∃ w : System 2 2,
    Run.Path step Run.always (init (-1) ids) w ∧ w.ops = markerHistory ∧
    ¬ Linearizable kvMap w.ops := by
  have hrun : (Run.exec step Run.always (init (-1) ids : System 2 2) storesMarker).map
      (fun w => w.ops) = some markerHistory := by
    decide +kernel
  obtain ⟨w, hp, hw⟩ := Run.path_of_exec_map storesMarker _ hrun
  refine ⟨w, hp, hw, ?_⟩
  rw [hw]
  rintro ⟨order, h⟩
  have hput : 0 ∈ order := h.completed 0 _ rfl (by decide)
  have hget : 1 ∈ order := h.completed 1 _ rfl (by decide)
  obtain ⟨pre, post, rfl⟩ := List.append_of_mem hget
  have hnot := (List.nodup_cons.mp (List.nodup_middle.mp h.nodup)).1
  have hlegal := (legal_append.mp h.legal).2.1 _ rfl _ rfl
  rw [kvMap_ok_get rfl] at hlegal
  -- nothing but the write can stand before the read
  have hpre : ∀ k ∈ pre, k = 0 := by
    intro k hk
    have hlt : k < 2 := h.called k (List.mem_append_left _ hk)
    have hne : k ≠ 1 := fun heq => hnot (List.mem_append_left _ (heq ▸ hk))
    omega
  have hbefore : 0 ∈ pre := by
    rcases List.mem_append.mp hput with hin | hin
    · exact hin
    · rcases List.mem_cons.mp hin with heq | hin
      · cases heq
      · have hpair := (List.pairwise_append.mp h.realtime).2.1
        have hreal := (List.pairwise_cons.mp hpair).1 0 hin _ rfl _ rfl
        exact absurd ⟨_, rfl, by decide⟩ hreal
  cases pre with
  | nil => cases hbefore
  | cons k rest =>
      obtain rfl := hpre k List.mem_cons_self
      cases rest with
      | nil => exact absurd hlegal (by decide)
      | cons k' rest =>
          obtain rfl := hpre k' (by simp)
          have hnodup := (List.nodup_append.mp h.nodup).1
          simp at hnodup

end System
end KvRaft
end Labs
