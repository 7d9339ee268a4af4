import Labs.Raft.Steps

/-!
# The calls of the workers

A worker makes one call, `AppendEntries` or `InstallSnapshot`.  From then on its request
or the answer to it is in flight, until the worker has read the answer.
-/

namespace Labs
namespace Raft

variable {n : Nat} {C : Type}

inductive Call (n : Nat) (C : Type) where
  | entries (worker : Nat) (dst : Fin n) (args : AppendEntriesArgs n C)
  | snapshot (worker : Nat) (dst : Fin n) (args : InstallSnapshotArgs n)

def Call.worker : Call n C → Nat
  | .entries m _ _ => m
  | .snapshot m _ _ => m

/-- The worker has made its call or will make none. -/
def WorkerPc.Spent (pc : WorkerPc) : Prop := pc = .calling ∨ pc = .cleanup ∨ pc = .done

def Request.call : Request n C → Option (Call n C)
  | .requestVote .. => none
  | .appendEntries m dst args => some (.entries m dst args)
  | .installSnapshot m dst args => some (.snapshot m dst args)

def Response.call : Response n C → Option (Call n C)
  | .requestVote .. => none
  | .appendEntries m dst args _ => some (.entries m dst args)
  | .installSnapshot m dst args _ => some (.snapshot m dst args)

namespace Cluster

variable {w w' : Cluster n C}

/-- The calls whose request or answer is in flight. -/
def calls (w : Cluster n C) : List (Call n C) :=
  w.requests.filterMap Request.call ++ w.responses.filterMap Response.call

theorem mem_calls {c : Call n C} : c ∈ w.calls ↔
    (∃ r ∈ w.requests, r.call = some c) ∨ ∃ r ∈ w.responses, r.call = some c := by
  simp [calls, List.mem_filterMap]

theorem mem_calls_of_request {k : Nat} {r : Request n C} {c : Call n C}
    (h : w.requests[k]? = some r) (hc : r.call = some c) : c ∈ w.calls :=
  mem_calls.mpr (.inl ⟨r, List.mem_of_getElem? h, hc⟩)

theorem mem_calls_of_response {k : Nat} {r : Response n C} {c : Call n C}
    (h : w.responses[k]? = some r) (hc : r.call = some c) : c ∈ w.calls :=
  mem_calls.mpr (.inr ⟨r, List.mem_of_getElem? h, hc⟩)

/-- The call is one that the action makes. -/
def Sends (w : Cluster n C) : Action n C → Call n C → Prop
  | .worker k, c => ∃ wk, w.workers[k]? = some wk ∧
      ((wk.pc = .start ∧ ∃ args,
          (w.peers wk.src).heartbeatWorker wk.peer = .sendEntries args ∧
            c = .entries k wk.peer args) ∨
        wk.pc = .installSnapshot ∧ ∃ args,
          (w.peers wk.src).installSnapshotArgs wk.peer = some args ∧
            c = .snapshot k wk.peer args)
  | _, _ => False

/-- The step makes the call: its worker waits, and no server has changed. -/
structure Makes (w : Cluster n C) (act : Action n C) (w' : Cluster n C) (c : Call n C) :
    Prop where
  sends : w.Sends act c
  peers : w'.peers = w.peers
  waits : ∃ wk, w'.workers[c.worker]? = some wk ∧ wk.pc = .calling

/-- Where the calls of the new cluster come from. -/
theorem mem_calls_cases {P : Call n C → Prop} {c : Call n C} (hc : c ∈ w'.calls)
    (hreq : ∀ r ∈ w'.requests, r ∈ w.requests ∨ ∀ c, r.call = some c → P c)
    (hres : ∀ r ∈ w'.responses, r ∈ w.responses ∨ ∀ c, r.call = some c → c ∈ w.calls) :
    c ∈ w.calls ∨ P c := by
  rcases mem_calls.mp hc with ⟨r, hr, hcall⟩ | ⟨r, hr, hcall⟩
  · rcases hreq r hr with hold | hnew
    · exact .inl (mem_calls.mpr (.inl ⟨r, hold, hcall⟩))
    · exact .inr (hnew c hcall)
  · rcases hres r hr with hold | hnew
    · exact .inl (mem_calls.mpr (.inr ⟨r, hold, hcall⟩))
    · exact .inl (hnew c hcall)

/-- A request is delivered: its call is still in flight. -/
theorem mem_calls_deliver {P : Call n C → Prop} {k : Nat} {r : Request n C} {dst : Fin n}
    {rf : Peer n C} {answer : Response n C} (hk : w.requests[k]? = some r)
    (hanswer : answer.call = r.call) {c : Call n C}
    (hc : c ∈ (((w.dropRequest k).setPeer dst rf).respond answer).calls) :
    c ∈ w.calls ∨ P c := by
  refine mem_calls_cases hc (fun r' hr' => .inl (List.mem_of_mem_eraseIdx hr')) fun r' hr' => ?_
  rcases List.mem_append.mp hr' with hold | hnew
  · exact .inl hold
  · rw [List.mem_singleton.mp hnew, hanswer]
    exact .inr fun c hcall => mem_calls_of_request hk hcall

/-- An answer is read: other calls stay in flight. -/
theorem mem_calls_receive {P : Call n C → Prop} {k : Nat} {c : Call n C} (hc : c ∈ w'.calls)
    (hreq : w'.requests = w.requests) (hres : w'.responses = w.responses.eraseIdx k) :
    c ∈ w.calls ∨ P c := by
  refine mem_calls_cases hc (fun r hr => .inl (hreq ▸ hr)) fun r hr => .inl ?_
  rw [hres] at hr
  exact List.mem_of_mem_eraseIdx hr

theorem mem_calls_request {r : Request n C} {c c' : Call n C} (hc : c ∈ (w.request r).calls)
    (hr : r.call = some c') : c ∈ w.calls ∨ c = c' := by
  refine mem_calls_cases (w := w) (P := (· = c')) hc (fun r' hr' => ?_) fun r' hr' => .inl hr'
  rcases List.mem_append.mp hr' with hold | hnew
  · exact .inl hold
  · rw [List.mem_singleton.mp hnew, hr]
    exact .inr fun c hcall => (Option.some.inj hcall).symm

/-- A call in flight was in flight before or has just been made. -/
theorem calls_of_step {a : Action n C} (hs : w.step a = some w') {c : Call n C}
    (hc : c ∈ w'.calls) : c ∈ w.calls ∨ Makes w a w' c := by
  cases trans_of_step hs with
  | tickHeartbeat i elapsed timeout hlead => exact .inl (by simpa [calls] using hc)
  | tickElection i elapsed timeout hnot hn =>
      refine mem_calls_cases hc (fun r hr => ?_) fun r hr => .inl hr
      rw [startElection_requests] at hr
      rcases List.mem_append.mp hr with hold | hnew
      · exact .inl hold
      · obtain ⟨p, -, rfl⟩ := List.mem_map.mp hnew
        exact .inr fun c hcall => by cases hcall
  | tickIdle i elapsed timeout => exact .inl hc
  | start i command => exact .inl (by simpa [calls, setPeer] using hc)
  | snapshot i index data => exact .inl hc
  | heartbeatRun k i inc hk hinc hlead => exact .inl hc
  | heartbeatQuit k => exact .inl hc
  | workerMoves k wk pc hk hinc hpc => exact .inl hc
  | workerEntries k wk args hk hinc hpc hargs =>
      have hlt := (List.getElem?_eq_some_iff.mp hk).1
      refine (mem_calls_request hc rfl).imp id fun heq => ?_
      refine ⟨⟨wk, hk, .inl ⟨hpc, args, hargs, heq⟩⟩, rfl, ?_⟩
      rw [heq]
      exact ⟨_, List.getElem?_set_self hlt, rfl⟩
  | workerFlag k wk flag pc hk hinc hpc => exact .inl hc
  | workerSnapshot k wk args hk hinc hpc hargs =>
      have hlt := (List.getElem?_eq_some_iff.mp hk).1
      refine (mem_calls_request hc rfl).imp id fun heq => ?_
      refine ⟨⟨wk, hk, .inr ⟨hpc, args, hargs, heq⟩⟩, rfl, ?_⟩
      rw [heq]
      exact ⟨_, List.getElem?_set_self hlt, rfl⟩
  | deliverVote k e dst args hk => exact mem_calls_deliver hk rfl hc
  | deliverEntries k m dst args hk => exact mem_calls_deliver hk rfl hc
  | deliverSnapshot k m dst args hk => exact mem_calls_deliver hk rfl hc
  | receiveVote k e dst args reply el rf votes started hk hel hinc hwait hreply =>
      exact mem_calls_receive hc (by simp) (readVote_responses ..)
  | receiveEntries k m dst args reply wk hk hm hinc hpc => exact mem_calls_receive hc rfl rfl
  | receiveSnapshot k m dst args reply wk hk hm hinc hpc => exact mem_calls_receive hc rfl rfl
  | callFails k wk hk hinc hpc => exact .inl hc
  | voteFails e peer el hel => exact .inl hc
  | apply i rf msgs hsend happly => exact .inl hc
  | send i msg rest hsend => exact .inl hc
  | crash i => exact .inl hc

/-- A worker keeps its place and its server, and makes no second call. -/
theorem worker_of_set {k m : Nat} {wk wk' : Worker n} {pc : WorkerPc}
    (hk : w.workers[k]? = some wk') (hm : w.workers[m]? = some wk)
    (hw : w'.workers = w.workers.set k { wk' with pc := pc }) (hpc : wk'.pc.Spent → pc.Spent) :
    ∃ wk₁, w'.workers[m]? = some wk₁ ∧ wk₁.src = wk.src ∧ (wk.pc.Spent → wk₁.pc.Spent) := by
  rw [hw, List.getElem?_set]
  split
  · next heq =>
      subst heq
      rw [hk] at hm
      cases hm
      obtain ⟨hlt, -⟩ := List.getElem?_eq_some_iff.mp hk
      exact ⟨_, if_pos hlt, rfl, hpc⟩
  · exact ⟨wk, hm, rfl, id⟩

theorem worker_of_step {a : Action n C} (hs : w.step a = some w') {m : Nat} {wk : Worker n}
    (hm : w.workers[m]? = some wk) :
    ∃ wk', w'.workers[m]? = some wk' ∧ wk'.src = wk.src ∧ (wk.pc.Spent → wk'.pc.Spent) := by
  cases trans_of_step hs with
  | tickHeartbeat i elapsed timeout hlead => exact ⟨wk, by simpa using hm, rfl, id⟩
  | tickElection i elapsed timeout hnot hn => exact ⟨wk, hm, rfl, id⟩
  | tickIdle i elapsed timeout => exact ⟨wk, hm, rfl, id⟩
  | start i command => exact ⟨wk, by simpa [setPeer] using hm, rfl, id⟩
  | snapshot i index data => exact ⟨wk, hm, rfl, id⟩
  | heartbeatRun k i inc hk hinc hlead =>
      refine ⟨wk, ?_, rfl, id⟩
      obtain ⟨hlt, -⟩ := List.getElem?_eq_some_iff.mp hm
      exact (List.getElem?_append_left hlt).trans hm
  | heartbeatQuit k => exact ⟨wk, hm, rfl, id⟩
  | workerMoves k wk' pc hk hinc hpc =>
      refine worker_of_set hk hm rfl fun hspent => ?_
      rcases hpc with ⟨hstart, -⟩ | ⟨hstart, -⟩ | ⟨hstart, -⟩
      · exact absurd hspent (by simp [WorkerPc.Spent, hstart])
      · exact absurd hspent (by simp [WorkerPc.Spent, hstart])
      · exact absurd hspent (by simp [WorkerPc.Spent, hstart])
  | workerEntries k wk' args hk hinc hpc hargs =>
      exact worker_of_set hk hm rfl fun _ => .inl rfl
  | workerFlag k wk' flag pc hk hinc hpc =>
      refine worker_of_set hk hm rfl fun hspent => ?_
      rcases hpc with ⟨hflag, -⟩ | ⟨-, -, hdone⟩
      · exact absurd hspent (by simp [WorkerPc.Spent, hflag])
      · exact .inr (.inr hdone)
  | workerSnapshot k wk' args hk hinc hpc hargs =>
      exact worker_of_set hk hm rfl fun _ => .inl rfl
  | deliverVote k e dst args hk => exact ⟨wk, hm, rfl, id⟩
  | deliverEntries k m' dst args hk => exact ⟨wk, hm, rfl, id⟩
  | deliverSnapshot k m' dst args hk => exact ⟨wk, hm, rfl, id⟩
  | receiveVote k e dst args reply el rf votes started hk hel hinc hwait hreply =>
      exact ⟨wk, by simpa using hm, rfl, id⟩
  | receiveEntries k m' dst args reply wk' hk hm' hinc hpc =>
      exact worker_of_set hm' hm rfl fun _ => .inr (.inl rfl)
  | receiveSnapshot k m' dst args reply wk' hk hm' hinc hpc =>
      exact worker_of_set hm' hm rfl fun _ => .inr (.inl rfl)
  | callFails k wk' hk hinc hpc => exact worker_of_set hk hm rfl fun _ => .inr (.inl rfl)
  | voteFails e peer el hel => exact ⟨wk, hm, rfl, id⟩
  | apply i rf msgs hsend happly => exact ⟨wk, hm, rfl, id⟩
  | send i msg rest hsend => exact ⟨wk, hm, rfl, id⟩
  | crash i => exact ⟨wk, hm, rfl, id⟩

end Cluster

/-! ## Answers -/

/-- An `AppendEntries` handler has given the answer. -/
def Response.Handled : Response n C → Prop
  | .appendEntries _ _ args reply => ∃ rf : Peer n C, reply = (rf.appendEntries args).2
  | _ => True

/-- An answer to `AppendEntries` was in flight before or its request has just been handled. -/
theorem Cluster.answer_of_step {w w' : Cluster n C} {a : Action n C} (hs : w.step a = some w')
    {m : Nat} {dst : Fin n} {args : AppendEntriesArgs n C} {reply : AppendEntriesReply}
    (hr : Response.appendEntries m dst args reply ∈ w'.responses) :
    Response.appendEntries m dst args reply ∈ w.responses ∨
      ∃ k, w.requests[k]? = some (.appendEntries m dst args) ∧
        reply = ((w.peers dst).appendEntries args).2 ∧
        w' = ((w.dropRequest k).setPeer dst ((w.peers dst).appendEntries args).1).respond
          (.appendEntries m dst args reply) := by
  have hdrop : ∀ k, Response.appendEntries m dst args reply ∈ w.responses.eraseIdx k →
      Response.appendEntries m dst args reply ∈ w.responses :=
    fun k hmem => List.mem_of_mem_eraseIdx hmem
  cases trans_of_step hs with
  | tickHeartbeat i elapsed timeout hlead => exact .inl (by simpa using hr)
  | tickElection i elapsed timeout hnot hn => exact .inl hr
  | tickIdle i elapsed timeout => exact .inl hr
  | start i command => exact .inl (by simpa [setPeer] using hr)
  | snapshot i index data => exact .inl hr
  | heartbeatRun k i inc hk hinc hlead => exact .inl hr
  | heartbeatQuit k => exact .inl hr
  | workerMoves k wk pc hk hinc hpc => exact .inl hr
  | workerEntries k wk args hk hinc hpc hargs => exact .inl hr
  | workerFlag k wk flag pc hk hinc hpc => exact .inl hr
  | workerSnapshot k wk args hk hinc hpc hargs => exact .inl hr
  | deliverVote k e dst' args' hk =>
      rcases List.mem_append.mp hr with hold | hnew
      · exact .inl hold
      · cases List.mem_singleton.mp hnew
  | deliverEntries k m' dst' args' hk =>
      rcases List.mem_append.mp hr with hold | hnew
      · exact .inl hold
      · cases List.mem_singleton.mp hnew
        exact .inr ⟨k, hk, rfl, rfl⟩
  | deliverSnapshot k m' dst' args' hk =>
      rcases List.mem_append.mp hr with hold | hnew
      · exact .inl hold
      · cases List.mem_singleton.mp hnew
  | receiveVote k e dst' args' reply' el rf votes started hk hel hinc hwait hreply =>
      rw [readVote_responses] at hr
      exact .inl (hdrop k hr)
  | receiveEntries k m' dst' args' reply' wk hk hm hinc hpc => exact .inl (hdrop k hr)
  | receiveSnapshot k m' dst' args' reply' wk hk hm hinc hpc => exact .inl (hdrop k hr)
  | callFails k wk hk hinc hpc => exact .inl hr
  | voteFails e peer el hel => exact .inl hr
  | apply i rf msgs hsend happly => exact .inl hr
  | send i msg rest hsend => exact .inl hr
  | crash i => exact .inl hr

theorem Cluster.handled_of_step {w w' : Cluster n C} {a : Action n C} (hs : w.step a = some w')
    (h : ∀ r ∈ w.responses, r.Handled) : ∀ r ∈ w'.responses, r.Handled := by
  intro r hr
  cases r with
  | appendEntries m dst args reply =>
      rcases answer_of_step hs hr with hold | ⟨k, -, hreply, -⟩
      · exact h _ hold
      · exact ⟨w.peers dst, hreply⟩
  | _ => trivial

end Raft
end Labs
