import Labs.Mr.Coordinator
import Labs.Run

/-!
# A MapReduce job

The coordinator with its clock, the calls of `RequestTask` that are between their two
critical sections, the poll of `Done` by the main program, and what has been answered.
Workers report whatever they like, as late and as often as they like.

`TaskDone` counts reports and not tasks.  As long as no complete task of a phase that
goes on is reported again, the counter is the number of complete tasks and the phase is
done exactly when all its tasks are.  A task that timed out and was done by two workers is
counted twice.
-/

namespace Labs
namespace Mr

/-- `waiting` is the number of calls that have found the map phase done, `polling` the
mutex that a call of `Done` waits for. -/
structure Job where
  c : Coordinator
  now : Nat
  waiting : Nat
  polling : Option Mutex
  handed : List RequestTaskResponse
  returned : List Bool

inductive Action where
  | requestMapTask
  | requestReduceTask
  | taskDone (args : TaskDoneArgs)
  | doneMutex
  | done
  | sleep (d : Nat)

namespace Job

def init (files : List String) (nReduce : Nat) : Job where
  c := .makeCoordinator files nReduce
  now := 0
  waiting := 0
  polling := none
  handed := []
  returned := []

def step (w : Job) : Action → Option Job
  | .requestMapTask =>
    match w.c.requestMapTask w.now with
    | (c, some reply) => some { w with c := c, handed := w.handed ++ [reply] }
    | (c, none) => some { w with c := c, waiting := w.waiting + 1 }
  | .requestReduceTask =>
    if w.waiting = 0 then none
    else
      let (c, reply) := w.c.requestReduceTask w.now
      some { w with c := c, waiting := w.waiting - 1, handed := w.handed ++ [reply] }
  | .taskDone args => some { w with c := (w.c.taskDone args).1 }
  | .doneMutex =>
    if w.polling ≠ none then none
    else match w.c.doneMutex with
      | some mu => some { w with polling := some mu }
      | none =>
        let (c, finished) := w.c.done none w.now
        some { w with c := c, returned := w.returned ++ [finished] }
  | .done =>
    match w.polling with
    | none => none
    | some mu =>
      let (c, finished) := w.c.done (some mu) w.now
      some { w with c := c, polling := none, returned := w.returned ++ [finished] }
  | .sleep d => some { w with now := w.now + d }

/-- Whoever reports a task was handed it before. -/
def Assigned (w : Job) : Action → Prop
  | .taskDone args => ∃ reply ∈ w.handed,
      reply.taskType = args.taskType ∧ (reply.taskNumber : Int) = args.taskNumber
  | _ => True

/-- No complete task is reported again while its phase goes on. -/
def ReportsOnce (w : Job) : Action → Prop
  | .taskDone args => w.c.FirstReport args
  | _ => True

instance (w : Job) : (act : Action) → Decidable (Assigned w act)
  | .taskDone args => inferInstanceAs (Decidable (∃ reply ∈ w.handed,
      reply.taskType = args.taskType ∧ (reply.taskNumber : Int) = args.taskNumber))
  | .requestMapTask | .requestReduceTask | .doneMutex | .done | .sleep _ => isTrue trivial

instance (w : Job) : (act : Action) → Decidable (ReportsOnce w act)
  | .taskDone args => inferInstanceAs (Decidable (w.c.FirstReport args))
  | .requestMapTask | .requestReduceTask | .doneMutex | .done | .sleep _ => isTrue trivial

/-- The phases are counted right, and a call waits for a reduce task only after the map
phase is done. -/
structure Inv (w : Job) : Prop where
  consistent : w.c.Consistent
  waiting : 0 < w.waiting → w.c.mapDone = true

theorem inv_init {files : List String} {nReduce : Nat} (hfiles : files ≠ [])
    (hn : 1 ≤ nReduce) : Inv (init files nReduce) where
  consistent := .makeCoordinator hfiles hn
  waiting := by simp [init]

/-- What a step does to the coordinator, to the calls that wait and to the answers. -/
inductive Trans (w : Job) : Action → Job → Prop
  | handMap (tasks : List Task) (reply : RequestTaskResponse) :
      w.c.mapDone = false →
      tasks.map Task.isComplete = w.c.mapTasks.map Task.isComplete →
      reply.taskType ≠ "reduce" →
      Trans w .requestMapTask
        { w with c := { w.c with mapTasks := tasks }, handed := w.handed ++ [reply] }
  | await : w.c.mapDone = true →
      Trans w .requestMapTask { w with waiting := w.waiting + 1 }
  | handReduce (tasks : List Task) (reply : RequestTaskResponse) :
      0 < w.waiting →
      tasks.map Task.isComplete = w.c.reduceTasks.map Task.isComplete →
      Trans w .requestReduceTask
        { w with
          c := { w.c with reduceTasks := tasks }
          waiting := w.waiting - 1
          handed := w.handed ++ [reply] }
  | taskDone (args : TaskDoneArgs) :
      Trans w (.taskDone args) { w with c := (w.c.taskDone args).1 }
  | poll (mu : Mutex) : w.polling = none → w.c.doneMutex = some mu →
      Trans w .doneMutex { w with polling := some mu }
  | finish (act : Action) (mapTasks reduceTasks : List Task) :
      act = .doneMutex ∨ act = .done →
      mapTasks.map Task.isComplete = w.c.mapTasks.map Task.isComplete →
      reduceTasks.map Task.isComplete = w.c.reduceTasks.map Task.isComplete →
      Trans w act
        { w with
          c := { w.c with mapTasks := mapTasks, reduceTasks := reduceTasks }
          polling := none
          returned := w.returned ++ [w.c.mapDone && w.c.reduceDone] }
  | sleep (d : Nat) : Trans w (.sleep d) { w with now := w.now + d }

theorem trans_of_step {w w' : Job} {act : Action} (h : w.step act = some w') :
    Trans w act w' := by
  cases act with
  | requestMapTask =>
      rcases w.c.requestMapTask_cases w.now with
        ⟨hdone, tasks, reply, heq, hmap, htype⟩ | ⟨hdone, heq⟩
      · simp only [step, heq] at h
        cases h
        exact .handMap tasks reply hdone hmap htype
      · simp only [step, heq] at h
        cases h
        exact .await hdone
  | requestReduceTask =>
      obtain ⟨tasks, reply, heq, hmap⟩ := w.c.requestReduceTask_cases w.now
      simp only [step, heq] at h
      split at h
      · cases h
      · next hwait =>
          cases h
          exact .handReduce tasks reply (Nat.pos_of_ne_zero hwait) hmap
  | taskDone args =>
      cases h
      exact .taskDone args
  | doneMutex =>
      simp only [step] at h
      split at h
      · cases h
      · next hbusy =>
          have hidle : w.polling = none := not_not.mp hbusy
          split at h
          · next mu hmu =>
              cases h
              exact .poll mu hidle hmu
          · obtain ⟨mapTasks, reduceTasks, heq, hmap, hreduce⟩ := w.c.done_eq none w.now
            rw [heq] at h
            cases h
            have hfin := Trans.finish (w := w) _ mapTasks reduceTasks (.inl rfl) hmap hreduce
            rw [← hidle] at hfin
            exact hfin
  | done =>
      simp only [step] at h
      split at h
      · cases h
      · next mu hmu =>
          obtain ⟨mapTasks, reduceTasks, heq, hmap, hreduce⟩ := w.c.done_eq (some mu) w.now
          rw [heq] at h
          cases h
          exact .finish _ mapTasks reduceTasks (.inr rfl) hmap hreduce
  | sleep d =>
      cases h
      exact .sleep d

theorem Inv.step {w w' : Job} {act : Action} (h : Inv w) (hok : ReportsOnce w act)
    (hs : w.step act = some w') : Inv w' := by
  cases trans_of_step hs with
  | handMap tasks reply hdone hmap htype =>
      exact ⟨h.consistent.of_isComplete hmap rfl, h.waiting⟩
  | await hdone => exact ⟨h.consistent, fun _ => hdone⟩
  | handReduce tasks reply hwait hmap =>
      exact ⟨h.consistent.of_isComplete rfl hmap, fun _ => h.waiting hwait⟩
  | taskDone args =>
      exact ⟨h.consistent.taskDone hok, fun hwait =>
        Coordinator.taskDone_mapDone (h.waiting hwait) args⟩
  | poll mu hidle hmu => exact ⟨h.consistent, h.waiting⟩
  | finish act mapTasks reduceTasks hact hmap hreduce =>
      exact ⟨h.consistent.of_isComplete hmap hreduce, h.waiting⟩
  | sleep d => exact ⟨h.consistent, h.waiting⟩

theorem Inv.path {w w' : Job} (h : Inv w) (hp : Run.Path Job.step ReportsOnce w w') : Inv w' :=
  hp.invariant (fun _ _ _ hi hok hs => hi.step hok hs) h

/-- A reduce task is handed out only when all map tasks are complete. -/
theorem Inv.handed_reduce {w w' : Job} {act : Action} {reply : RequestTaskResponse} (h : Inv w)
    (hs : w.step act = some w') (hnew : w'.handed = w.handed ++ [reply])
    (htype : reply.taskType = "reduce") : ∀ task ∈ w.c.mapTasks, task.status = .complete := by
  -- a step that hands out nothing leaves the list as it was
  have hsame : w.handed ≠ w.handed ++ [reply] := by simp
  cases trans_of_step hs with
  | handMap tasks reply' hdone hmap htype' =>
      have heq : reply' = reply := List.singleton_inj.mp (List.append_cancel_left hnew)
      exact absurd (heq ▸ htype) htype'
  | await hdone => exact absurd hnew hsame
  | handReduce tasks reply' hwait hmap =>
      exact h.consistent.map.iff_complete.mp (h.waiting hwait)
  | taskDone args => exact absurd hnew hsame
  | poll mu hidle hmu => exact absurd hnew hsame
  | finish act mapTasks reduceTasks hact hmap hreduce => exact absurd hnew hsame
  | sleep d => exact absurd hnew hsame

/-- `Done` returns true only when all tasks are complete. -/
theorem Inv.returned_true {w w' : Job} {act : Action} (h : Inv w) (hok : ReportsOnce w act)
    (hs : w.step act = some w') (hnew : w'.returned = w.returned ++ [true]) :
    (∀ task ∈ w'.c.mapTasks, task.status = .complete) ∧
      ∀ task ∈ w'.c.reduceTasks, task.status = .complete := by
  have h' := h.step hok hs
  have hsame : w.returned ≠ w.returned ++ [true] := by simp
  cases trans_of_step hs with
  | handMap tasks reply hdone hmap htype => exact absurd hnew hsame
  | await hdone => exact absurd hnew hsame
  | handReduce tasks reply hwait hmap => exact absurd hnew hsame
  | taskDone args => exact absurd hnew hsame
  | poll mu hidle hmu => exact absurd hnew hsame
  | finish act mapTasks reduceTasks hact hmap hreduce =>
      have hflags : (w.c.mapDone && w.c.reduceDone) = true :=
        List.singleton_inj.mp (List.append_cancel_left hnew)
      obtain ⟨hm, hr⟩ := Bool.and_eq_true_iff.mp hflags
      exact ⟨h'.consistent.map.iff_complete.mp hm, h'.consistent.reduce.iff_complete.mp hr⟩
  | sleep d => exact absurd hnew hsame

/-- Along every run in which no complete task is reported again, a phase is done exactly
when its tasks are complete, and so reduce tasks and the end of the job come in time. -/
theorem phases_complete {files : List String} {nReduce : Nat} (hfiles : files ≠ [])
    (hn : 1 ≤ nReduce) {w : Job} (hp : Run.Path step ReportsOnce (init files nReduce) w) :
    (w.c.mapDone = true ↔ ∀ task ∈ w.c.mapTasks, task.status = .complete) ∧
    (w.c.reduceDone = true ↔ ∀ task ∈ w.c.reduceTasks, task.status = .complete) ∧
    ∀ act w', ReportsOnce w act → w.step act = some w' →
      (∀ reply, w'.handed = w.handed ++ [reply] → reply.taskType = "reduce" →
        ∀ task ∈ w.c.mapTasks, task.status = .complete) ∧
      (w'.returned = w.returned ++ [true] →
        (∀ task ∈ w'.c.mapTasks, task.status = .complete) ∧
          ∀ task ∈ w'.c.reduceTasks, task.status = .complete) := by
  have h := (inv_init hfiles hn).path hp
  refine ⟨h.consistent.map.iff_complete, h.consistent.reduce.iff_complete, ?_⟩
  intro act w' hok hs
  exact ⟨fun reply hnew htype => h.handed_reduce hs hnew htype, h.returned_true hok hs⟩

/-- Two files.  The first map task times out and is done by the worker that gets it next. -/
def takenBack : List Action :=
  [.requestMapTask, .sleep 10000000000, .doneMutex, .done, .requestMapTask, .requestMapTask,
   .taskDone { taskType := "map", taskNumber := 1 },
   .taskDone { taskType := "map", taskNumber := 0 },
   .requestMapTask, .requestReduceTask, .taskDone { taskType := "reduce", taskNumber := 0 },
   .doneMutex]

theorem takenBack_complete : ∃ w : Job, Run.Path step ReportsOnce (init ["a", "b"] 1) w ∧
    w.handed.map (fun reply => (reply.taskType, reply.taskNumber)) =
      [("map", 0), ("map", 0), ("map", 1), ("reduce", 0)] ∧
    w.returned = [false, true] ∧ w.c.mapDone = true ∧ w.c.reduceDone = true ∧
    (w.c.mapDone = true ↔ ∀ task ∈ w.c.mapTasks, task.status = .complete) :=
  ⟨_, Run.path_of_exec takenBack rfl, by decide, by decide, by decide, by decide,
    (@phases_complete ["a", "b"] 1 (by decide) (by decide) _
      (Run.path_of_exec takenBack rfl)).1⟩

/-- Two files.  The first map task times out, is done by two workers, and is counted for
both. -/
def doneTwice : List Action :=
  [.requestMapTask, .sleep 10000000000, .doneMutex, .done, .requestMapTask,
   .taskDone { taskType := "map", taskNumber := 0 },
   .taskDone { taskType := "map", taskNumber := 0 },
   -- the second map task has not even been handed out
   .requestMapTask, .requestReduceTask, .taskDone { taskType := "reduce", taskNumber := 0 },
   .doneMutex]

theorem doneTwice_incomplete : ∃ w : Job, Run.Path step Assigned (init ["a", "b"] 1) w ∧
    w.c.mapDone = true ∧ (w.c.mapTasks.map Task.status = [.complete, .unassigned]) ∧
    (∃ reply ∈ w.handed, reply.taskType = "reduce") ∧ true ∈ w.returned :=
  ⟨_, Run.path_of_exec doneTwice rfl, by decide, by decide, by decide, by decide⟩

end Job
end Mr
end Labs
