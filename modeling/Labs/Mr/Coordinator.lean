import Mathlib.Data.List.Basic

/-!
# The MapReduce coordinator

The critical sections of the coordinator, as functions on its fields.  `RequestTask` has
one under each of its two mutexes, `TaskDone` one under the mutex of the phase it reports
to, and `Done` reads the two flags without a lock before it takes one.  Times are
nanoseconds on the coordinator's clock.
-/

namespace Labs
namespace Mr

inductive Status where
  | unassigned
  | assigned
  | complete
  deriving DecidableEq, Repr

structure Task where
  filename : String := ""
  status : Status := .unassigned
  startTime : Nat := 0
  deriving DecidableEq, Repr

structure RequestTaskResponse where
  filename : String := ""
  taskType : String := ""
  n : Nat := 0
  taskNumber : Nat := 0
  deriving DecidableEq, Repr

structure TaskDoneArgs where
  taskType : String
  taskNumber : Int
  deriving DecidableEq, Repr

structure Coordinator where
  mapTasks : List Task
  reduceTasks : List Task
  nReduce : Nat
  mapTasksCompleted : Nat
  reduceTasksCompleted : Nat
  mapDone : Bool
  reduceDone : Bool
  deriving DecidableEq, Repr

/-- The loop of `assignTask` from index `i` on: the first task that is unassigned. -/
def assignFrom (taskType : String) (n now : Nat) :
    Nat → List Task → Option (List Task × RequestTaskResponse)
  | _, [] => none
  | i, task :: rest =>
    if task.status = .unassigned then
      some ({ task with status := .assigned, startTime := now } :: rest,
        { filename := task.filename, taskType := taskType, n := n, taskNumber := i })
    else
      (assignFrom taskType n now (i + 1) rest).map fun (tasks, reply) => (task :: tasks, reply)

def assignTask (tasks : List Task) (taskType : String) (n now : Nat) :
    Option (List Task × RequestTaskResponse) :=
  assignFrom taskType n now 0 tasks

def updateTasks (tasks : List Task) (now : Nat) : List Task :=
  tasks.map fun task =>
    if task.status = .assigned ∧ now - task.startTime ≥ 10 * 1000000000 then
      { task with status := .unassigned }
    else task

/-- What both branches of `TaskDone` do to the tasks of their phase, the counter and the
flag. -/
def completeTask (tasks : List Task) (completed : Nat) (done : Bool) (i : Nat) :
    List Task × Nat × Bool :=
  (tasks.modify i fun task => { task with status := .complete }, completed + 1,
    if completed + 1 ≥ tasks.length then true else done)

/-- The mutex that `Done` takes. -/
inductive Mutex where
  | mapTasksMu
  | reduceTasksMu
  deriving DecidableEq, Repr

namespace Coordinator

def makeCoordinator (files : List String) (nReduce : Nat) : Coordinator where
  mapTasks := files.map fun filename => { filename := filename }
  reduceTasks := List.replicate nReduce {}
  nReduce := nReduce
  mapTasksCompleted := 0
  reduceTasksCompleted := 0
  mapDone := false
  reduceDone := false

/-- The first critical section of `RequestTask`, with no reply if it goes on to the second. -/
def requestMapTask (c : Coordinator) (now : Nat) : Coordinator × Option RequestTaskResponse :=
  if !c.mapDone then
    match assignTask c.mapTasks "map" c.nReduce now with
    | some (tasks, reply) => ({ c with mapTasks := tasks }, some reply)
    | none => (c, some { taskType := "none" })
  else (c, none)

/-- The second critical section of `RequestTask`. -/
def requestReduceTask (c : Coordinator) (now : Nat) : Coordinator × RequestTaskResponse :=
  if !c.reduceDone then
    match assignTask c.reduceTasks "reduce" c.mapTasks.length now with
    | some (tasks, reply) => ({ c with reduceTasks := tasks }, reply)
    | none => (c, { taskType := "none" })
  else (c, {})

def taskDone (c : Coordinator) (args : TaskDoneArgs) : Coordinator × Option String :=
  let i := args.taskNumber
  if args.taskType = "map" ∧ 0 ≤ i ∧ i < c.mapTasks.length then
    let (tasks, completed, done) := completeTask c.mapTasks c.mapTasksCompleted c.mapDone i.toNat
    ({ c with mapTasks := tasks, mapTasksCompleted := completed, mapDone := done }, none)
  else if args.taskType = "reduce" ∧ 0 ≤ i ∧ i < c.reduceTasks.length then
    let (tasks, completed, done) :=
      completeTask c.reduceTasks c.reduceTasksCompleted c.reduceDone i.toNat
    ({ c with reduceTasks := tasks, reduceTasksCompleted := completed, reduceDone := done }, none)
  else if args.taskType ≠ "map" ∧ args.taskType ≠ "reduce" then
    (c, some ("invalid task type: " ++ args.taskType))
  else (c, some ("invalid task number: " ++ toString i))

/-- The mutex that `Done` chooses from the flags, none if both are set. -/
def doneMutex (c : Coordinator) : Option Mutex :=
  if !c.mapDone then some .mapTasksMu
  else if !c.reduceDone then some .reduceTasksMu
  else none

/-- The rest of `Done` under the mutex it has chosen. -/
def done (c : Coordinator) (mu : Option Mutex) (now : Nat) : Coordinator × Bool :=
  let c := match mu with
    | some .mapTasksMu => { c with mapTasks := updateTasks c.mapTasks now }
    | some .reduceTasksMu => { c with reduceTasks := updateTasks c.reduceTasks now }
    | none => c
  (c, c.mapDone && c.reduceDone)

end Coordinator

/-! ## Counting the tasks that are complete -/

def Task.isComplete (task : Task) : Bool := task.status = .complete

section Tasks

variable {tasks tasks' : List Task} {completed : Nat} {done : Bool}

/-- Assigning takes a task that is not complete and leaves it so. -/
theorem assignFrom_isComplete {taskType : String} {n now i : Nat} {reply : RequestTaskResponse}
    (h : assignFrom taskType n now i tasks = some (tasks', reply)) :
    tasks'.map Task.isComplete = tasks.map Task.isComplete ∧ reply.taskType = taskType := by
  induction tasks generalizing i tasks' with
  | nil => cases h
  | cons task rest ih =>
      unfold assignFrom at h
      split at h
      · next hun =>
          cases h
          simp [Task.isComplete, hun]
      · obtain ⟨⟨rest', reply'⟩, hrest, heq⟩ := Option.map_eq_some_iff.mp h
        cases heq
        obtain ⟨hmap, htype⟩ := ih hrest
        exact ⟨by rw [List.map_cons, List.map_cons, hmap], htype⟩

/-- A timeout takes back only tasks that are not complete. -/
theorem updateTasks_isComplete (tasks : List Task) (now : Nat) :
    (updateTasks tasks now).map Task.isComplete = tasks.map Task.isComplete := by
  unfold updateTasks
  rw [List.map_map]
  refine List.map_congr_left fun task _ => ?_
  show Task.isComplete (if task.status = .assigned ∧ _ then _ else task) = task.isComplete
  split
  · next hassigned => simp [Task.isComplete, hassigned.1]
  · rfl

/-- Completing a task that is not complete adds one. -/
theorem countP_modify_complete {i : Nat} {task : Task} (hi : tasks[i]? = some task)
    (hnot : task.status ≠ .complete) :
    (tasks.modify i fun task => { task with status := .complete }).countP Task.isComplete =
      tasks.countP Task.isComplete + 1 := by
  induction tasks generalizing i with
  | nil => cases hi
  | cons first rest ih =>
      cases i with
      | zero =>
          cases hi
          simp [Task.isComplete, hnot]
      | succ i =>
          have hrest := ih (i := i) (by simpa using hi)
          simp only [List.modify_succ_cons, List.countP_cons, hrest]
          omega

theorem length_eq_of_isComplete (h : tasks'.map Task.isComplete = tasks.map Task.isComplete) :
    tasks'.length = tasks.length := by
  simpa using congrArg List.length h

theorem countP_eq_of_isComplete (h : tasks'.map Task.isComplete = tasks.map Task.isComplete) :
    tasks'.countP Task.isComplete = tasks.countP Task.isComplete := by
  simpa [List.countP_map] using congrArg (List.countP id) h

/-- As long as a phase is not done its counter is the number of complete tasks, and when
it is done all of them are complete. -/
structure Tallied (tasks : List Task) (completed : Nat) (done : Bool) : Prop where
  count : done = false → completed = tasks.countP Task.isComplete
  complete : done = true → tasks.countP Task.isComplete = tasks.length

namespace Tallied

/-- Only which tasks are complete matters. -/
theorem of_isComplete (h : Tallied tasks completed done)
    (hmap : tasks'.map Task.isComplete = tasks.map Task.isComplete) :
    Tallied tasks' completed done := by
  constructor
  · rw [countP_eq_of_isComplete hmap]
    exact h.count
  · rw [countP_eq_of_isComplete hmap, length_eq_of_isComplete hmap]
    exact h.complete

theorem completeTask (h : Tallied tasks completed done) {i : Nat} {task : Task}
    (hi : tasks[i]? = some task) (hnot : done = false → task.status ≠ .complete) :
    Tallied (completeTask tasks completed done i).1 (completeTask tasks completed done i).2.1
      (completeTask tasks completed done i).2.2 := by
  have hlen : (tasks.modify i fun task => { task with status := .complete }).length =
      tasks.length := List.length_modify _ _ _
  cases hdone : done with
  | true =>
      -- completing a task again changes no status
      have hall := (List.countP_eq_length.mp (h.complete hdone))
      have hflag : (Mr.completeTask tasks completed true i).2.2 = true := by
        simp [Mr.completeTask]
      refine ⟨fun hno => ?_, fun _ => ?_⟩
      · rw [hflag] at hno
        cases hno
      · refine List.countP_eq_length.mpr fun task' hmem => ?_
        obtain ⟨k, hk⟩ := List.mem_iff_getElem?.mp hmem
        have hk' : (tasks.modify i fun task => { task with status := .complete })[k]? =
            some task' := hk
        rw [List.getElem?_modify] at hk'
        obtain ⟨old, hold, rfl⟩ := Option.map_eq_some_iff.mp hk'
        split
        · rfl
        · exact hall old (List.mem_of_getElem? hold)
  | false =>
      have hcount := h.count hdone
      have hmore := countP_modify_complete hi (hnot hdone)
      constructor
      · intro _
        show completed + 1 = List.countP _ (tasks.modify i _)
        rw [hmore, hcount]
      · show (if completed + 1 ≥ tasks.length then true else false) = true →
          List.countP _ (tasks.modify i _) = (tasks.modify i _).length
        have hle : List.countP Task.isComplete
            (tasks.modify i fun task => { task with status := .complete }) ≤ _ :=
          List.countP_le_length
        split
        · intro _
          rw [hmore, hlen] at hle ⊢
          omega
        · simp

/-- No task has been assigned yet. -/
theorem unassigned (h : ∀ task ∈ tasks, task.status = .unassigned) : Tallied tasks 0 false where
  count := by
    intro _
    refine (List.countP_eq_zero.mpr fun task htask => ?_).symm
    simp [Task.isComplete, h task htask]
  complete := fun hno => by cases hno

theorem mapTasks (files : List String) :
    Tallied (files.map fun filename => { filename := filename }) 0 false :=
  unassigned (by simp)

end Tallied

/-- A counter that has not reached the end before the phase is done. -/
structure Counted (tasks : List Task) (completed : Nat) (done : Bool) : Prop
    extends Tallied tasks completed done where
  early : done = false → completed < tasks.length

namespace Counted

theorem iff_complete (h : Counted tasks completed done) :
    done = true ↔ ∀ task ∈ tasks, task.status = .complete := by
  have hall : tasks.countP Task.isComplete = tasks.length ↔
      ∀ task ∈ tasks, task.status = .complete := by
    rw [List.countP_eq_length]
    simp [Task.isComplete]
  rw [← hall]
  constructor
  · exact h.complete
  · intro heq
    cases hdone : done with
    | true => rfl
    | false =>
        have hcount := h.count hdone
        have hlt := h.early hdone
        omega

theorem of_isComplete (h : Counted tasks completed done)
    (hmap : tasks'.map Task.isComplete = tasks.map Task.isComplete) :
    Counted tasks' completed done := by
  refine ⟨h.toTallied.of_isComplete hmap, ?_⟩
  rw [length_eq_of_isComplete hmap]
  exact h.early

theorem completeTask (h : Counted tasks completed done) {i : Nat} {task : Task}
    (hi : tasks[i]? = some task) (hnot : done = false → task.status ≠ .complete) :
    Counted (completeTask tasks completed done i).1 (completeTask tasks completed done i).2.1
      (completeTask tasks completed done i).2.2 := by
  refine ⟨h.toTallied.completeTask hi hnot, fun hdone => ?_⟩
  show completed + 1 < (tasks.modify i _).length
  rw [List.length_modify]
  -- otherwise the flag is set
  have hnext : completed + 1 < tasks.length ∧ done = false := by
    simpa [Mr.completeTask] using hdone
  exact hnext.1

end Counted
end Tasks

namespace Coordinator

/-- The first section answers with a map task or with none while the map phase goes on. -/
theorem requestMapTask_cases (c : Coordinator) (now : Nat) :
    (c.mapDone = false ∧ ∃ tasks reply,
      c.requestMapTask now = ({ c with mapTasks := tasks }, some reply) ∧
      tasks.map Task.isComplete = c.mapTasks.map Task.isComplete ∧
      reply.taskType ≠ "reduce") ∨
    c.mapDone = true ∧ c.requestMapTask now = (c, none) := by
  unfold requestMapTask
  split
  · next hdone =>
      refine .inl ⟨by simpa using hdone, ?_⟩
      split
      · next tasks reply hassign =>
          obtain ⟨hmap, htype⟩ := assignFrom_isComplete hassign
          exact ⟨tasks, reply, rfl, hmap, by rw [htype]; decide⟩
      · exact ⟨c.mapTasks, _, rfl, rfl, by decide⟩
  · next hdone => exact .inr ⟨by simpa using hdone, rfl⟩

theorem requestReduceTask_cases (c : Coordinator) (now : Nat) : ∃ tasks reply,
    c.requestReduceTask now = ({ c with reduceTasks := tasks }, reply) ∧
    tasks.map Task.isComplete = c.reduceTasks.map Task.isComplete := by
  unfold requestReduceTask
  split
  · split
    · next tasks reply hassign => exact ⟨tasks, reply, rfl, (assignFrom_isComplete hassign).1⟩
    · exact ⟨c.reduceTasks, _, rfl, rfl⟩
  · exact ⟨c.reduceTasks, _, rfl, rfl⟩

theorem taskDone_mapDone {c : Coordinator} (h : c.mapDone = true) (args : TaskDoneArgs) :
    (c.taskDone args).1.mapDone = true := by
  unfold taskDone
  dsimp only
  split
  · simp [completeTask, h]
  · split
    · exact h
    · split <;> exact h

/-- A failed report changes nothing. -/
theorem taskDone_of_error {c : Coordinator} {args : TaskDoneArgs} {err : String}
    (h : (c.taskDone args).2 = some err) : (c.taskDone args).1 = c := by
  unfold taskDone at h ⊢
  dsimp only at h ⊢
  split
  · next hmap => simp [hmap] at h
  · next hmap =>
      rw [if_neg hmap] at h
      split
      · next hreduce => simp [hreduce] at h
      · split <;> rfl

/-- `Done` takes back tasks of one phase at most, and returns the two flags. -/
theorem done_eq (c : Coordinator) (mu : Option Mutex) (now : Nat) : ∃ mapTasks reduceTasks,
    c.done mu now =
      ({ c with mapTasks := mapTasks, reduceTasks := reduceTasks }, c.mapDone && c.reduceDone) ∧
    mapTasks.map Task.isComplete = c.mapTasks.map Task.isComplete ∧
    reduceTasks.map Task.isComplete = c.reduceTasks.map Task.isComplete := by
  match mu with
  | some .mapTasksMu => exact ⟨_, _, rfl, updateTasks_isComplete _ now, rfl⟩
  | some .reduceTasksMu => exact ⟨_, _, rfl, rfl, updateTasks_isComplete _ now⟩
  | none => exact ⟨_, _, rfl, rfl, rfl⟩

end Coordinator

/-- Both phases of a coordinator. -/
structure Coordinator.Consistent (c : Coordinator) : Prop where
  map : Counted c.mapTasks c.mapTasksCompleted c.mapDone
  reduce : Counted c.reduceTasks c.reduceTasksCompleted c.reduceDone

/-- The task that a report is for, and whether its phase is done. -/
def Coordinator.reported (c : Coordinator) (args : TaskDoneArgs) : Option (Task × Bool) :=
  if args.taskNumber < 0 then none
  else if args.taskType = "map" then c.mapTasks[args.taskNumber.toNat]?.map (·, c.mapDone)
  else if args.taskType = "reduce" then
    c.reduceTasks[args.taskNumber.toNat]?.map (·, c.reduceDone)
  else none

/-- The report is not for a complete task of a phase that is not done. -/
def Coordinator.FirstReport (c : Coordinator) (args : TaskDoneArgs) : Prop :=
  ∀ task ∈ c.reported args, task.2 = false → task.1.status ≠ .complete

instance (c : Coordinator) (args : TaskDoneArgs) : Decidable (c.FirstReport args) :=
  inferInstanceAs (Decidable (∀ task ∈ c.reported args, task.2 = false →
    task.1.status ≠ .complete))

namespace Coordinator.Consistent

variable {c : Coordinator}

theorem makeCoordinator {files : List String} {nReduce : Nat} (hfiles : files ≠ [])
    (hn : 1 ≤ nReduce) : (makeCoordinator files nReduce).Consistent where
  map := by
    refine ⟨.mapTasks files, fun _ => ?_⟩
    show 0 < (files.map _).length
    rw [List.length_map]
    exact List.length_pos_of_ne_nil hfiles
  reduce := by
    refine ⟨.unassigned fun task htask => by rw [List.eq_of_mem_replicate htask], fun _ => ?_⟩
    show 0 < (List.replicate nReduce ({} : Task)).length
    rw [List.length_replicate]
    omega

/-- Only which tasks are complete matters. -/
theorem of_isComplete (h : c.Consistent) {mapTasks reduceTasks : List Task}
    (hmap : mapTasks.map Task.isComplete = c.mapTasks.map Task.isComplete)
    (hreduce : reduceTasks.map Task.isComplete = c.reduceTasks.map Task.isComplete) :
    Consistent { c with mapTasks := mapTasks, reduceTasks := reduceTasks } :=
  ⟨h.map.of_isComplete hmap, h.reduce.of_isComplete hreduce⟩

theorem taskDone (h : c.Consistent) {args : TaskDoneArgs} (hfirst : c.FirstReport args) :
    (c.taskDone args).1.Consistent := by
  unfold Coordinator.taskDone
  dsimp only
  split
  · next hmap =>
      obtain ⟨htype, hlow, hhigh⟩ := hmap
      have hget := List.getElem?_eq_getElem (l := c.mapTasks) (i := args.taskNumber.toNat)
        (by omega)
      refine ⟨h.map.completeTask hget (hfirst (_, c.mapDone) ?_), h.reduce⟩
      rw [reported, if_neg (by omega), if_pos htype, hget]
      rfl
  · split
    · next hreduce =>
        obtain ⟨htype, hlow, hhigh⟩ := hreduce
        have hget := List.getElem?_eq_getElem (l := c.reduceTasks) (i := args.taskNumber.toNat)
          (by omega)
        refine ⟨h.map, h.reduce.completeTask hget (hfirst (_, c.reduceDone) ?_)⟩
        rw [reported, if_neg (by omega), if_neg (by simp [htype]), if_pos htype, hget]
        rfl
    · split <;> exact h

end Coordinator.Consistent

/-! ## The map phase -/

/-- The task that is assigned is one of the list, and no file name changes. -/
theorem assignFrom_filename {tasks tasks' : List Task} {taskType : String} {n now i : Nat}
    {reply : RequestTaskResponse}
    (h : assignFrom taskType n now i tasks = some (tasks', reply)) :
    tasks'.map Task.filename = tasks.map Task.filename ∧ reply.n = n ∧
      ∃ k, reply.taskNumber = i + k ∧ (tasks.map Task.filename)[k]? = some reply.filename := by
  induction tasks generalizing i tasks' with
  | nil => cases h
  | cons task rest ih =>
      unfold assignFrom at h
      split at h
      · cases h
        exact ⟨rfl, rfl, 0, rfl, rfl⟩
      · obtain ⟨⟨rest', reply'⟩, hrest, heq⟩ := Option.map_eq_some_iff.mp h
        cases heq
        obtain ⟨hmap, hn, k, hk, hget⟩ := ih hrest
        exact ⟨by rw [List.map_cons, List.map_cons, hmap], hn, k + 1, by omega, by simpa using hget⟩

theorem updateTasks_filename (tasks : List Task) (now : Nat) :
    (updateTasks tasks now).map Task.filename = tasks.map Task.filename := by
  unfold updateTasks
  rw [List.map_map]
  refine List.map_congr_left fun task _ => ?_
  show Task.filename (if task.status = .assigned ∧ _ then _ else task) = task.filename
  split <;> rfl

namespace Coordinator

/-- Of the map phase and of the number of reduce tasks nothing has changed that a worker
could tell, but which map tasks are assigned. -/
structure SameMaps (c c' : Coordinator) : Prop where
  isComplete : c'.mapTasks.map Task.isComplete = c.mapTasks.map Task.isComplete
  filename : c'.mapTasks.map Task.filename = c.mapTasks.map Task.filename
  completed : c'.mapTasksCompleted = c.mapTasksCompleted
  done : c'.mapDone = c.mapDone
  nReduce : c'.nReduce = c.nReduce
  parts : c'.reduceTasks.length = c.reduceTasks.length

theorem SameMaps.refl (c : Coordinator) : SameMaps c c := ⟨rfl, rfl, rfl, rfl, rfl, rfl⟩

theorem sameMaps_requestMapTask (c : Coordinator) (now : Nat) :
    SameMaps c (c.requestMapTask now).1 := by
  unfold requestMapTask
  split
  · split
    · next tasks reply hassign =>
        exact ⟨(assignFrom_isComplete hassign).1, (assignFrom_filename hassign).1, rfl, rfl, rfl,
          rfl⟩
    · exact .refl c
  · exact .refl c

theorem sameMaps_requestReduceTask (c : Coordinator) (now : Nat) :
    SameMaps c (c.requestReduceTask now).1 := by
  unfold requestReduceTask
  split
  · split
    · next tasks reply hassign =>
        refine ⟨rfl, rfl, rfl, rfl, rfl, ?_⟩
        simpa using congrArg List.length (assignFrom_isComplete hassign).1
    · exact .refl c
  · exact .refl c

theorem sameMaps_done (c : Coordinator) (mu : Option Mutex) (now : Nat) :
    SameMaps c (c.done mu now).1 := by
  match mu with
  | some .mapTasksMu =>
      exact ⟨updateTasks_isComplete _ now, updateTasks_filename _ now, rfl, rfl, rfl, rfl⟩
  | some .reduceTasksMu => exact ⟨rfl, rfl, rfl, rfl, rfl, List.length_map _⟩
  | none => exact .refl c

/-- A report of a reduce task does not touch the map phase. -/
theorem sameMaps_taskDone {c : Coordinator} {args : TaskDoneArgs} (h : args.taskType ≠ "map") :
    SameMaps c (c.taskDone args).1 := by
  unfold taskDone
  dsimp only
  rw [if_neg fun hmap => h hmap.1]
  split
  · exact ⟨rfl, rfl, rfl, rfl, rfl, List.length_modify _ _ _⟩
  · split <;> exact .refl c

theorem requestMapTask_some {c : Coordinator} {now : Nat} {reply : RequestTaskResponse}
    (h : (c.requestMapTask now).2 = some reply) : reply.taskType ≠ "reduce" ∧
      (reply.taskType = "map" → reply.n = c.nReduce ∧
        (c.mapTasks.map Task.filename)[reply.taskNumber]? = some reply.filename) := by
  unfold requestMapTask at h
  split at h
  · split at h
    · next tasks reply' hassign =>
        cases h
        obtain ⟨-, hn, k, hk, hget⟩ := assignFrom_filename hassign
        rw [Nat.zero_add] at hk
        refine ⟨by rw [(assignFrom_isComplete hassign).2]; decide, fun _ => ⟨hn, ?_⟩⟩
        rw [hk]
        exact hget
    · cases h
      exact ⟨by decide, fun hno => absurd hno (by decide)⟩
  · cases h

theorem requestMapTask_none {c : Coordinator} {now : Nat}
    (h : (c.requestMapTask now).2 = none) : c.mapDone = true := by
  rcases c.requestMapTask_cases now with ⟨-, tasks, reply, heq, -⟩ | ⟨hdone, -⟩
  · rw [heq] at h
    cases h
  · exact hdone

theorem requestReduceTask_reply {c : Coordinator} {now : Nat} {reply : RequestTaskResponse}
    (h : (c.requestReduceTask now).2 = reply) : reply.taskType ≠ "map" ∧
      (reply.taskType = "reduce" →
        reply.n = c.mapTasks.length ∧ reply.taskNumber < c.reduceTasks.length) := by
  unfold requestReduceTask at h
  split at h
  · split at h
    · next tasks reply' hassign =>
        replace h : reply' = reply := h
        subst h
        obtain ⟨-, hn, k, hk, hget⟩ := assignFrom_filename hassign
        have hlt := (List.getElem?_eq_some_iff.mp hget).1
        rw [List.length_map] at hlt
        refine ⟨by rw [(assignFrom_isComplete hassign).2]; decide, fun _ => ⟨hn, ?_⟩⟩
        omega
    · replace h : ({ taskType := "none" } : RequestTaskResponse) = reply := h
      subst h
      exact ⟨by decide, fun hno => absurd hno (by decide)⟩
  · replace h : ({} : RequestTaskResponse) = reply := h
    subst h
    exact ⟨by decide, fun hno => absurd hno (by decide)⟩

end Coordinator
end Mr
end Labs
