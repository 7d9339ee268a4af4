import Labs.Mr.Job
import Labs.Mr.Output

/-!
# The workers of a job

The coordinator's job together with any number of workers and the directory of their
intermediate files.  A step is one critical section of the coordinator, one file operation
or one record read by a worker, or the crash of a worker.  File operations may fail, a
worker may be as slow as it likes, and what it reports may get lost.

`Worker` drops the error of `storeIntermediate` and reports the task all the same, and
nothing keeps two workers from storing the same map task, one of them perhaps after the
task is complete.  Each of them truncates the files first, and both write the same records
to the same places, so this does no harm unless a reduce task reads a file that one of them
is filling, or one of them stops in the middle.  `Orderly` excludes these, and a second
report of a map task, which the coordinator would count like that of another.
-/

namespace Labs
namespace Mr

/-- Where a worker stands: before a call of `RequestTask`, between its two critical
sections, with its answer, in `storeIntermediate`, after an error in it, in
`getIntermediate`, before the call of `TaskDone`, or gone. -/
inductive Pc (R : Type) where
  | idle
  | waiting
  | assigned (reply : RequestTaskResponse)
  | storing (X : Nat) (rest : List (FileOp R))
  | failed (X : Nat)
  | reading (part numMapTasks i place : Nat) (intermediate : List KeyValue)
  | reporting (taskType : String) (taskNumber : Nat)
  | exited

/-- `reads` are the results of `getIntermediate`, with the number of the reduce task. -/
structure Site (m : Nat) (R : Type) where
  job : Job
  files : Files R
  workers : Fin m → Pc R
  reads : List (Nat × List KeyValue)

inductive Event (m : Nat) where
  | request (v : Fin m)
  | requestReduce (v : Fin m)
  | start (v : Fin m)
  | store (v : Fin m)
  | storeFails (v : Fin m) (torn : Bool)
  | read (v : Fin m)
  | report (v : Fin m)
  | reportFails (v : Fin m)
  | crash (v : Fin m)
  | doneMutex
  | done
  | sleep (d : Nat)

variable {m : Nat} {R : Type}

def Site.init (inputs : List String) (nReduce : Nat) (files : Files R) : Site m R where
  job := .init inputs nReduce
  files := files
  workers := fun _ => .idle
  reads := []

namespace Site

def setWorker (w : Site m R) (v : Fin m) (pc : Pc R) : Site m R :=
  { w with workers := Function.update w.workers v pc }

/-- The answer to the first critical section of `RequestTask`, if it has one. -/
def answered : Option RequestTaskResponse → Pc R
  | some reply => .assigned reply
  | none => .waiting

/-- What `Worker` does with the task it got. -/
def startTask (app : App) (json : Json R) (reply : RequestTaskResponse) : Pc R :=
  if reply.taskType = "done" then .exited
  else if reply.taskType = "map" then
    .storing reply.taskNumber
      (storeIntermediate json (app.performMap reply.filename) reply.n reply.taskNumber)
  else if reply.taskType = "reduce" then .reading reply.taskNumber reply.n 0 0 []
  else .idle

/-- One record of `getIntermediate`: the next one of file `i`, or the end of that file. -/
def readRecord (json : Json R) (files : Files R) (part numMapTasks i place : Nat)
    (intermediate : List KeyValue) : Pc R :=
  match files (i, part) with
  | none => .exited
  | some content =>
    match content[place]?.join.bind json.decode with
    | some kv => .reading part numMapTasks i (place + 1) (intermediate ++ [kv])
    | none => .reading part numMapTasks (i + 1) 0 intermediate

/-- A worker that waits to report, and the task that it reports. -/
def reported : Pc R → Option TaskDoneArgs
  | .reporting taskType taskNumber => some { taskType := taskType, taskNumber := taskNumber }
  | .failed X => some { taskType := "map", taskNumber := X }
  | _ => none

def step (app : App) (json : Json R) (w : Site m R) : Event m → Option (Site m R)
  | .request v =>
    match w.workers v with
    | .idle =>
      (w.job.step .requestMapTask).map fun job =>
        { w with job := job }.setWorker v (answered (w.job.c.requestMapTask w.job.now).2)
    | _ => none
  | .requestReduce v =>
    match w.workers v with
    | .waiting =>
      (w.job.step .requestReduceTask).map fun job =>
        { w with job := job }.setWorker v (.assigned (w.job.c.requestReduceTask w.job.now).2)
    | _ => none
  | .start v =>
    match w.workers v with
    | .assigned reply => some (w.setWorker v (startTask app json reply))
    | _ => none
  | .store v =>
    match w.workers v with
    | .storing X (op :: rest) =>
      some ({ w with files := op.run w.files }.setWorker v (.storing X rest))
    | .storing X [] => some (w.setWorker v (.reporting "map" X))
    | _ => none
  | .storeFails v torn =>
    match w.workers v with
    | .storing X (op :: _) =>
      if op.mayFail then
        some ({ w with files := op.fail w.files torn }.setWorker v (.failed X))
      else none
    | _ => none
  | .read v =>
    match w.workers v with
    | .reading part numMapTasks i place intermediate =>
      if i < numMapTasks then
        some (w.setWorker v (readRecord json w.files part numMapTasks i place intermediate))
      else
        some ({ w with reads := w.reads ++ [(part, intermediate)] }.setWorker v
          (.reporting "reduce" part))
    | _ => none
  | .report v =>
    match reported (w.workers v) with
    | some args =>
      (w.job.step (.taskDone args)).map fun job => { w with job := job }.setWorker v .idle
    | none => none
  | .reportFails v =>
    match reported (w.workers v) with
    | some _ => some (w.setWorker v .idle)
    | none => none
  | .crash v => some (w.setWorker v .exited)
  | .doneMutex => (w.job.step .doneMutex).map fun job => { w with job := job }
  | .done => (w.job.step .done).map fun job => { w with job := job }
  | .sleep d => (w.job.step (.sleep d)).map fun job => { w with job := job }

end Site

/-! ## Orderly runs -/

namespace Pc

/-- The worker is storing the map task, or is about to report it. -/
def Holds : Pc R → Nat → Prop
  | .storing Y _, X => Y = X
  | .reporting taskType Y, X => taskType = "map" ∧ Y = X
  | _, _ => False

instance : (pc : Pc R) → (X : Nat) → Decidable (pc.Holds X)
  | .storing Y _, X => inferInstanceAs (Decidable (Y = X))
  | .reporting taskType Y, X => inferInstanceAs (Decidable (taskType = "map" ∧ Y = X))
  | .idle, _ | .waiting, _ | .assigned _, _ | .failed _, _ | .reading .., _ | .exited, _ =>
    isFalse fun h => h

/-- The file operations that are left to do. -/
def remaining : Pc R → List (FileOp R)
  | .storing _ rest => rest
  | _ => []

/-- The worker has created the file, in the map task that it holds. -/
def Created (pc : Pc R) (name : Nat × Nat) : Prop :=
  pc.Holds name.1 ∧ ∀ op ∈ pc.remaining, op.creates name = false

instance (pc : Pc R) (name : Nat × Nat) : Decidable (pc.Created name) :=
  inferInstanceAs (Decidable (_ ∧ _))

/-- The worker has created the file, and has not written all of it. -/
def Fills (pc : Pc R) (name : Nat × Nat) : Prop :=
  pc.Created name ∧ ∃ op ∈ pc.remaining, op.writes name = true

instance (pc : Pc R) (name : Nat × Nat) : Decidable (pc.Fills name) :=
  inferInstanceAs (Decidable (_ ∧ _))

/-- The file that a reduce task reads next. -/
def readFile : Pc R → Option (Nat × Nat)
  | .reading part _ i _ _ => some (i, part)
  | _ => none

end Pc

/-- The coordinator has the map task as complete. -/
def Coordinator.MapComplete (c : Coordinator) (X : Nat) : Prop :=
  (c.mapTasks.map Task.isComplete)[X]? = some true

instance (c : Coordinator) (X : Nat) : Decidable (c.MapComplete X) :=
  inferInstanceAs (Decidable (_ = _))

namespace Site

/-- A reduce task does not read a file that a worker is filling. -/
def ReadsFilled (w : Site m R) : Event m → Prop
  | .read v => ∀ name ∈ (w.workers v).readFile, ∀ v', ¬ (w.workers v').Fills name
  | _ => True

/-- Nobody counts on a file that the worker is filling: its map task is not complete, and no
other worker has created it. -/
def FillsAlone (w : Site m R) (v : Fin m) : Prop :=
  ∀ op ∈ (w.workers v).remaining, (w.workers v).Fills op.name →
    ¬ w.job.c.MapComplete op.name.1 ∧ ∀ v', v' ≠ v → ¬ (w.workers v').Created op.name

/-- A worker gives up a file that it is filling, by an error or a crash, only while nobody
counts on it. -/
def StopsAlone (w : Site m R) : Event m → Prop
  | .storeFails v _ => w.FillsAlone v
  | .crash v => w.FillsAlone v
  | _ => True

/-- A worker that could not store its map task does not report it, and no map task is
reported again before all of them are. -/
def ReportsStored (w : Site m R) : Event m → Prop
  | .report v => (∀ X, w.workers v ≠ .failed X) ∧
      ∀ args ∈ reported (w.workers v), args.taskType = "map" → w.job.c.FirstReport args
  | _ => True

structure Orderly (w : Site m R) (ev : Event m) : Prop where
  filled : ReadsFilled w ev
  alone : StopsAlone w ev
  stored : ReportsStored w ev

instance (w : Site m R) : (ev : Event m) → Decidable (ReadsFilled w ev)
  | .read v => inferInstanceAs (Decidable (∀ name ∈ (w.workers v).readFile,
      ∀ v', ¬ (w.workers v').Fills name))
  | .request _ | .requestReduce _ | .start _ | .store _ | .storeFails .. | .report _
  | .reportFails _ | .crash _ | .doneMutex | .done | .sleep _ => isTrue trivial

instance (w : Site m R) (v : Fin m) : Decidable (w.FillsAlone v) :=
  inferInstanceAs (Decidable (∀ op ∈ (w.workers v).remaining, _))

instance (w : Site m R) : (ev : Event m) → Decidable (StopsAlone w ev)
  | .storeFails v _ => inferInstanceAs (Decidable (w.FillsAlone v))
  | .crash v => inferInstanceAs (Decidable (w.FillsAlone v))
  | .request _ | .requestReduce _ | .start _ | .store _ | .read _ | .report _
  | .reportFails _ | .doneMutex | .done | .sleep _ => isTrue trivial

instance (pc : Pc R) : Decidable (∀ X, pc ≠ .failed X) :=
  match pc with
  | .failed X => isFalse fun h => h X rfl
  | .idle | .waiting | .assigned _ | .storing .. | .reading .. | .reporting .. | .exited =>
    isTrue fun _ h => by cases h

instance (w : Site m R) : (ev : Event m) → Decidable (ReportsStored w ev)
  | .report v => inferInstanceAs (Decidable ((∀ X, w.workers v ≠ .failed X) ∧
      ∀ args ∈ reported (w.workers v), args.taskType = "map" → w.job.c.FirstReport args))
  | .request _ | .requestReduce _ | .start _ | .store _ | .storeFails .. | .read _
  | .reportFails _ | .crash _ | .doneMutex | .done | .sleep _ => isTrue trivial

instance (w : Site m R) (ev : Event m) : Decidable (Orderly w ev) :=
  decidable_of_iff (ReadsFilled w ev ∧ StopsAlone w ev ∧ ReportsStored w ev)
    ⟨fun h => ⟨h.1, h.2.1, h.2.2⟩, fun h => ⟨h.filled, h.alone, h.stored⟩⟩

end Site
end Mr
end Labs
