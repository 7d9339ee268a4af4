import Labs.Mr.Workers

/-!
# What reduce tasks read

Several workers may store the same map task, and each of them truncates the files and
fills them again.  Once a worker has created a file, every record of it is right or will be
written again by a worker that has truncated it, and this goes on after the task is complete.
A reduce task is handed out when all map tasks are complete.  It reads a file while nobody
fills it, so it gets every pair of its partition once.
-/

namespace Labs
namespace Mr

variable {m : Nat} {R : Type}

/-! ## The coordinator's side -/

theorem Coordinator.SameMaps.mapComplete_iff {c c' : Coordinator} (h : c.SameMaps c') (X : Nat) :
    c'.MapComplete X ↔ c.MapComplete X := by
  unfold Coordinator.MapComplete
  rw [h.isComplete]

theorem Job.sameMaps_of_step {w w' : Job} {act : Action} (hs : w.step act = some w')
    (hact : ∀ args, act = .taskDone args → args.taskType ≠ "map") : w.c.SameMaps w'.c := by
  cases act with
  | requestMapTask =>
      have hc := w.c.sameMaps_requestMapTask w.now
      simp only [Job.step] at hs
      split at hs
      · next c reply heq =>
          cases hs
          rw [heq] at hc
          exact hc
      · next c heq =>
          cases hs
          rw [heq] at hc
          exact hc
  | requestReduceTask =>
      simp only [Job.step] at hs
      split at hs
      · cases hs
      · cases hs
        exact w.c.sameMaps_requestReduceTask w.now
  | taskDone args =>
      cases hs
      exact Coordinator.sameMaps_taskDone (hact args rfl)
  | doneMutex =>
      simp only [Job.step] at hs
      split at hs
      · cases hs
      · split at hs
        · cases hs
          exact .refl _
        · cases hs
          exact w.c.sameMaps_done none w.now
  | done =>
      simp only [Job.step] at hs
      split at hs
      · cases hs
      · next mu hmu =>
          cases hs
          exact w.c.sameMaps_done (some mu) w.now
  | sleep d =>
      cases hs
      exact .refl _

/-- The coordinator has the tasks of the job, and has counted the map tasks right. -/
structure TasksOf (inputs : List String) (nReduce : Nat) (c : Coordinator) : Prop where
  names : c.mapTasks.map Task.filename = inputs
  number : c.nReduce = nReduce
  parts : c.reduceTasks.length = nReduce
  tally : Tallied c.mapTasks c.mapTasksCompleted c.mapDone

namespace TasksOf

variable {inputs : List String} {nReduce : Nat} {c c' : Coordinator}

theorem makeCoordinator (inputs : List String) (nReduce : Nat) :
    TasksOf inputs nReduce (.makeCoordinator inputs nReduce) where
  names := by simp [Coordinator.makeCoordinator, Function.comp_def]
  number := rfl
  parts := List.length_replicate
  tally := .mapTasks inputs

theorem length_mapTasks (h : TasksOf inputs nReduce c) : c.mapTasks.length = inputs.length := by
  rw [← h.names, List.length_map]

theorem same (h : TasksOf inputs nReduce c) (hsame : c.SameMaps c') :
    TasksOf inputs nReduce c' where
  names := hsame.filename.trans h.names
  number := hsame.nReduce.trans h.number
  parts := hsame.parts.trans h.parts
  tally := by
    rw [hsame.completed, hsame.done]
    exact h.tally.of_isComplete hsame.isComplete

theorem mapComplete_of_mapDone (h : TasksOf inputs nReduce c) (hdone : c.mapDone = true) {X : Nat}
    (hX : X < inputs.length) : c.MapComplete X := by
  have hall := List.countP_eq_length.mp (h.tally.complete hdone)
  obtain ⟨task, htask⟩ : ∃ task, c.mapTasks[X]? = some task :=
    ⟨_, List.getElem?_eq_getElem (by rw [h.length_mapTasks]; exact hX)⟩
  unfold Coordinator.MapComplete
  rw [List.getElem?_map, htask, Option.map_some, hall task (List.mem_of_getElem? htask)]

/-- The report of a map task makes it complete, and no other. -/
theorem taskDone (h : TasksOf inputs nReduce c) {X : Nat} (hX : X < inputs.length)
    (hfirst : c.FirstReport { taskType := "map", taskNumber := X }) :
    TasksOf inputs nReduce (c.taskDone { taskType := "map", taskNumber := X }).1 ∧
      (c.mapDone = true → (c.taskDone { taskType := "map", taskNumber := X }).1.mapDone = true) ∧
      ∀ Y, (c.taskDone { taskType := "map", taskNumber := X }).1.MapComplete Y →
        Y = X ∨ c.MapComplete Y := by
  have hlen := h.length_mapTasks
  have hguard : "map" = "map" ∧ (0 : Int) ≤ X ∧ (X : Int) < c.mapTasks.length :=
    ⟨rfl, by omega, by omega⟩
  obtain ⟨task, htask⟩ : ∃ task, c.mapTasks[X]? = some task :=
    ⟨_, List.getElem?_eq_getElem (by omega)⟩
  have hreported : c.reported { taskType := "map", taskNumber := X } =
      some (task, c.mapDone) := by
    simp [Coordinator.reported, htask]
  have htally := h.tally.completeTask htask (hfirst _ hreported)
  unfold Coordinator.taskDone
  dsimp only
  rw [if_pos hguard, Int.toNat_natCast]
  refine ⟨⟨?_, h.number, h.parts, htally⟩, fun hdone => ?_, fun Y hY => ?_⟩
  · show (c.mapTasks.modify X _).map Task.filename = inputs
    rw [← h.names]
    refine List.ext_getElem? fun k => ?_
    rw [List.getElem?_map, List.getElem?_map, List.getElem?_modify]
    cases c.mapTasks[k]? with
    | none => rfl
    | some task =>
        show some (Task.filename (if X = k then _ else task)) = some task.filename
        split <;> rfl
  · show (completeTask c.mapTasks c.mapTasksCompleted c.mapDone X).2.2 = true
    simp [completeTask, hdone]
  · by_cases hYX : Y = X
    · exact .inl hYX
    · refine .inr ?_
      unfold Coordinator.MapComplete at hY ⊢
      rw [List.getElem?_map] at hY ⊢
      rw [← hY]
      show _ = Option.map Task.isComplete (c.mapTasks.modify X _)[Y]?
      rw [List.getElem?_modify]
      simp [Ne.symm hYX]

end TasksOf

/-! ## The workers' side -/

section Invariant

variable (app : App) (json : Json R) (inputs : List String) (nReduce : Nat)

/-- The part of map task `i` that a reduce task reads. -/
def partOf (part i : Nat) : List KeyValue :=
  bucket nReduce part ((inputs[i]?.map app.performMap).getD [])

/-- What is true of a worker, given the coordinator. -/
def PcInv (c : Coordinator) : Pc R → Prop
  | .waiting => c.mapDone = true
  | .assigned reply =>
      (reply.taskType = "map" →
        reply.n = nReduce ∧ inputs[reply.taskNumber]? = some reply.filename) ∧
      (reply.taskType = "reduce" →
        c.mapDone = true ∧ reply.n = inputs.length ∧ reply.taskNumber < nReduce)
  | .storing X rest => ∃ filename, inputs[X]? = some filename ∧
      rest <:+ storeIntermediate json (app.performMap filename) nReduce X
  | .reporting taskType X => taskType = "map" → X < inputs.length
  | .reading part numMapTasks i place intermediate => c.mapDone = true ∧
      numMapTasks = inputs.length ∧ part < nReduce ∧ i ≤ inputs.length ∧
      place ≤ (partOf app inputs nReduce part i).length ∧
      intermediate = bucket nReduce part (app.emitted (inputs.take i)) ++
        (partOf app inputs nReduce part i).take place
  | .idle => True
  | .failed _ => True
  | .exited => True

/-- The worker will write the record at this place of a file that it has created. -/
def Pc.Owes (pc : Pc R) (name : Nat × Nat) (place : Nat) : Prop :=
  pc.Created name ∧ ∃ record, .encode name place record ∈ pc.remaining

/-- Somebody has created the file who holds its map task, or the task is complete. -/
def Site.Begun (w : Site m R) (name : Nat × Nat) : Prop :=
  w.job.c.MapComplete name.1 ∨ ∃ v, (w.workers v).Created name

/-- The file is there, and every record of it is right or some worker owes it. -/
def Site.Covered (w : Site m R) (X part : Nat) : Prop :=
  ∃ content, w.files (X, part) = some content ∧
    content.length ≤ (partOf app inputs nReduce part X).length ∧
    ∀ place kv, (partOf app inputs nReduce part X)[place]? = some kv →
      content[place]? = some (some (json.encode kv)) ∨
      ∃ v, (w.workers v).Owes (X, part) place

structure SiteInv (w : Site m R) : Prop where
  tasks : TasksOf inputs nReduce w.job.c
  pcs : ∀ v, PcInv app json inputs nReduce w.job.c (w.workers v)
  covered : ∀ X part, part < nReduce → w.Begun (X, part) →
    w.Covered app json inputs nReduce X part
  reads : ∀ r ∈ w.reads, r.2 = bucket nReduce r.1 (app.emitted inputs)

end Invariant

section Steps

variable {app : App} {json : Json R} {inputs : List String} {nReduce : Nat}
  {files files' : Files R} {c c' : Coordinator} {w w' : Site m R} {v : Fin m}

theorem PcInv.frame {pc : Pc R} (h : PcInv app json inputs nReduce c pc)
    (hdone : c.mapDone = true → c'.mapDone = true) : PcInv app json inputs nReduce c' pc := by
  cases pc with
  | idle => trivial
  | waiting => exact hdone h
  | assigned reply =>
      exact ⟨h.1, fun htype => ⟨hdone (h.2 htype).1, (h.2 htype).2⟩⟩
  | storing X rest => exact h
  | failed X => trivial
  | reading part numMapTasks i place intermediate => exact ⟨hdone h.1, h.2⟩
  | reporting taskType X => exact h
  | exited => trivial

namespace Pc

variable {pc : Pc R} {name : Nat × Nat} {place : Nat}

theorem Owes.fills (h : pc.Owes name place) : pc.Fills name := by
  obtain ⟨hcreated, record, hmem⟩ := h
  exact ⟨hcreated, _, hmem, decide_eq_true rfl⟩

theorem not_owes (h : pc.remaining = []) : ¬ pc.Owes name place := by
  rintro ⟨-, record, hmem⟩
  rw [h] at hmem
  cases hmem

theorem created_storing_iff {X : Nat} {rest : List (FileOp R)} :
    (Pc.storing X rest).Created name ↔ X = name.1 ∧ ∀ op ∈ rest, op.creates name = false :=
  Iff.rfl

/-- An operation on another file, or one that does not create the file, leaves it as created
as it was. -/
theorem created_cons_iff {X : Nat} {op : FileOp R} {rest : List (FileOp R)}
    (h : op.creates name = false) :
    (Pc.storing X (op :: rest)).Created name ↔ (Pc.storing X rest).Created name := by
  rw [created_storing_iff, created_storing_iff, List.forall_mem_cons]
  exact and_congr_right fun _ => and_iff_right h

/-- What the worker owes after an operation that has not written the record. -/
theorem Owes.tail {X : Nat} {op : FileOp R} {rest : List (FileOp R)}
    (h : (Pc.storing X (op :: rest)).Owes name place)
    (hop : ∀ record, op ≠ .encode name place record) : (Pc.storing X rest).Owes name place := by
  obtain ⟨⟨hX, hcreates⟩, record, hmem⟩ := h
  refine ⟨⟨hX, fun op' hop' => hcreates op' (List.mem_cons_of_mem _ hop')⟩, record, ?_⟩
  exact (List.mem_cons.mp hmem).resolve_left fun heq => hop record heq.symm

end Pc

theorem FileOp.creates_of_name_ne {op : FileOp R} {name : Nat × Nat} (h : op.name ≠ name) :
    op.creates name = false := by
  cases op with
  | create name' => exact decide_eq_false h
  | encode name' place record => rfl
  | close name' => rfl

theorem reported_cases {pc : Pc R} {args : TaskDoneArgs} (h : Site.reported pc = some args) :
    (∃ taskType X, pc = .reporting taskType X ∧
      args = { taskType := taskType, taskNumber := X }) ∨ ∃ X, pc = .failed X := by
  unfold Site.reported at h
  split at h
  · next taskType X =>
      cases h
      exact .inl ⟨taskType, X, rfl, rfl⟩
  · next X => exact .inr ⟨X, rfl⟩
  · cases h

theorem reported_remaining {pc : Pc R} {args : TaskDoneArgs}
    (hargs : Site.reported pc = some args) : pc.remaining = [] := by
  rcases reported_cases hargs with ⟨taskType, X, rfl, -⟩ | ⟨X, rfl⟩ <;> rfl

theorem readRecord_records {part numMapTasks i place : Nat} {intermediate kva : List KeyValue}
    (hfile : files (i, part) = some (records json kva))
    (hjson : ∀ kv ∈ kva, json.decode (json.encode kv) = some kv) :
    Site.readRecord json files part numMapTasks i place intermediate =
      match kva[place]? with
      | some kv => .reading part numMapTasks i (place + 1) (intermediate ++ [kv])
      | none => .reading part numMapTasks (i + 1) 0 intermediate := by
  unfold Site.readRecord
  rw [hfile]
  dsimp only
  rw [getElem?_records]
  cases hkv : kva[place]? with
  | none => rfl
  | some kv =>
      show (match json.decode (json.encode kv) with
        | some kv => Pc.reading part numMapTasks i (place + 1) (intermediate ++ [kv])
        | none => .reading part numMapTasks (i + 1) 0 intermediate) = _
      rw [hjson kv (List.mem_of_getElem? hkv)]

theorem mem_emitted_of_mem_partOf {part i : Nat} {kv : KeyValue}
    (h : kv ∈ partOf app inputs nReduce part i) : kv ∈ app.emitted inputs := by
  have hmem := List.mem_of_mem_filter h
  cases hi : inputs[i]? with
  | none =>
      rw [hi] at hmem
      cases hmem
  | some filename =>
      rw [hi] at hmem
      exact List.mem_flatMap.mpr ⟨filename, List.mem_of_getElem? hi, hmem⟩

theorem bucket_emitted_succ (part i : Nat) :
    bucket nReduce part (app.emitted (inputs.take (i + 1))) =
      bucket nReduce part (app.emitted (inputs.take i)) ++ partOf app inputs nReduce part i := by
  unfold App.emitted partOf
  rw [List.take_add_one, List.flatMap_append, bucket_append]
  cases inputs[i]? with
  | none => rfl
  | some filename => simp

/-- Who counts on a file after a worker has gone on. -/
theorem Site.Begun.cases_setWorker {pc : Pc R} {name : Nat × Nat}
    (h : ({ w with files := files }.setWorker v pc).Begun name) :
    w.job.c.MapComplete name.1 ∨ pc.Created name ∨
      ∃ v', v' ≠ v ∧ (w.workers v').Created name := by
  refine h.imp_right fun ⟨v', hv'⟩ => ?_
  replace hv' : (Function.update w.workers v pc v').Created name := hv'
  rw [Function.update_apply] at hv'
  split at hv'
  · exact .inl hv'
  · next hne => exact .inr ⟨v', hne, hv'⟩

theorem Pc.Owes.setWorker {pc : Pc R} {name : Nat × Nat} {place : Nat} {v' : Fin m}
    (h : (w.workers v').Owes name place)
    (hself : (w.workers v).Owes name place → pc.Owes name place) :
    (({ w with files := files }.setWorker v pc).workers v').Owes name place := by
  show (Function.update w.workers v pc v').Owes name place
  rw [Function.update_apply]
  split
  · next heq => exact hself (heq ▸ h)
  · exact h

/-- What is covered stays so if the file does and what is owed for it is owed still. -/
theorem Site.Covered.mono {X part : Nat} (h : w.Covered app json inputs nReduce X part)
    (hfile : w'.files (X, part) = w.files (X, part))
    (howes : ∀ v place, (w.workers v).Owes (X, part) place →
      (w'.workers v).Owes (X, part) place) : w'.Covered app json inputs nReduce X part := by
  obtain ⟨content, hcontent, hlen, hplaces⟩ := h
  refine ⟨content, hfile.trans hcontent, hlen, fun place kv hkv => ?_⟩
  exact (hplaces place kv hkv).imp_right fun ⟨v, hv⟩ => ⟨v, howes v place hv⟩

/-- A covered file that nobody fills is complete. -/
theorem Site.Covered.complete {X part : Nat} (h : w.Covered app json inputs nReduce X part)
    (hnone : ∀ v, ¬ (w.workers v).Fills (X, part)) :
    w.files (X, part) = some (records json (partOf app inputs nReduce part X)) := by
  obtain ⟨content, hcontent, hlen, hplaces⟩ := h
  rw [hcontent]
  congr 1
  refine List.ext_getElem? fun place => ?_
  rw [getElem?_records]
  cases hkv : (partOf app inputs nReduce part X)[place]? with
  | none =>
      have hle := List.getElem?_eq_none_iff.mp hkv
      exact List.getElem?_eq_none (by omega)
  | some kv => exact (hplaces place kv hkv).resolve_right fun ⟨v, hv⟩ => hnone v hv.fills

namespace SiteInv

theorem init (app : App) (json : Json R) (inputs : List String) (nReduce : Nat)
    (files : Files R) :
    SiteInv app json inputs nReduce (Site.init (m := m) inputs nReduce files) where
  tasks := .makeCoordinator inputs nReduce
  pcs := fun _ => trivial
  covered := by
    rintro X part _ (hc | ⟨v, hno, -⟩)
    · exfalso
      have hmem := List.mem_of_getElem? hc
      simp [Site.init, Job.init, Coordinator.makeCoordinator, Task.isComplete] at hmem
    · exact hno.elim
  reads := fun _ hno => by cases hno

variable (h : SiteInv app json inputs nReduce w)

include h

theorem pcInv {pc : Pc R} (hpc : w.workers v = pc) :
    PcInv app json inputs nReduce w.job.c pc := by
  rw [← hpc]
  exact h.pcs v

/-- The coordinator may do anything that leaves the map phase as it is. -/
theorem sameMaps {job : Job} (hsame : w.job.c.SameMaps job.c) :
    SiteInv app json inputs nReduce { w with job := job } where
  tasks := h.tasks.same hsame
  pcs := fun v => (h.pcs v).frame fun hd => hsame.done.trans hd
  covered := fun X part hpart hbegun =>
    h.covered X part hpart (hbegun.imp_left (hsame.mapComplete_iff X).mp)
  reads := h.reads

/-- A worker goes on, and the files may change. -/
theorem update {pc : Pc R} (hpc : PcInv app json inputs nReduce w.job.c pc)
    (hcovered : ∀ X part, part < nReduce →
      ({ w with files := files }.setWorker v pc).Begun (X, part) →
      ({ w with files := files }.setWorker v pc).Covered app json inputs nReduce X part) :
    SiteInv app json inputs nReduce ({ w with files := files }.setWorker v pc) where
  tasks := h.tasks
  pcs := by
    intro v'
    show PcInv app json inputs nReduce w.job.c (Function.update w.workers v pc v')
    rw [Function.update_apply]
    split
    · exact hpc
    · exact h.pcs v'
  covered := hcovered
  reads := h.reads

/-- A worker goes on without having created a file, and gives up only what nobody counts
on. -/
theorem quiet (files : Files R) {pc : Pc R} (hpc : PcInv app json inputs nReduce w.job.c pc)
    (hcreated : ∀ X part, part < nReduce → pc.Created (X, part) →
      (w.workers v).Created (X, part))
    (hkeeps : ∀ X part, ({ w with files := files }.setWorker v pc).Begun (X, part) →
      files (X, part) = w.files (X, part) ∧
      ∀ place, (w.workers v).Owes (X, part) place → pc.Owes (X, part) place) :
    SiteInv app json inputs nReduce ({ w with files := files }.setWorker v pc) := by
  refine h.update hpc fun X part hpart hbegun => ?_
  obtain ⟨hfile, howes⟩ := hkeeps X part hbegun
  have hbefore : w.Begun (X, part) := by
    rcases hbegun.cases_setWorker with hc | hpc | ⟨v', -, hv'⟩
    · exact .inl hc
    · exact .inr ⟨v, hcreated X part hpart hpc⟩
    · exact .inr ⟨v', hv'⟩
  exact (h.covered X part hpart hbefore).mono hfile fun v' place hv' => hv'.setWorker (howes place)

/-- A worker that fills no file goes on to something else than storing. -/
theorem release {pc : Pc R} (hpc : PcInv app json inputs nReduce w.job.c pc)
    (hfree : (w.workers v).remaining = []) (hno : ∀ X, ¬ pc.Holds X) :
    SiteInv app json inputs nReduce (w.setWorker v pc) :=
  h.quiet w.files hpc (fun X _ _ hc => absurd hc.1 (hno X)) fun _ _ _ =>
    ⟨rfl, fun _ howes => absurd howes (Pc.not_owes hfree)⟩

/-- A worker that fills its files alone stops, and may damage those that it fills. -/
theorem stop (files : Files R) {pc : Pc R} (hpc : PcInv app json inputs nReduce w.job.c pc)
    (halone : w.FillsAlone v) (hno : ∀ X, ¬ pc.Holds X)
    (hfiles : ∀ name, ¬ (w.workers v).Fills name → files name = w.files name) :
    SiteInv app json inputs nReduce ({ w with files := files }.setWorker v pc) := by
  have hnot : ∀ X part, ({ w with files := files }.setWorker v pc).Begun (X, part) →
      ¬ (w.workers v).Fills (X, part) := by
    rintro X part hbegun hfills
    obtain ⟨op, hop, hwrites⟩ := hfills.2
    have hname : op.name = (X, part) := by
      cases op with
      | create name => cases hwrites
      | encode name place record => exact of_decide_eq_true hwrites
      | close name => cases hwrites
    obtain ⟨hcomplete, hothers⟩ := halone op hop (hname ▸ hfills)
    rw [hname] at hcomplete hothers
    rcases hbegun.cases_setWorker with hc | hpc | ⟨v', hne, hv'⟩
    · exact hcomplete hc
    · exact hno X hpc.1
    · exact hothers v' hne hv'
  refine h.quiet files hpc (fun X _ _ hc => absurd hc.1 (hno X)) fun X part hbegun => ?_
  exact ⟨hfiles _ (hnot X part hbegun), fun _ howes => absurd howes.fills (hnot X part hbegun)⟩

/-- A map task that a worker holds may be reported once it has created all files. -/
theorem mapDone {X : Nat} {job : Job} (hX : X < inputs.length)
    (hfirst : w.job.c.FirstReport { taskType := "map", taskNumber := X })
    (hcreated : ∀ part, (w.workers v).Created (X, part))
    (hjob : w.job.step (.taskDone { taskType := "map", taskNumber := X }) = some job) :
    SiteInv app json inputs nReduce { w with job := job } := by
  cases hjob
  obtain ⟨htasks, hdone, hcomplete⟩ := h.tasks.taskDone hX hfirst
  refine ⟨htasks, fun v => (h.pcs v).frame hdone, fun Y part hpart hbegun => ?_, h.reads⟩
  refine h.covered Y part hpart ?_
  rcases hbegun with hc | hv
  · rcases hcomplete Y hc with rfl | hc
    · exact .inr ⟨v, hcreated part⟩
    · exact .inl hc
  · exact .inr hv

/-! ### The events -/

theorem request (hs : w.step app json (.request v) = some w') :
    SiteInv app json inputs nReduce w' := by
  simp only [Site.step] at hs
  split at hs
  · next hpc =>
    obtain ⟨job, hjob, rfl⟩ := Option.map_eq_some_iff.mp hs
    have hfree : (w.workers v).remaining = [] := by rw [hpc]; rfl
    have hsame := Job.sameMaps_of_step hjob fun _ hno => by cases hno
    cases hreply : (w.job.c.requestMapTask w.job.now).2 with
    | none =>
        have hdone := Coordinator.requestMapTask_none hreply
        exact (h.sameMaps hsame).release (hsame.done.trans hdone) hfree fun _ hno => hno
    | some reply =>
        obtain ⟨hne, hmap⟩ := Coordinator.requestMapTask_some hreply
        refine (h.sameMaps hsame).release ⟨fun htype => ?_, fun htype => absurd htype hne⟩
          hfree fun _ hno => hno
        rw [← h.tasks.number, ← h.tasks.names]
        exact hmap htype
  · cases hs

theorem requestReduce (hs : w.step app json (.requestReduce v) = some w') :
    SiteInv app json inputs nReduce w' := by
  simp only [Site.step] at hs
  split at hs
  · next hpc =>
      obtain ⟨job, hjob, rfl⟩ := Option.map_eq_some_iff.mp hs
      have hsame := Job.sameMaps_of_step hjob fun _ hno => by cases hno
      have hdone : w.job.c.mapDone = true := h.pcInv hpc
      obtain ⟨hne, hreduce⟩ := Coordinator.requestReduceTask_reply
        (rfl : (w.job.c.requestReduceTask w.job.now).2 = _)
      refine (h.sameMaps hsame).release ⟨fun htype => absurd htype hne, fun htype => ?_⟩
        (by show (w.workers v).remaining = []; rw [hpc]; rfl) fun _ hno => hno
      rw [← h.tasks.length_mapTasks, ← h.tasks.parts]
      exact ⟨hsame.done.trans hdone, hreduce htype⟩
  · cases hs

theorem start (hs : w.step app json (.start v) = some w') :
    SiteInv app json inputs nReduce w' := by
  simp only [Site.step] at hs
  split at hs
  · next reply hpc =>
      cases hs
      have hfree : (w.workers v).remaining = [] := by rw [hpc]; rfl
      obtain ⟨hmap, hreduce⟩ := h.pcInv hpc
      unfold Site.startTask
      split
      · exact h.release trivial hfree fun _ hno => hno
      · split
        · next htype =>
            obtain ⟨hn, hX⟩ := hmap htype
            rw [hn]
            refine h.quiet w.files ⟨reply.filename, hX, List.suffix_refl _⟩ ?_
              fun _ _ _ => ⟨rfl, fun _ howes => absurd howes (Pc.not_owes hfree)⟩
            -- it has all its files to create
            rintro X part hpart ⟨rfl, hcreates⟩
            have hno := hcreates _ (create_mem_storeIntermediate hpart _ _)
            simp [FileOp.creates] at hno
        · split
          · next htype =>
              obtain ⟨hdone, hn, hpart⟩ := hreduce htype
              exact h.release ⟨hdone, hn, hpart, Nat.zero_le _, Nat.zero_le _, rfl⟩ hfree
                fun _ hno => hno
          · exact h.release trivial hfree fun _ hno => hno
  · cases hs

/-- The operation that a worker does next, among all of its map task. -/
theorem next_op {X : Nat} {op : FileOp R} {rest : List (FileOp R)}
    (hpc : w.workers v = .storing X (op :: rest)) : ∃ filename, inputs[X]? = some filename ∧
      rest <:+ storeIntermediate json (app.performMap filename) nReduce X ∧
      op ∈ storeIntermediate json (app.performMap filename) nReduce X ∧
      (∀ op' ∈ rest, op'.creates op.name = false) ∧
      ∀ op' ∈ storeIntermediate json (app.performMap filename) nReduce X,
        op.creates op'.name = true → op' = op ∨ op' ∈ rest := by
  obtain ⟨filename, hX, done, hops⟩ := h.pcInv hpc
  have horder := storeIntermediate_pairwise json (app.performMap filename) nReduce X
  refine ⟨filename, hX, ?_⟩
  rw [← hops] at horder ⊢
  obtain ⟨-, htail, hbefore⟩ := List.pairwise_append.mp horder
  refine ⟨⟨done ++ [op], by simp⟩, by simp, (List.pairwise_cons.mp htail).1, ?_⟩
  intro op' hmem hcreates
  rcases List.mem_append.mp hmem with hdone | hleft
  · rw [hbefore op' hdone op List.mem_cons_self] at hcreates
    cases hcreates
  · exact List.mem_cons.mp hleft

theorem store_create {X part : Nat} {rest : List (FileOp R)}
    (hpc : w.workers v = .storing X (.create (X, part) :: rest)) :
    ({ w with files := (FileOp.create (X, part)).run w.files }.setWorker v
      (.storing X rest)).Covered app json inputs nReduce X part := by
  obtain ⟨filename, hX, -, -, honce, hall⟩ := h.next_op hpc
  refine ⟨[], Function.update_self .., Nat.zero_le _, fun place kv hkv => .inr ⟨v, ?_⟩⟩
  show (Function.update w.workers v (.storing X rest) v).Owes (X, part) place
  rw [Function.update_self]
  refine ⟨⟨rfl, honce⟩, json.encode kv, ?_⟩
  rw [partOf, hX] at hkv
  have hmem := hall _ (encode_mem_storeIntermediate.mpr ⟨kv, hkv, rfl⟩) (decide_eq_true rfl)
  exact hmem.resolve_left fun heq => by cases heq

theorem store_encode {X part place : Nat} {record : R} {rest : List (FileOp R)}
    (hpart : part < nReduce)
    (hpc : w.workers v = .storing X (.encode (X, part) place record :: rest)) :
    ({ w with files := (FileOp.encode (X, part) place record).run w.files }.setWorker v
      (.storing X rest)).Covered app json inputs nReduce X part := by
  obtain ⟨filename, hX, -, hmem, honce, -⟩ := h.next_op hpc
  have hbegun : w.Begun (X, part) := by
    refine .inr ⟨v, ?_⟩
    rw [hpc, Pc.created_cons_iff rfl]
    exact ⟨rfl, honce⟩
  obtain ⟨kv₀, hkv₀, rfl⟩ := encode_mem_storeIntermediate.mp hmem
  have hright : (partOf app inputs nReduce part X)[place]? = some kv₀ := by
    rw [partOf, hX]
    exact hkv₀
  obtain ⟨content, hcontent, hlen, hplaces⟩ := h.covered X part hpart hbegun
  refine ⟨content.writeAt place (some (json.encode kv₀)), ?_, ?_, fun place' kv hkv => ?_⟩
  · show Function.update w.files (X, part) _ (X, part) = _
    rw [Function.update_self, hcontent, Option.map_some]
  · have hlt := (List.getElem?_eq_some_iff.mp hright).1
    rw [Content.length_writeAt]
    omega
  · by_cases hplace : place' = place
    · rw [hplace, hright] at hkv
      cases hkv
      rw [hplace]
      exact .inl (Content.getElem?_writeAt_self ..)
    · rcases hplaces place' kv hkv with hthere | ⟨v', hv'⟩
      · have hlt := (List.getElem?_eq_some_iff.mp hthere).1
        rw [Content.getElem?_writeAt_of_ne hlt hplace]
        exact .inl hthere
      · refine .inr ⟨v', hv'.setWorker fun hself => ?_⟩
        rw [hpc] at hself
        refine hself.tail fun record heq => hplace ?_
        cases heq
        rfl

/-- A file that an operation neither creates nor writes. -/
theorem store_other {X : Nat} {op : FileOp R} {rest : List (FileOp R)} {name : Nat × Nat}
    (hpc : w.workers v = .storing X (op :: rest)) (hpart : name.2 < nReduce)
    (hcreates : op.creates name = false) (hwrites : ∀ place record, op ≠ .encode name place record)
    (hbegun : ({ w with files := op.run w.files }.setWorker v (.storing X rest)).Begun name) :
    ({ w with files := op.run w.files }.setWorker v (.storing X rest)).Covered app json inputs
      nReduce name.1 name.2 := by
  have hfile : op.run w.files name = w.files name := by
    cases op with
    | create name' => exact FileOp.run_of_ne _ (of_decide_eq_false hcreates)
    | encode name' place record =>
        exact FileOp.run_of_ne _ fun heq => hwrites place record (heq ▸ rfl)
    | close name' => rfl
  have hbefore : w.Begun name := by
    rcases hbegun.cases_setWorker with hc | hcreated | ⟨v', -, hv'⟩
    · exact .inl hc
    · refine .inr ⟨v, ?_⟩
      rw [hpc, Pc.created_cons_iff hcreates]
      exact hcreated
    · exact .inr ⟨v', hv'⟩
  refine (h.covered name.1 name.2 hpart hbefore).mono hfile fun v' place hv' => ?_
  refine hv'.setWorker fun hself => ?_
  rw [hpc] at hself
  exact hself.tail (hwrites place)

theorem store (hs : w.step app json (.store v) = some w') :
    SiteInv app json inputs nReduce w' := by
  simp only [Site.step] at hs
  split at hs
  · next X op rest hpc =>
      cases hs
      obtain ⟨filename, hX, hrest, hmem, -⟩ := h.next_op hpc
      have hname : op.name.1 = X := name_of_mem_storeIntermediate hmem
      refine h.update ⟨filename, hX, hrest⟩ fun Y part hpart hbegun => ?_
      by_cases hop : op.name = (Y, part)
      · cases op with
        | create name =>
            cases hop
            cases hname
            exact h.store_create hpc
        | encode name place record =>
            cases hop
            cases hname
            exact h.store_encode hpart hpc
        | close name =>
            exact h.store_other hpc hpart rfl (fun _ _ heq => by cases heq) hbegun
      · refine h.store_other hpc hpart (FileOp.creates_of_name_ne hop) (fun _ _ heq => ?_) hbegun
        rw [heq] at hop
        exact hop rfl
  · next X hpc =>
      cases hs
      obtain ⟨filename, hX, -⟩ := h.pcInv hpc
      refine h.quiet w.files (fun _ => (List.getElem?_eq_some_iff.mp hX).1) ?_ ?_
      · rintro Y part _ ⟨⟨-, rfl⟩, -⟩
        rw [hpc]
        exact ⟨rfl, fun _ hno => by cases hno⟩
      · exact fun _ _ _ => ⟨rfl, fun _ howes => absurd howes (Pc.not_owes (by rw [hpc]; rfl))⟩
  · cases hs

theorem storeFails {torn : Bool} (hok : w.FillsAlone v)
    (hs : w.step app json (.storeFails v torn) = some w') :
    SiteInv app json inputs nReduce w' := by
  simp only [Site.step] at hs
  split at hs
  · next X op rest hpc =>
      split at hs
      · cases hs
        obtain ⟨filename, hX, -, hmem, honce, -⟩ := h.next_op hpc
        refine h.stop _ trivial hok (fun _ hno => hno) fun name hname => ?_
        by_cases hop : op.name = name
        · cases op with
          | create name' => rfl
          | encode name' place record =>
              -- the worker fills this file
              refine absurd ?_ hname
              have hX' : name'.1 = X := name_of_mem_storeIntermediate hmem
              cases hop
              rw [hpc]
              refine ⟨(Pc.created_cons_iff rfl).mpr ⟨hX'.symm, honce⟩, _, List.mem_cons_self, ?_⟩
              exact decide_eq_true rfl
          | close name' => rfl
        · exact op.fail_of_ne w.files torn hop
      · cases hs
  · cases hs

/-- When a worker reads, the files of its partition are there. -/
theorem covered_of_reading {part numMapTasks i place : Nat} {intermediate : List KeyValue}
    (hpc : w.workers v = .reading part numMapTasks i place intermediate) (hi : i < numMapTasks) :
    w.Covered app json inputs nReduce i part := by
  obtain ⟨hdone, hn, hpart, -⟩ := h.pcInv hpc
  exact h.covered i part hpart (.inl (h.tasks.mapComplete_of_mapDone hdone (hn ▸ hi)))

theorem read (hjson : ∀ kv ∈ app.emitted inputs, json.decode (json.encode kv) = some kv)
    (hok : w.ReadsFilled (.read v)) (hs : w.step app json (.read v) = some w') :
    SiteInv app json inputs nReduce w' := by
  simp only [Site.step] at hs
  split at hs
  · next part numMapTasks i place intermediate hpc =>
      have hfree : (w.workers v).remaining = [] := by rw [hpc]; rfl
      obtain ⟨hdone, hn, hpart, hle, hplace, hacc⟩ := h.pcInv hpc
      split at hs
      · next hi =>
          cases hs
          have hlt : i < inputs.length := by omega
          have hfilled := hok (i, part) (by rw [hpc]; rfl)
          rw [readRecord_records ((h.covered_of_reading hpc hi).complete hfilled)
            fun kv hkv => hjson kv (mem_emitted_of_mem_partOf hkv)]
          cases hkv : (partOf app inputs nReduce part i)[place]? with
          | some kv =>
              obtain ⟨hlen, -⟩ := List.getElem?_eq_some_iff.mp hkv
              refine h.release ⟨hdone, hn, hpart, hle, hlen, ?_⟩ hfree fun _ hno => hno
              rw [hacc, List.append_assoc, List.take_add_one, hkv]
              rfl
          | none =>
              have hlen := List.getElem?_eq_none_iff.mp hkv
              refine h.release ⟨hdone, hn, hpart, hlt, Nat.zero_le _, ?_⟩ hfree fun _ hno => hno
              rw [hacc, List.take_of_length_le hlen, bucket_emitted_succ, List.take_zero,
                List.append_nil]
      · next hi =>
          cases hs
          have hend : i = inputs.length := by omega
          have hall : intermediate = bucket nReduce part (app.emitted inputs) := by
            rw [hacc, hend, List.take_length]
            simp [partOf, bucket]
          have hreads : SiteInv app json inputs nReduce
              { w with reads := w.reads ++ [(part, intermediate)] } := by
            refine { h with reads := fun r hr => ?_ }
            rcases List.mem_append.mp hr with hr | hr
            · exact h.reads r hr
            · rw [List.mem_singleton.mp hr]
              exact hall
          exact hreads.release (fun hno => absurd hno (by decide)) hfree fun _ hno =>
            absurd hno.1 (by decide)
  · cases hs

theorem report (hok : w.ReportsStored (.report v))
    (hs : w.step app json (.report v) = some w') : SiteInv app json inputs nReduce w' := by
  simp only [Site.step] at hs
  split at hs
  · next args hargs =>
      obtain ⟨job, hjob, rfl⟩ := Option.map_eq_some_iff.mp hs
      have hjob' : SiteInv app json inputs nReduce { w with job := job } := by
        rcases reported_cases hargs with ⟨taskType, X, hpc, rfl⟩ | ⟨X, hpc⟩
        · by_cases htype : taskType = "map"
          · subst htype
            refine h.mapDone (v := v) (h.pcInv hpc rfl) (hok.2 _ hargs rfl) (fun part => ?_) hjob
            rw [hpc]
            exact ⟨⟨rfl, rfl⟩, fun _ hno => by cases hno⟩
          · refine h.sameMaps (Job.sameMaps_of_step hjob ?_)
            intro args hargs
            cases hargs
            exact htype
        · exact absurd hpc (hok.1 X)
      exact hjob'.release trivial (reported_remaining hargs) fun _ hno => hno
  · cases hs

theorem step (hjson : ∀ kv ∈ app.emitted inputs, json.decode (json.encode kv) = some kv)
    {ev : Event m} (hok : w.Orderly ev) (hs : w.step app json ev = some w') :
    SiteInv app json inputs nReduce w' := by
  cases ev with
  | request v => exact h.request hs
  | requestReduce v => exact h.requestReduce hs
  | start v => exact h.start hs
  | store v => exact h.store hs
  | storeFails v torn => exact h.storeFails hok.alone hs
  | read v => exact h.read hjson hok.filled hs
  | report v => exact h.report hok.stored hs
  | reportFails v =>
      simp only [Site.step] at hs
      split at hs
      · next args hargs =>
          cases hs
          exact h.release trivial (reported_remaining hargs) fun _ hno => hno
      · cases hs
  | crash v =>
      cases hs
      exact h.stop w.files trivial hok.alone (fun _ hno => hno) fun _ _ => rfl
  | doneMutex =>
      obtain ⟨job, hjob, rfl⟩ := Option.map_eq_some_iff.mp hs
      exact h.sameMaps (Job.sameMaps_of_step hjob fun _ hno => by cases hno)
  | done =>
      obtain ⟨job, hjob, rfl⟩ := Option.map_eq_some_iff.mp hs
      exact h.sameMaps (Job.sameMaps_of_step hjob fun _ hno => by cases hno)
  | sleep d =>
      cases hs
      exact h.sameMaps (.refl _)

end SiteInv

theorem siteInv_path (hjson : ∀ kv ∈ app.emitted inputs, json.decode (json.encode kv) = some kv)
    (h : Run.Path (Site.step app json) Site.Orderly (Site.init (m := m) inputs nReduce files) w) :
    SiteInv app json inputs nReduce w :=
  h.invariant (fun _ _ _ hinv hok hs => hinv.step hjson hok hs)
    (.init app json inputs nReduce files)

end Steps

/-- In an orderly run every reduce task gets all pairs of its partition that the map tasks
emit, each as often as it is emitted, and no file that it reads is missing. -/
theorem reduce_input_complete {app : App} {json : Json R} {inputs : List String} {nReduce : Nat}
    (hjson : ∀ kv ∈ app.emitted inputs, json.decode (json.encode kv) = some kv)
    {files : Files R} {w : Site m R}
    (h : Run.Path (Site.step app json) Site.Orderly (Site.init inputs nReduce files) w) :
    (∀ r intermediate, (r, intermediate) ∈ w.reads →
      intermediate = bucket nReduce r (app.emitted inputs)) ∧
    ∀ v part numMapTasks i place intermediate,
      w.workers v = .reading part numMapTasks i place intermediate → i < numMapTasks →
      w.files (i, part) ≠ none := by
  have hinv := siteInv_path hjson h
  refine ⟨fun r intermediate hr => hinv.reads _ hr, ?_⟩
  intro v part numMapTasks i place intermediate hpc hi
  obtain ⟨content, hcontent, -⟩ := hinv.covered_of_reading hpc hi
  rw [hcontent]
  exact Option.some_ne_none content

/-- Two files.  The first worker is slow, its map task is taken back after the timeout, and
the other one stores it at the same time; the report of that one is lost.  It crashes in the
second map task, which the first worker does again after another timeout. -/
def storedTwice : List (Event 2) :=
  List.flatten [
    [.request 0, .start 0, .store 0, .store 0, .store 0],
    [.sleep 10000000000, .doneMutex, .done],
    [.request 1, .start 1, .store 1, .store 0, .store 1, .store 1, .store 0],
    List.replicate 5 (.store 1), [.reportFails 1], List.replicate 3 (.store 0), [.report 0],
    [.request 1, .start 1, .store 1, .store 1, .crash 1],
    [.sleep 10000000000, .doneMutex, .done],
    [.request 0, .start 0], List.replicate 6 (.store 0), [.report 0],
    [.request 0, .requestReduce 0, .start 0], List.replicate 5 (.read 0)]

theorem reduce_input_complete_storedTwice : ∃ w : Site 2 KeyValue,
    Run.Path (Site.step wordCount (Json.mk id some)) Site.Orderly
      (Site.init ["a", "b"] 2 fun _ => none) w ∧
    w.reads = [(0, [⟨[121], [49]⟩, ⟨[121], [49]⟩])] ∧
    ∀ r intermediate, (r, intermediate) ∈ w.reads →
      intermediate = bucket 2 r (wordCount.emitted ["a", "b"]) := by
  have hrun : (Run.exec (Site.step wordCount (Json.mk id some)) Site.Orderly
      (Site.init ["a", "b"] 2 fun _ => none) storedTwice).map Site.reads =
        some [(0, [⟨[121], [49]⟩, ⟨[121], [49]⟩])] := by
    decide +kernel
  obtain ⟨w, hpath, hreads⟩ := Run.path_of_exec_map storedTwice _ hrun
  exact ⟨w, hpath, hreads, (reduce_input_complete (fun _ _ => rfl) hpath).1⟩

/-- The worker cannot write its only pair, and reports the map task all the same. -/
def writeFails : List (Event 1) :=
  [.request 0, .start 0, .store 0, .storeFails 0 false, .report 0,
   .request 0, .requestReduce 0, .start 0, .read 0, .read 0]

/-- A worker is so slow that the map task is given to another one, which stores and reports
it; then it creates its file anew while the reduce task is about to read it. -/
def slowWorker : List (Event 2) :=
  [.request 0, .sleep 10000000000, .doneMutex, .done,
   .request 1, .start 1, .store 1, .store 1, .store 1, .store 1, .report 1,
   .request 1, .requestReduce 1, .start 1,
   .start 0, .store 0, .read 1, .read 1]

theorem reduce_input_incomplete :
    bucket 1 0 (wordCount.emitted ["b"]) = [⟨[121], [49]⟩] ∧
    (∃ w : Site 1 KeyValue, Run.Path (Site.step wordCount (Json.mk id some)) Run.always
      (Site.init ["b"] 1 fun _ => none) w ∧ w.reads = [(0, [])]) ∧
    ∃ w : Site 2 KeyValue, Run.Path (Site.step wordCount (Json.mk id some)) Run.always
      (Site.init ["b"] 1 fun _ => none) w ∧ w.reads = [(0, [])] := by
  have hfails : (Run.exec (Site.step wordCount (Json.mk id some)) Run.always
      (Site.init ["b"] 1 fun _ => none) writeFails).map Site.reads = some [(0, [])] := by
    decide +kernel
  have hslow : (Run.exec (Site.step wordCount (Json.mk id some)) Run.always
      (Site.init ["b"] 1 fun _ => none) slowWorker).map Site.reads = some [(0, [])] := by
    decide +kernel
  exact ⟨by decide +kernel, Run.path_of_exec_map writeFails _ hfails,
    Run.path_of_exec_map slowWorker _ hslow⟩

end Mr
end Labs
