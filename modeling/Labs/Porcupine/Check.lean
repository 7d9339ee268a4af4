import Labs.Porcupine.Parallel

/-!
# Checking a history

`CheckOperations`, `CheckEvents` and their variants split a history into parts by the model
and check them in parallel.  For the key/value model of the tests the parts are the
operations on each key, and what is decided is whether the history fits a map of strings.
-/

namespace Labs
namespace Porcupine

variable {I O S : Type} [DecidableEq S]

/-- The parts of a history, as entries. -/
def operationEntriesOf (model : Model I O S) (sort : List (Entry I O) → List (Entry I O))
    (history : List (Operation I O)) (i : Fin (model.partition history).length) :
    List (Entry I O) :=
  makeEntries sort ((model.partition history).get i)

def eventEntriesOf (model : Model I O S) (history : List (Event I O))
    (i : Fin (model.partitionEvent history).length) : List (Entry I O) :=
  convertEntries (renumber ((model.partitionEvent history).get i))

/-- What a run of `checkOperations` can come to. -/
def checkOperations (texts : DefaultTexts I O S) (sort : List (Entry I O) → List (Entry I O))
    (model : ModelFields I O S) (history : List (Operation I O)) (verbose timed : Bool)
    (p : Parallel ((model.fillDefault texts).partition history).length I O S) : Prop :=
  Run.Path (Parallel.step (model.fillDefault texts)
    (operationEntriesOf (model.fillDefault texts) sort history) verbose timed) Run.always
    (.start (model.fillDefault texts)
      (operationEntriesOf (model.fillDefault texts) sort history)) p

def checkEvents (texts : DefaultTexts I O S) (model : ModelFields I O S)
    (history : List (Event I O)) (verbose timed : Bool)
    (p : Parallel ((model.fillDefault texts).partitionEvent history).length I O S) : Prop :=
  Run.Path (Parallel.step (model.fillDefault texts)
    (eventEntriesOf (model.fillDefault texts) history) verbose timed) Run.always
    (.start (model.fillDefault texts) (eventEntriesOf (model.fillDefault texts) history)) p

/-- `CheckOperations` can return `ok`. -/
def CheckOperations (texts : DefaultTexts I O S) (sort : List (Entry I O) → List (Entry I O))
    (model : ModelFields I O S) (history : List (Operation I O)) (ok : Bool) : Prop :=
  ∃ p, checkOperations texts sort model history false false p ∧
    p.result.map (fun res => decide (res = .ok)) = some ok

def CheckEvents (texts : DefaultTexts I O S) (model : ModelFields I O S)
    (history : List (Event I O)) (ok : Bool) : Prop :=
  ∃ p, checkEvents texts model history false false p ∧
    p.result.map (fun res => decide (res = .ok)) = some ok

section Answers

variable {n : Nat} {model : Model I O S} {history : Fin n → List (Entry I O)}
  {parts : Fin n → List (Operation I O)}

omit [DecidableEq S] in
/-- What can be returned without a timeout. -/
theorem exists_result_iff (hes : ∀ i, EntriesOf (parts i) (history i))
    (htimes : ∀ i, ∀ a ∈ parts i, a.call ≤ a.ret) (heq : model.EqualSound) (hn : 0 < n)
    (ok : Bool) :
    (∃ p, Run.Path (Parallel.step model history false false) Run.always
      (.start model history) p ∧ p.result.map (fun res => decide (res = .ok)) = some ok) ↔
      (ok = true ↔ ∀ i, Linearizable model.init model.step (parts i)) := by
  -- a result tells whether the parts are linearizable
  have hresult : ∀ p res, Run.Path (Parallel.step model history false false) Run.always
      (.start model history) p → p.result = some res →
      (decide (res = .ok) = true ↔ ∀ i, Linearizable model.init model.step (parts i)) := by
    intro p res hpath hres
    obtain ⟨c, -, verdict, order, w, -, hmain, -⟩ := Inv.path hes htimes heq hpath
    obtain ⟨hok, hillegal, hunknown⟩ := hmain.result
    cases res with
    | ok => exact ⟨fun _ => hok hres, fun _ => rfl⟩
    | illegal =>
        refine ⟨fun h => (by cases h), fun hall => ?_⟩
        obtain ⟨i, hi⟩ := hillegal hres
        exact absurd (hall i) hi
    | unknown => cases hunknown hres
  constructor
  · rintro ⟨p, hpath, hmap⟩
    obtain ⟨res, hres, rfl⟩ := Option.map_eq_some_iff.mp hmap
    exact hresult p res hpath hres
  · intro hiff
    obtain ⟨c, hinv⟩ := inv_start model false false hes
    obtain ⟨p, hpath, hphase⟩ := hinv.exists_result hes htimes heq (.inl hn)
    obtain ⟨res, hres⟩ : ∃ res, p.result = some res := by
      rw [Parallel.result, if_pos hphase]
      exact ⟨_, rfl⟩
    refine ⟨p, hpath, Option.map_eq_some_iff.mpr ⟨res, hres, ?_⟩⟩
    exact Bool.eq_iff_iff.mpr ((hresult p res hpath hres).trans hiff.symm)

end Answers

/-! ## Events -/

/-- The model splits the events into complete parts, and loses nothing by it. -/
structure SoundPartition (model : Model I O S) (history : List (Event I O)) : Prop where
  nonempty : model.partitionEvent history ≠ []
  complete : ∀ sub ∈ model.partitionEvent history, Complete sub
  whole : (∀ sub ∈ model.partitionEvent history,
      Linearizable model.init model.step (operationsOf sub)) ↔
    Linearizable model.init model.step (operationsOf history)

/-- A model without `PartitionEvent` leaves a history as it is. -/
theorem soundPartition_default {texts : DefaultTexts I O S} {model : ModelFields I O S}
    {history : List (Event I O)} (hc : Complete history) (hpart : model.partitionEvent = none) :
    SoundPartition (model.fillDefault texts) history := by
  have hparts : (model.fillDefault texts).partitionEvent history = [history] := by
    simp [ModelFields.fillDefault, hpart, noPartition]
  refine ⟨by simp [hparts], ?_, ?_⟩
  · simpa [hparts] using hc
  · simp [hparts]

/-- `CheckEvents` returns in every run, and says whether the history is linearizable. -/
theorem checkEvents_iff {texts : DefaultTexts I O S} {model : ModelFields I O S}
    {history : List (Event I O)} (hpart : SoundPartition (model.fillDefault texts) history)
    (hequal : (model.fillDefault texts).EqualSound) :
    Run.Ends (Parallel.step (model.fillDefault texts)
      (eventEntriesOf (model.fillDefault texts) history) false false)
      (.start (model.fillDefault texts) (eventEntriesOf (model.fillDefault texts) history))
      (fun p => p.result ≠ none) ∧
    ∀ ok, CheckEvents texts model history ok ↔
      (ok = true ↔ Linearizable model.init model.step (operationsOf history)) := by
  have hes : ∀ i, EntriesOf
      (operationsOf (((model.fillDefault texts).partitionEvent history).get i))
      (eventEntriesOf (model.fillDefault texts) history i) :=
    fun i => entriesOf_renumber (hpart.complete _ (List.get_mem _ i))
  have htimes : ∀ i, ∀ a ∈ operationsOf
      (((model.fillDefault texts).partitionEvent history).get i), a.call ≤ a.ret :=
    fun i => times_operationsOf _
  have hn : 0 < ((model.fillDefault texts).partitionEvent history).length :=
    List.length_pos_iff.mpr hpart.nonempty
  refine ⟨ends_with_result hes htimes hequal hn, fun ok => ?_⟩
  refine (exists_result_iff hes htimes hequal hn ok).trans (iff_congr Iff.rfl ?_)
  refine Iff.trans ⟨fun hall sub hsub => ?_, fun hall i => hall _ (List.get_mem _ i)⟩ hpart.whole
  obtain ⟨i, rfl⟩ := List.get_of_mem hsub
  exact hall i

/-- A history of a put and a get at the same time, as events. -/
def putGetEvents : List (Event Models.KvInput Models.KvOutput) :=
  [{ clientId := 0, value := .call { op := .get, key := [120], value := [] }, id := 7 },
   { clientId := 1, value := .call { op := .put, key := [120], value := [97] }, id := 4 },
   { clientId := 1, value := .ret { value := [] }, id := 4 },
   { clientId := 0, value := .ret { value := [97] }, id := 7 }]

theorem checkEvents_iff_putGetEvents :
    Run.Ends (Parallel.step kvModel (eventEntriesOf kvModel putGetEvents) false false)
      (.start kvModel (eventEntriesOf kvModel putGetEvents)) (fun p => p.result ≠ none) ∧
    CheckEvents noTexts Models.KvModel.model putGetEvents true := by
  have hpart : SoundPartition kvModel putGetEvents := soundPartition_default (by decide) rfl
  obtain ⟨hends, hiff⟩ := checkEvents_iff hpart (equalSound_fillDefault noTexts rfl)
  refine ⟨hends, (hiff true).mpr ⟨fun _ => ?_, fun _ => rfl⟩⟩
  exact ⟨(operationsOf putGetEvents).reverse, List.reverse_perm _, by decide, by decide⟩

end Porcupine

/-! ## The key/value model -/

namespace Models

open Porcupine

namespace KvModel

variable {texts : DefaultTexts KvInput KvOutput Str}
  {sort : List (Entry KvInput KvOutput) → List (Entry KvInput KvOutput)}
  {history : List KvOperation}

theorem mem_part (i : Fin ((model.fillDefault texts).partition history).length) :
    ((model.fillDefault texts).partition history).get i ∈ partition history :=
  List.get_mem _ i

theorem entriesOf_part (hsort : SortsByTime sort) (htimes : ∀ a ∈ history, a.call ≤ a.ret)
    (i : Fin ((model.fillDefault texts).partition history).length) :
    (∀ a ∈ ((model.fillDefault texts).partition history).get i, a.call ≤ a.ret) ∧
    EntriesOf (((model.fillDefault texts).partition history).get i)
      (operationEntriesOf (model.fillDefault texts) sort history i) := by
  obtain ⟨k, -, hsub⟩ := mem_partition.mp (mem_part i)
  have htimes' : ∀ a ∈ ((model.fillDefault texts).partition history).get i, a.call ≤ a.ret := by
    intro a ha
    rw [hsub] at ha
    exact htimes a (List.mem_filter.mp ha).1
  exact ⟨htimes', entriesOf_makeEntries hsort htimes'⟩

/-- The parts are all linearizable exactly if the history fits a map. -/
theorem linearizable_parts (texts : DefaultTexts KvInput KvOutput Str)
    (htimes : ∀ a ∈ history, a.call ≤ a.ret) :
    (∀ i, Linearizable init step (((model.fillDefault texts).partition history).get i)) ↔
      Linearizable (fun _ => []) mapStep history := by
  unfold Linearizable
  rw [mapStep_eq_keyed, Locality.linearizable_keyed htimes]
  constructor
  · intro hparts k
    by_cases hk : ∃ a ∈ history, a.input.key = k
    · obtain ⟨i, hi⟩ := List.get_of_mem (mem_partition.mpr ⟨k, hk, rfl⟩)
      rw [← hi]
      exact hparts i
    · have hnil : history.filter (fun a => a.input.key = k) = [] := by
        rw [List.filter_eq_nil_iff]
        intro a ha hka
        exact hk ⟨a, ha, of_decide_eq_true hka⟩
      rw [hnil]
      exact ⟨[], .refl _, .nil, trivial⟩
  · intro hall i
    obtain ⟨k, -, hsub⟩ := mem_partition.mp (mem_part i)
    rw [hsub]
    exact hall k

/-- Whatever the order in which the goroutines move and whenever the time is up, the tests
accept and reject histories rightly. -/
theorem checkOperations_model (hsort : SortsByTime sort) (htimes : ∀ a ∈ history, a.call ≤ a.ret)
    {verbose timed : Bool}
    {p : Parallel ((model.fillDefault texts).partition history).length KvInput KvOutput Str}
    (h : checkOperations texts sort model history verbose timed p) :
    (p.result = some .ok → Linearizable (fun _ => []) mapStep history) ∧
    (p.result = some .illegal → ¬ Linearizable (fun _ => []) mapStep history) := by
  obtain ⟨c, -, verdict, order, w, -, hmain, -⟩ := Inv.path
    (fun i => (entriesOf_part hsort htimes i).2) (fun i => (entriesOf_part hsort htimes i).1)
    (equalSound_fillDefault texts rfl) h
  obtain ⟨hok, hillegal, -⟩ := hmain.result
  rw [← linearizable_parts texts htimes]
  refine ⟨hok, fun hres hall => ?_⟩
  obtain ⟨i, hi⟩ := hillegal hres
  exact hi (hall i)

/-- The stale read of one key is found while the other is searched. -/
theorem checkOperations_model_twoKeys :
    ∃ p, checkOperations noTexts (List.insertionSort fun a b => b.less a = false) model
      (twoPuts ++ staleGet) false true p ∧ p.result = some .illegal ∧
      ¬ Linearizable (fun _ => []) mapStep (twoPuts ++ staleGet) := by
  have hexec : (Run.exec (Parallel.step (model.fillDefault noTexts) (operationEntriesOf
      (model.fillDefault noTexts) (List.insertionSort fun a b => b.less a = false)
      (twoPuts ++ staleGet)) false true) Run.always (.start (model.fillDefault noTexts)
      (operationEntriesOf (model.fillDefault noTexts) (List.insertionSort fun a b =>
      b.less a = false) (twoPuts ++ staleGet)))
      [.turn ⟨0, by decide⟩, .turn ⟨1, by decide⟩, .turn ⟨1, by decide⟩, .send ⟨1, by decide⟩,
        .receive, .turn ⟨0, by decide⟩, .report fun _ => []]).map Parallel.result =
      some (some .illegal) := by
    decide +kernel
  obtain ⟨p, hpath, hres⟩ := Run.path_of_exec_map _ _ hexec
  exact ⟨p, hpath, hres,
    (checkOperations_model sortsByTime_insertionSort (by decide) hpath).2 hres⟩

/-- `CheckOperations` returns in every run, and says whether the history fits a map. -/
theorem checkOperations_iff (hsort : SortsByTime sort) (htimes : ∀ a ∈ history, a.call ≤ a.ret)
    (hne : history ≠ []) :
    Run.Ends (Parallel.step (model.fillDefault texts)
      (operationEntriesOf (model.fillDefault texts) sort history) false false)
      (.start (model.fillDefault texts)
        (operationEntriesOf (model.fillDefault texts) sort history))
      (fun p => p.result ≠ none) ∧
    ∀ ok, CheckOperations texts sort model history ok ↔
      (ok = true ↔ Linearizable (fun _ => []) mapStep history) := by
  have hn : 0 < ((model.fillDefault texts).partition history).length := by
    obtain ⟨a, ha⟩ := List.exists_mem_of_ne_nil history hne
    exact List.length_pos_of_mem (mem_partition.mpr ⟨a.input.key, ⟨a, ha, rfl⟩, rfl⟩)
  have hes := fun i => (@entriesOf_part texts sort history hsort htimes i).2
  have htimes' := fun i => (@entriesOf_part texts sort history hsort htimes i).1
  have hequal : (model.fillDefault texts).EqualSound := equalSound_fillDefault texts rfl
  rw [← linearizable_parts texts htimes]
  exact ⟨ends_with_result hes htimes' hequal hn,
    fun ok => exists_result_iff hes htimes' hequal hn ok⟩

theorem checkOperations_iff_putGet :
    Run.Ends (Parallel.step (model.fillDefault noTexts) (operationEntriesOf
      (model.fillDefault noTexts) (List.insertionSort fun a b => b.less a = false) putGet)
      false false) (.start (model.fillDefault noTexts) (operationEntriesOf
      (model.fillDefault noTexts) (List.insertionSort fun a b => b.less a = false) putGet))
      (fun p => p.result ≠ none) ∧
    CheckOperations noTexts (List.insertionSort fun a b => b.less a = false) model putGet true := by
  obtain ⟨hends, hiff⟩ := @checkOperations_iff noTexts _ putGet sortsByTime_insertionSort
    (by decide) (by decide)
  refine ⟨hends, (hiff true).mpr ⟨fun _ => ?_, fun _ => rfl⟩⟩
  exact ⟨putGet.reverse, List.reverse_perm _, by decide, by decide⟩

/-- A history without operations is never accepted nor rejected, and without a timeout there
is no end. -/
theorem checkOperations_nil {verbose timed : Bool}
    {p : Parallel ((model.fillDefault texts).partition []).length KvInput KvOutput Str}
    (h : checkOperations texts sort model [] verbose timed p) :
    p.result = none ∨ timed = true ∧ p.result = some .unknown :=
  checkParallel_nothing rfl h

theorem checkOperations_nil_timeout :
    ∃ p, checkOperations noTexts (List.insertionSort fun a b => b.less a = false) model [] true
      true p ∧ p.result = some .unknown ∧
      (p.result = none ∨ true = true ∧ p.result = some .unknown) := by
  have hexec : (Run.exec (Parallel.step (model.fillDefault noTexts) (operationEntriesOf
      (model.fillDefault noTexts) (List.insertionSort fun a b => b.less a = false) [])
      true true) Run.always (.start (model.fillDefault noTexts) (operationEntriesOf
      (model.fillDefault noTexts) (List.insertionSort fun a b => b.less a = false) []))
      [.timeout, .report fun _ => []]).map Parallel.result = some (some .unknown) := by
    decide +kernel
  obtain ⟨p, hpath, hres⟩ := Run.path_of_exec_map _ _ hexec
  exact ⟨p, hpath, hres, checkOperations_nil hpath⟩

end KvModel
end Models
end Labs
