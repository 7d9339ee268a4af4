import Labs.Mr.Worker
import Mathlib.Data.List.Induction
import Mathlib.Data.List.Perm.Basic
import Mathlib.Data.List.Sort

/-!
# MapReduce against the sequential program

The distributed job splits the pairs by the hash of their key and reduces each part for
itself; `mrsequential` collects all pairs in one slice and goes through it by index.  Every
key falls into one part, so the calls of Reduce are the same up to the order of the values,
and the lines are the same up to their order: one for each key, with all its values.
-/

namespace Labs
namespace Mr

open Models Grouping

variable {R : Type}

/-- What is assumed of `sort.Sort(ByKey(..))`. -/
structure SortsByKey (sort : List KeyValue → List KeyValue) : Prop where
  perm : ∀ l, (sort l).Perm l
  sorted : ∀ l, (sort l).Pairwise fun a b => ¬ b.key < a.key

/-- The pairs that the map tasks emit. -/
def App.emitted (app : App) (inputs : List String) : List KeyValue :=
  inputs.flatMap app.performMap

/-! ## The sequential program -/

/-- The inner loop of `mrsequential`: `j` goes up while the pair at `j` has the key.  The fuel
bounds the number of turns. -/
def sameKeyEnd (intermediate : List KeyValue) (key : Str) : Nat → Nat → Nat
  | 0, j => j
  | fuel + 1, j =>
    match intermediate[j]? with
    | some kv => if kv.key = key then sameKeyEnd intermediate key fuel (j + 1) else j
    | none => j

/-- The outer loop of `mrsequential`, from index `i` on: the lines it prints. -/
def printFrom (reducef : Str → List Str → Str) (intermediate : List KeyValue) :
    Nat → Nat → List Str
  | 0, _ => []
  | fuel + 1, i =>
    match intermediate[i]? with
    | some kv =>
      let j := sameKeyEnd intermediate kv.key intermediate.length (i + 1)
      let values := ((intermediate.take j).drop i).map KeyValue.value
      (kv.key ++ [32] ++ reducef kv.key values ++ [10]) ::
        printFrom reducef intermediate fuel j
    | none => []

/-- The lines that `mrsequential` prints. -/
def mrsequential (app : App) (sort : List KeyValue → List KeyValue) (inputs : List String) :
    List Str :=
  let intermediate := sort (inputs.foldl
    (fun intermediate filename => intermediate ++ app.mapf filename (app.content filename)) [])
  printFrom app.reducef intermediate intermediate.length 0

theorem sameKeyEnd_eq (intermediate : List KeyValue) (key : Str) {fuel j : Nat}
    (hfuel : intermediate.length ≤ j + fuel) :
    sameKeyEnd intermediate key fuel j =
      j + ((intermediate.drop j).takeWhile fun kv => kv.key = key).length := by
  induction fuel generalizing j with
  | zero =>
      rw [List.drop_eq_nil_of_le (show intermediate.length ≤ j from hfuel)]
      rfl
  | succ fuel ih =>
      by_cases hj : j < intermediate.length
      · rw [sameKeyEnd, List.getElem?_eq_getElem hj, List.drop_eq_getElem_cons hj]
        dsimp only
        split
        · next hkey =>
            rw [ih (by omega), List.takeWhile_cons_of_pos (by simpa using hkey),
              List.length_cons]
            omega
        · next hkey =>
            rw [List.takeWhile_cons_of_neg (by simpa using hkey)]
            rfl
      · rw [sameKeyEnd, List.getElem?_eq_none (by omega), List.drop_eq_nil_of_le (by omega)]
        rfl

/-- The run of the first pair ends where the inner loop stops. -/
theorem take_drop_sameKeyEnd {intermediate : List KeyValue} {kv : KeyValue}
    {rest : List KeyValue} {i : Nat} (hdrop : intermediate.drop i = kv :: rest) :
    let j := sameKeyEnd intermediate kv.key intermediate.length (i + 1)
    (intermediate.take j).drop i = kv :: rest.takeWhile (fun y => y.key = kv.key) ∧
      intermediate.drop j = rest.dropWhile fun y => y.key = kv.key := by
  have hrest : intermediate.drop (i + 1) = rest := by
    rw [← List.tail_drop, hdrop, List.tail_cons]
  have hsplit := List.takeWhile_append_dropWhile (p := fun y : KeyValue => y.key = kv.key)
    (l := rest)
  dsimp only
  rw [sameKeyEnd_eq _ _ (by omega), hrest]
  generalize rest.takeWhile (fun y => y.key = kv.key) = run at hsplit ⊢
  generalize rest.dropWhile (fun y => y.key = kv.key) = later at hsplit ⊢
  constructor
  · rw [List.drop_take, hdrop, show i + 1 + run.length - i = run.length + 1 by omega,
      List.take_succ_cons, ← hsplit, List.take_left]
  · rw [← List.drop_drop, hrest, ← hsplit, List.drop_left]

/-- The two loops of `mrsequential` write what `performReduce` writes. -/
theorem printFrom_eq (reducef : Str → List Str → Str) (intermediate : List KeyValue)
    (fuel i : Nat) : printFrom reducef intermediate fuel i =
      (runs KeyValue.key fuel (intermediate.drop i)).map fun (key, kvs) =>
        line key (reducef key (kvs.map KeyValue.value)) := by
  induction fuel generalizing i with
  | zero => rfl
  | succ fuel ih =>
      cases hdrop : intermediate.drop i with
      | nil =>
          have hnone : intermediate[i]? = none :=
            List.getElem?_eq_none (List.drop_eq_nil_iff.mp hdrop)
          rw [printFrom, hnone]
          rfl
      | cons kv rest =>
          have hsome : intermediate[i]? = some kv := by
            rw [← List.head?_drop, hdrop, List.head?_cons]
          obtain ⟨htake, hlater⟩ := take_drop_sameKeyEnd hdrop
          rw [printFrom, hsome]
          dsimp only
          rw [ih, htake, hlater, runs, List.map_cons]
          rfl

theorem mrsequential_eq (app : App) (sort : List KeyValue → List KeyValue)
    (inputs : List String) :
    mrsequential app sort inputs = performReduce app.reducef (sort (app.emitted inputs)) := by
  have hcollect : inputs.foldl (fun intermediate filename =>
      intermediate ++ app.mapf filename (app.content filename)) [] = app.emitted inputs := by
    rw [List.foldl_append_eq_append, List.nil_append]
    rfl
  rw [mrsequential, hcollect, printFrom_eq, List.drop_zero, performReduce, reduceCalls,
    List.map_map]
  rfl

/-! ## The reduce tasks -/

/-- Map task `X` is done, and no file operation fails. -/
def App.doMap (app : App) (json : Json R) (nReduce : Nat) (inputs : List String)
    (files : Files R) (X : Nat) : Files R :=
  match inputs[X]? with
  | some filename => runOps files (storeIntermediate json (app.performMap filename) nReduce X)
  | none => files

/-- All values of a key. -/
def valuesOf (key : Str) (kva : List KeyValue) : List Str :=
  (having KeyValue.key key kva).map KeyValue.value

section Calls

variable {sort : List KeyValue → List KeyValue}

/-- Each key is reduced once, with all its values in some order. -/
theorem reduceCalls_sort (hsort : SortsByKey sort) (kva : List KeyValue) :
    ∃ ks : List Str, ks.Nodup ∧ (∀ k, k ∈ ks ↔ having KeyValue.key k kva ≠ []) ∧
      (∀ k, (valuesOf k (sort kva)).Perm (valuesOf k kva)) ∧
      reduceCalls (sort kva) = ks.map fun k => (k, valuesOf k (sort kva)) := by
  obtain ⟨ks, hnodup, hmem, heq⟩ := @runs_eq KeyValue Str _ KeyValue.key (fun a b => ¬ b < a)
    (fun a b hab hba => List.le_antisymm hab hba) _ _ (hsort.sorted kva) (Nat.le_refl _)
  have hperm : ∀ k, (having KeyValue.key k (sort kva)).Perm (having KeyValue.key k kva) :=
    fun k => (hsort.perm kva).filter _
  refine ⟨ks, hnodup, fun k => ?_, fun k => (hperm k).map _, ?_⟩
  · rw [hmem, ← List.length_pos_iff, ← List.length_pos_iff, (hperm k).length_eq]
  · rw [reduceCalls, heq, List.map_map]
    rfl

/-- The calls that a key gets when all pairs are reduced. -/
theorem filter_reduceCalls (hsort : SortsByKey sort) (k : Str) (kva : List KeyValue) :
    (reduceCalls (sort kva)).filter (fun call => call.1 = k) =
      if having KeyValue.key k kva = [] then [] else [(k, valuesOf k (sort kva))] := by
  obtain ⟨ks, hnodup, hmem, -, heq⟩ := reduceCalls_sort hsort kva
  rw [heq, List.filter_map]
  show (ks.filter fun k' => k' = k).map _ = _
  rw [List.filter_eq, hnodup.count]
  by_cases hk : having KeyValue.key k kva = []
  · rw [if_pos hk, if_neg fun hin => (hmem k).mp hin hk]
    rfl
  · rw [if_neg hk, if_pos ((hmem k).mpr hk)]
    rfl

/-- The line that a key gets. -/
def lineOf (reducef : Str → List Str → Str) (kva : List KeyValue) (key : Str) : Str :=
  line key (reducef key (valuesOf key kva))

variable {reducef : Str → List Str → Str}

/-- A Reduce that does not look at the order of the values gives each key its line. -/
theorem performReduce_sort (hsort : SortsByKey sort)
    (hreduce : ∀ key vs vs', vs.Perm vs' → reducef key vs = reducef key vs')
    (kva : List KeyValue) :
    ∃ ks : List Str, ks.Nodup ∧ (∀ k, k ∈ ks ↔ having KeyValue.key k kva ≠ []) ∧
      performReduce reducef (sort kva) = ks.map (lineOf reducef kva) := by
  obtain ⟨ks, hnodup, hmem, hvalues, heq⟩ := reduceCalls_sort hsort kva
  refine ⟨ks, hnodup, hmem, ?_⟩
  rw [performReduce, heq, List.map_map]
  refine List.map_congr_left fun k _ => ?_
  show line k (reducef k (valuesOf k (sort kva))) = line k (reducef k (valuesOf k kva))
  rw [hreduce k _ _ (hvalues k)]

/-- A key has its pairs in the part of its hash, and none in the others. -/
theorem having_bucket (nReduce part : Nat) (k : Str) (kva : List KeyValue) :
    having KeyValue.key k (bucket nReduce part kva) =
      if part = ihash k % nReduce then having KeyValue.key k kva else [] := by
  unfold having bucket
  rw [List.filter_filter]
  split
  · next heq =>
      refine List.filter_congr fun kv _ => ?_
      rw [Bool.eq_iff_iff]
      simp only [Bool.and_eq_true, decide_eq_true_eq]
      constructor
      · exact fun h => h.1
      · intro h
        exact ⟨h, by rw [h, heq]⟩
  · next hne =>
      refine List.filter_eq_nil_iff.mpr fun kv _ => ?_
      simp only [Bool.and_eq_true, decide_eq_true_eq]
      rintro ⟨hkey, hpart⟩
      exact hne (by rw [← hpart, hkey])

/-- The parts together have the keys of all pairs. -/
theorem flatMap_keys_perm {nReduce : Nat} (hn : 1 ≤ nReduce) {kva : List KeyValue}
    {ks : List Str} {parts : Nat → List Str} (hnodup : ks.Nodup)
    (hmem : ∀ k, k ∈ ks ↔ having KeyValue.key k kva ≠ [])
    (hparts : ∀ r, (parts r).Nodup ∧
      ∀ k, k ∈ parts r ↔ having KeyValue.key k (bucket nReduce r kva) ≠ []) :
    ((List.range nReduce).flatMap parts).Perm ks := by
  refine List.Perm.trans ?_
    (flatMap_bucket_perm (fun k => ihash k % nReduce) fun k _ => Nat.mod_lt _ hn)
  refine List.Perm.flatMap_left _ fun r _ => ?_
  refine (List.perm_ext_iff_of_nodup (hparts r).1 (hnodup.filter _)).mpr fun k => ?_
  rw [(hparts r).2, having_bucket, List.mem_filter, hmem, decide_eq_true_eq]
  by_cases hr : r = ihash k % nReduce
  · rw [if_pos hr]
    exact ⟨fun h => ⟨h, hr.symm⟩, fun h => h.1⟩
  · rw [if_neg hr]
    exact ⟨fun h => absurd rfl h, fun h => absurd h.2.symm hr⟩

end Calls

/-! ## Storing the map tasks -/

section Store

variable {app : App} {json : Json R} {inputs : List String} {nReduce : Nat}

theorem stored_doMap (hn : 1 ≤ nReduce) (files : Files R) {X : Nat} {filename : String}
    (hX : inputs[X]? = some filename) :
    Stored json (app.doMap json nReduce inputs files X) nReduce X (app.performMap filename) := by
  rw [App.doMap, hX]
  exact stored_runOps json files (app.performMap filename) hn X

theorem Stored.doMap {files : Files R} {X X' : Nat} (hne : X' ≠ X) {kva : List KeyValue}
    (h : Stored json files nReduce X kva) :
    Stored json (app.doMap json nReduce inputs files X') nReduce X kva := by
  intro part hpart
  unfold App.doMap
  cases inputs[X']? with
  | none => exact h part hpart
  | some filename =>
      dsimp only
      rw [runOps_of_ne, h part hpart]
      intro op hop heq
      have hname := name_of_mem_storeIntermediate hop
      rw [heq] at hname
      exact hne hname.symm

/-- However the map tasks are ordered, each leaves its files complete. -/
theorem stored_foldl_doMap (hn : 1 ≤ nReduce) (start : Files R) {order : List Nat} {X : Nat}
    (hmem : X ∈ order) {filename : String} (hX : inputs[X]? = some filename) :
    Stored json (order.foldl (app.doMap json nReduce inputs) start) nReduce X
      (app.performMap filename) := by
  induction order using List.reverseRecOn with
  | nil => cases hmem
  | append_singleton order last ih =>
      rw [List.foldl_append, List.foldl_cons, List.foldl_nil]
      by_cases hlast : last = X
      · rw [hlast]
        exact stored_doMap hn _ hX
      · rcases List.mem_append.mp hmem with hmem | hmem
        · exact (ih hmem).doMap hlast
        · exact absurd (List.mem_singleton.mp hmem).symm hlast

end Store

/-- The map tasks are stored, in any order, each by `storeIntermediate`; each reduce task
gets its pairs, sorts them and reduces them.  Together they print the lines that
`mrsequential` prints, which are one for each key, and each key is reduced by one task,
once, with all its values. -/
theorem output_eq_sequential (json : Json R) (app : App) {sort : List KeyValue → List KeyValue}
    {inputs : List String} {nReduce : Nat} (hn : 1 ≤ nReduce)
    (hjson : ∀ kv ∈ app.emitted inputs, json.decode (json.encode kv) = some kv)
    (hsort : SortsByKey sort)
    (hreduce : ∀ key vs vs', vs.Perm vs' → app.reducef key vs = app.reducef key vs')
    (start : Files R) {order : List Nat} (horder : ∀ X < inputs.length, X ∈ order) :
    ∃ intermediate : Nat → List KeyValue,
      (∀ r < nReduce, getIntermediate json (order.foldl (app.doMap json nReduce inputs) start) r
        inputs.length = some (intermediate r)) ∧
      ((List.range nReduce).flatMap fun r =>
        performReduce app.reducef (sort (intermediate r))).Perm (mrsequential app sort inputs) ∧
      (∃ ks : List Str, ks.Nodup ∧ (∀ k, k ∈ ks ↔ ∃ kv ∈ app.emitted inputs, kv.key = k) ∧
        mrsequential app sort inputs = ks.map fun k =>
          k ++ [32] ++ app.reducef k (valuesOf k (app.emitted inputs)) ++ [10]) ∧
      ∀ kv ∈ app.emitted inputs, ∃ vs, vs.Perm (valuesOf kv.key (app.emitted inputs)) ∧
        ∀ r < nReduce, (reduceCalls (sort (intermediate r))).filter (fun call => call.1 = kv.key) =
          if r = ihash kv.key % nReduce then [(kv.key, vs)] else [] := by
  have hpart : ∀ r, ∃ ks : List Str, ks.Nodup ∧
      (∀ k, k ∈ ks ↔ having KeyValue.key k (bucket nReduce r (app.emitted inputs)) ≠ []) ∧
      performReduce app.reducef (sort (bucket nReduce r (app.emitted inputs))) =
        ks.map (lineOf app.reducef (app.emitted inputs)) := by
    intro r
    obtain ⟨ks, hnodup, hmem, heq⟩ :=
      performReduce_sort hsort hreduce (bucket nReduce r (app.emitted inputs))
    refine ⟨ks, hnodup, hmem, heq.trans (List.map_congr_left fun k hk => ?_)⟩
    -- a key of the part has all its pairs there
    have hhas := (hmem k).mp hk
    rw [having_bucket] at hhas
    have hr : r = ihash k % nReduce := by
      by_contra hne
      rw [if_neg hne] at hhas
      exact hhas rfl
    rw [lineOf, lineOf, valuesOf, having_bucket, if_pos hr, valuesOf]
  choose parts hnodup hmem hlines using hpart
  obtain ⟨ks, hks, hkmem, hseq⟩ := performReduce_sort hsort hreduce (app.emitted inputs)
  refine ⟨fun r => bucket nReduce r (app.emitted inputs), fun r hr => ?_, ?_,
    ⟨ks, hks, fun k => ?_, ?_⟩, fun kv hkv => ?_⟩
  · have hread := @getIntermediate_stored R json (order.foldl (app.doMap json nReduce inputs) start)
      nReduce r hr (inputs.map app.performMap) ?_ ?_ inputs.length (by simp)
    · rw [hread, List.take_of_length_le (by simp)]
      rfl
    · intro kva hkva kv hkv
      exact hjson kv (List.mem_flatten.mpr ⟨kva, hkva, hkv⟩)
    · intro X kva hX
      rw [List.getElem?_map] at hX
      obtain ⟨filename, hget, rfl⟩ := Option.map_eq_some_iff.mp hX
      exact stored_foldl_doMap hn start
        (horder X (List.getElem?_eq_some_iff.mp hget).1) hget
  · rw [mrsequential_eq, hseq]
    simp only [hlines]
    rw [← List.map_flatMap]
    exact (flatMap_keys_perm hn hks hkmem fun r => ⟨hnodup r, hmem r⟩).map _
  · rw [hkmem, having_ne_nil_iff]
  · rw [mrsequential_eq, hseq]
    rfl
  · have hkey : having KeyValue.key kv.key (app.emitted inputs) ≠ [] := having_ne_nil hkv
    obtain ⟨-, -, -, hvalues, -⟩ :=
      reduceCalls_sort hsort (bucket nReduce (ihash kv.key % nReduce) (app.emitted inputs))
    refine ⟨valuesOf kv.key (sort (bucket nReduce (ihash kv.key % nReduce) (app.emitted inputs))),
      ?_, fun r hr => ?_⟩
    · refine (hvalues kv.key).trans (List.Perm.of_eq ?_)
      rw [valuesOf, having_bucket, if_pos rfl, valuesOf]
    · rw [filter_reduceCalls hsort, having_bucket]
      by_cases hr : r = ihash kv.key % nReduce
      · rw [if_pos hr, if_neg hkey, if_pos hr, hr]
      · rw [if_neg hr, if_pos rfl, if_neg hr]

/-- Files of one-letter words, which are counted. -/
def wordCount : App where
  content filename := if filename = "a" then [120, 121, 120] else [121]
  mapf _ content := content.map fun b => { key := [b], value := [49] }
  reducef _ values := [UInt8.ofNat (48 + values.length)]

def insertionSortByKey (l : List KeyValue) : List KeyValue :=
  l.insertionSort fun a b => ¬ b.key < a.key

theorem sortsByKey_insertionSort : SortsByKey insertionSortByKey where
  perm := fun l => List.perm_insertionSort _ l
  sorted := by
    have htotal : Std.Total fun a b : KeyValue => ¬ b.key < a.key :=
      ⟨fun a b => List.le_total a.key b.key⟩
    have htrans : IsTrans KeyValue fun a b => ¬ b.key < a.key :=
      ⟨fun a b c hab hbc => List.le_trans hab hbc⟩
    exact List.pairwise_insertionSort _

theorem output_eq_sequential_wordCount : ∃ intermediate : Nat → List KeyValue,
    (∀ r < 2, getIntermediate (Json.mk id some)
      ([1, 0].foldl (wordCount.doMap (Json.mk id some) 2 ["a", "b"]) fun _ => none) r 2 =
        some (intermediate r)) ∧
    ((List.range 2).flatMap fun r =>
      performReduce wordCount.reducef (insertionSortByKey (intermediate r))).Perm
        (mrsequential wordCount insertionSortByKey ["a", "b"]) ∧
    mrsequential wordCount insertionSortByKey ["a", "b"] =
      [[120, 32, 50, 10], [121, 32, 50, 10]] := by
  obtain ⟨intermediate, hread, hlines, -⟩ := @output_eq_sequential KeyValue (Json.mk id some)
    wordCount insertionSortByKey ["a", "b"] 2 (by decide) (fun kv _ => rfl) sortsByKey_insertionSort
    (fun key vs vs' h => by simp [wordCount, h.length_eq]) (fun _ => none) [1, 0] (by decide)
  exact ⟨intermediate, hread, hlines, by decide +kernel⟩

end Mr
end Labs
