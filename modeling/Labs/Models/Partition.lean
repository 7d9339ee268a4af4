import Labs.Locality
import Labs.Models.Kv
import Mathlib.Data.List.Induction
import Mathlib.Data.List.Sort
import Mathlib.Data.Int.Order.Basic

/-!
# The partition of a history by key

The linearizability tests check a history of `Get`, `Put` and `Append` key by key:
`KvModel.Partition` splits it, and `KvModel.Step` is about the value of one key.  What they
are after is whether the whole history fits one map of strings.  The two are the same for
every history.
-/

namespace Labs

namespace Porcupine

/-- An operation that has returned, with the times of its call and its return. -/
structure Operation (I O : Type) where
  clientId : Int
  input : I
  call : Int
  output : O
  ret : Int
  deriving DecidableEq, Repr

/-- There is a total order of the operations in which none comes after one that was called
when it had returned, and in which every step is legal. -/
def Linearizable {I O S : Type} (init : S) (step : S → I → O → Bool × S)
    (history : List (Operation I O)) : Prop :=
  Locality.Linearizable Operation.call Operation.ret (fun s a => step s a.input a.output) init
    history

end Porcupine

namespace Models

open Porcupine

abbrev KvOperation := Operation KvInput KvOutput

/-- A map of strings, in which a missing key reads as the empty string. -/
def mapStep (st : Str → Str) (inp : KvInput) (out : KvOutput) : Bool × (Str → Str) :=
  match inp.op with
  | .get => (out.value = st inp.key, st)
  | .put => (true, Function.update st inp.key inp.value)
  | .append => (true, Function.update st inp.key (st inp.key ++ inp.value))
  | .appendReturn =>
    (out.value = st inp.key, Function.update st inp.key (st inp.key ++ inp.value))

/-- The map steps the value of one key. -/
theorem mapStep_eq_keyed : (fun st (a : KvOperation) => mapStep st a.input a.output) =
    Locality.keyed (fun a => a.input.key) fun s a => KvModel.step s a.input a.output := by
  funext st a
  obtain ⟨clientId, ⟨op, key, value⟩, call, out, ret⟩ := a
  cases op <;> simp [mapStep, Locality.keyed, KvModel.step]

namespace KvModel

/-- `m[key] = append(m[key], v)`, for a map kept as a list of its entries. -/
def appendAt (key : Str) (v : KvOperation) :
    List (Str × List KvOperation) → List (Str × List KvOperation)
  | [] => [(key, [v])]
  | (k, vs) :: rest =>
    if k = key then (k, vs ++ [v]) :: rest else (k, vs) :: appendAt key v rest

/-- The map that the first loop of `Partition` builds. -/
def byKey (history : List KvOperation) : List (Str × List KvOperation) :=
  history.foldl (fun m v => appendAt v.input.key v m) []

def partition (history : List KvOperation) : List (List KvOperation) :=
  let m := byKey history
  let keys := (m.map Prod.fst).insertionSort (· ≤ ·)
  keys.map fun k => (m.lookup k).getD []

theorem lookup_appendAt (key k : Str) (v : KvOperation) (m : List (Str × List KvOperation)) :
    ((appendAt key v m).lookup k).getD [] =
      (m.lookup k).getD [] ++ if key = k then [v] else [] := by
  induction m with
  | nil =>
      by_cases hk : key = k
      · simp [appendAt, hk]
      · simp [appendAt, List.lookup_cons, hk, beq_eq_false_iff_ne.mpr (Ne.symm hk)]
  | cons entry rest ih =>
      obtain ⟨k', vs⟩ := entry
      unfold appendAt
      by_cases hkey : k' = key
      · rw [if_pos hkey]
        by_cases hk : k = k'
        · simp [hk, hkey]
        · have hne : key ≠ k := fun h => hk (h.symm.trans hkey.symm)
          simp [List.lookup_cons, beq_eq_false_iff_ne.mpr hk, hne]
      · rw [if_neg hkey]
        by_cases hk : k = k'
        · simp [hk, Ne.symm hkey]
        · simp [List.lookup_cons, beq_eq_false_iff_ne.mpr hk, ih]

theorem mem_keys_appendAt {key k : Str} {v : KvOperation} {m : List (Str × List KvOperation)} :
    k ∈ (appendAt key v m).map Prod.fst ↔ k ∈ m.map Prod.fst ∨ k = key := by
  induction m with
  | nil => simp [appendAt]
  | cons entry rest ih =>
      obtain ⟨k', vs⟩ := entry
      unfold appendAt
      by_cases hkey : k' = key
      · rw [if_pos hkey]
        simp only [List.map_cons, List.mem_cons, hkey]
        constructor
        · exact .inl
        · rintro (h | h)
          · exact h
          · exact .inl h
      · rw [if_neg hkey]
        simp only [List.map_cons, List.mem_cons, ih, or_assoc]

/-- Under a key the map holds the operations with this key, in the order of the history. -/
theorem lookup_byKey (history : List KvOperation) (k : Str) :
    ((byKey history).lookup k).getD [] = history.filter fun a => a.input.key = k := by
  induction history using List.reverseRecOn with
  | nil => rfl
  | append_singleton history a ih =>
      rw [byKey, List.foldl_append, ← byKey, List.filter_append]
      show ((appendAt a.input.key a (byKey history)).lookup k).getD [] = _
      rw [lookup_appendAt, ih]
      by_cases hk : a.input.key = k <;> simp [hk]

theorem mem_keys_byKey {history : List KvOperation} {k : Str} :
    k ∈ (byKey history).map Prod.fst ↔ ∃ a ∈ history, a.input.key = k := by
  induction history using List.reverseRecOn with
  | nil => simp [byKey]
  | append_singleton history a ih =>
      rw [byKey, List.foldl_append, ← byKey]
      show k ∈ (appendAt a.input.key a (byKey history)).map Prod.fst ↔ _
      rw [mem_keys_appendAt, ih]
      simp [or_and_right, exists_or, eq_comm]

/-- The parts are the operations of each key that occurs. -/
theorem mem_partition {history sub : List KvOperation} : sub ∈ partition history ↔
    ∃ k, (∃ a ∈ history, a.input.key = k) ∧ sub = history.filter fun a => a.input.key = k := by
  simp only [partition, List.mem_map, List.mem_insertionSort, lookup_byKey]
  constructor
  · rintro ⟨k, hk, rfl⟩
    exact ⟨k, mem_keys_byKey.mp (List.mem_map.mpr hk), rfl⟩
  · rintro ⟨k, hk, rfl⟩
    exact ⟨k, List.mem_map.mp (mem_keys_byKey.mpr hk), rfl⟩

/-- A history fits a map of strings exactly if every part of its partition fits the model of
one key. -/
theorem linearizable_partition {history : List KvOperation}
    (h : ∀ a ∈ history, a.call ≤ a.ret) :
    Linearizable (fun _ => []) mapStep history ↔
      ∀ sub ∈ partition history, Linearizable init step sub := by
  unfold Linearizable
  rw [mapStep_eq_keyed, Locality.linearizable_keyed h]
  constructor
  · intro hall sub hsub
    obtain ⟨k, -, rfl⟩ := mem_partition.mp hsub
    exact hall k
  · intro hparts k
    by_cases hk : ∃ a ∈ history, a.input.key = k
    · exact hparts _ (mem_partition.mpr ⟨k, hk, rfl⟩)
    · -- the other keys have no operations
      have hnil : history.filter (fun a => a.input.key = k) = [] := by
        rw [List.filter_eq_nil_iff]
        intro a ha hka
        exact hk ⟨a, ha, of_decide_eq_true hka⟩
      rw [hnil]
      exact ⟨[], .refl _, .nil, trivial⟩

/-- Client 0 puts `a` at `x` while client 1 appends `b` and reads, and both look at `y`. -/
def overlapping : List KvOperation :=
  [{ clientId := 0, input := { op := .put, key := [120], value := [97] }, call := 0,
     output := { value := [] }, ret := 9 },
   { clientId := 1, input := { op := .appendReturn, key := [120], value := [98] }, call := 1,
     output := { value := [97] }, ret := 4 },
   { clientId := 1, input := { op := .get, key := [121], value := [] }, call := 5,
     output := { value := [] }, ret := 6 },
   { clientId := 1, input := { op := .get, key := [120], value := [] }, call := 7,
     output := { value := [97, 98] }, ret := 8 },
   { clientId := 0, input := { op := .get, key := [121], value := [] }, call := 10,
     output := { value := [] }, ret := 12 }]

theorem linearizable_partition_overlapping :
    (partition overlapping).length = 2 ∧ Linearizable (fun _ => []) mapStep overlapping := by
  refine ⟨by decide, (linearizable_partition (by decide)).mpr fun sub hsub => ?_⟩
  -- here each part is in order as it stands
  refine ⟨sub, .refl _, ?_⟩
  have hparts : ∀ sub ∈ partition overlapping,
      (sub.Pairwise fun a b => ¬ b.ret < a.call) ∧
      Locality.Legal (fun s (a : KvOperation) => step s a.input a.output) init sub := by
    decide +kernel
  exact hparts sub hsub

end KvModel
end Models
end Labs
