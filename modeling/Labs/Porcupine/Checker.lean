import Labs.Models.Partition
import Labs.Porcupine.Bitset
import Labs.Porcupine.Nodes

/-!
# The linearizability checker

The checker of the tests, for one part of a history: `checkSingle` looks for an order of
the operations by linearizing one that may come next, as long as the model accepts it, and
by going back when it meets a return.  A cache keeps it from searching twice from the same
operations in the same state.  A history comes as operations with times, or as events in
the order in which they happened.

A turn of the loop is a function of the loop's variables.  Whatever panics in Go (a `nil`
pointer, an index out of range, a value that has not the type it is asserted to have) is
`none`.  `sort.Sort` and the texts of `fmt.Sprintf` are parameters.
-/

namespace Labs
namespace Porcupine

variable {I O S : Type}

/-! ## Models and histories -/

/-- A call or a return, in the order of a history. -/
structure Event (I O : Type) where
  clientId : Int
  value : Payload I O
  id : Int
  deriving DecidableEq, Repr

/-- A model as it is written down; what is left out is `none`. -/
structure ModelFields (I O S : Type) where
  partition : Option (List (Operation I O) → List (List (Operation I O))) := none
  partitionEvent : Option (List (Event I O) → List (List (Event I O))) := none
  init : S
  step : S → I → O → Bool × S
  equal : Option (S → S → Bool) := none
  describeOperation : Option (I → O → Models.Str) := none
  describeState : Option (S → Models.Str) := none

structure Model (I O S : Type) where
  partition : List (Operation I O) → List (List (Operation I O))
  partitionEvent : List (Event I O) → List (List (Event I O))
  init : S
  step : S → I → O → Bool × S
  equal : S → S → Bool
  describeOperation : I → O → Models.Str
  describeState : S → Models.Str

def noPartition {α : Type} (history : List α) : List (List α) := [history]

def shallowEqual [DecidableEq S] (state1 state2 : S) : Bool := state1 = state2

/-- The texts of `fmt.Sprintf` for any value. -/
structure DefaultTexts (I O S : Type) where
  defaultDescribeOperation : I → O → Models.Str
  defaultDescribeState : S → Models.Str

def ModelFields.fillDefault [DecidableEq S] (model : ModelFields I O S)
    (texts : DefaultTexts I O S) : Model I O S where
  partition := model.partition.getD noPartition
  partitionEvent := model.partitionEvent.getD noPartition
  init := model.init
  step := model.step
  equal := model.equal.getD shallowEqual
  describeOperation := model.describeOperation.getD texts.defaultDescribeOperation
  describeState := model.describeState.getD texts.defaultDescribeState

/-! ## Entries -/

structure Entry (I O : Type) where
  value : Payload I O
  id : Int
  time : Int
  clientId : Int
  deriving DecidableEq, Repr

def Payload.isCall : Payload I O → Bool
  | .call _ => true
  | .ret _ => false

/-- `byTime.Less` -/
def Entry.less (a b : Entry I O) : Bool :=
  if a.time ≠ b.time then a.time < b.time
  else a.value.isCall && !b.value.isCall

/-- The loop of `makeEntries`, with the number of the next operation. -/
def operationEntries : Int → List (Operation I O) → List (Entry I O)
  | _, [] => []
  | id, elem :: rest =>
    { value := .call elem.input, id := id, time := elem.call, clientId := elem.clientId } ::
    { value := .ret elem.output, id := id, time := elem.ret, clientId := elem.clientId } ::
    operationEntries (id + 1) rest

def makeEntries (sort : List (Entry I O) → List (Entry I O)) (history : List (Operation I O)) :
    List (Entry I O) :=
  sort (operationEntries 0 history)

/-- The loop of `renumber`, with the map of the numbers given so far and the next one. -/
def renumberFrom : (Int → Option Int) → Int → List (Event I O) → List (Event I O)
  | _, _, [] => []
  | m, id, v :: rest =>
    match m v.id with
    | some r => { v with id := r } :: renumberFrom m id rest
    | none => { v with id := id } :: renumberFrom (Function.update m v.id (some id)) (id + 1) rest

def renumber (events : List (Event I O)) : List (Event I O) := renumberFrom (fun _ => none) 0 events

/-- The loop of `convertEntries`, with the index. -/
def convertFrom : Int → List (Event I O) → List (Entry I O)
  | _, [] => []
  | i, elem :: rest =>
    { value := elem.value, id := elem.id, time := i, clientId := elem.clientId } ::
    convertFrom (i + 1) rest

def convertEntries (events : List (Event I O)) : List (Entry I O) := convertFrom 0 events

/-- The variables of `makeLinkedEntries`; its `match` is `returns`. -/
structure Linking (I O : Type) where
  heap : Heap I O
  root : Option Nat
  returns : Int → Option Nat

/-- One entry goes in front. -/
def Linking.link (l : Linking I O) (elem : Entry I O) : Linking I O :=
  let entry := List.length l.heap
  match elem.value with
  | .ret _ =>
    { heap := Heap.insertBefore
        (l.heap ++ [{ value := some elem.value, matching := none, id := elem.id }]) entry l.root
      root := some entry
      returns := Function.update l.returns elem.id (some entry) }
  | .call _ =>
    { l with
      heap := Heap.insertBefore
        (l.heap ++ [{ value := some elem.value, matching := l.returns elem.id, id := elem.id }])
        entry l.root
      root := some entry }

/-- The loop goes from the last entry to the first. -/
def linkAll (entries : List (Entry I O)) : Linking I O :=
  entries.foldr (fun elem l => l.link elem) { heap := [], root := none, returns := fun _ => none }

def makeLinkedEntries (entries : List (Entry I O)) : Heap I O × Option Nat :=
  ((linkAll entries).heap, (linkAll entries).root)

/-! ## The search -/

structure CacheEntry (S : Type) where
  linearized : Bitset
  state : S

abbrev Cache (S : Type) := UInt64 → List (CacheEntry S)

def cacheContains (model : Model I O S) (cache : Cache S) (entry : CacheEntry S) : Bool :=
  (cache entry.linearized.hash).any fun elem =>
    entry.linearized.equals elem.linearized && model.equal entry.state elem.state

structure CallsEntry (S : Type) where
  entry : Nat
  state : S

/-- The variables of `checkSingle`.  The last of `calls` is its first element here.  A
pointer in `longest` is a place in `seqs`. -/
structure Search (I O S : Type) where
  heap : Heap I O
  headEntry : Nat
  entry : Option Nat
  state : S
  linearized : Bitset
  cache : Cache S
  calls : List (CallsEntry S)
  seqs : List (List Int)
  longest : List (Option Nat)

/-- How a turn of the loop ends. -/
inductive Turn (I O S : Type) where
  | next (st : Search I O S)
  | done (ok : Bool) (st : Search I O S)

/-- An id as an index. -/
def index (id : Int) : Option Nat := if id < 0 then none else some id.toNat

namespace Search

def start (model : Model I O S) (history : List (Entry I O)) : Search I O S :=
  let (heap, entry) := makeLinkedEntries history
  let n := heap.length entry / 2
  let headEntry := List.length heap
  { heap := Heap.insertBefore (heap ++ [{ value := none, matching := none, id := -1 }])
      headEntry entry
    headEntry := headEntry
    entry := entry
    state := model.init
    linearized := .newBitset n
    cache := fun _ => []
    calls := []
    seqs := []
    longest := List.replicate n none }

/-- The ids of the calls, in the order in which they were linearized. -/
def seq (st : Search I O S) : Option (List Int) :=
  st.calls.reverse.mapM fun v => st.heap.id v.entry

/-- The branch for a call, whose return is `m`. -/
def linearize (model : Model I O S) (st : Search I O S) (entry m : Nat) : Option (Search I O S) :=
  match st.heap.value entry, st.heap.value m with
  | some (.call input), some (.ret output) =>
    let (ok, newState) := model.step st.state input output
    if ok then do
      let id ← (st.heap.id entry).bind index
      let newLinearized ← st.linearized.set id
      let newCacheEntry : CacheEntry S := { linearized := newLinearized, state := newState }
      if cacheContains model st.cache newCacheEntry then
        some { st with entry := st.heap.next entry }
      else
        let hash := newLinearized.hash
        let heap ← st.heap.lift entry
        some { st with
          cache := Function.update st.cache hash (st.cache hash ++ [newCacheEntry])
          calls := { entry := entry, state := st.state } :: st.calls
          state := newState
          linearized := newLinearized
          heap := heap
          entry := heap.next st.headEntry }
    else some { st with entry := st.heap.next entry }
  | _, _ => none

/-- The body of the loop over `calls` for the longest sequences; the present one is at
`ptr` of `seqs`. -/
def noteLongest (seqs : List (List Int)) (callsLen ptr : Nat) (longest : List (Option Nat))
    (id : Int) : Option (List (Option Nat)) := do
  let i ← index id
  let old ← longest[i]?
  match old with
  | none => some (longest.set i (some ptr))
  | some p =>
    let best ← seqs[p]?
    if callsLen > best.length then some (longest.set i (some ptr)) else some longest

/-- Note the present calls wherever they are the longest that include an entry. -/
def note (st : Search I O S) : Option (Search I O S) := do
  let seq ← st.seq
  let seqs := st.seqs ++ [seq]
  let longest ← seq.foldlM (noteLongest seqs st.calls.length st.seqs.length) st.longest
  some { st with seqs := seqs, longest := longest }

/-- Go back to before the last call. -/
def back (st : Search I O S) (callsTop : CallsEntry S) (calls : List (CallsEntry S)) :
    Option (Search I O S) := do
  let id ← (st.heap.id callsTop.entry).bind index
  let linearized ← st.linearized.clear id
  let heap ← st.heap.unlift callsTop.entry
  some { st with
    state := callsTop.state
    linearized := linearized
    calls := calls
    heap := heap
    entry := heap.next callsTop.entry }

/-- The complete linearization is the longest for every entry. -/
def finish (st : Search I O S) : Option (Search I O S) := do
  let seq ← st.seq
  some { st with
    seqs := st.seqs ++ [seq]
    longest := List.replicate st.longest.length (some st.seqs.length) }

/-- One turn of the loop, or what follows it. -/
def turn (model : Model I O S) (computePartial kill : Bool) (st : Search I O S) :
    Option (Turn I O S) :=
  if st.heap.next st.headEntry = none then st.finish.map (.done true)
  else if kill then some (.done false st)
  else
    st.entry.bind fun entry =>
      match st.heap.matching entry with
      | some m => (st.linearize model entry m).map .next
      | none =>
        match st.calls with
        | [] => some (.done false st)
        | callsTop :: calls =>
          (if computePartial then st.note else some st).bind fun st =>
            (st.back callsTop calls).map .next

/-- The loop, for at most so many turns, when nobody sets `kill`. -/
def loop (model : Model I O S) (computePartial : Bool) : Nat → Search I O S →
    Option (Bool × Search I O S)
  | 0, _ => none
  | fuel + 1, st =>
    match st.turn model computePartial false with
    | none => none
    | some (.done ok st) => some (ok, st)
    | some (.next st) => loop model computePartial fuel st

end Search

def checkSingle (model : Model I O S) (history : List (Entry I O)) (computePartial : Bool)
    (fuel : Nat) : Option (Bool × Search I O S) :=
  Search.loop model computePartial fuel (Search.start model history)

end Porcupine

/-! ## The key/value model of the tests -/

namespace Models

open Porcupine

/-- The bytes of a text. -/
def text (s : String) : Str := s.toUTF8.toList

namespace KvModel

def describeOperation (inp : KvInput) (out : KvOutput) : Str :=
  match inp.op with
  | .get => text "get('" ++ inp.key ++ text "') -> '" ++ out.value ++ text "'"
  | .put => text "put('" ++ inp.key ++ text "', '" ++ inp.value ++ text "')"
  | .append => text "append('" ++ inp.key ++ text "', '" ++ inp.value ++ text "')"
  | .appendReturn => text "<invalid>"

def model : ModelFields KvInput KvOutput Str where
  partition := some partition
  init := init
  step := step
  describeOperation := some describeOperation

end KvModel
end Models
end Labs
