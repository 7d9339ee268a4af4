import Labs.Grouping
import Labs.Models.Kv

/-!
# The MapReduce worker

What a worker does with a task, apart from its calls to the coordinator.  A map task is
stored by a sequence of file operations, which `storeIntermediate` gives up at the first
that fails; a reduce task reads its file of every map task.

The file `mr-X-Y.txt` is named by its two numbers, and its content is a list of records.
A record is what the JSON encoder writes for one pair in one call; a place where there is
none, as a truncated file has below the offset of a writer that goes on, is `none`.  Every
writer of a file that writes the same pairs has them at the same places.
-/

namespace Labs
namespace Mr

open Models

structure KeyValue where
  key : Str
  value : Str
  deriving DecidableEq, Repr

/-- The 32-bit FNV-1a hash. -/
def fnv32a (bytes : Str) : UInt32 :=
  bytes.foldl (fun h b => (h ^^^ b.toUInt32) * 16777619) 2166136261

def ihash (key : Str) : Nat := (fnv32a key &&& 0x7fffffff).toNat

/-- Encoding a pair as JSON, and decoding it, which may fail. -/
structure Json (R : Type) where
  encode : KeyValue → R
  decode : R → Option KeyValue

/-- The job's input: the content of its files, and what the application does with them. -/
structure App where
  content : String → Str
  mapf : String → Str → List KeyValue
  reducef : Str → List Str → Str

def App.performMap (app : App) (filename : String) : List KeyValue :=
  app.mapf filename (app.content filename)

/-! ## Intermediate files -/

abbrev Content (R : Type) := List (Option R)

abbrev Files (R : Type) := Nat × Nat → Option (Content R)

inductive FileOp (R : Type) where
  | create (name : Nat × Nat)
  | encode (name : Nat × Nat) (place : Nat) (record : R)
  | close (name : Nat × Nat)

variable {R : Type}

/-- Write at a place, which may lie beyond the end. -/
def Content.writeAt (content : Content R) (place : Nat) (record : Option R) : Content R :=
  content.take place ++ List.replicate (place - content.length) none ++
    record :: content.drop (place + 1)

namespace FileOp

def name : FileOp R → Nat × Nat
  | .create name => name
  | .encode name _ _ => name
  | .close name => name

/-- An error of `Close` is not looked at. -/
def mayFail : FileOp R → Bool
  | .create _ => true
  | .encode .. => true
  | .close _ => false

def creates (name : Nat × Nat) : FileOp R → Bool
  | .create name' => name' = name
  | .encode .. => false
  | .close _ => false

def writes (name : Nat × Nat) : FileOp R → Bool
  | .create _ => false
  | .encode name' _ _ => name' = name
  | .close _ => false

/-- The operation succeeds. -/
def run (files : Files R) : FileOp R → Files R
  | .create name => Function.update files name (some [])
  | .encode name place record =>
    Function.update files name ((files name).map (Content.writeAt · place (some record)))
  | .close _ => files

/-- The operation fails; a write may have written a part of its record. -/
def fail (files : Files R) (torn : Bool) : FileOp R → Files R
  | .encode name place _ =>
    if torn then Function.update files name ((files name).map (Content.writeAt · place none))
    else files
  | .create _ => files
  | .close _ => files

end FileOp

def runOps (files : Files R) (ops : List (FileOp R)) : Files R :=
  ops.foldl FileOp.run files

/-- The loop over the pairs, with the number of records written to each file. -/
def encodeOps (json : Json R) (nReduce X : Nat) : (Nat → Nat) → List KeyValue → List (FileOp R)
  | _, [] => []
  | written, kv :: rest =>
    let part := ihash kv.key % nReduce
    .encode (X, part) (written part) (json.encode kv) ::
      encodeOps json nReduce X (Function.update written part (written part + 1)) rest

/-- The file operations of `storeIntermediate`, in order. -/
def storeIntermediate (json : Json R) (kva : List KeyValue) (nReduce X : Nat) :
    List (FileOp R) :=
  (List.range nReduce).map (fun i => .create (X, i)) ++
    encodeOps json nReduce X (fun _ => 0) kva ++
    (List.range nReduce).map fun i => .close (X, i)

/-- The loop that decodes a file, up to the first error. -/
def decodeAll (json : Json R) : Content R → List KeyValue
  | [] => []
  | none :: _ => []
  | some record :: rest =>
    match json.decode record with
    | none => []
    | some kv => kv :: decodeAll json rest

/-- `none` if a file cannot be opened, which ends the worker. -/
def getIntermediate (json : Json R) (files : Files R) (part : Nat) :
    Nat → Option (List KeyValue)
  | 0 => some []
  | numMapTasks + 1 =>
    match getIntermediate json files part numMapTasks, files (numMapTasks, part) with
    | some intermediate, some content => some (intermediate ++ decodeAll json content)
    | _, _ => none

/-! ## Reduce -/

/-- A line as `Fprintf` writes it for `"%v %v\n"`. -/
def line (key output : Str) : Str := key ++ [32] ++ output ++ [10]

/-- The loop over the sorted pairs: what each call of Reduce is given. -/
def reduceCalls (intermediate : List KeyValue) : List (Str × List Str) :=
  (Grouping.runs KeyValue.key intermediate.length intermediate).map fun (key, kvs) =>
    (key, kvs.map KeyValue.value)

/-- The lines that `performReduce` writes. -/
def performReduce (reducef : Str → List Str → Str) (intermediate : List KeyValue) : List Str :=
  (reduceCalls intermediate).map fun (key, values) => line key (reducef key values)

/-! ## What the files hold -/

/-- The pairs of a partition. -/
def bucket (nReduce part : Nat) (kva : List KeyValue) : List KeyValue :=
  kva.filter fun kv => ihash kv.key % nReduce = part

theorem bucket_append (nReduce part : Nat) (kva kva' : List KeyValue) :
    bucket nReduce part (kva ++ kva') = bucket nReduce part kva ++ bucket nReduce part kva' :=
  List.filter_append ..

theorem bucket_cons_of_eq {nReduce part : Nat} {kv : KeyValue} (h : ihash kv.key % nReduce = part)
    (kva : List KeyValue) : bucket nReduce part (kv :: kva) = kv :: bucket nReduce part kva :=
  List.filter_cons_of_pos (by simpa using h)

theorem bucket_cons_of_ne {nReduce part : Nat} {kv : KeyValue} (h : ihash kv.key % nReduce ≠ part)
    (kva : List KeyValue) : bucket nReduce part (kv :: kva) = bucket nReduce part kva :=
  List.filter_cons_of_neg (by simpa using h)

/-- The records of the pairs, one after the other. -/
def records (json : Json R) (kva : List KeyValue) : Content R :=
  kva.map fun kv => some (json.encode kv)

/-- The files of map task `X`, which has emitted `kva`, are complete. -/
def Stored (json : Json R) (files : Files R) (nReduce X : Nat) (kva : List KeyValue) : Prop :=
  ∀ part < nReduce, files (X, part) = some (records json (bucket nReduce part kva))

section Files

variable {json : Json R} {files : Files R}

theorem Content.writeAt_length (content : Content R) (record : Option R) :
    content.writeAt content.length record = content ++ [record] := by
  simp [Content.writeAt]

theorem Content.length_writeAt (content : Content R) (place : Nat) (record : Option R) :
    (content.writeAt place record).length = max content.length (place + 1) := by
  simp [Content.writeAt]
  omega

theorem Content.getElem?_writeAt_self (content : Content R) (place : Nat) (record : Option R) :
    (content.writeAt place record)[place]? = some record := by
  have hlen : (content.take place ++ List.replicate (place - content.length) none).length =
      place := by
    simp
    omega
  rw [Content.writeAt, List.getElem?_append_right hlen.le, hlen, Nat.sub_self]
  rfl

/-- A write leaves the other records as they are. -/
theorem Content.getElem?_writeAt_of_ne {content : Content R} {place i : Nat}
    (hi : i < content.length) (hne : i ≠ place) (record : Option R) :
    (content.writeAt place record)[i]? = content[i]? := by
  rcases Nat.lt_or_gt_of_ne hne with hlt | hgt
  · have hi' : i < (content.take place).length := by
      rw [List.length_take]
      omega
    rw [Content.writeAt, List.append_assoc, List.getElem?_append_left hi',
      List.getElem?_take_of_lt hlt]
  · have hlen : (content.take place ++ List.replicate (place - content.length) none).length =
        place := by
      simp
      omega
    obtain ⟨d, rfl⟩ := Nat.exists_eq_add_of_lt hgt
    rw [Content.writeAt, List.getElem?_append_right (by omega), hlen,
      show place + d + 1 - place = d + 1 by omega, List.getElem?_cons_succ, List.getElem?_drop]
    congr 1
    omega

theorem runOps_append (files : Files R) (ops ops' : List (FileOp R)) :
    runOps files (ops ++ ops') = runOps (runOps files ops) ops' :=
  List.foldl_append ..

theorem FileOp.run_of_ne (files : Files R) {op : FileOp R} {name : Nat × Nat} (h : op.name ≠ name) :
    op.run files name = files name := by
  cases op with
  | create name' => exact Function.update_of_ne (Ne.symm h) _ _
  | encode name' place record => exact Function.update_of_ne (Ne.symm h) _ _
  | close name' => rfl

theorem FileOp.fail_of_ne (files : Files R) {op : FileOp R} {name : Nat × Nat} (torn : Bool)
    (h : op.name ≠ name) : op.fail files torn name = files name := by
  cases op with
  | create name' => rfl
  | encode name' place record =>
      unfold FileOp.fail
      split
      · exact Function.update_of_ne (Ne.symm h) _ _
      · rfl
  | close name' => rfl

theorem runOps_of_ne {ops : List (FileOp R)} {name : Nat × Nat}
    (h : ∀ op ∈ ops, op.name ≠ name) : runOps files ops name = files name := by
  induction ops generalizing files with
  | nil => rfl
  | cons op rest ih =>
      show runOps (op.run files) rest name = files name
      rw [ih fun op' hop => h op' (List.mem_cons_of_mem _ hop),
        op.run_of_ne files (h op List.mem_cons_self)]

theorem runOps_create (files : Files R) (X : Nat) {nReduce part : Nat} (hpart : part < nReduce) :
    runOps files ((List.range nReduce).map fun i => .create (X, i)) (X, part) = some [] := by
  induction nReduce with
  | zero => omega
  | succ nReduce ih =>
      rw [List.range_succ, List.map_append, runOps_append]
      show Function.update (runOps files _) (X, nReduce) (some []) (X, part) = some []
      by_cases hlast : part = nReduce
      · rw [hlast, Function.update_self]
      · rw [Function.update_of_ne (by simpa using hlast), ih (by omega)]

/-- The loop over the pairs appends to each file its part of them. -/
theorem runOps_encode {nReduce X : Nat} (hn : 1 ≤ nReduce) {kva : List KeyValue}
    {written : Nat → Nat} {c : Nat → Content R}
    (hfiles : ∀ part < nReduce, files (X, part) = some (c part))
    (hwritten : ∀ part, written part = (c part).length) {part : Nat}
    (hpart : part < nReduce) :
    runOps files (encodeOps json nReduce X written kva) (X, part) =
      some (c part ++ records json (bucket nReduce part kva)) := by
  induction kva generalizing files written c with
  | nil =>
      show files (X, part) = some (c part ++ [])
      rw [hfiles part hpart, List.append_nil]
  | cons kv rest ih =>
      have hlt : ihash kv.key % nReduce < nReduce := Nat.mod_lt _ hn
      generalize hp : ihash kv.key % nReduce = p at hlt
      have hstep : runOps files (encodeOps json nReduce X written (kv :: rest)) =
          runOps ((FileOp.encode (X, p) (written p) (json.encode kv)).run files)
            (encodeOps json nReduce X (Function.update written p (written p + 1)) rest) := by
        rw [encodeOps, hp]
        rfl
      rw [hstep, ih (c := Function.update c p (c p ++ [some (json.encode kv)])) ?_ ?_]
      · by_cases hpart' : p = part
        · subst hpart'
          rw [Function.update_self, bucket_cons_of_eq hp, List.append_assoc]
          rfl
        · rw [Function.update_of_ne (Ne.symm hpart'), bucket_cons_of_ne (hp ▸ hpart')]
      · intro i hi
        by_cases hip : i = p
        · rw [hip, Function.update_self]
          show Function.update files (X, p) _ (X, p) = _
          rw [Function.update_self, hfiles p hlt, hwritten p, Option.map_some,
            Content.writeAt_length]
        · rw [Function.update_of_ne hip, FileOp.run_of_ne, hfiles i hi]
          simpa [FileOp.name] using Ne.symm hip
      · intro i
        by_cases hip : i = p
        · rw [hip, Function.update_self, Function.update_self, List.length_append, hwritten p]
          rfl
        · rw [Function.update_of_ne hip, Function.update_of_ne hip, hwritten i]

theorem runOps_close (files : Files R) (X : Nat) (parts : List Nat) :
    runOps files (parts.map fun i => .close (X, i)) = files := by
  induction parts with
  | nil => rfl
  | cons i rest ih => exact ih

/-- A map task that is stored without a failure has its files complete, whatever was in
them before. -/
theorem stored_runOps (json : Json R) (files : Files R) (kva : List KeyValue) {nReduce : Nat}
    (hn : 1 ≤ nReduce) (X : Nat) :
    Stored json (runOps files (storeIntermediate json kva nReduce X)) nReduce X kva := by
  intro part hpart
  have hloop : runOps (runOps files ((List.range nReduce).map fun i => .create (X, i)))
      (encodeOps json nReduce X (fun _ => 0) kva) (X, part) =
      some ([] ++ records json (bucket nReduce part kva)) :=
    runOps_encode (c := fun _ => []) hn (fun i hi => runOps_create files X hi) (fun _ => rfl) hpart
  rw [storeIntermediate, runOps_append, runOps_append, runOps_close, hloop, List.nil_append]

theorem name_of_mem_encodeOps {nReduce X : Nat} {written : Nat → Nat} {kva : List KeyValue}
    {op : FileOp R} (h : op ∈ encodeOps json nReduce X written kva) : op.name.1 = X := by
  induction kva generalizing written with
  | nil => cases h
  | cons kv rest ih =>
      rcases List.mem_cons.mp h with rfl | hrest
      · rfl
      · exact ih hrest

/-- A map task touches its own files only. -/
theorem name_of_mem_storeIntermediate {nReduce X : Nat} {kva : List KeyValue} {op : FileOp R}
    (h : op ∈ storeIntermediate json kva nReduce X) : op.name.1 = X := by
  unfold storeIntermediate at h
  rw [List.mem_append, List.mem_append] at h
  rcases h with (h | h) | h
  · obtain ⟨i, -, rfl⟩ := List.mem_map.mp h
    rfl
  · exact name_of_mem_encodeOps h
  · obtain ⟨i, -, rfl⟩ := List.mem_map.mp h
    rfl

/-- The record of every pair is written at its place in its partition. -/
theorem encode_mem_encodeOps {nReduce X part place : Nat} {record : R} {written : Nat → Nat}
    {kva : List KeyValue} :
    .encode (X, part) place record ∈ encodeOps json nReduce X written kva ↔
      ∃ k kv, place = written part + k ∧ (bucket nReduce part kva)[k]? = some kv ∧
        record = json.encode kv := by
  induction kva generalizing written with
  | nil => simp [encodeOps, bucket]
  | cons kv rest ih =>
      rw [encodeOps, List.mem_cons, ih]
      by_cases hpart : ihash kv.key % nReduce = part
      · subst hpart
        rw [bucket_cons_of_eq rfl, Function.update_self]
        constructor
        · rintro (heq | ⟨k, kv', rfl, hk, rfl⟩)
          · cases heq
            exact ⟨0, kv, rfl, rfl, rfl⟩
          · exact ⟨k + 1, kv', by omega, hk, rfl⟩
        · rintro ⟨k, kv', rfl, hk, rfl⟩
          cases k with
          | zero =>
              cases hk
              exact .inl rfl
          | succ k => exact .inr ⟨k, kv', by omega, hk, rfl⟩
      · rw [bucket_cons_of_ne hpart, Function.update_of_ne (Ne.symm hpart)]
        refine ⟨fun h => h.resolve_left fun heq => ?_, .inr⟩
        cases heq
        exact hpart rfl

theorem encode_mem_storeIntermediate {nReduce X part place : Nat} {record : R}
    {kva : List KeyValue} :
    .encode (X, part) place record ∈ storeIntermediate json kva nReduce X ↔
      ∃ kv, (bucket nReduce part kva)[place]? = some kv ∧ record = json.encode kv := by
  unfold storeIntermediate
  simp [encode_mem_encodeOps]

theorem create_mem_storeIntermediate {nReduce part : Nat} (hpart : part < nReduce) (X : Nat)
    (kva : List KeyValue) : .create (X, part) ∈ storeIntermediate json kva nReduce X := by
  unfold storeIntermediate
  simp [hpart]

theorem creates_of_mem_encodeOps {nReduce X : Nat} {written : Nat → Nat} {kva : List KeyValue}
    {op : FileOp R} (h : op ∈ encodeOps json nReduce X written kva) (name : Nat × Nat) :
    op.creates name = false := by
  induction kva generalizing written with
  | nil => cases h
  | cons kv rest ih =>
      rcases List.mem_cons.mp h with rfl | hrest
      · rfl
      · exact ih hrest

/-- A file is created before anything else is done to it, and once. -/
theorem storeIntermediate_pairwise (json : Json R) (kva : List KeyValue) (nReduce X : Nat) :
    (storeIntermediate json kva nReduce X).Pairwise fun op op' => op'.creates op.name = false := by
  have hlater : ∀ op ∈ encodeOps json nReduce X (fun _ => 0) kva ++
      (List.range nReduce).map (fun i => .close (X, i)), ∀ name, op.creates name = false := by
    intro op hop name
    rcases List.mem_append.mp hop with hop | hop
    · exact creates_of_mem_encodeOps hop name
    · obtain ⟨i, -, rfl⟩ := List.mem_map.mp hop
      rfl
  rw [storeIntermediate, List.append_assoc, List.pairwise_append]
  refine ⟨?_, ?_, fun op _ op' hop' => hlater op' hop' _⟩
  · refine List.pairwise_map.mpr (List.nodup_range.imp fun hne => ?_)
    simpa [FileOp.creates, FileOp.name] using Ne.symm hne
  · exact List.pairwise_of_forall_mem_list fun op _ op' hop' => hlater op' hop' _

/-! ## What a reduce task reads -/

theorem getElem?_records (kva : List KeyValue) (i : Nat) :
    (records json kva)[i]? = kva[i]?.map fun kv => some (json.encode kv) :=
  List.getElem?_map ..

theorem decodeAll_records {kva : List KeyValue}
    (h : ∀ kv ∈ kva, json.decode (json.encode kv) = some kv) :
    decodeAll json (records json kva) = kva := by
  induction kva with
  | nil => rfl
  | cons kv rest ih =>
      show decodeAll json (some (json.encode kv) :: records json rest) = kv :: rest
      rw [decodeAll, h kv List.mem_cons_self, ih fun kv' hkv => h kv' (List.mem_cons_of_mem _ hkv)]

/-- From complete files a reduce task gets the pairs of its partition, in the order of the
map tasks. -/
theorem getIntermediate_stored {nReduce part : Nat} (hpart : part < nReduce)
    {kvas : List (List KeyValue)}
    (hjson : ∀ kva ∈ kvas, ∀ kv ∈ kva, json.decode (json.encode kv) = some kv)
    (hstored : ∀ X kva, kvas[X]? = some kva → Stored json files nReduce X kva) {n : Nat}
    (hle : n ≤ kvas.length) :
    getIntermediate json files part n = some (bucket nReduce part (kvas.take n).flatten) := by
  induction n with
  | zero => rfl
  | succ n ih =>
      obtain ⟨kva, hkva⟩ : ∃ kva, kvas[n]? = some kva := ⟨_, List.getElem?_eq_getElem (by omega)⟩
      have hdecode : decodeAll json (records json (bucket nReduce part kva)) =
          bucket nReduce part kva :=
        decodeAll_records fun kv hkv =>
          hjson kva (List.mem_of_getElem? hkva) kv (List.mem_of_mem_filter hkv)
      rw [getIntermediate, ih (by omega), hstored n kva hkva part hpart]
      dsimp only
      rw [hdecode, List.take_add_one, hkva, List.flatten_append, bucket_append]
      simp

end Files

end Mr
end Labs
