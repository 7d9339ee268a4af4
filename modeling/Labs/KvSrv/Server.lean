import Labs.Models.Kv

/-!
# The single key/value server

The handlers of `kvsrv`.  Each runs under the server's mutex from its first line to its
last, so it is a function of the server's fields; it is `none` while it would wait in the
loop over `pending`.  An `Append` that was executed before is not looked up anywhere: its
old value is recomputed by cutting the current value at the last occurrence of the string
it appended.
-/

namespace Labs
namespace KvSrv

open Models

structure GetArgs where
  key : Str
  deriving DecidableEq, Repr

structure PutAppendArgs where
  key : Str
  value : Str
  clientId : Int64
  seq : Nat
  deriving DecidableEq, Repr

structure KVServer where
  kv : Str → Str
  pending : Int64 → Bool
  requestCache : Int64 → Option Nat

/-- The last index up to `i` at which the second string occurs in the first. -/
def lastIndexFrom (s substr : Str) : Nat → Option Nat
  | 0 => if substr.isPrefixOf s then some 0 else none
  | i + 1 => if substr.isPrefixOf (s.drop (i + 1)) then some (i + 1) else lastIndexFrom s substr i

/-- `strings.LastIndex`, which finds the empty string at the end. -/
def lastIndex (s substr : Str) : Option Nat := lastIndexFrom s substr s.length

/-- What a repeated `Append` is answered with: the value cut at the last occurrence. -/
def cutLast (s substr : Str) : Str :=
  match lastIndex s substr with
  | some i => s.take i
  | none => s

namespace KVServer

def startKVServer : KVServer where
  kv := fun _ => []
  pending := fun _ => false
  requestCache := fun _ => none

def get (srv : KVServer) (args : GetArgs) : Str := srv.kv args.key

/-- The key of `pending`, in the arithmetic of `int64`. -/
def pendingKey (args : PutAppendArgs) : Int64 :=
  args.clientId * 1000000 + Int64.ofNat args.seq

def duplicate (srv : KVServer) (args : PutAppendArgs) : Bool :=
  match srv.requestCache args.clientId with
  | some seq => args.seq ≤ seq
  | none => false

def put (srv : KVServer) (args : PutAppendArgs) : Option (KVServer × Str) :=
  let key := pendingKey args
  if srv.pending key then none
  else if srv.duplicate args then some (srv, [])
  else
    let srv := { srv with pending := Function.update srv.pending key true }
    let srv := { srv with
      kv := Function.update srv.kv args.key args.value
      requestCache := Function.update srv.requestCache args.clientId (some args.seq) }
    some ({ srv with pending := Function.update srv.pending key false }, [])

def append (srv : KVServer) (args : PutAppendArgs) : Option (KVServer × Str) :=
  let key := pendingKey args
  if srv.pending key then none
  else if srv.duplicate args then some (srv, cutLast (srv.kv args.key) args.value)
  else
    let srv := { srv with pending := Function.update srv.pending key true }
    let old := srv.kv args.key
    let srv := { srv with
      kv := Function.update srv.kv args.key (if old = [] then args.value else old ++ args.value)
      requestCache := Function.update srv.requestCache args.clientId (some args.seq) }
    some ({ srv with pending := Function.update srv.pending key false }, old)

end KVServer

/-! ## The last occurrence -/

theorem lastIndexFrom_eq {s substr : Str} {i m : Nat} (hi : i ≤ m) (hocc : substr <+: s.drop i)
    (hlast : ∀ j ≤ m, i < j → ¬ substr <+: s.drop j) : lastIndexFrom s substr m = some i := by
  induction m with
  | zero =>
      obtain rfl : i = 0 := by omega
      rw [List.drop_zero] at hocc
      rw [lastIndexFrom, if_pos (List.isPrefixOf_iff_prefix.mpr hocc)]
  | succ m ih =>
      by_cases him : i = m + 1
      · rw [him] at hocc
        rw [lastIndexFrom, if_pos (List.isPrefixOf_iff_prefix.mpr hocc), him]
      · have hnot := hlast (m + 1) (Nat.le_refl _) (by omega)
        rw [lastIndexFrom, if_neg (fun h => hnot (List.isPrefixOf_iff_prefix.mp h))]
        exact ih (by omega) fun j hj => hlast j (by omega)

/-- The string that was appended to `old` and does not occur again further on leads back
to `old`. -/
theorem cutLast_eq {s old substr : Str} (hpre : old ++ substr <+: s)
    (hlast : ∀ j ≤ s.length, old.length < j → ¬ substr <+: s.drop j) :
    cutLast s substr = old := by
  obtain ⟨rest, rfl⟩ := hpre
  have hfound : lastIndex (old ++ substr ++ rest) substr = some old.length := by
    refine lastIndexFrom_eq (by simp) ?_ hlast
    rw [List.append_assoc, List.drop_left]
    exact List.prefix_append _ _
  rw [cutLast, hfound]
  show (old ++ substr ++ rest).take old.length = old
  rw [List.append_assoc, List.take_left]

/-! ## What the handlers do -/

namespace KVServer

variable {srv srv' : KVServer} {args : PutAppendArgs} {value : Str}

/-- The client has had this operation, or a later one, executed. -/
def Executed (srv : KVServer) (clientId : Int64) (seq : Nat) : Prop :=
  ∃ s, srv.requestCache clientId = some s ∧ seq ≤ s

theorem duplicate_iff : srv.duplicate args = true ↔ srv.Executed args.clientId args.seq := by
  unfold duplicate Executed
  cases srv.requestCache args.clientId <;> simp

/-- A new write: the value of its key changes, and its sequence number is remembered. -/
structure Writes (srv : KVServer) (args : PutAppendArgs) (value : Str) (srv' : KVServer) :
    Prop where
  kv : srv'.kv = Function.update srv.kv args.key value
  requestCache :
    srv'.requestCache = Function.update srv.requestCache args.clientId (some args.seq)
  pending : ∀ key, srv.pending key = false → srv'.pending key = false

theorem update_pending {key key' : Int64} (h : srv.pending key' = false) :
    Function.update (Function.update srv.pending key true) key false key' = false := by
  rw [Function.update_idem, Function.update_apply]
  split
  · rfl
  · exact h

theorem put_cases (h : srv.put args = some (srv', value)) :
    srv.Executed args.clientId args.seq ∧ srv' = srv ∨
      ¬ srv.Executed args.clientId args.seq ∧ Writes srv args args.value srv' := by
  rw [← duplicate_iff]
  unfold put at h
  dsimp only at h
  split at h
  · cases h
  · split at h
    · next hdup =>
        cases h
        exact .inl ⟨hdup, rfl⟩
    · next hdup =>
        cases h
        exact .inr ⟨hdup, rfl, rfl, fun _ hkey => update_pending hkey⟩

theorem append_cases (h : srv.append args = some (srv', value)) :
    srv.Executed args.clientId args.seq ∧ srv' = srv ∧
        value = cutLast (srv.kv args.key) args.value ∨
      ¬ srv.Executed args.clientId args.seq ∧ value = srv.kv args.key ∧
        Writes srv args (srv.kv args.key ++ args.value) srv' := by
  rw [← duplicate_iff]
  unfold append at h
  dsimp only at h
  split at h
  · cases h
  · split at h
    · next hdup =>
        cases h
        exact .inl ⟨hdup, rfl, rfl⟩
    · next hdup =>
        cases h
        refine .inr ⟨hdup, rfl, ?_, rfl, fun _ hkey => update_pending hkey⟩
        show Function.update srv.kv args.key _ = _
        congr 1
        split
        · next hold => rw [hold, List.nil_append]
        · rfl

end KVServer
end KvSrv
end Labs
