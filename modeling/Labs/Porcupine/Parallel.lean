import Labs.Porcupine.Histories
import Labs.Run
import Mathlib.Algebra.Order.BigOperators.Group.Finset
import Mathlib.Data.Fintype.Card

/-!
# The parts of a history in parallel

`checkParallel` starts a goroutine for each part of a history and collects their results
from a channel.  It stops early on a part that is not linearizable, unless it is asked for
more than an answer, and after a timeout.  Then it tells the goroutines to stop by a
variable that they look at in every turn of their loops, and those say that their part is
not linearizable.

A step is one turn of a goroutine's loop, its sending of the result, or one of the main
goroutine.  So a run is any interleaving.  A panic ends the program.
-/

namespace Labs
namespace Porcupine

open Backtrack

variable {n : Nat} {I O S : Type}

inductive CheckResult where
  | unknown
  | ok
  | illegal
  deriving DecidableEq, Repr

/-- What `longest[i]` is, with the sequences that it points to. -/
structure Longest where
  seqs : List (List Int)
  longest : List (Option Nat)

/-- A goroutine: in the loop of `checkSingle`, before it sends the result, or gone. -/
inductive Worker (I O S : Type) where
  | running (st : Search I O S)
  | sending (ok : Bool)
  | sent

/-- The main goroutine: in its loop, after it, or back with a result. -/
inductive Phase where
  | waiting
  | collecting
  | returned
  deriving DecidableEq

structure LinearizationInfo (n : Nat) (I O : Type) where
  history : Fin n → List (Entry I O)
  partialLinearizations : Fin n → List (List Int)

structure Parallel (n : Nat) (I O S : Type) where
  workers : Fin n → Worker I O S
  longest : Fin n → Option Longest
  results : List Bool
  kill : Bool
  ok : Bool
  timedOut : Bool
  count : Nat
  phase : Phase
  info : Option (LinearizationInfo n I O)
  panicked : Bool

/-- The order in which Go goes through a map is part of the action. -/
inductive Action (n : Nat) where
  | turn (i : Fin n)
  | send (i : Fin n)
  | receive
  | timeout
  | report (order : Fin n → List Nat)

/-- The set of the pointers in `longest[i]`. -/
def pointers (l : Option Longest) : List Nat :=
  ((l.map fun l => l.longest.filterMap id).getD []).dedup

/-- The sequences that they point to, copied. -/
def partials (l : Option Longest) (order : List Nat) : List (List Int) :=
  order.filterMap fun k => (l.bind fun l => l.seqs[k]?)

namespace Parallel

def start (model : Model I O S) (history : Fin n → List (Entry I O)) : Parallel n I O S where
  workers := fun i => .running (.start model (history i))
  longest := fun _ => none
  results := []
  kill := false
  ok := true
  timedOut := false
  count := 0
  phase := .waiting
  info := none
  panicked := false

def turn (model : Model I O S) (computeInfo : Bool) (p : Parallel n I O S) (i : Fin n) :
    Option (Parallel n I O S) :=
  match p.workers i with
  | .running st =>
    match st.turn model computeInfo p.kill with
    | none => some { p with panicked := true }
    | some (.next st) => some { p with workers := Function.update p.workers i (.running st) }
    | some (.done ok st) =>
      some { p with
        workers := Function.update p.workers i (.sending ok)
        longest := Function.update p.longest i
          (some { seqs := st.seqs, longest := st.longest }) }
  | _ => none

/-- The channel has room for `n` results. -/
def send (p : Parallel n I O S) (i : Fin n) : Option (Parallel n I O S) :=
  match p.workers i with
  | .sending ok =>
    if p.results.length < n then
      some { p with
        workers := Function.update p.workers i .sent
        results := p.results ++ [ok] }
    else none
  | _ => none

/-- The two places where the main goroutine receives: in its loop, and afterwards, until it
has seen all results. -/
def receive (computeInfo : Bool) (p : Parallel n I O S) : Option (Parallel n I O S) :=
  match p.phase, p.results with
  | .waiting, result :: results =>
    if !(p.ok && result) && !computeInfo then
      some { p with
        results := results
        count := p.count + 1
        ok := p.ok && result
        kill := true
        phase := .collecting }
    else
      some { p with
        results := results
        count := p.count + 1
        ok := p.ok && result
        phase := if p.count + 1 ≥ n then .collecting else .waiting }
  | .collecting, _ :: results =>
    if computeInfo = true ∧ p.count < n then
      some { p with results := results, count := p.count + 1 }
    else none
  | _, _ => none

def timeout (timed : Bool) (p : Parallel n I O S) : Option (Parallel n I O S) :=
  if timed = true ∧ p.phase = .waiting then
    some { p with timedOut := true, kill := true, phase := .collecting }
  else none

def report (history : Fin n → List (Entry I O)) (computeInfo : Bool) (p : Parallel n I O S)
    (order : Fin n → List Nat) : Option (Parallel n I O S) :=
  if p.phase ≠ .collecting then none
  else if computeInfo then
    if n ≤ p.count ∧ ∀ i, (order i).Perm (pointers (p.longest i)) then
      some { p with
        phase := .returned
        info := some
          { history := history
            partialLinearizations := fun i => partials (p.longest i) (order i) } }
    else none
  else some { p with phase := .returned }

def step (model : Model I O S) (history : Fin n → List (Entry I O)) (computeInfo timed : Bool)
    (p : Parallel n I O S) (a : Action n) : Option (Parallel n I O S) :=
  if p.panicked then none
  else
    match a with
    | .turn i => p.turn model computeInfo i
    | .send i => p.send i
    | .receive => p.receive computeInfo
    | .timeout => p.timeout timed
    | .report order => p.report history computeInfo order

/-- What `checkParallel` returns. -/
def result (p : Parallel n I O S) : Option CheckResult :=
  if p.phase = .returned then
    some (if !p.ok then .illegal else if p.timedOut then .unknown else .ok)
  else none

end Parallel

/-! ## What holds in every run -/

/-- What is known of a goroutine's result `ok`, and of what it leaves in `longest`. -/
structure Finished (model : Model I O S) (part : List (Operation I O)) (computeInfo kill ok : Bool)
    (l : Longest) : Prop where
  yes : ok = true → Linearizable model.init model.step part
  no : kill = false → ok = false → ¬ Linearizable model.init model.step part
  sound : ∀ (i p : Nat), l.longest[i]? = some (some p) → ∃ ks, l.seqs[p]? = some ks ∧
    Begins model.init model.step part ks ∧ (i : Int) ∈ ks
  noted : kill = false → computeInfo = true → ∀ ks, Begins model.init model.step part ks →
    ∀ k ∈ ks, Noted l.seqs l.longest k.toNat ks.length

theorem Finished.killed {model : Model I O S} {part : List (Operation I O)}
    {computeInfo kill ok : Bool} {l : Longest} (h : Finished model part computeInfo kill ok l) :
    Finished model part computeInfo true ok l :=
  ⟨h.yes, fun hk => (by cases hk), h.sound, fun hk => (by cases hk)⟩

/-- How a turn ends for the others. -/
inductive WorkerTurned (model : Model I O S) (part : List (Operation I O)) (es : List (Entry I O))
    (computeInfo kill : Bool) (budget : Nat) : Turn I O S → Prop
  | next {st : Search I O S} {bt : State (Config S)} :
      Running model (opOf (inputsOutputs part)) es (inputsOutputs part).length computeInfo st bt →
      (space model (opOf (inputsOutputs part)) es).budget es.length bt < budget →
      WorkerTurned model part es computeInfo kill budget (.next st)
  | done {ok : Bool} {st : Search I O S} :
      Finished model part computeInfo kill ok { seqs := st.seqs, longest := st.longest } →
      WorkerTurned model part es computeInfo kill budget (.done ok st)

section Turn

variable {model : Model I O S} {part : List (Operation I O)} {es : List (Entry I O)}
  {computeInfo : Bool} {st : Search I O S} {bt : State (Config S)}

theorem Verdict.finished (hes : EntriesOf part es) (htimes : ∀ a ∈ part, a.call ≤ a.ret) {ok : Bool}
    (hver : Verdict model (opOf (inputsOutputs part)) es (inputsOutputs part).length computeInfo
      ok st) (kill : Bool) :
    Finished model part computeInfo kill ok { seqs := st.seqs, longest := st.longest } := by
  have hans := hver.answer hes.wellFormed
  rw [hes.precedes_eq] at hans
  have hiff := hans.found.trans (linearizable_iff htimes)
  refine ⟨hiff.mp, fun _ hok hlin => ?_, hans.sound, fun _ => hans.noted⟩
  rw [hiff.mpr hlin] at hok
  cases hok

theorem Running.workerTurned (hes : EntriesOf part es) (htimes : ∀ a ∈ part, a.call ≤ a.ret)
    (heq : model.EqualSound)
    (hrun : Running model (opOf (inputsOutputs part)) es (inputsOutputs part).length computeInfo
      st bt) (kill : Bool) :
    ∃ t, st.turn model computeInfo kill = some t ∧ WorkerTurned model part es computeInfo kill
      ((space model (opOf (inputsOutputs part)) es).budget es.length bt) t := by
  cases kill with
  | false =>
      obtain ⟨t, hturn, hout⟩ := hrun.turn hes.wellFormed hes.values heq
      refine ⟨t, hturn, ?_⟩
      cases hout with
      | next hrun' hlt => exact .next hrun' hlt
      | done hver => exact .done (hver.finished hes htimes false)
  | true =>
      obtain ⟨ok, st', hturn, hver, -, hsound⟩ := hrun.turn_killed hes.wellFormed
      refine ⟨_, hturn, .done ⟨fun hok => ((hver hok).finished hes htimes true).yes rfl,
        fun hk => (by cases hk), fun i p hp => ?_, fun hk => (by cases hk)⟩⟩
      obtain ⟨d, hd, hseq, hi⟩ := hsound i p hp
      refine ⟨d.done, hseq, ?_, hi⟩
      unfold Begins
      rw [← hes.precedes_eq]
      exact ((reaches_iff hes.wellFormed).mp hd).1

end Turn

section Runs

variable {model : Model I O S} {history : Fin n → List (Entry I O)}
  {parts : Fin n → List (Operation I O)} {computeInfo timed : Bool} {p p' : Parallel n I O S}
  {verdict : Fin n → Bool} {order : List (Fin n)} {w : Fin n → Nat}

/-- The goroutines and the channel.  `verdict` are their results, `order` is the order in
which they have sent them, and `w` bounds the steps that they still take. -/
structure Workers (model : Model I O S) (history : Fin n → List (Entry I O))
    (parts : Fin n → List (Operation I O)) (computeInfo : Bool) (p : Parallel n I O S)
    (verdict : Fin n → Bool) (order : List (Fin n)) (w : Fin n → Nat) : Prop where
  running : ∀ i st, p.workers i = .running st → ∃ bt,
    Running model (opOf (inputsOutputs (parts i))) (history i) (inputsOutputs (parts i)).length
      computeInfo st bt ∧
    (space model (opOf (inputsOutputs (parts i))) (history i)).budget (history i).length bt + 2 ≤
      w i
  sending : ∀ i ok, p.workers i = .sending ok → verdict i = ok ∧ 1 ≤ w i
  finished : ∀ i, (∀ st, p.workers i ≠ .running st) → ∃ l, p.longest i = some l ∧
    Finished model (parts i) computeInfo p.kill (verdict i) l
  nodup : order.Nodup
  sent : ∀ i, i ∈ order ↔ p.workers i = .sent
  count : p.count ≤ order.length
  results : p.results = (order.drop p.count).map verdict

/-- What the sequences of an info are. -/
structure Informs (model : Model I O S) (parts : Fin n → List (Operation I O)) (timedOut : Bool)
    (info : LinearizationInfo n I O) : Prop where
  sound : ∀ i, ∀ seq ∈ info.partialLinearizations i, Begins model.init model.step (parts i) seq
  longest : timedOut = false → ∀ i ks, Begins model.init model.step (parts i) ks → ∀ k ∈ ks,
    ∃ seq ∈ info.partialLinearizations i, k ∈ seq ∧ ks.length ≤ seq.length

/-- The main goroutine. -/
structure Main (model : Model I O S) (history : Fin n → List (Entry I O))
    (parts : Fin n → List (Operation I O)) (computeInfo timed : Bool) (p : Parallel n I O S)
    (verdict : Fin n → Bool) (order : List (Fin n)) : Prop where
  waiting : p.phase = .waiting → p.kill = false ∧ p.timedOut = false ∧ (0 < n → p.count < n) ∧
    (p.ok = true ↔ ∀ i ∈ order.take p.count, verdict i = true)
  illegal : p.ok = false → ∃ i, ¬ Linearizable model.init model.step (parts i)
  legal : p.phase ≠ .waiting → p.ok = true → p.timedOut = false →
    ∀ i, Linearizable model.init model.step (parts i)
  timed : p.timedOut = true → timed = true
  killed : p.kill = true → p.timedOut = true ∨ computeInfo = false
  info : p.phase = .returned → computeInfo = true → ∃ info, p.info = some info ∧
    info.history = history ∧ Informs model parts p.timedOut info

def Phase.left : Phase → Nat
  | .waiting => 2
  | .collecting => 1
  | .returned => 0

/-- At most `c` steps are left. -/
def Inv (model : Model I O S) (history : Fin n → List (Entry I O))
    (parts : Fin n → List (Operation I O)) (computeInfo timed : Bool) (p : Parallel n I O S)
    (c : Nat) : Prop :=
  p.panicked = false ∧ ∃ verdict order w,
    Workers model history parts computeInfo p verdict order w ∧
    Main model history parts computeInfo timed p verdict order ∧
    ∑ i, w i + (n - p.count) + p.phase.left = c

theorem sum_update_lt {i : Fin n} {c : Nat} (h : c < w i) :
    ∑ j, Function.update w i c j < ∑ j, w j := by
  refine Finset.sum_lt_sum (fun j _ => ?_) ⟨i, Finset.mem_univ i, by simpa using h⟩
  by_cases hj : j = i
  · subst hj
    simpa using Nat.le_of_lt h
  · simp [hj]

/-- A goroutine moves and does not yet send. -/
theorem Workers.set (h : Workers model history parts computeInfo p verdict order w) {i : Fin n}
    {v : Worker I O S} {y : Option Longest} {b : Bool} {c : Nat} (hi : p.workers i ≠ .sent)
    (hv : v ≠ .sent)
    (hrunning : ∀ st, v = .running st → ∃ bt,
      Running model (opOf (inputsOutputs (parts i))) (history i) (inputsOutputs (parts i)).length
        computeInfo st bt ∧
      (space model (opOf (inputsOutputs (parts i))) (history i)).budget (history i).length bt + 2 ≤
        c)
    (hsending : ∀ ok, v = .sending ok → b = ok ∧ 1 ≤ c)
    (hfinished : (∀ st, v ≠ .running st) → ∃ l, y = some l ∧
      Finished model (parts i) computeInfo p.kill b l) :
    Workers model history parts computeInfo
      { p with
        workers := Function.update p.workers i v
        longest := Function.update p.longest i y }
      (Function.update verdict i b) order (Function.update w i c) := by
  have hnot : i ∉ order := fun hmem => hi ((h.sent i).mp hmem)
  refine ⟨fun j st hj => ?_, fun j ok hj => ?_, fun j hj => ?_, h.nodup, fun j => ?_, h.count, ?_⟩
  · dsimp only at hj
    by_cases hji : j = i
    · subst hji
      rw [Function.update_self] at hj ⊢
      exact hrunning st hj
    · rw [Function.update_of_ne hji] at hj ⊢
      exact h.running j st hj
  · dsimp only at hj
    by_cases hji : j = i
    · subst hji
      rw [Function.update_self] at hj
      rw [Function.update_self, Function.update_self]
      exact hsending ok hj
    · rw [Function.update_of_ne hji] at hj
      rw [Function.update_of_ne hji, Function.update_of_ne hji]
      exact h.sending j ok hj
  · replace hj : ∀ st, Function.update p.workers i v j ≠ .running st := hj
    show ∃ l, Function.update p.longest i y j = some l ∧
      Finished model (parts j) computeInfo p.kill (Function.update verdict i b j) l
    by_cases hji : j = i
    · subst hji
      rw [Function.update_self] at hj
      rw [Function.update_self, Function.update_self]
      exact hfinished hj
    · rw [Function.update_of_ne hji] at hj
      rw [Function.update_of_ne hji, Function.update_of_ne hji]
      exact h.finished j hj
  · dsimp only
    by_cases hji : j = i
    · subst hji
      rw [Function.update_self]
      exact ⟨fun hmem => absurd hmem hnot, fun heq => absurd heq hv⟩
    · rw [Function.update_of_ne hji]
      exact h.sent j
  · show p.results = _
    rw [h.results]
    refine List.map_congr_left fun j hj => ?_
    have hji : j ≠ i := by
      rintro rfl
      exact hnot (List.mem_of_mem_drop hj)
    rw [Function.update_of_ne hji]

/-- The main goroutine does not notice. -/
theorem Main.congr (h : Main model history parts computeInfo timed p verdict order)
    {verdict' : Fin n → Bool} {order' : List (Fin n)} (hphase : p'.phase = p.phase)
    (hkill : p'.kill = p.kill) (hok : p'.ok = p.ok) (htimedOut : p'.timedOut = p.timedOut)
    (hcount : p'.count = p.count) (hinfo : p'.info = p.info)
    (htake : order'.take p.count = order.take p.count)
    (hverdict : ∀ i ∈ order, verdict' i = verdict i) :
    Main model history parts computeInfo timed p' verdict' order' := by
  refine ⟨fun hw => ?_, ?_, ?_, ?_, ?_, ?_⟩
  · rw [hphase] at hw
    rw [hkill, hok, htimedOut, hcount, htake]
    obtain ⟨hk, ht, hc, hiff⟩ := h.waiting hw
    refine ⟨hk, ht, hc, hiff.trans (forall₂_congr fun i hi => ?_)⟩
    rw [hverdict i (List.mem_of_mem_take hi)]
  · rw [hok]
    exact h.illegal
  · rw [hphase, hok, htimedOut]
    exact h.legal
  · rw [htimedOut]
    exact h.timed
  · rw [hkill, htimedOut]
    exact h.killed
  · rw [hphase, hinfo, htimedOut]
    exact h.info

theorem Inv.turn (hes : ∀ i, EntriesOf (parts i) (history i))
    (htimes : ∀ i, ∀ a ∈ parts i, a.call ≤ a.ret) (heq : model.EqualSound) {c : Nat}
    (h : Inv model history parts computeInfo timed p c) {i : Fin n}
    (hs : p.turn model computeInfo i = some p') :
    ∃ c' < c, Inv model history parts computeInfo timed p' c' := by
  obtain ⟨halive, verdict, order, w, hw, hmain, rfl⟩ := h
  cases hi : p.workers i with
  | sending ok => simp [Parallel.turn, hi] at hs
  | sent => simp [Parallel.turn, hi] at hs
  | running st =>
      obtain ⟨bt, hrun, hle⟩ := hw.running i st hi
      have hnot : i ∉ order := fun hmem => by
        rw [(hw.sent i).mp hmem] at hi
        cases hi
      obtain ⟨t, hturn, hout⟩ := hrun.workerTurned (hes i) (htimes i) heq p.kill
      cases hout with
      | @next st' bt' hrun' hlt =>
          simp only [Parallel.turn, hi, hturn, Option.some.injEq] at hs
          have hset := hw.set (v := .running st') (y := p.longest i) (b := verdict i)
            (c := (space model (opOf (inputsOutputs (parts i))) (history i)).budget
              (history i).length bt' + 2) (i := i) (by rw [hi]; simp) (by simp)
            (fun st hst => by cases hst; exact ⟨bt', hrun', Nat.le_refl _⟩)
            (fun ok hok => by cases hok) (fun hne => absurd rfl (hne st'))
          rw [Function.update_eq_self, Function.update_eq_self] at hset
          subst hs
          refine ⟨_, ?_, halive, verdict, order, _, hset,
            hmain.congr rfl rfl rfl rfl rfl rfl rfl (fun _ _ => rfl), rfl⟩
          have hsum := sum_update_lt (w := w) (i := i)
            (c := (space model (opOf (inputsOutputs (parts i))) (history i)).budget
              (history i).length bt' + 2) (by omega)
          exact Nat.add_lt_add_right (Nat.add_lt_add_right hsum _) _
      | @done ok st' hfin =>
          simp only [Parallel.turn, hi, hturn, Option.some.injEq] at hs
          have hset := hw.set (v := .sending ok) (b := ok) (c := 1) (i := i)
            (y := some { seqs := st'.seqs, longest := st'.longest }) (by rw [hi]; simp) (by simp)
            (fun st hst => by cases hst) (fun ok' hok' => by cases hok'; exact ⟨rfl, Nat.le_refl 1⟩)
            (fun _ => ⟨_, rfl, hfin⟩)
          subst hs
          refine ⟨_, ?_, halive, _, order, _, hset,
            hmain.congr rfl rfl rfl rfl rfl rfl rfl (fun j hj => ?_), rfl⟩
          · have hsum := sum_update_lt (w := w) (i := i) (c := 1) (by omega)
            exact Nat.add_lt_add_right (Nat.add_lt_add_right hsum _) _
          · rw [Function.update_of_ne]
            rintro rfl
            exact hnot hj

theorem Inv.send {c : Nat} (h : Inv model history parts computeInfo timed p c) {i : Fin n}
    (hs : p.send i = some p') : ∃ c' < c, Inv model history parts computeInfo timed p' c' := by
  obtain ⟨halive, verdict, order, w, hw, hmain, rfl⟩ := h
  cases hi : p.workers i with
  | running st => simp [Parallel.send, hi] at hs
  | sent => simp [Parallel.send, hi] at hs
  | sending ok =>
      simp only [Parallel.send, hi] at hs
      split at hs
      · cases hs
        obtain ⟨hverdict, hpos⟩ := hw.sending i ok hi
        have hnot : i ∉ order := fun hmem => by
          rw [(hw.sent i).mp hmem] at hi
          cases hi
        have hne : ∀ {j}, Function.update p.workers i .sent j ≠ .sent → j ≠ i := by
          rintro j hj rfl
          rw [Function.update_self] at hj
          exact hj rfl
        refine ⟨_, ?_, halive, verdict, order ++ [i], Function.update w i 0,
          ⟨fun j st hj => ?_, fun j ok' hj => ?_, fun j hj => ?_, ?_, fun j => ?_, ?_, ?_⟩,
          hmain.congr rfl rfl rfl rfl rfl rfl (List.take_append_of_le_length hw.count)
            (fun _ _ => rfl), rfl⟩
        · have hsum := sum_update_lt (w := w) (i := i) (c := 0) hpos
          exact Nat.add_lt_add_right (Nat.add_lt_add_right hsum _) _
        · dsimp only at hj
          have hji : j ≠ i := hne (by rw [hj]; simp)
          rw [Function.update_of_ne hji] at hj ⊢
          exact hw.running j st hj
        · dsimp only at hj
          have hji : j ≠ i := hne (by rw [hj]; simp)
          rw [Function.update_of_ne hji] at hj ⊢
          exact hw.sending j ok' hj
        · replace hj : ∀ st, Function.update p.workers i .sent j ≠ .running st := hj
          by_cases hji : j = i
          · subst hji
            exact hw.finished j (by rw [hi]; simp)
          · rw [Function.update_of_ne hji] at hj
            exact hw.finished j hj
        · exact List.nodup_append.mpr ⟨hw.nodup, by simp, fun a ha b hb hab => hnot (by simp_all)⟩
        · dsimp only
          by_cases hji : j = i
          · subst hji
            simp
          · simp [hji, hw.sent]
        · simpa using Nat.le_succ_of_le hw.count
        · show p.results ++ [ok] = _
          rw [List.drop_append_of_le_length hw.count, List.map_append, hw.results, ← hverdict]
          rfl
      · cases hs

/-- What the next result in the channel is. -/
theorem Workers.next (hw : Workers model history parts computeInfo p verdict order w)
    {result : Bool} {results : List Bool} (hres : p.results = result :: results) : ∃ i,
      order.take (p.count + 1) = order.take p.count ++ [i] ∧ result = verdict i ∧
      p.count + 1 ≤ order.length ∧ results = (order.drop (p.count + 1)).map verdict ∧
      ∃ l, Finished model (parts i) computeInfo p.kill (verdict i) l := by
  have hdrop := hw.results
  rw [hres] at hdrop
  obtain ⟨i, rest, hrest, rfl, rfl⟩ := List.map_eq_cons_iff.mp hdrop.symm
  have hlt : p.count < order.length := by
    by_contra hge
    rw [List.drop_of_length_le (by omega)] at hrest
    cases hrest
  rw [List.drop_eq_getElem_cons hlt, List.cons.injEq] at hrest
  obtain ⟨hi, hrest⟩ := hrest
  have hsent : p.workers i = .sent := (hw.sent i).mp (by rw [← hi]; exact List.getElem_mem hlt)
  obtain ⟨l, -, hfin⟩ := hw.finished i (by rw [hsent]; simp)
  refine ⟨i, ?_, rfl, hlt, by rw [hrest], l, hfin⟩
  rw [← hi]
  exact List.take_succ_eq_append_getElem hlt

theorem length_le_of_nodup (h : order.Nodup) : order.length ≤ n := by
  simpa using h.length_le_card

theorem mem_of_nodup (h : order.Nodup) (hn : n ≤ order.length) (i : Fin n) : i ∈ order := by
  have hcard : order.toFinset.card = Fintype.card (Fin n) := by
    rw [List.toFinset_card_of_nodup h, Fintype.card_fin]
    exact Nat.le_antisymm (length_le_of_nodup h) hn
  rw [← List.mem_toFinset, Finset.eq_univ_of_card _ hcard]
  exact Finset.mem_univ i

theorem Inv.receive {c : Nat} (h : Inv model history parts computeInfo timed p c)
    (hs : p.receive computeInfo = some p') :
    ∃ c' < c, Inv model history parts computeInfo timed p' c' := by
  obtain ⟨halive, verdict, order, w, hw, hmain, rfl⟩ := h
  have hlen := length_le_of_nodup hw.nodup
  unfold Parallel.receive at hs
  split at hs
  · next result results hphase hres =>
      obtain ⟨i, htake, rfl, hcount, rfl, l, hfin⟩ := hw.next hres
      obtain ⟨hkill, htimedOut, hlt, hok⟩ := hmain.waiting hphase
      -- `ok` stands for all results so far, and all of them are true to the parts
      have hok' : (p.ok && verdict i) = true ↔
          ∀ j ∈ order.take (p.count + 1), verdict j = true := by
        rw [Bool.and_eq_true, hok, htake]
        simp [or_imp, forall_and]
      have hillegal : (p.ok && verdict i) = false →
          ∃ j, ¬ Linearizable model.init model.step (parts j) := by
        intro hf
        rcases Bool.and_eq_false_iff.mp hf with hf | hf
        · exact hmain.illegal hf
        · exact ⟨i, hfin.no hkill hf⟩
      split at hs
      · next hstop =>
          cases hs
          obtain ⟨hfalse, hinfo⟩ := (Bool.and_eq_true_iff.mp hstop)
          rw [Bool.not_eq_true'] at hfalse hinfo
          refine ⟨_, ?_, halive, verdict, order, w,
            ⟨hw.running, hw.sending, fun j hj => ?_, hw.nodup, hw.sent, hcount, rfl⟩,
            ⟨fun hw' => (by cases hw'), hillegal, fun _ htrue => ?_, fun ht => ?_,
              fun _ => .inr hinfo, fun hr => (by cases hr)⟩, rfl⟩
          · simp only [hphase, Phase.left]
            omega
          · obtain ⟨l, hl, hfin⟩ := hw.finished j hj
            exact ⟨l, hl, hfin.killed⟩
          · dsimp only at htrue
            rw [hfalse] at htrue
            cases htrue
          · dsimp only at ht
            rw [htimedOut] at ht
            cases ht
      · cases hs
        refine ⟨_, ?_, halive, verdict, order, w,
          ⟨hw.running, hw.sending, hw.finished, hw.nodup, hw.sent, hcount, rfl⟩,
          ⟨fun hw' => ?_, hillegal, fun hw' htrue _ j => ?_, hmain.timed, hmain.killed,
            fun hr => ?_⟩, rfl⟩
        · dsimp only
          rw [hphase]
          split <;> simp only [Phase.left] <;> omega
        · dsimp only at hw'
          split at hw'
          · cases hw'
          · next hmore => exact ⟨hkill, htimedOut, fun _ => Nat.lt_of_not_le hmore, hok'⟩
        · -- the last result has come
          dsimp only at hw' htrue
          split at hw'
          · have hall := List.take_of_length_le (show order.length ≤ p.count + 1 by omega)
            have hmem := mem_of_nodup hw.nodup (by omega) j
            have hsent := (hw.sent j).mp hmem
            obtain ⟨l, -, hfin⟩ := hw.finished j (by rw [hsent]; simp)
            exact hfin.yes (hok'.mp htrue j (by rw [hall]; exact hmem))
          · exact absurd rfl hw'
        · dsimp only at hr
          split at hr <;> cases hr
  · next results hphase hres =>
      split at hs
      · next hmore =>
          cases hs
          obtain ⟨i, -, -, hcount, rfl, -⟩ := hw.next hres
          refine ⟨_, ?_, halive, verdict, order, w,
            ⟨hw.running, hw.sending, hw.finished, hw.nodup, hw.sent, hcount, rfl⟩,
            ⟨fun hw' => ?_, hmain.illegal, hmain.legal, hmain.timed, hmain.killed, hmain.info⟩, rfl⟩
          · dsimp only
            omega
          · dsimp only at hw'
            rw [hphase] at hw'
            cases hw'
      · cases hs
  · cases hs

theorem Inv.timeout {c : Nat} (h : Inv model history parts computeInfo timed p c)
    (hs : p.timeout timed = some p') :
    ∃ c' < c, Inv model history parts computeInfo timed p' c' := by
  obtain ⟨halive, verdict, order, w, hw, hmain, rfl⟩ := h
  unfold Parallel.timeout at hs
  split at hs
  · next hen =>
      cases hs
      refine ⟨_, ?_, halive, verdict, order, w,
        ⟨hw.running, hw.sending, fun j hj => ?_, hw.nodup, hw.sent, hw.count, hw.results⟩,
        ⟨fun hw' => (by cases hw'), hmain.illegal, fun _ _ ht => (by cases ht), fun _ => hen.1,
          fun _ => .inl rfl, fun hr => (by cases hr)⟩, rfl⟩
      · simp only [hen.2, Phase.left]
        omega
      · obtain ⟨l, hl, hfin⟩ := hw.finished j hj
        exact ⟨l, hl, hfin.killed⟩
  · cases hs

theorem mem_pointers {l : Longest} {k : Nat} :
    k ∈ pointers (some l) ↔ ∃ i : Nat, l.longest[i]? = some (some k) := by
  simp only [pointers, Option.map_some, Option.getD_some, List.mem_dedup, List.mem_filterMap, id]
  constructor
  · rintro ⟨o, ho, rfl⟩
    exact List.mem_iff_getElem?.mp ho
  · rintro ⟨i, hi⟩
    exact ⟨some k, List.mem_of_getElem? hi, rfl⟩

/-- The sequences that are copied, whatever the order. -/
theorem mem_partials {l : Longest} {ptrs : List Nat} (hptrs : ptrs.Perm (pointers (some l)))
    {seq : List Int} : seq ∈ partials (some l) ptrs ↔
      ∃ i k : Nat, l.longest[i]? = some (some k) ∧ l.seqs[k]? = some seq := by
  simp only [partials, List.mem_filterMap, hptrs.mem_iff, mem_pointers, Option.bind_some]
  constructor
  · rintro ⟨k, ⟨i, hi⟩, hk⟩
    exact ⟨i, k, hi, hk⟩
  · rintro ⟨i, k, hi, hk⟩
    exact ⟨k, ⟨i, hi⟩, hk⟩

theorem Inv.report {c : Nat} (h : Inv model history parts computeInfo timed p c)
    {ptrs : Fin n → List Nat} (hs : p.report history computeInfo ptrs = some p') :
    ∃ c' < c, Inv model history parts computeInfo timed p' c' := by
  obtain ⟨halive, verdict, order, w, hw, hmain, rfl⟩ := h
  unfold Parallel.report at hs
  split at hs
  · cases hs
  · next hphase =>
      replace hphase : p.phase = .collecting := by simpa using hphase
      have hleft : Phase.left .returned < p.phase.left := by
        rw [hphase]
        exact Nat.zero_lt_one
      have hlegal := hmain.legal (by rw [hphase]; simp)
      split at hs
      · split at hs
        · next hinfo hen =>
            cases hs
            obtain ⟨hcount, hptrs⟩ := hen
            have hfin : ∀ i, ∃ l, p.longest i = some l ∧
                Finished model (parts i) computeInfo p.kill (verdict i) l := by
              intro i
              have hsent := (hw.sent i).mp
                (mem_of_nodup hw.nodup (Nat.le_trans hcount hw.count) i)
              exact hw.finished i (by rw [hsent]; simp)
            refine ⟨_, Nat.add_lt_add_left hleft _, halive, verdict, order, w,
              ⟨hw.running, hw.sending, hw.finished, hw.nodup, hw.sent, hw.count, hw.results⟩,
              ⟨fun hw' => (by cases hw'), hmain.illegal, fun _ => hlegal, hmain.timed,
                hmain.killed, fun _ _ => ⟨_, rfl, rfl, fun i seq hseq => ?_,
                  fun ht i ks hks k hk => ?_⟩⟩, rfl⟩
            · obtain ⟨l, hl, hfin⟩ := hfin i
              have hp := hptrs i
              rw [hl] at hp
              replace hseq : seq ∈ partials (p.longest i) (ptrs i) := hseq
              rw [hl, mem_partials hp] at hseq
              obtain ⟨j, k, hj, hk⟩ := hseq
              obtain ⟨ks, hks, hbegins, -⟩ := hfin.sound j k hj
              rw [hk] at hks
              cases hks
              exact hbegins
            · obtain ⟨l, hl, hfin⟩ := hfin i
              have hp := hptrs i
              rw [hl] at hp
              have hkill : p.kill = false := by
                by_contra hkill
                rcases hmain.killed (by simpa using hkill) with ht' | ht'
                · rw [ht'] at ht
                  cases ht
                · rw [ht'] at hinfo
                  cases hinfo
              obtain ⟨j, seq, hj, hseq, hle⟩ := hfin.noted hkill hinfo ks hks k hk
              obtain ⟨ks', hks', -, hmem⟩ := hfin.sound _ _ hj
              rw [hseq] at hks'
              cases hks'
              refine ⟨seq, ?_, ?_, hle⟩
              · show seq ∈ partials (p.longest i) (ptrs i)
                rw [hl, mem_partials hp]
                exact ⟨_, j, hj, hseq⟩
              · rwa [Int.toNat_of_nonneg (hks.range k hk).1] at hmem
        · cases hs
      · next hinfo =>
          cases hs
          refine ⟨_, Nat.add_lt_add_left hleft _, halive, verdict, order, w,
            ⟨hw.running, hw.sending, hw.finished, hw.nodup, hw.sent, hw.count, hw.results⟩,
            ⟨fun hw' => (by cases hw'), hmain.illegal, fun _ => hlegal, hmain.timed,
              hmain.killed, fun _ hi => absurd hi hinfo⟩, rfl⟩

theorem Inv.step (hes : ∀ i, EntriesOf (parts i) (history i))
    (htimes : ∀ i, ∀ a ∈ parts i, a.call ≤ a.ret) (heq : model.EqualSound) {c : Nat}
    (h : Inv model history parts computeInfo timed p c) {a : Action n}
    (hs : p.step model history computeInfo timed a = some p') :
    ∃ c' < c, Inv model history parts computeInfo timed p' c' := by
  unfold Parallel.step at hs
  rw [h.1] at hs
  cases a with
  | turn i => exact h.turn hes htimes heq hs
  | send i => exact h.send hs
  | receive => exact h.receive hs
  | timeout => exact h.timeout hs
  | report order => exact h.report hs

theorem inv_start (model : Model I O S) (computeInfo timed : Bool)
    (hes : ∀ i, EntriesOf (parts i) (history i)) :
    ∃ c, Inv model history parts computeInfo timed (.start model history) c := by
  refine ⟨_, rfl, fun _ => false, [], fun i =>
    (space model (opOf (inputsOutputs (parts i))) (history i)).budget (history i).length
      ((space model (opOf (inputsOutputs (parts i))) (history i)).start (.first model)) + 2,
    ⟨fun i st hi => ?_, fun i ok hi => ?_, fun i hi => ?_, .nil, fun i => ?_, Nat.le_refl 0, rfl⟩,
    ⟨fun _ => ⟨rfl, rfl, id, by simp [Parallel.start]⟩, fun h => (by cases h),
      fun h => absurd rfl h, fun h => (by cases h), fun h => (by cases h), fun h => (by cases h)⟩,
    rfl⟩
  · cases hi
    exact ⟨_, running_start (hes i).wellFormed _, Nat.le_refl _⟩
  · cases hi
  · exact absurd rfl (hi _)
  · simp [Parallel.start]

theorem Inv.path (hes : ∀ i, EntriesOf (parts i) (history i))
    (htimes : ∀ i, ∀ a ∈ parts i, a.call ≤ a.ret) (heq : model.EqualSound)
    (h : Run.Path (Parallel.step model history computeInfo timed) Run.always
      (.start model history) p) : ∃ c, Inv model history parts computeInfo timed p c := by
  refine h.invariant (P := fun p => ∃ c, Inv model history parts computeInfo timed p c) ?_
    (inv_start model computeInfo timed hes)
  rintro s a t ⟨c, hinv⟩ - hs
  obtain ⟨c', -, hinv'⟩ := hinv.step hes htimes heq hs
  exact ⟨c', hinv'⟩

/-- Until the main goroutine is back, somebody can move; it depends on the timeout only if
there is nothing to wait for. -/
theorem Inv.enabled (hes : ∀ i, EntriesOf (parts i) (history i))
    (htimes : ∀ i, ∀ a ∈ parts i, a.call ≤ a.ret) (heq : model.EqualSound) {c : Nat}
    (h : Inv model history parts computeInfo timed p c) (hphase : p.phase ≠ .returned)
    (hn : 0 < n ∨ timed = true) : ∃ a, (p.step model history computeInfo timed a).isSome = true ∧
      (0 < n → a ≠ .timeout) := by
  obtain ⟨halive, verdict, order, w, hw, hmain, -⟩ := h
  have hlen := length_le_of_nodup hw.nodup
  have hresults : p.results.length = order.length - p.count := by
    rw [hw.results, List.length_map, List.length_drop]
  by_cases hrun : ∃ i st, p.workers i = .running st
  · obtain ⟨i, st, hi⟩ := hrun
    obtain ⟨bt, hrun, -⟩ := hw.running i st hi
    obtain ⟨t, hturn, -⟩ := hrun.workerTurned (hes i) (htimes i) heq p.kill
    refine ⟨.turn i, ?_, fun _ => by simp⟩
    cases t <;> simp [Parallel.step, halive, Parallel.turn, hi, hturn]
  by_cases hsend : ∃ i ok, p.workers i = .sending ok
  · obtain ⟨i, ok, hi⟩ := hsend
    have hnot : i ∉ order := fun hmem => by
      rw [(hw.sent i).mp hmem] at hi
      cases hi
    -- so the channel has room
    have hroom : p.results.length < n := by
      by_contra hfull
      exact hnot (mem_of_nodup hw.nodup (by omega) i)
    exact ⟨.send i, by simp [Parallel.step, halive, Parallel.send, hi, hroom], fun _ => by simp⟩
  have hall : order.length = n := by
    have hmem : ∀ i, i ∈ order := by
      intro i
      rw [hw.sent]
      cases hi : p.workers i with
      | running st => exact absurd ⟨i, st, hi⟩ hrun
      | sending ok => exact absurd ⟨i, ok, hi⟩ hsend
      | sent => rfl
    have hcard := List.toFinset_card_of_nodup hw.nodup
    rw [Finset.eq_univ_iff_forall.mpr fun i => List.mem_toFinset.mpr (hmem i), Finset.card_univ,
      Fintype.card_fin] at hcard
    exact hcard.symm
  have hnext : p.count < n → ∃ result results, p.results = result :: results := fun hlt =>
    List.exists_cons_of_length_pos (by omega)
  cases hp : p.phase with
  | returned => exact absurd hp hphase
  | waiting =>
      by_cases h0 : 0 < n
      · obtain ⟨result, results, hres⟩ := hnext ((hmain.waiting hp).2.2.1 h0)
        refine ⟨.receive, ?_, fun _ => by simp⟩
        simp only [Parallel.step, halive, Bool.false_eq_true, if_false, Parallel.receive, hp, hres]
        split <;> rfl
      · exact ⟨.timeout, by simp [Parallel.step, halive, Parallel.timeout, hp, hn.resolve_left h0],
          fun h => absurd h h0⟩
  | collecting =>
      by_cases hmore : computeInfo = true ∧ p.count < n
      · obtain ⟨result, results, hres⟩ := hnext hmore.2
        exact ⟨.receive, by simp [Parallel.step, halive, Parallel.receive, hp, hres, hmore],
          fun _ => by simp⟩
      · refine ⟨.report fun i => pointers (p.longest i), ?_, fun _ => by simp⟩
        cases hinfo : computeInfo with
        | false => simp [Parallel.step, halive, Parallel.report, hp]
        | true =>
            have hle : n ≤ p.count := Nat.le_of_not_lt fun hlt => hmore ⟨hinfo, hlt⟩
            simp [Parallel.step, halive, Parallel.report, hp, hle]

/-- From every state of a run the main goroutine can get back. -/
theorem Inv.exists_result (hes : ∀ i, EntriesOf (parts i) (history i))
    (htimes : ∀ i, ∀ a ∈ parts i, a.call ≤ a.ret) (heq : model.EqualSound)
    (hn : 0 < n ∨ timed = true) {c : Nat} (h : Inv model history parts computeInfo timed p c) :
    ∃ p', Run.Path (Parallel.step model history computeInfo timed) Run.always p p' ∧
      p'.phase = .returned := by
  induction c using Nat.strong_induction_on generalizing p with
  | _ c ih =>
      by_cases hphase : p.phase = .returned
      · exact ⟨p, .refl p, hphase⟩
      · obtain ⟨a, ha, -⟩ := h.enabled hes htimes heq hphase hn
        obtain ⟨q, hq⟩ := Option.isSome_iff_exists.mp ha
        obtain ⟨c', hlt, hinv⟩ := h.step hes htimes heq hq
        obtain ⟨p', hpath, hret⟩ := ih c' hlt hinv
        exact ⟨p', (Run.Path.single trivial hq).trans hpath, hret⟩

theorem Main.result (h : Main model history parts computeInfo timed p verdict order) :
    (p.result = some .ok → ∀ i, Linearizable model.init model.step (parts i)) ∧
    (p.result = some .illegal → ∃ i, ¬ Linearizable model.init model.step (parts i)) ∧
    (p.result = some .unknown → timed = true) := by
  unfold Parallel.result
  by_cases hphase : p.phase = .returned
  · have hlegal := h.legal (by rw [hphase]; simp)
    rw [if_pos hphase]
    cases hok : p.ok with
    | false => exact ⟨fun h => (by cases h), fun _ => h.illegal hok, fun h => (by cases h)⟩
    | true =>
        cases ht : p.timedOut with
        | false => exact ⟨fun _ => hlegal hok ht, fun h => (by cases h), fun h => (by cases h)⟩
        | true => exact ⟨fun h => (by cases h), fun h => (by cases h), fun _ => h.timed ht⟩
  · rw [if_neg hphase]
    exact ⟨fun h => (by cases h), fun h => (by cases h), fun h => (by cases h)⟩

/-- Whatever the order in which the goroutines move, nothing panics, `Ok` means that all
parts are linearizable and `Illegal` that one is not, and only a timeout makes the result
`Unknown`. -/
theorem checkParallel_result (hes : ∀ i, EntriesOf (parts i) (history i))
    (htimes : ∀ i, ∀ a ∈ parts i, a.call ≤ a.ret) (heq : model.EqualSound)
    (h : Run.Path (Parallel.step model history computeInfo timed) Run.always
      (.start model history) p) :
    p.panicked = false ∧
    (p.result = some .ok → ∀ i, Linearizable model.init model.step (parts i)) ∧
    (p.result = some .illegal → ∃ i, ¬ Linearizable model.init model.step (parts i)) ∧
    (p.result = some .unknown → timed = true) := by
  obtain ⟨c, halive, verdict, order, w, -, hmain, -⟩ := Inv.path hes htimes heq h
  exact ⟨halive, hmain.result⟩

/-- A `get` that reads `a`, which was never written. -/
def staleGet : List Models.KvOperation :=
  [{ clientId := 2
     input := { op := .get, key := [121], value := [] }
     call := 2
     output := { value := [97] }
     ret := 3 }]

/-- Two keys, with a stale read of the second. -/
def twoKeys (i : Fin 2) : List Models.KvOperation := if i = 0 then twoPuts else staleGet

def twoKeysEntries (i : Fin 2) : List (Entry Models.KvInput Models.KvOutput) :=
  makeEntries (List.insertionSort fun a b => b.less a = false) (twoKeys i)

theorem times_twoKeys : ∀ i, ∀ a ∈ twoKeys i, a.call ≤ a.ret := by decide

theorem entriesOf_twoKeysEntries (i : Fin 2) : EntriesOf (twoKeys i) (twoKeysEntries i) :=
  entriesOf_makeEntries sortsByTime_insertionSort (times_twoKeys i)

/-- The stale read is found first, and the search for the other key is killed. -/
theorem checkParallel_result_twoKeys :
    ∃ p, Run.Path (Parallel.step kvModel twoKeysEntries false true) Run.always
      (.start kvModel twoKeysEntries) p ∧ p.result = some .illegal ∧
    ∃ i, ¬ Linearizable kvModel.init kvModel.step (twoKeys i) := by
  have hexec : (Run.exec (Parallel.step kvModel twoKeysEntries false true) Run.always
      (.start kvModel twoKeysEntries)
      [.turn 0, .turn 0, .turn 1, .turn 1, .send 1, .receive, .turn 0, .send 0,
        .report fun _ => []]).map Parallel.result = some (some .illegal) := by
    decide +kernel
  obtain ⟨p, hpath, hres⟩ := Run.path_of_exec_map _ _ hexec
  exact ⟨p, hpath, hres, (checkParallel_result entriesOf_twoKeysEntries times_twoKeys
    (equalSound_fillDefault _ rfl) hpath).2.2.1 hres⟩

/-- The steps taken and those left are never more than at the start. -/
theorem bounded_start (hes : ∀ i, EntriesOf (parts i) (history i))
    (htimes : ∀ i, ∀ a ∈ parts i, a.call ≤ a.ret) (heq : model.EqualSound) :
    ∃ bound, ∀ actions p, Run.exec (Parallel.step model history computeInfo timed) Run.always
      (.start model history) actions = some p → actions.length ≤ bound := by
  obtain ⟨bound, hstart⟩ := inv_start model computeInfo timed hes
  refine ⟨bound, fun actions p hexec => ?_⟩
  let P : List (Action n) → Parallel n I O S → Prop := fun done p =>
    ∃ c, Inv model history parts computeInfo timed p c ∧ c + done.length ≤ bound
  have hstep : ∀ done s a t, P done s → Run.always s a →
      s.step model history computeInfo timed a = some t → P (done ++ [a]) t := by
    rintro done s a t ⟨c, hinv, hle⟩ - hs
    obtain ⟨c', hlt, hinv'⟩ := hinv.step hes htimes heq hs
    exact ⟨c', hinv', by rw [List.length_append, List.length_singleton]; omega⟩
  have hP : P [] (.start model history) := ⟨bound, hstart, Nat.le_refl _⟩
  obtain ⟨c, -, hle⟩ := Run.exec_invariant hstep actions hP hexec
  rw [List.nil_append] at hle
  omega

theorem enabled_of_path (hes : ∀ i, EntriesOf (parts i) (history i))
    (htimes : ∀ i, ∀ a ∈ parts i, a.call ≤ a.ret) (heq : model.EqualSound)
    (hn : 0 < n ∨ timed = true)
    (hpath : Run.Path (Parallel.step model history computeInfo timed) Run.always
      (.start model history) p) (hres : p.result = none) :
    ∃ a, (p.step model history computeInfo timed a).isSome = true ∧ (0 < n → a ≠ .timeout) := by
  obtain ⟨c, hinv⟩ := Inv.path hes htimes heq hpath
  refine hinv.enabled hes htimes heq ?_ hn
  intro hphase
  rw [Parallel.result, if_pos hphase] at hres
  cases hres

/-- Without a timeout every run ends with a result. -/
theorem ends_with_result (hes : ∀ i, EntriesOf (parts i) (history i))
    (htimes : ∀ i, ∀ a ∈ parts i, a.call ≤ a.ret) (heq : model.EqualSound) (hn : 0 < n) :
    Run.Ends (Parallel.step model history false false) (.start model history)
      fun p => p.result ≠ none where
  bounded := bounded_start hes htimes heq
  progress := fun p hpath => by
    by_cases hres : p.result = none
    · obtain ⟨a, ha, -⟩ := enabled_of_path hes htimes heq (.inl hn) hpath hres
      exact .inr ⟨a, Option.isSome_iff_exists.mp ha⟩
    · exact .inl hres

/-- `checkParallel` returns: no run goes on for ever, and none gets stuck before. -/
theorem checkParallel_returns (hes : ∀ i, EntriesOf (parts i) (history i))
    (htimes : ∀ i, ∀ a ∈ parts i, a.call ≤ a.ret) (heq : model.EqualSound)
    (hn : 0 < n ∨ timed = true) :
    (∃ bound, ∀ actions p, Run.exec (Parallel.step model history computeInfo timed) Run.always
      (.start model history) actions = some p → actions.length ≤ bound) ∧
    ∀ p, Run.Path (Parallel.step model history computeInfo timed) Run.always
      (.start model history) p → p.result = none →
      ∃ a, (p.step model history computeInfo timed a).isSome = true ∧
        (0 < n → a ≠ .timeout) := by
  exact ⟨bounded_start hes htimes heq, fun p hpath => enabled_of_path hes htimes heq hn hpath⟩

theorem checkParallel_returns_twoKeys :
    (∃ bound, ∀ actions p, Run.exec (Parallel.step kvModel twoKeysEntries false false) Run.always
      (.start kvModel twoKeysEntries) actions = some p → actions.length ≤ bound) ∧
    ∀ p, Run.Path (Parallel.step kvModel twoKeysEntries false false) Run.always
      (.start kvModel twoKeysEntries) p → p.result = none →
      ∃ a, (p.step kvModel twoKeysEntries false false a).isSome = true ∧
        (0 < 2 → a ≠ .timeout) :=
  checkParallel_returns entriesOf_twoKeysEntries times_twoKeys (equalSound_fillDefault _ rfl)
    (.inl Nat.zero_lt_two)

/-- What a run returns that was asked for more than an answer: beginnings of linearizations,
and, unless there was a timeout, a longest one for every operation that is in any. -/
theorem checkParallel_info (hes : ∀ i, EntriesOf (parts i) (history i))
    (htimes : ∀ i, ∀ a ∈ parts i, a.call ≤ a.ret) (heq : model.EqualSound)
    (h : Run.Path (Parallel.step model history true timed) Run.always (.start model history) p)
    (hres : p.result ≠ none) : ∃ info, p.info = some info ∧ info.history = history ∧
      (∀ i, ∀ seq ∈ info.partialLinearizations i,
        Begins model.init model.step (parts i) seq) ∧
      (p.timedOut = false → ∀ i ks, Begins model.init model.step (parts i) ks → ∀ k ∈ ks,
        ∃ seq ∈ info.partialLinearizations i, k ∈ seq ∧ ks.length ≤ seq.length) := by
  obtain ⟨c, -, verdict, order, w, -, hmain, -⟩ := Inv.path hes htimes heq h
  have hphase : p.phase = .returned := by
    by_contra hphase
    rw [Parallel.result, if_neg hphase] at hres
    exact hres rfl
  obtain ⟨info, hinfo, hhist, hinf⟩ := hmain.info hphase rfl
  exact ⟨info, hinfo, hhist, hinf.sound, hinf.longest⟩

/-- A `put` of `a` and a `get` that reads it, at the same time. -/
def putGet : List Models.KvOperation :=
  [{ clientId := 0
     input := { op := .get, key := [120], value := [] }
     call := 0
     output := { value := [97] }
     ret := 3 },
   { clientId := 1
     input := { op := .put, key := [120], value := [97] }
     call := 1
     output := { value := [] }
     ret := 2 }]

def putGetEntries (_ : Fin 1) : List (Entry Models.KvInput Models.KvOutput) :=
  makeEntries (List.insertionSort fun a b => b.less a = false) putGet

theorem checkParallel_info_putGet : ∃ p, Run.Path (Parallel.step kvModel putGetEntries true true)
    Run.always (.start kvModel putGetEntries) p ∧ p.result = some .ok ∧
    ∃ info, p.info = some info ∧ info.history = putGetEntries ∧
      (∀ i, ∀ seq ∈ info.partialLinearizations i,
        Begins kvModel.init kvModel.step putGet seq) ∧
      (p.timedOut = false → ∀ i ks, Begins kvModel.init kvModel.step putGet ks → ∀ k ∈ ks,
        ∃ seq ∈ info.partialLinearizations i, k ∈ seq ∧ ks.length ≤ seq.length) := by
  have hexec : (Run.exec (Parallel.step kvModel putGetEntries true true) Run.always
      (.start kvModel putGetEntries)
      [.turn 0, .turn 0, .turn 0, .turn 0, .send 0, .receive, .report fun _ => [0]]).map
      Parallel.result = some (some .ok) := by
    decide +kernel
  obtain ⟨p, hpath, hres⟩ := Run.path_of_exec_map _ _ hexec
  have hes : ∀ i, EntriesOf putGet (putGetEntries i) := fun i =>
    entriesOf_makeEntries sortsByTime_insertionSort (by decide)
  exact ⟨p, hpath, hres, checkParallel_info hes (fun _ => by decide)
    (equalSound_fillDefault _ rfl) hpath (by rw [hres]; simp)⟩

end Runs

/-- Without parts the main goroutine can only wait for the timeout. -/
theorem checkParallel_nothing {model : Model I O S} {history : Fin n → List (Entry I O)}
    {computeInfo timed : Bool} {p : Parallel n I O S} (hn : n = 0)
    (h : Run.Path (Parallel.step model history computeInfo timed) Run.always
      (.start model history) p) :
    p.result = none ∨ timed = true ∧ p.result = some .unknown := by
  have hinv : p.results = [] ∧ p.ok = true ∧
      (p.phase = .waiting ∨ timed = true ∧ p.timedOut = true) := by
    refine h.invariant (P := fun p => p.results = [] ∧ p.ok = true ∧
      (p.phase = .waiting ∨ timed = true ∧ p.timedOut = true)) ?_ ⟨rfl, rfl, .inl rfl⟩
    rintro s a t ⟨hres, hok, hphase⟩ - hs
    unfold Parallel.step at hs
    split at hs
    · cases hs
    · cases a with
      | turn i => exact (Fin.cast hn i).elim0
      | send i => exact (Fin.cast hn i).elim0
      | receive =>
          dsimp only [Parallel.receive] at hs
          split at hs
          · next hcons => cases hres.symm.trans hcons
          · next hcons => cases hres.symm.trans hcons
          · cases hs
      | timeout =>
          dsimp only [Parallel.timeout] at hs
          split at hs
          · next hen =>
              cases hs
              exact ⟨hres, hok, .inr ⟨hen.1, rfl⟩⟩
          · cases hs
      | report order =>
          dsimp only [Parallel.report] at hs
          split at hs
          · cases hs
          · next hcol =>
              have htimed := hphase.resolve_left fun hw => hcol (by rw [hw]; simp)
              split at hs
              · split at hs
                · cases hs
                  exact ⟨hres, hok, .inr htimed⟩
                · cases hs
              · cases hs
                exact ⟨hres, hok, .inr htimed⟩
  obtain ⟨-, hok, hphase⟩ := hinv
  unfold Parallel.result
  rcases hphase with hw | ⟨ht, hto⟩
  · rw [hw]
    exact .inl rfl
  · by_cases hret : p.phase = .returned
    · rw [if_pos hret, hok, hto]
      exact .inr ⟨ht, rfl⟩
    · rw [if_neg hret]
      exact .inl rfl

end Porcupine
end Labs
