import Labs.KvRaft.Log
import Mathlib.Logic.Relation

/-!
# Sessions over an agreed log

What the service is for, without its servers and its network: clerks with one operation
at a time, and a log.  An operation enters the log once it is called, possibly several
times, and it returns only if it is there.  From this alone the log is in order, so its
state is that of the first copies.
-/

namespace Labs
namespace KvRaft

open Models History

/-- The operation in progress: its place in the history and its command. -/
structure Pending where
  op : Nat
  cmd : Op

structure Sessions (m : Nat) where
  log : List Op
  seq : Fin m → Int
  calling : Fin m → Option Pending
  ops : List (Operation KvInput KvOutput)
  clock : Nat

namespace Sessions

variable {m : Nat}

/-- A command of clerk `i`: the one in progress, or an older one, which is in the log. -/
structure IssuedBy (id : Fin m → Int64) (a : Sessions m) (i : Fin m) (x : Op) : Prop where
  client : x.clientId = id i
  seq_lt : x.seq < a.seq i
  unique : ∀ e ∈ a.log, Same e x → e = x
  progress : (∃ call ∈ a.calling i, call.cmd = x) ∨
    (x ∈ a.log ∧ ∀ call ∈ a.calling i, x.seq < call.cmd.seq)

def start : Sessions m where
  log := []
  seq := fun _ => 0
  calling := fun _ => none
  ops := []
  clock := 0

/-- Clerk `i` calls. -/
def invoked (a : Sessions m) (i : Fin m) (cmd : Op) : Sessions m :=
  { a with
    seq := Function.update a.seq i (a.seq i + 1)
    calling := Function.update a.calling i (some { op := a.ops.length, cmd := cmd })
    ops := called a.ops cmd.input a.clock
    clock := a.clock + 1 }

/-- The call of clerk `i` returns. -/
def answered (a : Sessions m) (i : Fin m) (call : Pending) (out : Str) : Sessions m :=
  { a with
    calling := Function.update a.calling i none
    ops := returned a.ops call.op { value := out } a.clock
    clock := a.clock + 1 }

/-- A command enters the log. -/
def committed (a : Sessions m) (x : Op) : Sessions m :=
  { a with log := a.log ++ [x], clock := a.clock + 1 }

inductive Move (clean : (Str → Option Str) → Str → Prop) (id : Fin m → Int64)
    (a : Sessions m) : Sessions m → Prop
  | tick : Move clean id a { a with clock := a.clock + 1 }
  | invoke (i : Fin m) (cmd : Op) (hidle : a.calling i = none) (hclient : cmd.clientId = id i)
      (hseq : cmd.seq = a.seq i) : Move clean id a (a.invoked i cmd)
  | commit (i : Fin m) (x : Op) (hx : IssuedBy id a i x) : Move clean id a (a.committed x)
  | ret (i : Fin m) (call : Pending) (p : Nat) (out : Str) (hcall : a.calling i = some call)
      (hp : a.log[p]? = some call.cmd)
      (hout : call.cmd.opType = .get →
        out = Request.shown (((replay (a.log.take p)).1 call.cmd.key).getD errNoKey) ∧
        clean (replay (a.log.take p)).1 call.cmd.key) : Move clean id a (a.answered i call out)

section Fields

variable (a : Sessions m) (i : Fin m) (cmd : Op) (call : Pending) (out : Str) {j : Fin m}

theorem invoked_seq_self : (a.invoked i cmd).seq i = a.seq i + 1 := Function.update_self ..

theorem invoked_seq_of_ne (h : j ≠ i) : (a.invoked i cmd).seq j = a.seq j :=
  Function.update_of_ne h ..

theorem invoked_calling_self : (a.invoked i cmd).calling i =
    some { op := a.ops.length, cmd := cmd } := Function.update_self ..

theorem invoked_calling_of_ne (h : j ≠ i) : (a.invoked i cmd).calling j = a.calling j :=
  Function.update_of_ne h ..

theorem answered_calling_of_ne (h : j ≠ i) :
    (a.answered i call out).calling j = a.calling j := Function.update_of_ne h ..

theorem mem_answered_calling {call' : Pending} (h : call' ∈ (a.answered i call out).calling j) :
    j ≠ i ∧ call' ∈ a.calling j := by
  by_cases hj : j = i
  · subst hj
    rw [show (a.answered j call out).calling j = none from Function.update_self ..] at h
    cases h
  · rw [answered_calling_of_ne a i call out hj] at h
    exact ⟨hj, h⟩

end Fields

section Order

variable {clean : (Str → Option Str) → Str → Prop} {id : Fin m → Int64} {a a' : Sessions m}
  {i : Fin m} {x y : Op}

/-- A clerk uses a number once. -/
theorem IssuedBy.eq (hx : IssuedBy id a i x) (hy : IssuedBy id a i y) (h : Same x y) :
    x = y := by
  rcases hx.progress with ⟨call, hcall, rfl⟩ | ⟨hmem, -⟩
  · rcases hy.progress with ⟨call', hcall', rfl⟩ | ⟨-, hlt⟩
    · rw [Option.mem_def.mp hcall] at hcall'
      cases hcall'
      rfl
    · have hseq : call.cmd.seq = y.seq := h.2
      have := hlt call hcall
      omega
  · exact hy.unique x hmem h

theorem IssuedBy.move (hinj : Function.Injective id) (h : IssuedBy id a i x)
    (hm : Move clean id a a') : IssuedBy id a' i x := by
  cases hm with
  | tick => exact ⟨h.client, h.seq_lt, h.unique, h.progress⟩
  | invoke j cmd hidle hclient hseq =>
      by_cases hj : i = j
      · subst hj
        rcases h.progress with ⟨call, hcall, -⟩ | ⟨hmem, -⟩
        · rw [hidle] at hcall
          cases hcall
        · have hlt := h.seq_lt
          refine ⟨h.client, ?_, h.unique, .inr ⟨hmem, fun call hcall => ?_⟩⟩
          · rw [invoked_seq_self]
            omega
          · rw [invoked_calling_self] at hcall
            cases hcall
            show x.seq < cmd.seq
            omega
      · refine ⟨h.client, ?_, h.unique, ?_⟩
        · rw [invoked_seq_of_ne a j cmd hj]
          exact h.seq_lt
        · rw [invoked_calling_of_ne a j cmd hj]
          exact h.progress
  | commit j y hy =>
      refine ⟨h.client, h.seq_lt, fun e he hsame => ?_, ?_⟩
      · rcases List.mem_append.mp he with hold | hnew
        · exact h.unique e hold hsame
        · cases List.mem_singleton.mp hnew
          have hij : j = i := hinj (hy.client.symm.trans (hsame.1.trans h.client))
          subst hij
          exact hy.eq h hsame
      · rcases h.progress with hcur | ⟨hmem, hlt⟩
        · exact .inl hcur
        · exact .inr ⟨List.mem_append_left _ hmem, hlt⟩
  | ret j call p out hcall hp hout =>
      refine ⟨h.client, h.seq_lt, h.unique, ?_⟩
      by_cases hj : i = j
      · subst hj
        refine .inr ⟨?_, fun call' hcall' => ?_⟩
        · rcases h.progress with ⟨call', hcall', rfl⟩ | ⟨hmem, -⟩
          · rw [hcall] at hcall'
            cases hcall'
            exact List.mem_of_getElem? hp
          · exact hmem
        · exact absurd rfl (mem_answered_calling a i call out hcall').1
      · rw [answered_calling_of_ne a j call out hj]
        exact h.progress

/-- The log holds commands that clerks have issued, and it is in order. -/
structure Wf (id : Fin m → Int64) (a : Sessions m) : Prop where
  log : ∀ e ∈ a.log, ∃ i, IssuedBy id a i e
  client : ∀ i, ∀ call ∈ a.calling i, call.cmd.clientId = id i
  seq : ∀ i, ∀ call ∈ a.calling i, call.cmd.seq + 1 = a.seq i
  inOrder : Session.InOrder Op.clientId Op.seq a.log

theorem Wf.issuedBy (h : Wf id a) (hinj : Function.Injective id) {e : Op} (he : e ∈ a.log)
    (hclient : e.clientId = id i) : IssuedBy id a i e := by
  obtain ⟨j, hj⟩ := h.log e he
  have hji : j = i := hinj (hj.client.symm.trans hclient)
  exact hji ▸ hj

/-- A clerk's next number is not in the log. -/
theorem Wf.fresh (h : Wf id a) (hinj : Function.Injective id) (hclient : x.clientId = id i)
    (hseq : x.seq = a.seq i) : ∀ e ∈ a.log, ¬ Same e x := by
  intro e he hsame
  have hlt := (h.issuedBy hinj he (hsame.1.trans hclient)).seq_lt
  have heq : e.seq = x.seq := hsame.2
  omega

theorem Wf.issuedBy_call (h : Wf id a) (hinj : Function.Injective id) {call : Pending}
    (hcall : call ∈ a.calling i) : IssuedBy id a i call.cmd := by
  have hclient := h.client i call hcall
  have hseq := h.seq i call hcall
  refine ⟨hclient, by omega, fun e he hsame => ?_, .inl ⟨call, hcall, rfl⟩⟩
  rcases (h.issuedBy hinj he (hsame.1.trans hclient)).progress with
    ⟨call', hcall', rfl⟩ | ⟨-, hlt⟩
  · rw [Option.mem_def.mp hcall] at hcall'
    cases hcall'
    rfl
  · have := hlt call hcall
    have heq : e.seq = call.cmd.seq := hsame.2
    omega

/-- A command that is not yet in the log is the one in progress, above all its clerk's
numbers there. -/
theorem Wf.inOrder_commit (h : Wf id a) (hinj : Function.Injective id)
    (hx : IssuedBy id a i x) : Session.InOrder Op.clientId Op.seq (a.log ++ [x]) := by
  refine Session.inOrder_concat.mpr ⟨h.inOrder, ?_⟩
  rcases hx.progress with ⟨call, hcall, rfl⟩ | ⟨hmem, -⟩
  · by_cases hocc : Session.Occurs Op.clientId Op.seq a.log call.cmd
    · exact .inl hocc
    · refine .inr fun y hy hclient => ?_
      have hlt := (h.issuedBy hinj hy (hclient.trans hx.client)).seq_lt
      have hseq := h.seq i call hcall
      have hne : y.seq ≠ call.cmd.seq := fun heq => hocc ⟨y, hy, hclient, heq⟩
      omega
  · exact .inl ⟨x, hmem, rfl, rfl⟩

theorem Wf.move (h : Wf id a) (hinj : Function.Injective id) (hm : Move clean id a a') :
    Wf id a' := by
  have hstay : ∀ i e, IssuedBy id a i e → IssuedBy id a' i e := fun i e he => he.move hinj hm
  have hold : ∀ e ∈ a.log, ∃ i, IssuedBy id a' i e := by
    intro e he
    obtain ⟨i, hi⟩ := h.log e he
    exact ⟨i, hstay i e hi⟩
  cases hm with
  | tick => exact ⟨hold, h.client, h.seq, h.inOrder⟩
  | invoke j cmd hidle hclient hseq =>
      refine ⟨hold, fun i call hcall => ?_, fun i call hcall => ?_, h.inOrder⟩
      · by_cases hi : i = j
        · subst hi
          rw [invoked_calling_self] at hcall
          cases hcall
          exact hclient
        · rw [invoked_calling_of_ne a j cmd hi] at hcall
          exact h.client i call hcall
      · by_cases hi : i = j
        · subst hi
          rw [invoked_calling_self] at hcall
          cases hcall
          rw [invoked_seq_self, ← hseq]
        · rw [invoked_calling_of_ne a j cmd hi] at hcall
          rw [invoked_seq_of_ne a j cmd hi]
          exact h.seq i call hcall
  | commit j x hx =>
      refine ⟨fun e he => ?_, h.client, h.seq, h.inOrder_commit hinj hx⟩
      rcases List.mem_append.mp he with he | he
      · exact hold e he
      · cases List.mem_singleton.mp he
        exact ⟨j, hstay j x hx⟩
  | ret j call p out hcall hp hout =>
      exact ⟨hold, fun i call' hc => h.client i call' (mem_answered_calling a j call out hc).2,
        fun i call' hc => h.seq i call' (mem_answered_calling a j call out hc).2, h.inOrder⟩

theorem wf_start (id : Fin m → Int64) : Wf id start where
  log := fun _ he => by cases he
  client := fun _ _ hc => by cases hc
  seq := fun _ _ hc => by cases hc
  inOrder := fun _ _ hpre => by
    have := hpre.length_le
    simp [start] at this

theorem Wf.run (hinj : Function.Injective id)
    (h : Relation.ReflTransGen (Move clean id) start a) : Wf id a := by
  induction h with
  | refl => exact wf_start id
  | tail _ hm ih => exact ih.move hinj hm

end Order

end Sessions
end KvRaft
end Labs
