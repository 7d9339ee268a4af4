import Mathlib.Data.List.Perm.Basic
import Mathlib.Logic.Function.Basic
import Mathlib.Order.Lattice

/-!
# Orders of intervals, key by key

Every element has an interval, from its call to its return, and a key.  An order of some
elements respects the intervals if none stands after one that was called when it had
already returned.  Orders that respect the intervals, one for the elements of each key, can
be merged into one for all elements: of what is left, the element that returns first is
no later than any of them, so the first one with its key may come next.

An object that keeps one state for each key and steps them separately cannot tell the
merged order from its parts.  So a collection of operations is linearizable if it is so
key by key.
-/

namespace Labs
namespace Locality

variable {α K S T : Type*}

section Orders

variable [LinearOrder T] (call ret : α → T)

def Respects (l : List α) : Prop := l.Pairwise fun a b => ¬ ret b < call a

instance decidableRespects (l : List α) : Decidable (Respects call ret l) :=
  inferInstanceAs (Decidable (l.Pairwise _))

variable {call ret}

theorem exists_min {l : List α} (h : l ≠ []) (f : α → T) : ∃ x ∈ l, ∀ y ∈ l, f x ≤ f y := by
  induction l with
  | nil => exact absurd rfl h
  | cons a rest ih =>
      cases rest with
      | nil => exact ⟨a, List.mem_cons_self, by simp⟩
      | cons b rest =>
          obtain ⟨x, hx, hmin⟩ := ih (List.cons_ne_nil b rest)
          by_cases hle : f a ≤ f x
          · refine ⟨a, List.mem_cons_self, fun y hy => ?_⟩
            rcases List.mem_cons.mp hy with rfl | hy
            · exact le_refl _
            · exact hle.trans (hmin y hy)
          · refine ⟨x, List.mem_cons_of_mem a hx, fun y hy => ?_⟩
            rcases List.mem_cons.mp hy with rfl | hy
            · exact (not_le.mp hle).le
            · exact hmin y hy

variable [DecidableEq K] {key : α → K}

/-- The first element of some key may come before all the others. -/
theorem exists_first {l : List α} {ord : K → List α} (hne : l ≠ [])
    (hl : ∀ a ∈ l, call a ≤ ret a) (hperm : ∀ k, (ord k).Perm (l.filter (key · = k)))
    (hord : ∀ k, Respects call ret (ord k)) :
    ∃ a rest, ord (key a) = a :: rest ∧ a ∈ l ∧ ∀ y ∈ l, ¬ ret y < call a := by
  obtain ⟨x, hx, hmin⟩ := exists_min hne ret
  have hxord : x ∈ ord (key x) := by
    rw [(hperm (key x)).mem_iff, List.mem_filter]
    exact ⟨hx, by simp⟩
  cases hk : ord (key x) with
  | nil =>
      rw [hk] at hxord
      cases hxord
  | cons a rest =>
      have ha : a ∈ l ∧ key a = key x := by
        have hmem : a ∈ l.filter (key · = key x) := by
          rw [← (hperm (key x)).mem_iff, hk]
          exact List.mem_cons_self
        simpa using hmem
      refine ⟨a, rest, by rw [ha.2, hk], ha.1, fun y hy hlt => ?_⟩
      -- whoever returned before the call of `a`, `x` did so too
      have hxa : ret x < call a := lt_of_le_of_lt (hmin y hy) hlt
      rw [hk] at hxord
      rcases List.mem_cons.mp hxord with rfl | hxrest
      · exact absurd hxa (not_lt.mpr (hl x hx))
      · have hresp := hord (key x)
        rw [hk, Respects, List.pairwise_cons] at hresp
        exact hresp.1 x hxrest hxa

theorem merge {l : List α} {ord : K → List α} (hl : ∀ a ∈ l, call a ≤ ret a)
    (hperm : ∀ k, (ord k).Perm (l.filter (key · = k)))
    (hord : ∀ k, Respects call ret (ord k)) :
    ∃ m, m.Perm l ∧ Respects call ret m ∧ ∀ k, m.filter (key · = k) = ord k := by
  -- by induction on what is left to order
  generalize hn : l.length = n
  induction n generalizing l ord with
  | zero =>
      obtain rfl := List.length_eq_zero_iff.mp hn
      exact ⟨[], .refl _, .nil, fun k => (hperm k).eq_nil.symm⟩
  | succ n ih =>
      have hne : l ≠ [] := by
        rintro rfl
        cases hn
      obtain ⟨a, rest, hk, ha, hfirst⟩ := exists_first hne hl hperm hord
      obtain ⟨l₁, l₂, rfl⟩ := List.append_of_mem ha
      have hmid : (l₁ ++ a :: l₂).Perm (a :: (l₁ ++ l₂)) := List.perm_middle
      have hsub : ∀ b ∈ l₁ ++ l₂, b ∈ l₁ ++ a :: l₂ := fun b hb =>
        hmid.mem_iff.mpr (List.mem_cons_of_mem a hb)
      have hperm' : ∀ k, (Function.update ord (key a) rest k).Perm
          ((l₁ ++ l₂).filter (key · = k)) := by
        intro k
        have hfilter := (hperm k).trans (hmid.filter _)
        by_cases hka : k = key a
        · subst hka
          rw [hk, List.filter_cons_of_pos (by simp)] at hfilter
          rw [Function.update_self]
          exact hfilter.cons_inv
        · rw [List.filter_cons_of_neg (by simp [Ne.symm hka])] at hfilter
          rw [Function.update_of_ne hka]
          exact hfilter
      have hord' : ∀ k, Respects call ret (Function.update ord (key a) rest k) := by
        intro k
        by_cases hka : k = key a
        · subst hka
          have hresp := hord (key a)
          rw [hk] at hresp
          rw [Function.update_self]
          exact hresp.of_cons
        · rw [Function.update_of_ne hka]
          exact hord k
      obtain ⟨m, hm, hresp, hkeys⟩ := ih (fun b hb => hl b (hsub b hb)) hperm' hord'
        (by rw [List.length_append, List.length_cons] at hn; rw [List.length_append]; omega)
      refine ⟨a :: m, (hm.cons a).trans hmid.symm, .cons (fun b hb => ?_) hresp, fun k => ?_⟩
      · exact hfirst b (hsub b (hm.mem_iff.mp hb))
      · by_cases hka : k = key a
        · subst hka
          rw [List.filter_cons_of_pos (by simp), hkeys, Function.update_self, hk]
        · rw [List.filter_cons_of_neg (by simp [Ne.symm hka]), hkeys, Function.update_of_ne hka]

end Orders

/-! ## Objects -/

/-- Each element is accepted in the state that those before it lead to. -/
def Legal (step : S → α → Bool × S) : S → List α → Prop
  | _, [] => True
  | s, a :: rest => (step s a).1 = true ∧ Legal step (step s a).2 rest

instance decidableLegal (step : S → α → Bool × S) : (s : S) → (l : List α) →
    Decidable (Legal step s l)
  | _, [] => isTrue trivial
  | s, a :: rest =>
    have := decidableLegal step (step s a).2 rest
    inferInstanceAs (Decidable ((step s a).1 = true ∧ Legal step (step s a).2 rest))

/-- The state that a list of elements leads to. -/
def final (step : S → α → Bool × S) (s : S) (l : List α) : S :=
  l.foldl (fun s a => (step s a).2) s

theorem legal_append {step : S → α → Bool × S} {s : S} {l l' : List α} :
    Legal step s (l ++ l') ↔ Legal step s l ∧ Legal step (final step s l) l' := by
  induction l generalizing s with
  | nil => simp [Legal, final]
  | cons a rest ih =>
      show (step s a).1 = true ∧ Legal step (step s a).2 (rest ++ l') ↔ _
      rw [ih]
      simp only [Legal, final, List.foldl_cons, and_assoc]

theorem legal_map {β : Type*} {step : S → α → Bool × S} {f : β → α} {s : S} {l : List β} :
    Legal step s (l.map f) ↔ Legal (fun s b => step s (f b)) s l := by
  induction l generalizing s with
  | nil => exact Iff.rfl
  | cons b rest ih => exact and_congr_right fun _ => ih

def Linearizable [LinearOrder T] (call ret : α → T) (step : S → α → Bool × S) (s : S)
    (l : List α) : Prop :=
  ∃ m : List α, m.Perm l ∧ Respects call ret m ∧ Legal step s m

section Keyed

variable [DecidableEq K] {key : α → K} {step : S → α → Bool × S}

/-- One object for each key. -/
def keyed (key : α → K) (step : S → α → Bool × S) (st : K → S) (a : α) : Bool × (K → S) :=
  ((step (st (key a)) a).1, Function.update st (key a) (step (st (key a)) a).2)

theorem legal_keyed {st : K → S} {l : List α} :
    Legal (keyed key step) st l ↔ ∀ k, Legal step (st k) (l.filter (key · = k)) := by
  induction l generalizing st with
  | nil => exact ⟨fun _ _ => trivial, fun _ => trivial⟩
  | cons a rest ih =>
      show (step (st (key a)) a).1 = true ∧ Legal (keyed key step)
        (Function.update st (key a) (step (st (key a)) a).2) rest ↔ _
      rw [ih]
      constructor
      · rintro ⟨hok, hrest⟩ k
        have hk := hrest k
        by_cases hka : key a = k
        · subst hka
          rw [Function.update_self] at hk
          rw [List.filter_cons_of_pos (by simp)]
          exact ⟨hok, hk⟩
        · rw [Function.update_of_ne (Ne.symm hka)] at hk
          rw [List.filter_cons_of_neg (by simp [hka])]
          exact hk
      · intro h
        have hself := h (key a)
        rw [List.filter_cons_of_pos (by simp)] at hself
        refine ⟨hself.1, fun k => ?_⟩
        by_cases hka : key a = k
        · subst hka
          rw [Function.update_self]
          exact hself.2
        · have hk := h k
          rw [List.filter_cons_of_neg (by simp [hka])] at hk
          rw [Function.update_of_ne (Ne.symm hka)]
          exact hk

/-- Locality: all operations can be put in order if those of each key can. -/
theorem linearizable_keyed [LinearOrder T] {call ret : α → T} {st : K → S} {l : List α}
    (hl : ∀ a ∈ l, call a ≤ ret a) :
    Linearizable call ret (keyed key step) st l ↔
      ∀ k, Linearizable call ret step (st k) (l.filter (key · = k)) := by
  constructor
  · rintro ⟨m, hm, hresp, hlegal⟩ k
    exact ⟨m.filter (key · = k), hm.filter _, hresp.filter _, legal_keyed.mp hlegal k⟩
  · intro h
    choose ord hperm hord hlegal using h
    obtain ⟨m, hm, hresp, hkeys⟩ := merge hl hperm hord
    refine ⟨m, hm, hresp, legal_keyed.mpr fun k => ?_⟩
    rw [hkeys]
    exact hlegal k

end Keyed
end Locality
end Labs
