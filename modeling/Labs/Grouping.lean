import Mathlib.Data.List.Basic
import Mathlib.Data.List.Nodup
import Mathlib.Data.List.TakeWhile

/-!
# Grouping by key

A list sorted by key is cut into its runs of equal keys by a single pass: every key has
one run, which has all the elements with that key.  A list is also put into buckets by a
number below a bound, and the buckets together have every element once.
-/

namespace Labs
namespace Grouping

variable {α K : Type*} [DecidableEq K]

/-- The elements with the key, in the order of the list. -/
def having (key : α → K) (k : K) (l : List α) : List α := l.filter fun x => key x = k

/-- One pass over the list: the first element starts a run, which goes on as long as the
keys are equal.  The fuel bounds the number of runs. -/
def runs (key : α → K) : Nat → List α → List (K × List α)
  | 0, _ => []
  | _ + 1, [] => []
  | fuel + 1, x :: rest =>
    (key x, x :: rest.takeWhile fun y => key y = key x) ::
      runs key fuel (rest.dropWhile fun y => key y = key x)

section Runs

variable {key : α → K} {le : K → K → Prop}

theorem mem_having {k : K} {l : List α} {x : α} : x ∈ having key k l ↔ x ∈ l ∧ key x = k := by
  simp [having]

theorem having_ne_nil_iff {k : K} {l : List α} : having key k l ≠ [] ↔ ∃ x ∈ l, key x = k := by
  simp [having]

theorem having_ne_nil {l : List α} {x : α} (hx : x ∈ l) : having key (key x) l ≠ [] :=
  having_ne_nil_iff.mpr ⟨x, hx, rfl⟩

theorem having_eq_nil {k : K} {l : List α} (h : ∀ x ∈ l, key x ≠ k) : having key k l = [] := by
  refine List.filter_eq_nil_iff.mpr fun x hx => ?_
  simpa using h x hx

/-- In a sorted list, what follows the run of the first element has other keys. -/
theorem key_ne_of_mem_dropWhile (hle : ∀ a b, le a b → le b a → a = b) {x : α} {rest : List α}
    (hsorted : (x :: rest).Pairwise fun a b => le (key a) (key b)) {y : α}
    (hy : y ∈ rest.dropWhile fun y => key y = key x) : key y ≠ key x := by
  induction rest with
  | nil => cases hy
  | cons z rest ih =>
      obtain ⟨hx, hz, hrest⟩ : (∀ b ∈ z :: rest, le (key x) (key b)) ∧
          (∀ b ∈ rest, le (key z) (key b)) ∧ rest.Pairwise fun a b => le (key a) (key b) := by
        rw [List.pairwise_cons, List.pairwise_cons] at hsorted
        exact ⟨hsorted.1, hsorted.2.1, hsorted.2.2⟩
      by_cases hzx : key z = key x
      · rw [List.dropWhile_cons_of_pos (by simpa using hzx)] at hy
        exact ih (List.pairwise_cons.mpr ⟨fun b hb => hx b (List.mem_cons_of_mem _ hb), hrest⟩) hy
      · rw [List.dropWhile_cons_of_neg (by simpa using hzx)] at hy
        intro hyx
        refine hzx (hle _ _ ?_ (hx z List.mem_cons_self))
        rcases List.mem_cons.mp hy with rfl | hmem
        · exact absurd hyx hzx
        · rw [← hyx]
          exact hz y hmem

theorem key_eq_of_mem_takeWhile {x y : α} {rest : List α}
    (hy : y ∈ rest.takeWhile fun y => key y = key x) : key y = key x := by
  simpa using List.mem_takeWhile_imp hy

/-- The run of the first element has all the elements with its key. -/
theorem having_first (hle : ∀ a b, le a b → le b a → a = b) {x : α} {rest : List α}
    (hsorted : (x :: rest).Pairwise fun a b => le (key a) (key b)) :
    having key (key x) (x :: rest) = x :: rest.takeWhile fun y => key y = key x := by
  have hrun : having key (key x) (rest.takeWhile fun y => key y = key x) =
      rest.takeWhile fun y => key y = key x :=
    List.filter_eq_self.mpr fun y hy => by simpa using key_eq_of_mem_takeWhile hy
  have hothers : having key (key x) (rest.dropWhile fun y => key y = key x) = [] :=
    having_eq_nil fun y hy => key_ne_of_mem_dropWhile hle hsorted hy
  have hrest : having key (key x) rest = rest.takeWhile fun y => key y = key x := by
    rw [← hrun]
    nth_rewrite 1 [← List.takeWhile_append_dropWhile (p := fun y => key y = key x) (l := rest)]
    unfold having at hothers ⊢
    rw [List.filter_append, hothers, List.append_nil]
  unfold having at hrest ⊢
  rw [List.filter_cons_of_pos (by simp), hrest]

/-- Elements with another key come after that run. -/
theorem having_later {x : α} {rest : List α} {k : K} (hk : k ≠ key x) :
    having key k (x :: rest) = having key k (rest.dropWhile fun y => key y = key x) := by
  have hrun : having key k (rest.takeWhile fun y => key y = key x) = [] :=
    having_eq_nil fun y hy => by rw [key_eq_of_mem_takeWhile hy]; exact hk.symm
  have hfirst : ¬ key x = k := hk.symm
  unfold having at hrun ⊢
  rw [List.filter_cons_of_neg (by simpa using hfirst)]
  nth_rewrite 1 [← List.takeWhile_append_dropWhile (p := fun y => key y = key x) (l := rest)]
  rw [List.filter_append, hrun, List.nil_append]

/-- Each key of a sorted list has one run, with all its elements. -/
theorem runs_eq (hle : ∀ a b, le a b → le b a → a = b) {fuel : Nat} {l : List α}
    (hsorted : l.Pairwise fun a b => le (key a) (key b)) (hfuel : l.length ≤ fuel) :
    ∃ ks : List K, ks.Nodup ∧ (∀ k, k ∈ ks ↔ having key k l ≠ []) ∧
      runs key fuel l = ks.map fun k => (k, having key k l) := by
  induction fuel generalizing l with
  | zero =>
      have hnil : l = [] := List.length_eq_zero_iff.mp (by omega)
      subst hnil
      exact ⟨[], List.nodup_nil, by simp [having], rfl⟩
  | succ fuel ih =>
      cases l with
      | nil => exact ⟨[], List.nodup_nil, by simp [having], rfl⟩
      | cons x rest =>
          have hfirst := having_first hle hsorted
          have hsub := List.dropWhile_sublist (l := rest) fun y => key y = key x
          have hlen := hsub.length_le
          rw [List.length_cons] at hfuel
          obtain ⟨ks, hnodup, hmem, heq⟩ :=
            ih (hsorted.sublist (hsub.trans (List.sublist_cons_self _ _))) (by omega)
          have hnot : key x ∉ ks := by
            intro hk
            obtain ⟨y, hy⟩ := List.exists_mem_of_ne_nil _ ((hmem _).mp hk)
            obtain ⟨hin, hyx⟩ := mem_having.mp hy
            exact key_ne_of_mem_dropWhile hle hsorted hin hyx
          refine ⟨key x :: ks, List.nodup_cons.mpr ⟨hnot, hnodup⟩, fun k => ?_, ?_⟩
          · by_cases hk : k = key x
            · rw [hk, hfirst]
              simp
            · rw [having_later hk, ← hmem, List.mem_cons, or_iff_right hk]
          · rw [runs, heq, List.map_cons, hfirst]
            congr 1
            refine List.map_congr_left fun k hk => ?_
            have hne : k ≠ key x := by
              rintro rfl
              exact hnot hk
            rw [having_later hne]

end Runs

/-- The buckets of a list together have every element once. -/
theorem flatMap_bucket_perm (c : α → Nat) {n : Nat} {l : List α} (h : ∀ x ∈ l, c x < n) :
    ((List.range n).flatMap fun r => l.filter fun x => c x = r).Perm l := by
  have hbelow : ∀ m, ((List.range m).flatMap fun r => l.filter fun x => c x = r).Perm
      (l.filter fun x => c x < m) := by
    intro m
    induction m with
    | zero => simp
    | succ m ih =>
        rw [List.range_succ, List.flatMap_append, List.flatMap_singleton]
        refine (ih.append_right _).trans ?_
        have hsplit := List.filter_append_perm (fun x => decide (c x < m))
          (l.filter fun x => c x < m + 1)
        rw [List.filter_filter, List.filter_filter] at hsplit
        refine List.Perm.trans (List.Perm.of_eq ?_) hsplit
        congr 1
        · refine List.filter_congr fun x _ => ?_
          rw [Bool.eq_iff_iff]
          simp only [Bool.and_eq_true, decide_eq_true_eq]
          omega
        · refine List.filter_congr fun x _ => ?_
          rw [Bool.eq_iff_iff]
          simp only [Bool.and_eq_true, Bool.not_eq_true', decide_eq_true_eq,
            decide_eq_false_iff_not]
          omega
  refine (hbelow n).trans (List.Perm.of_eq ?_)
  exact List.filter_eq_self.mpr fun x hx => by simpa using h x hx

end Grouping
end Labs
