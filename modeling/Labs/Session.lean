import Mathlib.Data.List.Induction
import Mathlib.Logic.Function.Basic
import Mathlib.Order.Lattice

/-!
# Numbered requests of many clients

Every request has a client and a number, and a log may hold several copies of it.  A
filter that keeps one number for each client, the highest it has let pass, cannot know
which requests it has seen.  It lets exactly the first copies pass if the log is in
order: a request that is there for the first time has a number above all those its
client had before.
-/

namespace Labs
namespace Session

variable {α K N S : Type*} (client : α → K) (number : α → N)

/-- Copies of one request. -/
def Same (x y : α) : Prop := client x = client y ∧ number x = number y

def Occurs (l : List α) (x : α) : Prop := ∃ y ∈ l, Same client number y x

variable {client number}

theorem occurs_concat {l : List α} {x y : α} : Occurs client number (l ++ [y]) x ↔
    Occurs client number l x ∨ Same client number y x := by
  simp [Occurs, or_and_right, exists_or]

theorem Same.occurs_iff {l : List α} {x y : α} (h : Same client number x y) :
    Occurs client number l x ↔ Occurs client number l y := by
  obtain ⟨hclient, hnumber⟩ := h
  simp only [Occurs, Same, hclient, hnumber]

variable [LinearOrder N] (client number)

/-- A first copy comes after smaller numbers only. -/
def InOrder (l : List α) : Prop :=
  ∀ pre x, pre ++ [x] <+: l →
    Occurs client number pre x ∨ ∀ y ∈ pre, client y = client x → number y < number x

variable {client number}

theorem InOrder.of_isPrefix {l l' : List α} (h : InOrder client number l) (hle : l' <+: l) :
    InOrder client number l' :=
  fun pre x hpre => h pre x (hpre.trans hle)

theorem inOrder_concat {l : List α} {x : α} : InOrder client number (l ++ [x]) ↔
    InOrder client number l ∧
      (Occurs client number l x ∨ ∀ y ∈ l, client y = client x → number y < number x) := by
  constructor
  · exact fun h => ⟨h.of_isPrefix (List.prefix_append _ _), h l x (List.prefix_refl _)⟩
  · rintro ⟨h, hx⟩ pre z hpre
    rcases List.prefix_concat_iff.mp hpre with heq | hle
    · obtain ⟨rfl, hz⟩ := List.append_inj' heq rfl
      cases hz
      exact hx
    · exact h pre z hle

variable [DecidableEq K] (client number)

instance : DecidableRel (Same client number) := fun x y =>
  inferInstanceAs (Decidable (client x = client y ∧ number x = number y))

instance (l : List α) (x : α) : Decidable (Occurs client number l x) :=
  inferInstanceAs (Decidable (∃ y ∈ l, Same client number y x))

/-- The first copy of every request, in the order of the log. -/
def firsts (l : List α) : List α :=
  l.foldl (fun acc x => if Occurs client number acc x then acc else acc ++ [x]) []

/-- The mark of the client is not below the request. -/
def Marked (mark : K → Option N) (x : α) : Prop := ∃ s ∈ mark (client x), number x ≤ s

instance (mark : K → Option N) (x : α) : Decidable (Marked client number mark x) :=
  inferInstanceAs (Decidable (∃ s ∈ mark (client x), number x ≤ s))

/-- Execute a request that passes the filter. -/
def filterStep (f : S → α → S) (st : S × (K → Option N)) (x : α) : S × (K → Option N) :=
  if Marked client number st.2 x then st
  else (f st.1 x, Function.update st.2 (client x) (some (number x)))

def filtered (f : S → α → S) (s : S) (l : List α) : S × (K → Option N) :=
  l.foldl (filterStep client number f) (s, fun _ => none)

variable {client number}

theorem firsts_concat (l : List α) (x : α) : firsts client number (l ++ [x]) =
    if Occurs client number (firsts client number l) x then firsts client number l
    else firsts client number l ++ [x] := by
  rw [firsts, List.foldl_append, ← firsts]
  rfl

/-- The first copies stay as the list grows. -/
theorem firsts_isPrefix (l l' : List α) :
    firsts client number l <+: firsts client number (l ++ l') := by
  induction l' using List.reverseRecOn with
  | nil => exact (List.append_nil l).symm ▸ List.prefix_refl _
  | append_singleton l' x ih =>
      rw [← List.append_assoc, firsts_concat]
      split
      · exact ih
      · exact ih.trans (List.prefix_append _ _)

theorem occurs_firsts {l : List α} {x : α} :
    Occurs client number (firsts client number l) x ↔ Occurs client number l x := by
  induction l using List.reverseRecOn with
  | nil => rfl
  | append_singleton l y ih =>
      rw [firsts_concat, occurs_concat]
      by_cases hy : Occurs client number (firsts client number l) y
      · rw [if_pos hy, ih]
        constructor
        · exact .inl
        · rintro (hx | hsame)
          · exact hx
          · exact ih.mp (hsame.occurs_iff.mp hy)
      · rw [if_neg hy, occurs_concat, ih]

theorem mem_of_mem_firsts {l : List α} {x : α} (h : x ∈ firsts client number l) : x ∈ l := by
  induction l using List.reverseRecOn with
  | nil => exact h
  | append_singleton l y ih =>
      rw [firsts_concat] at h
      split at h
      · exact List.mem_append_left _ (ih h)
      · rcases List.mem_append.mp h with hold | hnew
        · exact List.mem_append_left _ (ih hold)
        · exact List.mem_append_right _ hnew

/-- A request that is in the log is once among the first copies. -/
theorem filter_firsts {l : List α} {x : α} (h : Occurs client number l x) : ∃ y ∈ l,
    Same client number y x ∧
    (firsts client number l).filter (fun z => Same client number z x) = [y] := by
  induction l using List.reverseRecOn with
  | nil =>
      obtain ⟨y, hy, -⟩ := h
      cases hy
  | append_singleton l z ih =>
      rw [firsts_concat]
      by_cases hx : Occurs client number l x
      · obtain ⟨y, hy, hsame, hfilter⟩ := ih hx
        refine ⟨y, List.mem_append_left _ hy, hsame, ?_⟩
        split
        · exact hfilter
        · next hz =>
            have hne : ¬ Same client number z x := fun hzx =>
              hz (occurs_firsts.mpr (hzx.occurs_iff.mpr hx))
            simp [hfilter, hne]
      · have hz : Same client number z x := (occurs_concat.mp h).resolve_left hx
        have hnew : ¬ Occurs client number (firsts client number l) z := fun hz' =>
          hx (hz.occurs_iff.mp (occurs_firsts.mp hz'))
        have hnone : (firsts client number l).filter (fun y => Same client number y x) = [] := by
          rw [List.filter_eq_nil_iff]
          intro y hy hsame
          exact hx (occurs_firsts.mp ⟨y, hy, of_decide_eq_true hsame⟩)
        refine ⟨z, List.mem_append_right _ List.mem_cons_self, hz, ?_⟩
        rw [if_neg hnew, List.filter_append, hnone]
        simp [hz]

theorem filtered_concat (f : S → α → S) (s : S) (l : List α) (x : α) :
    filtered client number f s (l ++ [x]) =
      filterStep client number f (filtered client number f s l) x := by
  simp [filtered]

theorem marked_update {mark : K → Option N} {x z : α} :
    Marked client number (Function.update mark (client z) (some (number z))) x ↔
      client z = client x ∧ number x ≤ number z ∨
      client z ≠ client x ∧ Marked client number mark x := by
  by_cases h : client z = client x
  · simp [Marked, h]
  · simp [Marked, h, Function.update_of_ne (Ne.symm h)]

/-- The mark of a client is the highest number it has had, in any log. -/
theorem marked_filtered (f : S → α → S) (s : S) {l : List α} {x : α} :
    Marked client number (filtered client number f s l).2 x ↔
      ∃ y ∈ l, client y = client x ∧ number x ≤ number y := by
  induction l using List.reverseRecOn with
  | nil => simp [filtered, Marked]
  | append_singleton l z ih =>
      have hsplit : (∃ y ∈ l ++ [z], client y = client x ∧ number x ≤ number y) ↔
          Marked client number (filtered client number f s l).2 x ∨
            client z = client x ∧ number x ≤ number z := by
        rw [ih]
        simp [or_and_right, exists_or]
      rw [hsplit, filtered_concat, filterStep]
      by_cases hz : Marked client number (filtered client number f s l).2 z
      · rw [if_pos hz]
        refine (or_iff_left_of_imp fun hx => ?_).symm
        -- the request is below one that is below the mark
        obtain ⟨s', hs', hle⟩ := hz
        exact ⟨s', hx.1 ▸ hs', hx.2.trans hle⟩
      · rw [if_neg hz, marked_update]
        constructor
        · rintro (hx | ⟨-, hx⟩)
          · exact .inr hx
          · exact .inl hx
        · rintro (hx | hx)
          · by_cases hclient : client z = client x
            · obtain ⟨s', hs', hle⟩ := hx
              refine .inl ⟨hclient, ?_⟩
              by_contra hlt
              exact hz ⟨s', hclient ▸ hs', (le_of_lt (not_le.mp hlt)).trans hle⟩
            · exact .inr ⟨hclient, hx⟩
          · exact .inl hx

/-- In a log that is in order the filter stops exactly the requests it has seen. -/
theorem InOrder.marked_iff {l : List α} {x : α} (h : InOrder client number (l ++ [x]))
    (f : S → α → S) (s : S) :
    Marked client number (filtered client number f s l).2 x ↔ Occurs client number l x := by
  rw [marked_filtered]
  constructor
  · rintro ⟨y, hy, hclient, hle⟩
    rcases (inOrder_concat.mp h).2 with hocc | hlt
    · exact hocc
    · exact absurd hle (not_le.mpr (hlt y hy hclient))
  · rintro ⟨y, hy, hclient, hnumber⟩
    exact ⟨y, hy, hclient, hnumber.ge⟩

/-- The filter executes the first copies, and nothing else. -/
theorem InOrder.filtered_eq {l : List α} (h : InOrder client number l) (f : S → α → S) (s : S) :
    (filtered client number f s l).1 = (firsts client number l).foldl f s := by
  induction l using List.reverseRecOn with
  | nil => rfl
  | append_singleton l x ih =>
      have hl := (inOrder_concat.mp h).1
      rw [filtered_concat, filterStep, firsts_concat]
      by_cases hx : Occurs client number l x
      · rw [if_pos ((h.marked_iff f s).mpr hx), if_pos (occurs_firsts.mpr hx), ih hl]
      · rw [if_neg (fun hm => hx ((h.marked_iff f s).mp hm)),
          if_neg (fun ho => hx (occurs_firsts.mp ho)), List.foldl_append, ← ih hl]
        rfl

/-- The first copies of a client's requests have rising numbers. -/
theorem InOrder.firsts_rising {l : List α} (h : InOrder client number l) :
    (firsts client number l).Pairwise fun x y => client x = client y → number x < number y := by
  induction l using List.reverseRecOn with
  | nil => exact .nil
  | append_singleton l x ih =>
      obtain ⟨hl, hx⟩ := inOrder_concat.mp h
      rw [firsts_concat]
      split
      · exact ih hl
      · next hnew =>
          rw [List.pairwise_append]
          refine ⟨ih hl, List.pairwise_singleton _ _, fun y hy z hz hclient => ?_⟩
          cases List.mem_singleton.mp hz
          have hlt := hx.resolve_left fun ho => hnew (occurs_firsts.mpr ho)
          exact hlt y (mem_of_mem_firsts hy) hclient

end Session
end Labs
