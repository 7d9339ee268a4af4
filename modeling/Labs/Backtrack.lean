import Mathlib.Logic.Relation
import Mathlib.Data.List.Basic

/-!
# Backtracking with a memory

A search visits the configurations that can be reached from a first one.  It keeps the
path to where it stands, with what is left to try at each configuration of the path, and
it remembers what it has entered.  A configuration that it takes for one it remembers is
not entered again.

Taking two configurations for the same is harmless if they lead to the same, as far as
the search is asked about it: `key` is what is asked.  Then a search that has given up
has seen the key of every configuration that can be reached.  A rank that falls with
every move bounds its steps, and keeps it from meeting the configurations of its path.
-/

namespace Labs
namespace Backtrack

variable {C K : Type*}

/-- What can be tried at a configuration, in order; `none` is an attempt that fails. -/
structure Space (C K : Type*) where
  tries : C → List (Option C)
  same : C → C → Prop
  key : C → K
  rank : C → Nat

/-- A configuration of the path, with what is left to try there. -/
structure Frame (C : Type*) where
  here : C
  left : List (Option C)

/-- The path has its end first.  `entered` is the memory; `closed` lists what was given
up. -/
structure State (C : Type*) where
  path : List (Frame C)
  entered : List C
  closed : List C

namespace Space

variable (sp : Space C K)

def enter (c : C) : Frame C := { here := c, left := sp.tries c }

def start (root : C) : State C where
  path := [sp.enter root]
  entered := []
  closed := []

inductive Step : State C → State C → Prop
  | skip {fr : Frame C} {t : Option C} {left : List (Option C)} {below : List (Frame C)}
      {entered closed : List C} :
      fr.left = t :: left → (∀ c ∈ t, ∃ d ∈ entered, sp.same c d) →
      Step { path := fr :: below, entered := entered, closed := closed }
        { path := { fr with left := left } :: below, entered := entered, closed := closed }
  | push {fr : Frame C} {c : C} {left : List (Option C)} {below : List (Frame C)}
      {entered closed : List C} :
      fr.left = some c :: left →
      Step { path := fr :: below, entered := entered, closed := closed }
        { path := sp.enter c :: { fr with left := left } :: below
          entered := c :: entered
          closed := closed }
  | pop {fr : Frame C} {below : List (Frame C)} {entered closed : List C} :
      fr.left = [] →
      Step { path := fr :: below, entered := entered, closed := closed }
        { path := below, entered := entered, closed := fr.here :: closed }

def Reaches : C → C → Prop := Relation.ReflTransGen fun c d => some d ∈ sp.tries c

/-- Whatever can be reached from `c` has the key of a configuration that was given up. -/
def Covered (closed : List C) (c : C) : Prop :=
  ∀ d, sp.Reaches c d → ∃ e ∈ closed, sp.key e = sp.key d

/-- What the search relies on. -/
structure Sound : Prop where
  falls : ∀ {c d}, some d ∈ sp.tries c → sp.rank d < sp.rank c
  rank_eq : ∀ {c d}, sp.same c d → sp.rank c = sp.rank d
  reaches : ∀ {c d}, sp.same c d → ∀ x, sp.Reaches c x → ∃ y, sp.Reaches d y ∧ sp.key y = sp.key x

/-- The path leads from `root` to its end by moves of the space. -/
def Chain (root : C) : List (Frame C) → Prop
  | [] => True
  | [fr] => fr.here = root
  | fr :: b :: rest => some fr.here ∈ sp.tries b.here ∧ Chain root (b :: rest)

/-- What was tried on the path is covered, apart from the frame above. -/
def Tried (closed : List C) : Option C → List (Frame C) → Prop
  | _, [] => True
  | above, fr :: below =>
    (∃ done, sp.tries fr.here = done ++ fr.left ∧
      ∀ c, some c ∈ done → sp.Covered closed c ∨ above = some c) ∧
    Tried closed (some fr.here) below

structure Inv (root : C) (st : State C) : Prop where
  chain : sp.Chain root st.path
  tried : sp.Tried st.closed none st.path
  entered : ∀ d ∈ st.entered, (∃ fr ∈ st.path, fr.here = d) ∨ sp.Covered st.closed d
  root : (∃ fr ∈ st.path, fr.here = root) ∨ sp.Covered st.closed root

variable {sp} {root : C} {closed closed' : List C}

theorem Covered.mono {c : C} (h : sp.Covered closed c) (hsub : ∀ e ∈ closed, e ∈ closed') :
    sp.Covered closed' c := by
  intro d hd
  obtain ⟨e, he, hkey⟩ := h d hd
  exact ⟨e, hsub e he, hkey⟩

/-- A configuration whose every move is covered is covered once it is given up. -/
theorem covered_of_tries {c : C} (h : ∀ d, some d ∈ sp.tries c → sp.Covered closed d) :
    sp.Covered (c :: closed) c := by
  intro d hd
  rcases hd.cases_head with rfl | ⟨e, hce, hed⟩
  · exact ⟨c, List.mem_cons_self, rfl⟩
  · obtain ⟨x, hx, hkey⟩ := h e hce d hed
    exact ⟨x, List.mem_cons_of_mem c hx, hkey⟩

theorem Covered.of_same (hsp : sp.Sound) {c d : C} (hsame : sp.same c d)
    (h : sp.Covered closed d) : sp.Covered closed c := by
  intro x hx
  obtain ⟨y, hy, hkey⟩ := hsp.reaches hsame x hx
  obtain ⟨e, he, hkey'⟩ := h y hy
  exact ⟨e, he, hkey'.trans hkey⟩

theorem Tried.mono {above : Option C} {path : List (Frame C)}
    (hsub : ∀ e ∈ closed, e ∈ closed') (h : sp.Tried closed above path) :
    sp.Tried closed' above path := by
  induction path generalizing above with
  | nil => trivial
  | cons fr below ih =>
      obtain ⟨⟨done, heq, hdone⟩, hbelow⟩ := h
      refine ⟨⟨done, heq, fun c hc => ?_⟩, ih hbelow⟩
      rcases hdone c hc with hcov | habove
      · exact .inl (hcov.mono hsub)
      · exact .inr habove

/-- Once the frame above is covered, nothing is apart. -/
theorem Tried.covered {c : C} {path : List (Frame C)} (hc : sp.Covered closed c)
    (h : sp.Tried closed (some c) path) : sp.Tried closed none path := by
  cases path with
  | nil => trivial
  | cons fr below =>
      obtain ⟨⟨done, heq, hdone⟩, hbelow⟩ := h
      refine ⟨⟨done, heq, fun d hd => ?_⟩, hbelow⟩
      rcases hdone d hd with hcov | habove
      · exact .inl hcov
      · cases habove
        exact .inl hc

theorem Chain.tail {fr : Frame C} {below : List (Frame C)} (h : sp.Chain root (fr :: below)) :
    sp.Chain root below := by
  cases below with
  | nil => trivial
  | cons b rest => exact h.2

/-- The chain does not look at what is left to try. -/
theorem Chain.left {fr : Frame C} {below : List (Frame C)} (h : sp.Chain root (fr :: below))
    (left : List (Option C)) : sp.Chain root ({ fr with left := left } :: below) := by
  cases below with
  | nil => exact h
  | cons b rest => exact h

theorem Chain.reaches {fr : Frame C} {below : List (Frame C)}
    (h : sp.Chain root (fr :: below)) : sp.Reaches root fr.here := by
  induction below generalizing fr with
  | nil =>
      cases h
      exact .refl
  | cons b rest ih => exact (ih h.2).tail h.1

/-- Ranks fall towards the end of the path. -/
theorem Chain.rank_le (hsp : sp.Sound) {fr : Frame C} {below : List (Frame C)}
    (h : sp.Chain root (fr :: below)) : ∀ b ∈ fr :: below, sp.rank fr.here ≤ sp.rank b.here := by
  induction below generalizing fr with
  | nil => simp
  | cons b rest ih =>
      intro b' hb'
      rcases List.mem_cons.mp hb' with rfl | hb'
      · exact Nat.le_refl _
      · exact Nat.le_trans (Nat.le_of_lt (hsp.falls h.1)) (ih h.2 b' hb')

theorem Inv.start : sp.Inv root (sp.start root) where
  chain := rfl
  tried := ⟨⟨[], rfl, fun c hc => by cases hc⟩, trivial⟩
  entered := fun d hd => by cases hd
  root := .inl ⟨_, List.mem_cons_self, rfl⟩

/-- A frame of the path stays when something is tried at its end. -/
theorem here_left {fr : Frame C} {below : List (Frame C)} {d : C} (left : List (Option C))
    (h : ∃ b ∈ fr :: below, b.here = d) : ∃ b ∈ { fr with left := left } :: below, b.here = d := by
  obtain ⟨b, hb, rfl⟩ := h
  rcases List.mem_cons.mp hb with rfl | hb
  · exact ⟨_, List.mem_cons_self, rfl⟩
  · exact ⟨b, List.mem_cons_of_mem _ hb, rfl⟩

/-- The first thing left at the end of the path has been tried. -/
theorem Tried.advance {above : Option C} {fr : Frame C} {t : Option C} {left : List (Option C)}
    {below : List (Frame C)} (h : sp.Tried closed none (fr :: below)) (hleft : fr.left = t :: left)
    (ht : ∀ c, t = some c → sp.Covered closed c ∨ above = some c) :
    sp.Tried closed above ({ fr with left := left } :: below) := by
  obtain ⟨⟨done, heq, hdone⟩, hbelow⟩ := h
  refine ⟨⟨done ++ [t], by simp [heq, hleft], fun c hc => ?_⟩, hbelow⟩
  rcases List.mem_append.mp hc with hold | hnew
  · rcases hdone c hold with hcov | hnone
    · exact .inl hcov
    · cases hnone
  · exact ht c (List.mem_singleton.mp hnew).symm

theorem Inv.step (hsp : sp.Sound) {st st' : State C} (h : sp.Inv root st)
    (hs : sp.Step st st') : sp.Inv root st' := by
  obtain ⟨hchain, htried, hentered, hroot⟩ := h
  cases hs with
  | @skip fr t left below entered closed hleft hseen =>
      refine ⟨hchain.left left, htried.advance hleft fun c hc => .inl ?_,
        fun d hd => (hentered d hd).imp_left (here_left left), hroot.imp_left (here_left left)⟩
      obtain ⟨d, hd, hsame⟩ := hseen c hc
      rcases hentered d hd with ⟨b, hb, rfl⟩ | hcov
      · -- a configuration of the path has a higher rank
        obtain ⟨⟨done, heq, -⟩, -⟩ := htried
        have hlt := hsp.falls (show some c ∈ sp.tries fr.here by rw [heq, hleft, hc]; simp)
        have hle := hchain.rank_le hsp b hb
        rw [← hsp.rank_eq hsame] at hle
        omega
      · exact hcov.of_same hsp hsame
  | @push fr c left below entered closed hleft =>
      have hmem : some c ∈ sp.tries fr.here := by
        obtain ⟨⟨done, heq, -⟩, -⟩ := htried
        rw [heq, hleft]
        simp
      have hup : ∀ {d : C}, (∃ b ∈ fr :: below, b.here = d) →
          ∃ b ∈ sp.enter c :: { fr with left := left } :: below, b.here = d := by
        intro d hd
        obtain ⟨b, hb, hbd⟩ := here_left left hd
        exact ⟨b, List.mem_cons_of_mem _ hb, hbd⟩
      refine ⟨⟨hmem, hchain.left left⟩,
        ⟨⟨[], rfl, fun d hd => by cases hd⟩, htried.advance hleft fun d hd => .inr ?_⟩,
        fun d hd => ?_, hroot.imp_left hup⟩
      · cases hd
        rfl
      · rcases List.mem_cons.mp hd with rfl | hd
        · exact .inl ⟨_, List.mem_cons_self, rfl⟩
        · exact (hentered d hd).imp_left hup
  | @pop fr below entered closed hleft =>
      have hsub : ∀ e ∈ closed, e ∈ fr.here :: closed := fun e he => List.mem_cons_of_mem _ he
      have hcov : sp.Covered (fr.here :: closed) fr.here := by
        obtain ⟨⟨done, heq, hdone⟩, -⟩ := htried
        refine covered_of_tries fun d hd => ?_
        rw [heq, hleft, List.append_nil] at hd
        rcases hdone d hd with hcov | hnone
        · exact hcov
        · cases hnone
      have hdown : ∀ {d : C}, (∃ b ∈ fr :: below, b.here = d) ∨ sp.Covered closed d →
          (∃ b ∈ below, b.here = d) ∨ sp.Covered (fr.here :: closed) d := by
        rintro d (⟨b, hb, rfl⟩ | hd)
        · rcases List.mem_cons.mp hb with rfl | hb
          · exact .inr hcov
          · exact .inl ⟨b, hb, rfl⟩
        · exact .inr (hd.mono hsub)
      exact ⟨hchain.tail, (htried.2.mono hsub).covered hcov,
        fun d hd => hdown (hentered d hd), hdown hroot⟩

/-- A search that has given up has covered everything. -/
theorem Inv.exhausted {st : State C} (h : sp.Inv root st) (hpath : st.path = []) :
    sp.Covered st.closed root := by
  rcases h.root with ⟨fr, hfr, -⟩ | hcov
  · rw [hpath] at hfr
    cases hfr
  · exact hcov

/-! ## How long a search takes -/

section Cost

/-- A bound for the steps that one attempt at a configuration of rank `r` takes, with all
that is entered from it, when at most `width` things are tried at each. -/
def attempt (width : Nat) : Nat → Nat
  | 0 => 1
  | r + 1 => width * attempt width r + 2

theorem attempt_pos (width r : Nat) : 1 ≤ attempt width r := by
  cases r with
  | zero => exact Nat.le_refl 1
  | succ r =>
      show 1 ≤ width * attempt width r + 2
      omega

theorem attempt_mono (width : Nat) {r r' : Nat} (h : r ≤ r') :
    attempt width r ≤ attempt width r' := by
  induction r generalizing r' with
  | zero => exact attempt_pos width r'
  | succ r ih =>
      cases r' with
      | zero => omega
      | succ r' =>
          show width * attempt width r + 2 ≤ width * attempt width r' + 2
          have hle := Nat.mul_le_mul_left width (ih (Nat.le_of_succ_le_succ h))
          omega

/-- The steps that a frame may still take. -/
def weight (sp : Space C K) (width : Nat) (fr : Frame C) : Nat :=
  fr.left.length * attempt width (sp.rank fr.here) + 1

def budget (sp : Space C K) (width : Nat) (st : State C) : Nat :=
  st.path.foldr (fun fr total => sp.weight width fr + total) 0

/-- One attempt pays for what is entered by it. -/
theorem weight_enter_lt (hsp : sp.Sound) {width : Nat} {c d : C} (hd : some d ∈ sp.tries c)
    (hwidth : (sp.tries d).length ≤ width) :
    sp.weight width (sp.enter d) < attempt width (sp.rank c) := by
  have hlt := hsp.falls hd
  obtain ⟨r, hr⟩ : ∃ r, sp.rank c = r + 1 := ⟨sp.rank c - 1, by omega⟩
  have hle : (sp.tries d).length * attempt width (sp.rank d) ≤ width * attempt width r :=
    Nat.mul_le_mul hwidth (attempt_mono width (by omega))
  rw [hr]
  show (sp.tries d).length * attempt width (sp.rank d) + 1 < width * attempt width r + 2
  omega

theorem budget_lt (hsp : sp.Sound) {width : Nat} (hwidth : ∀ c, (sp.tries c).length ≤ width)
    {st st' : State C} (h : sp.Inv root st) (hs : sp.Step st st') :
    sp.budget width st' < sp.budget width st := by
  have hpos := attempt_pos width
  cases hs with
  | @skip fr t left below entered closed hleft hseen =>
      have hp := hpos (sp.rank fr.here)
      simp only [budget, weight, List.foldr_cons, hleft, List.length_cons,
        Nat.succ_mul]
      omega
  | @push fr c left below entered closed hleft =>
      have hmem : some c ∈ sp.tries fr.here := by
        obtain ⟨⟨done, heq, -⟩, -⟩ := h.tried
        rw [heq, hleft]
        simp
      have hlt := weight_enter_lt hsp hmem (hwidth c)
      simp only [budget, List.foldr_cons]
      simp only [weight, hleft, List.length_cons, Nat.succ_mul] at hlt ⊢
      omega
  | @pop fr below entered closed hleft =>
      simp only [budget, weight, List.foldr_cons]
      omega

end Cost
end Space
end Backtrack
end Labs
