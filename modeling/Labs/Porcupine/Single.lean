import Labs.Backtrack
import Labs.Porcupine.Cells
import Mathlib.Data.Finset.Dedup

/-!
# What the checker decides

The loop of `checkSingle` is a backtracking search with a memory.  A configuration is what
has been linearized, in order, with the state that it leads to.  What can be tried there are
the calls before the first return among the entries that are left.  Each turn of the loop is
one step of the search, the linked list being the entries that are left at the configuration
where the search stands.
-/

namespace Labs
namespace Porcupine

open Backtrack

variable {I O S : Type}

structure Config (S : Type) where
  done : List Int
  state : S

/-- Linearize operation `k` next, if the model accepts it.  `op` gives the input and the
output of an operation. -/
def Config.attempt (model : Model I O S) (op : Int → Option (I × O)) (c : Config S) (k : Int) :
    Option (Config S) :=
  (op k).bind fun io =>
    if (model.step c.state io.1 io.2).1 then
      some { done := c.done ++ [k], state := (model.step c.state io.1 io.2).2 }
    else none

/-- What is tried at `c` from the cells `Q` on. -/
def Config.triesFrom (model : Model I O S) (op : Int → Option (I × O)) (c : Config S)
    (Q : List (Cell I O)) : List (Option (Config S)) :=
  (Q.takeWhile fun x => x.2.value.isCall).map fun x => c.attempt model op x.2.id

/-- Two configurations are taken for the same if the same operations are done and the model
calls their states equal. -/
def space (model : Model I O S) (op : Int → Option (I × O)) (es : List (Entry I O)) :
    Space (Config S) (Finset Int) where
  tries := fun c => c.triesFrom model op (rest es c.done)
  same := fun c d => (∀ k, k ∈ c.done ↔ k ∈ d.done) ∧ model.equal c.state d.state = true
  key := fun c => c.done.toFinset
  rank := fun c => (rest es c.done).length

/-- From equal states the model accepts the same. -/
def Model.EqualSound (model : Model I O S) : Prop :=
  ∀ s t, model.equal s t = true → ∀ l : List (I × O),
    Locality.Legal (fun s io => model.step s io.1 io.2) s l →
      Locality.Legal (fun s io => model.step s io.1 io.2) t l

/-- States that are the same accept the same. -/
theorem equalSound_fillDefault [DecidableEq S] (texts : DefaultTexts I O S)
    {model : ModelFields I O S} (h : model.equal = none) :
    (model.fillDefault texts).EqualSound := by
  intro s t hst l hl
  have heq : s = t := by
    simpa [ModelFields.fillDefault, h, shallowEqual] using hst
  rw [← heq]
  exact hl

/-- The entries carry the inputs and outputs of the operations. -/
def Values (op : Int → Option (I × O)) (es : List (Entry I O)) : Prop :=
  ∀ e ∈ es, ∃ i o, op e.id = some (i, o) ∧ (e.value = .call i ∨ e.value = .ret o)

section Space

variable {model : Model I O S} {op : Int → Option (I × O)} {es : List (Entry I O)} {c d : Config S}

theorem attempt_eq_some {k : Int} : c.attempt model op k = some d ↔
    ∃ io, op k = some io ∧ (model.step c.state io.1 io.2).1 = true ∧
      d = { done := c.done ++ [k], state := (model.step c.state io.1 io.2).2 } := by
  unfold Config.attempt
  rw [Option.bind_eq_some_iff]
  refine exists_congr fun io => and_congr_right fun _ => ?_
  by_cases hok : (model.step c.state io.1 io.2).1 = true <;> simp [hok, eq_comm]

theorem mem_tries : some d ∈ (space model op es).tries c ↔
    ∃ x ∈ (rest es c.done).takeWhile (fun x => x.2.value.isCall),
      c.attempt model op x.2.id = some d := by
  simp [space, Config.triesFrom]

/-- What may come next does not depend on the order of what is done. -/
theorem rest_congr {done done' : List Int} (h : ∀ k, k ∈ done ↔ k ∈ done') :
    rest es done = rest es done' := by
  unfold rest
  refine List.filter_congr fun x _ => ?_
  simp [h]

theorem Model.EqualSound.sound (heq : model.EqualSound) : (space model op es).Sound where
  falls := by
    intro c d hd
    obtain ⟨x, hx, hatt⟩ := mem_tries.mp hd
    obtain ⟨io, -, -, rfl⟩ := attempt_eq_some.mp hatt
    have hmem : x ∈ rest es c.done := (List.takeWhile_sublist _).mem hx
    show (rest es (c.done ++ [x.2.id])).length < (rest es c.done).length
    rw [rest_concat]
    exact List.length_filter_lt_length_iff_exists.mpr ⟨x, hmem, by simp⟩
  rank_eq := fun h => congrArg List.length (rest_congr h.1)
  reaches := by
    -- the states accept the same, and steps keep this
    have hsim : ∀ {c x : Config S}, (space model op es).Reaches c x → ∀ d : Config S,
        (∀ k, k ∈ c.done ↔ k ∈ d.done) →
        (∀ l : List (I × O), Locality.Legal (fun s io => model.step s io.1 io.2) c.state l →
          Locality.Legal (fun s io => model.step s io.1 io.2) d.state l) →
        ∃ y, (space model op es).Reaches d y ∧
          (space model op es).key y = (space model op es).key x := by
      intro c x hx
      induction hx using Relation.ReflTransGen.head_induction_on with
      | refl =>
          intro d hdone _
          refine ⟨d, .refl, ?_⟩
          ext k
          simp [space, hdone]
      | head hstep _ ih =>
          intro d hdone hlegal
          obtain ⟨e, he, hatt⟩ := mem_tries.mp hstep
          obtain ⟨io, hio, hok, rfl⟩ := attempt_eq_some.mp hatt
          have hok' := (hlegal [io] ⟨hok, trivial⟩).1
          obtain ⟨y, hy, hkey⟩ := ih
            { done := d.done ++ [e.2.id], state := (model.step d.state io.1 io.2).2 }
            (fun k => by simp [hdone]) (fun l hl => (hlegal (io :: l) ⟨hok, hl⟩).2)
          refine ⟨y, .head (mem_tries.mpr ⟨e, ?_, attempt_eq_some.mpr ⟨io, hio, hok', rfl⟩⟩) hy,
            hkey⟩
          rw [← rest_congr hdone]
          exact he
    intro c d h x hx
    exact hsim hx d h.1 (heq _ _ h.2)

theorem length_tries_le (c : Config S) : ((space model op es).tries c).length ≤ es.length := by
  show (c.triesFrom model op (rest es c.done)).length ≤ es.length
  rw [Config.triesFrom, List.length_map, ← length_cells es]
  exact Nat.le_trans (List.takeWhile_sublist _).length_le (List.filter_sublist).length_le

/-- What is done are ids of entries, each once. -/
structure Config.Proper (n : Nat) (c : Config S) : Prop where
  nodup : c.done.Nodup
  range : ∀ k ∈ c.done, 0 ≤ k ∧ k < n

theorem Config.Proper.attempt {n : Nat} (hwf : WellFormed n es) (h : c.Proper n) {x : Cell I O}
    (hx : x ∈ rest es c.done) (hd : c.attempt model op x.2.id = some d) : d.Proper n := by
  obtain ⟨hcells, hdone⟩ := mem_rest.mp hx
  obtain ⟨io, -, -, rfl⟩ := attempt_eq_some.mp hd
  refine ⟨?_, fun k hk => ?_⟩
  · exact List.nodup_append.mpr ⟨h.nodup, by simp, by
      intro a ha b hb
      rw [List.mem_singleton] at hb
      rintro rfl
      exact hdone (hb ▸ ha)⟩
  · rcases List.mem_append.mp hk with hk | hk
    · exact h.range k hk
    · rw [List.mem_singleton.mp hk]
      exact hwf.id x.2 (by rw [← map_snd_cells es]; exact List.mem_map_of_mem hcells)

end Space
/-! ## The longest sequences -/

/-- A sequence of at least this length is noted for entry `i`. -/
def Noted (seqs : List (List Int)) (longest : List (Option Nat)) (i len : Nat) : Prop :=
  ∃ p seq, longest[i]? = some (some p) ∧ seqs[p]? = some seq ∧ len ≤ seq.length

section Longest

variable {seqs : List (List Int)} {longest : List (Option Nat)} {ptr : Nat} {seq : List Int}

theorem index_of_nonneg {k : Int} (h : 0 ≤ k) : index k = some k.toNat := by
  rw [index, if_neg (by omega)]

/-- What one entry does: its sequence is then as long as the present one, no other gets
shorter, and what is new is the present one. -/
theorem noteLongest_spec (hptr : seqs[ptr]? = some seq) {k : Int} (h₀ : 0 ≤ k)
    (hlt : k.toNat < longest.length)
    (hvalid : ∀ (i p : Nat), longest[i]? = some (some p) → p < seqs.length) :
    ∃ longest', Search.noteLongest seqs seq.length ptr longest k = some longest' ∧
      longest'.length = longest.length ∧ Noted seqs longest' k.toNat seq.length ∧
      (∀ i len, Noted seqs longest i len → Noted seqs longest' i len) ∧
      ∀ (i p : Nat), longest'[i]? = some (some p) →
        longest[i]? = some (some p) ∨ p = ptr ∧ i = k.toNat := by
  obtain ⟨old, hold⟩ : ∃ old, longest[k.toNat]? = some old :=
    ⟨_, List.getElem?_eq_getElem hlt⟩
  -- the two branches that write
  have hset : (∀ len, Noted seqs longest k.toNat len → len ≤ seq.length) →
      let longest' := longest.set k.toNat (some ptr)
      longest'.length = longest.length ∧ Noted seqs longest' k.toNat seq.length ∧
      (∀ i len, Noted seqs longest i len → Noted seqs longest' i len) ∧
      ∀ (i p : Nat), longest'[i]? = some (some p) →
        longest[i]? = some (some p) ∨ p = ptr ∧ i = k.toNat := by
    intro hshort longest'
    have hself : longest'[k.toNat]? = some (some ptr) := List.getElem?_set_self hlt
    have hne : ∀ i, i ≠ k.toNat → longest'[i]? = longest[i]? := fun i hi =>
      List.getElem?_set_ne (Ne.symm hi)
    refine ⟨List.length_set, ⟨ptr, seq, hself, hptr, Nat.le_refl _⟩, fun i len hn => ?_,
      fun i p hp => ?_⟩
    · by_cases hi : i = k.toNat
      · subst hi
        exact ⟨ptr, seq, hself, hptr, hshort len hn⟩
      · obtain ⟨p, sq, hp, hsq, hle⟩ := hn
        exact ⟨p, sq, (hne i hi).trans hp, hsq, hle⟩
    · by_cases hi : i = k.toNat
      · subst hi
        rw [hself] at hp
        exact .inr ⟨by simpa [eq_comm] using hp, rfl⟩
      · rw [hne i hi] at hp
        exact .inl hp
  unfold Search.noteLongest
  simp only [index_of_nonneg h₀, hold, Option.bind_eq_bind, Option.bind_some]
  cases old with
  | none =>
      refine ⟨_, rfl, hset fun len hn => ?_⟩
      obtain ⟨p, sq, hp, -⟩ := hn
      rw [hold] at hp
      cases hp
  | some p =>
      obtain ⟨best, hbest⟩ : ∃ best, seqs[p]? = some best :=
        ⟨_, List.getElem?_eq_getElem (hvalid _ p hold)⟩
      simp only [hbest, Option.bind_some]
      by_cases hgt : seq.length > best.length
      · rw [if_pos hgt]
        refine ⟨_, rfl, hset fun len hn => ?_⟩
        obtain ⟨p', sq, hp, hsq, hle⟩ := hn
        rw [hold] at hp
        cases hp
        rw [hbest] at hsq
        cases hsq
        omega
      · rw [if_neg hgt]
        exact ⟨_, rfl, rfl, ⟨p, best, hold, hbest, by omega⟩, fun i len hn => hn,
          fun i q hq => .inl hq⟩

/-- The loop over the calls. -/
theorem foldlM_noteLongest_spec (hptr : seqs[ptr]? = some seq) (ks : List Int)
    (hrange : ∀ k ∈ ks, 0 ≤ k ∧ k.toNat < longest.length)
    (hvalid : ∀ (i p : Nat), longest[i]? = some (some p) → p < seqs.length) :
    ∃ longest', ks.foldlM (Search.noteLongest seqs seq.length ptr) longest = some longest' ∧
      longest'.length = longest.length ∧
      (∀ k ∈ ks, Noted seqs longest' k.toNat seq.length) ∧
      (∀ i len, Noted seqs longest i len → Noted seqs longest' i len) ∧
      ∀ (i p : Nat), longest'[i]? = some (some p) →
        longest[i]? = some (some p) ∨ p = ptr ∧ (i : Int) ∈ ks := by
  induction ks generalizing longest with
  | nil => exact ⟨longest, rfl, rfl, by simp, fun i len hn => hn, fun i p hp => .inl hp⟩
  | cons k ks ih =>
      obtain ⟨h₀, hlt⟩ := hrange k List.mem_cons_self
      obtain ⟨l₁, heq₁, hlen₁, hself, hkeep₁, hnew₁⟩ := noteLongest_spec hptr h₀ hlt hvalid
      have hptr_lt := (List.getElem?_eq_some_iff.mp hptr).1
      have hrange₁ : ∀ k' ∈ ks, 0 ≤ k' ∧ k'.toNat < l₁.length := fun k' hk' => by
        rw [hlen₁]
        exact hrange k' (List.mem_cons_of_mem k hk')
      have hvalid₁ : ∀ (i p : Nat), l₁[i]? = some (some p) → p < seqs.length := by
        intro i p hp
        rcases hnew₁ i p hp with hold | ⟨rfl, -⟩
        · exact hvalid i p hold
        · exact hptr_lt
      obtain ⟨l₂, heq₂, hlen₂, hall, hkeep₂, hnew₂⟩ := ih hrange₁ hvalid₁
      refine ⟨l₂, by simp [heq₁, heq₂], hlen₂.trans hlen₁, fun k' hk' => ?_,
        fun i len hn => hkeep₂ i len (hkeep₁ i len hn), fun i p hp => ?_⟩
      · rcases List.mem_cons.mp hk' with rfl | hk'
        · exact hkeep₂ _ _ hself
        · exact hall k' hk'
      · rcases hnew₂ i p hp with hold | ⟨rfl, hmem⟩
        · rcases hnew₁ i p hold with hold | ⟨rfl, rfl⟩
          · exact .inl hold
          · exact .inr ⟨rfl, by simp [Int.toNat_of_nonneg h₀]⟩
        · exact .inr ⟨rfl, List.mem_cons_of_mem k hmem⟩

end Longest
/-! ## The loop and the search -/

/-- The bit set holds what is done. -/
structure Bits (n : Nat) (b : Bitset) (c : Config S) : Prop where
  length : b.length = (Bitset.newBitset n).length
  mem : ∀ q : Nat, b.Mem q ↔ (q : Int) ∈ c.done

/-- The stack of calls, the list that is left and the path of the search below `c`.  What is
popped from the stack restores the list it was pushed on. -/
inductive Stack (model : Model I O S) (op : Int → Option (I × O)) (es : List (Entry I O)) :
    List (CallsEntry S) → Heap I O → Config S → List (Frame (Config S)) → Prop
  | root {h : Heap I O} : InHeap h es [] →
      Stack model op es [] h { done := [], state := model.init } []
  | push {calls : List (CallsEntry S)} {h h' : Heap I O} {c c' : Config S}
      {below : List (Frame (Config S))} {P Q : List (Cell I O)} {x : Cell I O} :
      Stack model op es calls h c below → rest es c.done = P ++ x :: Q →
      (∀ y ∈ P, y.2.value.isCall = true) → x.2.value.isCall = true →
      h'.unlift x.1 = some h → InHeap h' es c'.done → c.attempt model op x.2.id = some c' →
      Stack model op es ({ entry := x.1, state := c.state } :: calls) h' c'
        ({ here := c, left := c.triesFrom model op Q } :: below)

/-- Where the loop stands: at configuration `c`, with the cells `Q` still to look at. -/
structure Stands (model : Model I O S) (op : Int → Option (I × O)) (es : List (Entry I O)) (n : Nat)
    (st : Search I O S) (c : Config S) (Q : List (Cell I O)) (below : List (Frame (Config S))) :
    Prop where
  head : st.headEntry = es.length
  stack : Stack model op es st.calls st.heap c below
  state : st.state = c.state
  bits : Bits n st.linearized c
  place : ∃ P, rest es c.done = P ++ Q ∧ ∀ x ∈ P, x.2.value.isCall = true
  entry : st.entry = (Q.map Prod.fst).head?

/-- The cache holds what the search has entered, and what is noted as longest are ways that
exist. -/
structure Remembers (model : Model I O S) (op : Int → Option (I × O)) (es : List (Entry I O))
    (n : Nat) (computePartial : Bool) (st : Search I O S) (bt : State (Config S)) : Prop where
  cache : ∀ hash, ∀ elem ∈ st.cache hash, ∃ d ∈ bt.entered,
    d.Proper n ∧ elem.state = d.state ∧ Bits n elem.linearized d
  length : st.longest.length = n
  sound : ∀ (i p : Nat), st.longest[i]? = some (some p) → ∃ d : Config S,
    (space model op es).Reaches { done := [], state := model.init } d ∧
      st.seqs[p]? = some d.done ∧ (i : Int) ∈ d.done
  noted : computePartial = true → ∀ d ∈ bt.closed, ∀ k ∈ d.done,
    Noted st.seqs st.longest k.toNat d.done.length
  closed : ∀ d ∈ bt.closed, rest es d.done ≠ []

section Turn

variable {model : Model I O S} {op : Int → Option (I × O)} {es : List (Entry I O)} {n : Nat}
  {computePartial : Bool} {st : Search I O S} {bt : State (Config S)} {c d : Config S}
  {Q : List (Cell I O)} {below : List (Frame (Config S))} {calls : List (CallsEntry S)}
  {h : Heap I O}

theorem Stack.inHeap (hs : Stack model op es calls h c below) : InHeap h es c.done := by
  cases hs with
  | root hin => exact hin
  | push _ _ _ _ _ hin _ => exact hin

theorem Stack.proper (hwf : WellFormed n es) (hs : Stack model op es calls h c below) :
    c.Proper n := by
  induction hs with
  | root _ => exact ⟨.nil, by simp⟩
  | push _ hrest _ _ _ _ hatt ih => exact ih.attempt hwf (by rw [hrest]; simp) hatt

/-- The ids of the calls are what is done, in order. -/
theorem Stack.seq (hs : Stack model op es calls h c below) {h' : Heap I O} (hlaid : Laid h' es) :
    calls.reverse.mapM (fun v => h'.id v.entry) = some c.done := by
  induction hs with
  | root _ => rfl
  | @push calls h h₁ c c' below P Q x _ hrest _ _ _ _ hatt ih =>
      obtain ⟨io, -, -, rfl⟩ := attempt_eq_some.mp hatt
      have hx : h'.id x.1 = some x.2.id :=
        hlaid.id x (mem_rest.mp (show x ∈ rest es c.done by rw [hrest]; simp)).1
      rw [List.reverse_cons, List.mapM_append, ih]
      simp [hx]

theorem Stack.length (hs : Stack model op es calls h c below) : calls.length = c.done.length := by
  induction hs with
  | root _ => rfl
  | push _ _ _ _ _ _ hatt ih =>
      obtain ⟨io, -, -, rfl⟩ := attempt_eq_some.mp hatt
      simp [ih]

/-- Bit sets tell apart what is done. -/
theorem Bits.mem_iff {b : Bitset} (hc : Bits n b c) (hd : Bits n b d) (hcp : c.Proper n)
    (hdp : d.Proper n) (k : Int) : k ∈ c.done ↔ k ∈ d.done := by
  have hiff : ∀ q : Nat, (q : Int) ∈ c.done ↔ (q : Int) ∈ d.done := fun q =>
    (hc.mem q).symm.trans (hd.mem q)
  constructor
  · intro hk
    obtain ⟨q, rfl⟩ := Int.eq_ofNat_of_zero_le (hcp.range k hk).1
    exact (hiff q).mp hk
  · intro hk
    obtain ⟨q, rfl⟩ := Int.eq_ofNat_of_zero_le (hdp.range k hk).1
    exact (hiff q).mpr hk

theorem Bits.set {b : Bitset} (hb : Bits n b c) {k : Int} (h₀ : 0 ≤ k) (hn : k < n) (s : S) :
    ∃ b', b.set k.toNat = some b' ∧ Bits n b' { done := c.done ++ [k], state := s } := by
  have hlen := Bitset.length_newBitset n
  have hlt : k.toNat < 64 * b.length := by
    rw [hb.length]
    omega
  obtain ⟨b', heq, hlen', hmem⟩ := Bitset.set_eq_some hlt
  refine ⟨b', heq, hlen'.trans hb.length, fun q => ?_⟩
  have hq : q = k.toNat ↔ (q : Int) = k := by omega
  rw [hmem, hb.mem, hq, List.mem_append, List.mem_singleton, or_comm]

theorem Bits.clear {b : Bitset} {k : Int} {s : S}
    (hb : Bits n b { done := c.done ++ [k], state := s }) (h₀ : 0 ≤ k) (hn : k < n)
    (hk : k ∉ c.done) : ∃ b', b.clear k.toNat = some b' ∧ Bits n b' c := by
  have hlen := Bitset.length_newBitset n
  have hlt : k.toNat < 64 * b.length := by
    rw [hb.length]
    omega
  obtain ⟨b', heq, hlen', hmem⟩ := Bitset.clear_eq_some hlt
  refine ⟨b', heq, hlen'.trans hb.length, fun q => ?_⟩
  rw [hmem, hb.mem]
  simp only [List.mem_append, List.mem_singleton]
  constructor
  · rintro ⟨hne, hq | hq⟩
    · exact hq
    · omega
  · intro hq
    refine ⟨?_, .inl hq⟩
    rintro rfl
    rw [Int.toNat_of_nonneg h₀] at hq
    exact hk hq

/-- A hit in the cache is a configuration that was entered. -/
theorem Remembers.cacheContains (hr : Remembers model op es n computePartial st bt)
    {b : Bitset} (hb : Bits n b d) (hd : d.Proper n)
    (hc : cacheContains model st.cache { linearized := b, state := d.state } = true) :
    ∃ d' ∈ bt.entered, (space model op es).same d d' := by
  simp only [Porcupine.cacheContains, List.any_eq_true, Bool.and_eq_true] at hc
  obtain ⟨elem, helem, heq, hstate⟩ := hc
  obtain ⟨d', hd', hp, hs, hbits⟩ := hr.cache _ elem helem
  rw [Bitset.equals_iff] at heq
  refine ⟨d', hd', fun k => hb.mem_iff (by rw [heq]; exact hbits) hd hp k, ?_⟩
  rw [← hs]
  exact hstate

/-! ### One turn -/

/-- How a turn that nobody kills ends: with a step of the search, with everything done, or
with nothing left to try. -/
inductive Outcome (model : Model I O S) (op : Int → Option (I × O)) (es : List (Entry I O))
    (n : Nat) (computePartial : Bool) (bt : State (Config S)) : Turn I O S → Prop
  | step {st' : Search I O S} {bt' : State (Config S)} {c' : Config S} {Q' : List (Cell I O)}
      {below' : List (Frame (Config S))} :
      (space model op es).Step bt bt' →
      bt'.path = { here := c', left := c'.triesFrom model op Q' } :: below' →
      Stands model op es n st' c' Q' below' → Remembers model op es n computePartial st' bt' →
      Outcome model op es n computePartial bt (.next st')
  | found {st' : Search I O S} {fr : Frame (Config S)} {below : List (Frame (Config S))} (p : Nat) :
      bt.path = fr :: below → rest es fr.here.done = [] →
      st'.longest = List.replicate n (some p) → st'.seqs[p]? = some fr.here.done →
      Outcome model op es n computePartial bt (.done true st')
  | exhausted {st' : Search I O S} {fr : Frame (Config S)} :
      bt.path = [fr] → fr.left = [] → fr.here.done = [] → rest es fr.here.done ≠ [] →
      Remembers model op es n computePartial st' bt →
      Outcome model op es n computePartial bt (.done false st')

section Linearize

variable {entry m id : Nat} {i : I} {o : O} {b : Bitset}

/-- The model does not accept the operation. -/
theorem linearize_rejected (hentry : st.heap.value entry = some (.call i))
    (hm : st.heap.value m = some (.ret o)) (hok : (model.step st.state i o).1 = false) :
    st.linearize model entry m = some { st with entry := st.heap.next entry } := by
  simp only [Search.linearize, hentry, hm, hok]
  rfl

/-- The model accepts it, but the search has been there. -/
theorem linearize_cached (hentry : st.heap.value entry = some (.call i))
    (hm : st.heap.value m = some (.ret o)) (hok : (model.step st.state i o).1 = true)
    (hid : (st.heap.id entry).bind index = some id) (hset : st.linearized.set id = some b)
    (hc : cacheContains model st.cache
      { linearized := b, state := (model.step st.state i o).2 } = true) :
    st.linearize model entry m = some { st with entry := st.heap.next entry } := by
  simp only [Search.linearize, hentry, hm, hok, hid, hset, hc, Option.bind_eq_bind,
    Option.bind_some, if_true]

theorem linearize_new (hentry : st.heap.value entry = some (.call i))
    (hm : st.heap.value m = some (.ret o)) (hok : (model.step st.state i o).1 = true)
    (hid : (st.heap.id entry).bind index = some id) (hset : st.linearized.set id = some b)
    (hc : cacheContains model st.cache
      { linearized := b, state := (model.step st.state i o).2 } = false)
    (hlift : st.heap.lift entry = some h) :
    st.linearize model entry m = some { st with
      cache := Function.update st.cache b.hash (st.cache b.hash ++
        [{ linearized := b, state := (model.step st.state i o).2 }])
      calls := { entry := entry, state := st.state } :: st.calls
      state := (model.step st.state i o).2
      linearized := b
      heap := h
      entry := h.next st.headEntry } := by
  simp only [Search.linearize, hentry, hm, hok, hid, hset, hc, hlift, Option.bind_eq_bind,
    Option.bind_some, if_true]
  rfl

end Linearize

/-- What the two cells of an operation hold. -/
theorem values_of_split (hval : Values op es) (hlaid : Laid h es) {x r : Cell I O}
    (hx : x ∈ cells es) (hr : r ∈ cells es) (hid : r.2.id = x.2.id)
    (hcall : x.2.value.isCall = true) (hret : r.2.value.isCall = false) :
    ∃ i o, op x.2.id = some (i, o) ∧ h.value x.1 = some (.call i) ∧
      h.value r.1 = some (.ret o) := by
  have hes : ∀ {y : Cell I O}, y ∈ cells es → y.2 ∈ es := fun hy => by
    rw [← map_snd_cells es]
    exact List.mem_map_of_mem hy
  obtain ⟨i, o, hop, hxv⟩ := hval x.2 (hes hx)
  obtain ⟨i', o', hop', hrv⟩ := hval r.2 (hes hr)
  rw [hid, hop] at hop'
  cases hop'
  refine ⟨i, o, hop, ?_, ?_⟩
  · rw [hlaid.value x hx]
    rcases hxv with hxv | hxv
    · rw [hxv]
    · rw [hxv] at hcall
      cases hcall
  · rw [hlaid.value r hr]
    rcases hrv with hrv | hrv
    · rw [hrv] at hret
      cases hret
    · rw [hrv]

/-- The next entry is looked at. -/
theorem skip_outcome {x : Cell I O} (hst : Stands model op es n st c (x :: Q) below)
    (hr : Remembers model op es n computePartial st bt)
    (hpath : bt.path = { here := c, left := c.triesFrom model op (x :: Q) } :: below)
    (hcall : x.2.value.isCall = true)
    (hseen : ∀ d ∈ c.attempt model op x.2.id, ∃ d' ∈ bt.entered, (space model op es).same d d') :
    Outcome model op es n computePartial bt (.next { st with entry := st.heap.next x.1 }) := by
  obtain ⟨P, hrest, hP⟩ := hst.place
  obtain ⟨path, entered, closed⟩ := bt
  cases hpath
  refine .step (.skip (by simp [Config.triesFrom, hcall]) hseen) rfl
    ⟨hst.head, hst.stack, hst.state, hst.bits, ⟨P ++ [x], by simp [hrest], ?_⟩,
      hst.stack.inHeap.next_cell hrest⟩
    ⟨hr.cache, hr.length, hr.sound, hr.noted, hr.closed⟩
  intro y hy
  rcases List.mem_append.mp hy with hy | hy
  · exact hP y hy
  · rw [List.mem_singleton.mp hy]
    exact hcall

/-- The branch for a call: the operation is linearized, or the next entry is looked at. -/
theorem linearize_outcome (hwf : WellFormed n es) (hval : Values op es) {x : Cell I O}
    (hst : Stands model op es n st c (x :: Q) below)
    (hr : Remembers model op es n computePartial st bt)
    (hpath : bt.path = { here := c, left := c.triesFrom model op (x :: Q) } :: below)
    (hcall : x.2.value.isCall = true) : ∃ m st', st.heap.matching x.1 = some m ∧
      st.linearize model x.1 m = some st' ∧
      Outcome model op es n computePartial bt (.next st') := by
  obtain ⟨P, hrest, hP⟩ := hst.place
  have hin := hst.stack.inHeap
  have hx : x ∈ rest es c.done := by
    rw [hrest]
    simp
  have hcells := (mem_rest.mp hx).1
  obtain ⟨B, r, D, hQ, hrid, hret, hm, -⟩ := hwf.call_split hin.laid hrest hcall
  have hrcells : r ∈ cells es := (mem_rest.mp (show r ∈ rest es c.done by rw [hrest, hQ]; simp)).1
  obtain ⟨i, o, hop, hvx, hvr⟩ := values_of_split hval hin.laid hcells hrcells hrid hcall hret
  refine ⟨r.1, ?_⟩
  by_cases hok : (model.step st.state i o).1 = true
  · have hatt : c.attempt model op x.2.id =
        some { done := c.done ++ [x.2.id], state := (model.step st.state i o).2 } := by
      rw [hst.state] at hok ⊢
      exact attempt_eq_some.mpr ⟨(i, o), hop, hok, rfl⟩
    have hproper := (hst.stack.proper hwf).attempt hwf hx hatt
    obtain ⟨h₀, hn⟩ := hproper.range x.2.id (by simp)
    have hid : (st.heap.id x.1).bind index = some x.2.id.toNat := by
      rw [hin.laid.id x hcells]
      exact index_of_nonneg h₀
    obtain ⟨b, hset, hbits⟩ := hst.bits.set h₀ hn (model.step st.state i o).2
    cases hc : cacheContains model st.cache
        { linearized := b, state := (model.step st.state i o).2 } with
    | true =>
        refine ⟨_, hm, linearize_cached hvx hvr hok hid hset hc,
          skip_outcome hst hr hpath hcall fun d hd => ?_⟩
        rw [hatt] at hd
        cases hd
        exact hr.cacheContains hbits hproper hc
    | false =>
        obtain ⟨h', hlift, hunlift, hin'⟩ := hin.lift hwf hrest hcall
        refine ⟨_, hm, linearize_new hvx hvr hok hid hset hc hlift, ?_⟩
        obtain ⟨path, entered, closed⟩ := bt
        cases hpath
        have hstack := Stack.push hst.stack hrest hP hcall hunlift hin' hatt
        rw [← hst.state] at hstack
        refine .step (.push (by simp [Config.triesFrom, hcall, hatt])) rfl
          ⟨hst.head, hstack, rfl, hbits, ⟨[], rfl, by simp⟩, by rw [hst.head]; exact hin'.next_head⟩
          ⟨fun hash elem helem => ?_, hr.length, hr.sound, hr.noted, hr.closed⟩
        replace helem : elem ∈ Function.update st.cache b.hash (st.cache b.hash ++
          [{ linearized := b, state := (model.step st.state i o).2 }]) hash := helem
        rw [Function.update_apply] at helem
        split at helem
        · rcases List.mem_append.mp helem with helem | helem
          · obtain ⟨d, hd, hrest⟩ := hr.cache _ elem helem
            exact ⟨d, List.mem_cons_of_mem _ hd, hrest⟩
          · rw [List.mem_singleton.mp helem]
            exact ⟨_, List.mem_cons_self, hproper, rfl, hbits⟩
        · obtain ⟨d, hd, hrest⟩ := hr.cache _ elem helem
          exact ⟨d, List.mem_cons_of_mem _ hd, hrest⟩
  · refine ⟨_, hm, linearize_rejected hvx hvr (by simpa using hok),
      skip_outcome hst hr hpath hcall fun d hd => ?_⟩
    obtain ⟨io, hio, hok', -⟩ := attempt_eq_some.mp hd
    rw [hop] at hio
    cases hio
    rw [hst.state] at hok
    exact absurd hok' hok

/-- The first configuration: nothing is done. -/
def Config.first (model : Model I O S) : Config S := { done := [], state := model.init }

theorem Noted.append {seqs : List (List Int)} {longest : List (Option Nat)} {i len : Nat}
    (hn : Noted seqs longest i len) (seq : List Int) : Noted (seqs ++ [seq]) longest i len := by
  obtain ⟨p, sq, hp, hsq, hle⟩ := hn
  refine ⟨p, sq, hp, ?_, hle⟩
  rw [List.getElem?_append_left (List.getElem?_eq_some_iff.mp hsq).1, hsq]

/-- The present calls are noted for each of them. -/
theorem note_spec (hwf : WellFormed n es) (hst : Stands model op es n st c Q below)
    (hr : Remembers model op es n computePartial st bt)
    (hreach : (space model op es).Reaches (.first model) c) : ∃ seqs longest,
      st.note = some { st with seqs := seqs, longest := longest } ∧
      Remembers model op es n computePartial { st with seqs := seqs, longest := longest } bt ∧
      ∀ k ∈ c.done, Noted seqs longest k.toNat c.done.length := by
  have hseq : st.seq = some c.done := hst.stack.seq hst.stack.inHeap.laid
  have hproper := hst.stack.proper hwf
  have hptr : (st.seqs ++ [c.done])[st.seqs.length]? = some c.done := by simp
  have hold : ∀ {p : Nat} {sq}, st.seqs[p]? = some sq → (st.seqs ++ [c.done])[p]? = some sq := by
    intro p sq hsq
    rw [List.getElem?_append_left (List.getElem?_eq_some_iff.mp hsq).1, hsq]
  have hvalid : ∀ (i p : Nat), st.longest[i]? = some (some p) →
      p < (st.seqs ++ [c.done]).length := by
    intro i p hp
    obtain ⟨d, -, hd, -⟩ := hr.sound i p hp
    exact (List.getElem?_eq_some_iff.mp (hold hd)).1
  obtain ⟨longest, heq, hlen, hall, hkeep, hnew⟩ := foldlM_noteLongest_spec hptr c.done
    (fun k hk => by have := hproper.range k hk; rw [hr.length]; omega) hvalid
  refine ⟨st.seqs ++ [c.done], longest, ?_, ⟨hr.cache, hlen.trans hr.length, fun i p hp => ?_,
    fun hcp d hd k hk => hkeep _ _ ((hr.noted hcp d hd k hk).append c.done), hr.closed⟩, hall⟩
  · simp only [Search.note, hseq, Option.bind_eq_bind, Option.bind_some, hst.stack.length, heq]
  · rcases hnew i p hp with hp | ⟨rfl, hi⟩
    · obtain ⟨d, hd, hsq, hi⟩ := hr.sound i p hp
      exact ⟨d, hd, hold hsq, hi⟩
    · exact ⟨c, hreach, hptr, hi⟩

/-- The branch for a return: the last call is given up. -/
theorem back_outcome (hwf : WellFormed n es) {x : Cell I O} {callsTop : CallsEntry S}
    (hst : Stands model op es n st c (x :: Q) below) (hcalls : st.calls = callsTop :: calls)
    (hr : Remembers model op es n computePartial st bt)
    (hpath : bt.path = { here := c, left := c.triesFrom model op (x :: Q) } :: below)
    (hret : x.2.value.isCall = false)
    (hnoted : computePartial = true →
      ∀ k ∈ c.done, Noted st.seqs st.longest k.toNat c.done.length) :
    ∃ st', st.back callsTop calls = some st' ∧
      Outcome model op es n computePartial bt (.next st') := by
  have hstack := hst.stack
  rw [hcalls] at hstack
  have hproper := hstack.proper hwf
  have hlaid := hstack.inHeap.laid
  have hbits := hst.bits
  cases hstack with
  | @push _ h₁ _ c₁ _ below₁ P Q₁ y hs hrest hP hcall hunlift hin hatt =>
      obtain ⟨io, -, -, rfl⟩ := attempt_eq_some.mp hatt
      have hy := mem_rest.mp (show y ∈ rest es c₁.done by rw [hrest]; simp)
      obtain ⟨h₀, hn⟩ := hproper.range y.2.id (by simp)
      have hid : (st.heap.id y.1).bind index = some y.2.id.toNat := by
        rw [hlaid.id y hy.1]
        exact index_of_nonneg h₀
      obtain ⟨b, hclear, hbits'⟩ := hbits.clear h₀ hn hy.2
      refine ⟨{ st with
        state := c₁.state
        linearized := b
        calls := calls
        heap := h₁
        entry := h₁.next y.1 }, ?_, ?_⟩
      · simp only [Search.back, hid, hclear, hunlift, Option.bind_eq_bind, Option.bind_some]
      · obtain ⟨path, entered, closed⟩ := bt
        cases hpath
        refine .step (.pop (by simp [Config.triesFrom, hret])) rfl
          ⟨hst.head, hs, rfl, hbits', ⟨P ++ [y], by simp [hrest], ?_⟩, hs.inHeap.next_cell hrest⟩
          ⟨hr.cache, hr.length, hr.sound, fun hcp d hd => ?_, fun d hd => ?_⟩
        · intro z hz
          rcases List.mem_append.mp hz with hz | hz
          · exact hP z hz
          · rw [List.mem_singleton.mp hz]
            exact hcall
        · rcases List.mem_cons.mp hd with rfl | hd
          · exact hnoted hcp
          · exact hr.noted hcp d hd
        · rcases List.mem_cons.mp hd with rfl | hd
          · obtain ⟨P', hrest', -⟩ := hst.place
            rw [hrest']
            simp
          · exact hr.closed d hd

/-- Nothing is left: the search has found an order. -/
theorem finish_outcome (hst : Stands model op es n st c Q below)
    (hr : Remembers model op es n computePartial st bt)
    (hpath : bt.path = { here := c, left := c.triesFrom model op Q } :: below)
    (hnil : rest es c.done = []) : ∃ st', st.finish = some st' ∧
      Outcome model op es n computePartial bt (.done true st') := by
  have hseq : st.seq = some c.done := hst.stack.seq hst.stack.inHeap.laid
  refine ⟨{ st with
    seqs := st.seqs ++ [c.done]
    longest := List.replicate st.longest.length (some st.seqs.length) }, ?_, ?_⟩
  · simp only [Search.finish, hseq, Option.bind_eq_bind, Option.bind_some]
  · refine .found st.seqs.length hpath hnil ?_ (by simp)
    rw [hr.length]

theorem turn_outcome (hwf : WellFormed n es) (hval : Values op es)
    (hst : Stands model op es n st c Q below) (hr : Remembers model op es n computePartial st bt)
    (hpath : bt.path = { here := c, left := c.triesFrom model op Q } :: below)
    (hinv : (space model op es).Inv (.first model) bt) :
    ∃ t, st.turn model computePartial false = some t ∧
      Outcome model op es n computePartial bt t := by
  have hin := hst.stack.inHeap
  unfold Search.turn
  rw [hst.head, hin.next_head]
  by_cases hnil : rest es c.done = []
  · obtain ⟨st', hfin, hout⟩ := finish_outcome hst hr hpath hnil
    exact ⟨_, by simp [hnil, hfin], hout⟩
  · obtain ⟨P, hrest, hP⟩ := hst.place
    have hne : ((rest es c.done).map Prod.fst).head? ≠ none := by simpa using hnil
    rw [if_neg hne]
    cases Q with
    | nil => exact absurd rfl (hwf.ne_nil_of_calls hin.laid hrest hP hnil)
    | cons x Q =>
        have hentry : st.entry = some x.1 := hst.entry
        simp only [hentry, Option.bind_some, Bool.false_eq_true, if_false]
        cases hkind : x.2.value.isCall with
        | true =>
            obtain ⟨m, st', hm, hlin, hout⟩ := linearize_outcome hwf hval hst hr hpath hkind
            exact ⟨_, by simp [hm, hlin], hout⟩
        | false =>
            have hm : st.heap.matching x.1 = none := by
              obtain ⟨A, B, heq⟩ := List.append_of_mem
                (mem_rest.mp (show x ∈ rest es c.done by rw [hrest]; simp)).1
              rw [hin.laid.matching A x B heq, hkind]
              rfl
            rw [hm]
            cases hcalls : st.calls with
            | nil =>
                have hstack := hst.stack
                rw [hcalls] at hstack
                cases hstack
                exact ⟨_, rfl, .exhausted hpath (by simp [Config.triesFrom, hkind]) rfl hnil hr⟩
            | cons callsTop calls =>
                have hreach : (space model op es).Reaches (.first model) c := by
                  have hchain := hinv.chain
                  rw [hpath] at hchain
                  exact hchain.reaches
                cases computePartial with
                | false =>
                    obtain ⟨st', hback, hout⟩ := back_outcome hwf hst hcalls hr hpath hkind
                      (fun h => by cases h)
                    exact ⟨_, by simp [hback], hout⟩
                | true =>
                    obtain ⟨seqs, longest, hnote, hr', hnoted⟩ := note_spec hwf hst hr hreach
                    have hst' : Stands model op es n
                        { st with seqs := seqs, longest := longest } c (x :: Q) below :=
                      ⟨hst.head, hst.stack, hst.state, hst.bits, hst.place, hst.entry⟩
                    obtain ⟨st', hback, hout⟩ := back_outcome hwf hst' hcalls hr' hpath hkind
                      (fun _ => hnoted)
                    exact ⟨_, by simp [hnote, hback], hout⟩

/-! ### Whole runs -/

/-- The loop runs and is where the search is. -/
structure Running (model : Model I O S) (op : Int → Option (I × O)) (es : List (Entry I O))
    (n : Nat) (computePartial : Bool) (st : Search I O S) (bt : State (Config S)) : Prop where
  stands : ∃ c Q below, Stands model op es n st c Q below ∧
    bt.path = { here := c, left := c.triesFrom model op Q } :: below
  remembers : Remembers model op es n computePartial st bt
  inv : (space model op es).Inv (.first model) bt

theorem running_start (hwf : WellFormed n es) (op : Int → Option (I × O)) :
    Running model op es n computePartial (.start model es)
      ((space model op es).start (.first model)) := by
  obtain ⟨hhead, hentry, hlongest, hlin, hlinked, hlaid⟩ := start_heap model es
  have hn : es.length / 2 = n := by
    rw [hwf.length]
    omega
  rw [hn] at hlongest hlin
  refine ⟨⟨.first model, cells es, [], ⟨hhead, .root ⟨?_, hlaid⟩, rfl, ?_,
    ⟨[], rest_nil es, by simp⟩, hentry⟩, ?_⟩, ⟨?_, ?_, ?_, ?_, ?_⟩, .start⟩
  · rw [rest_nil]
    exact hlinked
  · rw [hlin]
    refine ⟨rfl, fun q => ?_⟩
    simp [Bitset.not_mem_newBitset, Config.first]
  · show [(space model op es).enter (.first model)] = _
    simp [Space.enter, space, Config.first, rest_nil]
  · intro hash elem helem
    cases helem
  · rw [hlongest, List.length_replicate]
  · intro i p hp
    rw [hlongest] at hp
    cases List.eq_of_mem_replicate (List.mem_of_getElem? hp)
  · intro _ d hd
    cases hd
  · intro d hd
    cases hd

/-- What the answer of the loop means, and what the sequences it has noted are. -/
structure Verdict (model : Model I O S) (op : Int → Option (I × O)) (es : List (Entry I O))
    (n : Nat) (computePartial : Bool) (ok : Bool) (st : Search I O S) : Prop where
  found : ok = true ↔ ∃ c : Config S,
    (space model op es).Reaches (.first model) c ∧ rest es c.done = []
  length : st.longest.length = n
  sound : ∀ (i p : Nat), st.longest[i]? = some (some p) → ∃ d : Config S,
    (space model op es).Reaches (.first model) d ∧ st.seqs[p]? = some d.done ∧ (i : Int) ∈ d.done
  noted : computePartial = true → ∀ d : Config S, (space model op es).Reaches (.first model) d →
    ∀ k ∈ d.done, Noted st.seqs st.longest k.toNat d.done.length

theorem proper_of_reaches (hwf : WellFormed n es)
    (h : (space model op es).Reaches (.first model) c) : c.Proper n := by
  induction h with
  | refl => exact ⟨.nil, by simp [Config.first]⟩
  | tail _ hstep ih =>
      obtain ⟨x, hx, hatt⟩ := mem_tries.mp hstep
      exact ih.attempt hwf ((List.takeWhile_sublist _).mem hx) hatt

/-- When nothing is left, every operation is done. -/
theorem mem_done_of_rest_nil (hwf : WellFormed n es) (hnil : rest es c.done = []) {k : Int}
    (h₀ : 0 ≤ k) (hn : k < n) : k ∈ c.done := by
  obtain ⟨A, x, B, r, D, heq, rfl, -⟩ := hwf.cells_eq h₀ hn
  by_contra hk
  have hx : x ∈ rest es c.done := mem_rest.mpr ⟨by rw [heq]; simp, hk⟩
  rw [hnil] at hx
  cases hx

theorem Outcome.verdict_found (hwf : WellFormed n es)
    (hrun : Running model op es n computePartial st bt) {st' : Search I O S} {fr : Frame (Config S)}
    {p : Nat} (hpath : bt.path = fr :: below) (hnil : rest es fr.here.done = [])
    (hlongest : st'.longest = List.replicate n (some p))
    (hseqs : st'.seqs[p]? = some fr.here.done) :
    Verdict model op es n computePartial true st' := by
  have hreach : (space model op es).Reaches (.first model) fr.here := by
    have hchain := hrun.inv.chain
    rw [hpath] at hchain
    exact hchain.reaches
  have hproper := proper_of_reaches hwf hreach
  have hget : ∀ i < n, st'.longest[i]? = some (some p) := fun i hi => by
    rw [hlongest, List.getElem?_replicate, if_pos hi]
  refine ⟨⟨fun _ => ⟨fr.here, hreach, hnil⟩, fun _ => rfl⟩, by rw [hlongest, List.length_replicate],
    fun i q hq => ?_, fun _ d hd k hk => ?_⟩
  · rw [hlongest, List.getElem?_replicate] at hq
    split at hq
    · next hi =>
        cases hq
        exact ⟨fr.here, hreach, hseqs, mem_done_of_rest_nil hwf hnil (by omega) (by omega)⟩
    · cases hq
  · have hdp := proper_of_reaches hwf hd
    obtain ⟨h₀, hlt⟩ := hdp.range k hk
    refine ⟨p, fr.here.done, hget _ (by omega), hseqs, ?_⟩
    exact (hdp.nodup.subperm fun j hj =>
      mem_done_of_rest_nil hwf hnil (hdp.range j hj).1 (hdp.range j hj).2).length_le

theorem Noted.mono {seqs : List (List Int)} {longest : List (Option Nat)} {i len len' : Nat}
    (hn : Noted seqs longest i len) (hle : len' ≤ len) : Noted seqs longest i len' := by
  obtain ⟨p, sq, hp, hsq, hlen⟩ := hn
  exact ⟨p, sq, hp, hsq, Nat.le_trans hle hlen⟩

theorem Outcome.verdict_exhausted (hwf : WellFormed n es) (heq : model.EqualSound)
    (hrun : Running model op es n computePartial st bt) {st' : Search I O S} {fr : Frame (Config S)}
    (hpath : bt.path = [fr]) (hleft : fr.left = []) (hdone : fr.here.done = [])
    (hne : rest es fr.here.done ≠ []) (hr : Remembers model op es n computePartial st' bt) :
    Verdict model op es n computePartial false st' := by
  obtain ⟨path, entered, closed⟩ := bt
  cases hpath
  have hcov : (space model op es).Covered (fr.here :: closed) (.first model) :=
    (hrun.inv.step heq.sound (.pop hleft)).exhausted rfl
  -- whatever can be reached has the operations of a configuration that was given up
  have hsame : ∀ d : Config S, (space model op es).Reaches (.first model) d →
      ∃ e ∈ fr.here :: closed, ∀ k, k ∈ e.done ↔ k ∈ d.done := by
    intro d hd
    obtain ⟨e, he, hkey⟩ := hcov d hd
    refine ⟨e, he, fun k => ?_⟩
    have hk := Finset.ext_iff.mp hkey k
    simpa [space] using hk
  refine ⟨⟨fun h => (by cases h), ?_⟩, hr.length, hr.sound, fun hcp d hd k hk => ?_⟩
  · rintro ⟨c, hc, hnil⟩
    obtain ⟨e, he, hiff⟩ := hsame c hc
    rw [← rest_congr hiff] at hnil
    rcases List.mem_cons.mp he with rfl | he
    · exact absurd hnil hne
    · exact absurd hnil (hr.closed e he)
  · obtain ⟨e, he, hiff⟩ := hsame d hd
    rcases List.mem_cons.mp he with rfl | he
    · rw [← hiff, hdone] at hk
      cases hk
    · refine (hr.noted hcp e he k ((hiff k).mpr hk)).mono ?_
      exact ((proper_of_reaches hwf hd).nodup.subperm fun j hj => (hiff j).mpr hj).length_le

/-- How a turn of a loop that nobody kills ends: it goes on, with less left to do, or it
answers. -/
inductive Turned (model : Model I O S) (op : Int → Option (I × O)) (es : List (Entry I O)) (n : Nat)
    (computePartial : Bool) (bt : State (Config S)) : Turn I O S → Prop
  | next {st' : Search I O S} {bt' : State (Config S)} :
      Running model op es n computePartial st' bt' →
      (space model op es).budget es.length bt' < (space model op es).budget es.length bt →
      Turned model op es n computePartial bt (.next st')
  | done {ok : Bool} {st' : Search I O S} : Verdict model op es n computePartial ok st' →
      Turned model op es n computePartial bt (.done ok st')

theorem Running.turn (hwf : WellFormed n es) (hval : Values op es) (heq : model.EqualSound)
    (hrun : Running model op es n computePartial st bt) :
    ∃ t, st.turn model computePartial false = some t ∧
      Turned model op es n computePartial bt t := by
  obtain ⟨c, Q, below, hst, hpath⟩ := hrun.stands
  obtain ⟨t, hturn, hout⟩ := turn_outcome hwf hval hst hrun.remembers hpath hrun.inv
  refine ⟨t, hturn, ?_⟩
  cases hout with
  | @step st' bt' c' Q' below' hstep hpath' hst' hr' =>
      exact .next ⟨⟨c', Q', below', hst', hpath'⟩, hr', hrun.inv.step heq.sound hstep⟩
        (Space.budget_lt heq.sound length_tries_le hrun.inv hstep)
  | @found st' fr below p hpath' hnil hlongest hseqs =>
      exact .done (Outcome.verdict_found hwf hrun hpath' hnil hlongest hseqs)
  | @exhausted st' fr hpath' hleft hdone hne hr =>
      exact .done (Outcome.verdict_exhausted hwf heq hrun hpath' hleft hdone hne hr)

/-- A search that is killed says no, unless it is done.  What it has noted is as good as
ever. -/
theorem Running.turn_killed (hwf : WellFormed n es)
    (hrun : Running model op es n computePartial st bt) : ∃ ok st',
      st.turn model computePartial true = some (.done ok st') ∧
      (ok = true → Verdict model op es n computePartial true st') ∧ st'.longest.length = n ∧
      ∀ (i p : Nat), st'.longest[i]? = some (some p) → ∃ d : Config S,
        (space model op es).Reaches (.first model) d ∧ st'.seqs[p]? = some d.done ∧
        (i : Int) ∈ d.done := by
  obtain ⟨c, Q, below, hst, hpath⟩ := hrun.stands
  unfold Search.turn
  rw [hst.head, hst.stack.inHeap.next_head]
  by_cases hnil : rest es c.done = []
  · obtain ⟨st', hfin, hout⟩ := finish_outcome hst hrun.remembers hpath hnil
    cases hout with
    | found p hpath' hnil' hlongest hseqs =>
        have hver := Outcome.verdict_found hwf hrun hpath' hnil' hlongest hseqs
        exact ⟨true, st', by simp [hnil, hfin], fun _ => hver, hver.length, hver.sound⟩
  · exact ⟨false, st, by simp [hnil], fun h => (by cases h), hrun.remembers.length,
      hrun.remembers.sound⟩

theorem loop_succ_next {st' : Search I O S} {fuel : Nat}
    (h : st.turn model computePartial false = some (.next st')) :
    Search.loop model computePartial (fuel + 1) st = Search.loop model computePartial fuel st' := by
  rw [Search.loop, h]

theorem loop_succ_done {st' : Search I O S} {ok : Bool} {fuel : Nat}
    (h : st.turn model computePartial false = some (.done ok st')) :
    Search.loop model computePartial (fuel + 1) st = some (ok, st') := by
  rw [Search.loop, h]

/-- The loop comes to an end, with an answer that is right. -/
theorem loop_verdict (hwf : WellFormed n es) (hval : Values op es) (heq : model.EqualSound)
    (hrun : Running model op es n computePartial st bt) : ∃ bound ok st',
      (∀ fuel ≥ bound, Search.loop model computePartial fuel st = some (ok, st')) ∧
      Verdict model op es n computePartial ok st' := by
  -- every turn is a step of the search, which takes from its budget
  induction hb : (space model op es).budget es.length bt using Nat.strong_induction_on
    generalizing st bt with
  | _ b ih =>
      obtain ⟨t, hturn, hout⟩ := hrun.turn hwf hval heq
      cases hout with
      | @next st' bt' hrun' hlt =>
          obtain ⟨bound, ok, stf, hloop, hver⟩ := ih _ (by omega) hrun' rfl
          refine ⟨bound + 1, ok, stf, fun fuel hfuel => ?_, hver⟩
          obtain ⟨fuel, rfl⟩ : ∃ k, fuel = k + 1 := ⟨fuel - 1, by omega⟩
          rw [loop_succ_next hturn]
          exact hloop fuel (by omega)
      | @done ok st' hver =>
          refine ⟨1, ok, st', fun fuel hfuel => ?_, hver⟩
          obtain ⟨fuel, rfl⟩ : ∃ k, fuel = k + 1 := ⟨fuel - 1, by omega⟩
          exact loop_succ_done hturn

theorem checkSingle_verdict (hwf : WellFormed n es) (hval : Values op es) (heq : model.EqualSound)
    (computePartial : Bool) : ∃ bound ok st,
      (∀ fuel ≥ bound, checkSingle model es computePartial fuel = some (ok, st)) ∧
      Verdict model op es n computePartial ok st :=
  loop_verdict hwf hval heq (running_start hwf op)

end Turn
end Porcupine
end Labs
