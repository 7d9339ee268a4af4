import Labs.Porcupine.Orders
import Mathlib.Data.List.Permutation

/-!
# Histories of operations and of events

A history comes to the checker as operations with times, whose entries are sorted by time, or
as events in the order in which they happened, whose position is their time.  In both cases
the entries of an operation are its call and, later, its return, and the order of the entries
is that of the times.  So the checker decides whether the operations are linearizable.
-/

namespace Labs
namespace Porcupine

variable {I O S : Type}

/-- What is assumed of `sort.Sort(byTime(..))`. -/
structure SortsByTime (sort : List (Entry I O) → List (Entry I O)) : Prop where
  perm : ∀ l, (sort l).Perm l
  sorted : ∀ l, (sort l).Pairwise fun a b => b.less a = false

/-- Such as insertion sort. -/
theorem sortsByTime_insertionSort :
    SortsByTime (List.insertionSort fun a b : Entry I O => b.less a = false) := by
  have htotal : Std.Total fun a b : Entry I O => b.less a = false := ⟨fun a b => by
    unfold Entry.less
    cases a.value.isCall <;> cases b.value.isCall <;> simp <;> grind⟩
  have htrans : IsTrans (Entry I O) fun a b => b.less a = false := ⟨fun a b c => by
    unfold Entry.less
    cases a.value.isCall <;> cases b.value.isCall <;> cases c.value.isCall <;> simp <;> grind⟩
  exact ⟨fun l => List.perm_insertionSort _ l, fun l => List.pairwise_insertionSort _ l⟩

/-- `e` is the call of operation `a`. -/
def Entry.IsCallOf (e : Entry I O) (a : Operation I O) : Prop :=
  e.value = .call a.input ∧ e.time = a.call

def Entry.IsReturnOf (e : Entry I O) (a : Operation I O) : Prop :=
  e.value = .ret a.output ∧ e.time = a.ret

/-- The entries are those of the operations, in the order of their times. -/
structure EntriesOf (history : List (Operation I O)) (es : List (Entry I O)) : Prop where
  known : ∀ e ∈ es, ∃ a, opOf history e.id = some a
  pair : ∀ k a, opOf history k = some a → ∃ c r, es.filter (fun e => e.id = k) = [c, r] ∧
    c.IsCallOf a ∧ r.IsReturnOf a
  sorted : es.Pairwise fun a b => b.less a = false

/-- The inputs and outputs of the operations. -/
def inputsOutputs (history : List (Operation I O)) : List (I × O) :=
  history.map fun a => (a.input, a.output)

/-- Operation `j` had returned when `k` was called. -/
def ReturnsBefore (history : List (Operation I O)) (j k : Int) : Prop :=
  ∃ a b, opOf history j = some a ∧ opOf history k = some b ∧ a.ret < b.call

/-- The beginning of a linearization of a history. -/
abbrev Begins (init : S) (step : S → I → O → Bool × S) (history : List (Operation I O))
    (ks : List Int) : Prop :=
  PartialLinearization init step (inputsOutputs history) (ReturnsBefore history) ks

/-! ## Entries in the order of their times -/

section EntriesOf

variable {history : List (Operation I O)} {es : List (Entry I O)}

theorem opOf_inputsOutputs (history : List (Operation I O)) (k : Int) :
    opOf (inputsOutputs history) k = (opOf history k).map fun a => (a.input, a.output) := by
  simp [opOf, inputsOutputs, Option.map_bind]

theorem length_of_pairs {n : Nat} (hid : ∀ e ∈ es, 0 ≤ e.id ∧ e.id < n)
    (hpair : ∀ k : Int, 0 ≤ k → k < n → (es.filter fun e => e.id = k).length = 2) :
    es.length = 2 * n := by
  induction n generalizing es with
  | zero =>
      cases es with
      | nil => rfl
      | cons e es =>
          have hlt := hid e List.mem_cons_self
          omega
  | succ n ih =>
      -- the two entries of the last operation, and the rest
      have hlast := hpair n (by omega) (by omega)
      have hrest : (es.filter fun e => e.id ≠ (n : Int)).length = 2 * n := by
        refine ih (fun e he => ?_) (fun k h₀ hk => ?_)
        · obtain ⟨he, hne⟩ := List.mem_filter.mp he
          have hlt := hid e he
          have hne' : e.id ≠ (n : Int) := by simpa using hne
          omega
        · rw [List.filter_filter, ← hpair k h₀ (by omega)]
          congr 1
          refine List.filter_congr fun e _ => ?_
          by_cases hk' : e.id = k
          · simp [hk']
            omega
          · simp [hk']
      have hsum := List.length_eq_length_filter_add (l := es) fun e => decide (e.id = (n : Int))
      simp only [decide_not, ne_eq] at hrest hsum
      omega

theorem EntriesOf.mem_pair (h : EntriesOf history es) {e : Entry I O} (he : e ∈ es) :
    ∃ a, opOf history e.id = some a ∧
      (if e.value.isCall then e.IsCallOf a else e.IsReturnOf a) := by
  obtain ⟨a, ha⟩ := h.known e he
  obtain ⟨c, r, hfilter, hc, hr⟩ := h.pair e.id a ha
  have hmem : e ∈ es.filter fun e' => e'.id = e.id := List.mem_filter.mpr ⟨he, by simp⟩
  rw [hfilter, List.mem_cons, List.mem_singleton] at hmem
  refine ⟨a, ha, ?_⟩
  rcases hmem with rfl | rfl
  · simp [hc.1, Payload.isCall, hc]
  · simp [hr.1, Payload.isCall, hr]

theorem EntriesOf.wellFormed (h : EntriesOf history es) :
    WellFormed (inputsOutputs history).length es := by
  have hn : (inputsOutputs history).length = history.length := List.length_map _
  have hid : ∀ e ∈ es, 0 ≤ e.id ∧ e.id < history.length := fun e he => exists_opOf.mp (h.known e he)
  rw [hn]
  refine ⟨length_of_pairs hid fun k h₀ hk => ?_, hid, fun k h₀ hk => ?_⟩
  · obtain ⟨a, ha⟩ := exists_opOf.mpr ⟨h₀, hk⟩
    obtain ⟨c, r, hfilter, -⟩ := h.pair k a ha
    rw [hfilter]
    rfl
  · obtain ⟨a, ha⟩ := exists_opOf.mpr ⟨h₀, hk⟩
    obtain ⟨c, r, hfilter, hc, hr⟩ := h.pair k a ha
    obtain ⟨pre, l, rfl, hpre, hck, hl⟩ := List.filter_eq_cons_iff.mp hfilter
    obtain ⟨mid, post, rfl, hmid, hrk, hpost⟩ := List.filter_eq_cons_iff.mp hl
    rw [List.filter_eq_nil_iff] at hpost
    refine ⟨pre, c, mid, r, post, rfl, by simpa using hck, by simpa using hrk, by rw [hc.1]; rfl,
      by rw [hr.1]; rfl, fun e he => ?_⟩
    rcases List.mem_append.mp he with he | he
    · rcases List.mem_append.mp he with he | he
      · simpa using hpre e he
      · simpa using hmid e he
    · simpa using hpost e he

theorem EntriesOf.values (h : EntriesOf history es) : Values (opOf (inputsOutputs history)) es := by
  intro e he
  obtain ⟨a, ha, hv⟩ := h.mem_pair he
  refine ⟨a.input, a.output, by simp [opOf_inputsOutputs, ha], ?_⟩
  cases hcall : e.value.isCall with
  | true =>
      rw [hcall, if_pos rfl] at hv
      exact .inl hv.1
  | false =>
      rw [hcall, if_neg (by simp)] at hv
      exact .inr hv.1

/-- Of two elements one comes first. -/
theorem sublist_or_sublist {α : Type} {l : List α} {a b : α} (ha : a ∈ l) (hb : b ∈ l)
    (hne : a ≠ b) : [a, b].Sublist l ∨ [b, a].Sublist l := by
  obtain ⟨A, B, rfl⟩ := List.append_of_mem ha
  rcases List.mem_append.mp hb with hb | hb
  · exact .inr ((List.singleton_sublist.mpr hb).append (by simp))
  · rcases List.mem_cons.mp hb with rfl | hb
    · exact absurd rfl hne
    · exact .inl (((List.singleton_sublist.mpr hb).cons_cons a).trans
        (List.sublist_append_right A _))

/-- The order of the entries is that of the times. -/
theorem EntriesOf.precedes_iff (h : EntriesOf history es) (j k : Int) :
    Precedes es j k ↔ ReturnsBefore history j k := by
  constructor
  · rintro ⟨r, c, hsub, rfl, rfl, hret, hcall⟩
    obtain ⟨a, ha, hr⟩ := h.mem_pair (hsub.mem (by simp : r ∈ [r, c]))
    obtain ⟨b, hb, hc⟩ := h.mem_pair (hsub.mem (by simp : c ∈ [r, c]))
    rw [hret, if_neg (by simp)] at hr
    rw [hcall, if_pos rfl] at hc
    refine ⟨a, b, ha, hb, ?_⟩
    have hless := List.pairwise_iff_forall_sublist.mp h.sorted hsub
    rw [← hr.2, ← hc.2]
    unfold Entry.less at hless
    split at hless
    · next hne =>
        have hle : ¬ c.time < r.time := by simpa using hless
        omega
    · simp [hret, hcall] at hless
  · rintro ⟨a, b, ha, hb, hlt⟩
    obtain ⟨c', r, hfilter, -, hr⟩ := h.pair j a ha
    obtain ⟨c, r', hfilter', hc, -⟩ := h.pair k b hb
    obtain ⟨hrmem, hrj⟩ := List.mem_filter.mp
      (by rw [hfilter]; simp : r ∈ es.filter fun e => e.id = j)
    obtain ⟨hcmem, hck⟩ := List.mem_filter.mp
      (by rw [hfilter']; simp : c ∈ es.filter fun e => e.id = k)
    have hret : r.value.isCall = false := by
      rw [hr.1]
      rfl
    have hcall : c.value.isCall = true := by
      rw [hc.1]
      rfl
    have hne : r ≠ c := by
      rintro rfl
      rw [hret] at hcall
      cases hcall
    rcases sublist_or_sublist hrmem hcmem hne with hsub | hsub
    · exact ⟨r, c, hsub, by simpa using hrj, by simpa using hck, hret, hcall⟩
    · have hless := List.pairwise_iff_forall_sublist.mp h.sorted hsub
      unfold Entry.less at hless
      rw [hr.2, hc.2, if_pos (by omega)] at hless
      have hle : ¬ a.ret < b.call := by simpa using hless
      exact absurd hlt hle

/-! ## Linearizations -/

theorem exists_perm_map {α β : Type} {f : α → β} {m : List β} {l : List α}
    (h : m.Perm (l.map f)) : ∃ l' : List α, l'.Perm l ∧ l'.map f = m := by
  generalize hm' : l.map f = m' at h
  induction h generalizing l with
  | nil =>
      rw [List.map_eq_nil_iff] at hm'
      exact ⟨[], by rw [hm'], rfl⟩
  | cons b _ ih =>
      obtain ⟨a, l, rfl, rfl, hl⟩ := List.map_eq_cons_iff.mp hm'
      obtain ⟨l', hperm, rfl⟩ := ih hl
      exact ⟨a :: l', hperm.cons a, rfl⟩
  | swap b b' rest =>
      obtain ⟨a, l, rfl, rfl, hl⟩ := List.map_eq_cons_iff.mp hm'
      obtain ⟨a', l, rfl, rfl, rfl⟩ := List.map_eq_cons_iff.mp hl
      exact ⟨a' :: a :: l, .swap a a' l, rfl⟩
  | trans _ _ ih₁ ih₂ =>
      obtain ⟨l₂, hperm₂, hmap₂⟩ := ih₂ hm'
      obtain ⟨l₁, hperm₁, hmap₁⟩ := ih₁ hmap₂
      exact ⟨l₁, hperm₁.trans hperm₂, hmap₁⟩

theorem map_opOf_range (history : List (Operation I O)) :
    ((List.range history.length).map Int.ofNat).map (opOf history) = history.map some := by
  refine List.ext_getElem (by simp) fun i hi hi' => ?_
  have hlt : i < history.length := by simpa using hi'
  have hop : opOf history (Int.ofNat i) = some history[i] :=
    opOf_eq_some.mpr ⟨Int.natCast_nonneg i, List.getElem?_eq_getElem hlt⟩
  simpa using hop

theorem filterMap_opOf_of_map {ks : List Int} {m : List (Operation I O)}
    (h : ks.map (opOf history) = m.map some) : ks.filterMap (opOf history) = m := by
  have hid : ks.filterMap (opOf history) = (ks.map (opOf history)).filterMap id := by
    rw [List.filterMap_map]
    rfl
  rw [hid, h, List.filterMap_map]
  exact List.filterMap_some

/-- A complete beginning of a linearization is a linearization. -/
theorem linearizable_iff {init : S} {step : S → I → O → Bool × S}
    (htimes : ∀ a ∈ history, a.call ≤ a.ret) :
    (∃ ks, Begins init step history ks ∧ ks.length = (inputsOutputs history).length) ↔
      Linearizable init step history := by
  have hn : (inputsOutputs history).length = history.length := List.length_map _
  have hlegal : ∀ ks : List Int, Locality.Legal (fun s io => step s io.1 io.2) init
      (ks.filterMap (opOf (inputsOutputs history))) ↔
      Locality.Legal (fun s a => step s a.input a.output) init (ks.filterMap (opOf history)) := by
    intro ks
    have hmap : ks.filterMap (opOf (inputsOutputs history)) =
        (ks.filterMap (opOf history)).map fun a => (a.input, a.output) := by
      rw [List.map_filterMap]
      exact List.filterMap_congr fun k _ => opOf_inputsOutputs history k
    rw [hmap, Locality.legal_map]
  constructor
  · rintro ⟨ks, hpl, hlen⟩
    rw [hn] at hlen
    have hsub : ks.Subperm ((List.range history.length).map Int.ofNat) :=
      hpl.nodup.subperm fun k hk => by
        obtain ⟨h₀, hlt⟩ := hpl.range k hk
        exact List.mem_map.mpr ⟨k.toNat, by simp; omega, by simp [h₀]⟩
    have hperm := hsub.perm_of_length_le (by simp [hlen])
    refine ⟨ks.filterMap (opOf history), ?_, ?_, (hlegal ks).mp hpl.legal⟩
    · have hp := hperm.filterMap (opOf history)
      rwa [filterMap_opOf_of_map (map_opOf_range history)] at hp
    · refine List.pairwise_filterMap.mpr (List.pairwise_iff_forall_sublist.mpr ?_)
      -- an operation that had to come before one would be there twice
      intro k j hsub a ha b hb hlt
      obtain ⟨r₁, r₂, rfl, hk, hj⟩ := List.cons_sublist_iff.mp hsub
      obtain ⟨A, B, rfl⟩ := List.append_of_mem hk
      have hA := hpl.order A k (B ++ r₂) (by simp) j ⟨b, a, hb, ha, hlt⟩
      have hnd := List.nodup_append.mp hpl.nodup
      exact hnd.2.2 j (by simp [hA]) j (List.singleton_sublist.mp hj) rfl
  · rintro ⟨m, hperm, hresp, hleg⟩
    obtain ⟨ks, hks, hmap⟩ := exists_perm_map (f := opOf history) (m := m.map some)
      (l := (List.range history.length).map Int.ofNat) (by
        rw [map_opOf_range]
        exact hperm.map some)
    have hm := filterMap_opOf_of_map hmap
    have hmem : ∀ k, k ∈ ks ↔ 0 ≤ k ∧ k < history.length := by
      intro k
      rw [hks.mem_iff, List.mem_map]
      constructor
      · rintro ⟨i, hi, rfl⟩
        rw [List.mem_range] at hi
        simpa using hi
      · rintro ⟨h₀, hlt⟩
        exact ⟨k.toNat, by simp; omega, by simp [h₀]⟩
    have hnd : ks.Nodup := hks.nodup_iff.mpr (List.nodup_range.map fun a b h => Int.ofNat.inj h)
    refine ⟨ks, ⟨hnd, ?_, ?_, ?_⟩, ?_⟩
    · rw [hn]
      exact fun k hk => (hmem k).mp hk
    · rintro pre k post rfl j ⟨a, b, ha, hb, hlt⟩
      have hjmem := (hmem j).mpr (exists_opOf.mp ⟨a, ha⟩)
      simp only [List.mem_append, List.mem_cons] at hjmem
      rcases hjmem with hj | rfl | hj
      · exact hj
      · rw [ha] at hb
        cases hb
        have hle := htimes a (List.mem_of_getElem? (opOf_eq_some.mp ha).2)
        omega
      · rw [← hm, Locality.Respects, List.pairwise_filterMap, List.pairwise_append,
          List.pairwise_cons] at hresp
        exact absurd hlt (hresp.2.1.1 j hj b hb a ha)
    · rw [hlegal, hm]
      exact hleg
    · rw [hn, hks.length_eq]
      simp

theorem EntriesOf.precedes_eq (h : EntriesOf history es) : Precedes es = ReturnsBefore history := by
  funext j k
  exact propext (h.precedes_iff j k)

/-- The answer of the checker for entries in the order of their times. -/
theorem EntriesOf.answer {model : Model I O S} (h : EntriesOf history es)
    (heq : model.EqualSound) (computePartial : Bool) : ∃ bound ok st,
      (∀ fuel ≥ bound, checkSingle model es computePartial fuel = some (ok, st)) ∧
      Answer model.init model.step (inputsOutputs history) (ReturnsBefore history)
        computePartial ok st.seqs st.longest := by
  obtain ⟨bound, ok, st, hrun, hver⟩ :=
    checkSingle_verdict h.wellFormed h.values heq computePartial
  refine ⟨bound, ok, st, hrun, ?_⟩
  rw [← h.precedes_eq]
  exact hver.answer h.wellFormed

end EntriesOf

/-! ## Operations -/

section Operations

variable {history : List (Operation I O)} {sort : List (Entry I O) → List (Entry I O)}

def callEntryOf (k : Int) (a : Operation I O) : Entry I O :=
  { value := .call a.input, id := k, time := a.call, clientId := a.clientId }

def returnEntryOf (k : Int) (a : Operation I O) : Entry I O :=
  { value := .ret a.output, id := k, time := a.ret, clientId := a.clientId }

theorem opOf_cons (a : Operation I O) {k : Int} (hk : k ≠ 0) :
    opOf (a :: history) k = opOf history (k - 1) := by
  unfold opOf index
  by_cases hneg : k < 0
  · rw [if_pos hneg, if_pos (by omega)]
    rfl
  · rw [if_neg hneg, if_neg (by omega)]
    have hsucc : k.toNat = (k - 1).toNat + 1 := by omega
    rw [hsucc]
    rfl

/-- The loop makes two entries of each operation. -/
theorem filter_operationEntries (id k : Int) (history : List (Operation I O)) :
    (operationEntries id history).filter (fun e => e.id = k) =
      ((opOf history (k - id)).map fun a => [callEntryOf k a, returnEntryOf k a]).getD [] := by
  induction history generalizing id with
  | nil => simp [operationEntries, opOf]
  | cons a history ih =>
      have hk : k - (id + 1) = k - id - 1 := by omega
      rw [operationEntries]
      by_cases heq : id = k
      · subst heq
        have hrest : (operationEntries (id + 1) history).filter (fun e => e.id = id) = [] := by
          rw [ih, hk]
          simp [opOf, index]
        rw [List.filter_cons_of_pos (by simp), List.filter_cons_of_pos (by simp), hrest]
        simp [opOf, index, callEntryOf, returnEntryOf]
      · rw [List.filter_cons_of_neg (by simpa using heq),
          List.filter_cons_of_neg (by simpa using heq), ih, hk, opOf_cons a (by omega)]

theorem entriesOf_makeEntries (hsort : SortsByTime sort)
    (htimes : ∀ a ∈ history, a.call ≤ a.ret) : EntriesOf history (makeEntries sort history) := by
  have hperm : ∀ k, ((makeEntries sort history).filter fun e => e.id = k).Perm
      (((opOf history k).map fun a => [callEntryOf k a, returnEntryOf k a]).getD []) := by
    intro k
    have hp := (hsort.perm (operationEntries 0 history)).filter fun e => decide (e.id = k)
    rwa [filter_operationEntries, Int.sub_zero] at hp
  refine ⟨fun e he => ?_, fun k a ha => ?_, hsort.sorted _⟩
  · have hmem : e ∈ (makeEntries sort history).filter fun e' => e'.id = e.id :=
      List.mem_filter.mpr ⟨he, by simp⟩
    rw [(hperm e.id).mem_iff] at hmem
    cases hop : opOf history e.id with
    | some a => exact ⟨a, rfl⟩
    | none =>
        rw [hop] at hmem
        cases hmem
  · have hp := hperm k
    rw [ha] at hp
    refine ⟨callEntryOf k a, returnEntryOf k a, ?_, ⟨rfl, rfl⟩, ⟨rfl, rfl⟩⟩
    -- in the other order they would not be sorted
    rcases List.perm_pair.mp hp with heq | heq
    · exact heq
    · have hsub : [returnEntryOf k a, callEntryOf k a].Sublist (makeEntries sort history) := by
        rw [← heq]
        exact List.filter_sublist
      have hless := List.pairwise_iff_forall_sublist.mp (hsort.sorted _) hsub
      have hle := htimes a (List.mem_of_getElem? (opOf_eq_some.mp ha).2)
      have hfirst : (callEntryOf k a).less (returnEntryOf k a) = true := by
        show (if a.call ≠ a.ret then decide (a.call < a.ret) else true && !false) = true
        split
        · exact decide_eq_true (by omega)
        · rfl
      rw [hless] at hfirst
      cases hfirst

/-- The checker comes to an end without a panic, and says whether the operations are
linearizable. -/
theorem checkSingle_operations {model : Model I O S} (hsort : SortsByTime sort)
    (htimes : ∀ a ∈ history, a.call ≤ a.ret) (heq : model.EqualSound) (computePartial : Bool) :
    ∃ bound ok st,
      (∀ fuel ≥ bound,
        checkSingle model (makeEntries sort history) computePartial fuel = some (ok, st)) ∧
      (ok = true ↔ Linearizable model.init model.step history) := by
  obtain ⟨bound, ok, st, hrun, hans⟩ :=
    (entriesOf_makeEntries hsort htimes).answer heq computePartial
  exact ⟨bound, ok, st, hrun, hans.found.trans (linearizable_iff htimes)⟩

def noTexts : DefaultTexts I O S where
  defaultDescribeOperation := fun _ _ => []
  defaultDescribeState := fun _ => []

def kvModel : Model Models.KvInput Models.KvOutput Models.Str :=
  Models.KvModel.model.fillDefault noTexts

/-- Two `put`s at the same time, and a `get` after them that reads what the first one wrote: the
checker tries them in the order of their calls and has to take both back. -/
def twoPuts : List Models.KvOperation :=
  [{ clientId := 0
     input := { op := .put, key := [120], value := [97] }
     call := 0
     output := { value := [] }
     ret := 5 },
   { clientId := 1
     input := { op := .put, key := [120], value := [98] }
     call := 1
     output := { value := [] }
     ret := 4 },
   { clientId := 0
     input := { op := .get, key := [120], value := [] }
     call := 6
     output := { value := [97] }
     ret := 7 }]

theorem checkSingle_operations_twoPuts : ∃ bound st, ∀ fuel ≥ bound,
    checkSingle kvModel (makeEntries (List.insertionSort fun a b => b.less a = false) twoPuts)
      true fuel = some (true, st) := by
  have htimes : ∀ a ∈ twoPuts, a.call ≤ a.ret := by decide
  have heq : kvModel.EqualSound := equalSound_fillDefault _ rfl
  obtain ⟨bound, ok, st, hrun, hok⟩ :=
    checkSingle_operations sortsByTime_insertionSort htimes heq true
  have hlin : Linearizable kvModel.init kvModel.step twoPuts :=
    ⟨[twoPuts[1], twoPuts[0], twoPuts[2]], .swap .., by decide, by decide⟩
  rw [hok.mpr hlin] at hrun
  exact ⟨bound, st, hrun⟩

/-- For each operation the checker has noted one of the longest beginnings of a linearization
that include it, if there are any. -/
theorem checkSingle_longest {model : Model I O S} (hsort : SortsByTime sort)
    (htimes : ∀ a ∈ history, a.call ≤ a.ret) (heq : model.EqualSound) :
    ∃ bound ok st,
      (∀ fuel ≥ bound, checkSingle model (makeEntries sort history) true fuel = some (ok, st)) ∧
      ∀ i < history.length,
        (st.longest[i]? = some none ∧
          ∀ ks, Begins model.init model.step history ks → (i : Int) ∉ ks) ∨
        ∃ p seq, st.longest[i]? = some (some p) ∧ st.seqs[p]? = some seq ∧ (i : Int) ∈ seq ∧
          Begins model.init model.step history seq ∧
          ∀ ks, Begins model.init model.step history ks → (i : Int) ∈ ks →
            ks.length ≤ seq.length := by
  obtain ⟨bound, ok, st, hrun, hans⟩ := (entriesOf_makeEntries hsort htimes).answer heq true
  refine ⟨bound, ok, st, hrun, fun i hi => ?_⟩
  have hlt : i < st.longest.length := by
    rw [hans.length, inputsOutputs, List.length_map]
    exact hi
  obtain ⟨old, hold⟩ : ∃ old, st.longest[i]? = some old := ⟨_, List.getElem?_eq_getElem hlt⟩
  have hnoted := fun ks hks hmem => hans.noted rfl ks hks (i : Int) hmem
  rw [Int.toNat_natCast] at hnoted
  cases old with
  | none =>
      refine .inl ⟨hold, fun ks hks hmem => ?_⟩
      obtain ⟨p, seq, hp, -⟩ := hnoted ks hks hmem
      rw [hold] at hp
      cases hp
  | some p =>
      obtain ⟨seq, hseq, hpl, hmem⟩ := hans.sound i p hold
      refine .inr ⟨p, seq, hold, hseq, hmem, hpl, fun ks hks hmem' => ?_⟩
      obtain ⟨p', seq', hp, hseq', hle⟩ := hnoted ks hks hmem'
      rw [hold] at hp
      cases hp
      rw [hseq] at hseq'
      cases hseq'
      exact hle

theorem checkSingle_longest_twoPuts : ∃ bound ok st,
    (∀ fuel ≥ bound, checkSingle kvModel (makeEntries (List.insertionSort fun a b =>
      b.less a = false) twoPuts) true fuel = some (ok, st)) ∧
    ∀ i < twoPuts.length,
      (st.longest[i]? = some none ∧
        ∀ ks, Begins kvModel.init kvModel.step twoPuts ks → (i : Int) ∉ ks) ∨
      ∃ p seq, st.longest[i]? = some (some p) ∧ st.seqs[p]? = some seq ∧ (i : Int) ∈ seq ∧
        Begins kvModel.init kvModel.step twoPuts seq ∧
        ∀ ks, Begins kvModel.init kvModel.step twoPuts ks → (i : Int) ∈ ks →
          ks.length ≤ seq.length :=
  checkSingle_longest sortsByTime_insertionSort (by decide) (equalSound_fillDefault _ rfl)

end Operations

/-! ## Events -/

/-- The ids, in the order in which they occur first. -/
def idsFrom (ids : List Int) (events : List (Event I O)) : List Int :=
  events.foldl (fun ids v => if v.id ∈ ids then ids else ids ++ [v.id]) ids

/-- The operation with an id, if it has one call and one return after it. -/
def operationOf (es : List (Entry I O)) (id : Int) : Option (Operation I O) :=
  match es.filter fun e => e.id = id with
  | [c, r] =>
    match c.value, r.value with
    | .call input, .ret output =>
      some
        { clientId := c.clientId
          input := input
          call := c.time
          output := output
          ret := r.time }
    | _, _ => none
  | _ => none

/-- The operations of a history of events, with the positions as times. -/
def operationsOf (events : List (Event I O)) : List (Operation I O) :=
  (idsFrom [] events).filterMap (operationOf (convertEntries events))

def Complete (events : List (Event I O)) : Prop :=
  ∀ v ∈ events, (operationOf (convertEntries events) v.id).isSome = true

instance (events : List (Event I O)) : Decidable (Complete events) :=
  inferInstanceAs (Decidable (∀ v ∈ events, _))

section Events

variable {events : List (Event I O)} {ids : List Int}

theorem operationOf_eq_some {es : List (Entry I O)} {id : Int} {a : Operation I O}
    (h : operationOf es id = some a) : ∃ c r, es.filter (fun e => e.id = id) = [c, r] ∧
      c.IsCallOf a ∧ r.IsReturnOf a := by
  unfold operationOf at h
  split at h
  · next c r heq =>
      split at h
      · next input output hc hr =>
          cases h
          exact ⟨c, r, heq, ⟨hc, rfl⟩, ⟨hr, rfl⟩⟩
      · cases h
  · cases h

theorem idsFrom_cons (v : Event I O) : idsFrom ids (v :: events) =
    idsFrom (if v.id ∈ ids then ids else ids ++ [v.id]) events := rfl

theorem exists_idsFrom (ids : List Int) (events : List (Event I O)) :
    ∃ new, idsFrom ids events = ids ++ new := by
  induction events generalizing ids with
  | nil => exact ⟨[], (List.append_nil ids).symm⟩
  | cons v events ih =>
      rw [idsFrom_cons]
      split
      · exact ih ids
      · obtain ⟨new, heq⟩ := ih (ids ++ [v.id])
        exact ⟨v.id :: new, by rw [heq]; simp⟩

theorem nodup_idsFrom (h : ids.Nodup) (events : List (Event I O)) : (idsFrom ids events).Nodup := by
  induction events generalizing ids with
  | nil => exact h
  | cons v events ih =>
      rw [idsFrom_cons]
      split
      · exact ih h
      · next hv =>
          exact ih (List.nodup_append.mpr ⟨h, by simp, fun a ha b hb hab => hv (by simp_all)⟩)

theorem mem_idsFrom {k : Int} : k ∈ idsFrom ids events ↔ k ∈ ids ∨ ∃ v ∈ events, v.id = k := by
  induction events generalizing ids with
  | nil => simp [idsFrom]
  | cons v events ih =>
      rw [idsFrom_cons, ih]
      split
      · next hv =>
          constructor
          · rintro (hk | ⟨w, hw, hk⟩)
            · exact .inl hk
            · exact .inr ⟨w, List.mem_cons_of_mem v hw, hk⟩
          · rintro (hk | ⟨w, hw, rfl⟩)
            · exact .inl hk
            · rcases List.mem_cons.mp hw with rfl | hw
              · exact .inl hv
              · exact .inr ⟨w, hw, rfl⟩
      · simp [or_assoc, eq_comm]

/-- The new number of an id is the place of its first occurrence. -/
theorem renumberFrom_eq {m : Int → Option Int}
    (hm : ∀ k, m k = if k ∈ ids then some (ids.idxOf k : Int) else none) :
    renumberFrom m ids.length events =
      events.map fun v => { v with id := ((idsFrom ids events).idxOf v.id : Int) } := by
  induction events generalizing ids m with
  | nil => rfl
  | cons v events ih =>
      rw [renumberFrom, hm, idsFrom_cons, List.map_cons]
      by_cases hv : v.id ∈ ids
      · obtain ⟨new, heq⟩ := exists_idsFrom ids events
        simp only [if_pos hv]
        rw [ih hm, heq, List.idxOf_append_of_mem hv]
      · obtain ⟨new, heq⟩ := exists_idsFrom (ids ++ [v.id]) events
        have hm' : ∀ k, Function.update m v.id (some (ids.length : Int)) k =
            if k ∈ ids ++ [v.id] then some ((ids ++ [v.id]).idxOf k : Int) else none := by
          intro k
          by_cases hk : k = v.id
          · subst hk
            simp [List.idxOf_append_of_notMem hv]
          · rw [Function.update_of_ne hk, hm]
            by_cases hmem : k ∈ ids
            · simp [hmem, List.idxOf_append_of_mem]
            · simp [hmem, hk]
        have hlen : (ids.length : Int) + 1 = ((ids ++ [v.id]).length : Nat) := by simp
        simp only [if_neg hv]
        rw [hlen, ih hm', heq, List.idxOf_append_of_mem (by simp),
          List.idxOf_append_of_notMem hv]
        simp

theorem convertFrom_map (i : Int) (g : Int → Int) (events : List (Event I O)) :
    convertFrom i (events.map fun v => { v with id := g v.id }) =
      (convertFrom i events).map fun e => { e with id := g e.id } := by
  induction events generalizing i with
  | nil => rfl
  | cons v events ih => rw [List.map_cons, convertFrom, convertFrom, ih, List.map_cons]

theorem map_id_convertFrom (i : Int) (events : List (Event I O)) :
    (convertFrom i events).map Entry.id = events.map Event.id := by
  induction events generalizing i with
  | nil => rfl
  | cons v events ih => rw [convertFrom, List.map_cons, List.map_cons, ih]

theorem pairwise_convertFrom (i : Int) (events : List (Event I O)) :
    (convertFrom i events).Pairwise (fun a b => a.time < b.time) ∧
      ∀ e ∈ convertFrom i events, i ≤ e.time := by
  induction events generalizing i with
  | nil => exact ⟨.nil, by simp [convertFrom]⟩
  | cons v events ih =>
      obtain ⟨hpair, hle⟩ := ih (i + 1)
      rw [convertFrom]
      refine ⟨List.pairwise_cons.mpr ⟨fun e he => ?_, hpair⟩, fun e he => ?_⟩
      · have hi := hle e he
        show i < e.time
        omega
      · rcases List.mem_cons.mp he with rfl | he
        · exact Int.le_refl _
        · have hi := hle e he
          omega

theorem convertEntries_renumber (events : List (Event I O)) :
    convertEntries (renumber events) = (convertEntries events).map fun e =>
      { e with id := ((idsFrom [] events).idxOf e.id : Int) } := by
  have hm : ∀ k : Int, (none : Option Int) =
      if k ∈ ([] : List Int) then some (([] : List Int).idxOf k : Int) else none := by
    simp
  have hren : renumber events = events.map fun v =>
      { v with id := ((idsFrom [] events).idxOf v.id : Int) } := renumberFrom_eq hm
  exact (congrArg (convertFrom 0) hren).trans
    (convertFrom_map 0 (fun id => ((idsFrom [] events).idxOf id : Int)) events)

theorem getElem?_filterMap_of_isSome {α β : Type} {f : α → Option β} {l : List α}
    (h : ∀ a ∈ l, (f a).isSome = true) (i : Nat) : (l.filterMap f)[i]? = l[i]?.bind f := by
  induction l generalizing i with
  | nil => rfl
  | cons a l ih =>
      obtain ⟨b, hb⟩ := Option.isSome_iff_exists.mp (h a List.mem_cons_self)
      rw [List.filterMap_cons_some hb]
      cases i with
      | zero => simp [hb]
      | succ i => simpa using ih (fun a ha => h a (List.mem_cons_of_mem _ ha)) i

theorem opOf_operationsOf (hc : Complete events) (k : Int) : opOf (operationsOf events) k =
    (opOf (idsFrom [] events) k).bind (operationOf (convertEntries events)) := by
  have hsome : ∀ id ∈ idsFrom [] events,
      (operationOf (convertEntries events) id).isSome = true := by
    intro id hid
    rcases mem_idsFrom.mp hid with hid | ⟨v, hv, rfl⟩
    · cases hid
    · exact hc v hv
  unfold opOf
  rw [Option.bind_assoc]
  congr 1
  funext i
  exact getElem?_filterMap_of_isSome hsome i

theorem entriesOf_renumber (hc : Complete events) :
    EntriesOf (operationsOf events) (convertEntries (renumber events)) := by
  have hnd : (idsFrom [] events).Nodup := nodup_idsFrom .nil events
  have hid : ∀ e ∈ convertEntries events, e.id ∈ idsFrom [] events := by
    intro e he
    have hmem : e.id ∈ events.map Event.id := by
      rw [← map_id_convertFrom 0]
      exact List.mem_map_of_mem he
    obtain ⟨v, hv, hve⟩ := List.mem_map.mp hmem
    exact mem_idsFrom.mpr (.inr ⟨v, hv, hve⟩)
  rw [convertEntries_renumber]
  refine ⟨fun e he => ?_, fun k a ha => ?_, ?_⟩
  · obtain ⟨e, hmem, rfl⟩ := List.mem_map.mp he
    obtain ⟨v, hv, hve⟩ := (mem_idsFrom.mp (hid e hmem)).resolve_left (by simp)
    obtain ⟨a, ha⟩ := Option.isSome_iff_exists.mp (hc v hv)
    refine ⟨a, ?_⟩
    have hget : opOf (idsFrom [] events) ((idsFrom [] events).idxOf e.id : Int) = some e.id :=
      opOf_eq_some.mpr ⟨Int.natCast_nonneg _, by
        rw [Int.toNat_natCast]
        exact List.getElem?_idxOf (hid e hmem)⟩
    rw [opOf_operationsOf hc, hget, Option.bind_some, ← hve]
    exact ha
  · rw [opOf_operationsOf hc, Option.bind_eq_some_iff] at ha
    obtain ⟨id, hk, ha⟩ := ha
    obtain ⟨c, r, hfilter, hcall, hret⟩ := operationOf_eq_some ha
    obtain ⟨h₀, hget⟩ := opOf_eq_some.mp hk
    refine ⟨{ c with id := ((idsFrom [] events).idxOf c.id : Int) },
      { r with id := ((idsFrom [] events).idxOf r.id : Int) }, ?_, hcall, hret⟩
    rw [List.filter_map]
    -- the ids that get number `k`
    have hsame : (convertEntries events).filter ((fun e => decide (e.id = k)) ∘ fun e =>
        { e with id := ((idsFrom [] events).idxOf e.id : Int) }) =
        (convertEntries events).filter fun e => e.id = id := by
      refine List.filter_congr fun e he => ?_
      obtain ⟨hlt, hid'⟩ := List.getElem?_eq_some_iff.mp hget
      have hiff : ((idsFrom [] events).idxOf e.id : Int) = k ↔ e.id = id := by
        constructor
        · intro heq
          have hi : (idsFrom [] events).idxOf e.id = k.toNat := by omega
          have hge := List.getElem?_idxOf (hid e he)
          rw [hi, hget] at hge
          exact (Option.some.inj hge).symm
        · rintro rfl
          have hi : (idsFrom [] events).idxOf e.id = k.toNat := by
            rw [← hid']
            exact hnd.idxOf_getElem _ hlt
          omega
      simp [hiff]
    rw [hsame, hfilter]
    rfl
  · refine List.pairwise_map.mpr ((pairwise_convertFrom 0 events).1.imp fun {a b} hlt => ?_)
    simp only [Entry.less]
    rw [if_pos (by omega)]
    simpa using Int.le_of_lt hlt

theorem times_operationsOf (events : List (Event I O)) :
    ∀ a ∈ operationsOf events, a.call ≤ a.ret := by
  intro a ha
  obtain ⟨id, -, hop⟩ := List.mem_filterMap.mp ha
  obtain ⟨c, r, hfilter, hc, hr⟩ := operationOf_eq_some hop
  have hsub : [c, r].Sublist (convertEntries events) := by
    rw [← hfilter]
    exact List.filter_sublist
  have hlt := List.pairwise_iff_forall_sublist.mp (pairwise_convertFrom 0 events).1 hsub
  rw [← hc.2, ← hr.2]
  exact Int.le_of_lt hlt

end Events
end Porcupine
end Labs
