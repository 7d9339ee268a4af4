import Labs.Porcupine.Single

/-!
# Orders of the operations

What the checker finds, in terms of the operations.  The calls before the first return
among the entries that are left are those of the operations that may come next: none that is
left had returned when they were called.  So the configurations that the search can reach
are the beginnings of linearizations.

The entries of a history of operations are sorted by time, calls before returns, and those
of a history of events are in the order of the events.  Both have one call and one return
for each operation, which is all that the search needs.
-/

namespace Labs
namespace Porcupine

open Backtrack

variable {α I O S : Type}

/-- The operation with id `k`. -/
def opOf (ops : List α) (k : Int) : Option α := (index k).bind fun i => ops[i]?

/-- Some operations in an order in which every step is legal, each after all that come before
it: the beginning of a linearization. -/
structure PartialLinearization (init : S) (step : S → I → O → Bool × S) (ops : List (I × O))
    (before : Int → Int → Prop) (ks : List Int) : Prop where
  nodup : ks.Nodup
  range : ∀ k ∈ ks, 0 ≤ k ∧ k < ops.length
  order : ∀ pre k post, ks = pre ++ k :: post → ∀ j, before j k → j ∈ pre
  legal : Locality.Legal (fun s io => step s io.1 io.2) init (ks.filterMap (opOf ops))

/-- The return of `j` stands before the call of `k`. -/
def Precedes (es : List (Entry I O)) (j k : Int) : Prop :=
  ∃ r c, [r, c].Sublist es ∧ r.id = j ∧ c.id = k ∧ r.value.isCall = false ∧
    c.value.isCall = true

/-- What an answer of the checker means, and what the sequences that it has noted are. -/
structure Answer (init : S) (step : S → I → O → Bool × S) (ops : List (I × O))
    (before : Int → Int → Prop) (computePartial ok : Bool) (seqs : List (List Int))
    (longest : List (Option Nat)) : Prop where
  found : ok = true ↔
    ∃ ks, PartialLinearization init step ops before ks ∧ ks.length = ops.length
  length : longest.length = ops.length
  sound : ∀ (i p : Nat), longest[i]? = some (some p) → ∃ ks,
    seqs[p]? = some ks ∧ PartialLinearization init step ops before ks ∧ (i : Int) ∈ ks
  noted : computePartial = true → ∀ ks, PartialLinearization init step ops before ks →
    ∀ k ∈ ks, Noted seqs longest k.toNat ks.length

/-! ## What may come next -/

section Reaches

variable {es : List (Entry I O)} {n : Nat} {done : List Int} {k : Int}

theorem opOf_eq_some {ops : List α} {a : α} :
    opOf ops k = some a ↔ 0 ≤ k ∧ ops[k.toNat]? = some a := by
  unfold opOf index
  by_cases hk : k < 0
  · simp [hk]
  · simp [hk, Int.not_lt.mp hk]

theorem exists_opOf {ops : List α} : (∃ a, opOf ops k = some a) ↔ 0 ≤ k ∧ k < ops.length := by
  simp only [opOf_eq_some, exists_and_left, List.getElem?_eq_some_iff]
  constructor
  · rintro ⟨h₀, a, hlt, -⟩
    exact ⟨h₀, by omega⟩
  · rintro ⟨h₀, hlt⟩
    exact ⟨h₀, _, by omega, rfl⟩

theorem mem_takeWhile_of_nodup {l : List α} {p : α → Bool} (hnd : l.Nodup) {x : α} :
    x ∈ l.takeWhile p ↔ x ∈ l ∧ p x = true ∧ ∀ y, [y, x].Sublist l → p y = true := by
  induction l with
  | nil => simp
  | cons a l ih =>
      obtain ⟨ha, hnd⟩ := List.nodup_cons.mp hnd
      by_cases hp : p a = true
      · rw [List.takeWhile_cons_of_pos hp, List.mem_cons, ih hnd]
        constructor
        · rintro (rfl | ⟨hx, hpx, hall⟩)
          · refine ⟨List.mem_cons_self, hp, fun y hy => ?_⟩
            cases hy with
            | cons _ hy => exact absurd (hy.mem (by simp)) ha
            | cons_cons _ hy => exact hp
          · refine ⟨List.mem_cons_of_mem a hx, hpx, fun y hy => ?_⟩
            cases hy with
            | cons _ hy => exact hall y hy
            | cons_cons _ hy => exact hp
        · rintro ⟨hx, hpx, hall⟩
          rcases List.mem_cons.mp hx with rfl | hx
          · exact .inl rfl
          · exact .inr ⟨hx, hpx, fun y hy => hall y (hy.cons a)⟩
      · rw [List.takeWhile_cons_of_neg hp]
        refine ⟨fun h => (by cases h), ?_⟩
        rintro ⟨hx, hpx, hall⟩
        rcases List.mem_cons.mp hx with rfl | hx
        · exact absurd hpx hp
        · exact absurd (hall a ((List.singleton_sublist.mpr hx).cons_cons a)) hp

theorem nodup_cells (es : List (Entry I O)) : (cells es).Nodup :=
  List.Nodup.of_map Prod.fst (nodup_fst_cells es)

/-- An operation has one call. -/
theorem WellFormed.call_unique (hwf : WellFormed n es) {x y : Cell I O} (hx : x ∈ cells es)
    (hy : y ∈ cells es) (hid : x.2.id = y.2.id) (hcx : x.2.value.isCall = true)
    (hcy : y.2.value.isCall = true) : x = y := by
  obtain ⟨h₀, hn⟩ := hwf.id x.2 (by rw [← map_snd_cells es]; exact List.mem_map_of_mem hx)
  obtain ⟨A, c, B, r, D, heq, hc, hr, -, hret, hother⟩ := hwf.cells_eq h₀ hn
  have huniq : ∀ z ∈ cells es, z.2.id = x.2.id → z.2.value.isCall = true → z = c := by
    intro z hz hzid hzc
    rw [heq] at hz
    simp only [List.mem_append, List.mem_cons] at hz
    rcases hz with hz | rfl | hz | rfl | hz
    · exact absurd hzid (hother z (by simp [hz]))
    · rfl
    · exact absurd hzid (hother z (by simp [hz]))
    · rw [hret] at hzc
      cases hzc
    · exact absurd hzid (hother z (by simp [hz]))
  rw [huniq x hx rfl hcx, huniq y hy hid.symm hcy]

/-- The calls before the first return. -/
theorem WellFormed.mem_next_iff (hwf : WellFormed n es) :
    (∃ x ∈ (rest es done).takeWhile (fun x => x.2.value.isCall), x.2.id = k) ↔
      (0 ≤ k ∧ k < n) ∧ k ∉ done ∧ ∀ j, Precedes es j k → j ∈ done := by
  have hnd : (rest es done).Nodup := (nodup_cells es).filter _
  simp only [mem_takeWhile_of_nodup hnd]
  constructor
  · rintro ⟨x, ⟨hx, hcall, hall⟩, rfl⟩
    obtain ⟨hcells, hdone⟩ := mem_rest.mp hx
    refine ⟨hwf.id x.2 ?_, hdone, ?_⟩
    · rw [← map_snd_cells es]
      exact List.mem_map_of_mem hcells
    · rintro j ⟨r, c, hsub, rfl, hc, hret, hccall⟩
      by_contra hj
      rw [← map_snd_cells es] at hsub
      obtain ⟨l, hl, heq⟩ := List.sublist_map_iff.mp hsub
      obtain ⟨r', l', rfl, rfl, hl'⟩ := List.map_eq_cons_iff.mp heq.symm
      obtain ⟨c', l'', rfl, rfl, hl''⟩ := List.map_eq_cons_iff.mp hl'
      rw [List.map_eq_nil_iff] at hl''
      subst hl''
      -- the call is the one that was found, so the return is left before it
      obtain rfl := hwf.call_unique (hl.mem (by simp)) hcells hc hccall hcall
      have hleft : [r', c'].Sublist (rest es done) := by
        have hf := hl.filter fun x => x.2.id ∉ done
        rwa [List.filter_cons_of_pos (by simpa using hj),
          List.filter_cons_of_pos (by simpa using hdone)] at hf
      have hr := hall r' hleft
      rw [hret] at hr
      cases hr
  · rintro ⟨⟨h₀, hn⟩, hdone, hbefore⟩
    obtain ⟨A, x, B, r, D, heq, hid, -, hcall, -, -⟩ := hwf.cells_eq h₀ hn
    have hcells : x ∈ cells es := by
      rw [heq]
      simp
    refine ⟨x, ⟨mem_rest.mpr ⟨hcells, by rw [hid]; exact hdone⟩, hcall, fun y hy => ?_⟩, hid⟩
    by_contra hret
    have hmem : y ∈ rest es done := hy.mem (by simp)
    refine (mem_rest.mp hmem).2 (hbefore _ ⟨y.2, x.2, ?_, rfl, hid, by simpa using hret, hcall⟩)
    have hsub := (hy.trans List.filter_sublist).map Prod.snd
    rw [map_snd_cells] at hsub
    exact hsub

variable {model : Model I O S} {ops : List (I × O)} {before : Int → Int → Prop} {ks : List Int}
  {init : S} {step : S → I → O → Bool × S}

theorem partialLinearization_nil : PartialLinearization init step ops before [] :=
  ⟨.nil, by simp, by simp, trivial⟩

/-- One more operation. -/
theorem partialLinearization_concat {io : I × O} (hio : opOf ops k = some io) :
    PartialLinearization init step ops before (ks ++ [k]) ↔
      PartialLinearization init step ops before ks ∧ k ∉ ks ∧ (∀ j, before j k → j ∈ ks) ∧
      (step (Locality.final (fun s io => step s io.1 io.2) init (ks.filterMap (opOf ops)))
        io.1 io.2).1 = true := by
  have hrange := exists_opOf.mp ⟨io, hio⟩
  have hlegal : Locality.Legal (fun s io => step s io.1 io.2) init
      ((ks ++ [k]).filterMap (opOf ops)) ↔
      Locality.Legal (fun s io => step s io.1 io.2) init (ks.filterMap (opOf ops)) ∧
      (step (Locality.final (fun s io => step s io.1 io.2) init (ks.filterMap (opOf ops)))
        io.1 io.2).1 = true := by
    rw [List.filterMap_append, Locality.legal_append]
    simp [hio, Locality.Legal]
  constructor
  · intro h
    have hnd := List.nodup_append.mp h.nodup
    refine ⟨⟨hnd.1, fun j hj => h.range j (by simp [hj]), fun pre j post heq => ?_,
      (hlegal.mp h.legal).1⟩, fun hk => hnd.2.2 k hk k (by simp) rfl,
      h.order ks k [] rfl, (hlegal.mp h.legal).2⟩
    exact h.order pre j (post ++ [k]) (by rw [heq]; simp)
  · rintro ⟨h, hk, hbefore, hok⟩
    refine ⟨?_, fun j hj => ?_, fun pre j post heq => ?_, hlegal.mpr ⟨h.legal, hok⟩⟩
    · rw [List.nodup_append]
      exact ⟨h.nodup, by simp, fun a ha b hb hab => hk (by simp_all)⟩
    · rcases List.mem_append.mp hj with hj | hj
      · exact h.range j hj
      · rw [List.mem_singleton.mp hj]
        exact hrange
    · rcases List.eq_nil_or_concat post with rfl | ⟨post, b, rfl⟩
      · obtain ⟨rfl, hkj⟩ := List.append_inj' heq rfl
        cases hkj
        exact hbefore
      · rw [List.concat_eq_append, ← List.cons_append, ← List.append_assoc] at heq
        obtain ⟨rfl, -⟩ := List.append_inj' heq rfl
        exact h.order pre j post rfl

/-- What the search can reach. -/
theorem reaches_iff (hwf : WellFormed ops.length es) {c : Config S} :
    (space model (opOf ops) es).Reaches (.first model) c ↔
      PartialLinearization model.init model.step ops (Precedes es) c.done ∧
      c.state = Locality.final (fun s io => model.step s io.1 io.2) model.init
        (c.done.filterMap (opOf ops)) := by
  -- a move is one more operation, whichever way it is read
  have hmove : ∀ {c d : Config S}, c.state = Locality.final (fun s io => model.step s io.1 io.2)
      model.init (c.done.filterMap (opOf ops)) →
      PartialLinearization model.init model.step ops (Precedes es) c.done →
      (some d ∈ (space model (opOf ops) es).tries c ↔
        ∃ k, d.done = c.done ++ [k] ∧
        PartialLinearization model.init model.step ops (Precedes es) d.done ∧
        d.state = Locality.final (fun s io => model.step s io.1 io.2) model.init
          (d.done.filterMap (opOf ops))) := by
    intro c d hstate hpl
    have hfinal : ∀ {k : Int} {io : I × O}, opOf ops k = some io →
        Locality.final (fun s io => model.step s io.1 io.2) model.init
          ((c.done ++ [k]).filterMap (opOf ops)) = (model.step c.state io.1 io.2).2 := by
      intro k io hio
      rw [List.filterMap_append, Locality.final, List.foldl_append, hstate]
      simp [hio, Locality.final]
    rw [mem_tries]
    constructor
    · rintro ⟨x, hx, hatt⟩
      obtain ⟨io, hio, hok, rfl⟩ := attempt_eq_some.mp hatt
      obtain ⟨-, hk, hbefore⟩ := hwf.mem_next_iff.mp ⟨x, hx, rfl⟩
      refine ⟨x.2.id, rfl, (partialLinearization_concat hio).mpr ⟨hpl, hk, hbefore, ?_⟩,
        (hfinal hio).symm⟩
      rw [← hstate]
      exact hok
    · rintro ⟨k, hdone, hpl', hstate'⟩
      have hk : k ∈ d.done := by simp [hdone]
      obtain ⟨io, hio⟩ := exists_opOf.mpr (hpl'.range k hk)
      rw [hdone] at hpl' hstate'
      obtain ⟨-, hnot, hbefore, hok⟩ := (partialLinearization_concat hio).mp hpl'
      obtain ⟨x, hx, rfl⟩ := hwf.mem_next_iff.mpr ⟨exists_opOf.mp ⟨io, hio⟩, hnot, hbefore⟩
      refine ⟨x, hx, attempt_eq_some.mpr ⟨io, hio, by rw [hstate]; exact hok, ?_⟩⟩
      rw [hfinal hio] at hstate'
      rw [← hdone, ← hstate']
  constructor
  · intro h
    induction h with
    | refl => exact ⟨partialLinearization_nil, rfl⟩
    | tail _ hstep ih =>
        obtain ⟨k, -, hpl, hstate⟩ := (hmove ih.2 ih.1).mp hstep
        exact ⟨hpl, hstate⟩
  · rintro ⟨hpl, hstate⟩
    obtain ⟨done, state⟩ := c
    induction done using List.reverseRecOn generalizing state with
    | nil =>
        cases hstate
        exact .refl
    | append_singleton done k ih =>
        obtain ⟨io, hio⟩ := exists_opOf.mpr (hpl.range k (by simp))
        have hprev := ((partialLinearization_concat hio).mp hpl).1
        exact .tail (ih (Locality.final (fun s io => model.step s io.1 io.2) model.init
          (done.filterMap (opOf ops))) hprev rfl) ((hmove rfl hprev).mpr ⟨k, rfl, hpl, hstate⟩)

theorem PartialLinearization.reaches (hwf : WellFormed ops.length es)
    (hpl : PartialLinearization model.init model.step ops (Precedes es) ks) :
    ∃ c : Config S, c.done = ks ∧ (space model (opOf ops) es).Reaches (.first model) c :=
  ⟨{ done := ks, state := Locality.final _ model.init (ks.filterMap (opOf ops)) }, rfl,
    (reaches_iff hwf).mpr ⟨hpl, rfl⟩⟩

theorem rest_eq_nil_iff (hwf : WellFormed ops.length es)
    (hpl : PartialLinearization init step ops before ks) :
    rest es ks = [] ↔ ks.length = ops.length := by
  have hsub : ks.Subperm ((List.range ops.length).map Int.ofNat) :=
    hpl.nodup.subperm fun k hk => by
      obtain ⟨h₀, hlt⟩ := hpl.range k hk
      exact List.mem_map.mpr ⟨k.toNat, by simp; omega, by simp [h₀]⟩
  constructor
  · intro hnil
    have hle : ops.length ≤ ks.length := by
      have hnd : ((List.range ops.length).map Int.ofNat).Nodup :=
        List.nodup_range.map fun a b h => Int.ofNat.inj h
      have hsub' : ((List.range ops.length).map Int.ofNat).Subperm ks := hnd.subperm fun k hk => by
        obtain ⟨i, hi, rfl⟩ := List.mem_map.mp hk
        rw [List.mem_range] at hi
        exact mem_done_of_rest_nil (c := { done := ks, state := init }) hwf hnil (by simp)
          (by simpa using hi)
      simpa using hsub'.length_le
    have hge : ks.length ≤ ops.length := by simpa using hsub.length_le
    omega
  · intro hlen
    have hperm := hsub.perm_of_length_le (by simp [hlen])
    rw [rest, List.filter_eq_nil_iff]
    intro x hx
    obtain ⟨h₀, hlt⟩ := hwf.id x.2 (by rw [← map_snd_cells es]; exact List.mem_map_of_mem hx)
    have hmem : x.2.id ∈ ks := hperm.mem_iff.mpr
      (List.mem_map.mpr ⟨x.2.id.toNat, by simp; omega, by simp [h₀]⟩)
    simp [hmem]

/-- What the answer says about the operations. -/
theorem Verdict.answer (hwf : WellFormed ops.length es) {computePartial ok : Bool}
    {st : Search I O S} (hver : Verdict model (opOf ops) es ops.length computePartial ok st) :
    Answer model.init model.step ops (Precedes es) computePartial ok st.seqs st.longest := by
  refine ⟨?_, hver.length, fun i p hp => ?_, fun hcp ks hks k hk => ?_⟩
  · rw [hver.found]
    constructor
    · rintro ⟨c, hc, hnil⟩
      have hpl := ((reaches_iff hwf).mp hc).1
      exact ⟨c.done, hpl, (rest_eq_nil_iff hwf hpl).mp hnil⟩
    · rintro ⟨ks, hpl, hlen⟩
      obtain ⟨c, rfl, hc⟩ := hpl.reaches hwf
      exact ⟨c, hc, (rest_eq_nil_iff hwf hpl).mpr hlen⟩
  · obtain ⟨d, hd, hseq, hi⟩ := hver.sound i p hp
    exact ⟨d.done, hseq, ((reaches_iff hwf).mp hd).1, hi⟩
  · obtain ⟨c, rfl, hc⟩ := hks.reaches hwf
    exact hver.noted hcp c hc k hk

end Reaches
end Porcupine
end Labs
