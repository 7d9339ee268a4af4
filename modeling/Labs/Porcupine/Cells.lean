import Labs.Porcupine.Checker

/-!
# The entries in the heap

`makeLinkedEntries` allocates a node for each entry, from the last to the first, and links
them in the order of the entries.  A cell is an entry with its node.  The cells of the
operations that are not yet linearized are the list that the head of the search begins, and
linearizing an operation takes out its two cells.
-/

namespace Labs
namespace Porcupine

variable {I O S : Type}

abbrev Cell (I O : Type) := Nat × Entry I O

/-- The entries with their nodes; the last entry has node 0. -/
def cells : List (Entry I O) → List (Cell I O)
  | [] => []
  | e :: es => (es.length, e) :: cells es

def isReturnOf (id : Int) (c : Cell I O) : Bool := !c.2.value.isCall && c.2.id = id

theorem map_snd_cells (es : List (Entry I O)) : (cells es).map Prod.snd = es := by
  induction es with
  | nil => rfl
  | cons e es ih => rw [cells, List.map_cons, ih]

theorem fst_lt_of_mem_cells {es : List (Entry I O)} {c : Cell I O} (h : c ∈ cells es) :
    c.1 < es.length := by
  induction es with
  | nil => cases h
  | cons e es ih =>
      rw [List.length_cons]
      rcases List.mem_cons.mp h with rfl | h
      · exact Nat.lt_succ_self _
      · exact Nat.lt_succ_of_lt (ih h)

theorem nodup_fst_cells (es : List (Entry I O)) : ((cells es).map Prod.fst).Nodup := by
  induction es with
  | nil => exact .nil
  | cons e es ih =>
      rw [cells, List.map_cons, List.nodup_cons]
      refine ⟨fun hmem => ?_, ih⟩
      obtain ⟨c, hc, heq⟩ := List.mem_map.mp hmem
      have hlt := fst_lt_of_mem_cells hc
      omega

theorem length_cells (es : List (Entry I O)) : (cells es).length = es.length := by
  rw [← List.length_map Prod.snd, map_snd_cells]

/-! ## Linking -/

/-- The nodes hold the entries, and a call points to the next return with its id. -/
structure Laid (h : Heap I O) (es : List (Entry I O)) : Prop where
  value : ∀ c ∈ cells es, h.value c.1 = some c.2.value
  id : ∀ c ∈ cells es, h.id c.1 = some c.2.id
  matching : ∀ A c B, cells es = A ++ c :: B → h.matching c.1 =
    if c.2.value.isCall then (B.find? (isReturnOf c.2.id)).map Prod.fst else none

structure Links (l : Linking I O) (es : List (Entry I O)) : Prop where
  length : List.length l.heap = es.length
  root : l.root = ((cells es).map Prod.fst).head?
  linked : l.heap.Linked none ((cells es).map Prod.fst)
  laid : Laid l.heap es
  returns : ∀ id, l.returns id = ((cells es).find? (isReturnOf id)).map Prod.fst

theorem Laid.same {h h' : Heap I O} {es : List (Entry I O)} (hl : Laid h es)
    (hsame : Heap.SameNodes h h') : Laid h' es where
  value := fun c hc => (hsame.value c.1).trans (hl.value c hc)
  id := fun c hc => (hsame.id c.1).trans (hl.id c hc)
  matching := fun A c B heq => (hsame.matching c.1).trans (hl.matching A c B heq)

/-- A new node does not touch the others. -/
theorem Laid.append {h : Heap I O} {es : List (Entry I O)} (hl : Laid h es)
    (hlen : List.length h = es.length) (nd : Node I O) : Laid (h ++ [nd]) es := by
  have hold : ∀ c ∈ cells es, (h ++ [nd])[c.1]? = h[c.1]? := fun c hc =>
    List.getElem?_append_left (by rw [hlen]; exact fst_lt_of_mem_cells hc)
  refine ⟨fun c hc => ?_, fun c hc => ?_, fun A c B heq => ?_⟩
  · rw [Heap.value, hold c hc]
    exact hl.value c hc
  · rw [Heap.id, hold c hc]
    exact hl.id c hc
  · rw [Heap.matching, hold c (by rw [heq]; simp)]
    exact hl.matching A c B heq

theorem Laid.cons {h : Heap I O} {e : Entry I O} {es : List (Entry I O)} {nd : Node I O}
    (hl : Laid h es) (hnd : h[es.length]? = some nd) (hvalue : nd.value = some e.value)
    (hid : nd.id = e.id) (hmatch : nd.matching =
      if e.value.isCall then ((cells es).find? (isReturnOf e.id)).map Prod.fst else none) :
    Laid h (e :: es) := by
  refine ⟨fun c hc => ?_, fun c hc => ?_, fun A c B heq => ?_⟩
  · rcases List.mem_cons.mp hc with rfl | hc
    · simp [Heap.value, hnd, hvalue]
    · exact hl.value c hc
  · rcases List.mem_cons.mp hc with rfl | hc
    · simp [Heap.id, hnd, hid]
    · exact hl.id c hc
  · cases A with
    | nil =>
        rw [List.nil_append, cells, List.cons.injEq] at heq
        obtain ⟨rfl, rfl⟩ := heq
        rw [Heap.matching, hnd]
        exact hmatch
    | cons c' A =>
        rw [List.cons_append, cells, List.cons.injEq] at heq
        exact hl.matching A c B heq.2

theorem Links.link {l : Linking I O} {es : List (Entry I O)} (h : Links l es) (e : Entry I O) :
    Links (l.link e) (e :: es) := by
  -- the node that is allocated, for a call or a return
  have hheap : ∀ nd : Node I O, nd.prev = none → nd.next = none → nd.value = some e.value →
      nd.id = e.id → (nd.matching =
        if e.value.isCall then ((cells es).find? (isReturnOf e.id)).map Prod.fst else none) →
      let heap := Heap.insertBefore (l.heap ++ [nd]) (List.length l.heap) l.root
      List.length heap = (e :: es).length ∧
        heap.Linked none ((cells (e :: es)).map Prod.fst) ∧ Laid heap (e :: es) := by
    intro nd hprev hnext hvalue hid hmatch heap
    have hsame := Heap.sameNodes_insertBefore (l.heap ++ [nd]) (List.length l.heap) l.root
    refine ⟨by rw [hsame.length]; simp [h.length], ?_, ?_⟩
    · have hlinked := Heap.linked_insertBefore h.linked (nodup_fst_cells es) nd hprev hnext
      rw [← h.root] at hlinked
      rw [cells, List.map_cons, ← h.length]
      exact hlinked
    · refine ((h.laid.append h.length nd).cons ?_ hvalue hid hmatch).same hsame
      rw [← h.length]
      simp
  unfold Linking.link
  cases hv : e.value with
  | ret output =>
      rw [hv] at hheap
      obtain ⟨hlen, hlinked, hlaid⟩ :=
        hheap { value := some (.ret output), matching := none, id := e.id } rfl rfl rfl rfl rfl
      refine ⟨hlen, by rw [cells]; simp [h.length], hlinked, hlaid, fun id => ?_⟩
      rw [cells, List.find?_cons]
      by_cases hid : id = e.id
      · simp [isReturnOf, hv, hid, Payload.isCall, h.length]
      · simp [isReturnOf, hv, hid, Ne.symm hid, Payload.isCall, h.returns]
  | call input =>
      rw [hv] at hheap
      obtain ⟨hlen, hlinked, hlaid⟩ :=
        hheap { value := some (.call input), matching := l.returns e.id, id := e.id } rfl rfl rfl
          rfl (by rw [h.returns]; rfl)
      refine ⟨hlen, by rw [cells]; simp [h.length], hlinked, hlaid, fun id => ?_⟩
      rw [cells, List.find?_cons]
      simp [isReturnOf, hv, Payload.isCall, h.returns]

theorem links_linkAll (es : List (Entry I O)) : Links (linkAll es) es := by
  induction es with
  | nil =>
      have hlaid : Laid ([] : Heap I O) [] := by
        refine ⟨by simp [cells], by simp [cells], fun A c B heq => ?_⟩
        cases A <;> cases heq
      exact ⟨rfl, rfl, trivial, hlaid, fun id => rfl⟩
  | cons e es ih => exact ih.link e

/-- The list of the search at its start. -/
theorem start_heap (model : Model I O S) (es : List (Entry I O)) :
    (Search.start model es).headEntry = es.length ∧
    (Search.start model es).entry = ((cells es).map Prod.fst).head? ∧
    (Search.start model es).longest = List.replicate (es.length / 2) none ∧
    (Search.start model es).linearized = .newBitset (es.length / 2) ∧
    (Search.start model es).heap.Linked none (es.length :: (cells es).map Prod.fst) ∧
    Laid (Search.start model es).heap es := by
  have h := links_linkAll es
  have hlen : (linkAll es).heap.length (linkAll es).root = es.length := by
    rw [h.root, Heap.length_eq h.linked (nodup_fst_cells es), List.length_map, length_cells]
  simp only [Search.start, makeLinkedEntries, hlen, h.length, true_and]
  refine ⟨h.root, ?_, ?_⟩
  · have hlinked := Heap.linked_insertBefore h.linked (nodup_fst_cells es)
      { value := none, matching := none, id := -1 } rfl rfl
    rw [← h.root, h.length] at hlinked
    exact hlinked
  · exact (h.laid.append h.length _).same (Heap.sameNodes_insertBefore _ _ _)

/-! ## What is left of a history -/

/-- Every operation has one call, and one return after it. -/
structure WellFormed (n : Nat) (es : List (Entry I O)) : Prop where
  length : es.length = 2 * n
  id : ∀ e ∈ es, 0 ≤ e.id ∧ e.id < n
  pair : ∀ k : Int, 0 ≤ k → k < n → ∃ pre c mid r post, es = pre ++ c :: (mid ++ r :: post) ∧
    c.id = k ∧ r.id = k ∧ c.value.isCall = true ∧ r.value.isCall = false ∧
    ∀ e ∈ pre ++ mid ++ post, e.id ≠ k

/-- The cells of the operations that are not done. -/
def rest (es : List (Entry I O)) (done : List Int) : List (Cell I O) :=
  (cells es).filter fun c => c.2.id ∉ done

theorem rest_nil (es : List (Entry I O)) : rest es [] = cells es := by
  simp [rest]

theorem rest_concat (es : List (Entry I O)) (done : List Int) (k : Int) :
    rest es (done ++ [k]) = (rest es done).filter fun c => c.2.id ≠ k := by
  rw [rest, rest, List.filter_filter]
  refine List.filter_congr fun c _ => ?_
  simp [and_comm]

theorem mem_rest {es : List (Entry I O)} {done : List Int} {c : Cell I O} :
    c ∈ rest es done ↔ c ∈ cells es ∧ c.2.id ∉ done := by
  simp [rest]

section WellFormed

variable {n : Nat} {es : List (Entry I O)} {done : List Int} {h : Heap I O}

/-- The pair of an operation, in the cells. -/
theorem WellFormed.cells_eq (hwf : WellFormed n es) {k : Int} (h₀ : 0 ≤ k) (hn : k < n) :
    ∃ A c B r D, cells es = A ++ c :: (B ++ r :: D) ∧ c.2.id = k ∧ r.2.id = k ∧
      c.2.value.isCall = true ∧ r.2.value.isCall = false ∧ ∀ x ∈ A ++ B ++ D, x.2.id ≠ k := by
  obtain ⟨pre, c, mid, r, post, heq, hc, hr, hcall, hret, hother⟩ := hwf.pair k h₀ hn
  have hsnd := map_snd_cells es
  rw [heq] at hsnd
  obtain ⟨A, l₁, hes, hA, h₁⟩ := List.map_eq_append_iff.mp hsnd
  obtain ⟨c', l₂, rfl, rfl, h₂⟩ := List.map_eq_cons_iff.mp h₁
  obtain ⟨B, l₃, rfl, hB, h₃⟩ := List.map_eq_append_iff.mp h₂
  obtain ⟨r', D, rfl, rfl, hD⟩ := List.map_eq_cons_iff.mp h₃
  refine ⟨A, c', B, r', D, by rw [← heq] at hes; exact hes, hc, hr, hcall, hret, fun x hx => ?_⟩
  refine hother x.2 ?_
  rw [← hA, ← hB, ← hD, ← List.map_append, ← List.map_append]
  exact List.mem_map_of_mem hx

/-- The return of a call that is left comes later and is left too, and it is the node that
the call points to.  Without the two the other operations are left. -/
theorem WellFormed.call_split (hwf : WellFormed n es) (hlaid : Laid h es) {P Q : List (Cell I O)}
    {c : Cell I O} (hrest : rest es done = P ++ c :: Q) (hcall : c.2.value.isCall = true) :
    ∃ B r D, Q = B ++ r :: D ∧ r.2.id = c.2.id ∧ r.2.value.isCall = false ∧
      h.matching c.1 = some r.1 ∧ rest es (done ++ [c.2.id]) = P ++ (B ++ D) := by
  have hmem : c ∈ rest es done := by
    rw [hrest]
    simp
  obtain ⟨hcells, hdone⟩ := mem_rest.mp hmem
  obtain ⟨h₀, hn⟩ := hwf.id c.2 (by rw [← map_snd_cells es]; exact List.mem_map_of_mem hcells)
  obtain ⟨A, c', B, r, D, heq, hc, hr, hcall', hret, hother⟩ := hwf.cells_eq h₀ hn
  have hne : ∀ x ∈ A ++ B ++ D, x ≠ c := fun x hx hxc => hother x hx (by rw [hxc])
  have hcc : c' = c := by
    rw [heq] at hcells
    rcases List.mem_append.mp hcells with hA | hrest'
    · exact absurd rfl (hne c (by simp [hA]))
    · rcases List.mem_cons.mp hrest' with rfl | hrest'
      · rfl
      · rcases List.mem_append.mp hrest' with hB | hrest'
        · exact absurd rfl (hne c (by simp [hB]))
        · rcases List.mem_cons.mp hrest' with rfl | hD
          · rw [hret] at hcall
            cases hcall
          · exact absurd rfl (hne c (by simp [hD]))
  subst hcc
  let left : List (Cell I O) → List (Cell I O) := fun l => l.filter fun x => x.2.id ∉ done
  have hfilter : rest es done = left A ++ c' :: (left B ++ r :: left D) := by
    rw [rest, heq, List.filter_append, List.filter_cons_of_pos (by simpa using hdone),
      List.filter_append, List.filter_cons_of_pos (by simpa [hr] using hdone)]
  have hmem_left : ∀ {l : List (Cell I O)}, l ⊆ A ++ B ++ D → c' ∉ left l := fun hsub hx =>
    hne c' (hsub (List.mem_filter.mp hx).1) rfl
  have hcr : c' ≠ r := by
    rintro rfl
    rw [hret] at hcall
    cases hcall
  rw [hrest] at hfilter
  obtain ⟨rfl, -, rfl⟩ := (List.append_cons_inj_of_notMem (hmem_left (by simp))
    (by simp [hcr, hmem_left (l := B) (by simp), hmem_left (l := D) (by simp)])).mp hfilter.symm
  refine ⟨left B, r, left D, rfl, hr, hret, ?_, ?_⟩
  · have hB : B.find? (isReturnOf c'.2.id) = none := by
      rw [List.find?_eq_none]
      intro x hx
      simp [isReturnOf, hother x (by simp [hx])]
    rw [hlaid.matching A c' _ heq, if_pos hcall, List.find?_append, hB, Option.none_or,
      List.find?_cons_of_pos (by simp [isReturnOf, hret, hr])]
    rfl
  · have hkeep : ∀ {l : List (Cell I O)}, l ⊆ A ++ B ++ D →
        (left l).filter (fun x => x.2.id ≠ c'.2.id) = left l := fun hsub =>
      List.filter_eq_self.mpr fun x hx => by
        simp [hother x (hsub (List.mem_filter.mp hx).1)]
    rw [rest_concat, hrest, List.filter_append, List.filter_cons_of_neg (by simp),
      List.filter_append, List.filter_cons_of_neg (by simp [hr]), hkeep (by simp), hkeep (by simp),
      hkeep (by simp)]

/-- A return is left behind the calls, unless nothing is left. -/
theorem WellFormed.ne_nil_of_calls (hwf : WellFormed n es) (hlaid : Laid h es)
    {P Q : List (Cell I O)} (hrest : rest es done = P ++ Q)
    (hP : ∀ x ∈ P, x.2.value.isCall = true) (hne : rest es done ≠ []) : Q ≠ [] := by
  rintro rfl
  rw [List.append_nil] at hrest
  cases P with
  | nil => exact hne hrest
  | cons c P =>
      obtain ⟨B, r, D, rfl, -, hret, -⟩ :=
        hwf.call_split hlaid (P := []) hrest (hP c List.mem_cons_self)
      rw [hP r (by simp)] at hret
      cases hret

/-- The list that the search's head begins. -/
structure InHeap (h : Heap I O) (es : List (Entry I O)) (done : List Int) : Prop where
  linked : h.Linked none (es.length :: (rest es done).map Prod.fst)
  laid : Laid h es

theorem nodup_rest (es : List (Entry I O)) (done : List Int) :
    (es.length :: (rest es done).map Prod.fst).Nodup := by
  refine List.nodup_cons.mpr ⟨fun hmem => ?_, ?_⟩
  · obtain ⟨c, hc, heq⟩ := List.mem_map.mp hmem
    have hlt := fst_lt_of_mem_cells (mem_rest.mp hc).1
    omega
  · exact (nodup_fst_cells es).sublist (List.filter_sublist.map Prod.fst)

namespace InHeap

theorem next_head (hin : InHeap h es done) :
    h.next es.length = ((rest es done).map Prod.fst).head? :=
  hin.linked.2.2.1

theorem next_cell (hin : InHeap h es done) {P Q : List (Cell I O)} {c : Cell I O}
    (hrest : rest es done = P ++ c :: Q) : h.next c.1 = (Q.map Prod.fst).head? := by
  have hl := hin.linked
  rw [hrest, List.map_append, List.map_cons] at hl
  rcases List.eq_nil_or_concat (es.length :: P.map Prod.fst) with hnil | ⟨A, a, heq⟩
  · cases hnil
  · rw [← List.cons_append, heq, List.concat_eq_append, List.append_assoc] at hl
    exact hl.around.2.2.1

/-- Taking out an operation leaves the list of the others, and can be undone. -/
theorem lift (hin : InHeap h es done) (hwf : WellFormed n es) {P Q : List (Cell I O)}
    {c : Cell I O} (hrest : rest es done = P ++ c :: Q) (hcall : c.2.value.isCall = true) :
    ∃ h', h.lift c.1 = some h' ∧ h'.unlift c.1 = some h ∧ InHeap h' es (done ++ [c.2.id]) := by
  obtain ⟨B, r, D, rfl, -, -, hm, hrest'⟩ := hwf.call_split hin.laid hrest hcall
  have hl := hin.linked
  have hnd := nodup_rest es done
  simp only [hrest, List.map_append, List.map_cons] at hl hnd
  rcases List.eq_nil_or_concat (es.length :: P.map Prod.fst) with hnil | ⟨A, a, heq⟩
  · cases hnil
  · rw [← List.cons_append, heq, List.concat_eq_append, List.append_assoc] at hl hnd
    have hr : Heap.Around h none a c.1 r.1 A (B.map Prod.fst) (D.map Prod.fst) := ⟨hl, hnd, hm⟩
    refine ⟨_, hr.lift, hr.unlift, ?_, ?_⟩
    · rw [hrest', List.map_append, List.map_append, ← List.cons_append, heq,
        List.concat_eq_append, List.append_assoc]
      exact hr.linked_lift
    · exact (hin.laid.same (Heap.sameNodes_unlink h c.1)).same (Heap.sameNodes_unlink _ r.1)

end InHeap
end WellFormed
end Porcupine
end Labs
