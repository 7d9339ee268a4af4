import Mathlib.Data.List.Basic
import Mathlib.Data.List.Nodup
import Mathlib.Data.List.Perm.Subperm

/-!
# The linked list of the checker

The checker keeps the entries of a history in a doubly linked list.  When it linearizes an
operation it takes the call and its return out of the list, `lift`, and when it goes back
it puts them in again, `unlift`.  A node that is out of the list keeps its own pointers, so
putting it back needs nothing but the node; this is right as long as the nodes come back in
the opposite order, and then the heap is again what it was.

A pointer is the number of the allocation and the heap a list of nodes.  `nil` is `none`,
and so is the result of a function that dereferences it.
-/

namespace Labs
namespace Porcupine

/-- The kind of an entry, with its value: the input of a call or the output of a return. -/
inductive Payload (I O : Type) where
  | call (input : I)
  | ret (output : O)
  deriving DecidableEq, Repr

/-- `matching` is `nil` in a return and in the head of the list, which has no value. -/
structure Node (I O : Type) where
  value : Option (Payload I O)
  matching : Option Nat
  id : Int
  next : Option Nat := none
  prev : Option Nat := none
  deriving DecidableEq, Repr

abbrev Heap (I O : Type) := List (Node I O)

namespace Heap

variable {I O : Type}

def value (h : Heap I O) (p : Nat) : Option (Payload I O) := h[p]?.bind Node.value

def matching (h : Heap I O) (p : Nat) : Option Nat := h[p]?.bind Node.matching

def id (h : Heap I O) (p : Nat) : Option Int := h[p]?.map Node.id

def next (h : Heap I O) (p : Nat) : Option Nat := h[p]?.bind Node.next

def prev (h : Heap I O) (p : Nat) : Option Nat := h[p]?.bind Node.prev

def setNext (h : Heap I O) (p : Nat) (q : Option Nat) : Heap I O :=
  h.modify p fun nd => { nd with next := q }

def setPrev (h : Heap I O) (p : Nat) (q : Option Nat) : Heap I O :=
  h.modify p fun nd => { nd with prev := q }

def insertBefore (h : Heap I O) (n : Nat) : Option Nat → Heap I O
  | none => h
  | some mark =>
    let beforeMark := h.prev mark
    let h := h.setPrev mark (some n)
    let h := h.setNext n (some mark)
    match beforeMark with
    | none => h
    | some before => (h.setPrev n (some before)).setNext before (some n)

/-- The loop of `length`, which meets no more nodes than there are. -/
def lengthFrom (h : Heap I O) : Nat → Option Nat → Nat
  | 0, _ => 0
  | _ + 1, none => 0
  | fuel + 1, some n => h.lengthFrom fuel (h.next n) + 1

def length (h : Heap I O) (n : Option Nat) : Nat := h.lengthFrom (List.length h) n

/-- `if p.next != nil { p.next.prev = q }` -/
def setPrevOfNext (h : Heap I O) (p : Nat) (q : Option Nat) : Heap I O :=
  match h.next p with
  | some after => h.setPrev after q
  | none => h

def lift (h : Heap I O) (entry : Nat) : Option (Heap I O) := do
  let before ← h.prev entry
  let h := h.setNext before (h.next entry)
  let after ← h.next entry
  let h := h.setPrev after (h.prev entry)
  let m ← h.matching entry
  let before ← h.prev m
  let h := h.setNext before (h.next m)
  some (h.setPrevOfNext m (h.prev m))

def unlift (h : Heap I O) (entry : Nat) : Option (Heap I O) := do
  let m ← h.matching entry
  let before ← h.prev m
  let h := h.setNext before (some m)
  let h := h.setPrevOfNext m (some m)
  let before ← h.prev entry
  let h := h.setNext before (some entry)
  let after ← h.next entry
  some (h.setPrev after (some entry))

/-! ## Reading and writing -/

section Access

variable (h : Heap I O) (p q : Nat) (x : Option Nat)

@[simp] theorem length_setNext : List.length (h.setNext p x) = List.length h :=
  List.length_modify ..

@[simp] theorem length_setPrev : List.length (h.setPrev p x) = List.length h :=
  List.length_modify ..

theorem getElem?_setNext : (h.setNext p x)[q]? =
    h[q]?.map fun nd => if p = q then { nd with next := x } else nd := by
  rw [setNext, List.getElem?_modify]
  by_cases hpq : p = q <;> simp [hpq]

theorem getElem?_setPrev : (h.setPrev p x)[q]? =
    h[q]?.map fun nd => if p = q then { nd with prev := x } else nd := by
  rw [setPrev, List.getElem?_modify]
  by_cases hpq : p = q <;> simp [hpq]

@[simp] theorem prev_setNext : (h.setNext p x).prev q = h.prev q := by
  rw [prev, getElem?_setNext, prev]
  cases h[q]? with
  | none => rfl
  | some nd => by_cases hpq : p = q <;> simp [hpq]

@[simp] theorem next_setPrev : (h.setPrev p x).next q = h.next q := by
  rw [next, getElem?_setPrev, next]
  cases h[q]? with
  | none => rfl
  | some nd => by_cases hpq : p = q <;> simp [hpq]

theorem next_setNext (hp : p < List.length h) :
    (h.setNext p x).next q = if q = p then x else h.next q := by
  rw [next, getElem?_setNext, next]
  by_cases hpq : q = p
  · subst hpq
    simp [List.getElem?_eq_getElem hp]
  · rw [if_neg hpq]
    cases h[q]? with
    | none => rfl
    | some nd => simp [Ne.symm hpq]

theorem prev_setPrev (hp : p < List.length h) :
    (h.setPrev p x).prev q = if q = p then x else h.prev q := by
  rw [prev, getElem?_setPrev, prev]
  by_cases hpq : q = p
  · subst hpq
    simp [List.getElem?_eq_getElem hp]
  · rw [if_neg hpq]
    cases h[q]? with
    | none => rfl
    | some nd => simp [Ne.symm hpq]

end Access

/-- The two heaps differ in their pointers to the next and the previous node only. -/
structure SameNodes (h h' : Heap I O) : Prop where
  length : List.length h' = List.length h
  value : ∀ p, h'.value p = h.value p
  matching : ∀ p, h'.matching p = h.matching p
  id : ∀ p, h'.id p = h.id p

theorem SameNodes.refl (h : Heap I O) : SameNodes h h :=
  ⟨rfl, fun _ => rfl, fun _ => rfl, fun _ => rfl⟩

theorem SameNodes.trans {h h' h'' : Heap I O} (h₁ : SameNodes h h') (h₂ : SameNodes h' h'') :
    SameNodes h h'' where
  length := h₂.length.trans h₁.length
  value := fun p => (h₂.value p).trans (h₁.value p)
  matching := fun p => (h₂.matching p).trans (h₁.matching p)
  id := fun p => (h₂.id p).trans (h₁.id p)

theorem sameNodes_setNext (h : Heap I O) (p : Nat) (x : Option Nat) :
    SameNodes h (h.setNext p x) := by
  refine ⟨length_setNext h p x, fun q => ?_, fun q => ?_, fun q => ?_⟩ <;>
    simp only [value, matching, id, getElem?_setNext] <;>
    cases h[q]? <;> simp <;> split <;> rfl

theorem sameNodes_setPrev (h : Heap I O) (p : Nat) (x : Option Nat) :
    SameNodes h (h.setPrev p x) := by
  refine ⟨length_setPrev h p x, fun q => ?_, fun q => ?_, fun q => ?_⟩ <;>
    simp only [value, matching, id, getElem?_setPrev] <;>
    cases h[q]? <;> simp <;> split <;> rfl

/-! ## Taking out one node -/

def unlink (h : Heap I O) (p : Nat) : Heap I O :=
  match h.prev p with
  | some a => (h.setNext a (h.next p)).setPrevOfNext p (some a)
  | none => h

def relink (h : Heap I O) (p : Nat) : Heap I O :=
  match h.prev p with
  | some a => (h.setNext a (some p)).setPrevOfNext p (some p)
  | none => h

section Unlink

variable {h : Heap I O} {a p : Nat} {x : Option Nat}

theorem setPrevOfNext_none (hnext : h.next p = none) : h.setPrevOfNext p x = h := by
  rw [setPrevOfNext, hnext]

theorem setPrevOfNext_some {b : Nat} (hnext : h.next p = some b) :
    h.setPrevOfNext p x = h.setPrev b x := by
  rw [setPrevOfNext, hnext]

theorem sameNodes_setPrevOfNext (h : Heap I O) (p : Nat) (x : Option Nat) :
    SameNodes h (h.setPrevOfNext p x) := by
  unfold setPrevOfNext
  split
  · exact sameNodes_setPrev h _ _
  · exact .refl h

theorem unlink_eq (hprev : h.prev p = some a) :
    h.unlink p = (h.setNext a (h.next p)).setPrevOfNext p (some a) := by
  rw [unlink, hprev]

theorem relink_eq (hprev : h.prev p = some a) :
    h.relink p = (h.setNext a (some p)).setPrevOfNext p (some p) := by
  rw [relink, hprev]

theorem sameNodes_unlink (h : Heap I O) (p : Nat) : SameNodes h (h.unlink p) := by
  unfold unlink
  split
  · exact (sameNodes_setNext h _ _).trans (sameNodes_setPrevOfNext _ _ _)
  · exact .refl h

theorem next_setPrevOfNext (q : Nat) : (h.setPrevOfNext p x).next q = h.next q := by
  unfold setPrevOfNext
  split
  · exact next_setPrev h _ q x
  · rfl

theorem next_unlink (hprev : h.prev p = some a) (ha : a < List.length h) (q : Nat) :
    (h.unlink p).next q = if q = a then h.next p else h.next q := by
  rw [unlink_eq hprev, next_setPrevOfNext, next_setNext h a q _ ha]

theorem prev_unlink (hprev : h.prev p = some a) (ha : a < List.length h)
    (hb : ∀ b ∈ h.next p, b < List.length h) (q : Nat) :
    (h.unlink p).prev q = if h.next p = some q then some a else h.prev q := by
  have hnext : (h.setNext a (h.next p)).next p = h.next p := by
    rw [next_setNext h a p _ ha]
    split <;> rfl
  rw [unlink_eq hprev]
  cases hp : h.next p with
  | none =>
      rw [hp] at hnext
      rw [setPrevOfNext_none hnext]
      simp
  | some b =>
      rw [hp] at hnext
      have hlt : b < List.length (h.setNext a (some b)) := by
        rw [length_setNext]
        exact hb b hp
      rw [setPrevOfNext_some hnext]
      simp only [prev_setPrev _ b q (some a) hlt, prev_setNext, Option.some.injEq, eq_comm]

/-- A node that was taken out can be put back by what it still knows. -/
theorem relink_unlink (hprev : h.prev p = some a) (hap : a ≠ p) (ha : h.next a = some p)
    (hbp : h.next p ≠ some p) (hb : ∀ b ∈ h.next p, h.prev b = some p) :
    (h.unlink p).relink p = h := by
  have hfields : ∀ q nd, h[q]? = some nd → h.prev q = nd.prev ∧ h.next q = nd.next := by
    intro q nd hnd
    simp [prev, next, hnd]
  have hblen : ∀ b ∈ h.next p, b < List.length h := by
    intro b hbn
    by_contra hlt
    have hnone := hb b hbn
    rw [prev, List.getElem?_eq_none (by omega)] at hnone
    cases hnone
  have halen : a < List.length h := by
    by_contra hlt
    rw [next, List.getElem?_eq_none (by omega)] at ha
    cases ha
  have hprev' : (h.unlink p).prev p = some a := by
    rw [prev_unlink hprev halen hblen, if_neg hbp, hprev]
  have hnext : ∀ x, (h.setNext a x).next p = h.next p := by
    intro x
    rw [next_setNext h a p x halen, if_neg (Ne.symm hap)]
  have hnext' : ((h.unlink p).setNext a (some p)).next p = h.next p := by
    rw [next_setNext _ a p _ (by rw [(sameNodes_unlink h p).length]; exact halen),
      if_neg (Ne.symm hap), next_unlink hprev halen, if_neg (Ne.symm hap)]
  rw [relink_eq hprev']
  refine List.ext_getElem? fun q => ?_
  cases hp : h.next p with
  | none =>
      rw [setPrevOfNext_none (hnext'.trans hp), unlink_eq hprev,
        setPrevOfNext_none ((hnext _).trans hp), getElem?_setNext, getElem?_setNext]
      cases hq : h[q]? with
      | none => rfl
      | some nd =>
          obtain ⟨value, matching, id, next, prev⟩ := nd
          by_cases haq : a = q
          · subst haq
            have hn : next = some p := (hfields a _ hq).2.symm.trans ha
            simp [hn]
          · simp [haq]
  | some b =>
      rw [setPrevOfNext_some (hnext'.trans hp), unlink_eq hprev,
        setPrevOfNext_some ((hnext _).trans hp)]
      simp only [getElem?_setPrev, getElem?_setNext]
      cases hq : h[q]? with
      | none => rfl
      | some nd =>
          obtain ⟨value, matching, id, next, prev⟩ := nd
          have hn : a = q → next = some p := by
            rintro rfl
            exact (hfields a _ hq).2.symm.trans ha
          have hv : b = q → prev = some p := by
            rintro rfl
            exact (hfields b _ hq).1.symm.trans (hb b hp)
          by_cases haq : a = q
          · by_cases hbq : b = q
            · simp [haq, hbq, hn haq, hv hbq]
            · simp [haq, hbq, hn haq]
          · by_cases hbq : b = q
            · simp [haq, hbq, hv hbq]
            · simp [haq, hbq]

end Unlink

/-! ## Lists of nodes -/

/-- The nodes follow each other in both directions, after `before` and up to the end. -/
def Linked (h : Heap I O) : Option Nat → List Nat → Prop
  | _, [] => True
  | before, p :: ps =>
    p < List.length h ∧ h.prev p = before ∧ h.next p = ps.head? ∧ h.Linked (some p) ps

section Linked

variable {h h' : Heap I O} {before : Option Nat} {a p : Nat} {ps A B : List Nat}

theorem Linked.congr (hl : h.Linked before ps) (hlen : List.length h ≤ List.length h')
    (hsame : ∀ q ∈ ps, h'.next q = h.next q ∧ h'.prev q = h.prev q) : h'.Linked before ps := by
  induction ps generalizing before with
  | nil => trivial
  | cons p ps ih =>
      obtain ⟨hlt, hprev, hnext, hrest⟩ := hl
      obtain ⟨hn, hp⟩ := hsame p List.mem_cons_self
      exact ⟨by omega, hp.trans hprev, hn.trans hnext,
        ih hrest fun q hq => hsame q (List.mem_cons_of_mem p hq)⟩

theorem Linked.lt_length (hl : h.Linked before ps) : ∀ q ∈ ps, q < List.length h := by
  induction ps generalizing before with
  | nil => simp
  | cons p ps ih =>
      intro q hq
      rcases List.mem_cons.mp hq with rfl | hq
      · exact hl.1
      · exact ih hl.2.2.2 q hq

theorem head?_append_cons (A : List Nat) (a : Nat) (B B' : List Nat) :
    (A ++ a :: B).head? = (A ++ a :: B').head? := by
  cases A <;> rfl

/-- What is known of a node and its neighbours. -/
theorem Linked.around (hl : h.Linked before (A ++ a :: p :: B)) :
    h.next a = some p ∧ h.prev p = some a ∧ h.next p = B.head? ∧
      ∀ b ∈ B.head?, h.prev b = some p := by
  induction A generalizing before with
  | nil =>
      obtain ⟨-, -, ha, -, hp, hnext, hB⟩ := hl
      refine ⟨ha, hp, hnext, fun b hb => ?_⟩
      cases B with
      | nil => cases hb
      | cons b' B =>
          cases hb
          exact hB.2.1
  | cons x A ih => exact ih hl.2.2.2

/-- What is left is a list when a node is taken out. -/
theorem Linked.unlink (hl : h.Linked before (A ++ a :: p :: B)) (hnd : (A ++ a :: p :: B).Nodup) :
    (h.unlink p).Linked before (A ++ a :: B) := by
  obtain ⟨ha, hp, hnext, hb⟩ := hl.around
  have hlen := (sameNodes_unlink h p).length
  have hlt := hl.lt_length
  have hn := next_unlink hp (hlt a (by simp))
  have hpv := prev_unlink hp (hlt a (by simp)) (fun b hb => hlt b (by
    rw [hnext] at hb
    have hmem := List.mem_of_mem_head? hb
    simp [hmem]))
  clear ha hp hb hlt
  induction A generalizing before with
  | nil =>
      obtain ⟨hlt, hbefore, -, -, -, -, hB⟩ := hl
      simp only [List.nil_append, List.nodup_cons, List.mem_cons, not_or] at hnd
      obtain ⟨⟨hap, haB⟩, hpB, hBnd⟩ := hnd
      refine ⟨by omega, ?_, by rw [hn, if_pos rfl, hnext], ?_⟩
      · have hne : h.next p ≠ some a := by
          rw [hnext]
          exact fun hmem => haB (List.mem_of_mem_head? hmem)
        rw [hpv, if_neg hne, hbefore]
      · cases B with
        | nil => trivial
        | cons b B =>
            obtain ⟨hblt, hbprev, hbnext, hrest⟩ := hB
            have hnext' : h.next p = some b := hnext
            refine ⟨by omega, by rw [hpv, if_pos hnext'], ?_, hrest.congr (by omega) fun q hq => ?_⟩
            · rw [hn, if_neg (fun hba => haB (by rw [hba]; simp)), hbnext]
            · have hqa : q ≠ a := fun hqa => haB (by rw [← hqa]; simp [hq])
              have hqb : b ≠ q := fun hbq => (List.nodup_cons.mp hBnd).1 (by rw [hbq]; exact hq)
              rw [hn, if_neg hqa, hpv, hnext]
              simp [hqb]
  | cons x A ih =>
      obtain ⟨hxlt, hxprev, hxnext, hrest⟩ := hl
      rw [List.cons_append, List.nodup_cons] at hnd
      have hxa : x ≠ a := fun hxa => hnd.1 (by simp [hxa])
      have hxB : h.next p ≠ some x := by
        rw [hnext]
        exact fun hmem => hnd.1 (by simp [List.mem_of_mem_head? hmem])
      refine ⟨by omega, by rw [hpv, if_neg hxB, hxprev], ?_, ih hrest hnd.2⟩
      rw [hn, if_neg hxa, hxnext]
      exact head?_append_cons A a (p :: B) B

theorem ne_of_nodup (hnd : (A ++ a :: p :: B).Nodup) : p ≠ a := by
  rintro rfl
  exact (List.nodup_cons.mp (List.nodup_append.mp hnd).2.1).1 List.mem_cons_self

theorem Linked.relink_unlink (hl : h.Linked before (A ++ a :: p :: B))
    (hnd : (A ++ a :: p :: B).Nodup) : (h.unlink p).relink p = h := by
  obtain ⟨ha, hp, hnext, hb⟩ := hl.around
  have hnd' := (List.nodup_append.mp hnd).2.1
  simp only [List.nodup_cons, List.mem_cons, not_or] at hnd'
  obtain ⟨⟨hap, -⟩, hpB, -⟩ := hnd'
  refine Heap.relink_unlink hp hap ha ?_ (by rw [hnext]; exact hb)
  rw [hnext]
  exact fun hmem => hpB (List.mem_of_mem_head? hmem)

/-- The node that was taken out still points to its neighbours. -/
theorem Linked.unlink_self (hl : h.Linked before (A ++ a :: p :: B))
    (hnd : (A ++ a :: p :: B).Nodup) :
    (h.unlink p).prev p = some a ∧ (h.unlink p).next p = B.head? := by
  obtain ⟨-, hp, hnext, -⟩ := hl.around
  have hlt := hl.lt_length
  have hnd' := (List.nodup_append.mp hnd).2.1
  simp only [List.nodup_cons, List.mem_cons, not_or] at hnd'
  obtain ⟨⟨hap, -⟩, hpB, -⟩ := hnd'
  have hne : h.next p ≠ some p := by
    rw [hnext]
    exact fun hmem => hpB (List.mem_of_mem_head? hmem)
  rw [next_unlink hp (hlt a (by simp)), if_neg (Ne.symm hap),
    prev_unlink hp (hlt a (by simp)), if_neg hne]
  · exact ⟨hp, hnext⟩
  · intro b hb
    rw [hnext] at hb
    exact hlt b (by simp [List.mem_of_mem_head? hb])

end Linked

/-! ## Building a list -/

section Insert

variable {h : Heap I O} {ps : List Nat}

theorem next_append_of_lt {nd : Node I O} {q : Nat} (hq : q < List.length h) :
    Heap.next (h ++ [nd]) q = h.next q := by
  rw [next, next, List.getElem?_append_left hq]

theorem prev_append_of_lt {nd : Node I O} {q : Nat} (hq : q < List.length h) :
    Heap.prev (h ++ [nd]) q = h.prev q := by
  rw [prev, prev, List.getElem?_append_left hq]

theorem sameNodes_insertBefore (h : Heap I O) (n : Nat) (mark : Option Nat) :
    SameNodes h (h.insertBefore n mark) := by
  cases mark with
  | none => exact .refl h
  | some mark =>
      have hmark := (sameNodes_setPrev h mark (some n)).trans (sameNodes_setNext _ n (some mark))
      unfold insertBefore
      dsimp only
      split
      · exact hmark
      · exact (hmark.trans (sameNodes_setPrev _ _ _)).trans (sameNodes_setNext _ _ _)

/-- A new node goes in front of a list. -/
theorem linked_insertBefore (hl : h.Linked none ps) (hnd : ps.Nodup) (nd : Node I O)
    (hprev : nd.prev = none) (hnext : nd.next = none) :
    (Heap.insertBefore (h ++ [nd]) (List.length h) ps.head?).Linked none (List.length h :: ps) := by
  have hnew : (h ++ [nd])[List.length h]? = some nd := by simp
  have hprev' : Heap.prev (h ++ [nd]) (List.length h) = none := by simp [prev, hprev]
  have hnext' : Heap.next (h ++ [nd]) (List.length h) = none := by simp [next, hnext]
  cases ps with
  | nil => exact ⟨by simp [insertBefore], hprev', hnext', trivial⟩
  | cons r ps =>
      obtain ⟨hr, hrprev, hrnext, hrest⟩ := hl
      have hne : List.length h ≠ r := by omega
      have hlen : List.length h < List.length ((h ++ [nd]).setPrev r (some (List.length h))) := by
        simp
      have hr' : r < List.length (h ++ [nd]) := by
        rw [List.length_append]
        omega
      have heq : Heap.insertBefore (h ++ [nd]) (List.length h) (some r) =
          ((h ++ [nd]).setPrev r (some (List.length h))).setNext (List.length h) (some r) := by
        rw [insertBefore, prev_append_of_lt hr, hrprev]
      show (Heap.insertBefore (h ++ [nd]) (List.length h) (some r)).Linked none
        (List.length h :: r :: ps)
      rw [heq]
      refine ⟨by simp, ?_, ?_, by simp; omega, ?_, ?_, ?_⟩
      · rw [prev_setNext, prev_setPrev _ _ _ _ hr', if_neg hne, hprev']
      · rw [next_setNext _ _ _ _ hlen, if_pos rfl, List.head?_cons]
      · rw [prev_setNext, prev_setPrev _ _ _ _ hr', if_pos rfl]
      · rw [next_setNext _ _ _ _ hlen, if_neg (Ne.symm hne), next_setPrev, next_append_of_lt hr,
          hrnext]
      · refine hrest.congr (by simp) fun q hq => ?_
        have hq' := hrest.lt_length q hq
        have hqr : q ≠ r := fun h => (List.nodup_cons.mp hnd).1 (h ▸ hq)
        rw [next_setNext _ _ _ _ hlen, if_neg (by omega), next_setPrev, next_append_of_lt hq',
          prev_setNext, prev_setPrev _ _ _ _ hr', if_neg hqr, prev_append_of_lt hq']
        exact ⟨rfl, rfl⟩

theorem lengthFrom_eq {before : Option Nat} (hl : h.Linked before ps) {fuel : Nat}
    (hfuel : ps.length ≤ fuel) : h.lengthFrom fuel ps.head? = ps.length := by
  induction ps generalizing before fuel with
  | nil => cases fuel <;> rfl
  | cons p ps ih =>
      obtain ⟨-, -, hnext, hrest⟩ := hl
      cases fuel with
      | zero => simp at hfuel
      | succ fuel =>
          rw [List.length_cons] at hfuel ⊢
          show h.lengthFrom fuel (h.next p) + 1 = ps.length + 1
          rw [hnext, ih hrest (by omega)]

theorem length_eq {before : Option Nat} (hl : h.Linked before ps) (hnd : ps.Nodup) :
    h.length ps.head? = ps.length := by
  refine lengthFrom_eq hl ?_
  have hsub : ps ⊆ List.range (List.length h) := fun q hq => by
    rw [List.mem_range]
    exact hl.lt_length q hq
  have hle := (hnd.subperm hsub).length_le
  rwa [List.length_range] at hle

end Insert

/-! ## Taking out a call and its return -/

section Lift

variable {h : Heap I O} {before : Option Nat} {a e m : Nat} {A B D : List Nat}

/-- The list around a call and its return. -/
structure Around (h : Heap I O) (before : Option Nat) (a e m : Nat) (A B D : List Nat) : Prop where
  linked : h.Linked before (A ++ a :: e :: (B ++ m :: D))
  nodup : (A ++ a :: e :: (B ++ m :: D)).Nodup
  matching : h.matching e = some m

/-- The list without the call, where the return has its neighbour before it. -/
theorem Around.split (hr : Around h before a e m A B D) :
    ∃ A' a', (h.unlink e).Linked before (A' ++ a' :: m :: D) ∧
    (A' ++ a' :: m :: D).Nodup ∧ A' ++ a' :: m :: D = A ++ a :: (B ++ m :: D) ∧
    A' ++ a' :: D = A ++ a :: (B ++ D) := by
  have hl := hr.linked.unlink hr.nodup
  have hnd : (A ++ a :: (B ++ m :: D)).Nodup :=
    hr.nodup.sublist
      (List.Sublist.append_left (List.Sublist.cons_cons a (List.sublist_cons_self e _)) A)
  rcases List.eq_nil_or_concat B with rfl | ⟨B', b, rfl⟩
  · exact ⟨A, a, hl, hnd, rfl, rfl⟩
  · refine ⟨A ++ a :: B', b, ?_, ?_, by simp, by simp⟩
    · simpa using hl
    · simpa using hnd

theorem Around.next_ne_none (hr : Around h before a e m A B D) : ∃ b, h.next e = some b := by
  obtain ⟨-, -, hnext, -⟩ := hr.linked.around
  rw [hnext]
  cases B <;> exact ⟨_, rfl⟩

theorem Around.lift (hr : Around h before a e m A B D) :
    h.lift e = some ((h.unlink e).unlink m) := by
  obtain ⟨-, hprev, -, -⟩ := hr.linked.around
  obtain ⟨b, hb⟩ := hr.next_ne_none
  have hlt := hr.linked.lt_length a (by simp)
  have hcall : (h.setNext a (some b)).setPrev b (some a) = h.unlink e := by
    rw [unlink_eq hprev, hb, setPrevOfNext_some]
    rw [next_setNext _ _ _ _ hlt, if_neg (ne_of_nodup hr.nodup), hb]
  obtain ⟨A', a', hl', hnd', -, -⟩ := hr.split
  obtain ⟨-, hmprev, -, -⟩ := hl'.around
  have hm : (h.unlink e).matching e = some m := by
    rw [(sameNodes_unlink h e).matching, hr.matching]
  simp only [Heap.lift, hprev, hb, Option.bind_eq_bind, Option.bind_some,
    next_setNext _ _ _ _ hlt, if_neg (ne_of_nodup hr.nodup), prev_setNext, hcall, hm, hmprev,
    unlink_eq hmprev]

/-- Putting back what was taken out restores the heap. -/
theorem Around.unlift (hr : Around h before a e m A B D) :
    ((h.unlink e).unlink m).unlift e = some h := by
  obtain ⟨A', a', hl', hnd', -, -⟩ := hr.split
  have hm : ((h.unlink e).unlink m).matching e = some m := by
    rw [(sameNodes_unlink _ m).matching, (sameNodes_unlink h e).matching, hr.matching]
  -- the return comes back first
  obtain ⟨hmprev, -⟩ := hl'.unlink_self hnd'
  have hret : (((h.unlink e).unlink m).setNext a' (some m)).setPrevOfNext m (some m) =
      h.unlink e :=
    (relink_eq hmprev).symm.trans (hl'.relink_unlink hnd')
  -- and then the call
  obtain ⟨hprev, hnext⟩ := hr.linked.unlink_self hr.nodup
  obtain ⟨b, hb⟩ := hr.next_ne_none
  have hb' : (h.unlink e).next e = some b := by
    rw [hnext, ← hb, hr.linked.around.2.2.1]
  have hlt : a < List.length (h.unlink e) := by
    rw [(sameNodes_unlink h e).length]
    exact hr.linked.lt_length a (by simp)
  have hcall : ((h.unlink e).setNext a (some e)).setPrev b (some e) = h := by
    have hback := hr.linked.relink_unlink hr.nodup
    rw [relink_eq hprev, setPrevOfNext_some] at hback
    · exact hback
    · rw [next_setNext _ _ _ _ hlt, if_neg (ne_of_nodup hr.nodup), hb']
  simp only [Heap.unlift, hm, hmprev, Option.bind_eq_bind, Option.bind_some, hret, hprev,
    next_setNext _ _ _ _ hlt, if_neg (ne_of_nodup hr.nodup), hb', hcall]

/-- What a call and its return leave behind. -/
theorem Around.linked_lift (hr : Around h before a e m A B D) :
    ((h.unlink e).unlink m).Linked before (A ++ a :: (B ++ D)) := by
  obtain ⟨A', a', hl', hnd', -, heq⟩ := hr.split
  rw [← heq]
  exact hl'.unlink hnd'

end Lift
end Heap
end Porcupine
end Labs
