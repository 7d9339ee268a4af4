import Labs.Raft.Compact

/-!
# Requests of one leader, in any order

The log of a leader only grows during its term, so each `AppendEntries` it builds carries
a part of the log it ends the term with.  A follower that would accept each request of a
collection accepts them in every order: a request takes over the leader's log up to the
request's last entry unless the follower has it already, and raises the commit index.
Both are maxima, so the outcome depends on which requests arrived and on nothing else.
-/

namespace Labs
namespace Raft

open Consensus

variable {n : Nat} {C : Type}

section Max

variable {α β : Type} [LinearOrder β]

theorem foldl_max_le_iff (f : α → β) (xs : List α) (a c : β) :
    xs.foldl (fun m x => max m (f x)) a ≤ c ↔ a ≤ c ∧ ∀ x ∈ xs, f x ≤ c := by
  induction xs generalizing a with
  | nil => simp
  | cons x xs ih => simp [ih, and_assoc]

/-- A running maximum does not depend on order and repetition. -/
theorem foldl_max_congr (f : α → β) {xs ys : List α} (h : ∀ x, x ∈ xs ↔ x ∈ ys) (a : β) :
    xs.foldl (fun m x => max m (f x)) a = ys.foldl (fun m x => max m (f x)) a := by
  refine eq_of_forall_ge_iff fun c => ?_
  simp only [foldl_max_le_iff, h]

end Max

theorem take_of_take_prefix {ℓ L : List (LogEntry C)} {k : Nat} (h : L.take k <+: ℓ)
    (hk : k ≤ L.length) : ℓ.take k = L.take k := by
  rw [List.prefix_iff_eq_take.mp h, List.length_take_of_le hk]

theorem take_eq_take_iff {ℓ L : List (LogEntry C)} {m : Nat} :
    ℓ.take m = L.take m ↔ ∀ j < m, ℓ[j]? = L[j]? := by
  constructor
  · intro h j hj
    rw [← List.getElem?_take_of_lt hj, h, List.getElem?_take_of_lt hj]
  · intro h
    refine List.ext_getElem? fun j => ?_
    rw [List.getElem?_take, List.getElem?_take]
    split
    · next hj => exact h j hj
    · rfl

namespace AppendEntriesArgs

/-- A request that the leader of term `T` builds: what followed some index of its log
when the log was a beginning of `L`. -/
structure BuiltFrom (args : AppendEntriesArgs n C) (T : Int) (L : List (LogEntry C)) : Prop where
  term : args.term = T
  slice : ∃ p, args.SliceOf L p
  commit : args.leaderCommit ≤ args.prevLogIndex + args.entries.length

/-- The index of the last entry. -/
def lastNew (args : AppendEntriesArgs n C) : Nat :=
  (args.prevLogIndex + args.entries.length).toNat

theorem SliceOf.lastNew {args : AppendEntriesArgs n C} {L : List (LogEntry C)} {p : Nat}
    (h : args.SliceOf L p) : args.lastNew = p + args.entries.length := by
  rw [AppendEntriesArgs.lastNew, h.prev]
  omega

end AppendEntriesArgs

namespace Peer

/-- What a worker sends, unless it is the placeholder. -/
theorem Compacts.builtFrom {rf : Peer n C} {ℓ L : List (LogEntry C)} {b : Nat} {peer : Fin n}
    {args : AppendEntriesArgs n C} (hc : rf.Compacts ℓ b)
    (hargs : rf.heartbeatWorker peer = .sendEntries args)
    (hne : rf.nextIndex peer ≠ rf.lastIncludedIndex) (hcommit : rf.commitIndex ≤ rf.lastLogIndex)
    (hL : ℓ <+: L) : args.BuiltFrom rf.currentTerm L := by
  obtain ⟨-, hlow, -, heq⟩ := heartbeatWorker_sendEntries hargs
  have hindex := hc.index
  unfold toPhysicalIndex at hlow
  obtain ⟨p, hp⟩ : ∃ p : Nat, rf.nextIndex peer = p + 1 :=
    ⟨(rf.nextIndex peer - 1).toNat, by omega⟩
  obtain ⟨hslice, hentries⟩ := hc.sliceOf hargs hp (by omega)
  refine ⟨by rw [heq], ⟨p, hslice.mono hL⟩, ?_⟩
  have hle := hslice.le
  rw [hentries, hslice.prev, List.length_drop, heq]
  rw [hc.lastLogIndex] at hcommit
  show rf.commitIndex ≤ _
  omega

/-- Log Matching with the log of a leader, above what the peer has compacted. -/
def LogMatching (rf : Peer n C) (L : List (LogEntry C)) : Prop :=
  ∀ k : Nat, ∀ e ∈ rf.entryAt (k + 1), ∀ e' ∈ L[k]?, e.term = e'.term →
    ∀ j : Nat, j ≤ k → rf.lastIncludedIndex ≤ j → rf.entryAt (j + 1) = L[j]?

/-- The peer has the leader's entries up to an index, or has compacted them. -/
def AgreesTo (rf : Peer n C) (L : List (LogEntry C)) (m : Nat) : Prop :=
  m ≤ L.length ∧ ∀ j : Nat, j < m → rf.lastIncludedIndex ≤ j → rf.entryAt (j + 1) = L[j]?

/-- The requests, one after the other. -/
def receive (rf : Peer n C) (requests : List (AppendEntriesArgs n C)) : Peer n C :=
  requests.foldl (fun rf args => (rf.appendEntries args).1) rf

/-! ## The whole log of the follower -/

/-- As `Compacts`, without the term of the snapshot. -/
structure Covers (rf : Peer n C) (d : LogEntry C) (ℓ : List (LogEntry C)) (b : Nat) : Prop where
  index : rf.lastIncludedIndex = b
  le : b ≤ ℓ.length
  log : rf.log = d :: ℓ.drop b

namespace Covers

variable {rf : Peer n C} {d : LogEntry C} {ℓ L : List (LogEntry C)} {b : Nat}

theorem compacts (h : Covers rf d ℓ b) :
    Compacts { rf with lastIncludedTerm := termOf ℓ b } ℓ b :=
  ⟨h.index, h.le, ⟨d, h.log⟩, rfl⟩

theorem lastLogIndex (h : Covers rf d ℓ b) : rf.lastLogIndex = ℓ.length :=
  h.compacts.lastLogIndex

theorem termAt_logical (h : Covers rf d ℓ b) {k : Nat} (hk : b < k) :
    rf.termAt k true = termOf ℓ k :=
  h.compacts.termAt_logical hk

theorem entryAt (h : Covers rf d ℓ b) {j : Nat} (hj : b ≤ j) : rf.entryAt (j + 1) = ℓ[j]? :=
  h.compacts.entryAt hj

/-- Agreement with the leader is a common beginning of the whole logs. -/
theorem agreesTo_iff (h : Covers rf d ℓ b) (hb : ℓ.take b = L.take b) {m : Nat} :
    rf.AgreesTo L m ↔ m ≤ L.length ∧ ℓ.take m = L.take m := by
  have hindex := h.index
  refine and_congr_right fun _ => ?_
  rw [take_eq_take_iff]
  constructor
  · intro hall j hj
    rcases Nat.lt_or_ge j b with hlt | hge
    · exact take_eq_take_iff.mp hb j hlt
    · rw [← h.entryAt hge]
      exact hall j hj (by omega)
  · intro hall j hj hlow
    rw [h.entryAt (by omega)]
    exact hall j hj

theorem matching (h : Covers rf d ℓ b) (hb : ℓ.take b = L.take b) (hmatch : rf.LogMatching L) :
    Matching ℓ L := by
  have hindex := h.index
  intro k h0 hk hkL hterm
  obtain ⟨i, rfl⟩ : ∃ i, k = i + 1 := ⟨k - 1, by omega⟩
  rw [take_eq_take_iff]
  intro j hj
  rcases Nat.lt_or_ge j b with hlt | hge
  · exact take_eq_take_iff.mp hb j hlt
  · obtain ⟨e, he⟩ : ∃ e, ℓ[i]? = some e := ⟨_, List.getElem?_eq_getElem (by omega)⟩
    obtain ⟨e', he'⟩ : ∃ e, L[i]? = some e := ⟨_, List.getElem?_eq_getElem (by omega)⟩
    rw [termOf_succ he, termOf_succ he'] at hterm
    rw [← h.entryAt (show b ≤ i by omega)] at he
    rw [← h.entryAt hge]
    exact hmatch i e he e' he' hterm j (by omega) (by omega)

end Covers

/-- Where the peer has compacted it has no choice, so the leader's entries stand there. -/
theorem covers_whole {rf : Peer n C} {d : LogEntry C} {tail L : List (LogEntry C)} {b : Nat}
    (hindex : rf.lastIncludedIndex = b) (hlog : rf.log = d :: tail) (hb : b ≤ L.length) :
    Covers rf d (L.take b ++ tail) b := by
  have hlen : (L.take b).length = b := List.length_take_of_le hb
  refine ⟨hindex, ?_, ?_⟩
  · rw [List.length_append, hlen]
    omega
  · rw [hlog, List.drop_left' hlen]

theorem matching_adopt {ℓ L : List (LogEntry C)} (h : Matching ℓ L) (m : Nat) :
    Matching (adopt L m ℓ) L := by
  rcases adopt_eq L m ℓ with heq | heq
  · rw [heq]
    exact h
  · rw [heq]
    intro k _ hk _ _
    rw [List.length_take] at hk
    rw [List.take_take, min_eq_left (by omega)]

/-- The loop over the entries does not read the term of the snapshot. -/
theorem mergeEntries_lastIncludedTerm (rf : Peer n C) (t prev : Int) (i : Nat)
    (entries : List (LogEntry C)) :
    { rf with lastIncludedTerm := t }.mergeEntries prev i entries =
      rf.mergeEntries prev i entries := by
  induction entries generalizing i with
  | nil => rfl
  | cons entry rest ih =>
      unfold mergeEntries
      rw [ih]
      rfl

/-! ## One request -/

theorem matchPrevLog_success {rf : Peer n C} {args : AppendEntriesArgs n C}
    {reply : AppendEntriesReply} (h : rf.matchPrevLog args = some reply) :
    reply.success = false := by
  unfold matchPrevLog at h
  dsimp only at h
  split at h
  · cases h
    rfl
  · split at h
    · split at h
      · cases h
        rfl
      · cases h
    · split at h
      · cases h
        rfl
      · cases h

theorem follow_of_eq {rf : Peer n C} {newTerm : Int} (h : newTerm = rf.currentTerm) :
    rf.follow newTerm = { rf with status := .follower } := by
  rw [follow, stepDown_of_le h.le]

theorem matchPrevLog_of_success {rf : Peer n C} {args : AppendEntriesArgs n C}
    (hterm : args.term = rf.currentTerm) (h : (rf.appendEntries args).2.success = true) :
    { rf with status := .follower }.matchPrevLog args = none := by
  rw [← follow_of_eq hterm]
  cases hm : (rf.follow args.term).matchPrevLog args with
  | none => rfl
  | some reply =>
      rw [appendEntries_of_some (by omega) hm, matchPrevLog_success hm] at h
      cases h

section Accept

variable {rf : Peer n C} {d : LogEntry C} {ℓ L : List (LogEntry C)} {b p : Nat}
  {args : AppendEntriesArgs n C}

/-- What the peer compares the request with, above its snapshot. -/
theorem Covers.matchPrevLog_eq_none_iff (h : Covers rf d ℓ b) (hs : args.SliceOf L p)
    (hbp : b ≤ p) : rf.matchPrevLog args = none ↔ p ≤ ℓ.length ∧
      (p = b → rf.lastIncludedTerm = args.prevLogTerm) ∧ (b < p → termOf ℓ p = termOf L p) := by
  unfold matchPrevLog
  simp only [h.lastLogIndex, h.index, hs.prev]
  rcases Nat.lt_or_ge ℓ.length p with hlen | hlen
  · rw [if_pos (by omega)]
    exact iff_of_false (by simp) fun hall => absurd hall.1 (by omega)
  · rw [if_neg (by omega)]
    rcases Nat.eq_or_lt_of_le hbp with hb | hb
    · rw [if_pos (by omega)]
      simp [hlen, hb]
    · rw [if_neg (by omega), h.termAt_logical hb, hs.term]
      simp [hlen, hb, hb.ne']

/-- The conditions under which the peer accepts a request. -/
structure Accepts (rf : Peer n C) (L ℓ : List (LogEntry C)) (args : AppendEntriesArgs n C) :
    Prop where
  built : args.BuiltFrom rf.currentTerm L
  base : rf.lastIncludedIndex ≤ args.prevLogIndex
  agree : L.take args.prevLogIndex.toNat <+: ℓ
  term : args.prevLogIndex = rf.lastIncludedIndex → rf.lastIncludedTerm = args.prevLogTerm

/-- A request that succeeds agrees with the peer's log up to its index. -/
theorem Covers.accepts (h : Covers rf d ℓ b) (hb : ℓ.take b = L.take b)
    (hmatch : Matching ℓ L) (hbuilt : args.BuiltFrom rf.currentTerm L)
    (hbase : rf.lastIncludedIndex ≤ args.prevLogIndex)
    (hsuccess : (rf.appendEntries args).2.success = true) : Accepts rf L ℓ args := by
  obtain ⟨p, hs⟩ := hbuilt.slice
  have hindex := h.index
  have hprev := hs.prev
  have hf : Covers { rf with status := .follower } d ℓ b := ⟨h.index, h.le, h.log⟩
  have hm := matchPrevLog_of_success hbuilt.term hsuccess
  obtain ⟨hlen, hterm, htermOf⟩ := (hf.matchPrevLog_eq_none_iff hs (by omega)).mp hm
  refine ⟨hbuilt, hbase, ?_, fun heq => hterm (by omega)⟩
  rw [hprev, Int.toNat_natCast]
  rcases Nat.lt_or_ge b p with hlt | hge
  · rw [← hmatch p (by omega) hlen hs.le (htermOf hlt)]
    exact List.take_prefix _ _
  · rw [show p = b by omega, ← hb]
    exact List.take_prefix _ _

end Accept

/-! ## Many requests -/

section Many

variable {rf₀ rf : Peer n C} {d : LogEntry C} {ℓ L : List (LogEntry C)} {b m : Nat} {c c' : Int}

/-- The state of the peer `rf₀` after requests that reached up to index `m` of the leader's
log and raised the commit index to `c`. -/
structure Reached (rf₀ : Peer n C) (d : LogEntry C) (L ℓ : List (LogEntry C)) (b m : Nat)
    (c : Int) (rf : Peer n C) : Prop where
  term : rf.currentTerm = rf₀.currentTerm
  lastTerm : rf.lastIncludedTerm = rf₀.lastIncludedTerm
  covers : Covers rf d (adopt L m ℓ) b
  commit : rf.commitIndex = c

theorem Reached.appendEntries (h : Reached rf₀ d L ℓ b m c rf) (hindex : rf₀.lastIncludedIndex = b)
    (hb : ℓ.take b = L.take b) (hmatch : Matching ℓ L) {args : AppendEntriesArgs n C}
    (ha : Accepts rf₀ L ℓ args) :
    Reached rf₀ d L ℓ b (max m args.lastNew) (max c args.leaderCommit)
      (rf.appendEntries args).1 := by
  obtain ⟨p, hs⟩ := ha.built.slice
  have hterm : args.term = rf.currentTerm := ha.built.term.trans h.term.symm
  have hbase := ha.base
  have hcommit := ha.built.commit
  have hagree := ha.agree
  rw [hs.prev] at hbase hcommit hagree
  rw [Int.toNat_natCast] at hagree
  have hle := hs.le
  have hbp : b ≤ p := by omega
  -- the request is accepted here as in the initial state
  have hkeep : ∀ {k}, k ≤ L.length → L.take k <+: ℓ →
      (adopt L m ℓ).take k = L.take k := fun hk hpre =>
    take_of_take_prefix (prefix_adopt m (List.take_prefix _ _) hpre) hk
  have hbase' := hkeep (by omega) (hb ▸ List.take_prefix b ℓ)
  have hagree' := hkeep hle hagree
  have hlen : p ≤ (adopt L m ℓ).length := by
    have := congrArg List.length hagree'
    rw [List.length_take, List.length_take_of_le hle] at this
    omega
  have hf : Covers { rf with status := .follower } d (adopt L m ℓ) b :=
    ⟨h.covers.index, h.covers.le, h.covers.log⟩
  have hm : { rf with status := .follower }.matchPrevLog args = none := by
    refine (hf.matchPrevLog_eq_none_iff hs hbp).mpr ⟨hlen, fun heq => ?_, fun _ => ?_⟩
    · rw [← ha.term (by rw [hs.prev]; omega)]
      exact h.lastTerm
    · exact termOf_congr hagree'
  have hmerge := hf.compacts.mergeEntries hbase' (matching_adopt hmatch m) hf.log args.entries 0
    hagree' hlen hs.entries
  rw [mergeEntries_lastIncludedTerm, Nat.add_zero, ← hs.lastNew, adopt_adopt] at hmerge
  have hrun : (rf.appendEntries args).1 = { { rf with
      status := .follower
      log := d :: (adopt L (max m args.lastNew) ℓ).drop b }.persist with
      commitIndex := max c args.leaderCommit } := by
    rw [appendEntries_of_none (by omega) (by rw [follow_of_eq hterm]; exact hm),
      follow_of_eq hterm, accept, hs.prev, hmerge, updateFollowerCommitIndex_commit _ hcommit,
      ← h.commit]
    rfl
  rw [hrun]
  refine ⟨h.term, h.lastTerm, ⟨h.covers.index, ?_, rfl⟩, rfl⟩
  have hpre : L.take b <+: adopt L (max m args.lastNew) ℓ :=
    prefix_adopt _ (List.take_prefix _ _) (hb ▸ List.take_prefix b ℓ)
  have := hpre.length_le
  rw [List.length_take] at this
  omega

theorem Reached.receive (h : Reached rf₀ d L ℓ b m c rf) (hindex : rf₀.lastIncludedIndex = b)
    (hb : ℓ.take b = L.take b) (hmatch : Matching ℓ L) {xs : List (AppendEntriesArgs n C)}
    (ha : ∀ args ∈ xs, Accepts rf₀ L ℓ args) :
    Reached rf₀ d L ℓ b (xs.foldl (fun m args => max m args.lastNew) m)
      (xs.foldl (fun c args => max c args.leaderCommit) c) (rf.receive xs) := by
  induction xs generalizing rf m c with
  | nil => exact h
  | cons args xs ih =>
      have hstep := h.appendEntries hindex hb hmatch (ha args (by simp))
      exact ih hstep fun a hmem => ha a (List.mem_cons_of_mem _ hmem)

theorem reached_refl (h : Covers rf d ℓ b) : Reached rf d L ℓ b 0 rf.commitIndex rf := by
  refine ⟨rfl, rfl, ?_, rfl⟩
  rw [adopt_of_isPrefix (by simp)]
  exact h

/-- What a request leaves of the agreement with the leader. -/
theorem Reached.agreesTo {rf' : Peer n C} {k : Nat} (h : Reached rf₀ d L ℓ b m c rf)
    (h' : Reached rf₀ d L ℓ b (max m k) (max c c') rf') (hb : ℓ.take b = L.take b)
    (hbL : b ≤ L.length) {j : Nat} (hj : rf.AgreesTo L j) : rf'.AgreesTo L j := by
  have hbase : ∀ i, (adopt L i ℓ).take b = L.take b := fun i =>
    take_of_take_prefix (prefix_adopt i (List.take_prefix _ _) (hb ▸ List.take_prefix b ℓ)) hbL
  obtain ⟨hle, heq⟩ := (h.covers.agreesTo_iff (hbase m)).mp hj
  refine (h'.covers.agreesTo_iff (hbase _)).mpr ⟨hle, take_of_take_prefix ?_ hle⟩
  rw [← adopt_adopt]
  exact prefix_adopt k (List.take_prefix _ _) (heq ▸ List.take_prefix j _)

end Many

/-- The outcome does not depend on order and repetition, and no request takes anything
back. -/
theorem receive_order_insensitive {rf : Peer n C} {L : List (LogEntry C)} {b : Nat}
    {requests : List (AppendEntriesArgs n C)} (hindex : rf.lastIncludedIndex = b)
    (hlog : rf.log ≠ []) (hmatch : rf.LogMatching L)
    (hbuilt : ∀ args ∈ requests, args.BuiltFrom rf.currentTerm L)
    (haccept : ∀ args ∈ requests, rf.lastIncludedIndex ≤ args.prevLogIndex ∧
      (rf.appendEntries args).2.success = true) :
    (∀ xs ys, (∀ args, args ∈ xs ↔ args ∈ requests) → (∀ args, args ∈ ys ↔ args ∈ requests) →
      (rf.receive xs).log = (rf.receive ys).log ∧
      (rf.receive xs).commitIndex = (rf.receive ys).commitIndex) ∧
    ∀ xs, (∀ args ∈ xs, args ∈ requests) → ∀ args ∈ requests,
      (rf.receive xs).commitIndex ≤ (rf.receive (xs ++ [args])).commitIndex ∧
      ∀ m, (rf.receive xs).AgreesTo L m → (rf.receive (xs ++ [args])).AgreesTo L m := by
  cases requests with
  | nil =>
      refine ⟨fun xs ys hxs hys => ?_, fun xs _ args hargs => absurd hargs (by simp)⟩
      have hnil : ∀ {zs : List (AppendEntriesArgs n C)}, (∀ args, args ∈ zs ↔ args ∈ []) →
          zs = [] := fun h =>
        List.eq_nil_iff_forall_not_mem.mpr fun args hargs => List.not_mem_nil ((h args).mp hargs)
      rw [hnil hxs, hnil hys]
      exact ⟨rfl, rfl⟩
  | cons first rest =>
      obtain ⟨d, tail, hdt⟩ := List.exists_cons_of_ne_nil hlog
      have hbL : b ≤ L.length := by
        obtain ⟨p, hs⟩ := (hbuilt first (by simp)).slice
        have hbase := (haccept first (by simp)).1
        have hle := hs.le
        rw [hs.prev] at hbase
        omega
      have hc : Covers rf d (L.take b ++ tail) b := covers_whole hindex hdt hbL
      have hb : (L.take b ++ tail).take b = L.take b :=
        List.take_left' (List.length_take_of_le hbL)
      have hmatching := hc.matching hb hmatch
      have hacc : ∀ args ∈ first :: rest, Accepts rf L (L.take b ++ tail) args :=
        fun args hargs => hc.accepts hb hmatching (hbuilt args hargs) (haccept args hargs).1
          (haccept args hargs).2
      have hreach : ∀ {xs}, (∀ args ∈ xs, args ∈ first :: rest) → _ := fun hxs =>
        (reached_refl hc).receive hindex hb hmatching fun args hargs => hacc args (hxs args hargs)
      constructor
      · intro xs ys hxs hys
        have hsame : ∀ args, args ∈ xs ↔ args ∈ ys := fun args => (hxs args).trans (hys args).symm
        have hx := hreach fun args => (hxs args).mp
        have hy := hreach fun args => (hys args).mp
        constructor
        · rw [hx.covers.log, hy.covers.log, foldl_max_congr _ hsame]
        · rw [hx.commit, hy.commit, foldl_max_congr _ hsame]
      · intro xs hxs args hargs
        have hx := hreach hxs
        have hstep := hx.appendEntries hindex hb hmatching (hacc args hargs)
        have hlast : rf.receive (xs ++ [args]) = ((rf.receive xs).appendEntries args).1 :=
          List.foldl_append
        rw [hlast]
        refine ⟨?_, fun m hm => hx.agreesTo hstep hb hbL hm⟩
        rw [hstep.commit, hx.commit]
        exact le_max_left _ _

/-- A follower of term 2 that has compacted the entry of term 1 and holds a second one,
which the leader replaces. -/
def divergent : Peer 3 Nat :=
  { make 1 Persister.makePersister with
    currentTerm := 2
    log := [placeholder 0, { term := 1, command := some 9 }]
    lastIncludedIndex := 1
    lastIncludedTerm := 1
    commitIndex := 1 }

/-- A request with one entry and a later one with both, the later one first. -/
theorem receive_order_insensitive_divergent :
    let new (c : Nat) : LogEntry Nat := { term := 2, command := some c }
    let short : AppendEntriesArgs 3 Nat := ⟨2, 0, 1, 1, [new 5], 1⟩
    let long : AppendEntriesArgs 3 Nat := ⟨2, 0, 1, 1, [new 5, new 6], 2⟩
    (divergent.receive [long, short, short]).log = [placeholder 0, new 5, new 6] ∧
    (divergent.receive [short, long]).log = (divergent.receive [long, short, short]).log := by
  intro new short long
  let old : LogEntry Nat := { term := 1, command := some 7 }
  have hmatch : divergent.LogMatching [old, new 5, new 6] := by
    intro k e he e' he' hterm
    match k with
    | 0 => cases he
    | 1 =>
        cases he
        cases he'
        cases hterm
    | k + 2 =>
        have hindex : divergent.lastIncludedIndex = 1 := rfl
        rw [entryAt, hindex, if_pos (by omega),
          show (((k + 2 : Nat) : Int) + 1 - 1).toNat = k + 2 by omega] at he
        cases he
  have hbuilt : ∀ args ∈ [short, long], args.BuiltFrom 2 [old, new 5, new 6] := by
    simp only [List.forall_mem_cons, List.not_mem_nil, false_imp_iff, implies_true, and_true]
    exact ⟨⟨rfl, ⟨1, rfl, by simp, rfl, by simp [short]⟩, by decide⟩,
      ⟨rfl, ⟨1, rfl, by simp, rfl, by simp [long]⟩, by decide⟩⟩
  have hindex : divergent.lastIncludedIndex = (1 : Nat) := rfl
  have haccept : ∀ args ∈ [short, long], divergent.lastIncludedIndex ≤ args.prevLogIndex ∧
      (divergent.appendEntries args).2.success = true := by
    simp only [List.forall_mem_cons, List.not_mem_nil, false_imp_iff, implies_true, and_true]
    exact ⟨by decide, by decide⟩
  have hmem : ∀ args, args ∈ [long, short, short] ↔ args ∈ [short, long] := by
    intro args
    simp only [List.mem_cons, List.not_mem_nil, or_false]
    tauto
  have hsame := (receive_order_insensitive hindex (by simp [divergent]) hmatch hbuilt
    haccept).1 [short, long] [long, short, short] (fun _ => Iff.rfl) hmem
  exact ⟨by decide +kernel, hsame.1⟩

end Peer
end Raft
end Labs
