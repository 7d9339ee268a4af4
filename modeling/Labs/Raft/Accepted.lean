import Labs.Raft.Tester

/-!
# The cluster passes the checks of its tester

In every run of the tester without snapshots, and in every run with snapshots whose steps
meet the conditions of the refinement and in which no reader of a killed instance reads on,
the only complaint of these checks is that no server leads.  All that the tester compares is
compared with the log that the cluster has agreed on: the maps of the readers, the snapshots
they make, and what a test has been told at different times.
-/

namespace Labs
namespace Raft

open Consensus

variable {n : Nat} {C : Type} {a a' : AbsState n C}

/-! ## What is decided -/

/-- The command is the one that is committed at the index.  Below the first index a snapshot
of the tester has nil. -/
def Decided (a : AbsState n C) (index : Int) (command : Option C) : Prop :=
  index = 0 ∧ command = none ∨
    Chosen a { commandValid := true, command := command, commandIndex := index }

namespace Decided

variable {index : Int} {command command' : Option C}

theorem mono (h : Decided a index command) (hext : a.Ext a') : Decided a' index command :=
  h.imp_right fun hc => hc.mono hext

theorem of_chosen {m : ApplyMsg C} (h : Chosen a m) (hv : m.snapshotValid = false) :
    Decided a m.commandIndex m.command :=
  .inr fun _ => h hv

theorem not_chosen_zero (h : Chosen a { commandValid := true, command := command,
                                        commandIndex := 0 }) : False := by
  obtain ⟨_, _, k, _, -, -, hindex, -⟩ := h rfl
  have hzero : (0 : Int) = k + 1 := hindex
  omega

theorem unique (hinv : a.Inv (majority n)) (h : Decided a index command)
    (h' : Decided a index command') : command = command' := by
  rcases h with ⟨rfl, rfl⟩ | hc
  · rcases h' with ⟨-, rfl⟩ | hc'
    · rfl
    · exact (not_chosen_zero hc').elim
  · rcases h' with ⟨rfl, -⟩ | hc'
    · exact (not_chosen_zero hc).elim
    · exact hc.command_eq hinv hc' rfl rfl rfl

end Decided

/-- Leaders found so far are leaders of the terms they were found with, each server is
found once, and the command that was counted is decided. -/
def Check.Sound (a : AbsState n C) : Check n C → Prop
  | .checkOneLeader _ i leaders =>
    leaders.Pairwise (fun p q => p.2 ≠ q.2) ∧
      ∀ p ∈ leaders, a.leader p.1 = some p.2 ∧ p.2.val < i
  | .nCommitted index _ count cmd => 0 < count → Decided a index cmd

theorem Check.Sound.mono {c : Check n C} (h : c.Sound a) (hext : a.Ext a') : c.Sound a' := by
  cases c with
  | checkOneLeader iters i leaders =>
      exact ⟨h.1, fun p hp => ⟨hext.leader (h.2 p hp).1, (h.2 p hp).2⟩⟩
  | nCommitted index i count cmd => exact fun hcount => (h hcount).mono hext

/-- What a test was told about an index is decided. -/
def Finding.Sound (a : AbsState n C) : Finding n C → Prop
  | .leader i => ∃ term, a.leader term = some i
  | .committed index count cmd => 0 < count → Decided a index cmd

theorem Finding.Sound.mono {f : Finding n C} (h : f.Sound a) (hext : a.Ext a') :
    f.Sound a' := by
  cases f with
  | leader i =>
      obtain ⟨term, hterm⟩ := h
      exact ⟨term, hext.leader hterm⟩
  | committed index count cmd => exact fun hcount => (h hcount).mono hext

namespace Config

variable {s s' : Config n C}

/-- All that the tester has seen is decided, and it has not complained. -/
structure Sound (s : Config n C) (a : AbsState n C) : Prop where
  logs : ∀ i index command, s.logs i index = some command → Decided a index command
  checks : ∀ c ∈ s.checks, c.Sound a
  findings : ∀ f ∈ s.findings, f.Sound a
  failed : ∀ e ∈ s.failed, e = .noLeader

theorem Sound.mono (h : Sound s a) (hext : a.Ext a') : Sound s a' where
  logs := fun i index command hget => (h.logs i index command hget).mono hext
  checks := fun c hc => (h.checks c hc).mono hext
  findings := fun f hf => (h.findings f hf).mono hext
  failed := h.failed

theorem sound_init (snapshot : Bool) : Sound (init snapshot : Config n C) (State.init 0) where
  logs := fun _ _ _ hget => by cases hget
  checks := fun _ hc => by cases hc
  findings := fun _ hf => by cases hf
  failed := fun _ he => by cases he

/-! ## The calls of a test -/

/-- Two leaders that were found with one term are one server. -/
theorem leadersOf_length {i : Nat} {iters : Nat} {leaders : List (Int × Fin n)}
    (h : (Check.checkOneLeader iters i leaders : Check n C).Sound a) (term : Int) :
    (leadersOf term leaders).length ≤ 1 := by
  obtain ⟨hdistinct, hleads⟩ := h
  have hpair : (leadersOf term leaders).Pairwise fun p q => p ≠ q ∧ p = q := by
    unfold leadersOf
    rw [List.pairwise_map]
    refine (hdistinct.filter _).imp_of_mem fun {p q} hp hq hne => ⟨hne, ?_⟩
    obtain ⟨hp, hpt⟩ := List.mem_filter.mp hp
    obtain ⟨hq, hqt⟩ := List.mem_filter.mp hq
    have hpl := (hleads p hp).1
    have hql := (hleads q hq).1
    rw [of_decide_eq_true hpt] at hpl
    rw [of_decide_eq_true hqt, hpl] at hql
    exact Option.some.inj hql
  rcases hlist : leadersOf term leaders with _ | ⟨p, _ | ⟨q, rest⟩⟩
  · exact Nat.zero_le _
  · exact Nat.le_refl _
  · rw [hlist] at hpair
    obtain ⟨hne, heq⟩ := List.rel_of_pairwise_cons hpair List.mem_cons_self
    exact absurd heq hne

theorem mem_leadersOf {term : Int} {leaders : List (Int × Fin n)} {i : Fin n}
    (h : i ∈ leadersOf term leaders) : (term, i) ∈ leaders := by
  obtain ⟨p, hp, rfl⟩ := List.mem_map.mp h
  obtain ⟨hmem, hterm⟩ := List.mem_filter.mp hp
  rw [← of_decide_eq_true hterm]
  exact hmem

/-- What the calls of a test leave alone. -/
def told (s : Config n C) (checks : List (Check n C)) (findings : List (Finding n C))
    (failed : Option (TestErr n C)) : Config n C :=
  { s with checks := checks, findings := findings, failed := failed }

theorem Sound.set (h : Sound s a) {k : Nat} {c : Check n C} (hc : c.Sound a) :
    Sound (s.told (s.checks.set k c) s.findings s.failed) a where
  logs := h.logs
  checks := fun c' hc' => by
    rcases List.mem_or_eq_of_mem_set hc' with hold | rfl
    · exact h.checks c' hold
    · exact hc
  findings := h.findings
  failed := h.failed

theorem Sound.finish (h : Sound s a) (k : Nat) {f : Finding n C} (hf : f.Sound a) :
    Sound (s.told (s.checks.eraseIdx k) (s.findings ++ [f]) s.failed) a where
  logs := h.logs
  checks := fun c hc => h.checks c (List.mem_of_mem_eraseIdx hc)
  findings := fun f' hf' => by
    rcases List.mem_append.mp hf' with hold | hnew
    · exact h.findings f' hold
    · rw [List.mem_singleton.mp hnew]
      exact hf
  failed := h.failed

theorem Sound.pick (h : Sound s a) {k iters i : Nat} {leaders : List (Int × Fin n)}
    (hc : (Check.checkOneLeader iters i leaders : Check n C).Sound a) :
    ∃ checks findings failed, s.pick k iters leaders = s.told checks findings failed ∧
      Sound (s.told checks findings failed) a := by
  unfold Config.pick
  split
  · next p hp =>
      have hle := leadersOf_length hc p.1
      have hlt : 1 < (leadersOf p.1 leaders).length := by
        simpa using List.find?_some hp
      omega
  · split
    · next j rest hlast =>
        have hmem := mem_leadersOf (hlast ▸ List.mem_cons_self : j ∈ leadersOf _ leaders)
        exact ⟨_, _, _, rfl, h.finish k ⟨_, (hc.2 _ hmem).1⟩⟩
    · split
      · exact ⟨_, _, _, rfl, h.set ⟨.nil, fun p hp => by cases hp⟩⟩
      · refine ⟨_, _, _, rfl, h.logs, h.checks, h.findings, fun e he => ?_⟩
        cases he
        rfl

theorem Sound.ask [DecidableEq C] (h : Sound s a) (href : Refines s.raft a) {k : Nat}
    (hs : s.ask k = some s') :
    ∃ checks findings failed, s' = s.told checks findings failed ∧ Sound s' a := by
  unfold Config.ask at hs
  split at hs
  · cases hs
  · next iters i leaders hk =>
      have hc := h.checks _ (List.mem_of_getElem? hk)
      split at hs
      · next hi =>
          cases hs
          refine ⟨_, _, _, rfl, h.set ?_⟩
          have hbefore : ∀ p ∈ leaders, a.leader p.1 = some p.2 ∧ p.2.val < i + 1 :=
            fun p hp => ⟨(hc.2 p hp).1, Nat.lt_succ_of_lt (hc.2 p hp).2⟩
          split
          · next hleads =>
              refine ⟨List.pairwise_append.mpr ⟨hc.1, List.pairwise_singleton _ _, ?_⟩, ?_⟩
              · intro p hp q hq heq
                rw [List.mem_singleton.mp hq] at heq
                have hlt := (hc.2 p hp).2
                rw [heq] at hlt
                exact Nat.lt_irrefl _ hlt
              · intro p hp
                rcases List.mem_append.mp hp with hold | hnew
                · exact hbefore p hold
                · rw [List.mem_singleton.mp hnew]
                  refine ⟨?_, Nat.lt_succ_self _⟩
                  have hlead := of_decide_eq_true hleads.2
                  rw [← href.leads hlead, href.cur_eq]
          · exact ⟨hc.1, hbefore⟩
      · cases hs
        obtain ⟨checks, findings, failed, heq, hsound⟩ := h.pick (k := k) hc
        rw [← heq] at hsound
        exact ⟨checks, findings, failed, heq, hsound⟩
  · next index i count cmd hk =>
      have hc := h.checks _ (List.mem_of_getElem? hk)
      split at hs
      · next hi =>
          split at hs
          · cases hs
            exact ⟨_, _, _, rfl, h.set hc⟩
          · next cmd1 hget =>
              have hdecided := h.logs _ _ _ hget
              split at hs
              · next hdiffers =>
                  exact absurd ((hc hdiffers.1).unique href.inv hdecided) hdiffers.2
              · cases hs
                exact ⟨_, _, _, rfl, h.set fun _ => hdecided⟩
      · cases hs
        exact ⟨_, _, _, rfl, h.finish k hc⟩

/-! ## The check of a command -/

/-- The state after a command was found to be right. -/
def record (s : Config n C) (i : Fin n) (m : ApplyMsg C) : Config n C :=
  { s with
    logs := Function.update s.logs i
      (Function.update (s.logs i) m.commandIndex (some m.command))
    maxIndex := max s.maxIndex m.commandIndex }

theorem Sound.record (h : Sound s a) (i : Fin n) {m : ApplyMsg C}
    (hm : Decided a m.commandIndex m.command) : Sound (s.record i m) a where
  logs := by
    intro j index command hget
    have hget : Function.update s.logs i (Function.update (s.logs i) m.commandIndex
      (some m.command)) j index = some command := hget
    by_cases hj : j = i
    · rw [hj, Function.update_self, Function.update_apply] at hget
      split at hget
      · next hindex =>
          cases hget
          rw [hindex]
          exact hm
      · exact h.logs i index command hget
    · rw [Function.update_of_ne hj] at hget
      exact h.logs j index command hget
  checks := h.checks
  findings := h.findings
  failed := h.failed

theorem Sound.took (h : Sound s a) (i : Fin n) (inc : Nat) : Sound (s.took i inc) a :=
  ⟨h.logs, h.checks, h.findings, h.failed⟩

/-- A map keeps what it has. -/
theorem record_isSome {i j : Fin n} {index : Int} (m : ApplyMsg C)
    (h : (s.logs j index).isSome ∨ j = i ∧ index = m.commandIndex) :
    ((s.record i m).logs j index).isSome := by
  show (Function.update s.logs i (Function.update (s.logs i) m.commandIndex
    (some m.command)) j index).isSome
  by_cases hj : j = i
  · rw [hj, Function.update_self, Function.update_apply]
    split
    · rfl
    · next hindex =>
        rcases h with hold | ⟨-, heq⟩
        · rw [← hj]
          exact hold
        · exact absurd heq hindex
  · rw [Function.update_of_ne hj]
    rcases h with hold | ⟨heq, -⟩
    · exact hold
    · exact absurd heq hj

variable [DecidableEq C]

theorem Sound.difference_eq (h : Sound s a) (hinv : a.Inv (majority n)) (i : Fin n)
    {m : ApplyMsg C} (hm : Decided a m.commandIndex m.command) : s.difference i m = none := by
  unfold difference
  induction List.finRange n with
  | nil => rfl
  | cons j rest ih =>
      rw [List.foldl_cons]
      cases hget : s.logs j m.commandIndex with
      | none => exact ih
      | some old =>
          have heq := (h.logs j _ old hget).unique hinv hm
          dsimp only
          rw [if_neg (not_not.mpr heq)]
          exact ih

theorem Sound.checkOrder_eq (h : Sound s a) (hinv : a.Inv (majority n)) {i : Fin n}
    {m : ApplyMsg C} (hm : Decided a m.commandIndex m.command)
    (hprev : 1 < m.commandIndex → (s.logs i (m.commandIndex - 1)).isSome) :
    s.checkOrder i m = s.record i m := by
  have hok : ¬ (m.commandIndex > 1 ∧ (s.logs i (m.commandIndex - 1)).isSome = false) := by
    intro hbad
    rw [hprev hbad.1] at hbad
    exact Bool.noConfusion hbad.2
  unfold checkOrder checkLogs
  dsimp only
  rw [if_neg hok, h.difference_eq hinv i hm]
  rfl

/-! ## The reader without snapshots -/

omit [DecidableEq C] in
/-- What a reader has taken from a channel. -/
theorem taken_lt {taken : Fin n → Nat → Nat} {i j : Fin n} {inc inc' k : Nat}
    (h : k < Function.update taken i (Function.update (taken i) inc (taken i inc + 1)) j inc') :
    k < taken j inc' ∨ j = i ∧ k = taken i inc := by
  by_cases hj : j = i
  · rw [hj, Function.update_self, Function.update_apply] at h
    split at h
    · next hinc =>
        rcases Nat.lt_succ_iff_lt_or_eq.mp h with hlt | heq
        · rw [hj, hinc]
          exact .inl hlt
        · exact .inr ⟨hj, heq⟩
    · rw [hj]
      exact .inl h
  · rw [Function.update_of_ne hj] at h
    exact .inl h

/-- No service of the cluster compacts, and the map of a server has whatever one of its
readers has taken. -/
structure Plain (s : Config n C) (a : AbsState n C) : Prop where
  mode : s.snapshot = false
  delivers : s.raft.Delivers a
  uncompacted : s.raft.Uncompacted
  given : ∃ acts, s.raft.Provenance acts ∧ ∀ i index data, Action.snapshot i index data ∉ acts
  idle : ∀ i, s.compacting i = none
  read : ∀ i inc (k : Nat), k < s.taken i inc → (s.logs i ((k : Int) + 1)).isSome

namespace Plain

omit [DecidableEq C]

theorem init : Plain (init false : Config n C) (State.init 0) where
  mode := rfl
  delivers := Cluster.delivers_init
  uncompacted := .init
  given := ⟨[], .init, fun _ _ _ hmem => by cases hmem⟩
  idle := fun _ => rfl
  read := fun _ _ _ hk => absurd hk (Nat.not_lt_zero _)

/-- A step of the cluster that is no call of `Snapshot`. -/
theorem cluster (h : Plain s a) {act : Action n C} {raft : Cluster n C}
    (hact : s.raft.NeverSnapshots act) (hs : s.raft.step act = some raft) :
    ∃ a', a.Ext a' ∧ Plain { s with raft := raft } a' := by
  obtain ⟨a', hsteps, hd⟩ := h.delivers.step (h.uncompacted.ordered h.delivers.refines hact) hs
  refine ⟨a', (h.delivers.refines.inv.steps hsteps).2, h.mode, hd,
    h.uncompacted.step h.delivers hact hs, ?_, h.idle, h.read⟩
  obtain ⟨acts, hprov, hnone⟩ := h.given
  refine ⟨acts ++ [act], hprov.step hs, fun i index data hmem => ?_⟩
  rcases List.mem_append.mp hmem with hold | hnew
  · exact hnone i index data hold
  · rw [← List.mem_singleton.mp hnew] at hact
    exact hact

/-- There is no snapshot on any disk. -/
theorem disk (h : Plain s a) (i : Fin n) : (s.raft.peers i).persister.readSnapshot = [] := by
  obtain ⟨acts, hprov, hnone⟩ := h.given
  rcases hprov.disk i with ⟨-, hnil⟩ | ⟨j, hmem⟩
  · exact hnil
  · exact absurd hmem (hnone j _ _)

theorem next (h : Plain s a) {i : Fin n} {inc k : Nat} {m : ApplyMsg C}
    (hm : (s.raft.applyCh i inc)[k]? = some m) :
    m.commandValid = true ∧ m.commandIndex = (k : Int) + 1 ∧
      Decided a m.commandIndex m.command := by
  have hmem := List.mem_of_getElem? hm
  have hcommands := h.uncompacted.messages.applyCh i inc
  have horder := h.delivers.applied.past i inc
  rw [h.uncompacted.loaded] at horder
  obtain ⟨hvalid, hindex⟩ := Cluster.getElem?_of_inOrder horder hcommands hm
  exact ⟨hvalid, by omega,
    .of_chosen (h.delivers.agreed.applyCh i inc m hmem) (hcommands m hmem)⟩

end Plain

theorem Plain.applier (h : Plain s a) (hsound : Sound s a) {i : Fin n} {inc : Nat}
    (hs : s.applier i inc = some s') : Plain s' a ∧ Sound s' a := by
  unfold Config.applier at hs
  obtain ⟨m, hm, hs⟩ := Option.bind_eq_some_iff.mp hs
  obtain ⟨hvalid, hindex, hdecided⟩ := h.next hm
  rw [if_neg (by simp [hvalid])] at hs
  have hprev : 1 < m.commandIndex → (s.logs i (m.commandIndex - 1)).isSome := by
    intro hlt
    have hread := h.read i inc (s.taken i inc - 1) (by omega)
    rwa [show m.commandIndex - 1 = ((s.taken i inc - 1 : Nat) : Int) + 1 by omega]
  -- what was taken is counted before the command is checked
  have htaken := hsound.took i inc
  rw [htaken.checkOrder_eq h.delivers.refines.inv hdecided hprev] at hs
  cases hs
  refine ⟨⟨h.mode, h.delivers, h.uncompacted, h.given, h.idle, fun j inc' k hk => ?_⟩,
    htaken.record i hdecided⟩
  refine record_isSome m ?_
  rcases taken_lt hk with hold | ⟨hj, hk⟩
  · exact .inl (h.read j inc' k hold)
  · refine .inr ⟨hj, ?_⟩
    rw [hindex, hk]

omit [DecidableEq C] in
theorem Plain.start1 (h : Plain s a) (hsound : Sound s a) (i : Fin n) :
    ∃ a', a.Ext a' ∧ Plain (s.start1 i) a' ∧ Sound (s.start1 i) a' := by
  have hs : s.raft.step (.crash i) = some (s.raft.crash i) := rfl
  have hnever : s.raft.NeverSnapshots (.crash i) := trivial
  obtain ⟨a', hext, h'⟩ := h.cluster hnever hs
  refine ⟨a', hext, ?_⟩
  unfold Config.start1
  rw [if_pos (h.disk i)]
  refine ⟨⟨h.mode, h'.delivers, h'.uncompacted, h'.given, ?_, fun j inc k hk => ?_⟩, ?_⟩
  · exact (Function.forall_update_iff s.compacting (p := fun _ c => c = none)).mpr
      ⟨rfl, fun j _ => h.idle j⟩
  · refine h.read j inc k ?_
    have hk : k < Function.update s.taken i
      (Function.update (s.taken i) (s.raft.incarnation i + 1) 0) j inc := hk
    by_cases hj : j = i
    · rw [hj, Function.update_self, Function.update_apply] at hk
      split at hk
      · exact absurd hk (Nat.not_lt_zero _)
      · rw [hj]
        exact hk
    · rwa [Function.update_of_ne hj] at hk
  · have hmono := hsound.mono hext
    exact ⟨hmono.logs, hmono.checks, hmono.findings, hmono.failed⟩

/-! ## The reader with snapshots -/

/-- A snapshot of the tester has the decided commands up to its index. -/
def Whole (a : AbsState n C) (snap : Nat × List (Option C)) : Prop :=
  snap.2.length = snap.1 + 1 ∧
    ∀ (j : Nat) command, snap.2[j]? = some command → Decided a j command

omit [DecidableEq C] in
theorem Whole.mono {snap : Nat × List (Option C)} (h : Whole a snap) (hext : a.Ext a') :
    Whole a' snap :=
  ⟨h.1, fun j command hget => (h.2 j command hget).mono hext⟩

def host (s : Config n C) : Host n C where
  raft := s.raft
  taken := fun i => s.taken i (s.raft.incarnation i)
  applied := s.lastApplied
  snapshots := s.snapshots.map Prod.fst

omit [DecidableEq C] in
/-- The cluster has moved, and no reader has taken a message. -/
theorem backed_of {raft : Cluster n C} {snapshots : List Nat}
    (h : ({ s.host with raft := raft, snapshots := snapshots } : Host n C).Backed a)
    (hinc : raft.incarnation = s.raft.incarnation) (hraft : s'.raft = raft)
    (htaken : s'.taken = s.taken) (happlied : s'.lastApplied = s.lastApplied)
    (hsnap : s'.snapshots.map Prod.fst = snapshots) : s'.host.Backed a := by
  unfold Config.host
  rw [hraft, htaken, happlied, hsnap, hinc]
  exact h

/-- The map of a server has all that it has applied, and every snapshot is whole. -/
structure Maps (s : Config n C) (a : AbsState n C) : Prop where
  read : ∀ i (j : Nat), 1 ≤ j → j ≤ s.lastApplied i → (s.logs i (j : Int)).isSome
  snapshots : ∀ snap ∈ s.snapshots, Whole a snap
  compacting : ∀ i, ∀ snap ∈ s.compacting i, snap.1 ≤ s.lastApplied i ∧ Whole a snap

namespace Maps

omit [DecidableEq C]

theorem init (snapshot : Bool) : Maps (init snapshot : Config n C) (State.init 0) where
  read := fun i j hpos hle => absurd hle (Nat.not_le.mpr hpos)
  snapshots := fun _ hs => by cases hs
  compacting := fun _ _ hs => by cases hs

theorem mono (h : Maps s a) (hext : a.Ext a') : Maps s a' where
  read := h.read
  snapshots := fun snap hs => (h.snapshots snap hs).mono hext
  compacting := fun i snap hs =>
    ⟨(h.compacting i snap hs).1, (h.compacting i snap hs).2.mono hext⟩

/-- What a reader that has applied an index would encode. -/
theorem whole_xlog (hsound : Sound s a) {i : Fin n} {index : Nat}
    (hread : ∀ j : Nat, 1 ≤ j → j ≤ index → (s.logs i (j : Int)).isSome) :
    Whole a (index, s.xlog i index) := by
  refine ⟨by simp [Config.xlog], fun j command hget => ?_⟩
  unfold Config.xlog at hget
  rw [List.getElem?_map] at hget
  obtain ⟨k, hk, rfl⟩ := Option.map_eq_some_iff.mp hget
  obtain ⟨hlt, rfl⟩ := List.getElem?_eq_some_iff.mp hk
  rw [List.getElem_range]
  rw [List.length_range] at hlt
  cases hlog : s.logs i (j : Int) with
  | some command => exact hsound.logs i j command hlog
  | none =>
      -- only the place below the first index may be missing
      have hzero : j = 0 := by
        by_contra hne
        have hthere := hread j (by omega) (by omega)
        rw [hlog] at hthere
        cases hthere
      subst hzero
      exact .inl ⟨rfl, rfl⟩

end Maps

/-- The map that a snapshot is read into. -/
def ofXlog (xlog : List (Option C)) (j : Int) : Option (Option C) :=
  if 0 ≤ j then xlog[j.toNat]? else none

/-- The state after a server has read a snapshot. -/
def load (s : Config n C) (i : Fin n) (snap : Nat × List (Option C)) : Config n C :=
  { s with
    logs := Function.update s.logs i (ofXlog snap.2)
    lastApplied := Function.update s.lastApplied i snap.1 }

section

omit [DecidableEq C]

/-- A snapshot that was made is read without a complaint. -/
theorem ingestSnap_eq {index : Int} {data : Bytes}
    (h : Encoded (s.snapshots.map Prod.fst) index data) (i : Fin n) {given : Int}
    (hgiven : given = -1 ∨ given = index) :
    ∃ snap ∈ s.snapshots, index = (snap.1 : Int) ∧
      s.ingestSnap i data given = s.load i snap := by
  obtain ⟨k, last, hk, rfl, rfl⟩ := h
  rw [List.getElem?_map] at hk
  obtain ⟨snap, hsnap, rfl⟩ := Option.map_eq_some_iff.mp hk
  refine ⟨snap, List.mem_of_getElem? hsnap, rfl, ?_⟩
  unfold ingestSnap
  rw [snapshotNumber_snapshotBytes]
  dsimp only
  rw [hsnap]
  dsimp only
  rw [if_neg (by tauto)]
  rfl

theorem Maps.crash1 (h : Maps s a) (i : Fin n) : Maps (s.crash1 i) a := by
  refine ⟨fun j k hpos hle => ?_, h.snapshots, fun j snap hsnap => ?_⟩
  · have hle : k ≤ Function.update s.lastApplied i 0 j := hle
    by_cases hj : j = i
    · rw [hj, Function.update_self] at hle
      omega
    · rw [Function.update_of_ne hj] at hle
      exact h.read j k hpos hle
  · have hsnap : Function.update s.compacting i none j = some snap := hsnap
    show _ ≤ Function.update s.lastApplied i 0 j ∧ _
    by_cases hj : j = i
    · rw [hj, Function.update_self] at hsnap
      cases hsnap
    · rw [Function.update_of_ne hj] at hsnap ⊢
      exact h.compacting j snap hsnap

theorem Maps.load (h : Maps s a) (i : Fin n) {snap : Nat × List (Option C)}
    (hmem : snap ∈ s.snapshots) (hidle : s.compacting i = none) : Maps (s.load i snap) a where
  read := by
    intro j k hpos hle
    show (Function.update s.logs i (ofXlog snap.2) j (k : Int)).isSome
    have hle : k ≤ Function.update s.lastApplied i snap.1 j := hle
    by_cases hj : j = i
    · have hlen := (h.snapshots snap hmem).1
      rw [hj, Function.update_self] at hle ⊢
      unfold ofXlog
      rw [if_pos (by omega), Int.toNat_natCast, List.getElem?_eq_getElem (by omega)]
      rfl
    · rw [Function.update_of_ne hj] at hle ⊢
      exact h.read j k hpos hle
  snapshots := h.snapshots
  compacting := by
    intro j snap' hsnap'
    have hsnap' : s.compacting j = some snap' := hsnap'
    have hj : j ≠ i := by
      intro heq
      rw [heq, hidle] at hsnap'
      cases hsnap'
    show _ ≤ Function.update s.lastApplied i _ j ∧ _
    rw [Function.update_of_ne hj]
    exact h.compacting j snap' hsnap'

theorem Sound.load (h : Sound s a) (i : Fin n) {snap : Nat × List (Option C)}
    (hwhole : Whole a snap) : Sound (s.load i snap) a where
  logs := by
    intro j index command hget
    have hget : Function.update s.logs i (ofXlog snap.2) j index = some command := hget
    by_cases hj : j = i
    · rw [hj, Function.update_self] at hget
      unfold ofXlog at hget
      split at hget
      · next hpos =>
          have hthere := hwhole.2 _ _ hget
          rwa [Int.toNat_of_nonneg hpos] at hthere
      · cases hget
    · rw [Function.update_of_ne hj] at hget
      exact h.logs j index command hget
  checks := h.checks
  findings := h.findings
  failed := h.failed

end

theorem Sound.applyCommand_eq (h : Sound s a) (hinv : a.Inv (majority n)) {i : Fin n} {inc : Nat}
    {m : ApplyMsg C} (hm : Decided a m.commandIndex m.command)
    (hindex : m.commandIndex = s.lastApplied i + 1)
    (hprev : 1 < m.commandIndex → (s.logs i (m.commandIndex - 1)).isSome) :
    s.applyCommand i inc m = (s.record i m).advance i inc (s.lastApplied i + 1) := by
  unfold applyCommand
  rw [if_neg (not_not.mpr hindex), h.checkOrder_eq hinv hm hprev,
    show m.commandIndex.toNat = s.lastApplied i + 1 by omega]

omit [DecidableEq C] in
/-- The state after a reader has applied the next command. -/
theorem Maps.advance (h : Maps s a) (hsound : Sound s a) {i : Fin n} {m : ApplyMsg C}
    (hm : Decided a m.commandIndex m.command) (hindex : m.commandIndex = s.lastApplied i + 1) :
    Maps ((s.record i m).advance i (s.raft.incarnation i) (s.lastApplied i + 1)) a := by
  have hrecord := hsound.record i hm
  have hbefore : ∀ j : Nat, 1 ≤ j → j ≤ s.lastApplied i + 1 →
      ((s.record i m).logs i (j : Int)).isSome := by
    intro j hpos hle
    refine record_isSome m ?_
    by_cases hlast : j = s.lastApplied i + 1
    · exact .inr ⟨rfl, by omega⟩
    · exact .inl (h.read i j hpos (by omega))
  refine ⟨fun j k hpos hle => ?_, h.snapshots, fun j snap hsnap => ?_⟩
  · have hle : k ≤ Function.update s.lastApplied i (s.lastApplied i + 1) j := hle
    by_cases hj : j = i
    · rw [hj, Function.update_self] at hle
      rw [hj]
      exact hbefore k hpos hle
    · rw [Function.update_of_ne hj] at hle
      exact record_isSome m (.inl (h.read j k hpos hle))
  · show _ ≤ Function.update s.lastApplied i _ j ∧ _
    have hsnap : (if s.raft.incarnation i = s.raft.incarnation i then
      Function.update s.compacting i _ else s.compacting) j = some snap := hsnap
    rw [if_pos rfl] at hsnap
    by_cases hj : j = i
    · rw [hj, Function.update_self] at hsnap ⊢
      split at hsnap
      · cases hsnap
        exact ⟨Nat.le_refl _, whole_xlog hrecord hbefore⟩
      · cases hsnap
    · rw [Function.update_of_ne hj] at hsnap ⊢
      exact h.compacting j snap hsnap

/-- The tester with snapshots over the cluster. -/
structure Serving (s : Config n C) (a : AbsState n C) : Prop where
  mode : s.snapshot = true
  backed : s.host.Backed a
  maps : Maps s a

namespace Serving

section

omit [DecidableEq C]

theorem init : Serving (init true : Config n C) (State.init 0) :=
  ⟨rfl, .init, .init true⟩

theorem cluster (h : Serving s a) {act : Action n C} {raft : Cluster n C}
    (hok : s.raft.Ordered act) (hs : s.raft.step act = some raft) (hact : Offers act = true) :
    ∃ a', a.Ext a' ∧ Serving { s with raft := raft } a' := by
  have hcrash : ∀ i, act ≠ .crash i := by
    rintro i rfl
    cases hact
  obtain ⟨a', hext, hback⟩ := h.backed.cluster hok hs hcrash
    (fun i index data heq => by subst heq; cases hact)
  have hmaps := h.maps.mono hext
  have hinc := (Cluster.channels_of_step hs hcrash).1
  exact ⟨a', hext, h.mode, backed_of hback hinc rfl rfl rfl rfl, hmaps.read, hmaps.snapshots,
    hmaps.compacting⟩

/-- The cluster goes along with a reader that has taken a message. -/
theorem took (h : Serving s a) {i : Fin n} {m : ApplyMsg C} {index : Nat}
    (hm : (s.host.channel i)[s.host.taken i]? = some m) (hindex : m.index = index)
    (hraft : s'.raft = s.raft) (htaken : s'.taken = (s.took i (s.raft.incarnation i)).taken)
    (happlied : s'.lastApplied = Function.update s.lastApplied i index)
    (hsnap : s'.snapshots = s.snapshots) : s'.host.Backed a := by
  have hcount : (fun j => s'.taken j (s'.raft.incarnation j)) =
      Function.update s.host.taken i (s.host.taken i + 1) := by
    funext j
    rw [htaken, hraft]
    show Function.update s.taken i _ j _ = _
    by_cases hj : j = i
    · rw [hj, Function.update_self, Function.update_self, Function.update_self]
      rfl
    · rw [Function.update_of_ne hj, Function.update_of_ne hj]
      rfl
  have htake := h.backed.take hm hindex
  unfold Host.take at htake
  unfold Config.host
  rw [hcount, hraft, happlied, hsnap]
  exact htake

/-- A reader gives its snapshot to its peer. -/
theorem compact (h : Serving s a) (hsound : Sound s a) {i : Fin n}
    (hs : s.compact i = some s') : ∃ a', a.Ext a' ∧ Serving s' a' ∧ Sound s' a' := by
  unfold Config.compact at hs
  obtain ⟨snap, hsnap, hs⟩ := Option.bind_eq_some_iff.mp hs
  obtain ⟨raft, hraft, hs⟩ := Option.bind_eq_some_iff.mp hs
  cases hs
  obtain ⟨hle, hwhole⟩ := h.maps.compacting i snap hsnap
  have hmore : s.host.snapshots <+: (s.snapshots ++ [snap]).map Prod.fst := by
    rw [List.map_append]
    exact List.prefix_append _ _
  have hindex : (snap.1 : Int) ≤ s.host.applied i := Int.ofNat_le.mpr hle
  have hmade := h.backed.made hmore
  have hok := h.backed.ordered_snapshot hindex (snapshotBytes s.snapshots.length)
  obtain ⟨a', hext, hback⟩ := hmade.cluster hok hraft (fun j hact => by cases hact)
    (fun j index data hact => by
      cases hact
      exact ⟨s.snapshots.length, snap.1, by simp, rfl, rfl⟩)
  have hmaps := h.maps.mono hext
  have hsound' := hsound.mono hext
  have hinc := (Cluster.channels_of_step hraft fun j hact => by cases hact).1
  refine ⟨a', hext, ⟨h.mode, backed_of hback hinc rfl rfl rfl rfl, hmaps.read,
    fun snap' hmem => ?_, fun j snap' hsnap' => ?_⟩, hsound'.logs, hsound'.checks,
    hsound'.findings, hsound'.failed⟩
  · rcases List.mem_append.mp hmem with hold | hnew
    · exact hmaps.snapshots snap' hold
    · rw [List.mem_singleton.mp hnew]
      exact hwhole.mono hext
  · have hsnap' : Function.update s.compacting i none j = some snap' := hsnap'
    by_cases hj : j = i
    · rw [hj, Function.update_self] at hsnap'
      cases hsnap'
    · rw [Function.update_of_ne hj] at hsnap'
      exact hmaps.compacting j snap' hsnap'

/-- The cluster goes along with a server that starts again. -/
theorem restarted {i : Fin n} (h : (s.host.restart i).Backed a) (hraft : s'.raft = s.raft.crash i)
    (htaken : s'.taken = (s.crash1 i).taken)
    (happlied : s'.lastApplied = (s.host.restart i).applied)
    (hsnap : s'.snapshots = s.snapshots) : s'.host.Backed a := by
  have hcount : (fun j => s'.taken j (s'.raft.incarnation j)) =
      Function.update s.host.taken i 0 := by
    funext j
    rw [htaken, hraft]
    show Function.update s.taken i _ j (Function.update s.raft.incarnation i _ j) = _
    by_cases hj : j = i
    · rw [hj, Function.update_self, Function.update_self, Function.update_self,
        Function.update_self]
    · rw [Function.update_of_ne hj, Function.update_of_ne hj, Function.update_of_ne hj]
      rfl
  unfold Config.host
  rw [hcount, hraft, happlied, hsnap]
  exact h

theorem start1 (h : Serving s a) (hsound : Sound s a) (i : Fin n) :
    ∃ a', a.Ext a' ∧ Serving (s.start1 i) a' ∧ Sound (s.start1 i) a' := by
  obtain ⟨a', hext, hback⟩ := h.backed.restart i
  have hmono := hsound.mono hext
  have hsound' : Sound (s.crash1 i) a' :=
    ⟨hmono.logs, hmono.checks, hmono.findings, hmono.failed⟩
  have hmaps := (h.maps.mono hext).crash1 i
  have hidle : (s.crash1 i).compacting i = none := Function.update_self ..
  refine ⟨a', hext, ?_⟩
  unfold Config.start1
  dsimp only
  rcases h.backed.disk i with ⟨hzero, hnil⟩ | hencoded
  · have hzero : (s.raft.peers i).persister.lastIncludedIndex = 0 := hzero
    have hnil : (s.raft.peers i).persister.readSnapshot = [] := hnil
    rw [if_pos hnil]
    refine ⟨⟨h.mode, restarted hback rfl rfl ?_ rfl, hmaps⟩, hsound'⟩
    show Function.update s.lastApplied i 0 = Function.update s.lastApplied i
      (s.raft.peers i).persister.lastIncludedIndex.toNat
    rw [hzero]
    rfl
  · have hload := ingestSnap_eq (s := s.crash1 i) hencoded i (.inl (rfl : (-1 : Int) = -1))
    obtain ⟨snap, hmem, hindex, heq⟩ := hload
    have hindex : (s.raft.peers i).persister.lastIncludedIndex = snap.1 := hindex
    have hbytes : (s.raft.peers i).persister.readSnapshot ≠ [] := by
      obtain ⟨k, last, -, -, hdata⟩ := hencoded
      intro hnil
      have hdata : (s.raft.peers i).persister.readSnapshot = snapshotBytes k := hdata
      rw [hnil] at hdata
      cases hdata
    rw [if_neg hbytes]
    have heq : (s.crash1 i).ingestSnap i (s.raft.peers i).persister.readSnapshot (-1) =
      (s.crash1 i).load i snap := heq
    rw [heq]
    refine ⟨⟨h.mode, restarted hback rfl rfl ?_ rfl, hmaps.load i hmem hidle⟩,
      hsound'.load i (hmaps.snapshots snap hmem)⟩
    show Function.update (Function.update s.lastApplied i 0) i snap.1 =
      Function.update s.lastApplied i (s.raft.peers i).persister.lastIncludedIndex.toNat
    rw [Function.update_idem, hindex]
    rfl

end

theorem applierSnap (h : Serving s a) (hsound : Sound s a) {i : Fin n}
    (hs : s.applierSnap i (s.raft.incarnation i) = some s') : Serving s' a ∧ Sound s' a := by
  unfold Config.applierSnap at hs
  split at hs
  · cases hs
  · next hbusy =>
      obtain ⟨m, hm, hs⟩ := Option.bind_eq_some_iff.mp hs
      dsimp only at hs
      have hidle : s.compacting i = none := by simpa using hbusy
      have hmaps : Maps (s.took i (s.raft.incarnation i)) a :=
        ⟨h.maps.read, h.maps.snapshots, h.maps.compacting⟩
      have hsound' := hsound.took i (s.raft.incarnation i)
      rcases h.backed.next hm with ⟨hvalid, -, hencoded⟩ | ⟨hvalid, hcommand, hindex, hchosen⟩
      · rw [if_pos hvalid] at hs
        obtain ⟨snap, hmem, hindex, heq⟩ := ingestSnap_eq
          (s := s.took i (s.raft.incarnation i)) hencoded i (.inr rfl)
        rw [heq] at hs
        cases hs
        have hmsg : m.index = snap.1 := by rw [ApplyMsg.index, if_pos hvalid, hindex]
        exact ⟨⟨h.mode, h.took hm hmsg rfl rfl rfl rfl, hmaps.load i hmem hidle⟩,
          hsound'.load i (h.maps.snapshots snap hmem)⟩
      · rw [if_neg (by simp [hvalid]), if_pos hcommand] at hs
        cases hs
        have hindex : m.commandIndex = s.lastApplied i + 1 := hindex
        have hdecided := Decided.of_chosen hchosen hvalid
        have hprev : 1 < m.commandIndex → (s.logs i (m.commandIndex - 1)).isSome := by
          intro hlt
          have hread := h.maps.read i (s.lastApplied i) (by omega) (Nat.le_refl _)
          rwa [show m.commandIndex - 1 = (s.lastApplied i : Int) by omega]
        have hmsg : m.index = ((s.lastApplied i + 1 : Nat) : Int) := by
          rw [ApplyMsg.index, if_neg (by simp [hvalid]), hindex]
          rfl
        have hrecord := hsound'.record i hdecided
        rw [hsound'.applyCommand_eq h.backed.delivers.refines.inv hdecided hindex hprev]
        exact ⟨⟨h.mode, h.took hm hmsg rfl rfl rfl rfl, hmaps.advance hsound' hdecided hindex⟩,
          hrecord.logs, hrecord.checks, hrecord.findings, hrecord.failed⟩

end Serving

/-! ## Whole runs -/

/-- With snapshots, the steps of the cluster are not among those that the refinement of Raft
excludes. -/
def Refinable (s : Config n C) : TestAction n C → Prop
  | .raft act => s.snapshot = true →
      s.raft.VotesOnce act ∧ s.raft.SkipsPlaceholder act ∧ s.raft.InstallsAhead act
  | _ => True

instance (s : Config n C) : (act : TestAction n C) → Decidable (s.Refinable act)
  | .raft act => inferInstanceAs (Decidable (s.snapshot = true →
      s.raft.VotesOnce act ∧ s.raft.SkipsPlaceholder act ∧ s.raft.InstallsAhead act))
  | .applier .. | .compact .. | .start1 .. | .connect .. | .disconnect .. | .checkOneLeader
  | .nCommitted .. | .ask .. => isTrue trivial

/-- With snapshots, the reader of an instance that was killed reads no more. -/
def StopsReading (s : Config n C) : TestAction n C → Prop
  | .applier i inc => s.snapshot = true → inc = s.raft.incarnation i
  | _ => True

instance (s : Config n C) : (act : TestAction n C) → Decidable (s.StopsReading act)
  | .applier i inc => inferInstanceAs (Decidable (s.snapshot = true → inc = s.raft.incarnation i))
  | .raft .. | .compact .. | .start1 .. | .connect .. | .disconnect .. | .checkOneLeader
  | .nCommitted .. | .ask .. => isTrue trivial

structure Careful (s : Config n C) (act : TestAction n C) : Prop where
  cluster : s.Refinable act
  reader : s.StopsReading act

instance (s : Config n C) (act : TestAction n C) : Decidable (s.Careful act) :=
  decidable_of_iff (s.Refinable act ∧ s.StopsReading act)
    ⟨fun ⟨hc, hr⟩ => ⟨hc, hr⟩, fun ⟨hc, hr⟩ => ⟨hc, hr⟩⟩

/-- The tester, one of its readers and the cluster. -/
structure Accepted (s : Config n C) (a : AbsState n C) : Prop where
  sound : Sound s a
  readers : Plain s a ∨ Serving s a

namespace Accepted

section

omit [DecidableEq C]

theorem init (snapshot : Bool) : Accepted (init snapshot : Config n C) (State.init 0) where
  sound := sound_init snapshot
  readers := by
    cases snapshot with
    | false => exact .inl .init
    | true => exact .inr .init

theorem refines (h : Accepted s a) : Refines s.raft a := by
  rcases h.readers with hplain | hserving
  · exact hplain.delivers.refines
  · exact hserving.backed.delivers.refines

/-- Only the connections and the calls of a test have changed. -/
theorem told (h : Accepted s a) (connected : Fin n → Bool) (checks : List (Check n C))
    (findings : List (Finding n C)) (failed : Option (TestErr n C))
    (hsound : Sound { s.told checks findings failed with connected := connected } a) :
    Accepted { s.told checks findings failed with connected := connected } a where
  sound := hsound
  readers := by
    rcases h.readers with hp | hs
    · exact .inl ⟨hp.mode, hp.delivers, hp.uncompacted, hp.given, hp.idle, hp.read⟩
    · exact .inr ⟨hs.mode, hs.backed, hs.maps.read, hs.maps.snapshots, hs.maps.compacting⟩

theorem raft (h : Accepted s a) {act : Action n C} {raft : Cluster n C}
    (hcareful : s.Refinable (.raft act)) (hact : Offers act = true)
    (hs : s.raft.step act = some raft) : ∃ a', a.Ext a' ∧ Accepted { s with raft := raft } a' := by
  have hreceived : s.raft.Received act ∧ s.raft.NeverSnapshots act := by
    cases act with
    | snapshot i index data => cases hact
    | _ => exact ⟨trivial, trivial⟩
  have hmono : ∀ {a'}, a.Ext a' → Sound { s with raft := raft } a' := by
    intro a' hext
    have hold := h.sound.mono hext
    exact ⟨hold.logs, hold.checks, hold.findings, hold.failed⟩
  rcases h.readers with hplain | hserving
  · obtain ⟨a', hext, hplain'⟩ := hplain.cluster hreceived.2 hs
    exact ⟨a', hext, hmono hext, .inl hplain'⟩
  · obtain ⟨hvote, hskip, hahead⟩ := hcareful hserving.mode
    obtain ⟨a', hext, hserving'⟩ :=
      hserving.cluster ⟨hvote, hskip, hreceived.1, hahead⟩ hs hact
    exact ⟨a', hext, hmono hext, .inr hserving'⟩

theorem start1 (h : Accepted s a) (i : Fin n) :
    ∃ a', a.Ext a' ∧ Accepted (s.start1 i) a' := by
  rcases h.readers with hplain | hserving
  · obtain ⟨a', hext, hplain', hsound⟩ := hplain.start1 h.sound i
    exact ⟨a', hext, hsound, .inl hplain'⟩
  · obtain ⟨a', hext, hserving', hsound⟩ := hserving.start1 h.sound i
    exact ⟨a', hext, hsound, .inr hserving'⟩

theorem compact (h : Accepted s a) {i : Fin n} (hs : s.compact i = some s') :
    ∃ a', a.Ext a' ∧ Accepted s' a' := by
  rcases h.readers with hplain | hserving
  · unfold Config.compact at hs
    rw [hplain.idle i] at hs
    cases hs
  · obtain ⟨a', hext, hserving', hsound⟩ := hserving.compact h.sound hs
    exact ⟨a', hext, hsound, .inr hserving'⟩

/-- A test calls one of its checks. -/
theorem call (h : Accepted s a) {c : Check n C} (hc : c.Sound a) :
    Accepted { s with checks := s.checks ++ [c] } a := by
  refine h.told s.connected (s.checks ++ [c]) s.findings s.failed
    ⟨h.sound.logs, fun c' hc' => ?_, h.sound.findings, h.sound.failed⟩
  rcases List.mem_append.mp hc' with hold | hnew
  · exact h.sound.checks c' hold
  · rw [List.mem_singleton.mp hnew]
    exact hc

theorem connect (h : Accepted s a) (connected : Fin n → Bool) :
    Accepted { s with connected := connected } a :=
  h.told connected s.checks s.findings s.failed
    ⟨h.sound.logs, h.sound.checks, h.sound.findings, h.sound.failed⟩

end

theorem applier (h : Accepted s a) {i : Fin n} {inc : Nat}
    (hcareful : s.StopsReading (.applier i inc))
    (hs : s.move (.applier i inc) = some s') : Accepted s' a := by
  simp only [Config.move] at hs
  rcases h.readers with hplain | hserving
  · rw [hplain.mode, if_neg Bool.false_ne_true] at hs
    obtain ⟨hplain', hsound⟩ := hplain.applier h.sound hs
    exact ⟨hsound, .inl hplain'⟩
  · rw [hserving.mode, if_pos rfl, hcareful hserving.mode] at hs
    obtain ⟨hserving', hsound⟩ := hserving.applierSnap h.sound hs
    exact ⟨hsound, .inr hserving'⟩

theorem step (h : Accepted s a) {act : TestAction n C} (hcareful : s.Careful act)
    (hs : s.step act = some s') : ∃ a', a.Ext a' ∧ Accepted s' a' := by
  have hmove := move_of_step hs
  cases act with
  | applier i inc => exact ⟨a, .refl a, h.applier hcareful.reader hmove⟩
  | raft act =>
      simp only [Config.move] at hmove
      split at hmove
      · next hact =>
          obtain ⟨raft, hraft, rfl⟩ := Option.map_eq_some_iff.mp hmove
          exact h.raft hcareful.cluster hact hraft
      · cases hmove
  | compact i => exact h.compact hmove
  | start1 i =>
      cases hmove
      exact h.start1 i
  | connect i =>
      cases hmove
      exact ⟨a, .refl a, h.connect _⟩
  | disconnect i =>
      cases hmove
      exact ⟨a, .refl a, h.connect _⟩
  | checkOneLeader =>
      cases hmove
      exact ⟨a, .refl a, h.call ⟨.nil, fun p hp => by cases hp⟩⟩
  | nCommitted index =>
      cases hmove
      exact ⟨a, .refl a, h.call fun hpos => absurd hpos (Nat.lt_irrefl 0)⟩
  | ask k =>
      obtain ⟨checks, findings, failed, rfl, hsound⟩ := h.sound.ask h.refines hmove
      exact ⟨a, .refl a, h.told s.connected checks findings failed hsound⟩

theorem path (h : Accepted s a) (hp : Run.Path Config.step Careful s s') :
    ∃ a', a.Ext a' ∧ Accepted s' a' := by
  refine hp.invariant (P := fun s' => ∃ a', a.Ext a' ∧ Accepted s' a') ?_ ⟨a, .refl a, h⟩
  intro t act t' ⟨b, hext, hb⟩ hcareful hs
  obtain ⟨b', hext', hb'⟩ := hb.step hcareful hs
  exact ⟨b', hext.trans hext', hb'⟩

end Accepted

/-- Without snapshots there is nothing to be careful about. -/
theorem careful_path (hp : Run.Path step Run.always (init false : Config n C) s) :
    Run.Path step Careful (init false : Config n C) s := by
  refine (hp.strengthen (P := fun s => s.snapshot = false) ?_ ?_ rfl).1
  · intro t act t' hmode _ hs
    rw [step_snapshot hs, hmode]
  · intro t act t' hmode _ _
    have hnot : t.snapshot ≠ true := by simp [hmode]
    cases act with
    | raft act => exact ⟨fun hyes => absurd hyes hnot, trivial⟩
    | applier i inc => exact ⟨trivial, fun hyes => absurd hyes hnot⟩
    | _ => exact ⟨trivial, trivial⟩

/-- The tester without snapshots never finds two servers that have applied different commands
at one index, at whatever times it has looked, a command that was applied before the one
before it, or two leaders of one term: all it may complain about is that there is none. -/
theorem applier_accepts (hp : Run.Path step Run.always (init false : Config n C) s) :
    ∀ e ∈ s.failed, e = .noLeader := by
  obtain ⟨a, -, h⟩ := (Accepted.init false).path (careful_path hp)
  exact h.sound.failed

/-- Two servers deliver a command; a test asks who has applied it and who leads, and one of
the two starts again meanwhile. -/
def askedTwice : List (TestAction 3 Nat) :=
  Cluster.bothDeliver.map TestAction.raft ++
    [.applier 0 0, .applier 1 0, .nCommitted 1, .checkOneLeader, .ask 0, .ask 1, .start1 1,
     .ask 0, .ask 1, .ask 0, .ask 1, .ask 0, .ask 0]

theorem applier_accepts_askedTwice : ∃ s : Config 3 Nat,
    Run.Path step Run.always (init false) s ∧
    s.findings = [.committed 1 2 (some 7), .leader 0] ∧ ∀ e ∈ s.failed, e = .noLeader := by
  have hrun : (Run.exec step Run.always (init false : Config 3 Nat) askedTwice).map
      (fun s => s.findings) = some [.committed 1 2 (some 7), .leader 0] := by
    decide +kernel
  obtain ⟨s, hp, hs⟩ := Run.path_of_exec_map askedTwice _ hrun
  exact ⟨s, hp, hs, applier_accepts hp⟩

/-- Nine commands are committed and collected. -/
def nineCommitted : List (Action 3 Nat) :=
  Cluster.elected ++ ((List.range 9).map fun k => Action.start 0 (some k)) ++
    [.sendHeartbeat 0, .worker 0, .deliver 1, .receive 0, .apply 0]

/-- Server 0 has sent two commands when it is killed, and its reader has read one. -/
def readsOn : List (TestAction 3 Nat) :=
  nineCommitted.map TestAction.raft ++
    [.raft (.send 0), .applier 0 0, .raft (.send 0), .start1 0, .applier 0 0]

/-- The killed instance's reader comes with a command that the new instance, which starts
from nothing, does not expect, though the cluster takes no step that is excluded. -/
theorem readsOn_unexpected : ∃ s : Config 3 Nat, Run.Path step Refinable (init true) s ∧
    s.failed = some (.unexpected 0 1 2) := by
  have hrun : (Run.exec step Refinable (init true : Config 3 Nat) readsOn).map
      (fun s => s.failed) = some (some (.unexpected 0 1 2)) := by
    decide +kernel
  exact Run.path_of_exec_map readsOn _ hrun

end Config
end Raft
end Labs
