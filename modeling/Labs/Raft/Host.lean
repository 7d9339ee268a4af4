import Labs.Raft.Provenance

/-!
# A service on top of a cluster

What the key/value server and the tester have in common: each server of the service takes
the messages that its peer puts on the apply channel, one after the other, counts the index
it has applied, gives its peer snapshots, and starts again from the snapshot on disk when
its peer does.  `Backed` says that the two sides fit together, and what comes next on a
channel then is a snapshot that was made, above what the server has applied, or the command
after that.

The bytes of a snapshot are represented by its number among those that were made.
-/

namespace Labs
namespace Raft

variable {n : Nat} {C : Type}

def snapshotBytes (k : Nat) : Bytes := List.replicate (k + 1) 0

/-- The number of a snapshot; there is none in no bytes. -/
def snapshotNumber : Bytes → Option Nat
  | [] => none
  | _ :: rest => some rest.length

theorem snapshotNumber_snapshotBytes (k : Nat) : snapshotNumber (snapshotBytes k) = some k := by
  simp [snapshotNumber, snapshotBytes, List.replicate_succ]

/-- The bytes are those of a snapshot that was made, and the index is its own. -/
def Encoded (snapshots : List Nat) (index : Int) (data : Bytes) : Prop :=
  ∃ k last : Nat, snapshots[k]? = some last ∧ index = last ∧ data = snapshotBytes k

theorem Encoded.mono {snapshots snapshots' : List Nat} {index : Int} {data : Bytes}
    (h : Encoded snapshots index data) (hle : snapshots <+: snapshots') :
    Encoded snapshots' index data := by
  obtain ⟨k, last, hk, hrest⟩ := h
  obtain ⟨more, rfl⟩ := hle
  have hlt := (List.getElem?_eq_some_iff.mp hk).1
  exact ⟨k, last, by rw [List.getElem?_append_left hlt, hk], hrest⟩

/-- A cluster and the side of its service: how many messages each server has taken from
its channel, the index it has applied, and the index of every snapshot that was made. -/
structure Host (n : Nat) (C : Type) where
  raft : Cluster n C
  taken : Fin n → Nat
  applied : Fin n → Nat
  snapshots : List Nat

namespace Host

variable {h : Host n C} {a : AbsState n C}

def init : Host n C where
  raft := .init
  taken := fun _ => 0
  applied := fun _ => 0
  snapshots := []

/-- What the peer of server `i` has put on the channel since it was made. -/
def channel (h : Host n C) (i : Fin n) : List (ApplyMsg C) :=
  h.raft.applyCh i (h.raft.incarnation i)

/-- The index that server `i` has loaded before its peer was made. -/
def base (h : Host n C) (i : Fin n) : Int := h.raft.loaded i (h.raft.incarnation i)

/-- Server `i` takes a message, and has applied what comes up to the index. -/
def take (h : Host n C) (i : Fin n) (index : Nat) : Host n C :=
  { h with
    taken := Function.update h.taken i (h.taken i + 1)
    applied := Function.update h.applied i index }

/-- Server `i` and its peer start again from the disk. -/
def restart (h : Host n C) (i : Fin n) : Host n C where
  raft := h.raft.crash i
  taken := Function.update h.taken i 0
  applied := Function.update h.applied i (h.raft.peers i).persister.lastIncludedIndex.toNat
  snapshots := h.snapshots

/-- The cluster replicates a log, every snapshot in it is one that was made, and each
server has applied what it has taken from its channel. -/
structure Backed (h : Host n C) (a : AbsState n C) : Prop where
  delivers : h.raft.Delivers a
  given : ∃ acts, h.raft.Provenance acts ∧ ∀ i index data,
    Action.snapshot i index data ∈ acts → Encoded h.snapshots index data
  taken : ∀ i, h.taken i ≤ (h.channel i).length
  applied : ∀ i, lastIndex (h.base i) ((h.channel i).take (h.taken i)) = h.applied i

namespace Backed

theorem init : Backed (init : Host n C) (Consensus.State.init 0) where
  delivers := Cluster.delivers_init
  given := ⟨[], .init, fun _ _ _ hmem => by cases hmem⟩
  taken := fun _ => Nat.le_refl _
  applied := fun _ => rfl

/-- The cluster moves, on its own or because the service calls it. -/
theorem cluster (hb : Backed h a) {act : Action n C} {raft : Cluster n C}
    (hok : h.raft.Ordered act) (hs : h.raft.step act = some raft) (hcrash : ∀ i, act ≠ .crash i)
    (hgiven : ∀ i index data, act = .snapshot i index data → Encoded h.snapshots index data) :
    ∃ a', a.Ext a' ∧ Backed { h with raft := raft } a' := by
  obtain ⟨a', hsteps, hd⟩ := hb.delivers.step hok hs
  obtain ⟨hinc, hloaded, hch⟩ := Cluster.channels_of_step hs hcrash
  have hbase : ∀ i, ({ h with raft := raft } : Host n C).base i = h.base i := by
    intro i
    unfold base
    rw [hinc, hloaded]
  have hchannel : ∀ i, h.channel i <+: ({ h with raft := raft } : Host n C).channel i := by
    intro i
    unfold channel
    rw [hinc]
    exact hch i _
  refine ⟨a', (hb.delivers.refines.inv.steps hsteps).2, hd, ?_, fun i => ?_, fun i => ?_⟩
  · obtain ⟨acts, hprov, hencoded⟩ := hb.given
    refine ⟨acts ++ [act], hprov.step hs, fun i index data hmem => ?_⟩
    rcases List.mem_append.mp hmem with hold | hlast
    · exact hencoded i index data hold
    · exact hgiven i index data (List.mem_singleton.mp hlast).symm
  · exact (hb.taken i).trans (hchannel i).length_le
  · obtain ⟨more, hmore⟩ := hchannel i
    rw [hbase, ← hmore]
    show lastIndex _ ((h.channel i ++ more).take (h.taken i)) = _
    rw [List.take_append_of_le_length (hb.taken i)]
    exact hb.applied i

/-- The service makes a snapshot. -/
theorem made (hb : Backed h a) {snapshots : List Nat} (hsnap : h.snapshots <+: snapshots) :
    Backed { h with snapshots := snapshots } a := by
  refine ⟨hb.delivers, ?_, hb.taken, hb.applied⟩
  obtain ⟨acts, hprov, hencoded⟩ := hb.given
  exact ⟨acts, hprov, fun i index data hmem => (hencoded i index data hmem).mono hsnap⟩

/-- The service has applied whatever index it may compact. -/
theorem ordered_snapshot (hb : Backed h a) {i : Fin n} {index : Int} (hle : index ≤ h.applied i)
    (data : Bytes) : h.raft.Ordered (.snapshot i index data) := by
  refine ⟨fun r hr => (by cases hr), trivial, ?_, fun r hr => (by cases hr)⟩
  rw [← hb.applied i] at hle
  rcases lastIndex_mem (h.base i) ((h.channel i).take (h.taken i)) with heq | ⟨msg, hmsg, heq⟩
  · rw [heq] at hle
    exact .inl hle
  · rw [heq] at hle
    exact .inr ⟨msg, List.mem_of_mem_take hmsg, hle⟩

/-- What is on the disk of a peer: nothing, or a snapshot that was made. -/
theorem disk (hb : Backed h a) (i : Fin n) :
    (h.raft.peers i).persister.lastIncludedIndex = 0 ∧ (h.raft.peers i).persister.snapshot = [] ∨
      Encoded h.snapshots (h.raft.peers i).persister.lastIncludedIndex
        (h.raft.peers i).persister.snapshot := by
  obtain ⟨acts, hprov, hencoded⟩ := hb.given
  refine (hprov.disk i).imp_right ?_
  rintro ⟨k, hmem⟩
  exact hencoded k _ _ hmem

theorem disk_nonneg (hb : Backed h a) (i : Fin n) :
    0 ≤ (h.raft.peers i).persister.lastIncludedIndex := by
  rcases hb.disk i with ⟨hzero, -⟩ | ⟨k, last, -, hlast, -⟩ <;> omega

theorem restart (hb : Backed h a) (i : Fin n) :
    ∃ a', a.Ext a' ∧ Backed (h.restart i) a' := by
  obtain ⟨acts, hprov, hencoded⟩ := hb.given
  have hs : h.raft.step (.crash i) = some (h.raft.crash i) := rfl
  have hok : h.raft.Ordered (.crash i) :=
    ⟨fun r hr => (by cases hr), trivial, trivial, fun r hr => (by cases hr)⟩
  obtain ⟨a', hsteps, hd⟩ := hb.delivers.step hok hs
  have hself : (h.restart i).channel i = [] ∧ (h.restart i).base i = (h.restart i).applied i := by
    constructor
    · show (h.raft.crash i).applyCh i (Function.update h.raft.incarnation i _ i) = []
      rw [Function.update_self, Cluster.crash_applyCh_of_ne_incarnation (by omega)]
      exact hb.delivers.applied.future i _ (Nat.lt_succ_self _)
    · show Function.update h.raft.loaded i _ i (Function.update h.raft.incarnation i _ i) =
        ((Function.update h.applied i _ i : Nat) : Int)
      simp only [Function.update_self]
      rw [Peer.make_lastIncludedIndex, Int.toNat_of_nonneg (hb.disk_nonneg i)]
  have hother : ∀ j ≠ i, (h.restart i).channel j = h.channel j ∧
      (h.restart i).base j = h.base j := by
    intro j hj
    constructor
    · show (h.raft.crash i).applyCh j (Function.update h.raft.incarnation i _ j) = _
      rw [Function.update_of_ne hj, Cluster.crash_applyCh_of_ne hj]
      rfl
    · show Function.update h.raft.loaded i _ j (Function.update h.raft.incarnation i _ j) = _
      rw [Function.update_of_ne hj, Function.update_of_ne hj]
      rfl
  refine ⟨a', (hb.delivers.refines.inv.steps hsteps).2, hd, ?_, fun j => ?_, fun j => ?_⟩
  · refine ⟨acts ++ [.crash i], hprov.step hs, fun j index data hmem => ?_⟩
    rcases List.mem_append.mp hmem with hold | hnew
    · exact hencoded j index data hold
    · cases List.mem_singleton.mp hnew
  · show Function.update h.taken i 0 j ≤ _
    by_cases hj : j = i
    · rw [hj, Function.update_self]
      exact Nat.zero_le _
    · rw [Function.update_of_ne hj, (hother j hj).1]
      exact hb.taken j
  · by_cases hj : j = i
    · rw [hj, hself.1, hself.2, List.take_nil]
      rfl
    · rw [(hother j hj).1, (hother j hj).2]
      show lastIndex _ ((h.channel j).take (Function.update h.taken i 0 j)) =
        ((Function.update h.applied i _ j : Nat) : Int)
      rw [Function.update_of_ne hj, Function.update_of_ne hj]
      exact hb.applied j

/-- What a server may find next on its channel. -/
theorem next (hb : Backed h a) {i : Fin n} {msg : ApplyMsg C}
    (hmsg : (h.channel i)[h.taken i]? = some msg) :
    msg.snapshotValid = true ∧ h.applied i < msg.snapshotIndex ∧
        Encoded h.snapshots msg.snapshotIndex msg.snapshot ∨
      msg.snapshotValid = false ∧ msg.commandValid = true ∧
        msg.commandIndex = h.applied i + 1 ∧ Chosen a msg := by
  have hmem : msg ∈ h.raft.applyCh i (h.raft.incarnation i) := List.mem_of_getElem? hmsg
  have horder := hb.delivers.applied.past i (h.raft.incarnation i)
  have hnext := horder.next hmsg
  have hlast : lastIndex (h.raft.loaded i (h.raft.incarnation i))
      ((h.raft.applyCh i (h.raft.incarnation i)).take (h.taken i)) = h.applied i := hb.applied i
  rw [hlast] at hnext
  rcases hnext with ⟨hvalid, hlt⟩ | ⟨hvalid, hcommand, hindex⟩
  · refine .inl ⟨hvalid, hlt, ?_⟩
    obtain ⟨acts, hprov, hencoded⟩ := hb.given
    rcases hprov.messages.applyCh i _ msg hmem hvalid with ⟨hzero, -⟩ | ⟨j, hacts⟩
    · omega
    · exact hencoded j _ _ hacts
  · exact .inr ⟨hvalid, hcommand, hindex, hb.delivers.agreed.applyCh i _ msg hmem⟩

/-- Server `i` has taken the message, and has applied it. -/
theorem take (hb : Backed h a) {i : Fin n} {msg : ApplyMsg C}
    (hmsg : (h.channel i)[h.taken i]? = some msg) {index : Nat} (hindex : msg.index = index) :
    Backed (h.take i index) a := by
  have hlt := (List.getElem?_eq_some_iff.mp hmsg).1
  refine ⟨hb.delivers, hb.given, fun j => ?_, fun j => ?_⟩
  · show Function.update h.taken i (h.taken i + 1) j ≤ (h.channel j).length
    rw [Function.update_apply]
    split
    · next hj =>
        rw [hj]
        exact hlt
    · exact hb.taken j
  · show lastIndex (h.base j) ((h.channel j).take (Function.update h.taken i _ j)) =
      ((Function.update h.applied i index j : Nat) : Int)
    by_cases hj : j = i
    · rw [hj, Function.update_self, Function.update_self, lastIndex_take_succ (h.base i) hmsg,
        hindex]
    · rw [Function.update_of_ne hj, Function.update_of_ne hj]
      exact hb.applied j

end Backed
end Host
end Raft
end Labs
