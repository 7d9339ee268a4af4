import Mathlib.Data.List.Basic
import Mathlib.Data.List.GetD

/-!
# Bit sets

The bit sets of the checker: words of 64 bits, with position `p` at bit `p % 64` of word
`p / 64`.  An index beyond the words is a panic, `none`.  The operations are those of a set
of positions, and two bit sets of one length with the same positions are equal; this is
what makes a bit set, with its hash, a key of the checker's cache.
-/

namespace Labs
namespace Porcupine

abbrev Bitset := List UInt64

namespace Bitset

def newBitset (bits : Nat) : Bitset :=
  let extra := if bits % 64 ≠ 0 then 1 else 0
  List.replicate (bits / 64 + extra) 0

def bitsetIndex (pos : Nat) : Nat × Nat := (pos / 64, pos % 64)

def bit (minor : Nat) : UInt64 := 1 <<< minor.toUInt64

def set (b : Bitset) (pos : Nat) : Option Bitset :=
  let (major, minor) := bitsetIndex pos
  b[major]?.map fun v => List.set b major (v ||| bit minor)

def clear (b : Bitset) (pos : Nat) : Option Bitset :=
  let (major, minor) := bitsetIndex pos
  b[major]?.map fun v => List.set b major (v &&& ~~~ bit minor)

def onesCount64 (v : UInt64) : Nat :=
  (List.range 64).countP fun i => v.toBitVec.getLsbD i

def popcnt (b : Bitset) : Nat := b.foldl (fun total v => total + onesCount64 v) 0

def hash (b : Bitset) : UInt64 := b.foldl (fun hash v => hash ^^^ v) b.popcnt.toUInt64

def equals (b b2 : Bitset) : Bool :=
  if b.length ≠ b2.length then false
  else (List.range b.length).all fun i => b[i]? = b2[i]?

/-- The position is in the set. -/
def Mem (b : Bitset) (pos : Nat) : Prop :=
  ∃ v, b[pos / 64]? = some v ∧ v.toBitVec.getLsbD (pos % 64) = true

theorem getLsbD_bit {minor j : Nat} (h : minor < 64) :
    (bit minor).toBitVec.getLsbD j = decide (j = minor) := by
  have hshift : (minor.toUInt64.toBitVec % 64).toNat = minor := by
    have hnat : minor.toUInt64.toNat = minor :=
      UInt64.toNat_ofNat_of_lt' (by simp only [UInt64.size]; omega)
    simp only [BitVec.toNat_umod, UInt64.toNat_toBitVec, hnat,
      show (64 : BitVec 64).toNat = 64 from rfl]
    omega
  simp only [bit, UInt64.toBitVec_shiftLeft, BitVec.shiftLeft_eq', BitVec.getLsbD_shiftLeft, hshift]
  by_cases hj : j = minor
  · subst hj
    simp [h]
  · simp [hj]
    omega

theorem length_newBitset (bits : Nat) : bits ≤ 64 * (newBitset bits).length := by
  rw [newBitset, List.length_replicate]
  split <;> omega

theorem not_mem_newBitset (bits pos : Nat) : ¬ (newBitset bits).Mem pos := by
  rintro ⟨v, hv, hbit⟩
  rw [newBitset] at hv
  rw [List.eq_of_mem_replicate (List.mem_of_getElem? hv)] at hbit
  simp at hbit

/-- One word is replaced: the other positions do not change. -/
theorem mem_set_word {b : Bitset} {major : Nat} {v v' : UInt64} (hv : b[major]? = some v)
    (q : Nat) :
    Mem (List.set b major v') q ↔
      if q / 64 = major then v'.toBitVec.getLsbD (q % 64) = true else b.Mem q := by
  have hlt := (List.getElem?_eq_some_iff.mp hv).1
  unfold Mem
  by_cases hq : q / 64 = major
  · rw [if_pos hq, hq, List.getElem?_set_self hlt]
    simp
  · rw [if_neg hq, List.getElem?_set_ne (Ne.symm hq)]

theorem set_eq_some {b : Bitset} {pos : Nat} (h : pos < 64 * b.length) : ∃ b', b.set pos = some b' ∧
    b'.length = b.length ∧ ∀ q, b'.Mem q ↔ q = pos ∨ b.Mem q := by
  obtain ⟨v, hv⟩ : ∃ v, b[pos / 64]? = some v := ⟨_, List.getElem?_eq_getElem (by omega)⟩
  refine ⟨List.set b (pos / 64) (v ||| bit (pos % 64)), by simp [set, bitsetIndex, hv],
    List.length_set, fun q => ?_⟩
  rw [mem_set_word hv]
  by_cases hq : q / 64 = pos / 64
  · rw [if_pos hq]
    have hmem : b.Mem q ↔ v.toBitVec.getLsbD (q % 64) = true := by simp [Mem, hq, hv]
    have hpos : q % 64 = pos % 64 ↔ q = pos := by omega
    rw [hmem, UInt64.toBitVec_or, BitVec.getLsbD_or, getLsbD_bit (by omega)]
    simp [hpos, or_comm]
  · rw [if_neg hq]
    have hne : q ≠ pos := fun h => hq (by rw [h])
    simp [hne]

theorem clear_eq_some {b : Bitset} {pos : Nat} (h : pos < 64 * b.length) :
    ∃ b', b.clear pos = some b' ∧ b'.length = b.length ∧ ∀ q, b'.Mem q ↔ q ≠ pos ∧ b.Mem q := by
  obtain ⟨v, hv⟩ : ∃ v, b[pos / 64]? = some v := ⟨_, List.getElem?_eq_getElem (by omega)⟩
  refine ⟨List.set b (pos / 64) (v &&& ~~~ bit (pos % 64)), by simp [clear, bitsetIndex, hv],
    List.length_set, fun q => ?_⟩
  rw [mem_set_word hv]
  by_cases hq : q / 64 = pos / 64
  · rw [if_pos hq]
    have hmem : b.Mem q ↔ v.toBitVec.getLsbD (q % 64) = true := by simp [Mem, hq, hv]
    have hpos : q % 64 = pos % 64 ↔ q = pos := by omega
    have hlt : q % 64 < 64 := by omega
    rw [hmem, UInt64.toBitVec_and, BitVec.getLsbD_and, UInt64.toBitVec_not, BitVec.getLsbD_not,
      getLsbD_bit (by omega)]
    simp [hpos, hlt, and_comm]
  · rw [if_neg hq]
    have hne : q ≠ pos := fun h => hq (by rw [h])
    simp [hne]

theorem ext {b b' : Bitset} (hlen : b.length = b'.length) (h : ∀ q, b.Mem q ↔ b'.Mem q) :
    b = b' := by
  refine List.ext_getElem hlen fun i hi hi' => ?_
  apply UInt64.toBitVec_inj.mp
  apply BitVec.eq_of_getLsbD_eq
  intro j hj
  have hdiv : (64 * i + j) / 64 = i := by omega
  have hmod : (64 * i + j) % 64 = j := by omega
  have hq := h (64 * i + j)
  simp only [Mem, hdiv, hmod, List.getElem?_eq_getElem hi, List.getElem?_eq_getElem hi',
    Option.some.injEq, exists_eq_left'] at hq
  exact Bool.eq_iff_iff.mpr hq

theorem equals_iff {b b' : Bitset} : b.equals b' = true ↔ b = b' := by
  constructor
  · intro h
    unfold equals at h
    split at h
    · cases h
    · next hlen =>
        have hall : ∀ i < b.length, b[i]? = b'[i]? := by simpa using h
        refine List.ext_getElem? fun i => ?_
        by_cases hi : i < b.length
        · exact hall i hi
        · rw [List.getElem?_eq_none (by omega), List.getElem?_eq_none (by omega)]
  · rintro rfl
    simp [equals]

end Bitset
end Porcupine
end Labs
