/-
Machine words as 64-bit vectors, and lists of words read as one bit string.
Nothing here names a particular data structure: every bit-packed structure of
the development is stated through `bitAt`.
-/
import Mathlib.Tactic

namespace Erigon

open List

/-- A 64-bit machine word. -/
abbrev Word := BitVec 64

/-- Bit `p` of a list of words, counted from the low bit of the first word.
Positions past the end read as zero. -/
def bitAt (words : List Word) (p : Nat) : Bool :=
  (words.getD (p / 64) 0#64).getLsbD (p % 64)

variable {words : List Word} {p width : Nat}

theorem bitAt_eq_getElem (hp : p / 64 < words.length) :
    bitAt words p = words[p / 64].getLsbD (p % 64) := by
  simp [bitAt, getD_eq_getElem?_getD, hp]

theorem bitAt_of_length_le (hp : 64 * words.length ≤ p) : bitAt words p = false := by
  have hnone : words[p / 64]? = none := by
    rw [getElem?_eq_none_iff]
    omega
  simp [bitAt, getD_eq_getElem?_getD, hnone]

theorem lt_of_bitAt (hp : bitAt words p = true) : p < 64 * words.length := by
  by_contra hge
  rw [bitAt_of_length_le (Nat.le_of_not_lt hge)] at hp
  exact Bool.false_ne_true hp

theorem bitAt_set {i : Nat} (hi : i < words.length) (word : Word) (p : Nat) :
    bitAt (words.set i word) p =
      if p / 64 = i then word.getLsbD (p % 64) else bitAt words p := by
  simp only [bitAt, getD_eq_getElem?_getD, getElem?_set]
  by_cases heq : p / 64 = i
  · simp [heq, hi]
  · simp [heq, Ne.symm heq]

@[simp] theorem bitAt_replicate_zero (n p : Nat) : bitAt (replicate n 0#64) p = false := by
  simp only [bitAt, getD_eq_getElem?_getD, getElem?_replicate]
  split <;> simp

/-- Two words agree when they have the same sixty-four bits. -/
theorem Word.ext_bits {left right : Word}
    (hbits : ∀ j < 64, left.getLsbD j = right.getLsbD j) : left = right :=
  BitVec.eq_of_getLsbD_eq hbits

/-- The value of a word is read off its low bits once the others are zero. -/
theorem Word.toNat_eq_of_bits {word : Word} {value : Nat} (hvalue : value < 2 ^ width)
    (hbits : ∀ j < 64, word.getLsbD j = (decide (j < width) && value.testBit j))
    (hwidth : width ≤ 64) : word.toNat = value := by
  apply Nat.eq_of_testBit_eq
  intro j
  rw [BitVec.testBit_toNat]
  by_cases hj : j < 64
  · rw [hbits j hj]
    by_cases hjw : j < width
    · simp [hjw]
    · have hsmall : value < 2 ^ j :=
        Nat.lt_of_lt_of_le hvalue
          (Nat.pow_le_pow_right (by decide) (Nat.le_of_not_lt hjw))
      simp [hjw, Nat.testBit_lt_two_pow hsmall]
  · have hsmall : value < 2 ^ j :=
      Nat.lt_of_lt_of_le hvalue
        (Nat.pow_le_pow_right (by decide) (by omega))
    rw [BitVec.getLsbD_of_ge word j (by omega), Nat.testBit_lt_two_pow hsmall]

theorem Word.getLsbD_of_toNat_lt {word : Word} {k : Nat} (hword : word.toNat < 2 ^ width)
    (hk : width ≤ k) : word.getLsbD k = false := by
  rw [← BitVec.testBit_toNat]
  exact Nat.testBit_lt_two_pow
    (Nat.lt_of_lt_of_le hword (Nat.pow_le_pow_right (by decide) hk))

/-- The low `width` ones, as the subtraction the code writes. -/
theorem getLsbD_lowMask (hwidth : width < 64) (j : Nat) :
    ((1#64 <<< width) - 1#64).getLsbD j = decide (j < width) := by
  have hpow : (2 : Nat) ^ width < 2 ^ 64 :=
    Nat.pow_lt_pow_right (by decide) hwidth
  have hpos : 0 < (2 : Nat) ^ width := Nat.two_pow_pos width
  have hval : ((1#64 <<< width) - 1#64).toNat = 2 ^ width - 1 := by
    rw [BitVec.toNat_sub, BitVec.toNat_shiftLeft]
    simp only [BitVec.toNat_ofNat, Nat.shiftLeft_eq]
    omega
  rw [← BitVec.testBit_toNat, hval, Nat.testBit_two_pow_sub_one]

theorem toNat_and_lowMask_lt (hwidth : width < 64) (word : Word) :
    (word &&& ((1#64 <<< width) - 1#64)).toNat < 2 ^ width := by
  apply Nat.lt_pow_two_of_testBit
  intro j hj
  rw [BitVec.testBit_toNat, BitVec.getLsbD_and, getLsbD_lowMask hwidth]
  simp [Nat.not_lt.mpr hj]

end Erigon
