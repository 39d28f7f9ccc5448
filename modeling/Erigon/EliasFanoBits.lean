/-
Bit-slice primitives shared by the Elias-Fano encodings: the monotone writers
`set` and `setBits`, the unaligned window read, and the jump tables that
locate every 256th set bit of the upper-bits array.
-/
import Erigon.BitPositions
import Erigon.Loops

namespace Erigon

open BitVec

/-! ### Writers -/

variable (bits : List Word)

/-- `set`: switch on one bit. -/
def EliasFano.set (pos : Nat) : Option (List Word) := do
  let word ← bits[pos / 64]?
  return bits.set (pos / 64) (word ||| (1#64 <<< (pos % 64)))

/-- `setBits` assumes that bits are set in monotonic order, so that the masking
of the second word is skipped. -/
def EliasFano.setBits (start width : Nat) (value : Word) :
    Option (List Word) := do
  let idx64 := start / 64
  let shift := start % 64
  let mask := ((1#64 <<< width) - 1#64) <<< shift
  let word ← bits[idx64]?
  let bits := bits.set idx64 ((word &&& ~~~mask) ||| (value <<< shift))
  if 64 < shift + width then
    -- changes two 64-bit words
    if idx64 + 1 < bits.length then
      return bits.set (idx64 + 1) (value >>> (64 - shift))
    else none
  else return bits

/-- The guarded write of an element's low part: nothing is stored at width
zero. -/
def EliasFano.setLower (start width : Nat) (mask : Word) (x : Nat) :
    Option (List Word) :=
  if width ≠ 0 then EliasFano.setBits bits start width (BitVec.ofNat 64 x &&& mask)
  else some bits

/-- Sixty-four bits from position `pos`, the second word being touched only
when the position is not word aligned. -/
def EliasFano.window (pos : Nat) : Option Word := do
  let idx64 := pos / 64
  let shift := pos % 64
  let word ← bits[idx64]?
  if 0 < shift then
    let next ← bits[idx64 + 1]?
    return (word >>> shift) ||| (next <<< (64 - shift))
  else return word >>> shift

variable {bits : List Word}

theorem EliasFano.set_spec {pos : Nat} (hpos : pos < 64 * bits.length) :
    ∃ bits', EliasFano.set bits pos = some bits' ∧ bits'.length = bits.length ∧
      ∀ p, bitAt bits' p = (bitAt bits p || decide (p = pos)) := by
  have hidx : pos / 64 < bits.length := by omega
  refine ⟨_, by simp [EliasFano.set, hidx]; rfl, by simp, ?_⟩
  intro p
  rw [bitAt_set hidx]
  by_cases hword : p / 64 = pos / 64
  · rw [if_pos hword, getLsbD_or, getLsbD_shiftLeft, bitAt_eq_getElem (by omega)]
    simp only [hword]
    by_cases hp : p = pos
    · subst hp
      simp [Nat.mod_lt]
    · have hmod : p % 64 ≠ pos % 64 := by omega
      by_cases hlt : p % 64 < pos % 64
      · simp [hp, hlt]
      · have hgap : p % 64 - pos % 64 ≠ 0 := by omega
        simp [hp, getLsbD_one, hgap]
  · have hp : p ≠ pos := fun heq => hword (by rw [heq])
    simp [hword, hp]

/-- Switching on the bit of element `k` after those of its predecessors. -/
theorem EliasFano.set_next {place : Nat → Nat} {k : Nat}
    (hbits : ∀ p, bitAt bits p = true ↔ ∃ i < k, place i = p) (hroom : place k < 64 * bits.length) :
    ∃ bits', EliasFano.set bits (place k) = some bits' ∧ bits'.length = bits.length ∧
      ∀ p, bitAt bits' p = true ↔ ∃ i < k + 1, place i = p := by
  obtain ⟨bits', hset, hlength, hbits'⟩ := EliasFano.set_spec hroom
  refine ⟨bits', hset, hlength, fun p => ?_⟩
  rw [hbits', Bool.or_eq_true, hbits, decide_eq_true_eq]
  constructor
  · rintro (⟨i, hik, rfl⟩ | rfl)
    · exact ⟨i, Nat.lt_succ_of_lt hik, rfl⟩
    · exact ⟨k, Nat.lt_succ_self k, rfl⟩
  · rintro ⟨i, hik, rfl⟩
    rcases Nat.lt_succ_iff_lt_or_eq.mp hik with hlt | rfl
    · exact .inl ⟨i, hlt, rfl⟩
    · exact .inr rfl

/-- Writing a field behind everything written so far. -/
theorem EliasFano.setBits_spec {start width : Nat} {value : Word} (hwidth : 0 < width)
    (hwidth64 : width < 64) (hend : start + width ≤ 64 * bits.length)
    (hvalue : value.toNat < 2 ^ width) (hclear : ∀ p, start ≤ p → bitAt bits p = false) :
    ∃ bits', EliasFano.setBits bits start width value = some bits' ∧
      bits'.length = bits.length ∧
      ∀ p, bitAt bits' p =
        if start ≤ p ∧ p < start + width then value.getLsbD (p - start)
        else bitAt bits p := by
  have hidx : start / 64 < bits.length := by omega
  have hhigh : ∀ k, width ≤ k → value.getLsbD k = false := fun k hk =>
    Word.getLsbD_of_toNat_lt hvalue hk
  -- The first word keeps what lies below `start` and takes the field's low part.
  have hfirst : ∀ p, p / 64 = start / 64 →
      ((bits[start / 64] &&& ~~~(((1#64 <<< width) - 1#64) <<< (start % 64))) |||
        (value <<< (start % 64))).getLsbD (p % 64) =
      if start ≤ p ∧ p < start + width then value.getLsbD (p - start)
      else bitAt bits p := by
    intro p hp
    have hold : bits[start / 64].getLsbD (p % 64) = bitAt bits p := by
      rw [bitAt_eq_getElem (by omega)]
      simp only [hp]
    rw [getLsbD_or, getLsbD_and, hold, getLsbD_shiftLeft]
    by_cases hbelow : p < start
    · have hmod : p % 64 < start % 64 := by omega
      have hlt : p % 64 < 64 := by omega
      simp [hmod, hlt, Nat.not_le.mpr hbelow]
    · have hmod : ¬ p % 64 < start % 64 := by omega
      have hlt : p % 64 < 64 := by omega
      have hgap : p % 64 - start % 64 = p - start := by omega
      have hle : start ≤ p := Nat.le_of_not_lt hbelow
      rw [hclear p hle, hgap]
      by_cases hin : p < start + width
      · simp [hmod, hlt, hle, hin]
      · simp [hin, hhigh (p - start) (by omega)]
  by_cases hspill : 64 < start % 64 + width
  · have hnext : start / 64 + 1 < bits.length := by omega
    refine ⟨_, by simp [EliasFano.setBits, hidx, hspill, hnext]; rfl, by simp, ?_⟩
    intro p
    rw [bitAt_set (by simpa using hnext), bitAt_set hidx]
    by_cases hsecond : p / 64 = start / 64 + 1
    · rw [if_pos hsecond, getLsbD_ushiftRight,
        show 64 - start % 64 + p % 64 = p - start by omega]
      by_cases hin : p < start + width
      · rw [if_pos ⟨by omega, hin⟩]
      · rw [if_neg (fun h => hin h.2), hhigh _ (by omega), hclear p (by omega)]
    · rw [if_neg hsecond]
      by_cases hword : p / 64 = start / 64
      · rw [if_pos hword, hfirst p hword]
      · rw [if_neg hword, if_neg (by omega)]
  · refine ⟨_, by simp [EliasFano.setBits, hidx, hspill]; rfl, by simp, ?_⟩
    intro p
    rw [bitAt_set hidx]
    by_cases hword : p / 64 = start / 64
    · rw [if_pos hword, hfirst p hword]
    · rw [if_neg hword, if_neg (by omega)]

/-- Storing the low part of a number behind everything written so far. -/
theorem EliasFano.setLower_spec {start width x : Nat} (hwidth : width < 64)
    (hend : start + width ≤ 64 * bits.length) (hclear : ∀ p, start ≤ p → bitAt bits p = false) :
    ∃ bits', EliasFano.setLower bits start width ((1#64 <<< width) - 1#64) x =
        some bits' ∧
      bits'.length = bits.length ∧
      ∀ p, bitAt bits' p =
        if start ≤ p ∧ p < start + width then x.testBit (p - start)
        else bitAt bits p := by
  by_cases hzero : width = 0
  · subst hzero
    refine ⟨bits, by simp [EliasFano.setLower], rfl, fun p => ?_⟩
    rw [if_neg (by omega)]
  · have hbits : ∀ j, (BitVec.ofNat 64 x &&& ((1#64 <<< width) - 1#64)).getLsbD j =
        (decide (j < width) && x.testBit j) := by
      intro j
      rw [BitVec.getLsbD_and, getLsbD_lowMask hwidth, BitVec.getLsbD_ofNat]
      by_cases hj : j < width
      · simp [hj, show j < 64 by omega]
      · simp [hj]
    obtain ⟨bits', hset, hlength, hfield⟩ := EliasFano.setBits_spec
      (Nat.pos_of_ne_zero hzero) hwidth hend (toNat_and_lowMask_lt hwidth _) hclear
    refine ⟨bits', by rw [EliasFano.setLower, if_pos hzero]; exact hset, hlength, ?_⟩
    intro p
    rw [hfield, hbits]
    by_cases hin : start ≤ p ∧ p < start + width
    · rw [if_pos hin, if_pos hin, decide_eq_true (by omega), Bool.true_and]
    · rw [if_neg hin, if_neg hin]

theorem EliasFano.window_spec {pos : Nat} (hidx : pos / 64 < bits.length)
    (hnext : 0 < pos % 64 → pos / 64 + 1 < bits.length) :
    ∃ word, EliasFano.window bits pos = some word ∧
      ∀ j < 64, word.getLsbD j = bitAt bits (pos + j) := by
  by_cases hshift : 0 < pos % 64
  · have hpos := hnext hshift
    refine ⟨_, by simp [EliasFano.window, hidx, hpos, hshift]; rfl, ?_⟩
    intro j hj
    rw [getLsbD_or, getLsbD_ushiftRight, getLsbD_shiftLeft]
    by_cases hlow : pos % 64 + j < 64
    · have hdiv : (pos + j) / 64 = pos / 64 := by omega
      have hmod : (pos + j) % 64 = pos % 64 + j := by omega
      have hsmall : j < 64 - pos % 64 := by omega
      rw [bitAt_eq_getElem (by omega)]
      simp [hdiv, hmod, hsmall]
    · have hdiv : (pos + j) / 64 = pos / 64 + 1 := by omega
      have hmod : (pos + j) % 64 = j - (64 - pos % 64) := by omega
      have hlarge : ¬ j < 64 - pos % 64 := by omega
      rw [bitAt_eq_getElem (by omega), getLsbD_of_ge _ _ (by omega)]
      simp [hdiv, hmod, hlarge, hj]
  · refine ⟨_, by simp [EliasFano.window, hidx, hshift]; rfl, ?_⟩
    intro j hj
    have hdiv : (pos + j) / 64 = pos / 64 := by omega
    have hmod : (pos + j) % 64 = pos % 64 + j := by omega
    rw [getLsbD_ushiftRight, bitAt_eq_getElem (by omega)]
    simp [hdiv, hmod]

end Erigon
