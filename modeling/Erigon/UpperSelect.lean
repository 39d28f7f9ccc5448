/-
Select queries on an upper-bits array: the jump table leads to the block of an
element, a word scan to its word, and the word select to its bit.
-/
import Erigon.JumpTable
import Erigon.Select64

namespace Erigon

open BitVec

/-- All ones from bit `shift` on, as the readers mask a word. -/
def onesFrom (shift : Nat) : Word :=
  0xffffffffffffffff#64 <<< shift

theorem getLsbD_onesFrom (shift : Nat) {j : Nat} (hj : j < 64) :
    (onesFrom shift).getLsbD j = decide (shift ≤ j) := by
  have hones : (0xffffffffffffffff#64) = allOnes 64 := by decide
  rw [onesFrom, hones, getLsbD_shiftLeft, getLsbD_allOnes]
  by_cases hle : shift ≤ j
  · simp [hle, hj, Nat.not_lt.mpr hle]
    omega
  · simp [hle, Nat.lt_of_not_le hle]

/-- The word that holds element `i`, its remaining window, and how many set
bits of the window come before the element. -/
def JumpLayout.locate (layout : JumpLayout) (upperBits jump : List Word) (i : Nat) :
    Option (Nat × Word × Nat) := do
  let start ← layout.jumpTo jump i
  let currWord := start / 64
  let word ← upperBits[currWord]?
  let window := word &&& onesFrom (start % 64)
  scanSelect (upperBits.drop (currWord + 1)) currWord window (i &&& qMask)

/-- The select routine every reader of an upper-bits array contains: word index,
remaining window and bit index of element `i`. -/
def JumpLayout.select (layout : JumpLayout) (upperBits jump : List Word) (i : Nat) :
    Option (Nat × Word × Nat) :=
  (layout.locate upperBits jump i).bind fun found =>
    (select64 found.2.1 found.2.2).map fun sel => (found.1, found.2.1, sel)

/-- Masking the low bits of a word leaves the window from the masked position. -/
theorem windowAt_and_onesFrom {words : List Word} {start : Nat}
    (hword : start / 64 < words.length) :
    WindowAt words start (start / 64) (words[start / 64] &&& onesFrom (start % 64)) := by
  intro j hj
  have hdiv : (64 * (start / 64) + j) / 64 = start / 64 := by omega
  have hmod : (64 * (start / 64) + j) % 64 = j := by omega
  rw [getLsbD_and, getLsbD_onesFrom _ hj, bitAt_eq_getElem (by omega)]
  simp only [hdiv, hmod]
  rw [Bool.and_comm]
  congr 1
  exact decide_eq_decide.mpr (by omega)

/-- Masking a window behind its bit `j`. -/
theorem WindowAt.behind {words : List Word} {first currWord j : Nat} {window : Word}
    (hwindow : WindowAt words first currWord window) (hfirst : first ≤ 64 * currWord + j) :
    WindowAt words (64 * currWord + j + 1) currWord (window &&& (onesFrom j <<< 1)) := by
  intro k hk
  rw [onesFrom, ← shiftLeft_add, ← onesFrom, getLsbD_and, getLsbD_onesFrom _ hk,
    hwindow k hk, Bool.and_right_comm, ← Bool.decide_and]
  congr 1
  exact decide_eq_decide.mpr (by omega)

/-- What a select query on an enumerated bit string delivers: the element's bit, and in the same
word what is behind it. -/
theorem JumpLayout.select_spec {layout : JumpLayout} {slotBits count : Nat}
    {place : Nat → Nat} {upperBits jump : List Word}
    (hdisjoint : layout.Disjoint slotBits)
    (henum : Enumerates (bitAt upperBits) count place)
    (hrecords : layout.Records slotBits count place jump)
    (hplaces : 64 * upperBits.length ≤ 2 ^ 64) {i : Nat} (hi : i < count) :
    ∃ currWord window sel, layout.select upperBits jump i = some (currWord, window, sel) ∧
      64 * currWord + sel = place i ∧ sel < 64 ∧
      WindowAt upperBits (place i + 1) currWord (window &&& (onesFrom sel <<< 1)) := by
  have hbound : ∀ k < count, place k < 64 * upperBits.length := fun k hk =>
    lt_of_bitAt ((henum.bit_iff _).mpr ⟨k, hk, rfl⟩)
  have hblock : blockStart i ≤ i := Nat.sub_le i (i % q)
  have hstart := hbound (blockStart i) (by omega)
  have hjump := hrecords.jumpTo hdisjoint henum.mono hi (by omega)
  have hword : place (blockStart i) / 64 < upperBits.length := by omega
  have hoffset : i % q + blockStart i = i := by
    have := Nat.mod_le i q
    rw [blockStart]
    omega
  -- The d-th set bit from the block's first one is element `i` itself.
  have hnth : (positions (bitAt upperBits) (place (blockStart i))
      (64 * upperBits.length))[i % q]? = some (place i) := by
    rw [henum.positions_from hbound (by omega), List.getElem?_map, List.getElem?_range' (by omega),
      Option.map_some, Nat.one_mul, Nat.add_comm, hoffset]
  obtain ⟨currWord, window, d, sel, hscan, hsel, hplace, -, first, hfirst, hwindow⟩ :=
    scanSelect_spec (windowAt_and_onesFrom hword) (Nat.mul_div_le _ 64) (by omega)
      hword hnth
  rw [hplace] at hfirst ⊢
  refine ⟨currWord, window, sel, ?_, rfl, (mem_positions.mp (List.mem_of_getElem? hsel)).2.1,
    hwindow.behind hfirst⟩
  have hlocate : layout.locate upperBits jump i = some (currWord, window, d) := by
    simp [JumpLayout.locate, hjump, hword, and_qMask, hscan]
  rw [JumpLayout.select, hlocate, Option.bind_some, select64_eq_some hsel, Option.map_some]

theorem onesCount64_le_zero_iff (word : Word) : onesCount64 word ≤ 0 ↔ word = 0#64 := by
  rw [Nat.le_zero, onesCount64, List.length_eq_zero_iff, wordOnes_eq_nil_iff]

end Erigon
