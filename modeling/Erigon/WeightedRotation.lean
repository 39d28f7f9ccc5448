/-
Members with weights take turns.  In a turn all gain their weight, and the one that then has the
most pays the total of the weights.  The members of any set of `k` have on average at most
`total * (c + harmonic n - harmonic k)` if they had at most `c * total` each in the beginning: a
turn carries this bound from the sets of `k + 1` members to those of `k`.
-/
import Mathlib.Algebra.BigOperators.Field
import Mathlib.NumberTheory.Harmonic.Defs
import Mathlib.Tactic.FieldSimp
import Mathlib.Tactic.Linarith
import Mathlib.Tactic.Positivity
import Mathlib.Tactic.Ring

namespace Erigon

open Finset

namespace WeightedRotation

universe u

variable {I : Type u} {members : Finset I} {weight p : I → ℚ} {total c : ℚ} {j : I}

/-- The bound on the sets of members. -/
def Capped (members : Finset I) (total c : ℚ) (p : I → ℚ) : Prop :=
  ∀ K ⊆ members, K.Nonempty →
    ∑ i ∈ K, p i ≤ K.card * (total * (c + harmonic members.card - harmonic K.card))

theorem Capped.congr {q : I → ℚ} (h : Capped members total c p) (heq : ∀ i ∈ members, q i = p i) :
    Capped members total c q := by
  intro K hK hne
  rw [sum_congr rfl fun i hi => heq i (hK hi)]
  exact h K hK hne

theorem harmonic_mono : Monotone harmonic := by
  refine monotone_nat_of_le_succ fun k => ?_
  rw [harmonic_succ, le_add_iff_nonneg_right]
  positivity

theorem capped_of_le (htotal : 0 ≤ total) (h : ∀ i ∈ members, p i ≤ c * total) :
    Capped members total c p := by
  intro K hK _
  have hharmonic := harmonic_mono (card_le_card hK)
  have hbound : c * total ≤ total * (c + harmonic members.card - harmonic K.card) := by
    rw [mul_comm c total]
    exact mul_le_mul_of_nonneg_left (by linarith) htotal
  calc ∑ i ∈ K, p i ≤ K.card • (c * total) := sum_le_card_nsmul K p _ fun i hi => h i (hK hi)
    _ ≤ _ := by
      rw [nsmul_eq_mul]
      exact mul_le_mul_of_nonneg_left hbound (Nat.cast_nonneg _)

theorem Capped.le (h : Capped members total c p) {i : I} (hi : i ∈ members) :
    p i ≤ total * (c + harmonic members.card - 1) := by
  have hone := h {i} (singleton_subset_iff.mpr hi) (singleton_nonempty i)
  simpa using hone

section Turn

variable (hweight : ∀ i ∈ members, 0 ≤ weight i) (htotal : ∑ i ∈ members, weight i = total)
  (hj : j ∈ members) (hmost : ∀ i ∈ members, p i + weight i ≤ p j + weight j)

include htotal

section

include hweight

theorem sum_weight_le {K : Finset I} (hK : K ⊆ members) : ∑ i ∈ K, weight i ≤ total := by
  rw [← htotal]
  exact sum_le_sum_of_subset_of_nonneg hK fun i hi _ => hweight i hi

end

include hj hmost

/-- The one that pays has at least the average before, which is not negative. -/
theorem nonneg_most (htotal' : 0 ≤ total) (hsum : 0 ≤ ∑ i ∈ members, p i) : 0 ≤ p j + weight j := by
  have hall : ∑ i ∈ members, (p i + weight i) ≤ members.card • (p j + weight j) :=
    sum_le_card_nsmul members _ _ hmost
  rw [sum_add_distrib, htotal, nsmul_eq_mul] at hall
  have hcard : (0 : ℚ) < members.card := Nat.cast_pos.mpr (card_pos.mpr ⟨j, hj⟩)
  have hprod : 0 ≤ members.card * (p j + weight j) := by linarith
  exact nonneg_of_mul_nonneg_right hprod hcard

variable [DecidableEq I]

omit htotal hj hmost

/-- All gain their weight and `j` pays the total. -/
def turn (weight : I → ℚ) (total : ℚ) (j : I) (p : I → ℚ) (i : I) : ℚ :=
  p i + weight i - if i = j then total else 0

theorem sum_turn (K : Finset I) :
    ∑ i ∈ K, turn weight total j p i =
      ∑ i ∈ K, p i + ∑ i ∈ K, weight i - if j ∈ K then total else 0 := by
  simp only [turn, sum_sub_distrib, sum_add_distrib, sum_ite_eq']

include hweight htotal hj hmost

/-- A turn keeps the bound. -/
theorem Capped.turn (h : Capped members total c p) :
    Capped members total c (turn weight total j p) := by
  intro K hK hne
  rw [sum_turn]
  by_cases hjK : j ∈ K
  · rw [if_pos hjK]
    have hpaid := sum_weight_le hweight htotal hK
    have hbefore := h K hK hne
    linarith
  · -- together with the one that pays, the set is one larger
    have hinsert : insert j K ⊆ members := insert_subset hj hK
    have hbefore := h (insert j K) hinsert (insert_nonempty j K)
    have hpaid := sum_weight_le hweight htotal hinsert
    rw [sum_insert hjK] at hbefore hpaid
    rw [card_insert_of_notMem hjK, harmonic_succ] at hbefore
    have hmost' : ∑ i ∈ K, p i + ∑ i ∈ K, weight i ≤ K.card * (p j + weight j) := by
      rw [← sum_add_distrib, ← nsmul_eq_mul]
      exact sum_le_card_nsmul K _ _ fun i hi => hmost i (hK hi)
    have hcard : (0 : ℚ) < K.card + 1 := by positivity
    have hsize : ((K.card + 1 : ℕ) : ℚ) * (total * (c + harmonic members.card -
        (harmonic K.card + ((K.card + 1 : ℕ) : ℚ)⁻¹))) + total =
        (K.card + 1) * (total * (c + harmonic members.card - harmonic K.card)) := by
      push_cast
      field_simp
      ring
    rw [if_neg hjK, sub_zero]
    set x := ∑ i ∈ K, p i + ∑ i ∈ K, weight i
    set y := p j + weight j
    set a := total * (c + harmonic members.card - harmonic K.card)
    have hboth : x + y ≤ (K.card + 1) * a := by
      rw [← hsize]
      simp only [x, y]
      linarith
    have hscaled : (K.card + 1) * x ≤ (K.card + 1) * (K.card * a) := by
      have hk : (0 : ℚ) ≤ K.card := Nat.cast_nonneg _
      nlinarith [mul_le_mul_of_nonneg_left hboth hk]
    exact le_of_mul_le_mul_left hscaled hcard

theorem le_turn (htotal' : 0 ≤ total) (hsum : 0 ≤ ∑ i ∈ members, p i) {l : ℚ}
    (hl : l ≤ -total) (hlow : ∀ i ∈ members, l ≤ p i) {i : I} (hi : i ∈ members) :
    l ≤ WeightedRotation.turn weight total j p i := by
  rw [WeightedRotation.turn]
  by_cases hij : i = j
  · have hmost' := nonneg_most htotal hj hmost htotal' hsum
    rw [if_pos hij, hij]
    linarith
  · have := hlow i hi
    have := hweight i hi
    rw [if_neg hij]
    linarith

end Turn

end WeightedRotation

end Erigon
