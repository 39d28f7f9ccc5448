/-
Signed integers of 64 bits: arithmetic that wraps around, and addition and subtraction that stop
at the ends of the range.
-/
import Mathlib.Tactic.Common
import Mathlib.Algebra.Ring.Int.Defs
import Mathlib.Algebra.Ring.Nat

namespace Erigon

def maxInt64 : Int := 2 ^ 63 - 1

def minInt64 : Int := -2 ^ 63

/-- The value that is kept of a number in 64 bits. -/
def int64 (x : Int) : Int := Int.bmod x (2 ^ 64)

def InInt64 (x : Int) : Prop := minInt64 ≤ x ∧ x ≤ maxInt64

variable {x a b : Int}

theorem inInt64_iff : InInt64 x ↔ -2 ^ 63 ≤ x ∧ x < 2 ^ 63 := by
  rw [InInt64, minInt64, maxInt64]
  omega

theorem int64_eq (h : InInt64 x) : int64 x = x := by
  rw [inInt64_iff] at h
  rw [int64, Int.bmod_eq_of_le (by omega) (by omega)]

def safeAdd (a b : Int) : Int × Bool :=
  if b > 0 ∧ a > int64 (maxInt64 - b) then (-1, true)
  else if b < 0 ∧ a < int64 (minInt64 - b) then (-1, true)
  else (int64 (a + b), false)

def safeSub (a b : Int) : Int × Bool :=
  if b > 0 ∧ a < int64 (minInt64 + b) then (-1, true)
  else if b < 0 ∧ a > int64 (maxInt64 + b) then (-1, true)
  else (int64 (a - b), false)

def safeAddClip (a b : Int) : Int :=
  let r := safeAdd a b
  if r.2 then (if b < 0 then minInt64 else maxInt64) else r.1

def safeSubClip (a b : Int) : Int :=
  let r := safeSub a b
  if r.2 then (if b > 0 then minInt64 else maxInt64) else r.1

/-- A sum within the range is not clipped. -/
theorem safeAdd_eq (hb : InInt64 b) (hsum : InInt64 (a + b)) : safeAdd a b = (a + b, false) := by
  have hmax : b > 0 → int64 (maxInt64 - b) = maxInt64 - b := by
    rw [InInt64, minInt64, maxInt64] at hb
    exact fun hpos => int64_eq (by rw [InInt64, minInt64, maxInt64]; omega)
  have hmin : b < 0 → int64 (minInt64 - b) = minInt64 - b := by
    rw [InInt64, minInt64, maxInt64] at hb
    exact fun hneg => int64_eq (by rw [InInt64, minInt64, maxInt64]; omega)
  rw [safeAdd, int64_eq hsum, if_neg, if_neg]
  · rintro ⟨hneg, hlt⟩
    rw [hmin hneg] at hlt
    rw [InInt64] at hsum
    omega
  · rintro ⟨hpos, hlt⟩
    rw [hmax hpos] at hlt
    rw [InInt64] at hsum
    omega

theorem safeSub_eq (hb : InInt64 b) (hdiff : InInt64 (a - b)) : safeSub a b = (a - b, false) := by
  have hmin : b > 0 → int64 (minInt64 + b) = minInt64 + b := by
    rw [InInt64, minInt64, maxInt64] at hb
    exact fun hpos => int64_eq (by rw [InInt64, minInt64, maxInt64]; omega)
  have hmax : b < 0 → int64 (maxInt64 + b) = maxInt64 + b := by
    rw [InInt64, minInt64, maxInt64] at hb
    exact fun hneg => int64_eq (by rw [InInt64, minInt64, maxInt64]; omega)
  rw [safeSub, int64_eq hdiff, if_neg, if_neg]
  · rintro ⟨hneg, hlt⟩
    rw [hmax hneg] at hlt
    rw [InInt64] at hdiff
    omega
  · rintro ⟨hpos, hlt⟩
    rw [hmin hpos] at hlt
    rw [InInt64] at hdiff
    omega

theorem safeAddClip_eq (hb : InInt64 b) (hsum : InInt64 (a + b)) : safeAddClip a b = a + b := by
  simp [safeAddClip, safeAdd_eq hb hsum]

theorem safeSubClip_eq (hb : InInt64 b) (hdiff : InInt64 (a - b)) : safeSubClip a b = a - b := by
  simp [safeSubClip, safeSub_eq hb hdiff]

end Erigon
