/-
The blob fee of EIP-4844: an exponential as a sum of terms, each truncated by a division, in words
of 256 bits with a check for overflow at each operation.  The loop tests a word for its sign, so
that a term with the highest bit set ends it like a zero term.
-/
import Mathlib.Algebra.Order.BigOperators.Group.Finset

namespace Erigon

/-- The arguments of a call. -/
structure FakeExponential where
  factor : Nat
  denom : Nat
  excessBlobGas : Nat

namespace FakeExponential

open Finset

/-- The number of words. -/
def size : Nat := 2 ^ 256

/-- `Sign` takes a word for a signed number. -/
def sign (z : Nat) : Int := if z = 0 then 0 else if z < 2 ^ 255 then 1 else -1

variable (c : FakeExponential)

/-- The loop, `none` while it still runs.  A word that overflows is printed as what is left of it,
and a division by zero gives zero. -/
def loop : Nat → Nat → Nat → Nat → Option (Except String Nat)
  | 0, _, _, _ => none
  | fuel + 1, i, accum, output =>
    let denom := c.denom
    let numerator := c.excessBlobGas
    if ¬ 0 < sign accum then some (.ok (output / denom))
    else
      let sum := (output + accum) % size
      if size ≤ output + accum then some (.error
        s!"FakeExponential: overflow in AddOverflow(output={sum}, numeratorAccum={accum})")
      else
        let divisor := denom * (i % 2 ^ 64)
        if size ≤ divisor then some (.error
          s!"FakeExponential: overflow in MulOverflow(denom={denom}, i={i})")
        else
          let next := accum * numerator / divisor
          let rest := next % size
          if size ≤ next then some (.error (s!"FakeExponential: overflow in MulDivOverflow(" ++
            s!"numeratorAccum={rest}, numerator={numerator}, divisor={divisor})"))
          else loop fuel (i + 1) next sum

def fakeExponential (fuel : Nat) : Option (Except String Nat) :=
  let factor := c.factor
  let denom := c.denom
  if size ≤ factor * denom then some (.error
    s!"FakeExponential: overflow in MulOverflow(factor={factor}, denom={denom})")
  else c.loop fuel 1 (factor * denom) 0

/-- No call needs more than 1280 rounds. -/
def Returns (r : Except String Nat) : Prop :=
  ∀ fuel, 1280 ≤ fuel → c.fakeExponential fuel = some r

/-! ### The series -/

def term : Nat → Nat
  | 0 => c.factor * c.denom
  | i + 1 => term i * c.excessBlobGas / (c.denom * (i + 1))

/-- The sum of the terms before the `i`-th. -/
def total (i : Nat) : Nat := ∑ j ∈ range i, c.term j

/-- Some number on the way to the `i`-th term does not fit a word. -/
def Exceeds : Nat → Prop
  | 0 => size ≤ c.term 0
  | i + 1 => Exceeds i ∨ size ≤ c.total (i + 1) ∨ size ≤ c.denom * (i + 1) ∨
    size ≤ c.term (i + 1)

/-- The call ends with the sum up to the first zero term, or with an error exactly if some number
on the way does not fit. -/
def Sums (n : Nat) : Prop :=
  IsLeast { i | c.term i = 0 } n ∧ ∃ r, c.Returns r ∧
    (∀ v, r = .ok v → v = c.total n / c.denom) ∧ ((∃ e, r = .error e) ↔ c.Exceeds n)

/-- The series is summed, and a smaller numerator gives no error and no greater sum. -/
def Meets : Prop :=
  (∃ n, c.Sums n) ∧ ∀ x ≤ c.excessBlobGas, ∀ w, c.Returns (.ok w) →
    ∃ v ≤ w, ({ c with excessBlobGas := x } : FakeExponential).Returns (.ok v)

section Terms

variable {c} {i k n : Nat}

theorem term_le_total (h : i < n) : c.term i ≤ c.total n :=
  single_le_sum (fun _ _ => Nat.zero_le _) (mem_range.mpr h)

/-- Once the divisor is twice the numerator, a term is at most half of the one before. -/
theorem term_halves (hk : 2 * c.excessBlobGas ≤ c.denom * (k + 1)) (b : Nat) :
    c.term (k + b) * 2 ^ b ≤ c.term k := by
  induction b with
  | zero => simp
  | succ b ih =>
    have hle : 2 * c.excessBlobGas ≤ c.denom * (k + b + 1) :=
      hk.trans (Nat.mul_le_mul_left _ (by omega))
    have hstep : c.term (k + b + 1) * 2 ≤ c.term (k + b) := by
      rcases Nat.eq_zero_or_pos c.excessBlobGas with hzero | hpos
      · simp [term, hzero]
      · refine Nat.le_of_mul_le_mul_right ?_ hpos
        rw [Nat.mul_assoc]
        exact (Nat.mul_le_mul_left _ hle).trans (Nat.div_mul_le_self _ _)
    calc c.term (k + b + 1) * 2 ^ (b + 1) = c.term (k + b + 1) * 2 * 2 ^ b := by
          rw [Nat.pow_succ', Nat.mul_assoc]
      _ ≤ c.term (k + b) * 2 ^ b := Nat.mul_le_mul_right _ hstep
      _ ≤ c.term k := ih

theorem term_eq_zero {b : Nat} (hk : 2 * c.excessBlobGas ≤ c.denom * (k + 1))
    (hb : c.term k < 2 ^ b) : c.term (k + b) = 0 := by
  by_contra hne
  have hle := Nat.mul_le_mul_right (2 ^ b) (Nat.one_le_iff_ne_zero.mpr hne)
  rw [Nat.one_mul] at hle
  exact hb.not_ge (hle.trans (term_halves hk b))

theorem exists_first_zero (hd : 1 ≤ c.denom) : ∃ n, IsLeast { i | c.term i = 0 } n := by
  have hk : 2 * c.excessBlobGas ≤ c.denom * (2 * c.excessBlobGas + 1) :=
    (Nat.le_succ _).trans (Nat.le_mul_of_pos_left _ hd)
  have hzero : ∃ i, c.term i = 0 := ⟨_, term_eq_zero hk Nat.lt_two_pow_self⟩
  exact ⟨_, Nat.isLeast_find hzero⟩

/-- Small numerators aside, a term is at least twice the one before for 256 steps. -/
theorem term_doubles (hd : 1 ≤ c.denom) (h : 512 * c.denom ≤ c.excessBlobGas) (hi : i ≤ 256) :
    c.term 0 * 2 ^ i ≤ c.term i := by
  induction i with
  | zero => simp
  | succ i ih =>
    have hle : 2 * (c.denom * (i + 1)) ≤ c.excessBlobGas := by
      have := Nat.mul_le_mul_left c.denom (show 2 * (i + 1) ≤ 512 by omega)
      rw [Nat.mul_left_comm]
      omega
    refine (Nat.le_div_iff_mul_le (Nat.mul_pos hd (Nat.succ_pos i))).mpr ?_
    rw [Nat.pow_succ, ← Nat.mul_assoc (c.term 0), Nat.mul_assoc _ 2]
    exact Nat.mul_le_mul (ih (by omega)) hle

/-- Early on a term is zero or the sum does not fit. -/
theorem stops_early (hf : 1 ≤ c.factor) (hd : 1 ≤ c.denom) :
    ∃ i < 1280, c.term i = 0 ∨ size ≤ c.total (i + 1) := by
  rcases Nat.le_total (512 * c.denom) c.excessBlobGas with h | h
  · have hlarge : size ≤ c.term 0 * 2 ^ 256 := Nat.le_mul_of_pos_left _ (Nat.mul_pos hf hd)
    have hterm := hlarge.trans (term_doubles hd h (Nat.le_refl 256))
    exact ⟨256, by decide, .inr (hterm.trans (term_le_total (Nat.lt_succ_self 256)))⟩
  · by_cases hfits : c.term 1023 < size
    · exact ⟨1023 + 256, by decide, .inl (term_eq_zero (by omega) hfits)⟩
    · exact ⟨1023, by decide, .inr ((not_lt.mp hfits).trans (term_le_total (Nat.lt_succ_self _)))⟩

theorem sign_pos_iff {z : Nat} : 0 < sign z ↔ z ≠ 0 ∧ z < 2 ^ 255 := by
  rw [sign]
  split_ifs with hzero hlt
  · simp [hzero]
  · exact iff_of_true (by decide) ⟨hzero, hlt⟩
  · exact iff_of_false (by decide) fun h => hlt h.2

theorem Exceeds.mono (h : c.Exceeds i) (hin : i ≤ n) : c.Exceeds n :=
  Nat.le_induction h (fun _ _ ih => .inl ih) n hin

/-- The loop ended before the `m`-th term: that is not positive as a signed number, or some number
up to there does not fit. -/
def Ends (c : FakeExponential) (r : Except String Nat) : Prop :=
  ∃ m, (∀ j < m, 0 < sign (c.term j)) ∧
    ((r = .ok (c.total m / c.denom) ∧ ¬ 0 < sign (c.term m) ∧ ¬ c.Exceeds m) ∨
      ((∃ e, r = .error e) ∧ c.Exceeds m))

/-- The round for the `i`-th term. -/
theorem loop_round (hi : i < 1280) (hpos : ∀ j < i, 0 < sign (c.term j)) (hfits : ¬ c.Exceeds i) :
    (0 < sign (c.term i) ∧ ¬ c.Exceeds (i + 1) ∧ ∀ fuel,
      c.loop (fuel + 1) (i + 1) (c.term i) (c.total i) =
        c.loop fuel (i + 2) (c.term (i + 1)) (c.total (i + 1))) ∨
    ∃ r, (∀ fuel, c.loop (fuel + 1) (i + 1) (c.term i) (c.total i) = some r) ∧ c.Ends r := by
  have hindex : (i + 1) % 2 ^ 64 = i + 1 := Nat.mod_eq_of_lt (by omega)
  have hsum : c.total i + c.term i = c.total (i + 1) := (sum_range_succ _ _).symm
  have hnext : c.term i * c.excessBlobGas / (c.denom * (i + 1)) = c.term (i + 1) := rfl
  simp only [loop, hindex, hsum, hnext]
  by_cases hsign : 0 < sign (c.term i)
  swap
  · exact .inr ⟨_, fun _ => if_pos hsign, i, hpos, .inl ⟨rfl, hsign, hfits⟩⟩
  simp only [if_neg (not_not.mpr hsign)]
  have hpos' : ∀ j < i + 1, 0 < sign (c.term j) := Nat.forall_lt_succ_right.mpr ⟨hpos, hsign⟩
  by_cases htotal : size ≤ c.total (i + 1)
  · exact .inr ⟨_, fun _ => if_pos htotal, i + 1, hpos',
      .inr ⟨⟨_, rfl⟩, Or.inr (.inl htotal)⟩⟩
  simp only [if_neg htotal]
  by_cases hdivisor : size ≤ c.denom * (i + 1)
  · exact .inr ⟨_, fun _ => if_pos hdivisor, i + 1, hpos',
      .inr ⟨⟨_, rfl⟩, Or.inr (.inr (.inl hdivisor))⟩⟩
  simp only [if_neg hdivisor]
  by_cases hterm : size ≤ c.term (i + 1)
  · exact .inr ⟨_, fun _ => if_pos hterm, i + 1, hpos',
      .inr ⟨⟨_, rfl⟩, Or.inr (.inr (.inr hterm))⟩⟩
  refine .inl ⟨hsign, ?_, fun fuel => ?_⟩
  · simp [Exceeds, hfits, htotal, hdivisor, hterm]
  · rw [if_neg hterm, Nat.mod_eq_of_lt (not_le.mp htotal)]

/-- The rounds from the `i`-th term on, when one of the next `gap` is the last. -/
theorem loop_ends {gap : Nat} (hgap : i + gap < 1280)
    (hstop : c.term (i + gap) = 0 ∨ size ≤ c.total (i + gap + 1))
    (hpos : ∀ j < i, 0 < sign (c.term j)) (hfits : ¬ c.Exceeds i) :
    ∃ r, (∀ fuel, c.loop (fuel + gap + 1) (i + 1) (c.term i) (c.total i) = some r) ∧ c.Ends r := by
  induction gap generalizing i with
  | zero =>
    rcases loop_round hgap hpos hfits with ⟨hsign, hnext, -⟩ | ⟨r, hr, hends⟩
    · rcases hstop with hzero | htotal
      · exact absurd hzero (sign_pos_iff.mp hsign).1
      · exact absurd (Or.inr (.inl htotal)) hnext
    · exact ⟨r, hr, hends⟩
  | succ gap ih =>
    rcases loop_round (by omega) hpos hfits with ⟨hsign, hnext, hround⟩ | ⟨r, hr, hends⟩
    · rw [← Nat.add_assoc, Nat.add_right_comm] at hgap hstop
      obtain ⟨r, hr, hends⟩ := ih hgap hstop (Nat.forall_lt_succ_right.mpr ⟨hpos, hsign⟩) hnext
      exact ⟨r, fun fuel => (hround _).trans (hr fuel), hends⟩
    · exact ⟨r, fun fuel => hr _, hends⟩

theorem exists_ends (hf : 1 ≤ c.factor) (hd : 1 ≤ c.denom) : ∃ r, c.Returns r ∧ c.Ends r := by
  by_cases hfirst : size ≤ c.term 0
  · exact ⟨_, fun _ _ => if_pos hfirst, 0, by simp,
      .inr ⟨⟨_, rfl⟩, hfirst⟩⟩
  obtain ⟨k, hk, hstop⟩ := stops_early hf hd
  rw [← Nat.zero_add k] at hk hstop
  obtain ⟨r, hr, hends⟩ := loop_ends hk hstop (by simp) hfirst
  refine ⟨r, fun fuel hfuel => ?_, hends⟩
  have hloop := hr (fuel - k - 1)
  rw [show fuel - k - 1 + k + 1 = fuel by omega] at hloop
  exact (if_neg hfirst).trans hloop

theorem Returns.unique {r r' : Except String Nat} (h : c.Returns r) (h' : c.Returns r') : r = r' :=
  Option.some.inj ((h 1280 (Nat.le_refl _)).symm.trans (h' 1280 (Nat.le_refl _)))

theorem term_zero_of_le (h : c.term i = 0) (hin : i ≤ n) : c.term n = 0 := by
  induction hin with
  | refl => exact h
  | step _ ih => rw [term, ih, Nat.zero_mul, Nat.zero_div]

section Calls

variable (hf : 1 ≤ c.factor) (hd : 1 ≤ c.denom)

include hf hd

/-- Terms below the highest bit are summed. -/
theorem sums_of_lt (h : ∀ i, ¬ c.Exceeds i → c.term i < 2 ^ 255) : ∃ n, c.Sums n := by
  obtain ⟨n, hzero, hleast⟩ := exists_first_zero hd
  obtain ⟨r, hreturns, m, hpos, ⟨rfl, hsign, hfits⟩ | ⟨herror, hexceeds⟩⟩ := exists_ends hf hd
  · have hterm : c.term m = 0 := by
      by_contra hne
      exact hsign (sign_pos_iff.mpr ⟨hne, h m hfits⟩)
    have hm : IsLeast { i | c.term i = 0 } m :=
      ⟨hterm, fun j hj => not_lt.mp fun hlt => (sign_pos_iff.mp (hpos j hlt)).1 hj⟩
    exact ⟨m, hm, _, hreturns, by simp, iff_of_false (by simp) hfits⟩
  · have hmn : m ≤ n := not_lt.mp fun hlt => (sign_pos_iff.mp (hpos n hlt)).1 hzero
    obtain ⟨e, rfl⟩ := herror
    exact ⟨n, ⟨hzero, hleast⟩, _, hreturns, by simp, iff_of_true ⟨e, rfl⟩ (hexceeds.mono hmn)⟩

/-- A term with the highest bit set is left out of the sum, which is then too small. -/
theorem lt_of_sums (h : c.Sums n) (hi : ¬ c.Exceeds i) : c.term i < 2 ^ 255 := by
  obtain ⟨⟨hzero, hleast⟩, r, hreturns, hok, herror⟩ := h
  obtain ⟨r', hreturns', m, hpos, ⟨rfl, hsign, hfits⟩ | ⟨-, hexceeds⟩⟩ := exists_ends hf hd
  · obtain rfl := hreturns.unique hreturns'
    rcases Nat.lt_or_ge i m with hlt | hge
    · exact (sign_pos_iff.mp (hpos i hlt)).2
    have hterm : c.term m = 0 := by
      by_contra hne
      have hhigh : 2 ^ 255 ≤ c.term m := not_lt.mp fun hlt => hsign (sign_pos_iff.mpr ⟨hne, hlt⟩)
      have hmn : m < n := not_le.mp fun hle => hne (term_zero_of_le hzero hle)
      have hdenom : c.denom ≤ c.term m := by
        have hfirst : c.denom ≤ c.term 0 := Nat.le_mul_of_pos_left _ hf
        rcases Nat.eq_zero_or_pos m with rfl | hm
        · exact hfirst
        · exact (hfirst.trans_lt (sign_pos_iff.mp (hpos 0 hm)).2).le.trans hhigh
      have hle : c.total m + c.denom ≤ c.total n :=
        calc c.total m + c.denom ≤ c.total m + c.term m := Nat.add_le_add_left hdenom _
          _ = c.total (m + 1) := (sum_range_succ _ _).symm
          _ ≤ c.total n := sum_le_sum_of_subset (range_mono hmn)
      have hquot := Nat.div_le_div_right (c := c.denom) hle
      rw [Nat.add_div_right _ hd, ← hok _ rfl] at hquot
      omega
    rw [term_zero_of_le hterm hge]
    exact Nat.two_pow_pos 255
  · rcases Nat.lt_or_ge i m with hlt | hge
    · exact (sign_pos_iff.mp (hpos i hlt)).2
    · exact absurd (hexceeds.mono hge) hi

end Calls

theorem term_mono {x : Nat} (hx : x ≤ c.excessBlobGas) (i : Nat) :
    ({ c with excessBlobGas := x } : FakeExponential).term i ≤ c.term i := by
  induction i with
  | zero => exact Nat.le_refl _
  | succ i ih => exact Nat.div_le_div_right (Nat.mul_le_mul ih hx)

theorem total_mono {x : Nat} (hx : x ≤ c.excessBlobGas) (i : Nat) :
    ({ c with excessBlobGas := x } : FakeExponential).total i ≤ c.total i :=
  sum_le_sum fun j _ => term_mono hx j

theorem exceeds_mono {x : Nat} (hx : x ≤ c.excessBlobGas)
    (h : ({ c with excessBlobGas := x } : FakeExponential).Exceeds i) : c.Exceeds i := by
  induction i with
  | zero => exact h
  | succ i ih =>
    exact h.imp ih (.imp (·.trans (total_mono hx _)) (.imp_right (·.trans (term_mono hx _))))

end Terms

end FakeExponential

end Erigon
