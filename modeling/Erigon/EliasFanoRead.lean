/-
Reading an Elias-Fano sequence: random access, search for the least element
not below a value, and forward iteration.
-/
import Erigon.EliasFanoBuild

namespace Erigon

open List EliasFano

namespace EliasFano

/-- Joining the high and the low part of a number. -/
theorem join_parts {x l : Nat} (hl : l < 64) {lower : Word}
    (hlower : ∀ j < l, lower.getLsbD j = x.testBit j) :
    (BitVec.ofNat 64 (x >>> l) <<< l) ||| (lower &&& ((1#64 <<< l) - 1#64)) =
      BitVec.ofNat 64 x := by
  apply Word.ext_bits
  intro j hj
  rw [BitVec.getLsbD_or, BitVec.getLsbD_and, getLsbD_lowMask hl,
    BitVec.getLsbD_shiftLeft, BitVec.getLsbD_ofNat, BitVec.getLsbD_ofNat]
  by_cases hjl : j < l
  · rw [hlower j hjl]
    simp [hjl, hj]
  · simp [hjl, hj, Nat.testBit_shiftRight, show l + (j - l) = j by omega, show j - l < 64 by omega]

theorem sub_index (high i : Nat) :
    BitVec.ofNat 64 (high + i) - BitVec.ofNat 64 i = BitVec.ofNat 64 high := by
  apply BitVec.eq_of_toNat_eq
  rw [BitVec.toNat_sub]
  simp only [BitVec.toNat_ofNat]
  omega

section Reading

variable {ef : EliasFano} {xs : List Nat}

variable {i : Nat}

section

variable (hencodes : Encodes ef xs)

include hencodes

section

variable (hi : i < xs.length)

include hi

theorem Encodes.lt : xs[i] < 2 ^ 64 :=
  Nat.lt_of_le_of_lt
    (le_of_getLast? hencodes.sorted hencodes.max_eq _ (getElem_mem hi))
    hencodes.max_lt

theorem Encodes.place_lt : (xs[i] >>> ef.l) + i < 2 ^ 64 := by
  have hbit := lt_of_bitAt ((hencodes.upper.bit_iff _).mpr ⟨i, hi, rfl⟩)
  have := hencodes.upper_lt
  rw [place_eq hi] at hbit
  omega

theorem Encodes.lower_bit {j : Nat} (hj : j < ef.l) :
    bitAt ef.lowerBits (i * ef.l + j) = xs[i].testBit j := by
  rw [hencodes.lower i hi j hj]
  simp [getD_eq_getElem?_getD, hi]

/-- The unaligned read that starts with element `i`'s low part. -/
theorem Encodes.lower_window :
    i * ef.l < 2 ^ 64 ∧ ∃ lower, window ef.lowerBits (i * ef.l) = some lower ∧
      (∀ j < ef.l, lower.getLsbD j = xs[i].testBit j) ∧
      ∀ j < 64, lower.getLsbD j = bitAt ef.lowerBits (i * ef.l + j) := by
  obtain ⟨hidx, hnext⟩ := hencodes.lower_room i hi
  have hl := hencodes.l_lt
  have hlower := hencodes.lower_lt
  obtain ⟨lower, hwindow, hbits⟩ := window_spec hidx hnext
  refine ⟨by omega, lower, hwindow, ?_, hbits⟩
  intro j hj
  rw [hbits j (by omega), hencodes.lower_bit hi hj]

/-- The bit of element `i`, less its index, is the high part. -/
theorem Encodes.select_high : ∃ currWord window sel,
    layout.select ef.upperBits ef.jump i = some (currWord, window, sel) ∧
      BitVec.ofNat 64 (currWord * 64 + sel) - BitVec.ofNat 64 i =
        BitVec.ofNat 64 (xs[i] >>> ef.l) ∧
      64 * currWord + sel = place xs ef.l i ∧ sel < 64 ∧
      WindowAt ef.upperBits (place xs ef.l i + 1) currWord (window &&& (onesFrom sel <<< 1)) := by
  obtain ⟨currWord, window, sel, hselect, hplace, hbehind⟩ :=
    JumpLayout.select_spec layout_disjoint hencodes.upper hencodes.records
      hencodes.upper_lt hi
  refine ⟨currWord, window, sel, hselect, ?_, hplace, hbehind⟩
  rw [Nat.mul_comm, hplace, place_eq hi, sub_index]

/-- Random access, and where it leaves the reader for the next element. -/
theorem Encodes.get_spec : ∃ found, ef.get i = some found ∧ found.val = xs[i] ∧
    (64 * found.currWord + found.sel = place xs ef.l i ∧ found.sel < 64 ∧
      WindowAt ef.upperBits (place xs ef.l i + 1) found.currWord
        (found.window &&& (onesFrom found.sel <<< 1))) ∧
    ∀ j < 64, found.lower.getLsbD j = bitAt ef.lowerBits (i * ef.l + j) := by
  obtain ⟨hsmall, lower, hwindow, hlower, hbits⟩ := hencodes.lower_window hi
  obtain ⟨currWord, window, sel, hselect, hhigh, hbehind⟩ := hencodes.select_high hi
  refine ⟨⟨xs[i], window, sel, currWord, lower⟩, ?_, rfl, hbehind, hbits⟩
  have hval := join_parts hencodes.l_lt hlower
  rw [← hencodes.mask_eq] at hval
  simp only [get, Nat.mod_eq_of_lt hsmall, hwindow, hselect, Option.bind_eq_bind, Option.bind_some,
    Option.pure_def, hhigh, hval, BitVec.toNat_ofNat, Nat.mod_eq_of_lt (hencodes.lt hi)]

theorem Encodes.Get_eq : ef.Get i = some xs[i] := by
  obtain ⟨found, hget, hval, -⟩ := hencodes.get_spec hi
  rw [Get, hget, Option.map_some, hval]

theorem Encodes.upper_eq : ef.upper i = some (xs[i] >>> ef.l) := by
  obtain ⟨currWord, window, sel, hselect, hhigh, -⟩ := hencodes.select_high hi
  have hlt := hencodes.place_lt hi
  simp only [EliasFano.upper, hselect, Option.bind_eq_bind, Option.bind_some, Option.pure_def,
    hhigh, BitVec.toNat_ofNat]
  rw [Nat.mod_eq_of_lt (by omega)]

end

/-- The element after `i` from the same window, if the bits that the shift loses are zeros. -/
theorem Encodes.Get2_eq (hi : i + 1 < xs.length)
    (hlow : xs[i + 1] % 2 ^ ef.l < 2 ^ (64 - ef.l)) : ef.Get2 i = some (xs[i], xs[i + 1]) := by
  obtain ⟨found, hget, hval, ⟨hplace, hsel, hwindow⟩, hbits⟩ := hencodes.get_spec (i := i) (by omega)
  have hbound : ∀ k < xs.length, place xs ef.l k < 64 * ef.upperBits.length := fun k hk =>
    lt_of_bitAt ((hencodes.upper.bit_iff _).mpr ⟨k, hk, rfl⟩)
  have hword := hbound i (by omega)
  obtain ⟨currWord, window, d, zeros, hscan, hzeros, hnext, hd, -⟩ :=
    scanSelect_spec hwindow (by omega) (by omega) (by omega)
      (hencodes.upper.positions_behind hbound hi)
  obtain rfl : d = 0 := by omega
  have hhigh : BitVec.ofNat 64 (currWord * 64 + zeros) - BitVec.ofNat 64 i - 1#64 =
      BitVec.ofNat 64 (xs[i + 1] >>> ef.l) := by
    rw [Nat.mul_comm, ← hnext, place_eq hi, ← Nat.add_assoc, Nat.add_right_comm, sub_index,
      sub_index]
  have hlower : ∀ j < ef.l, (found.lower >>> ef.l).getLsbD j = xs[i + 1].testBit j := by
    intro j hj
    rw [BitVec.getLsbD_ushiftRight]
    by_cases hkept : ef.l + j < 64
    · rw [hbits _ hkept, ← Nat.add_assoc, ← hencodes.lower_bit hi hj, Nat.add_mul, Nat.one_mul]
    · have hlost := Nat.testBit_lt_two_pow (Nat.lt_of_lt_of_le hlow
        (Nat.pow_le_pow_right (by decide) (show 64 - ef.l ≤ j by omega)))
      rw [Nat.testBit_mod_two_pow, decide_eq_true hj, Bool.true_and] at hlost
      rw [hlost, BitVec.getLsbD_of_ge _ _ (by omega)]
  have hjoin := join_parts hencodes.l_lt hlower
  rw [← hencodes.mask_eq] at hjoin
  simp only [Get2, hget, hscan, hzeros, hhigh, hjoin, hval, Option.bind_eq_bind, Option.bind_some,
    Option.pure_def, BitVec.toNat_ofNat, Nat.mod_eq_of_lt (hencodes.lt hi)]

theorem Encodes.Count_eq : ef.Count = xs.length := by
  rw [Count, hencodes.count_eq, Nat.mod_eq_of_lt hencodes.length_lt]

theorem Encodes.pos : 0 < xs.length := by
  have := hencodes.count_eq
  omega

theorem Encodes.Min_eq : ef.Min = xs.head? := by
  rw [Min, hencodes.Get_eq hencodes.pos, head?_eq_getElem?, getElem?_eq_getElem hencodes.pos]

theorem Encodes.le_Max : ∀ x ∈ xs, x ≤ ef.Max :=
  le_of_getLast? hencodes.sorted hencodes.max_eq

/-- The scan that ends a search returns the first accepted element. -/
theorem Encodes.searchFrom_eq (accept : Nat → Bool)
    {remaining j : Nat} (hj : j + remaining = xs.length) :
    (ef.searchFrom id accept remaining j).map (Option.map Prod.fst) =
      some ((xs.drop j).find? accept) := by
  induction remaining generalizing j with
  | zero =>
    rw [searchFrom, drop_of_length_le (by omega)]
    rfl
  | succ remaining ih =>
    have hlt : j < xs.length := by omega
    obtain ⟨found, hget, hval, -⟩ := hencodes.get_spec hlt
    rw [drop_eq_getElem_cons hlt, find?_cons, searchFrom, id, hget]
    cases haccept : accept xs[j] with
    | true => simp [hval, haccept]
    | false =>
      have hrest := ih (j := j + 1) (by omega)
      simpa [hval, haccept] using hrest

/-- The binary search of a forward search and the scan behind it. -/
theorem Encodes.search_inside (v : Nat) :
    ∃ r, (sortSearch ef.Count fun i =>
        (ef.upper i).map fun upper => decide (v >>> ef.l ≤ upper)) = some r ∧
      (ef.searchFrom id (fun val => decide (v ≤ val)) (ef.count + 1 - r) r).map
        (Option.map Prod.fst) = some (xs.find? fun x => decide (v ≤ x)) := by
  obtain ⟨r, hsearch, hr, hbelow, -⟩ := sortSearch_spec ef.Count
    (fun i => (ef.upper i).map fun upper => decide (v >>> ef.l ≤ upper))
    (fun k => v >>> ef.l ≤ xs.getD k 0 >>> ef.l)
    (by
      intro k hk
      rw [hencodes.Count_eq] at hk
      rw [hencodes.upper_eq hk, Option.map_some, getD_eq_getElem?_getD,
        getElem?_eq_getElem hk, Option.getD_some])
    (by
      intro k hk hle
      rw [hencodes.Count_eq] at hk
      have hxs := pairwise_iff_getElem.mp hencodes.sorted k (k + 1) (by omega) hk
        (Nat.lt_succ_self k)
      have hdiv : xs[k] / 2 ^ ef.l ≤ xs[k + 1] / 2 ^ ef.l := Nat.div_le_div_right hxs
      simp only [getD_eq_getElem?_getD, getElem?_eq_getElem hk,
        getElem?_eq_getElem (show k < xs.length by omega), Option.getD_some,
        Nat.shiftRight_eq_div_pow] at hle ⊢
      omega)
  rw [hencodes.Count_eq] at hr
  refine ⟨r, hsearch, ?_⟩
  rw [hencodes.count_eq, hencodes.searchFrom_eq _ (by omega), find?_drop]
  -- An element with a smaller high part is smaller.
  intro k hk hkr
  have hnot := hbelow k hkr
  rw [getD_eq_getElem?_getD, getElem?_eq_getElem hk, Option.getD_some,
    Nat.shiftRight_eq_div_pow, Nat.shiftRight_eq_div_pow] at hnot
  exact decide_eq_false fun hle => hnot (Nat.div_le_div_right hle)

/-- The value found by a forward search: the least element not below `v`. -/
theorem Encodes.search_forward (v : Nat) :
    (ef.search v false).map (Option.map Prod.fst) =
      some (xs.find? fun x => decide (v ≤ x)) := by
  have hpos := hencodes.pos
  have hlast : ef.Max ∈ xs := mem_of_getLast? hencodes.max_eq
  by_cases hzero : v = 0
  · cases xs with
    | nil => exact absurd hpos (Nat.lt_irrefl 0)
    | cons x xs => simp [search, hzero, hencodes.Min_eq]
  by_cases hmax : v = ef.Max
  · have hfind : xs.find? (fun x => decide (v ≤ x)) = some v := by
      cases hfound : xs.find? (fun x => decide (v ≤ x)) with
      | none =>
        have := find?_eq_none.mp hfound ef.Max hlast
        simp [hmax] at this
      | some x =>
        have hle := hencodes.le_Max x (mem_of_find?_eq_some hfound)
        have hge := find?_some hfound
        rw [decide_eq_true_eq] at hge
        congr 1
        omega
    rw [hfind]
    simp [search, hzero, ← hmax]
  by_cases habove : ef.Max < v
  · have hfind : xs.find? (fun x => decide (v ≤ x)) = none := by
      rw [find?_eq_none]
      intro x hx
      have := hencodes.le_Max x hx
      rw [decide_eq_true_eq]
      omega
    rw [hfind]
    simp [search, hzero, hmax, habove]
  obtain ⟨r, hsearch, hscan⟩ := hencodes.search_inside v
  rw [← hscan]
  simp [search, hzero, hmax, habove, hsearch]

theorem Encodes.Seek_eq (v : Nat) : ef.Seek v = some (xs.find? fun x => decide (v ≤ x)) := by
  rw [← hencodes.search_forward v, Seek]
  cases ef.search v false <;> rfl

end

end Reading

end EliasFano

/-! ### Forward iteration -/

namespace EliasFanoIter

/-- The cursor stands on bit `p`, possibly with the mask shifted out of the
previous word. -/
def Loose (efi : EliasFanoIter) (p : Nat) : Prop :=
  ∃ c ≤ 64, p = 64 * efi.upperIdx + c ∧ efi.upperMask = 1#64 <<< c

theorem shifted_one_eq_zero_iff {c : Nat} (hc : c ≤ 64) : 1#64 <<< c = 0#64 ↔ c = 64 := by
  constructor
  · intro hzero
    by_contra hne
    have hbit := congrArg (fun w : Word => w.getLsbD c) hzero
    simp [show c < 64 by omega] at hbit
  · rintro rfl
    decide

/-- The iterator with its cursor on bit `p`. -/
def moveTo (efi : EliasFanoIter) (upper : Word) (p : Nat) : EliasFanoIter :=
  { efi with upper, upperIdx := p / 64, upperMask := 1#64 <<< (p % 64) }

variable {efi : EliasFanoIter} {p fuel k : Nat}

/-- Wrapping puts a loose cursor on its word. -/
theorem wrap_eq (hloose : efi.Loose p) : efi.wrap = efi.moveTo efi.upper p := by
  obtain ⟨c, hc, rfl, hmask⟩ := hloose
  by_cases hfull : c = 64
  · subst hfull
    rw [wrap, if_pos (hmask.trans ((shifted_one_eq_zero_iff hc).mpr rfl)), moveTo,
      show (64 * efi.upperIdx + 64) / 64 = efi.upperIdx + 1 by omega,
      show (64 * efi.upperIdx + 64) % 64 = 0 by omega, BitVec.shiftLeft_zero]
  · have hne : ¬ efi.upperMask = 0#64 := by
      rw [hmask, shifted_one_eq_zero_iff hc]
      exact hfull
    rw [wrap, if_neg hne, moveTo, show (64 * efi.upperIdx + c) / 64 = efi.upperIdx by omega,
      show (64 * efi.upperIdx + c) % 64 = c by omega, ← hmask]

/-- One pass of the zero-skipping loop. -/
theorem skipZeros_moveTo (efi : EliasFanoIter) (upper : Word) (fuel : Nat)
    (hp : p < 64 * efi.upperBits.length) :
    skipZeros (fuel + 1) (efi.moveTo upper p) =
      if bitAt efi.upperBits p then some (efi.moveTo upper p)
      else skipZeros fuel (efi.moveTo (upper + efi.upperStep) (p + 1)) := by
  have hloose : Loose { efi.moveTo upper p with
      upper := upper + efi.upperStep
      upperMask := (1#64 <<< (p % 64)) <<< 1 } (p + 1) := by
    refine ⟨p % 64 + 1, by omega, ?_, ?_⟩
    · show p + 1 = 64 * (p / 64) + (p % 64 + 1)
      omega
    · rw [BitVec.shiftLeft_add]
  have hword : efi.upperBits[p / 64]? = some efi.upperBits[p / 64] :=
    getElem?_eq_getElem (by omega)
  have hiff := and_bit_eq_zero_iff efi.upperBits[p / 64] (Nat.mod_lt p (by decide : 64 > 0))
  rw [← bitAt_eq_getElem (by omega)] at hiff
  have hstep : skipZeros (fuel + 1) (efi.moveTo upper p) =
      if efi.upperBits[p / 64] &&& (1#64 <<< (p % 64)) = 0#64 then
        skipZeros fuel (wrap { efi.moveTo upper p with
          upper := upper + efi.upperStep
          upperMask := (1#64 <<< (p % 64)) <<< 1 })
      else some (efi.moveTo upper p) := by
    simp only [skipZeros, moveTo, hword, Option.bind_eq_bind, Option.bind_some, Option.pure_def]
    rfl
  rw [hstep, wrap_eq hloose]
  cases hbit : bitAt efi.upperBits p with
  | false =>
    rw [if_pos (hiff.mpr hbit)]
    rfl
  | true =>
    rw [if_neg (by rw [hiff, hbit]; exact Bool.true_eq_false.mp)]
    rfl

/-- Skipping a run of zero bits adds one step to the high part for each. -/
theorem skipZeros_eq (efi : EliasFanoIter) (upper : Word) {gap : Nat}
    (hzeros : ∀ r, p ≤ r → r < p + gap → bitAt efi.upperBits r = false)
    (hset : bitAt efi.upperBits (p + gap) = true) (hfuel : gap < fuel) :
    skipZeros fuel (efi.moveTo upper p) =
      some (efi.moveTo (upper + BitVec.ofNat 64 gap * efi.upperStep) (p + gap)) := by
  have hlength := lt_of_bitAt hset
  induction gap generalizing upper p fuel with
  | zero =>
    obtain ⟨fuel, rfl⟩ : ∃ k, fuel = k + 1 := ⟨fuel - 1, by omega⟩
    rw [Nat.add_zero] at hset hlength ⊢
    rw [skipZeros_moveTo efi upper fuel hlength, if_pos hset]
    simp
  | succ gap ih =>
    obtain ⟨fuel, rfl⟩ : ∃ k, fuel = k + 1 := ⟨fuel - 1, by omega⟩
    have hend : p + 1 + gap = p + (gap + 1) := by omega
    have hsum : upper + efi.upperStep + BitVec.ofNat 64 gap * efi.upperStep =
        upper + BitVec.ofNat 64 (gap + 1) * efi.upperStep := by
      rw [BitVec.ofNat_add, BitVec.add_mul, BitVec.one_mul, BitVec.add_assoc,
        BitVec.add_comm efi.upperStep]
    rw [skipZeros_moveTo efi upper fuel (by omega),
      hzeros p (Nat.le_refl p) (by omega), if_neg Bool.false_ne_true,
      ih (upper + efi.upperStep) (fun r hr hlt => hzeros r (by omega) (by omega))
        (by rw [hend]; exact hset) (by omega) (by omega), hsum, hend]

/-- The iterator has yielded `k` elements of `xs` and its cursor stands on bit
`p`, behind the last of them. -/
structure At (ef : EliasFano) (xs : List Nat) (k p : Nat) (efi : EliasFanoIter) :
    Prop where
  lowerBits_eq : efi.lowerBits = ef.lowerBits
  upperBits_eq : efi.upperBits = ef.upperBits
  count_eq : efi.count = ef.count
  mask_eq : efi.lowerBitsMask = ef.lowerBitsMask
  l_eq : efi.l = ef.l
  step_eq : efi.upperStep = 1#64 <<< ef.l
  items_eq : efi.itemsIterated = k
  lowerIdx_eq : efi.lowerIdx = k * ef.l % 2 ^ 64
  le : k ≤ p
  upper_eq : efi.upper = BitVec.ofNat 64 (p - k) <<< ef.l
  loose : efi.Loose p
  below : ∀ j < k, EliasFano.place xs ef.l j < p
  above : ∀ j, k ≤ j → j < xs.length → p ≤ EliasFano.place xs ef.l j

theorem at_start (ef : EliasFano) (xs : List Nat) : At ef xs 0 0 ef.Iterator where
  lowerBits_eq := rfl
  upperBits_eq := rfl
  count_eq := rfl
  mask_eq := rfl
  l_eq := rfl
  step_eq := rfl
  items_eq := rfl
  lowerIdx_eq := by simp [Iterator]
  le := Nat.le_refl 0
  upper_eq := by simp [Iterator]
  loose := ⟨0, by decide, by simp [Iterator], by simp [Iterator]⟩
  below := fun j hj => absurd hj (Nat.not_lt_zero j)
  above := fun _ _ _ => Nat.zero_le _

theorem ofNat_shiftLeft_add (a b l : Nat) :
    (BitVec.ofNat 64 a <<< l) + BitVec.ofNat 64 b * (1#64 <<< l) =
      BitVec.ofNat 64 (a + b) <<< l := by
  apply BitVec.eq_of_toNat_eq
  simp only [BitVec.toNat_add, BitVec.toNat_mul, BitVec.toNat_shiftLeft, BitVec.toNat_ofNat,
    Nat.shiftLeft_eq, Nat.mod_mul_mod, Nat.mul_mod_mod, Nat.add_mod_mod, Nat.mod_add_mod]
  rw [Nat.one_mul, Nat.add_mul]

section

variable {ef : EliasFano} {xs : List Nat} (hat : At ef xs k p efi) (hencodes : Encodes ef xs)

include hat hencodes

theorem At.hasNext (hk : k < xs.length) : efi.HasNext = true := by
  have := hencodes.count_eq
  rw [HasNext, hat.items_eq, hat.count_eq, decide_eq_true_eq]
  omega

/-- One call of `Next` yields the next element. -/
theorem At.next (hk : k < xs.length) :
    ∃ efi', efi.Next = some (xs[k], efi') ∧
      At ef xs (k + 1) (place xs ef.l k + 1) efi' := by
  obtain ⟨hsmall, lower, hwindow, hlower, -⟩ := hencodes.lower_window hk
  have hset : bitAt ef.upperBits (place xs ef.l k) = true :=
    (hencodes.upper.bit_iff _).mpr ⟨k, hk, rfl⟩
  have hge := hat.above k (Nat.le_refl k) hk
  have hlength := lt_of_bitAt hset
  have hkp := hat.le
  -- Between the cursor and the next element's bit there are only zeros.
  have hzeros : ∀ r, p ≤ r → r < place xs ef.l k →
      bitAt ef.upperBits r = false := by
    intro r hlow hhigh
    refine hencodes.upper.gap (fun j hj => ?_) hhigh hk
    have := hat.below j hj
    omega
  obtain ⟨gap, hgap⟩ := Nat.exists_eq_add_of_le hge
  have hupper : efi.upper + BitVec.ofNat 64 gap * efi.upperStep =
      BitVec.ofNat 64 (xs[k] >>> ef.l) <<< ef.l := by
    have hhigh : p - k + gap = xs[k] >>> ef.l := by
      rw [EliasFano.place_eq hk] at hgap
      omega
    rw [hat.upper_eq, hat.step_eq, ofNat_shiftLeft_add, hhigh]
  have hskip : skipZeros (64 * efi.upperBits.length + 1) efi.wrap =
      some (efi.moveTo (BitVec.ofNat 64 (xs[k] >>> ef.l) <<< ef.l)
        (place xs ef.l k)) := by
    rw [wrap_eq hat.loose, ← hupper, hgap]
    rw [hgap] at hzeros hset hlength
    rw [← hat.upperBits_eq] at hzeros hset hlength
    exact skipZeros_eq efi efi.upper hzeros hset (by omega)
  have hnext := hat.hasNext hencodes hk
  have hval := join_parts hencodes.l_lt hlower
  rw [← hencodes.mask_eq, ← hat.mask_eq] at hval
  refine ⟨{ efi.moveTo (BitVec.ofNat 64 (xs[k] >>> ef.l) <<< ef.l)
      (place xs ef.l k) with
    upperMask := (1#64 <<< (place xs ef.l k % 64)) <<< 1
    lowerIdx := (efi.lowerIdx + efi.l) % 2 ^ 64
    itemsIterated := efi.itemsIterated + 1 }, ?_, ?_⟩
  · rw [Next, hnext, hat.lowerBits_eq, hat.lowerIdx_eq, Nat.mod_eq_of_lt hsmall, hwindow,
      increment, hskip]
    simp only [moveTo, not_true_eq_false, if_false, Option.bind_eq_bind, Option.bind_some,
      Option.pure_def, hval, BitVec.toNat_ofNat, Nat.mod_eq_of_lt (hencodes.lt hk),
      hat.lowerIdx_eq, hat.items_eq, Nat.mod_add_mod]
  · refine ⟨hat.lowerBits_eq, hat.upperBits_eq, hat.count_eq, hat.mask_eq, hat.l_eq,
      hat.step_eq, ?_, ?_, ?_, ?_, ?_, ?_, ?_⟩
    · show efi.itemsIterated + 1 = k + 1
      rw [hat.items_eq]
    · show (efi.lowerIdx + efi.l) % 2 ^ 64 = (k + 1) * ef.l % 2 ^ 64
      rw [hat.lowerIdx_eq, hat.l_eq, Nat.mod_add_mod, Nat.add_mul, Nat.one_mul]
    · rw [EliasFano.place_eq hk]
      exact Nat.succ_le_succ (Nat.le_add_left k _)
    · show BitVec.ofNat 64 (xs[k] >>> ef.l) <<< ef.l = _
      rw [EliasFano.place_eq hk, Nat.add_sub_add_right, Nat.add_sub_cancel]
    · refine ⟨place xs ef.l k % 64 + 1, by omega, ?_, ?_⟩
      · show _ = 64 * (place xs ef.l k / 64) + _
        omega
      · rw [BitVec.shiftLeft_add]
    · intro j hj
      rcases Nat.lt_succ_iff_lt_or_eq.mp hj with hlt | rfl
      · have := hencodes.upper.mono j k hlt hk
        omega
      · omega
    · intro j hj hjlt
      exact hencodes.upper.mono k j hj hjlt

/-- Draining an iterator yields the elements it has not passed yet. -/
theorem At.drain_eq (hfuel : k + fuel = xs.length) : drain fuel efi = some (xs.drop k) := by
  induction fuel generalizing k p efi with
  | zero =>
    rw [drain, drop_of_length_le (by omega)]
  | succ fuel ih =>
    have hk : k < xs.length := by omega
    obtain ⟨efi', hstep, hat'⟩ := hat.next hencodes hk
    rw [drain, hat.hasNext hencodes hk, hstep, drop_eq_getElem_cons hk]
    simp [ih hat' (by omega)]

end

end EliasFanoIter

/-- Iteration yields the encoded sequence. -/
theorem EliasFano.Encodes.toList_Iterator {ef : EliasFano} {xs : List Nat}
    (hencodes : Encodes ef xs) : ef.Iterator.toList = some xs := by
  have hfuel : 0 + (ef.count + 1 - 0) = xs.length := by
    rw [← hencodes.count_eq, Nat.zero_add, Nat.sub_zero]
  exact (EliasFanoIter.at_start ef xs).drain_eq hencodes hfuel

end Erigon
