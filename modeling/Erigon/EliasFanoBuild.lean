/-
What an Elias-Fano builder leaves behind: the packed low parts, the upper-bits
array that enumerates the shifted high parts, and the jump table over it.
-/
import Erigon.EliasFano
import Erigon.OrderedLists

namespace Erigon

open List

namespace EliasFano

/-! ### Sizes -/

variable {x n u i l maxOffset : Nat}

theorem xor_leadingZeros64 (hpos : x ≠ 0) (hlt : x < 2 ^ 64) :
    63 ^^^ leadingZeros64 x = x.log2 := by
  have hxor : ∀ k < 64, 63 ^^^ (63 - k) = k := by decide
  rw [leadingZeros64, if_neg hpos]
  exact hxor _ ((Nat.log2_lt hpos).mpr hlt)

theorem lowerWidth_lt (hu : u < 2 ^ 64) : lowerWidth n u < 64 := by
  have hdiv : u / n ≤ u := Nat.div_le_self u n
  rw [lowerWidth]
  split
  · decide
  · rename_i hpos
    rw [xor_leadingZeros64 hpos (by omega)]
    exact (Nat.log2_lt hpos).mpr (by omega)

/-- The width is chosen so that the high parts are spread over fewer than `2 n`
values. -/
theorem shiftRight_lowerWidth_lt (hn : 0 < n) (hu : u < 2 ^ 64) : u >>> lowerWidth n u < 2 * n := by
  have hdiv : u / n ≤ u := Nat.div_le_self u n
  rw [lowerWidth, Nat.shiftRight_eq_div_pow]
  split
  · rename_i hzero
    rw [Nat.div_eq_zero_iff] at hzero
    rw [pow_zero, Nat.div_one]
    omega
  · rename_i hpos
    rw [xor_leadingZeros64 hpos (by omega), Nat.div_lt_iff_lt_mul (Nat.two_pow_pos _)]
    have hlog : u / n < 2 ^ ((u / n).log2 + 1) := Nat.lt_log2_self
    rw [Nat.div_lt_iff_lt_mul hn, pow_succ] at hlog
    calc u < 2 ^ (u / n).log2 * 2 * n := hlog
      _ = 2 * n * 2 ^ (u / n).log2 := by ring

/-- The packed low parts take less than `2 ^ 63` bits. -/
theorem mul_lowerWidth_lt (hu : u < 2 ^ 64) : n * lowerWidth n u < 2 ^ 63 := by
  have hdiv : u / n ≤ u := Nat.div_le_self u n
  rw [lowerWidth]
  split
  · rw [Nat.mul_zero]
    exact Nat.two_pow_pos 63
  · rename_i hpos
    rw [xor_leadingZeros64 hpos (by omega)]
    have hself : 2 ^ (u / n).log2 ≤ u / n := Nat.log2_self_le hpos
    have hmul : n * 2 ^ (u / n).log2 ≤ u :=
      (Nat.mul_le_mul_left n hself).trans (Nat.mul_div_le u n)
    have hlin : 2 * (u / n).log2 ≤ 2 ^ (u / n).log2 := by
      cases hk : (u / n).log2 with
      | zero => simp
      | succ k =>
        have := Nat.lt_two_pow_self (n := k)
        rw [pow_succ]
        omega
    have hdouble : 2 * (n * (u / n).log2) ≤ n * 2 ^ (u / n).log2 := by
      calc 2 * (n * (u / n).log2) = n * (2 * (u / n).log2) := by ring
        _ ≤ n * 2 ^ (u / n).log2 := Nat.mul_le_mul_left n hlin
    omega

theorem jumpSizeWords_le (n : Nat) : jumpSizeWords n ≤ n + 40 := by
  simp only [jumpSizeWords, superQ, superQSize, qPerSuperQ, q]
  by_cases hwhole : n % 16384 = 0
  · simp only [hwhole, ne_eq, not_true_eq_false, if_false]
    omega
  · simp only [hwhole, ne_eq, not_false_eq_true, if_true]
    omega

/-- The sizes of a sequence whose arrays the runtime can allocate. -/
structure Sized (n u : Nat) : Prop where
  pos : 0 < n
  u_lt : u < 2 ^ 64
  alloc : 8 * totalWords n u ≤ maxAlloc

theorem Sized.lt (hsized : Sized n u) : n < 2 ^ 55 := by
  have halloc := hsized.alloc
  have hjump : n / superQ * superQSize ≤ jumpSizeWords n := by
    rw [jumpSizeWords]
    split
    · rw [Nat.add_assoc]
      exact Nat.le_add_right _ _
    · exact Nat.le_refl _
  simp only [totalWords, maxAlloc] at halloc
  simp only [superQ, superQSize, qPerSuperQ, q] at hjump
  omega

theorem Sized.wordsLower_eq (hsized : Sized n u) :
    wordsLower n (lowerWidth n u) = (n * lowerWidth n u + 63) / 64 + 1 := by
  have := mul_lowerWidth_lt (n := n) hsized.u_lt
  rw [wordsLower, Nat.mod_eq_of_lt (by omega)]

theorem wordsUpper_eq (hpos : 0 < n) (hn : n < 2 ^ 55) (hu : u < 2 ^ 64) :
    wordsUpper n u (lowerWidth n u) = (n + (u >>> lowerWidth n u) + 63) / 64 := by
  have hshift := shiftRight_lowerWidth_lt hpos hu
  rw [wordsUpper, Nat.mod_eq_of_lt (by omega)]

/-- The bit of an element below the bound lies inside the upper-bits array. -/
theorem place_lt_words (hn : n < 2 ^ 55) (hu : u < 2 ^ 64) (hx : x ≤ u) (hi : i < n) :
    (x >>> lowerWidth n u) + i < 64 * wordsUpper n u (lowerWidth n u) := by
  have hshift : x / 2 ^ lowerWidth n u ≤ u / 2 ^ lowerWidth n u :=
    Nat.div_le_div_right hx
  rw [wordsUpper_eq (by omega) hn hu, Nat.shiftRight_eq_div_pow, Nat.shiftRight_eq_div_pow]
  omega

theorem layout_disjoint : layout.Disjoint 32 where
  slotBits_lt := by decide
  mask_eq := by decide
  limit_eq := rfl
  shift_le := fun c => by
    simp only [layout]
    omega
  header_superStart := fun c => by
    simp only [layout, superStart, superQ]
    congr 1
    omega
  slotWord_blockStart := fun c => by
    simp only [layout, blockStart, superQ, superQSize, qPerSuperQ, q, Nat.shiftRight_eq_div_pow]
    omega
  slotShift_blockStart := fun c => by
    simp only [layout, blockStart, superQ, q]
    omega
  header_inj := fun c d => by
    simp only [layout, superQ, superQSize, qPerSuperQ, q]
    omega
  slot_apart := fun c d => by
    simp only [layout, JumpLayout.slotPos, superQ, superQSize, qPerSuperQ, q,
      Nat.shiftRight_eq_div_pow]
    omega
  header_ne_slot := fun c d => by
    simp only [layout, superQ, superQSize, qPerSuperQ, q, Nat.shiftRight_eq_div_pow]
    omega

theorem layout_room {k : Nat} (hk : k < n) :
    layout.header k < jumpSizeWords n ∧ layout.slotWord k < jumpSizeWords n := by
  simp only [layout, jumpSizeWords, superQ, superQSize, qPerSuperQ, q, Nat.shiftRight_eq_div_pow]
  by_cases hwhole : n % 16384 = 0
  · simp only [hwhole, ne_eq, not_true_eq_false, if_false]
    omega
  · simp only [hwhole, ne_eq, not_false_eq_true, if_true]
    omega

/-! ### Adding elements -/

/-- Bit of the upper-bits array that element `i` sets. -/
def place (xs : List Nat) (l i : Nat) : Nat :=
  (xs.getD i 0 >>> l) + i

theorem place_eq {xs : List Nat} (hi : i < xs.length) : place xs l i = (xs[i] >>> l) + i := by
  rw [place, getD_eq_getElem?_getD, getElem?_eq_getElem hi, Option.getD_some]

theorem place_lt {xs : List Nat} (hsorted : xs.Pairwise (· ≤ ·)) {j : Nat} (hij : i < j)
    (hj : j < xs.length) : place xs l i < place xs l j := by
  have hle := pairwise_iff_getElem.mp hsorted i j (by omega) hj hij
  have hshift : xs[i] / 2 ^ l ≤ xs[j] / 2 ^ l := Nat.div_le_div_right hle
  rw [place_eq hj, place_eq (by omega), Nat.shiftRight_eq_div_pow, Nat.shiftRight_eq_div_pow]
  omega

/-- A builder before the first element. -/
def fresh (n maxOffset : Nat) : EliasFano where
  lowerBits := List.replicate (wordsLower n (lowerWidth n (maxOffset + 1))) 0#64
  upperBits := List.replicate
    (wordsUpper n (maxOffset + 1) (lowerWidth n (maxOffset + 1))) 0#64
  jump := List.replicate (jumpSizeWords n) 0#64
  lowerBitsMask := (1#64 <<< lowerWidth n (maxOffset + 1)) - 1#64
  count := n - 1
  u := maxOffset + 1
  l := lowerWidth n (maxOffset + 1)
  maxOffset := maxOffset
  i := 0
  wordsUpperBits := wordsUpper n (maxOffset + 1) (lowerWidth n (maxOffset + 1))

theorem deriveFields_fresh (hn : 0 < n) (hn64 : n < 2 ^ 64) :
    deriveFields (n - 1) (maxOffset + 1) maxOffset none =
      if 8 * totalWords n (maxOffset + 1) ≤ maxAlloc then some (fresh n maxOffset)
      else none := by
  have hcount : (n - 1 + 1) % 2 ^ 64 = n := by
    rw [Nat.sub_add_cancel hn, Nat.mod_eq_of_lt hn64]
  simp only [deriveFields, hcount, Nat.pos_iff_ne_zero.mp hn, if_false, makeWords]
  by_cases halloc : 8 * totalWords n (maxOffset + 1) ≤ maxAlloc
  · simp only [halloc, if_true]
    simp [fresh, totalWords, take_replicate, drop_replicate, Nat.add_assoc]
    omega
  · simp [halloc]

theorem new_eq (hsized : Sized n (maxOffset + 1)) : new n maxOffset = some (fresh n maxOffset) := by
  rw [new, if_neg (Nat.pos_iff_ne_zero.mp hsized.pos), Nat.mod_eq_of_lt hsized.u_lt,
    deriveFields_fresh hsized.pos (by have := hsized.lt; omega), if_pos hsized.alloc]

theorem sized_of_new {ef : EliasFano} (hn64 : n < 2 ^ 64) (hmax : maxOffset + 1 < 2 ^ 64)
    (hnew : new n maxOffset = some ef) :
    Sized n (maxOffset + 1) := by
  rw [new] at hnew
  split at hnew
  · cases hnew
  · rename_i hn
    have hpos := Nat.pos_of_ne_zero hn
    rw [Nat.mod_eq_of_lt hmax, deriveFields_fresh hpos hn64] at hnew
    split at hnew
    · exact ⟨hpos, hmax, by assumption⟩
    · cases hnew

/-- After `k` calls of `AddOffset`. -/
structure Added (maxOffset : Nat) (xs : List Nat) (k : Nat) (ef : EliasFano) :
    Prop where
  shape : ef = { fresh xs.length maxOffset with
    lowerBits := ef.lowerBits, upperBits := ef.upperBits, i := k }
  lowerLength : ef.lowerBits.length =
    wordsLower xs.length (lowerWidth xs.length (maxOffset + 1))
  upperLength : ef.upperBits.length =
    wordsUpper xs.length (maxOffset + 1) (lowerWidth xs.length (maxOffset + 1))
  lower : ∀ i < k, FieldAt ef.lowerBits (i * ef.l) ef.l (xs.getD i 0)
  clear : ∀ p, k * ef.l ≤ p → bitAt ef.lowerBits p = false
  upper : ∀ p, bitAt ef.upperBits p = true ↔ ∃ i < k, place xs ef.l i = p

theorem added_fresh (maxOffset : Nat) (xs : List Nat) :
    Added maxOffset xs 0 (fresh xs.length maxOffset) where
  shape := rfl
  lowerLength := by simp [fresh]
  upperLength := by simp [fresh]
  lower := fun i hi => absurd hi (Nat.not_lt_zero i)
  clear := fun p _ => by simp [fresh]
  upper := fun p => by simp [fresh]

section Adding

variable {maxOffset k : Nat} {xs : List Nat} {ef : EliasFano}

theorem Added.l_eq (hadded : Added maxOffset xs k ef) :
    ef.l = lowerWidth xs.length (maxOffset + 1) := by
  rw [hadded.shape, fresh]

section

variable (hadded : Added maxOffset xs k ef) (hsized : Sized xs.length (maxOffset + 1))

include hadded hsized

theorem Added.place_lt_length (hmax : ∀ x ∈ xs, x ≤ maxOffset)
    (hk : k < xs.length) : place xs ef.l k < 64 * ef.upperBits.length := by
  have hx := hmax xs[k] (getElem_mem hk)
  rw [place_eq hk, hadded.upperLength, hadded.l_eq]
  exact place_lt_words hsized.lt hsized.u_lt (by omega) hk

/-- Writing the low part of element `k`. -/
theorem Added.lowerBits_step (hk : k < xs.length) :
    ∃ lowerBits,
      setLower ef.lowerBits (ef.i * ef.l % 2 ^ 64) ef.l ef.lowerBitsMask xs[k] =
        some lowerBits ∧
      lowerBits.length = ef.lowerBits.length ∧
      (∀ i < k + 1, FieldAt lowerBits (i * ef.l) ef.l (xs.getD i 0)) ∧
      ∀ p, (k + 1) * ef.l ≤ p → bitAt lowerBits p = false := by
  have hl : ef.l < 64 := hadded.l_eq ▸ lowerWidth_lt hsized.u_lt
  have hi : ef.i = k := by rw [hadded.shape]
  have hmask : ef.lowerBitsMask = (1#64 <<< ef.l) - 1#64 := by
    rw [hadded.shape, fresh]
  have hmul : (k + 1) * ef.l ≤ xs.length * ef.l := Nat.mul_le_mul_right _ hk
  rw [Nat.add_mul, Nat.one_mul] at hmul
  have hroom : k * ef.l + ef.l ≤ 64 * ef.lowerBits.length := by
    rw [hadded.lowerLength, hsized.wordsLower_eq, ← hadded.l_eq]
    omega
  have hsmall : k * ef.l < 2 ^ 64 := by
    have hlt := mul_lowerWidth_lt (n := xs.length) hsized.u_lt
    rw [← hadded.l_eq] at hlt
    omega
  obtain ⟨lowerBits, hset, hlength, hfield⟩ :=
    setLower_spec (x := xs[k]) hl hroom hadded.clear
  refine ⟨lowerBits, ?_, hlength, ?_, ?_⟩
  · rw [hi, Nat.mod_eq_of_lt hsmall, hmask]
    exact hset
  · intro i hik j hj
    rw [hfield]
    rcases Nat.lt_succ_iff_lt_or_eq.mp hik with hlt | rfl
    · have hle : (i + 1) * ef.l ≤ k * ef.l := Nat.mul_le_mul_right _ hlt
      rw [Nat.add_mul, Nat.one_mul] at hle
      rw [if_neg (by omega)]
      exact hadded.lower i hlt j hj
    · rw [if_pos (by omega), Nat.add_sub_cancel_left]
      simp [getD_eq_getElem?_getD, hk]
  · intro p hp
    rw [Nat.add_mul, Nat.one_mul] at hp
    rw [hfield, if_neg (by omega)]
    exact hadded.clear p (by omega)

theorem Added.step (hmax : ∀ x ∈ xs, x ≤ maxOffset)
    (hk : k < xs.length) :
    ∃ ef', ef.addOffset xs[k] = some ef' ∧ Added maxOffset xs (k + 1) ef' := by
  have hi : ef.i = k := by rw [hadded.shape]
  have hplace := hadded.place_lt_length hsized hmax hk
  have hwords : 64 * ef.upperBits.length ≤ 2 ^ 64 := by
    rw [hadded.upperLength, wordsUpper]
    omega
  obtain ⟨lowerBits, hlower, hlowerLength, hfields, hclear⟩ :=
    hadded.lowerBits_step hsized hk
  obtain ⟨upperBits, hupper, hupperLength, hupperBits⟩ := set_next hadded.upper hplace
  have hpos : ((xs[k] >>> ef.l) + ef.i) % 2 ^ 64 = place xs ef.l k := by
    rw [hi, ← place_eq hk, Nat.mod_eq_of_lt (by omega)]
  refine ⟨{ ef with lowerBits, upperBits, i := ef.i + 1 }, ?_, ?_⟩
  · rw [addOffset, hlower, hpos]
    simp [hupper]
  · refine ⟨?_, hlowerLength.trans hadded.lowerLength,
      hupperLength.trans hadded.upperLength, hfields, hclear, hupperBits⟩
    rw [hi]
    conv_lhs => rw [hadded.shape]

end

/-- Adding all elements of a sorted sequence succeeds. -/
theorem added_all (hsized : Sized xs.length (maxOffset + 1))
    (hmax : ∀ x ∈ xs, x ≤ maxOffset) :
    ∃ ef, xs.foldlM addOffset (fresh xs.length maxOffset) = some ef ∧
      Added maxOffset xs xs.length ef :=
  foldlM_of_step addOffset xs (Added maxOffset xs) (added_fresh maxOffset xs)
    fun _ hi _ hadded => hadded.step hsized hmax hi

end Adding

/-! ### Finished sequences -/

/-- `ef` holds the sorted sequence `xs`. -/
structure Encodes (ef : EliasFano) (xs : List Nat) : Prop where
  sorted : xs.Pairwise (· ≤ ·)
  count_eq : ef.count + 1 = xs.length
  length_lt : xs.length < 2 ^ 64
  max_eq : xs.getLast? = some ef.maxOffset
  max_lt : ef.maxOffset < 2 ^ 64
  l_lt : ef.l < 64
  mask_eq : ef.lowerBitsMask = (1#64 <<< ef.l) - 1#64
  lower_room : ∀ i < xs.length, i * ef.l / 64 < ef.lowerBits.length ∧
    (0 < i * ef.l % 64 → i * ef.l / 64 + 1 < ef.lowerBits.length)
  lower_lt : 64 * ef.lowerBits.length ≤ 2 ^ 64
  lower : ∀ i < xs.length, FieldAt ef.lowerBits (i * ef.l) ef.l (xs.getD i 0)
  upper_lt : 64 * ef.upperBits.length ≤ 2 ^ 64
  upper : Enumerates (bitAt ef.upperBits) xs.length (place xs ef.l)
  records : layout.Records 32 xs.length (place xs ef.l) ef.jump

/-- The parts of `ef` have the sizes its counters ask for. -/
structure WellShaped (ef : EliasFano) : Prop where
  count_lt : ef.count + 1 < 2 ^ 64
  u_eq : ef.u = ef.maxOffset + 1
  u_lt : ef.u < 2 ^ 64
  l_eq : ef.l = lowerWidth (ef.count + 1) ef.u
  mask_eq : ef.lowerBitsMask = (1#64 <<< ef.l) - 1#64
  lower_length : ef.lowerBits.length = wordsLower (ef.count + 1) ef.l
  upper_length : ef.upperBits.length = wordsUpper (ef.count + 1) ef.u ef.l
  jump_length : ef.jump.length = jumpSizeWords (ef.count + 1)
  words_eq : ef.wordsUpperBits = wordsUpper (ef.count + 1) ef.u ef.l

/-- The condition under which a builder for `xs` does not panic: its memory can
be allocated and every jump distance fits thirty-two bits. -/
def Encodable (xs : List Nat) (maxOffset : Nat) : Prop :=
  8 * totalWords xs.length (maxOffset + 1) ≤ maxAlloc ∧
    ¬ Overflows 32 xs.length (place xs (lowerWidth xs.length (maxOffset + 1)))

section Finished

variable {maxOffset : Nat} {xs : List Nat} {ef : EliasFano}

theorem Added.enumerates (hadded : Added maxOffset xs xs.length ef)
    (hsorted : xs.Pairwise (· ≤ ·)) :
    Enumerates (bitAt ef.upperBits) xs.length (place xs ef.l) :=
  ⟨fun _ _ hij hj => place_lt hsorted hij hj, hadded.upper⟩

section

variable (hadded : Added maxOffset xs xs.length ef)

include hadded

theorem Added.encodes (hsized : Sized xs.length (maxOffset + 1)) (hsorted : xs.Pairwise (· ≤ ·))
    {last : Nat} (hlast : xs.getLast? = some last) (hle : last ≤ maxOffset) {jump : List Word}
    (hrecords : layout.Records 32 xs.length (place xs ef.l) jump) :
    Encodes { ef with jump, maxOffset := last } xs where
  sorted := hsorted
  count_eq := by
    rw [hadded.shape, fresh]
    exact Nat.sub_add_cancel hsized.pos
  length_lt := by
    have := hsized.lt
    omega
  max_eq := hlast
  max_lt := by
    have := hsized.u_lt
    show last < 2 ^ 64
    omega
  l_lt := hadded.l_eq ▸ lowerWidth_lt hsized.u_lt
  mask_eq := by rw [hadded.shape, fresh]
  lower_room := by
    intro i hi
    have hmul : (i + 1) * ef.l ≤ xs.length * ef.l := Nat.mul_le_mul_right _ hi
    rw [Nat.add_mul, Nat.one_mul] at hmul
    show i * ef.l / 64 < ef.lowerBits.length ∧
      (0 < i * ef.l % 64 → i * ef.l / 64 + 1 < ef.lowerBits.length)
    rw [hadded.lowerLength, hsized.wordsLower_eq, ← hadded.l_eq]
    have hzero : ef.l = 0 → i * ef.l = 0 := fun h => by rw [h, Nat.mul_zero]
    omega
  lower_lt := by
    show 64 * ef.lowerBits.length ≤ 2 ^ 64
    rw [hadded.lowerLength, wordsLower]
    have := mul_lowerWidth_lt (n := xs.length) hsized.u_lt
    omega
  lower := hadded.lower
  upper_lt := by
    show 64 * ef.upperBits.length ≤ 2 ^ 64
    rw [hadded.upperLength, wordsUpper]
    omega
  upper := hadded.enumerates hsorted
  records := hrecords

theorem Added.wellShaped (hsized : Sized xs.length (maxOffset + 1)) {jump : List Word}
    (hjump : jump.length = ef.jump.length) : WellShaped { ef with jump } := by
  have hcount : ef.count + 1 = xs.length := by
    rw [hadded.shape, fresh]
    exact Nat.sub_add_cancel hsized.pos
  have hu : ef.u = maxOffset + 1 := by rw [hadded.shape, fresh]
  have hl : ef.l = lowerWidth (ef.count + 1) ef.u := by
    rw [hcount, hu, hadded.l_eq]
  have hlt := hsized.lt
  refine ⟨?_, ?_, ?_, hl, ?_, ?_, ?_, ?_, ?_⟩
  · show ef.count + 1 < 2 ^ 64
    omega
  · rw [hadded.shape, fresh]
  · show ef.u < 2 ^ 64
    rw [hu]
    exact hsized.u_lt
  · rw [hadded.shape, fresh]
  · show ef.lowerBits.length = wordsLower (ef.count + 1) ef.l
    rw [hadded.lowerLength, hcount, hadded.l_eq]
  · show ef.upperBits.length = wordsUpper (ef.count + 1) ef.u ef.l
    rw [hadded.upperLength, hcount, hu, hadded.l_eq]
  · show jump.length = jumpSizeWords (ef.count + 1)
    rw [hjump, hcount, hadded.shape, fresh, length_replicate]
  · show ef.wordsUpperBits = wordsUpper (ef.count + 1) ef.u ef.l
    rw [hcount, hu, hadded.l_eq]
    conv_lhs => rw [hadded.shape, fresh]

theorem Added.jump_eq :
    ef.jump = List.replicate (jumpSizeWords xs.length) 0#64 ∧
      ef.wordsUpperBits = ef.upperBits.length := by
  rw [hadded.upperLength, hadded.shape, fresh]
  exact ⟨rfl, rfl⟩

end

section

variable (hsorted : xs.Pairwise (· ≤ ·)) (hmax : maxOffset + 1 < 2 ^ 64)

include hsorted hmax

/-- A builder for an encodable sequence ends with an encoding of it; the last element may be less
than the builder was told. -/
theorem ofList_encodes {last : Nat} (hlast : xs.getLast? = some last) (hle : last ≤ maxOffset)
    (hencodable : Encodable xs maxOffset) :
    ∃ ef, ofList xs.length maxOffset xs = some ef ∧ Encodes { ef with maxOffset := last } xs ∧
      WellShaped ef ∧ ef.maxOffset = maxOffset := by
  have hpos : 0 < xs.length := List.length_pos_of_mem (List.mem_of_getLast? hlast)
  have hsized : Sized xs.length (maxOffset + 1) := ⟨hpos, hmax, hencodable.1⟩
  obtain ⟨ef, hrun, hadded⟩ := added_all hsized fun x hx =>
    Nat.le_trans (le_of_getLast? hsorted hlast x hx) hle
  obtain ⟨hjump, hwords⟩ := hadded.jump_eq
  have hfits := hencodable.2
  rw [← hadded.l_eq] at hfits
  have hroom : ∀ k < xs.length, layout.header k < ef.jump.length ∧
      layout.slotWord k < ef.jump.length := fun k hk => by
    rw [hjump, length_replicate]
    exact layout_room hk
  obtain ⟨jump, hbuild, hlength, hrecords, -⟩ := JumpLayout.build_spec
    layout_disjoint (hadded.enumerates hsorted) hroom hfits
  refine ⟨{ ef with jump }, ?_, hadded.encodes hsized hsorted hlast hle hrecords,
    hadded.wellShaped hsized hlength, by rw [hadded.shape, fresh]⟩
  simp [ofList, new_eq hsized, hrun, build, hwords, hbuild]

theorem ofList_spec (hlast : xs.getLast? = some maxOffset) (hencodable : Encodable xs maxOffset) :
    ∃ ef, ofList xs.length maxOffset xs = some ef ∧ Encodes ef xs ∧ WellShaped ef ∧
      ef.maxOffset = maxOffset := by
  obtain ⟨ef, hrun, hencodes, hshape, hmaxOffset⟩ :=
    ofList_encodes hsorted hmax hlast (Nat.le_refl _) hencodable
  rw [← hmaxOffset] at hencodes
  exact ⟨ef, hrun, hencodes, hshape, hmaxOffset⟩

/-- Only builders of encodable sequences finish. -/
theorem encodable_of_ofList (hle : ∀ x ∈ xs, x ≤ maxOffset) (hcount : xs.length < 2 ^ 64)
    (hrun : ofList xs.length maxOffset xs = some ef) : Encodable xs maxOffset := by
  simp only [ofList, Option.bind_eq_bind, Option.bind_eq_some_iff, build,
    Option.pure_def, Option.some.injEq] at hrun
  obtain ⟨ef0, hnew, ef1, hadd, jump, hbuild, -⟩ := hrun
  have hsized := sized_of_new hcount hmax hnew
  obtain ⟨ef2, hadd', hadded⟩ := added_all hsized hle
  rw [new_eq hsized, Option.some.injEq] at hnew
  rw [← hnew, hadd', Option.some.injEq] at hadd
  subst hadd
  obtain ⟨hjump, hwords⟩ := hadded.jump_eq
  rw [hwords] at hbuild
  have hrecords := JumpLayout.records_of_build layout_disjoint
    (hadded.enumerates hsorted)
    (fun k hk => by rw [hjump, length_replicate]; exact layout_room hk) hbuild
  refine ⟨hsized.alloc, ?_⟩
  rw [← hadded.l_eq]
  exact hrecords.fits

end

/-- Up to `2 ^ 29` elements every jump distance fits. -/
theorem encodable_of_length_le (hpos : 0 < xs.length) (hle : ∀ x ∈ xs, x ≤ maxOffset)
    (hmax : maxOffset + 1 < 2 ^ 64) (hlength : xs.length ≤ 2 ^ 29) :
    Encodable xs maxOffset := by
  have hl := lowerWidth_lt (n := xs.length) hmax
  have hshift := shiftRight_lowerWidth_lt hpos hmax
  constructor
  · have hmul : xs.length * lowerWidth xs.length (maxOffset + 1) ≤ 2 ^ 29 * 63 :=
      Nat.mul_le_mul hlength (by omega)
    have hlower : wordsLower xs.length (lowerWidth xs.length (maxOffset + 1)) ≤ 2 ^ 30 := by
      have := Nat.mod_le (xs.length * lowerWidth xs.length (maxOffset + 1) + 63) (2 ^ 64)
      rw [wordsLower]
      omega
    have hupper : wordsUpper xs.length (maxOffset + 1)
        (lowerWidth xs.length (maxOffset + 1)) ≤ 2 ^ 30 := by
      have := Nat.mod_le (xs.length +
        ((maxOffset + 1) >>> lowerWidth xs.length (maxOffset + 1)) + 63) (2 ^ 64)
      rw [wordsUpper]
      omega
    have hjump := jumpSizeWords_le xs.length
    rw [totalWords, maxAlloc]
    omega
  · rintro ⟨k, hk, -, hfull⟩
    have hx := hle xs[k] (getElem_mem hk)
    have hdiv : xs[k] / 2 ^ lowerWidth xs.length (maxOffset + 1) ≤
        (maxOffset + 1) / 2 ^ lowerWidth xs.length (maxOffset + 1) :=
      Nat.div_le_div_right (by omega)
    rw [Nat.shiftRight_eq_div_pow] at hshift
    rw [place_eq hk, Nat.shiftRight_eq_div_pow] at hfull
    omega

/-- The two counters of a serialized sequence, and its words. -/
theorem WellShaped.read_parts (hshape : WellShaped ef) (rest : Bytes) :
    readUint 8 (ef.AppendBytes [] ++ rest) = some ef.count ∧
      (∃ tail, sliceFrom 8 (ef.AppendBytes [] ++ rest) = some tail ∧
        readUint 8 tail = some ef.u) ∧
      ¬(ef.AppendBytes [] ++ rest).length ≤ 16 ∧
      bytesToWords ((ef.AppendBytes [] ++ rest).drop 16) = ef.data ++ bytesToWords rest := by
  have hcount : ef.count % 256 ^ 8 = ef.count := Nat.mod_eq_of_lt (by
    have := hshape.count_lt
    omega)
  have hu : ef.u % 256 ^ 8 = ef.u := Nat.mod_eq_of_lt hshape.u_lt
  have hbytes : ef.AppendBytes [] ++ rest =
      beBytes 8 ef.count ++ (beBytes 8 ef.u ++ (wordsToBytes ef.data ++ rest)) := by
    simp [AppendBytes]
  have hlower : 0 < ef.lowerBits.length := by
    rw [hshape.lower_length, wordsLower]
    omega
  rw [hbytes]
  refine ⟨?_, ⟨_, sliceFrom_append (beBytes_length 8 ef.count) _, ?_⟩, ?_, ?_⟩
  · rw [readUint_beBytes_append, hcount]
  · rw [readUint_beBytes_append, hu]
  · simp only [length_append, beBytes_length, wordsToBytes_length, data]
    omega
  · rw [← append_assoc, drop_left' (by simp), bytesToWords_wordsToBytes_append]

theorem WellShaped.data_length (hshape : WellShaped ef) :
    ef.data.length = totalWords (ef.count + 1) ef.u := by
  rw [totalWords, ← hshape.l_eq, ← hshape.lower_length, ← hshape.upper_length,
    ← hshape.jump_length, data, length_append, length_append]

/-- Serialized words come back as they were written, whatever follows them. -/
theorem reset_appendBytes (hshape : WellShaped ef) (rest : Bytes) :
    reset (ef.AppendBytes [] ++ rest) = some { ef with i := 0 } := by
  obtain ⟨hcount, ⟨tail, htail, hu⟩, hlong, hwords⟩ := hshape.read_parts rest
  have hn : (ef.count + 1) % 2 ^ 64 = ef.count + 1 := Nat.mod_eq_of_lt hshape.count_lt
  have hmaxOffset : (ef.u + 2 ^ 64 - 1) % 2 ^ 64 = ef.maxOffset := by
    have := hshape.u_eq
    have := hshape.u_lt
    omega
  have hdata := hshape.data_length
  have hroom : totalWords (ef.count + 1) ef.u ≤ (ef.data ++ bytesToWords rest).length := by
    rw [length_append, hdata]
    exact Nat.le_add_right _ _
  simp only [reset, hlong, if_false, hwords, hcount, htail, hu, Option.bind_eq_bind,
    Option.bind_some, deriveFields, hn, hmaxOffset, hroom, if_true, ← hshape.l_eq, take_left' hdata]
  simp only [data, ← hshape.lower_length, ← hshape.upper_length, append_assoc, take_left, drop_left,
    Nat.add_eq_zero_iff, one_ne_zero, and_false, if_false, Option.pure_def, Option.some.injEq]
  rw [← append_assoc, drop_left' (by rw [length_append]), hshape.mask_eq,
    hshape.words_eq, ← hshape.upper_length]

end Finished

end EliasFano

end Erigon
