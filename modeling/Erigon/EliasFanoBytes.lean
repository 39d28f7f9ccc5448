/-
A serialized Elias-Fano sequence: reading it as a whole, and its least element straight from the
bytes.
-/
import Erigon.EliasFanoRead

namespace Erigon

open List

open EliasFano (lowerWidth wordsLower wordsUpper)

/-- `ReadEliasFano`: the sequence, and how many bytes it takes. -/
def readEliasFano (r : Bytes) : Option (EliasFano × Nat) :=
  (EliasFano.reset r).map fun ef => (ef, 16 + 8 * ef.data.length)

/-- `eliasfano32.Max` on serialized bytes. -/
def eliasFanoMax (r : Bytes) : Option Nat := do
  return ((← readUint 8 (← sliceFrom 8 r)) + 2 ^ 64 - 1) % 2 ^ 64

/-- The end of `eliasfano32.Min`, on the parts of the sequence; it looks at one more word of the
upper bits at most. -/
def firstOf (l : Nat) (lowerBits upperBits jump : List Word) : Option Nat := do
  let lower ← lowerBits[0]?
  let j := ((← jump[0]?) + ((← jump[1]?) &&& 0xffffffff#64)).toNat
  let window := (← upperBits[j / 64]?) &&& onesFrom (j % 64)
  let (currWord, window) ← if onesCount64 window ≤ 0 then
      upperBits[j / 64 + 1]?.map fun next => (j / 64 + 1, next)
    else some (j / 64, window)
  let sel ← select64 window 0
  return ((BitVec.ofNat 64 (currWord * 64 + sel) <<< l) |||
    (lower &&& ((1#64 <<< l) - 1#64))).toNat

/-- `eliasfano32.Min` on serialized bytes. -/
def eliasFanoMin (r : Bytes) : Option Nat := do
  let count ← readUint 8 r
  let u ← readUint 8 (← sliceFrom 8 r)
  if r.length ≤ 16 then none
  let p := bytesToWords (r.drop 16)
  let n := (count + 1) % 2 ^ 64
  if n = 0 then none -- integer divide by zero
  let l := lowerWidth n u
  if p.length < wordsLower n l + wordsUpper n u l then none
  firstOf l (p.take (wordsLower n l)) ((p.drop (wordsLower n l)).take (wordsUpper n u l))
    (p.drop (wordsLower n l + wordsUpper n u l))

namespace EliasFano

variable {ef : EliasFano} {xs : List Nat}

/-- The jump table starts with the place of the first element, whose window holds it. -/
theorem Encodes.first_window (hencodes : Encodes ef xs) :
    ∃ start slot word sel, ef.jump[0]? = some start ∧ ef.jump[1]? = some slot ∧
      (start + (slot &&& 0xffffffff#64)).toNat = place xs ef.l 0 ∧
      ef.upperBits[place xs ef.l 0 / 64]? = some word ∧
      ¬onesCount64 (word &&& onesFrom (place xs ef.l 0 % 64)) ≤ 0 ∧
      select64 (word &&& onesFrom (place xs ef.l 0 % 64)) 0 = some sel ∧
      64 * (place xs ef.l 0 / 64) + sel = place xs ef.l 0 := by
  have hpos := hencodes.pos
  have hbit := (hencodes.upper.bit_iff (place xs ef.l 0)).mpr ⟨0, hpos, rfl⟩
  have hroom := lt_of_bitAt hbit
  have hlt : place xs ef.l 0 < 2 ^ 64 := Nat.lt_of_lt_of_le hroom hencodes.upper_lt
  have hword : place xs ef.l 0 / 64 < ef.upperBits.length := by omega
  have hjump : layout.jumpTo ef.jump 0 = some (place xs ef.l 0) :=
    hencodes.records.jumpTo layout_disjoint hencodes.upper.mono hpos hlt
  have hset : (ef.upperBits[place xs ef.l 0 / 64] &&& onesFrom (place xs ef.l 0 % 64)).getLsbD
      (place xs ef.l 0 % 64) = true := by
    rw [windowAt_and_onesFrom hword _ (Nat.mod_lt _ (by decide)), Nat.div_add_mod, hbit]
    simp
  have hsome : ¬onesCount64 (ef.upperBits[place xs ef.l 0 / 64] &&&
      onesFrom (place xs ef.l 0 % 64)) ≤ 0 := by
    rw [onesCount64_le_zero_iff]
    intro hzero
    rw [hzero] at hset
    simp at hset
  have hlocate : layout.locate ef.upperBits ef.jump 0 = some (place xs ef.l 0 / 64,
      ef.upperBits[place xs ef.l 0 / 64] &&& onesFrom (place xs ef.l 0 % 64), 0) := by
    simp only [JumpLayout.locate, hjump, Option.bind_eq_bind, Option.bind_some,
      getElem?_eq_getElem hword, Nat.zero_and]
    cases ef.upperBits.drop (place xs ef.l 0 / 64 + 1) <;> rw [scanSelect, if_neg hsome]
  obtain ⟨currWord, window, sel, hselect, hplace, -⟩ :=
    JumpLayout.select_spec layout_disjoint hencodes.upper hencodes.records hencodes.upper_lt hpos
  rw [JumpLayout.select, hlocate, Option.bind_some, Option.map_eq_some_iff] at hselect
  obtain ⟨sel', hsel, heq⟩ := hselect
  simp only [Prod.mk.injEq] at heq
  obtain ⟨rfl, -, rfl⟩ := heq
  simp only [JumpLayout.jumpTo, Option.bind_eq_bind, Option.bind_eq_some_iff, Option.pure_def,
    Option.some.injEq] at hjump
  obtain ⟨start, hstart, slot, hslot, hto⟩ := hjump
  refine ⟨start, slot, _, sel', hstart, hslot, ?_, getElem?_eq_getElem hword, hsome, hsel,
    hplace⟩
  rw [← hto]
  simp [layout, q]

/-- The least element, from the parts, whatever follows the jump table. -/
theorem Encodes.firstOf_eq (hencodes : Encodes ef xs) (more : List Word) :
    firstOf ef.l ef.lowerBits ef.upperBits (ef.jump ++ more) = xs.head? := by
  have hpos := hencodes.pos
  obtain ⟨start, slot, word, sel, hstart, hslot, hj, hword, hsome, hsel, hplace⟩ :=
    hencodes.first_window
  obtain ⟨-, lower, hwindow, hlower, -⟩ := hencodes.lower_window hpos
  have hfirst : ef.lowerBits[0]? = some lower := by
    simpa [EliasFano.window] using hwindow
  have hjump {i : Nat} {w : Word} (hw : ef.jump[i]? = some w) :
      (ef.jump ++ more)[i]? = some w := by
    rw [List.getElem?_append_left (List.getElem?_eq_some_iff.mp hw).1, hw]
  have hval : (BitVec.ofNat 64 (place xs ef.l 0 / 64 * 64 + sel) <<< ef.l) |||
      (lower &&& ((1#64 <<< ef.l) - 1#64)) = BitVec.ofNat 64 xs[0] := by
    rw [Nat.mul_comm, hplace, place_eq hpos, Nat.add_zero, join_parts hencodes.l_lt hlower]
  rw [List.head?_eq_getElem?, List.getElem?_eq_getElem hpos]
  simp only [firstOf, Option.bind_eq_bind, Option.bind_eq_some_iff, Option.pure_def]
  refine ⟨lower, hfirst, start, hjump hstart, slot, hjump hslot, word, ?_, ?_⟩
  · rw [hj, hword]
  · rw [hj, if_neg hsome, Option.bind_some, hsel, Option.bind_some, hval, BitVec.toNat_ofNat,
      Nat.mod_eq_of_lt (hencodes.lt hpos)]

/-- The least element, from the bytes. -/
theorem Encodes.eliasFanoMin_eq (hencodes : Encodes ef xs) (hshape : WellShaped ef)
    (rest : Bytes) : eliasFanoMin (ef.AppendBytes [] ++ rest) = xs.head? := by
  obtain ⟨hcount, ⟨tail, htail, hu⟩, hlong, hwords⟩ := hshape.read_parts rest
  have hn : (ef.count + 1) % 2 ^ 64 = ef.count + 1 := Nat.mod_eq_of_lt hshape.count_lt
  have hsplit : ef.data ++ bytesToWords rest =
      ef.lowerBits ++ (ef.upperBits ++ (ef.jump ++ bytesToWords rest)) := by
    simp only [data, append_assoc]
  have hroom : ¬(ef.data ++ bytesToWords rest).length <
      ef.lowerBits.length + ef.upperBits.length := by
    simp only [hsplit, length_append]
    omega
  simp only [eliasFanoMin, hcount, htail, hu, hlong, hwords, if_false, Option.bind_eq_bind,
    Option.bind_some, hn, ← hshape.l_eq, ← hshape.lower_length, ← hshape.upper_length, hroom,
    Nat.add_eq_zero_iff, one_ne_zero, and_false]
  rw [← drop_drop, hsplit, take_left, drop_left, take_left, drop_left,
    hencodes.firstOf_eq]

/-- What a sequence is asked for. -/
structure Holds (ef : EliasFano) (xs : List Nat) : Prop where
  get : ∀ i < xs.length, ef.Get i = xs[i]?
  count : ef.Count = xs.length
  min : ef.Min = xs.head?
  max : some ef.Max = xs.getLast?

theorem Encodes.holds (hencodes : Encodes ef xs) : Holds ef xs where
  get i hi := by rw [hencodes.Get_eq hi, getElem?_eq_getElem hi]
  count := hencodes.Count_eq
  min := hencodes.Min_eq
  max := hencodes.max_eq.symm

/-- A sequence of up to `2 ^ 29` numbers is built, and it and what is read from its bytes, with
whatever follows them, answer for it. -/
theorem ofList_roundTrip (xs : List Nat) (maxOffset : Nat) (hsorted : xs.Pairwise (· ≤ ·))
    (hlast : xs.getLast? = some maxOffset) (hmax : maxOffset < 2 ^ 63)
    (hlength : xs.length ≤ 2 ^ 29) (rest : Bytes) :
    ∃ ef, ofList xs.length maxOffset xs = some ef ∧ Holds ef xs ∧
      (∃ ef', readEliasFano (ef.AppendBytes [] ++ rest) =
        some (ef', (ef.AppendBytes []).length) ∧ Holds ef' xs) ∧
      eliasFanoMin (ef.AppendBytes [] ++ rest) = xs.head? ∧
      eliasFanoMax (ef.AppendBytes [] ++ rest) = xs.getLast? ∧
      eliasFanoCount (ef.AppendBytes [] ++ rest) = some xs.length := by
  have hpos : 0 < xs.length := List.length_pos_of_mem (List.mem_of_getLast? hlast)
  obtain ⟨ef, hbuild, hencodes, hshape, hmaxOffset⟩ := ofList_spec hsorted (by omega) hlast
    (encodable_of_length_le hpos (le_of_getLast? hsorted hlast) (by omega) hlength)
  obtain ⟨hcount, ⟨tail, htail, hu⟩, -⟩ := hshape.read_parts rest
  have hencodes' : Encodes { ef with i := 0 } xs := by
    cases hencodes
    constructor <;> assumption
  refine ⟨ef, hbuild, hencodes.holds, ⟨{ ef with i := 0 }, ?_, hencodes'.holds⟩,
    hencodes.eliasFanoMin_eq hshape rest, ?_, ?_⟩
  · rw [readEliasFano, reset_appendBytes hshape]
    simp [AppendBytes, data]
    omega
  · have hback : (ef.u + 2 ^ 64 - 1) % 2 ^ 64 = maxOffset := by
      rw [hshape.u_eq, hmaxOffset]
      omega
    simp only [eliasFanoMax, htail, hu, Option.bind_eq_bind, Option.bind_some, Option.pure_def,
      hback, hlast]
  · simp only [eliasFanoCount, hcount, Option.bind_eq_bind, Option.bind_some, Option.pure_def,
      hencodes.count_eq, Nat.mod_eq_of_lt hencodes.length_lt]

theorem ofList_roundTrip_three : ∃ ef, ofList 3 9 [1, 1, 9] = some ef ∧ Holds ef [1, 1, 9] := by
  obtain ⟨ef, hbuild, hholds, -⟩ :=
    ofList_roundTrip [1, 1, 9] 9 (by decide) rfl (by decide) (by decide) []
  exact ⟨ef, hbuild, hholds⟩

end EliasFano

end Erigon
