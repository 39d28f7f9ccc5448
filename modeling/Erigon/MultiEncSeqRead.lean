/-
What a reader of a serialized sequence yields, for every encoding, and the
round trip from the builder to the reader.
-/
import Erigon.MultiEncSeq

namespace Erigon

open List EliasFano

/-- Answer to a seek: the least element not below `v` if there is one. -/
def LeastFrom (xs : List Nat) (v : Nat) (r : Nat × Bool) : Prop :=
  (r.2 = true ∧ r.1 ∈ xs ∧ v ≤ r.1 ∧ ∀ x ∈ xs, v ≤ x → r.1 ≤ x) ∨
    (r.2 = false ∧ ∀ x ∈ xs, x < v)

/-- The reader gives access to exactly the sequence `xs`. -/
structure SequenceReader.Yields (s : SequenceReader) (xs : List Nat) : Prop where
  count : s.Count = xs.length
  get : ∀ i (hi : i < xs.length), s.Get i = some xs[i]
  min : s.Min = xs.head?
  max : s.Max = xs.getLast?
  iterate : s.iterate = some xs
  seek : ∀ v < 2 ^ 64, ∃ r, s.seek v = some r ∧ LeastFrom xs v r

/-- In a sorted list the first element not below `v` is the least one. -/
theorem leastFrom_of_find? {xs : List Nat} (hsorted : xs.Pairwise (· ≤ ·)) {v x : Nat}
    (hfind : xs.find? (fun x => decide (v ≤ x)) = some x) :
    LeastFrom xs v (x, true) := by
  obtain ⟨⟨hmem, hle⟩, hleast⟩ := find?_le_least hsorted hfind
  exact .inl ⟨rfl, hmem, hle, hleast⟩

theorem leastFrom_none {xs : List Nat} {v z : Nat}
    (hfind : xs.find? (fun x => decide (v ≤ x)) = none) : LeastFrom xs v (z, false) := by
  refine .inr ⟨rfl, fun x hx => ?_⟩
  have hnot := find?_eq_none.mp hfind x hx
  rw [decide_eq_true_eq] at hnot
  exact Nat.lt_of_not_le hnot

/-! ### Elias-Fano readers -/

section Rebased

variable {baseNum : Nat} {xs : List Nat} {ef : EliasFano}

/-- `ef` holds the distances of `xs` from the base number. -/
structure RebasedEliasFano.Encodes (baseNum : Nat) (ef : EliasFano) (xs : List Nat) :
    Prop where
  distances : EliasFano.Encodes ef (xs.map fun x => x - baseNum)
  ge : ∀ x ∈ xs, baseNum ≤ x
  lt : ∀ x ∈ xs, x < 2 ^ 64

theorem map_add64_sub (hge : ∀ x ∈ xs, baseNum ≤ x) (hlt : ∀ x ∈ xs, x < 2 ^ 64) :
    (xs.map fun x => x - baseNum).map (add64 baseNum) = xs := by
  rw [map_map]
  conv_rhs => rw [← map_id xs]
  apply map_congr_left
  intro x hx
  exact add64_sub (hge x hx) (hlt x hx)

namespace RebasedEliasFano

section

variable (hencodes : Encodes baseNum ef xs)

include hencodes

theorem Encodes.sorted : xs.Pairwise (· ≤ ·) := by
  have hsorted := pairwise_map.mp hencodes.distances.sorted
  apply hsorted.imp_of_mem
  intro a b ha hb hle
  have := hencodes.ge a ha
  have := hencodes.ge b hb
  omega

theorem Encodes.Count_eq : Count ⟨baseNum, ef⟩ = xs.length := by
  rw [Count, hencodes.distances.Count_eq, length_map]

theorem Encodes.Get_eq {i : Nat} (hi : i < xs.length) : Get ⟨baseNum, ef⟩ i = some xs[i] := by
  have hx := getElem_mem hi
  rw [Get, hencodes.distances.Get_eq (by rw [length_map]; exact hi),
    getElem_map, Option.map_some, add64_sub (hencodes.ge _ hx) (hencodes.lt _ hx)]

theorem Encodes.Min_eq : Min ⟨baseNum, ef⟩ = xs.head? := by
  rw [Min, hencodes.distances.Min_eq, ← head?_map, map_add64_sub hencodes.ge hencodes.lt]

theorem Encodes.Max_eq : some (Max ⟨baseNum, ef⟩) = xs.getLast? := by
  have hmax := congrArg (Option.map (add64 baseNum)) hencodes.distances.max_eq
  rw [← getLast?_map, map_add64_sub hencodes.ge hencodes.lt] at hmax
  exact hmax.symm

theorem Encodes.iterate_eq : iterate ⟨baseNum, ef⟩ = some xs := by
  rw [iterate, hencodes.distances.toList_Iterator, Option.map_some,
    map_add64_sub hencodes.ge hencodes.lt]

/-- Seeking in distances is seeking in the sequence. -/
theorem Encodes.Seek_spec {v : Nat}
    (hv : v < 2 ^ 64) : ∃ r, Seek ⟨baseNum, ef⟩ v = some r ∧ LeastFrom xs v r := by
  have hbase : baseNum < 2 ^ 64 := by
    have hpos := hencodes.distances.pos
    rw [length_map] at hpos
    have hx := getElem_mem hpos
    exact Nat.lt_of_le_of_lt (hencodes.ge _ hx) (hencodes.lt _ hx)
  have hsub : sub64 (if v < baseNum then baseNum else v) baseNum = v - baseNum := by
    split
    · rw [sub64_eq (Nat.le_refl _) hbase]
      omega
    · rw [sub64_eq (by omega) hv]
  have hfind : (xs.map fun x => x - baseNum).find?
        (fun x => decide (v - baseNum ≤ x)) =
      (xs.find? fun x => decide (v ≤ x)).map fun x => x - baseNum := by
    rw [find?_map]
    congr 1
    apply find?_congr
    intro x hx
    have := hencodes.ge x hx
    show decide (v - baseNum ≤ x - baseNum) = decide (v ≤ x)
    exact decide_eq_decide.mpr (by omega)
  simp only [Seek, hsub, hencodes.distances.Seek_eq, hfind]
  cases hfound : xs.find? (fun x => decide (v ≤ x)) with
  | none => exact ⟨_, rfl, leastFrom_none hfound⟩
  | some x =>
    have hx := mem_of_find?_eq_some hfound
    refine ⟨(x, true), ?_, leastFrom_of_find? hencodes.sorted hfound⟩
    simp [add64_sub (hencodes.ge x hx) (hencodes.lt x hx)]

theorem Encodes.yields_rebased : (SequenceReader.rebasedEliasFano ⟨baseNum, ef⟩).Yields xs :=
  ⟨hencodes.Count_eq, fun _ hi => hencodes.Get_eq hi, hencodes.Min_eq, hencodes.Max_eq,
    hencodes.iterate_eq, fun _ hv => hencodes.Seek_spec hv⟩

end

end RebasedEliasFano

end Rebased

theorem SimpleSequence.yields {baseNum : Nat} {xs : List Nat} (hne : xs ≠ [])
    (hreach : InReach baseNum xs) (hlength : xs.length ≤ 2 ^ 32)
    (hsorted : xs.Pairwise (· ≤ ·)) :
    (SequenceReader.simpleEncoding ⟨baseNum, deltas baseNum xs⟩).Yields xs := by
  have hpos : 0 < xs.length := length_pos_iff.mpr hne
  refine ⟨Count_eq, fun _ hi => Get_eq hreach hlength hi, ?_, ?_,
    toList_Iterator hreach hlength, ?_⟩
  · show Get _ 0 = _
    rw [Get_eq hreach hlength hpos, head?_eq_getElem?, getElem?_eq_getElem hpos]
  · show Get _ (sub64 (Count _) 1) = _
    rw [Count_eq, sub64_eq hpos (by omega), Get_eq hreach hlength (by omega),
      getLast?_eq_getElem?, getElem?_eq_getElem (by omega)]
  · intro v _
    show ∃ r, Seek _ v = some r ∧ _
    rw [Seek_eq hreach hlength hsorted]
    cases hfound : xs.find? (fun x => decide (v ≤ x)) with
    | none => exact ⟨_, rfl, leastFrom_none hfound⟩
    | some x => exact ⟨_, rfl, leastFrom_of_find? hsorted hfound⟩

/-! ### Round trip -/

namespace SequenceBuilder

theorem foldlM_addOffset (baseNum : Nat) (ef : EliasFano) (xs : List Nat) :
    xs.foldlM addOffset (⟨baseNum, ef⟩ : SequenceBuilder) =
      (xs.foldlM EliasFano.addOffset ef).map (⟨baseNum, ·⟩) := by
  induction xs generalizing ef with
  | nil => rfl
  | cons x xs ih =>
    rw [foldlM_cons, foldlM_cons, addOffset]
    cases ef.addOffset x with
    | none => rfl
    | some ef' => exact ih ef'

theorem encode_eq (baseNum count maxOffset : Nat) (xs : List Nat) :
    encode baseNum count maxOffset xs =
      (EliasFano.ofList count maxOffset xs).bind fun ef =>
        AppendBytes ⟨baseNum, ef⟩ [] := by
  rw [encode, EliasFano.ofList, new]
  cases EliasFano.new count maxOffset with
  | none => rfl
  | some ef =>
    simp only [Option.map_some, Option.bind_eq_bind, Option.bind_some, foldlM_addOffset]
    cases xs.foldlM EliasFano.addOffset ef with
    | none => rfl
    | some ef' =>
      simp only [Option.map_some, Option.bind_some, build]
      cases ef'.build <;> rfl

/-- The condition under which a builder does not panic: the first encoding of
the elements, and for a long sequence the second one of their distances from the
base, are within the limits of `EliasFano`. -/
def Builds (baseNum maxOffset : Nat) (xs : List Nat) : Prop :=
  EliasFano.Encodable xs maxOffset ∧
    (simpleSequenceMaxThreshold < xs.length →
      EliasFano.Encodable (xs.map fun x => x - baseNum) (maxOffset - baseNum))

/-- What the caller of a builder promises. -/
structure Admissible (baseNum maxOffset : Nat) (xs : List Nat) : Prop where
  ascending : xs.Pairwise (· < ·)
  last : xs.getLast? = some maxOffset
  ge : ∀ x ∈ xs, baseNum ≤ x
  max_lt : maxOffset < 2 ^ 63
  short : xs.length ≤ simpleSequenceMaxThreshold → maxOffset - baseNum < 2 ^ 32

/-- The bytes `bytes` represent `xs` relative to `baseNum`. -/
structure Represents (baseNum : Nat) (xs : List Nat) (bytes : Bytes) : Prop where
  reader : ∃ s, SequenceReader.read baseNum bytes = some s ∧ s.Yields xs
  rawCount : MultiEncSeq.Count bytes = some xs.length
  rawSeek : ∀ v < 2 ^ 64, ∃ r, MultiEncSeq.Seek baseNum bytes v = some r ∧
    LeastFrom xs v r

theorem Represents.of_reader {baseNum : Nat} {xs : List Nat} {bytes : Bytes}
    {s : SequenceReader} (hread : SequenceReader.read baseNum bytes = some s)
    (hyields : s.Yields xs) (hcount : MultiEncSeq.Count bytes = some xs.length) :
    Represents baseNum xs bytes where
  reader := ⟨s, hread, hyields⟩
  rawCount := hcount
  rawSeek := fun v hv => by
    rw [MultiEncSeq.Seek, hread]
    exact hyields.seek v hv

/-- The size nibble of the simple encoding. -/
theorem simple_enc_byte : ∀ k < 16,
    (UInt8.ofNat k &&& 0b00001111 ||| simpleEncodingType) &&& plainEliasFanoMask ≠ 0 ∧
    (UInt8.ofNat k &&& 0b00001111 ||| simpleEncodingType) ≠ rebasedEliasFanoType ∧
    (UInt8.ofNat k &&& 0b00001111 ||| simpleEncodingType) &&& simpleEncodingMask =
      simpleEncodingType ∧
    ((UInt8.ofNat k &&& 0b00001111 ||| simpleEncodingType) &&&
      simpleEncodingSizeMask).toNat = k := by
  decide

section RoundTrip

variable {baseNum maxOffset : Nat} {xs : List Nat} (hadm : Admissible baseNum maxOffset xs)

include hadm

theorem Admissible.sorted : xs.Pairwise (· ≤ ·) :=
  hadm.ascending.imp Nat.le_of_lt

theorem Admissible.le : ∀ x ∈ xs, x ≤ maxOffset :=
  le_of_getLast? hadm.sorted hadm.last

/-- A strictly ascending sequence is no longer than its greatest element. -/
theorem Admissible.length_le : xs.length ≤ maxOffset + 1 := by
  have hsubset : xs ⊆ List.range (maxOffset + 1) := fun x hx =>
    mem_range.mpr (Nat.lt_succ_of_le (hadm.le x hx))
  have hnodup : xs.Nodup := hadm.ascending.imp Nat.ne_of_lt
  simpa using (hnodup.subperm hsubset).length_le

theorem Admissible.rebased_last :
    (xs.map fun x => x - baseNum).getLast? = some (maxOffset - baseNum) := by
  rw [getLast?_map, hadm.last, Option.map_some]

theorem Admissible.rebased_sorted : (xs.map fun x => x - baseNum).Pairwise (· ≤ ·) := by
  rw [pairwise_map]
  exact hadm.sorted.imp fun hle => Nat.sub_le_sub_right hle baseNum

theorem Admissible.map_sub64 : (xs.map fun x => sub64 x baseNum) = xs.map fun x => x - baseNum := by
  apply map_congr_left
  intro x hx
  have := hadm.le x hx
  have := hadm.max_lt
  exact sub64_eq (hadm.ge x hx) (by omega)

theorem simpleEncoding_represents {ef : EliasFano} (hencodes : Encodes ef xs)
    (hshort : xs.length ≤ simpleSequenceMaxThreshold) :
    ∃ bytes, simpleEncoding ⟨baseNum, ef⟩ [] = some bytes ∧
      Represents baseNum xs bytes := by
  have hpos := hencodes.pos
  have hmax := hadm.max_lt
  have h16 : xs.length ≤ 16 := hshort
  obtain ⟨hplain, hrebased, hsimple, hsize⟩ :=
    simple_enc_byte (xs.length - 1) (by omega)
  have hcount : sub64 ef.Count 1 = xs.length - 1 := by
    rw [hencodes.Count_eq, sub64_eq hpos hencodes.length_lt]
  have hreach : SimpleSequence.InReach baseNum xs := by
    intro x hx
    have hdist := hadm.short hshort
    have hle := hadm.le x hx
    exact ⟨hadm.ge x hx, by omega, by omega⟩
  refine ⟨_, by simp [simpleEncoding, hcount, hencodes.toList_Iterator]; rfl, ?_⟩
  refine Represents.of_reader (s := .simpleEncoding
    ⟨baseNum, SimpleSequence.deltas baseNum xs⟩) ?_ ?_ ?_
  · simp [SequenceReader.read, hplain, hrebased, hsimple, SimpleSequence.deltas]
  · exact SimpleSequence.yields (length_pos_iff.mp hpos) hreach (by omega)
      hadm.sorted
  · simp only [MultiEncSeq.Count, head?_cons, Option.bind_eq_bind, Option.bind_some, hplain,
      hrebased, hsimple, if_false, if_true, Option.pure_def, hsize, Nat.sub_add_cancel hpos]

theorem rebased_bytes {ef : EliasFano}
    (hencodes : Encodes ef (xs.map fun x => x - baseNum))
    (hshape : WellShaped ef) :
    Represents baseNum xs (ef.AppendBytes [rebasedEliasFanoType]) := by
  have hbytes : ef.AppendBytes [rebasedEliasFanoType] =
      rebasedEliasFanoType :: ef.AppendBytes [] := by
    simp [EliasFano.AppendBytes]
  have hreset := EliasFano.reset_appendBytes hshape []
  rw [append_nil] at hreset
  have hencodes' : RebasedEliasFano.Encodes baseNum { ef with i := 0 } xs := by
    refine ⟨?_, hadm.ge, ?_⟩
    · cases hencodes
      constructor <;> assumption
    · intro x hx
      have := hadm.le x hx
      have := hadm.max_lt
      omega
  have hcount : ef.count % 256 ^ 8 + 1 = xs.length := by
    have hlt := hshape.count_lt
    have heq := hencodes.count_eq
    rw [length_map] at heq
    rw [Nat.mod_eq_of_lt (by omega)]
    exact heq
  have htype : rebasedEliasFanoType &&& plainEliasFanoMask ≠ 0 := by decide
  rw [hbytes]
  refine Represents.of_reader ?_ hencodes'.yields_rebased ?_
  · simp [SequenceReader.read, htype, RebasedEliasFano.reset, hreset]
  · have hlt := hencodes.length_lt
    rw [length_map] at hlt
    simp only [MultiEncSeq.Count, head?_cons, tail_cons, eliasFanoCount, EliasFano.AppendBytes,
      nil_append, append_assoc, htype, if_false, readUint_beBytes_append, Option.bind_eq_bind,
      Option.bind_some, Option.pure_def, hcount, if_true]
    rw [Nat.mod_eq_of_lt hlt]

theorem Admissible.builds_of_encode
    {bytes : Bytes} (hencode : encode baseNum xs.length maxOffset xs = some bytes) :
    Builds baseNum maxOffset xs := by
  have hmax := hadm.max_lt
  have hlen := hadm.length_le
  rw [encode_eq, Option.bind_eq_some_iff] at hencode
  obtain ⟨ef, hef, hbytes⟩ := hencode
  have hfirst := EliasFano.encodable_of_ofList hadm.sorted (by omega)
    hadm.le (by omega) hef
  refine ⟨hfirst, fun hlong => ?_⟩
  obtain ⟨ef', hef', hencodes, -, hmaxOffset⟩ :=
    EliasFano.ofList_spec hadm.sorted (by omega) hadm.last hfirst
  rw [hef, Option.some.injEq] at hef'
  subst hef'
  rw [AppendBytes, hencodes.Count_eq, if_neg (Nat.not_le.mpr hlong), rebasedEliasFano,
    hencodes.toList_Iterator, hencodes.Count_eq] at hbytes
  have hge : baseNum ≤ maxOffset :=
    hadm.ge maxOffset (mem_of_getLast? hadm.last)
  simp only [Option.bind_eq_bind, Option.bind_some, Option.bind_eq_some_iff,
    hadm.map_sub64, EliasFano.Max, hmaxOffset, sub64_eq hge (by omega : maxOffset < 2 ^ 64)]
    at hbytes
  obtain ⟨rbef, hrbef, -⟩ := hbytes
  have hlength : (xs.map fun x => x - baseNum).length = xs.length := length_map _
  rw [← hlength] at hrbef hlen
  exact EliasFano.encodable_of_ofList hadm.rebased_sorted (by omega)
    (le_of_getLast? hadm.rebased_sorted hadm.rebased_last) (by omega) hrbef

theorem Admissible.encode_of_builds (hbuilds : Builds baseNum maxOffset xs) :
    ∃ bytes, encode baseNum xs.length maxOffset xs = some bytes ∧
      Represents baseNum xs bytes := by
  have hmax := hadm.max_lt
  obtain ⟨ef, hef, hencodes, -, hmaxOffset⟩ :=
    EliasFano.ofList_spec hadm.sorted (by omega) hadm.last hbuilds.1
  rw [encode_eq, hef, Option.bind_some, AppendBytes, hencodes.Count_eq]
  by_cases hshort : xs.length ≤ simpleSequenceMaxThreshold
  · rw [if_pos hshort]
    exact simpleEncoding_represents hadm hencodes hshort
  · rw [if_neg hshort]
    have hge : baseNum ≤ maxOffset :=
      hadm.ge maxOffset (mem_of_getLast? hadm.last)
    obtain ⟨rbef, hrbef, hrebased, hshape, -⟩ := EliasFano.ofList_spec
      hadm.rebased_sorted (by omega) hadm.rebased_last
      (hbuilds.2 (Nat.lt_of_not_le hshort))
    rw [length_map] at hrbef
    refine ⟨_, ?_, rebased_bytes hadm hrebased hshape⟩
    simp [rebasedEliasFano, hencodes.toList_Iterator, hencodes.Count_eq, hadm.map_sub64,
      EliasFano.Max, hmaxOffset, sub64_eq hge (by omega : maxOffset < 2 ^ 64), hrbef]

theorem Admissible.builds_of_length_le
    (hlength : xs.length ≤ 2 ^ 29) : Builds baseNum maxOffset xs := by
  have hmax := hadm.max_lt
  have hpos : 0 < xs.length := length_pos_of_mem (mem_of_getLast? hadm.last)
  refine ⟨encodable_of_length_le hpos hadm.le (by omega) hlength, fun _ => ?_⟩
  refine encodable_of_length_le (by rw [length_map]; exact hpos) ?_
    (by omega) (by rw [length_map]; exact hlength)
  exact le_of_getLast? hadm.rebased_sorted hadm.rebased_last

end RoundTrip

/-- Round trip of a serialized sequence.  A builder finishes exactly on the
sequences whose jump distances and memory are within the limits, which covers
every sequence of at most `2 ^ 29` elements, and whatever it writes is read back
as the sequence by every reader function. -/
theorem encode_roundTrip {baseNum maxOffset : Nat} {xs : List Nat}
    (hadm : Admissible baseNum maxOffset xs) :
    ((∃ bytes, encode baseNum xs.length maxOffset xs = some bytes) ↔
      Builds baseNum maxOffset xs) ∧
    (∀ bytes, encode baseNum xs.length maxOffset xs = some bytes →
      Represents baseNum xs bytes) ∧
    (xs.length ≤ 2 ^ 29 → Builds baseNum maxOffset xs) := by
  refine ⟨⟨fun ⟨bytes, hencode⟩ => hadm.builds_of_encode hencode, fun hbuilds => ?_⟩,
    fun bytes hencode => ?_, hadm.builds_of_length_le⟩
  · obtain ⟨bytes, hencode, -⟩ := hadm.encode_of_builds hbuilds
    exact ⟨bytes, hencode⟩
  · obtain ⟨bytes', hencode', hrepresents⟩ :=
      hadm.encode_of_builds (hadm.builds_of_encode hencode)
    rw [hencode, Option.some.injEq] at hencode'
    rw [hencode']
    exact hrepresents

theorem encode_roundTrip_three :
    Admissible 3 12 [5, 9, 12] ∧
    ∃ bytes, encode 3 3 12 [5, 9, 12] = some bytes ∧ Represents 3 [5, 9, 12] bytes := by
  have hadm : Admissible 3 12 [5, 9, 12] :=
    ⟨by decide, rfl, by decide, by decide, by decide⟩
  obtain ⟨hiff, hread, hsmall⟩ := encode_roundTrip hadm
  obtain ⟨bytes, hbytes⟩ := hiff.mpr (hsmall (by decide))
  exact ⟨hadm, bytes, hbytes, hread bytes hbytes⟩

/-- Consecutive numbers with one gap behind the first block. -/
def gapped (n gap : Nat) : List Nat :=
  (List.range n).map fun i => if i < q then i else i + gap

theorem gapped_length (n gap : Nat) : (gapped n gap).length = n := by
  rw [gapped, length_map, length_range]

theorem gapped_getElem {n gap i : Nat} (hi : i < n) :
    (gapped n gap).getD i 0 = if i < q then i else i + gap := by
  rw [gapped, getD_eq_getElem?_getD, getElem?_map, getElem?_range hi]
  rfl

theorem gapped_admissible {n gap : Nat} (hn : q < n) (hlt : n + gap < 2 ^ 63)
    (hlong : simpleSequenceMaxThreshold < n) :
    Admissible 0 (n - 1 + gap) (gapped n gap) := by
  refine ⟨?_, ?_, fun x _ => Nat.zero_le x, by omega, ?_⟩
  · rw [gapped, pairwise_map]
    refine pairwise_lt_range.imp fun hij => ?_
    split <;> split <;> omega
  · rw [gapped, getLast?_map, getLast?_range]
    simp only [show n ≠ 0 by omega, if_false, Option.map_some]
    rw [if_neg (by omega)]
  · rw [gapped_length]
    omega

/-- A gap of `2 ^ 32` inside a superblock of a dense sequence stops the
builder. -/
theorem gapped_not_builds {n gap : Nat} (hgap : 2 ^ 32 ≤ gap) (hn : gap < n) :
    ¬ Builds 0 (n - 1 + gap) (gapped n gap) := by
  rintro ⟨⟨-, hfits⟩, -⟩
  apply hfits
  rw [gapped_length]
  have hdiv : (n - 1 + gap + 1) / n = 1 := by
    rw [Nat.div_eq_iff (by omega)]
    omega
  have hl : lowerWidth n (n - 1 + gap + 1) = 0 := by
    rw [lowerWidth, hdiv]
    decide
  have hq : q < n := by
    rw [q]
    omega
  refine ⟨q, hq, rfl, ?_⟩
  rw [hl, place, place, gapped_getElem hq,
    gapped_getElem (show superStart q < n by rw [show superStart q = 0 from rfl]; omega)]
  simp only [Nat.lt_irrefl, if_false, Nat.shiftRight_zero, show superStart q = 0 from rfl]
  have hzero : 0 < q := by decide
  rw [if_pos hzero]
  omega

/-- Four billion elements with one gap: the builder panics. -/
theorem encode_gapped_panics :
    Admissible 0 (2 ^ 33) (gapped (2 ^ 32 + 1) (2 ^ 32)) ∧
    encode 0 (gapped (2 ^ 32 + 1) (2 ^ 32)).length (2 ^ 33)
      (gapped (2 ^ 32 + 1) (2 ^ 32)) = none := by
  have hadm : Admissible 0 (2 ^ 32 + 1 - 1 + 2 ^ 32) (gapped (2 ^ 32 + 1) (2 ^ 32)) :=
    gapped_admissible (by decide) (by decide) (by decide)
  have hnot : ¬ Builds 0 (2 ^ 32 + 1 - 1 + 2 ^ 32) (gapped (2 ^ 32 + 1) (2 ^ 32)) :=
    gapped_not_builds (Nat.le_refl _) (Nat.lt_succ_self _)
  rw [show 2 ^ 32 + 1 - 1 + 2 ^ 32 = 2 ^ 33 by norm_num] at hadm hnot
  refine ⟨hadm, ?_⟩
  cases hencode : encode 0 (gapped (2 ^ 32 + 1) (2 ^ 32)).length (2 ^ 33)
      (gapped (2 ^ 32 + 1) (2 ^ 32)) with
  | none => rfl
  | some bytes => exact absurd (hadm.builds_of_encode hencode) hnot

end SequenceBuilder

end Erigon
