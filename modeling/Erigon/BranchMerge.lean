/-
Merging branch data: the records of two values are walked at once, the later one shadows the
earlier, and what a child has lost or had replaced is read over.  The two functions that do it
differ in what they say of data they cannot read.
-/
import Erigon.BitPositions
import Erigon.BranchData

namespace Erigon

open List Option Result

namespace BranchData

/-! ### The merge -/

/-- The children of a map, the lowest first: a loop takes the lowest bit off until none is
left. -/
def nibbles (bitset : BitVec 16) : List Nat := positions bitset.getLsbD 0 16

/-- `bits.OnesCount8`. -/
def onesCount8 (fields : UInt8) : Nat := (positions fields.toBitVec.getLsbD 0 8).length

/-- `cellFields.String`. -/
def fieldsText (fields : UInt8) : String :=
  (if hasField fields fieldExtension then "DownHash" else "") ++
    (if hasField fields fieldAccountAddr then "+AccountPlain" else "") ++
    (if hasField fields fieldStorageAddr then "+StoragePlain" else "") ++
    (if hasField fields fieldHash then "+Hash" else "") ++
    (if hasField fields fieldStateHash then "+LeafHash" else "")

/-- What is said of a value that cannot be merged: of a field, its end and the length of the
value. -/
structure MergeTexts where
  lenSmall : String
  lenOverflow : String
  short : UInt8 → Int → Nat → String

/-- `a + b` of two `int`s. -/
def addInt (a b : Int) : Int := (BitVec.ofInt 64 (a + b)).toInt

variable (texts : MergeTexts)

/-- A field at `pos`: what is copied of it, if it is added, and the position behind it.  A field
that is not added is not sliced, so its length may take the position anywhere. -/
def mergeField (data : Bytes) (add : Bool) (fields : UInt8) (i : Nat)
    (pos : Int) : Result (Bytes × Int) :=
  if pos < 0 ∨ data.length < pos then .panic "slice bounds out of range"
  else
    match uvarint (data.drop pos.toNat) with
    | .error .tooSmall => .error texts.lenSmall
    | .error .overflow => .error texts.lenOverflow
    | .ok (l, rest) =>
      let len := (data.drop pos.toNat).take ((data.drop pos.toNat).length - rest.length)
      let first := addInt pos len.length
      let last := addInt first l
      if data.length < last then
        .error (texts.short (fields &&& UInt8.ofNat (1 <<< i)) last data.length)
      else if !add then .ok ([], last)
      else if last < first then .panic "slice bounds out of range"
      else .ok (len ++ rest.take l, last)

/-- The fields of a record from the `i`-th on. -/
def mergeFields (texts : MergeTexts) (data : Bytes) (add : Bool) (fields : UInt8) :
    Nat → Nat → Int → Result (Bytes × Int)
  | _, 0, pos => .ok ([], pos)
  | i, left + 1, pos => do
    let (field, pos) ← mergeField texts data add fields i pos
    let (more, pos) ← mergeFields texts data add fields (i + 1) left pos
    return (field ++ more, pos)

/-- The record at `pos`, if the child has one. -/
def mergeRecord (data : Bytes) (has add : Bool) (pos : Int) :
    Result (Bytes × Int) :=
  if !has then .ok ([], pos)
  else if pos < 0 then .panic "index out of range"
  else
    match data[pos.toNat]? with
    | none => .panic "index out of range"
    | some fields => do
      let (values, pos) ←
        mergeFields texts data add fields 0 (onesCount8 fields) (addInt pos 1)
      return (if add then fields :: values else [], pos)

section Merge

variable (texts1 texts2 : MergeTexts) (branch1 branch2 : Bytes)

/-- The two maps at the head of a value. -/
def touchMapOf (branch : Bytes) : BitVec 16 := BitVec.ofNat 16 (beNat (branch.take 2))

def afterMapOf (branch : Bytes) : BitVec 16 := BitVec.ofNat 16 (beNat ((branch.drop 2).take 2))

/-- The loop over the children that have a record in one of the values. -/
def mergeCells : List Nat → Int → Int → Result Bytes
  | [], _, _ => .ok []
  | nibble :: rest, pos1, pos2 => do
    let touched2 := (touchMapOf branch2).getLsbD nibble
    let after2 := (afterMapOf branch2).getLsbD nibble
    let (record2, pos2) ← mergeRecord texts2 branch2 (touched2 && after2) true pos2
    let bitmap1 := touchMapOf branch1 &&& afterMapOf branch1
    let (record1, pos1) ←
      mergeRecord texts1 branch1 (bitmap1.getLsbD nibble) (!touched2 && after2) pos1
    return record2 ++ record1 ++ (← mergeCells rest pos1 pos2)

/-- The merge of two values that are there. -/
def mergeBoth : Result Bytes :=
  if branch1.length < 4 ∨ branch2.length < 4 then .panic "index out of range"
  else do
    let bitmap1 := touchMapOf branch1 &&& afterMapOf branch1
    let bitmap2 := touchMapOf branch2 &&& afterMapOf branch2
    let cells ← mergeCells texts1 texts2 branch1 branch2 (nibbles (bitmap1 ||| bitmap2)) 4 4
    return beBytes 2 (touchMapOf branch1 ||| touchMapOf branch2).toNat ++
      beBytes 2 (afterMapOf branch2).toNat ++ cells

end Merge

def mergeHexTexts (which : Nat) : MergeTexts where
  lenSmall := s!"MergeHexBranches buffer{which} too small for field"
  lenOverflow := s!"MergeHexBranches value{which} overflow for field"
  short field last total :=
    s!"MergeHexBranches buffer{which} too small for {fieldsText field} : expected {last} got {total}"

/-- A slice that may be nil. -/
def mergeHexBranches : Option Bytes → Option Bytes → Result (Option Bytes)
  | branchData, none => .ok branchData
  | none, branchData2 => .ok branchData2
  | some branchData, some branchData2 =>
    (mergeBoth (mergeHexTexts 1) (mergeHexTexts 2) branchData branchData2).map some

def mergerTexts (which : Nat) : MergeTexts where
  lenSmall := s!"MergeHexBranches branch{which} is too small: expected node info size"
  lenOverflow := s!"MergeHexBranches branch{which}: size overflow for length"
  short _ last total :=
    s!"MergeHexBranches branch{which} is too small: expected at least {last} got {total} bytes"

/-- `BranchMerger.Merge`. -/
def merge (branch1 branch2 : Option Bytes) : Result (Option Bytes) :=
  if branch2.getD [] = [] then .ok branch1
  else if branch1.getD [] = [] then .ok branch2
  else
    (mergeBoth (mergerTexts 1) (mergerTexts 2) (branch1.getD []) (branch2.getD [])).map some

/-! ### Values -/

/-- A field as it stands in a record: its length, in any form that reads so, and its bytes. -/
structure Field where
  len : Bytes
  val : Bytes
  reads : ∀ rest, uvarint (len ++ rest) = .ok (val.length, rest)

/-- A record: which fields there are, and they. -/
structure Record where
  fields : UInt8
  values : List Field
  count : values.length = onesCount8 fields

def Field.bytes (f : Field) : Bytes := f.len ++ f.val

def Record.bytes (r : Record) : Bytes := r.fields :: r.values.flatMap Field.bytes

/-- The bytes of a child that may have no record. -/
def cellBytes (cell : Option Record) : Bytes := cell.elim [] Record.bytes

/-- Well-formed branch data: a record for every child that is touched and present. -/
structure Value where
  touchMap : BitVec 16
  afterMap : BitVec 16
  cell : Nat → Option Record
  cell_isSome : ∀ nibble, (cell nibble).isSome =
    (touchMap.getLsbD nibble && afterMap.getLsbD nibble)

/-- A header and the records of some children. -/
def layout (touchMap afterMap : BitVec 16) (cell : Nat → Option Record) : Bytes :=
  beBytes 2 touchMap.toNat ++ beBytes 2 afterMap.toNat ++
    (List.range' 0 16).flatMap fun nibble => cellBytes (cell nibble)

namespace Value

def bytes (v : Value) : Bytes := layout v.touchMap v.afterMap v.cell

/-- What the merge has at a child. -/
def mergedCell (v w : Value) (nibble : Nat) : Option Record :=
  if w.afterMap.getLsbD nibble then
    if w.touchMap.getLsbD nibble then w.cell nibble else v.cell nibble
  else none

/-- A later value keeps no child that the earlier one has taken away. -/
def Follows (v w : Value) : Prop :=
  ∀ nibble, w.afterMap.getLsbD nibble → ¬w.touchMap.getLsbD nibble →
    v.touchMap.getLsbD nibble → v.afterMap.getLsbD nibble

end Value

/-! ### Reading over records -/

theorem addInt_eq {a b : Int} (hlow : 0 ≤ a + b) (hhigh : a + b < 2 ^ 63) : addInt a b = a + b := by
  rw [addInt, BitVec.toInt_ofInt, Int.bmod_eq_of_le] <;> omega

variable {back front : Bytes} (add : Bool)

theorem mergeField_at (fields : UInt8) (i : Nat) (f : Field)
    {data : Bytes} (hdata : data = front ++ f.bytes ++ back) (hsize : data.length < 2 ^ 63) :
    mergeField texts data add fields i front.length =
      .ok (if add then f.bytes else [], (front ++ f.bytes).length) := by
  have hlength : data.length = front.length + f.len.length + f.val.length + back.length := by
    rw [hdata, Field.bytes]
    simp only [length_append]
    omega
  have hdrop : data.drop (front.length : Int).toNat = f.len ++ (f.val ++ back) := by
    rw [hdata, Int.toNat_natCast, append_assoc, drop_left, Field.bytes, append_assoc]
  have htake : (f.len ++ (f.val ++ back)).take
      ((f.len ++ (f.val ++ back)).length - (f.val ++ back).length) = f.len := by
    rw [length_append, Nat.add_sub_cancel, take_left]
  have hfirst : addInt front.length f.len.length = front.length + f.len.length :=
    addInt_eq (by omega) (by omega)
  have hlast : addInt (front.length + f.len.length) f.val.length =
      ((front ++ f.bytes).length : Int) := by
    rw [addInt_eq (by omega) (by omega), Field.bytes]
    simp only [length_append]
    omega
  have hend : (front ++ f.bytes).length ≤ data.length := by
    rw [hdata]
    simp
  have hnotBefore : ¬((front ++ f.bytes).length : Int) < front.length + f.len.length := by
    simp only [Field.bytes, length_append]
    omega
  rw [mergeField, if_neg (by omega), hdrop, f.reads]
  dsimp only
  rw [htake, hfirst, hlast, if_neg (by omega), take_left, if_neg hnotBefore]
  cases add <;> rfl

theorem mergeFields_at (fields : UInt8) (values : List Field)
    {data : Bytes} (hsize : data.length < 2 ^ 63) (i : Nat)
    (hdata : data = front ++ values.flatMap Field.bytes ++ back) :
    mergeFields texts data add fields i values.length front.length =
      .ok (if add then values.flatMap Field.bytes else [],
        (front ++ values.flatMap Field.bytes).length) := by
  induction values generalizing i front with
  | nil => cases add <;> simp [mergeFields]
  | cons f values ih =>
    have hrest : data = (front ++ f.bytes) ++ values.flatMap Field.bytes ++ back := by
      rw [hdata, flatMap_cons]
      simp only [append_assoc]
    have hfield := mergeField_at texts add fields i f
      (hrest.trans (append_assoc _ _ _)) hsize
    rw [length_cons, mergeFields, hfield, ok_bind]
    dsimp only
    rw [ih (i + 1) hrest, ok_bind, flatMap_cons, append_assoc]
    cases add <;> rfl

theorem mergeRecord_at (cell : Option Record) {data : Bytes}
    (hdata : data = front ++ cellBytes cell ++ back) (hsize : data.length < 2 ^ 63) :
    mergeRecord texts data cell.isSome add front.length =
      .ok (if add then cellBytes cell else [], (front ++ cellBytes cell).length) := by
  cases cell with
  | none => cases add <;> simp [mergeRecord, cellBytes]
  | some r =>
    have hbytes : cellBytes (some r) = r.fields :: r.values.flatMap Field.bytes := rfl
    have hbehind : data = (front ++ [r.fields]) ++ r.values.flatMap Field.bytes ++ back := by
      rw [hdata, hbytes]
      simp
    have hget : data[(front.length : Int).toNat]? = some r.fields := by
      rw [hdata, Int.toNat_natCast, append_assoc, getElem?_append_right le_rfl,
        Nat.sub_self, hbytes]
      rfl
    have hlength : (front ++ [r.fields]).length ≤ data.length := by
      rw [hbehind]
      simp
    have hnext : addInt front.length 1 = ((front ++ [r.fields]).length : Int) := by
      rw [length_append, length_singleton] at hlength ⊢
      rw [addInt_eq (by omega) (by omega)]
      rfl
    have hfields := mergeFields_at texts add r.fields r.values hsize 0 hbehind
    rw [r.count, append_assoc, singleton_append, ← hbytes] at hfields
    rw [mergeRecord, isSome_some, Bool.not_true, if_neg Bool.false_ne_true,
      if_neg (by omega), hget]
    dsimp only
    rw [hnext, hfields, ok_bind]
    cases add <;> rfl

/-! ### The bytes of a merge -/

theorem flatMap_filter_of_nil {A B : Type} {f : A → List B} {p : A → Bool} {l : List A}
    (hnil : ∀ a ∈ l, p a = false → f a = []) : (l.filter p).flatMap f = l.flatMap f := by
  induction l with
  | nil => rfl
  | cons a l ih =>
    have htail := ih fun b hb => hnil b (mem_cons_of_mem a hb)
    rw [flatMap_cons]
    cases hp : p a with
    | false =>
      rw [filter_cons_of_neg (by simp [hp]), htail, hnil a mem_cons_self hp, nil_append]
    | true => rw [filter_cons_of_pos hp, flatMap_cons, htail]

theorem flatMap_nibbles {bitset : BitVec 16} {cell : Nat → Option Record}
    (hnone : ∀ nibble, bitset.getLsbD nibble = false → cell nibble = none) :
    (nibbles bitset).flatMap (fun nibble => cellBytes (cell nibble)) =
      (List.range' 0 16).flatMap fun nibble => cellBytes (cell nibble) := by
  refine flatMap_filter_of_nil fun nibble _ hclear => ?_
  rw [hnone nibble hclear]
  rfl

section Header

variable (touchMap afterMap : BitVec 16) (records : Bytes)

theorem touchMapOf_header :
    touchMapOf (beBytes 2 touchMap.toNat ++ beBytes 2 afterMap.toNat ++ records) = touchMap := by
  rw [touchMapOf, append_assoc, take_left' (beBytes_length 2 _), beNat_beBytes]
  apply BitVec.eq_of_toNat_eq
  rw [BitVec.toNat_ofNat]
  omega

theorem afterMapOf_header :
    afterMapOf (beBytes 2 touchMap.toNat ++ beBytes 2 afterMap.toNat ++ records) = afterMap := by
  rw [afterMapOf, append_assoc, drop_left' (beBytes_length 2 _),
    take_left' (beBytes_length 2 _), beNat_beBytes]
  apply BitVec.eq_of_toNat_eq
  rw [BitVec.toNat_ofNat]
  omega

theorem four_le_length_header :
    4 ≤ (beBytes 2 touchMap.toNat ++ beBytes 2 afterMap.toNat ++ records).length := by
  simp only [length_append, beBytes_length]
  omega

end Header

namespace Value

/-- At a child the later value comes out if it has touched it, and the earlier one if it is
kept. -/
theorem cellBytes_mergedCell (v w : Value) (nibble : Nat) :
    cellBytes (v.mergedCell w nibble) = cellBytes (w.cell nibble) ++
      if !w.touchMap.getLsbD nibble && w.afterMap.getLsbD nibble then cellBytes (v.cell nibble)
      else [] := by
  have hw := w.cell_isSome nibble
  rw [mergedCell]
  cases htouch : w.touchMap.getLsbD nibble <;> cases hafter : w.afterMap.getLsbD nibble
  · rw [htouch, hafter, Bool.and_false, isSome_eq_false_iff, isNone_iff_eq_none] at hw
    simp [hw, cellBytes]
  · rw [htouch, hafter, Bool.false_and, isSome_eq_false_iff, isNone_iff_eq_none] at hw
    simp [hw, cellBytes]
  · rw [htouch, hafter, Bool.and_false, isSome_eq_false_iff, isNone_iff_eq_none] at hw
    simp [hw, cellBytes]
  · simp

variable {v w : Value}

theorem mergeCells_at (texts1 texts2 : MergeTexts) (hv : v.bytes.length < 2 ^ 63)
    (hw : w.bytes.length < 2 ^ 63) (ns : List Nat) {front1 front2 : Bytes}
    (hfront1 : v.bytes = front1 ++ ns.flatMap fun n => cellBytes (v.cell n))
    (hfront2 : w.bytes = front2 ++ ns.flatMap fun n => cellBytes (w.cell n)) :
    mergeCells texts1 texts2 v.bytes w.bytes ns front1.length front2.length =
      .ok (ns.flatMap fun n => cellBytes (v.mergedCell w n)) := by
  induction ns generalizing front1 front2 with
  | nil => rfl
  | cons n ns ih =>
    simp only [flatMap_cons, ← append_assoc] at hfront1 hfront2
    have hv' : (touchMapOf v.bytes &&& afterMapOf v.bytes).getLsbD n = (v.cell n).isSome := by
      rw [bytes, layout, touchMapOf_header, afterMapOf_header, BitVec.getLsbD_and, v.cell_isSome]
    have hw' : ((touchMapOf w.bytes).getLsbD n && (afterMapOf w.bytes).getLsbD n) =
        (w.cell n).isSome := by
      rw [bytes, layout, touchMapOf_header, afterMapOf_header, w.cell_isSome]
    rw [mergeCells]
    dsimp only
    rw [hw', hv', mergeRecord_at texts2 true (w.cell n) hfront2 hw, ok_bind]
    dsimp only
    rw [mergeRecord_at texts1 _ (v.cell n) hfront1 hv, ok_bind]
    dsimp only
    rw [ih hfront1 hfront2, flatMap_cons, cellBytes_mergedCell, bytes, layout,
      touchMapOf_header, afterMapOf_header]
    rfl

theorem cell_eq_none {nibble : Nat} (hclear : (v.touchMap &&& v.afterMap).getLsbD nibble = false) :
    v.cell nibble = none := by
  rw [← isNone_iff_eq_none, ← isSome_eq_false_iff, v.cell_isSome,
    ← BitVec.getLsbD_and, hclear]

/-- The bytes of a merge, whether or not they make a value. -/
def mergedBytes (v w : Value) : Bytes :=
  layout (v.touchMap ||| w.touchMap) w.afterMap (v.mergedCell w)

theorem mergeBoth_bytes (texts1 texts2 : MergeTexts) (hv : v.bytes.length < 2 ^ 63)
    (hw : w.bytes.length < 2 ^ 63) :
    mergeBoth texts1 texts2 v.bytes w.bytes = .ok (v.mergedBytes w) := by
  have hlengthv : 4 ≤ v.bytes.length := four_le_length_header _ _ _
  have hlengthw : 4 ≤ w.bytes.length := four_le_length_header _ _ _
  have htv : touchMapOf v.bytes = v.touchMap := touchMapOf_header _ _ _
  have hav : afterMapOf v.bytes = v.afterMap := afterMapOf_header _ _ _
  have htw : touchMapOf w.bytes = w.touchMap := touchMapOf_header _ _ _
  have haw : afterMapOf w.bytes = w.afterMap := afterMapOf_header _ _ _
  have hclear {n : Nat}
      (h : (v.touchMap &&& v.afterMap ||| w.touchMap &&& w.afterMap).getLsbD n = false) :
      v.cell n = none ∧ w.cell n = none := by
    rw [BitVec.getLsbD_or, Bool.or_eq_false_iff] at h
    exact ⟨cell_eq_none h.1, cell_eq_none h.2⟩
  have hfrontv : v.bytes = beBytes 2 v.touchMap.toNat ++ beBytes 2 v.afterMap.toNat ++
      (nibbles (v.touchMap &&& v.afterMap ||| w.touchMap &&& w.afterMap)).flatMap
        fun n => cellBytes (v.cell n) := by
    rw [flatMap_nibbles fun n h => (hclear h).1]
    rfl
  have hfrontw : w.bytes = beBytes 2 w.touchMap.toNat ++ beBytes 2 w.afterMap.toNat ++
      (nibbles (v.touchMap &&& v.afterMap ||| w.touchMap &&& w.afterMap)).flatMap
        fun n => cellBytes (w.cell n) := by
    rw [flatMap_nibbles fun n h => (hclear h).2]
    rfl
  have hmerged (n : Nat)
      (h : (v.touchMap &&& v.afterMap ||| w.touchMap &&& w.afterMap).getLsbD n = false) :
      v.mergedCell w n = none := by
    rw [mergedCell, (hclear h).1, (hclear h).2, ite_self, ite_self]
  have hrun := mergeCells_at texts1 texts2 hv hw _ hfrontv hfrontw
  simp only [length_append, beBytes_length] at hrun
  rw [mergeBoth, if_neg (by omega)]
  dsimp only
  rw [htv, hav, htw, haw, show (4 : Int) = ((2 + 2 : Nat) : Int) from rfl, hrun, ok_bind,
    flatMap_nibbles hmerged]
  rfl

theorem bytes_ne_nil (v : Value) : v.bytes ≠ [] := by
  intro hnil
  have hlength : 4 ≤ v.bytes.length := four_le_length_header _ _ _
  rw [hnil] at hlength
  exact absurd hlength (by decide)

/-- Both functions merge two values to the same bytes. -/
theorem merge_bytes (hv : v.bytes.length < 2 ^ 63) (hw : w.bytes.length < 2 ^ 63) :
    merge (some v.bytes) (some w.bytes) = .ok (some (v.mergedBytes w)) ∧
      mergeHexBranches (some v.bytes) (some w.bytes) = .ok (some (v.mergedBytes w)) := by
  constructor
  · rw [merge, getD_some, getD_some, if_neg w.bytes_ne_nil, if_neg v.bytes_ne_nil,
      mergeBoth_bytes _ _ hv hw]
    rfl
  · rw [mergeHexBranches, mergeBoth_bytes _ _ hv hw]
    rfl

/-! ### Merges that are values -/

/-- The merge of a value with one that follows it. -/
def mergeWith (v w : Value) (hfollows : v.Follows w) : Value where
  touchMap := v.touchMap ||| w.touchMap
  afterMap := w.afterMap
  cell := v.mergedCell w
  cell_isSome := by
    intro n
    have hkept := hfollows n
    rw [mergedCell, BitVec.getLsbD_or]
    cases hafter : w.afterMap.getLsbD n with
    | false => simp
    | true =>
      rw [if_pos rfl, Bool.and_true]
      cases htouch : w.touchMap.getLsbD n with
      | true =>
        rw [if_pos rfl, w.cell_isSome, htouch, hafter]
        simp
      | false =>
        rw [hafter, htouch] at hkept
        rw [if_neg Bool.false_ne_true, v.cell_isSome, Bool.or_false]
        cases hearlier : v.touchMap.getLsbD n with
        | false => rfl
        | true => rw [hkept rfl Bool.false_ne_true hearlier]; rfl

theorem mergedBytes_eq (hfollows : v.Follows w) :
    v.mergedBytes w = (v.mergeWith w hfollows).bytes := rfl

/-- The bytes are a value that has at every child that is left the cell of the later value, if
it has touched it, and else that of the earlier one. -/
def MergesTo (v w : Value) (bytes : Bytes) : Prop :=
  ∃ x : Value, x.bytes = bytes ∧ x.touchMap = v.touchMap ||| w.touchMap ∧
    x.afterMap = w.afterMap ∧ ∀ nibble, w.afterMap.getLsbD nibble →
      x.cell nibble = if w.touchMap.getLsbD nibble then w.cell nibble else v.cell nibble

theorem mergesTo_mergedBytes_iff : v.MergesTo w (v.mergedBytes w) ↔ v.Follows w := by
  constructor
  · rintro ⟨x, -, htouch, hafter, hcell⟩ n hpresent huntouched hearlier
    have hsome := x.cell_isSome n
    rw [hcell n hpresent, if_neg huntouched, v.cell_isSome, htouch, hafter, BitVec.getLsbD_or,
      hearlier, hpresent] at hsome
    simpa using hsome
  · intro hfollows
    refine ⟨v.mergeWith w hfollows, rfl, rfl, rfl, fun n hpresent => ?_⟩
    exact if_pos hpresent

/-- A third value that follows the merge of two follows the later of them, and their merge
follows the earlier. -/
theorem Follows.assoc {x : Value} (hvw : v.Follows w) (hx : (v.mergeWith w hvw).Follows x) :
    ∃ hwx : w.Follows x, v.Follows (w.mergeWith x hwx) ∧
      v.mergedCell (w.mergeWith x hwx) = (v.mergeWith w hvw).mergedCell x := by
  have hkept (n : Nat) (hafter : x.afterMap.getLsbD n) (htouch : ¬x.touchMap.getLsbD n)
      (hsome : v.touchMap.getLsbD n ∨ w.touchMap.getLsbD n) : w.afterMap.getLsbD n := by
    refine hx n hafter htouch ?_
    simpa [mergeWith] using hsome
  have hwx : w.Follows x := fun n hafter htouch hearlier => hkept n hafter htouch (.inr hearlier)
  refine ⟨hwx, ?_, ?_⟩
  · intro n hafter htouch hearlier
    have huntouched : ¬w.touchMap.getLsbD n ∧ ¬x.touchMap.getLsbD n := by
      simpa [mergeWith] using htouch
    exact hvw n (hkept n hafter huntouched.2 (.inl hearlier)) huntouched.1 hearlier
  · funext n
    have hkeptn := hkept n
    simp only [mergedCell, mergeWith, BitVec.getLsbD_or]
    cases hax : x.afterMap.getLsbD n with
    | false => rfl
    | true =>
      cases htx : x.touchMap.getLsbD n with
      | true => simp
      | false =>
        rw [hax, htx] at hkeptn
        cases haw : w.afterMap.getLsbD n with
        | true => simp
        | false =>
          -- the child is gone before the third value: none of the others has touched it
          have hgone : ¬(v.touchMap.getLsbD n ∨ w.touchMap.getLsbD n) := fun hsome =>
            absurd (hkeptn rfl Bool.false_ne_true hsome) (by simp [haw])
          rw [not_or, Bool.not_eq_true, Bool.not_eq_true] at hgone
          have hnone : v.cell n = none :=
            cell_eq_none (by rw [BitVec.getLsbD_and, hgone.1, Bool.false_and])
          simp [hgone.2, hnone]

/-- The order in which three values are merged does not matter. -/
theorem merge_assoc {x : Value} (hvw : v.Follows w) (hx : (v.mergeWith w hvw).Follows x)
    (hsizes : ∀ y ∈ [v, w, x, v.mergeWith w hvw], y.bytes.length < 2 ^ 63)
    (hsize : (w.mergedBytes x).length < 2 ^ 63) :
    ((merge (some v.bytes) (some w.bytes) >>= fun r => merge r (some x.bytes)) =
        merge (some w.bytes) (some x.bytes) >>= fun r => merge (some v.bytes) r) ∧
      (mergeHexBranches (some v.bytes) (some w.bytes) >>= fun r =>
          mergeHexBranches r (some x.bytes)) =
        mergeHexBranches (some w.bytes) (some x.bytes) >>= fun r =>
          mergeHexBranches (some v.bytes) r := by
  obtain ⟨hwx, hv, hcells⟩ := Follows.assoc hvw hx
  simp only [forall_mem_cons] at hsizes
  obtain ⟨hsv, hsw, hsx, hsvw, -⟩ := hsizes
  have hfirst := merge_bytes hsv hsw
  have hlater := merge_bytes hsw hsx
  have hleft := merge_bytes hsvw hsx
  have hright := merge_bytes hsv (show (w.mergeWith x hwx).bytes.length < 2 ^ 63 from hsize)
  have hsame : v.mergedBytes (w.mergeWith x hwx) = (v.mergeWith w hvw).mergedBytes x := by
    rw [mergedBytes, mergedBytes, hcells]
    simp only [mergeWith, BitVec.or_assoc]
  rw [← mergedBytes_eq] at hleft hright
  rw [hfirst.1, hfirst.2, hlater.1, hlater.2]
  simp only [ok_bind]
  rw [hleft.1, hleft.2, hright.1, hright.2, hsame]
  exact ⟨rfl, rfl⟩

end Value

/-! ### Completeness -/

def isComplete (branchData : Bytes) : Result Bool :=
  if branchData.length < 4 then .panic "index out of range"
  else .ok (decide (~~~touchMapOf branchData &&& afterMapOf branchData = 0))

end BranchData

end Erigon
