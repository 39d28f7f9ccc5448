/-
Cells of the commitment trie in branch data.  A cell holds fixed arrays with a count of what is
in use; what a record has of them is read back into a fresh cell.
-/
import Erigon.Account
import Erigon.BranchMerge

namespace Erigon

open List Result

/-- A fixed array and how much of it is in use. -/
structure Held (cap : Nat) where
  array : Bytes
  size : array.length = cap
  len : Nat

namespace Held

variable {cap : Nat}

def zero (cap : Nat) : Held cap := ⟨List.replicate cap 0, length_replicate, 0⟩

/-- `array[:len]`. -/
def shown (h : Held cap) : Result Bytes :=
  if h.len ≤ cap then .ok (h.array.take h.len) else .panic "slice bounds out of range"

/-- `copy(array, src)` and the length that goes with it, which may be more than there is room. -/
def fill (h : Held cap) (src : Bytes) : Held cap where
  array := src.take cap ++ h.array.drop src.length
  size := by
    have := h.size
    simp only [length_append, length_take, length_drop]
    omega
  len := src.length

def cleared (h : Held cap) : Held cap := { h with len := 0 }

/-- Two arrays of which the same is in use. -/
def Same (h g : Held cap) : Prop := h.len = g.len ∧ h.shown = g.shown

theorem fill_len (h : Held cap) (src : Bytes) : (h.fill src).len = src.length := rfl

theorem shown_fill (h : Held cap) {src : Bytes} (hsrc : src.length ≤ cap) :
    (h.fill src).shown = .ok src := by
  rw [shown, fill]
  dsimp only
  rw [if_pos hsrc, take_of_length_le hsrc, take_left]

variable {h g : Held cap}

theorem shown_eq_ok {bytes : Bytes} (hshown : h.shown = .ok bytes) :
    h.len ≤ cap ∧ bytes = h.array.take h.len ∧ bytes.length = h.len := by
  rw [shown] at hshown
  split at hshown
  · rename_i hle
    cases hshown
    exact ⟨hle, rfl, by rw [length_take, h.size]; omega⟩
  · cases hshown

theorem shown_of_len_eq_zero (hlen : h.len = 0) : h.shown = .ok [] := by
  rw [shown, hlen, if_pos (Nat.zero_le cap), take_zero]

/-- What is read back of an array that was written. -/
theorem same_fill {bytes : Bytes} (hshown : h.shown = .ok bytes) : (g.fill bytes).Same h := by
  obtain ⟨hle, -, hlen⟩ := shown_eq_ok hshown
  exact ⟨hlen, by rw [shown_fill g (by omega), hshown]⟩

theorem same_cleared (hlen : h.len = 0) : g.cleared.Same h :=
  ⟨hlen.symm, by rw [shown_of_len_eq_zero rfl, shown_of_len_eq_zero hlen]⟩

end Held

/-- `cell`, without the update that is not part of a branch but for the code hash. -/
structure TrieCell where
  hashedExtension : Held 128
  extension : Held 64
  accountAddr : Held 20
  storageAddr : Held 52
  hash : Held 32
  stateHash : Held 32
  codeHash : Hash

namespace TrieCell

/-- `new(cell)`. -/
def zero : TrieCell :=
  ⟨.zero 128, .zero 64, .zero 20, .zero 52, .zero 32, .zero 32, 0⟩

end TrieCell

namespace BranchData

/-! ### Writing -/

/-- `putUvarAndVal` of an array, if it is written. -/
def putHeld {cap : Nat} (has : Bool) (h : Held cap) : Result Bytes :=
  if has then h.shown.map fun val => putUvarint 10 h.len ++ val else .ok []

variable (c : TrieCell)

def hasExtension : Bool := decide (0 < c.extension.len ∧ c.storageAddr.len = 0)
def hasAccountAddr : Bool := decide (0 < c.accountAddr.len)
def hasStorageAddr : Bool := decide (0 < c.storageAddr.len)
def hasHash : Bool := decide (0 < c.hash.len)
def hasStateHash : Bool :=
  decide (c.stateHash.len = 32 ∧ (0 < c.accountAddr.len ∨ 0 < c.storageAddr.len))

def cellFields : UInt8 :=
  (if hasExtension c then fieldExtension else 0) |||
    (if hasAccountAddr c then fieldAccountAddr else 0) |||
    (if hasStorageAddr c then fieldStorageAddr else 0) |||
    (if hasHash c then fieldHash else 0) |||
    (if hasStateHash c then fieldStateHash else 0)

/-- The record of a cell. -/
def encodeCell : Result Bytes := do
  let extension ← putHeld (hasExtension c) c.extension
  let accountAddr ← putHeld (hasAccountAddr c) c.accountAddr
  let storageAddr ← putHeld (hasStorageAddr c) c.storageAddr
  let hash ← putHeld (hasHash c) c.hash
  let stateHash ← putHeld (hasStateHash c) c.stateHash
  return cellFields c :: (extension ++ accountAddr ++ storageAddr ++ hash ++ stateHash)

/-- `readCell` of a child, or of one that is skipped; the cell may be nil. -/
abbrev CellReader := Nat → Bool → Result (Option TrieCell)

/-- The children that are absent are read too, for the sake of the hasher. -/
def skipCells (readCell : CellReader) : Nat → Nat → Result Unit
  | _, 0 => .ok ()
  | nibble, n + 1 => do
    let _ ← readCell nibble true
    skipCells readCell (nibble + 1) n

/-- The record of a child, if it is to be written. -/
def encodeChild (has : Bool) (cell : Option TrieCell) : Result Bytes :=
  if has then
    match cell with
    | none => .panic "nil pointer dereference"
    | some c => encodeCell c
  else .ok []

def encodeCells (bitmap : BitVec 16) (readCell : CellReader) :
    List Nat → Nat → Result (Bytes × Nat)
  | [], lastNibble => .ok ([], lastNibble)
  | nibble :: rest, lastNibble => do
    skipCells readCell lastNibble (nibble - lastNibble)
    let cell ← readCell nibble false
    let record ← encodeChild (bitmap.getLsbD nibble) cell
    let (records, lastNibble) ← encodeCells bitmap readCell rest (nibble + 1)
    return (record ++ records, lastNibble)

/-- The branch data and the child behind the last one that is there. -/
def encodeBranch (bitmap touchMap afterMap : BitVec 16) (readCell : CellReader) :
    Result (Bytes × Nat) := do
  let (records, lastNibble) ← encodeCells bitmap readCell (nibbles afterMap) 0
  return (beBytes 2 touchMap.toNat ++ beBytes 2 afterMap.toNat ++ records, lastNibble)

/-! ### Reading -/

/-- A field of a record, if it is there; `total` is the length of the whole branch. -/
def fillField {cap : Nat} (total : Nat) (fields flag : UInt8) (h : Held cap) (data : Bytes) :
    Result (Held cap × Bytes) :=
  if hasField fields flag then
    match uvarint data with
    | .error .tooSmall => .error "buffer too small for length"
    | .error .overflow => .error "value overflow for length"
    | .ok (l, rest) =>
      if rest.length < l then
        if 2 ^ 63 ≤ total - rest.length + l then .panic "slice bounds out of range"
        else .error s!"buffer too small for {fieldsText flag}"
      else .ok (h.fill (rest.take l), rest.drop l)
  else .ok (h.cleared, data)

/-- The extension is a copy of the hashed one. -/
def fillExtension (fields : UInt8) (hashedExtension : Held 128) (extension : Held 64) :
    Result (Held 64) :=
  if hasField fields fieldExtension then
    if hashedExtension.len = 0 then .ok { extension with len := 0 }
    else hashedExtension.shown.map fun src => extension.fill src
  else .ok extension.cleared

def fillFromFields (total : Nat) (fields : UInt8) (c : TrieCell) (data : Bytes) :
    Result (TrieCell × Bytes) := do
  let (hashedExtension, data) ← fillField total fields fieldExtension c.hashedExtension data
  let extension ← fillExtension fields hashedExtension c.extension
  let (accountAddr, data) ← fillField total fields fieldAccountAddr c.accountAddr data
  let (storageAddr, data) ← fillField total fields fieldStorageAddr c.storageAddr data
  let (hash, data) ← fillField total fields fieldHash c.hash data
  let (stateHash, data) ← fillField total fields fieldStateHash c.stateHash data
  let codeHash := if hasField fields fieldAccountAddr then emptyCodeHash else c.codeHash
  return (⟨hashedExtension, extension, accountAddr, storageAddr, hash, stateHash, codeHash⟩, data)

/-- `failed to fill cell at nibble %x: %w`. -/
def atNibble {A : Type} (nibble : Nat) : Result A → Result A
  | .ok a => .ok a
  | .error e => .error s!"failed to fill cell at nibble {hexDigitRepr nibble}: {e}"
  | .panic e => .panic e

/-- The cells of the children that are touched, if they are there. -/
def decodeRow (total : Nat) (afterMap : BitVec 16) :
    List Nat → (Nat → Option TrieCell) → Bytes → Result (Nat → Option TrieCell)
  | [], row, _ => .ok row
  | nibble :: rest, row, data =>
    if afterMap.getLsbD nibble then
      match data with
      | [] => .panic "index out of range"
      | fields :: data => do
        let (cell, data) ← atNibble nibble (fillFromFields total fields .zero data)
        decodeRow total afterMap rest (Function.update row nibble (some cell)) data
    else decodeRow total afterMap rest row data

def decodeCells (branchData : Bytes) :
    Result (BitVec 16 × BitVec 16 × (Nat → Option TrieCell)) :=
  if branchData.length < 4 then .panic "index out of range"
  else do
    let row ← decodeRow branchData.length (afterMapOf branchData)
      (nibbles (touchMapOf branchData)) (fun _ => none) (branchData.drop 4)
    return (touchMapOf branchData, afterMapOf branchData, row)

/-! ### What is read back -/

/-- What a field of a record makes of an array. -/
def readBack {cap cap' : Nat} (has : Bool) (h : Held cap) (g : Held cap') : Held cap' :=
  if has then g.fill (h.array.take h.len) else g.cleared

/-- The cell that is read from the record of a cell. -/
def decoded : TrieCell where
  hashedExtension := readBack (hasExtension c) c.extension (.zero 128)
  extension := readBack (hasExtension c) c.extension (.zero 64)
  accountAddr := readBack (hasAccountAddr c) c.accountAddr (.zero 20)
  storageAddr := readBack (hasStorageAddr c) c.storageAddr (.zero 52)
  hash := readBack (hasHash c) c.hash (.zero 32)
  stateHash := readBack (hasStateHash c) c.stateHash (.zero 32)
  codeHash := if hasAccountAddr c then emptyCodeHash else 0

theorem hasField_cellFields :
    hasField (cellFields c) fieldExtension = hasExtension c ∧
      hasField (cellFields c) fieldAccountAddr = hasAccountAddr c ∧
      hasField (cellFields c) fieldStorageAddr = hasStorageAddr c ∧
      hasField (cellFields c) fieldHash = hasHash c ∧
      hasField (cellFields c) fieldStateHash = hasStateHash c := by
  unfold cellFields
  generalize hasExtension c = x₁
  generalize hasAccountAddr c = x₂
  generalize hasStorageAddr c = x₃
  generalize hasHash c = x₄
  generalize hasStateHash c = x₅
  revert x₁ x₂ x₃ x₄ x₅
  decide

variable {piece : Bytes}

theorem putHeld_true {cap : Nat} {h : Held cap} (hput : putHeld true h = .ok piece) :
    ∃ val, h.shown = .ok val ∧ h.array.take h.len = val ∧
      piece = putUvarint 10 val.length ++ val := by
  rw [putHeld, if_pos rfl] at hput
  cases hshown : h.shown with
  | ok val =>
    obtain ⟨-, hval, hlen⟩ := Held.shown_eq_ok hshown
    rw [hshown] at hput
    cases hput
    exact ⟨val, rfl, hval.symm, by rw [hlen]⟩
  | error e =>
    rw [hshown] at hput
    cases hput
  | panic e =>
    rw [hshown] at hput
    cases hput

theorem fillField_putHeld {cap cap' : Nat} {has : Bool} {h : Held cap} (hcap : cap < 2 ^ 64)
    (hput : putHeld has h = .ok piece) (total : Nat) {fields flag : UInt8}
    (hhas : hasField fields flag = has) (g : Held cap') (rest : Bytes) :
    fillField total fields flag g (piece ++ rest) = .ok (readBack has h g, rest) := by
  rw [fillField, hhas, readBack]
  cases has with
  | false =>
    cases hput
    rfl
  | true =>
    obtain ⟨val, hshown, hval, rfl⟩ := putHeld_true hput
    obtain ⟨hle, -, hlen⟩ := Held.shown_eq_ok hshown
    rw [if_pos rfl, if_pos rfl, append_assoc, uvarint_putUvarint (by omega), hval]
    dsimp only
    rw [if_neg (by rw [length_append]; omega), take_left, drop_left]

/-- The extension is copied once more, and is the same. -/
theorem fillExtension_readBack {c : TrieCell}
    (hput : putHeld (hasExtension c) c.extension = .ok piece) {fields : UInt8}
    (hhas : hasField fields fieldExtension = hasExtension c) :
    fillExtension fields (readBack (hasExtension c) c.extension (.zero 128)) (.zero 64) =
      .ok (readBack (hasExtension c) c.extension (.zero 64)) := by
  rw [fillExtension, hhas]
  cases hext : hasExtension c with
  | false => rfl
  | true =>
    have hpos : 0 < c.extension.len := (of_decide_eq_true hext).1
    rw [hext] at hput
    obtain ⟨val, hshown, hval, -⟩ := putHeld_true hput
    obtain ⟨hle, -, hlen⟩ := Held.shown_eq_ok hshown
    have hne : ((Held.zero 128).fill val).len ≠ 0 := by
      rw [Held.fill_len]
      omega
    rw [if_pos rfl, readBack, if_pos rfl, hval, if_neg hne, Held.shown_fill _ (by omega),
      readBack, if_pos rfl, hval]
    rfl

/-- A record is read as what was written. -/
theorem fillFromFields_encodeCell {c : TrieCell} {record : Bytes}
    (hencode : encodeCell c = .ok record) :
    ∃ body, record = cellFields c :: body ∧ ∀ total rest,
      fillFromFields total (cellFields c) .zero (body ++ rest) = .ok (decoded c, rest) := by
  obtain ⟨h₁, h₂, h₃, h₄, h₅⟩ := hasField_cellFields c
  simp only [encodeCell, bind_eq_ok] at hencode
  obtain ⟨extension, hp₁, accountAddr, hp₂, storageAddr, hp₃, hash, hp₄, stateHash, hp₅, hrecord⟩ :=
    hencode
  cases hrecord
  refine ⟨_, rfl, fun total rest => ?_⟩
  simp only [fillFromFields, TrieCell.zero, append_assoc]
  rw [fillField_putHeld (by decide) hp₁ total h₁, ok_bind]
  dsimp only
  rw [fillExtension_readBack hp₁ h₁, ok_bind,
    fillField_putHeld (by decide) hp₂ total h₂, ok_bind]
  dsimp only
  rw [fillField_putHeld (by decide) hp₃ total h₃, ok_bind]
  dsimp only
  rw [fillField_putHeld (by decide) hp₄ total h₄, ok_bind]
  dsimp only
  rw [fillField_putHeld (by decide) hp₅ total h₅, ok_bind, h₂]
  rfl

/-- The parts of a cell that are read back: the extension if there is no storage key, the keys,
the hash, and a full state hash of a cell with a key. -/
structure ReadsBack (c d : TrieCell) : Prop where
  extension : c.storageAddr.len = 0 → d.extension.Same c.extension
  accountAddr : d.accountAddr.Same c.accountAddr
  storageAddr : d.storageAddr.Same c.storageAddr
  hash : d.hash.Same c.hash
  stateHash : c.stateHash.len = 32 → 0 < c.accountAddr.len ∨ 0 < c.storageAddr.len →
    d.stateHash.Same c.stateHash

theorem readBack_same {cap : Nat} {has : Bool} {h : Held cap} (hput : putHeld has h = .ok piece)
    (hhas : h.len ≠ 0 → has = true) (g : Held cap) :
    (readBack has h g).Same h := by
  rw [readBack]
  cases has with
  | false => exact Held.same_cleared (not_not.mp fun hne => Bool.false_ne_true (hhas hne))
  | true =>
    obtain ⟨val, hshown, rfl, -⟩ := putHeld_true hput
    exact Held.same_fill hshown

theorem readsBack_decoded {c : TrieCell} {record : Bytes} (hencode : encodeCell c = .ok record) :
    ReadsBack c (decoded c) := by
  simp only [encodeCell, bind_eq_ok] at hencode
  obtain ⟨extension, hp₁, accountAddr, hp₂, storageAddr, hp₃, hash, hp₄, stateHash, hp₅, -⟩ :=
    hencode
  constructor
  · intro hstorage
    exact readBack_same hp₁ (fun hne => decide_eq_true ⟨Nat.pos_of_ne_zero hne, hstorage⟩) _
  · exact readBack_same hp₂ (fun hne => decide_eq_true (Nat.pos_of_ne_zero hne)) _
  · exact readBack_same hp₃ (fun hne => decide_eq_true (Nat.pos_of_ne_zero hne)) _
  · exact readBack_same hp₄ (fun hne => decide_eq_true (Nat.pos_of_ne_zero hne)) _
  · intro hfull hkey
    exact readBack_same hp₅ (fun _ => decide_eq_true ⟨hfull, hkey⟩) _

/-! ### Whole branches -/

/-- The cell of a child and its record. -/
def Written (readCell : CellReader) (nibble : Nat) (w : TrieCell × Bytes) : Prop :=
  readCell nibble false = .ok (some w.1) ∧ encodeCell w.1 = .ok w.2

variable {readCell : CellReader}

theorem encodeCells_written {bitmap : BitVec 16} {ns : List Nat} {lastNibble : Nat}
    {records : Bytes} {last : Nat}
    (hencode : encodeCells bitmap readCell ns lastNibble = .ok (records, last)) :
    ∃ ws, List.Forall₂ (Written readCell) (ns.filter bitmap.getLsbD) ws ∧
      records = ws.flatMap Prod.snd := by
  induction ns generalizing lastNibble records with
  | nil =>
    cases hencode
    exact ⟨[], .nil, rfl⟩
  | cons n ns ih =>
    simp only [encodeCells, bind_eq_ok] at hencode
    obtain ⟨-, -, cell, hcell, record, hrecord, ⟨rest, last'⟩, hrest, hall⟩ := hencode
    cases hall
    obtain ⟨ws, hws, rfl⟩ := ih hrest
    rw [encodeChild.eq_def] at hrecord
    cases hbit : bitmap.getLsbD n with
    | false =>
      rw [hbit, if_neg Bool.false_ne_true] at hrecord
      cases hrecord
      rw [filter_cons_of_neg (by simp [hbit])]
      exact ⟨ws, hws, rfl⟩
    | true =>
      rw [hbit, if_pos rfl] at hrecord
      rw [filter_cons_of_pos hbit]
      cases cell with
      | none => cases hrecord
      | some c => exact ⟨(c, record) :: ws, .cons ⟨hcell, hrecord⟩ hws, rfl⟩

/-- The children are read one after the other, each from its own record. -/
theorem decodeRow_written (total : Nat) {afterMap : BitVec 16} {ns : List Nat} (hnodup : ns.Nodup)
    (row : Nat → Option TrieCell) {ws : List (TrieCell × Bytes)}
    (hws : List.Forall₂ (Written readCell) (ns.filter afterMap.getLsbD) ws) :
    ∃ row', decodeRow total afterMap ns row (ws.flatMap Prod.snd) = .ok row' ∧
      (∀ n, n ∉ ns.filter afterMap.getLsbD → row' n = row n) ∧
      ∀ n ∈ ns.filter afterMap.getLsbD,
        ∃ w, Written readCell n w ∧ row' n = some (decoded w.1) := by
  induction ns generalizing row ws with
  | nil =>
    cases hws
    exact ⟨row, rfl, fun _ _ => rfl, by simp⟩
  | cons n ns ih =>
    rw [nodup_cons] at hnodup
    rw [decodeRow.eq_def]
    dsimp only
    cases hbit : afterMap.getLsbD n with
    | false =>
      rw [filter_cons_of_neg (by simp [hbit])] at hws ⊢
      rw [if_neg Bool.false_ne_true]
      exact ih hnodup.2 row hws
    | true =>
      rw [filter_cons_of_pos hbit] at hws ⊢
      obtain ⟨w, ws, hw, hrest, rfl⟩ := List.forall₂_cons_left_iff.mp hws
      obtain ⟨body, hrecord, hfill⟩ := fillFromFields_encodeCell hw.2
      obtain ⟨row', hrow, hother, hread⟩ :=
        ih hnodup.2 (Function.update row n (some (decoded w.1))) hrest
      have hn : n ∉ ns.filter afterMap.getLsbD := fun hmem =>
        hnodup.1 (mem_of_mem_filter hmem)
      refine ⟨row', ?_, ?_, ?_⟩
      · rw [if_pos rfl, flatMap_cons, hrecord, cons_append]
        dsimp only
        rw [hfill, atNibble, ok_bind]
        exact hrow
      · intro m hm
        rw [mem_cons, not_or] at hm
        rw [hother m hm.2, Function.update_of_ne hm.1]
      · intro m hm
        rcases mem_cons.mp hm with rfl | hm
        · exact ⟨w, hw, by rw [hother m hn, Function.update_self]⟩
        · exact hread m hm

theorem filter_nibbles (left right : BitVec 16) :
    (nibbles left).filter right.getLsbD = nibbles (left &&& right) := by
  rw [nibbles, nibbles, positions, positions, filter_filter]
  refine filter_congr fun n _ => ?_
  rw [BitVec.getLsbD_and, Bool.and_comm]

theorem mem_nibbles {bitset : BitVec 16} {n : Nat} : n ∈ nibbles bitset ↔ bitset.getLsbD n := by
  rw [nibbles, mem_positions]
  constructor
  · exact fun h => h.2.2
  · exact fun h => ⟨Nat.zero_le n, BitVec.lt_of_getLsbD h, h⟩

/-- What is decoded of a branch is what was encoded. -/
theorem decodeCells_encodeBranch {touchMap afterMap : BitVec 16} {out : Bytes} {last : Nat}
    (hencode : encodeBranch (touchMap &&& afterMap) touchMap afterMap readCell = .ok (out, last)) :
    ∃ row, decodeCells out = .ok (touchMap, afterMap, row) ∧ ∀ n,
      if (touchMap &&& afterMap).getLsbD n then
        ∃ c d, readCell n false = .ok (some c) ∧ row n = some d ∧ ReadsBack c d
      else row n = none := by
  simp only [encodeBranch, bind_eq_ok] at hencode
  obtain ⟨⟨records, last'⟩, hcells, hout⟩ := hencode
  cases hout
  obtain ⟨ws, hws, rfl⟩ := encodeCells_written hcells
  have hsame : (nibbles afterMap).filter (touchMap &&& afterMap).getLsbD =
      (nibbles touchMap).filter afterMap.getLsbD := by
    rw [filter_nibbles, filter_nibbles]
    congr 1
    ext n
    simp only [BitVec.getElem_and]
    cases afterMap[n] <;> simp
  rw [hsame] at hws
  have hnodup : (nibbles touchMap).Nodup :=
    (positions_pairwise _ _ _).imp fun h => Nat.ne_of_lt h
  obtain ⟨row, hrow, hother, hread⟩ := decodeRow_written
    (beBytes 2 touchMap.toNat ++ beBytes 2 afterMap.toNat ++ ws.flatMap Prod.snd).length
    hnodup (fun _ => none) hws
  rw [filter_nibbles] at hother hread
  refine ⟨row, ?_, fun n => ?_⟩
  · rw [decodeCells, if_neg (Nat.not_lt.mpr (four_le_length_header _ _ _)), touchMapOf_header,
      afterMapOf_header, drop_left' (by simp), hrow]
    rfl
  · split
    · rename_i hbit
      obtain ⟨w, hw, hn⟩ := hread n (mem_nibbles.mpr hbit)
      exact ⟨w.1, decoded w.1, hw.1, hn, readsBack_decoded hw.2⟩
    · rename_i hbit
      exact hother n (fun hmem => hbit (mem_nibbles.mp hmem))

/-- Both functions merge two values to the same bytes, which are a value with the cells of the
later over those of the earlier exactly if the later follows the earlier.  Values that follow one
another are merged in any order, and what is encoded is decoded. -/
theorem merge_and_decode (v w x : Value) (hsizes : ∀ y ∈ [v, w, x], y.bytes.length < 2 ^ 63) :
    (∃ r, merge (some v.bytes) (some w.bytes) = .ok (some r) ∧
      mergeHexBranches (some v.bytes) (some w.bytes) = .ok (some r) ∧
      r = layout (v.touchMap ||| w.touchMap) w.afterMap (v.mergedCell w) ∧
      (v.MergesTo w r ↔ v.Follows w)) ∧
    (∀ hvw : v.Follows w, (v.mergeWith w hvw).Follows x →
      (v.mergeWith w hvw).bytes.length < 2 ^ 63 → (w.mergedBytes x).length < 2 ^ 63 →
      ((merge (some v.bytes) (some w.bytes) >>= fun r => merge r (some x.bytes)) =
          merge (some w.bytes) (some x.bytes) >>= fun r => merge (some v.bytes) r) ∧
        (mergeHexBranches (some v.bytes) (some w.bytes) >>= fun r =>
            mergeHexBranches r (some x.bytes)) =
          mergeHexBranches (some w.bytes) (some x.bytes) >>= fun r =>
            mergeHexBranches (some v.bytes) r) ∧
    ∀ (touchMap afterMap : BitVec 16) (readCell : CellReader) (out : Bytes) (last : Nat),
      encodeBranch (touchMap &&& afterMap) touchMap afterMap readCell = .ok (out, last) →
      ∃ row, decodeCells out = .ok (touchMap, afterMap, row) ∧ ∀ n,
        if (touchMap &&& afterMap).getLsbD n then
          ∃ c d, readCell n false = .ok (some c) ∧ row n = some d ∧ ReadsBack c d
        else row n = none := by
  have hv := hsizes v (by simp)
  have hw := hsizes w (by simp)
  have hx := hsizes x (by simp)
  refine ⟨⟨v.mergedBytes w, (Value.merge_bytes hv hw).1, (Value.merge_bytes hv hw).2, rfl,
    Value.mergesTo_mergedBytes_iff⟩, ?_, ?_⟩
  · intro hvw hfollows hsize hsize'
    refine Value.merge_assoc hvw hfollows ?_ hsize'
    simp only [forall_mem_cons]
    exact ⟨hv, hw, hx, hsize, by simp⟩
  · intro touchMap afterMap readCell out last hencode
    exact decodeCells_encodeBranch hencode

/-- A record without fields. -/
def bareRecord : Record := ⟨0, [], rfl⟩

/-- A value that touches one child and leaves some. -/
def touching (nibble : Fin 16) (afterMap : BitVec 16) : Value where
  touchMap := BitVec.twoPow 16 nibble
  afterMap := afterMap
  cell n := if n = nibble ∧ afterMap.getLsbD n then some bareRecord else none
  cell_isSome n := by
    rw [BitVec.getLsbD_twoPow]
    by_cases hn : n = nibble
    · generalize afterMap.getLsbD n = after
      cases after <;> simp [hn]
    · have hne : ¬(nibble : Nat) = n := fun heq => hn heq.symm
      simp [hn, hne]

theorem merge_and_decode_touching : (touching 0 1).MergesTo (touching 1 3) [0, 3, 0, 3, 0, 0] := by
  obtain ⟨⟨r, hmerge, -, hr, hiff⟩, -⟩ := merge_and_decode (touching 0 1) (touching 1 3)
    (touching 1 3) (by decide)
  have hbytes : r = [0, 3, 0, 3, 0, 0] := hr
  rw [hbytes] at hiff
  exact hiff.mpr fun n _ _ htouched => htouched

/-- The second value has lost the first child without touching it, and the third has it again. -/
theorem merge_not_assoc :
    merge (some (touching 0 1).bytes) (some (touching 1 2).bytes) =
        .ok (some [0, 3, 0, 2, 0]) ∧ isComplete [0, 3, 0, 2, 0] = .ok true ∧
      merge (some [0, 3, 0, 2, 0]) (some (touching 2 7).bytes) =
        .ok (some [0, 7, 0, 7, 0, 0]) ∧ isComplete [0, 7, 0, 7, 0, 0] = .ok true ∧
      (merge (some (touching 1 2).bytes) (some (touching 2 7).bytes) >>= fun r =>
        merge (some (touching 0 1).bytes) r) = .ok (some [0, 7, 0, 7, 0, 0, 0]) := by
  decide

end BranchData

end Erigon
