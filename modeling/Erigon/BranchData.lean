/-
Branch data of the commitment: two maps of children, and a record for every child
that is touched and present.  The plain keys of the records can be replaced.
-/
import Erigon.Query
import Erigon.Varint

namespace Erigon

open List Result

namespace BranchData

/-! ### Replacing plain keys -/

def fieldExtension : UInt8 := 1
def fieldAccountAddr : UInt8 := 2
def fieldStorageAddr : UInt8 := 4
def fieldHash : UInt8 := 8
def fieldStateHash : UInt8 := 16

/-- What is said of a field that cannot be read. -/
structure FieldTexts where
  lenSmall : String
  lenOverflow : String
  short : String

def extensionTexts : FieldTexts :=
  ⟨"replacePlainKeys buffer too small for hashedKey len",
    "replacePlainKeys value overflow for hashedKey len",
    "replacePlainKeys buffer too small for hashedKey"⟩

def accountAddrTexts : FieldTexts :=
  ⟨"replacePlainKeys buffer too small for accountAddr len",
    "replacePlainKeys value overflow for accountAddr len",
    "replacePlainKeys buffer too small for accountAddr"⟩

def storageAddrTexts : FieldTexts :=
  ⟨"replacePlainKeys buffer too small for storageAddr len",
    "replacePlainKeys value overflow for storageAddr len",
    "replacePlainKeys buffer too small for storageAddr"⟩

def hashTexts : FieldTexts :=
  ⟨"replacePlainKeys buffer too small for hash len",
    "replacePlainKeys value overflow for hash len",
    "replacePlainKeys buffer too small for hash"⟩

def stateHashTexts : FieldTexts :=
  ⟨"replacePlainKeys buffer too small for acLeaf hash len",
    "replacePlainKeys value overflow for acLeafhash len",
    "replacePlainKeys buffer too small for LeafHash"⟩

variable (texts : FieldTexts) (total : Nat)

/-- The length of a field as it is written, the field, and what follows; `total` is the
length of the whole branch.  An end beyond an `int` turns negative and the slice panics. -/
def readField (data : Bytes) : Result (Bytes × Bytes × Bytes) :=
  match uvarint data with
  | .error .tooSmall => .error texts.lenSmall
  | .error .overflow => .error texts.lenOverflow
  | .ok (l, rest) =>
    let pos := total - rest.length
    if rest.length < l then
      if 2 ^ 63 ≤ pos + l then .panic "slice bounds out of range"
      else .error s!"{texts.short}: expected {pos + l} got {total}"
    else .ok (data.take (data.length - rest.length), rest.take l, rest.drop l)

/-- A field that is copied, if the record has it. -/
def copyField (has : Bool) (data : Bytes) :
    Result (Bytes × Bytes) := do
  if has then
    let (len, field, rest) ← readField texts total data
    return (len ++ field, rest)
  else return ([], data)

/-- What replaces a plain key; the flag says whether it is one of a slot, and `none` that
the key stays. -/
abbrev Replacer := Bytes → Bool → Result (Option Bytes)

variable (fn : Replacer)

/-- A plain key, if the record has it. -/
def replaceField (isStorage has : Bool)
    (data : Bytes) : Result (Bytes × Bytes) := do
  if has then
    let (len, key, rest) ← readField texts total data
    match ← fn key isStorage with
    | none => return (len ++ key, rest)
    | some newKey => return (putUvarint 10 newKey.length ++ newKey, rest)
  else return ([], data)

def hasField (fields field : UInt8) : Bool := decide (fields &&& field ≠ 0)

/-- One pass of the loop of `ReplacePlainKeys`: the new record and what follows the old one. -/
def replaceCell : Bytes → Result (Bytes × Bytes)
  | [] => .panic "index out of range"
  | fields :: data => do
    let (extension, data) ←
      copyField extensionTexts total (hasField fields fieldExtension) data
    let (accountAddr, data) ←
      replaceField accountAddrTexts total fn false (hasField fields fieldAccountAddr) data
    let (storageAddr, data) ←
      replaceField storageAddrTexts total fn true (hasField fields fieldStorageAddr) data
    let (hash, data) ← copyField hashTexts total (hasField fields fieldHash) data
    let (stateHash, data) ←
      copyField stateHashTexts total (hasField fields fieldStateHash) data
    return (fields :: (extension ++ accountAddr ++ storageAddr ++ hash ++ stateHash), data)

def replaceCells (total : Nat) (fn : Replacer) : Nat → Bytes → Result Bytes
  | 0, _ => .ok []
  | n + 1, data => do
    let (cell, rest) ← replaceCell total fn data
    return cell ++ (← replaceCells total fn n rest)

/-- How many children two maps share; the loop takes the lowest bit off until none is left. -/
def shared (touchMap afterMap : Nat) : Nat :=
  (List.range 16).countP fun nibble => (touchMap &&& afterMap).testBit nibble

def replacePlainKeys (branchData : Bytes) (fn : Replacer) : Result Bytes :=
  if branchData.length < 4 then .ok branchData
  else
    let touchMap := beNat (branchData.take 2)
    let afterMap := beNat ((branchData.drop 2).take 2)
    if touchMap &&& afterMap = 0 then .ok branchData
    else (replaceCells branchData.length fn (shared touchMap afterMap) (branchData.drop 4)).map
      fun cells => branchData.take 4 ++ cells

/-! ### Branches -/

/-- A record of a child, as `EncodeBranch` writes it. -/
structure Cell where
  extension : Option Bytes
  accountAddr : Option Bytes
  storageAddr : Option Bytes
  hash : Option Bytes
  stateHash : Option Bytes

namespace Cell

def fields (c : Cell) : UInt8 :=
  (if c.extension.isSome then fieldExtension else 0) |||
    (if c.accountAddr.isSome then fieldAccountAddr else 0) |||
    (if c.storageAddr.isSome then fieldStorageAddr else 0) |||
    (if c.hash.isSome then fieldHash else 0) |||
    (if c.stateHash.isSome then fieldStateHash else 0)

/-- `putUvarAndVal`, for a field that is there. -/
def encodeField : Option Bytes → Bytes
  | none => []
  | some val => putUvarint 10 val.length ++ val

def encode (c : Cell) : Bytes :=
  c.fields :: (encodeField c.extension ++ encodeField c.accountAddr ++ encodeField c.storageAddr ++
    encodeField c.hash ++ encodeField c.stateHash)

/-- Other plain keys. -/
def mapKeys (f : Bytes → Bool → Bytes) (c : Cell) : Cell :=
  { c with
    accountAddr := c.accountAddr.map fun key => f key false
    storageAddr := c.storageAddr.map fun key => f key true }

/-- Fields whose lengths can be written. -/
def Small (c : Cell) : Prop :=
  ∀ field ∈ [c.extension, c.accountAddr, c.storageAddr, c.hash, c.stateHash], ∀ val ∈ field,
    val.length < 2 ^ 64

end Cell

/-! ### Records -/

theorem readField_encode {val : Bytes}
    (hval : val.length < 2 ^ 64) (rest : Bytes) :
    readField texts total (putUvarint 10 val.length ++ val ++ rest) =
      .ok (putUvarint 10 val.length, val, rest) := by
  rw [append_assoc, readField, uvarint_putUvarint hval]
  dsimp only
  rw [if_neg (by simp)]
  simp

theorem copyField_encode {field : Option Bytes}
    (hfield : ∀ val ∈ field, val.length < 2 ^ 64) (rest : Bytes) :
    copyField texts total field.isSome (Cell.encodeField field ++ rest) =
      .ok (Cell.encodeField field, rest) := by
  cases field with
  | none => rfl
  | some val =>
    rw [copyField, Option.isSome_some, if_pos rfl, Cell.encodeField,
      readField_encode texts total (hfield val rfl)]
    rfl

/-- A key comes out as it is replaced. -/
theorem replaceField_encode (isStorage : Bool)
    {field : Option Bytes} (hfield : ∀ val ∈ field, val.length < 2 ^ 64) (rest : Bytes)
    {f : Bytes → Bool → Bytes}
    (hfn : ∀ key ∈ field, ∃ new, fn key isStorage = .ok new ∧ new.getD key = f key isStorage) :
    replaceField texts total fn isStorage field.isSome (Cell.encodeField field ++ rest) =
      .ok (Cell.encodeField (field.map fun key => f key isStorage), rest) := by
  cases field with
  | none => rfl
  | some key =>
    obtain ⟨new, hnew, heq⟩ := hfn key rfl
    rw [replaceField, Option.isSome_some, if_pos rfl, Cell.encodeField,
      readField_encode texts total (hfield key rfl), ok_bind]
    dsimp only
    rw [hnew, ok_bind, Option.map_some, Cell.encodeField, ← heq]
    cases new <;> rfl

theorem hasField_fields (c : Cell) :
    hasField c.fields fieldExtension = c.extension.isSome ∧
      hasField c.fields fieldAccountAddr = c.accountAddr.isSome ∧
      hasField c.fields fieldStorageAddr = c.storageAddr.isSome ∧
      hasField c.fields fieldHash = c.hash.isSome ∧
      hasField c.fields fieldStateHash = c.stateHash.isSome := by
  obtain ⟨extension, accountAddr, storageAddr, hash, stateHash⟩ := c
  unfold Cell.fields
  generalize extension.isSome = x₁
  generalize accountAddr.isSome = x₂
  generalize storageAddr.isSome = x₃
  generalize hash.isSome = x₄
  generalize stateHash.isSome = x₅
  revert x₁ x₂ x₃ x₄ x₅
  decide

theorem replaceCell_encode {c : Cell} (hsmall : c.Small)
    (rest : Bytes) {f : Bytes → Bool → Bytes}
    (haccount : ∀ key ∈ c.accountAddr, ∃ new, fn key false = .ok new ∧ new.getD key = f key false)
    (hstorage : ∀ key ∈ c.storageAddr, ∃ new, fn key true = .ok new ∧ new.getD key = f key true) :
    replaceCell total fn (c.encode ++ rest) = .ok ((c.mapKeys f).encode, rest) := by
  obtain ⟨h₁, h₂, h₃, h₄, h₅⟩ := hasField_fields c
  have hfields : (c.mapKeys f).fields = c.fields := by
    obtain ⟨extension, accountAddr, storageAddr, hash, stateHash⟩ := c
    cases accountAddr <;> cases storageAddr <;> rfl
  simp only [Cell.Small, forall_mem_cons] at hsmall
  obtain ⟨hs₁, hs₂, hs₃, hs₄, hs₅, -⟩ := hsmall
  rw [Cell.encode, cons_append, replaceCell, h₁, h₂, h₃, h₄, h₅]
  simp only [append_assoc]
  rw [copyField_encode _ _ hs₁, ok_bind]
  dsimp only
  rw [replaceField_encode _ _ fn false hs₂ _ haccount, ok_bind]
  dsimp only
  rw [replaceField_encode _ _ fn true hs₃ _ hstorage, ok_bind]
  dsimp only
  rw [copyField_encode _ _ hs₄, ok_bind]
  dsimp only
  rw [copyField_encode _ _ hs₅, ok_bind, Cell.encode, hfields]
  simp [Cell.mapKeys]
  rfl

end BranchData

/-- Branch data in full: one record for every child that is touched and present. -/
structure Branch where
  touchMap : Nat
  afterMap : Nat
  cells : List BranchData.Cell
  touchMap_lt : touchMap < 2 ^ 16
  afterMap_lt : afterMap < 2 ^ 16
  count : cells.length = BranchData.shared touchMap afterMap

namespace Branch

open BranchData

variable (b : Branch)

def encode : Bytes :=
  beBytes 2 b.touchMap ++ beBytes 2 b.afterMap ++ b.cells.flatMap Cell.encode

def mapKeys (f : Bytes → Bool → Bytes) (b : Branch) : Branch :=
  { b with
    cells := b.cells.map (Cell.mapKeys f)
    count := by rw [length_map, b.count] }

/-- The plain keys of a branch, with what they are of. -/
def Key (key : Bytes) (isStorage : Bool) : Prop :=
  ∃ c ∈ b.cells, (if isStorage then c.storageAddr else c.accountAddr) = some key

variable {f : Bytes → Bool → Bytes}

theorem key_mapKeys {b : Branch} {key : Bytes} {isStorage : Bool}
    (hkey : (b.mapKeys f).Key key isStorage) :
    ∃ k, b.Key k isStorage ∧ key = f k isStorage := by
  obtain ⟨c', hc', hfield⟩ := hkey
  obtain ⟨c, hc, rfl⟩ := mem_map.mp hc'
  cases isStorage with
  | false | true =>
    obtain ⟨k, hk, rfl⟩ := Option.map_eq_some_iff.mp hfield
    exact ⟨k, ⟨c, hc, hk⟩, rfl⟩

theorem mapKeys_congr {b : Branch} {g : Bytes → Bool → Bytes}
    (h : ∀ key isStorage, b.Key key isStorage → f key isStorage = g key isStorage) :
    b.mapKeys f = b.mapKeys g := by
  have hcells : b.cells.map (Cell.mapKeys f) = b.cells.map (Cell.mapKeys g) := by
    refine map_congr_left fun c hc => ?_
    have haccount : (c.accountAddr.map fun key => f key false) =
        c.accountAddr.map fun key => g key false :=
      Option.map_congr fun key hkey => h key false ⟨c, hc, hkey⟩
    have hstorage : (c.storageAddr.map fun key => f key true) =
        c.storageAddr.map fun key => g key true :=
      Option.map_congr fun key hkey => h key true ⟨c, hc, hkey⟩
    rw [Cell.mapKeys, haccount, hstorage, Cell.mapKeys]
  simp only [mapKeys, hcells]

theorem mapKeys_id : b.mapKeys (fun key _ => key) = b := by
  have hcells : b.cells.map (Cell.mapKeys fun key _ => key) = b.cells := by
    refine map_id'' (fun c => ?_) _
    simp [Cell.mapKeys]
  simp only [mapKeys, hcells]

theorem mapKeys_mapKeys (f g : Bytes → Bool → Bytes) :
    (b.mapKeys f).mapKeys g = b.mapKeys fun key isStorage => g (f key isStorage) isStorage := by
  have hcells : (b.cells.map (Cell.mapKeys f)).map (Cell.mapKeys g) =
      b.cells.map (Cell.mapKeys fun key isStorage => g (f key isStorage) isStorage) := by
    rw [map_map]
    refine map_congr_left fun c _ => ?_
    simp [Cell.mapKeys, Function.comp_def]
  simp only [mapKeys, hcells]

/-- Keys of any writable length may take the place of the keys. -/
theorem small_mapKeys {b : Branch} (hsmall : ∀ c ∈ b.cells, c.Small)
    (hf : ∀ key isStorage, b.Key key isStorage → (f key isStorage).length < 2 ^ 64) :
    ∀ c ∈ (b.mapKeys f).cells, c.Small := by
  intro c' hc'
  obtain ⟨c, hc, rfl⟩ := mem_map.mp hc'
  have h := hsmall c hc
  simp only [Cell.Small, forall_mem_cons] at h ⊢
  refine ⟨h.1, ?_, ?_, h.2.2.2⟩
  · intro val hval
    obtain ⟨k, hk, rfl⟩ := Option.map_eq_some_iff.mp hval
    exact hf k false ⟨c, hc, hk⟩
  · intro val hval
    obtain ⟨k, hk, rfl⟩ := Option.map_eq_some_iff.mp hval
    exact hf k true ⟨c, hc, hk⟩

theorem replaceCells_encode (total : Nat) (fn : Replacer) {cells : List Cell}
    (hsmall : ∀ c ∈ cells, c.Small) (hfn : ∀ c ∈ cells, ∀ key isStorage,
      (if isStorage then c.storageAddr else c.accountAddr) = some key →
        ∃ new, fn key isStorage = .ok new ∧ new.getD key = f key isStorage) :
    replaceCells total fn cells.length (cells.flatMap Cell.encode) =
      .ok ((cells.map (Cell.mapKeys f)).flatMap Cell.encode) := by
  induction cells with
  | nil => rfl
  | cons c cells ih =>
    have hcell := hfn c mem_cons_self
    rw [length_cons, replaceCells, flatMap_cons,
      replaceCell_encode total fn (hsmall c mem_cons_self) _
        (fun key hkey => hcell key false hkey) (fun key hkey => hcell key true hkey),
      ok_bind]
    dsimp only
    rw [ih (fun c hc => hsmall c (mem_cons_of_mem _ hc)) (fun c hc => hfn c (mem_cons_of_mem _ hc))]
    rfl

/-- The keys of a branch come out as they are replaced, and all else as it was. -/
theorem replacePlainKeys_encode (hsmall : ∀ c ∈ b.cells, c.Small) (fn : Replacer)
    (hfn : ∀ key isStorage, b.Key key isStorage →
      ∃ new, fn key isStorage = .ok new ∧ new.getD key = f key isStorage) :
    replacePlainKeys b.encode fn = .ok (b.mapKeys f).encode := by
  have htouch : beNat (b.encode.take 2) = b.touchMap := by
    rw [encode, append_assoc, take_left' (beBytes_length 2 _), beNat_beBytes]
    exact Nat.mod_eq_of_lt b.touchMap_lt
  have hafter : beNat ((b.encode.drop 2).take 2) = b.afterMap := by
    rw [encode, append_assoc, drop_left' (beBytes_length 2 _),
      take_left' (beBytes_length 2 _), beNat_beBytes]
    exact Nat.mod_eq_of_lt b.afterMap_lt
  have hheader : (beBytes 2 b.touchMap ++ beBytes 2 b.afterMap).length = 4 := by simp
  have hcells := replaceCells_encode b.encode.length fn hsmall fun c hc key isStorage hkey =>
    hfn key isStorage ⟨c, hc, hkey⟩
  rw [replacePlainKeys, if_neg (by simp [encode]; omega)]
  dsimp only
  rw [htouch, hafter]
  split
  · rename_i hzero
    have hnone : b.cells = [] := by
      rw [← length_eq_zero_iff, b.count, shared, hzero]
      simp
    simp [encode, mapKeys, hnone]
  · rw [← b.count, show b.encode.drop 4 = b.cells.flatMap Cell.encode from drop_left' hheader,
      hcells, show b.encode.take 4 = _ from take_left' hheader]
    rfl

end Branch

end Erigon
