/-
Plain keys in the branches of commitment files: a merge writes them as offsets into the
merged account and storage files, a read of a branch expands them again.
-/
import Erigon.BranchData
import Erigon.BtIndex
import Erigon.MergeSteps

namespace Erigon

open List

namespace ShortenedKeys

open BranchData (Replacer replacePlainKeys)

/-- `FilesItem`, with the parts that a lookup of keys uses. -/
structure FilesItem where
  startTxNum : Nat
  endTxNum : Nat
  data : DataFile
  bindex : Option (BtIndex data)

def FilesItem.covers (item : FilesItem) (txFrom txTo : Nat) : Bool :=
  decide (item.startTxNum = txFrom ∧ item.endTxNum = txTo)

/-- `DomainRoTx`: the visible files, the dirty files, whether there are B-tree accessors,
and what messages name. -/
structure DomainRoTx where
  files : List FilesItem
  dirtyFiles : List FilesItem
  accessorBTree : Bool
  version : String
  filenameBase : String
  stepSize : Nat

namespace DomainRoTx

variable (dt : DomainRoTx)

def lookupDirtyFileByItsRange (txFrom txTo : Nat) : Option FilesItem :=
  (dt.dirtyFiles.find? fun f => f.covers txFrom txTo).filter fun f => f.bindex.isSome

def rawLookupFileByRange (txFrom txTo : Nat) : Result FilesItem :=
  match dt.files.find? fun f => f.covers txFrom txTo with
  | some f => .ok f
  | none =>
    match dt.lookupDirtyFileByItsRange txFrom txTo with
    | some dirty => .ok dirty
    | none => .error (s!"file {dt.version}-{dt.filenameBase}." ++
        s!"{txFrom / dt.stepSize}-{txTo / dt.stepSize}.kv was not found")

/-- The loop over the value files. -/
def filesInRange (rng : MergeRange) : List FilesItem → List FilesItem
  | [] => []
  | item :: rest =>
    if item.startTxNum < rng.fromTxNum then filesInRange rng rest
    else if rng.toTxNum < item.endTxNum then []
    else item :: filesInRange rng rest

/-- The value files of `staticFilesInRange`. -/
def staticFilesInRange (rng : MergeRange) : List FilesItem :=
  if rng.needMerge then filesInRange rng dt.files else []

/-- The reader of the file with a range: from the map of the files that are merged, where
the last entry counts, or a dirty file. -/
def sourceFile (rng : MergeRange) (txFrom txTo : Nat) : Option FilesItem :=
  ((dt.staticFilesInRange rng).reverse.find? fun f => f.covers txFrom txTo).or
    (dt.lookupDirtyFileByItsRange txFrom txTo)

end DomainRoTx

/-! ### Shortened keys -/

def hexDigit (n : Nat) : Char := "0123456789abcdef".toList.getD n '0'

/-- `%x`. -/
def hexString (bytes : Bytes) : String :=
  String.ofList (bytes.flatMap fun b => [hexDigit (b.toNat / 16), hexDigit (b.toNat % 16)])

def decodeShorterKey (bytes : Bytes) : Result Nat :=
  match uvarint bytes with
  | .ok (offset, _) => .ok offset
  | .error .tooSmall => .panic s!"shorter key {hexString bytes} decode failed"
  | .error .overflow => .ok 0

def encodeShorterKey (offset : Nat) : Bytes := putUvarint 10 offset

/-- `lookupByShortenedKey`, which recovers from a panic of the reader. -/
def lookupByShortenedKey (shortKey : Bytes) (getter : DataFile) : Result (Option Bytes) :=
  if shortKey.length < 1 then .ok none
  else
    (decodeShorterKey shortKey).map fun offset =>
      if !getter.hasNext offset || getter.size ≤ offset then none
      else (getter.next false offset).map Prod.fst

variable (dt : DomainRoTx)

/-- `findShortenedKey` for a file of the domain: `Has(0)` is false of any accessors, so that
there is no look into a hash index.  A file without index, and an error of the index, is a
key that is not found. -/
def findShortenedKey (fullKey : Bytes) (item : FilesItem) :
    Result (Option Bytes) :=
  if dt.accessorBTree then
    match item.bindex with
    | none => .ok none
    | some bindex =>
      match bindex.get fullKey with
      | .error .panic => .panic "decode"
      | .error _ => .ok none
      | .ok offset => .ok (offset.map encodeShorterKey)
  else .ok none

/-- `ValuesPlainKeyReferencingThresholdReached`. -/
def thresholdReached (stepSize fromTxNum toTxNum : Nat) : Bool :=
  decide ((toTxNum - fromTxNum) / stepSize % 2 = 0)

/-! ### Expansion -/

def addrLength : Nat := 20
def storageKeyLength : Nat := 52

variable (fullLength : Nat)

/-- A key that is not full, from the file that it is an offset into; `lost` is what is said
of a key that is not there. -/
def expandKey (lost : String) (getter : DataFile) (key : Bytes) :
    Result (Option Bytes) := do
  if key.length = fullLength then return none
  else
    match ← lookupByShortenedKey key getter with
    | none => .error s!"{lost}: {hexString key}"
    | some plainKey => return some plainKey

def keyCommitmentState : Bytes := [0x73, 0x74, 0x61, 0x74, 0x65]

/-- `AggregatorRoTx` with the state domains. -/
structure AggregatorRoTx where
  stepSize : Nat
  replaceKeysInValues : Bool
  accounts : DomainRoTx
  storage : DomainRoTx
  code : DomainRoTx
  commitment : DomainRoTx

/-- `files.EndTxNum`. -/
def DomainRoTx.endTxNum : Nat := (dt.files.getLast?.map (·.endTxNum)).getD 0

/-- `TxNumsInFiles(kv.StateDomains...)`. -/
def AggregatorRoTx.txNumsInFiles (aggTx : AggregatorRoTx) : Nat :=
  [aggTx.accounts, aggTx.storage, aggTx.code, aggTx.commitment].foldl
    (fun minTxNum dt => if dt.endTxNum < minTxNum then dt.endTxNum else minTxNum) (2 ^ 64 - 1)

def replaceShortenedKeysInBranch (aggTx : AggregatorRoTx) (path branch : Bytes)
    (fStartTxNum fEndTxNum : Nat) : Result Bytes := do
  if !aggTx.replaceKeysInValues ∨ branch = [] ∨ path = keyCommitmentState ∨
      aggTx.txNumsInFiles = 0 ∨ !thresholdReached aggTx.stepSize fStartTxNum fEndTxNum then
    return branch
  else
    let storageItem ← aggTx.storage.rawLookupFileByRange fStartTxNum fEndTxNum
    let accountItem ← aggTx.accounts.rawLookupFileByRange fStartTxNum fEndTxNum
    replacePlainKeys branch fun key isStorage =>
      if isStorage then
        expandKey storageKeyLength "replace back lost storage full key" storageItem.data key
      else expandKey addrLength "replace back lost account full key" accountItem.data key

/-! ### Transformation -/

/-- A key that is full, or is an offset into the source file. -/
def sourceKey (source : DataFile) (key : Bytes) : Result (Option Bytes) :=
  if key.length = fullLength then .ok (some key) else lookupByShortenedKey key source

/-- A key of a merged branch: the full one, shortened for the merged file if that has it. -/
def transformKey (lost missing : String)
    (source : DataFile) (merged : FilesItem) (key : Bytes) : Result (Option Bytes) := do
  match ← sourceKey fullLength source key with
  | none => .error s!"{lost} {hexString key}"
  | some full =>
    match ← findShortenedKey dt full merged with
    | some shortened => return some shortened
    | none =>
      if full.length = fullLength then return some full
      else .error s!"{missing} {hexString full}"

abbrev ValueTransformer := Bytes → Nat → Nat → Result Bytes

/-- The function that `commitmentValTransformDomain` returns. -/
def valueTransformer (replaceKeysInValues : Bool) (stepSize : Nat) (rng : MergeRange)
    (accounts storage : DomainRoTx) (mergedAccount mergedStorage : FilesItem) : ValueTransformer :=
  fun valBuf keyFromTxNum keyEndTxNum => do
    if !replaceKeysInValues ∨ valBuf = [] ∨
        !thresholdReached stepSize keyFromTxNum keyEndTxNum then
      return valBuf
    else
      match storage.sourceFile rng keyFromTxNum keyEndTxNum with
      | none => .error ("dirty storage file not found " ++
          s!"{keyFromTxNum / stepSize}-{keyEndTxNum / stepSize}")
      | some sig =>
        match accounts.sourceFile rng keyFromTxNum keyEndTxNum with
        | none => .error ("dirty account file not found " ++
            s!"{keyFromTxNum / stepSize}-{keyEndTxNum / stepSize}")
        | some aig =>
          replacePlainKeys valBuf fun key isStorage =>
            if isStorage then
              transformKey storage storageKeyLength "lookup lost storage full key"
                "replacement not found for storage" sig.data mergedStorage key
            else
              transformKey accounts addrLength "lookup account full key:"
                "replacement not found for account " aig.data mergedAccount key

/-- The merged file of a domain: it is passed, or it is looked up. -/
def mergedFile (rng : MergeRange) : Option FilesItem → Result FilesItem
  | some item => .ok item
  | none => dt.rawLookupFileByRange rng.fromTxNum rng.toTxNum

def commitmentValTransformDomain (replaceKeysInValues : Bool) (stepSize : Nat) (rng : MergeRange)
    (accounts storage : DomainRoTx) (mergedAccount mergedStorage : Option FilesItem) :
    Result ValueTransformer := do
  let mergedStorage ← mergedFile storage rng mergedStorage
  let mergedAccount ← mergedFile accounts rng mergedAccount
  return valueTransformer replaceKeysInValues stepSize rng accounts storage mergedAccount
    mergedStorage

/-! ### Files that are there -/

/-- The file of a domain for a range: it has its index, and no other file has the range. -/
structure Present (dt : DomainRoTx) (txFrom txTo : Nat) (item : FilesItem) : Prop where
  dirty : item ∈ dt.dirtyFiles
  range : item.covers txFrom txTo = true
  indexed : item.bindex.isSome = true
  only : ∀ f, f ∈ dt.files ∨ f ∈ dt.dirtyFiles → f.covers txFrom txTo = true → f = item

variable {rng : MergeRange}

theorem DomainRoTx.mem_filesInRange {files : List FilesItem} {item : FilesItem}
    (hitem : item ∈ DomainRoTx.filesInRange rng files) : item ∈ files := by
  induction files with
  | nil => exact hitem
  | cons f files ih =>
    rw [filesInRange] at hitem
    split at hitem
    · exact mem_cons_of_mem f (ih hitem)
    · split at hitem
      · cases hitem
      · rcases mem_cons.mp hitem with rfl | hrest
        · exact mem_cons_self
        · exact mem_cons_of_mem f (ih hrest)

theorem DomainRoTx.mem_staticFilesInRange {dt : DomainRoTx} {item : FilesItem}
    (hitem : item ∈ dt.staticFilesInRange rng) : item ∈ dt.files := by
  rw [staticFilesInRange] at hitem
  split at hitem
  · exact mem_filesInRange hitem
  · cases hitem

namespace Present

variable {dt : DomainRoTx} {txFrom txTo : Nat} {item : FilesItem}

section

variable (h : Present dt txFrom txTo item)

include h

/-- A search that finds a file finds this one. -/
theorem eq_of_find? {files : List FilesItem} {f : FilesItem}
    (hfind : files.find? (fun f => f.covers txFrom txTo) = some f)
    (hfiles : ∀ f ∈ files, f ∈ dt.files ∨ f ∈ dt.dirtyFiles) : f = item := by
  have hcovers := find?_some hfind
  exact h.only f (hfiles f (mem_of_find?_eq_some hfind)) hcovers

theorem lookupDirtyFileByItsRange : dt.lookupDirtyFileByItsRange txFrom txTo = some item := by
  rw [DomainRoTx.lookupDirtyFileByItsRange]
  cases hfind : dt.dirtyFiles.find? fun f => f.covers txFrom txTo with
  | none => exact absurd h.range (by simpa using find?_eq_none.mp hfind item h.dirty)
  | some f =>
    obtain rfl := h.eq_of_find? hfind fun f hf => .inr hf
    rw [Option.filter_some, if_pos h.indexed]

theorem rawLookupFileByRange : dt.rawLookupFileByRange txFrom txTo = .ok item := by
  rw [DomainRoTx.rawLookupFileByRange]
  cases hfind : dt.files.find? fun f => f.covers txFrom txTo with
  | none => rw [h.lookupDirtyFileByItsRange]
  | some f =>
    obtain rfl := h.eq_of_find? hfind fun f hf => .inl hf
    rfl

theorem sourceFile (rng : MergeRange) : dt.sourceFile rng txFrom txTo = some item := by
  rw [DomainRoTx.sourceFile, h.lookupDirtyFileByItsRange]
  cases hfind : (dt.staticFilesInRange rng).reverse.find? fun f => f.covers txFrom txTo with
  | none => rfl
  | some f =>
    obtain rfl := h.eq_of_find? hfind fun f hf =>
      .inl (DomainRoTx.mem_staticFilesInRange (mem_reverse.mp hf))
    rfl

end

end Present

/-! ### Keys -/

def keyLength (isStorage : Bool) : Nat := if isStorage then storageKeyLength else addrLength

/-- What a key of a branch stands for, if short keys are offsets into a file. -/
def Resolves (file : DataFile) (key full : Bytes) : Prop :=
  full.length = fullLength ∧ sourceKey fullLength file key = .ok (some full)

variable {fullLength : Nat} {file : DataFile} {full : Bytes}

theorem Resolves.unique {key full' : Bytes} (h : Resolves fullLength file key full)
    (h' : Resolves fullLength file key full') :
    full = full' := by
  have heq := h.2.symm.trans h'.2
  injection heq with heq
  exact Option.some.inj heq

/-- The key that a key stands for. -/
def resolve (fullLength : Nat) (file : DataFile) (key : Bytes) : Bytes :=
  match sourceKey fullLength file key with
  | .ok (some full) => full
  | _ => key

theorem Resolves.resolve_eq {key : Bytes} (h : Resolves fullLength file key full) :
    resolve fullLength file key = full := by
  rw [resolve, h.2]

theorem resolves_self (file : DataFile) {key : Bytes} (hlength : key.length = fullLength) :
    Resolves fullLength file key key :=
  ⟨hlength, by rw [sourceKey, if_pos hlength]⟩

/-- A short key leads to the key it was made for. -/
theorem lookupByShortenedKey_encodeShorterKey {offset : Nat} {key : Bytes}
    (hkey : file.HasKey offset key) :
    lookupByShortenedKey (encodeShorterKey offset) file = .ok (some key) := by
  obtain ⟨hnext, behind, hread⟩ := hkey
  have hlt : offset < file.dataLen := of_decide_eq_true hnext
  have hle := file.dataLen_le
  have hsize := file.size_lt
  have hpos := putUvarint_length_pos (show 0 < 10 by decide) offset
  have hdecode := uvarint_putUvarint (show offset < 2 ^ 64 by omega) []
  rw [append_nil] at hdecode
  rw [lookupByShortenedKey, encodeShorterKey, if_neg (by omega), decodeShorterKey, hdecode]
  simp [Result.map, hnext, hread, show ¬ file.size ≤ offset by omega]

theorem encodeShorterKey_length_ne (offset : Nat) (isStorage : Bool) :
    (encodeShorterKey offset).length ≠ keyLength isStorage := by
  have hle : (encodeShorterKey offset).length ≤ 10 := putUvarint_length_le 10 offset
  cases isStorage <;> simp only [keyLength, storageKeyLength, addrLength] <;> simp <;> omega

theorem expandKey_of_resolves {lost : String} {key : Bytes} (h : Resolves fullLength file key full) :
    ∃ new, expandKey fullLength lost file key = .ok new ∧ new.getD key = full := by
  by_cases hkey : key.length = fullLength
  · refine ⟨none, ?_, (resolves_self file hkey).unique h⟩
    rw [expandKey, if_pos hkey]
    rfl
  · have hlookup := h.2
    rw [sourceKey, if_neg hkey] at hlookup
    refine ⟨some full, ?_, rfl⟩
    rw [expandKey, if_neg hkey, hlookup]
    rfl

/-- The search of a merged file ends with nothing, or with a key that leads back. -/
theorem findShortenedKey_sound (full : Bytes) (merged : FilesItem) :
    ∃ found, findShortenedKey dt full merged = .ok found ∧ ∀ short ∈ found,
      ∃ offset, short = encodeShorterKey offset ∧ merged.data.HasKey offset full := by
  rw [findShortenedKey]
  split
  · cases merged.bindex with
    | none => exact ⟨none, rfl, by simp⟩
    | some bindex =>
      have hsound := bindex.get_sound full
      dsimp only
      revert hsound
      cases bindex.get full with
      | error e =>
        intro hsound
        cases e with
        | panic => exact absurd rfl hsound
        | lookupBounds => exact ⟨none, rfl, by simp⟩
        | notFound => exact ⟨none, rfl, by simp⟩
      | ok found =>
        intro hsound
        refine ⟨found.map encodeShorterKey, rfl, ?_⟩
        cases found with
        | none => simp
        | some offset =>
          intro short hshort
          exact ⟨offset, (Option.some.inj hshort).symm, hsound⟩
  · exact ⟨none, rfl, by simp⟩

/-- A transformed key stands for the same key in the merged file. -/
theorem transformKey_of_resolves {isStorage : Bool} {lost missing : String}
    {source : DataFile} (merged : FilesItem) {key : Bytes}
    (h : Resolves (keyLength isStorage) source key full) :
    ∃ new, transformKey dt (keyLength isStorage) lost missing source merged key = .ok (some new) ∧
      new.length < 2 ^ 64 ∧ Resolves (keyLength isStorage) merged.data new full := by
  have hlength : keyLength isStorage ≤ 52 := by cases isStorage <;> decide
  obtain ⟨found, hfind, hsound⟩ := findShortenedKey_sound dt full merged
  rw [transformKey, h.2, Result.ok_bind]
  dsimp only
  rw [hfind, Result.ok_bind]
  cases found with
  | none =>
    dsimp only
    rw [if_pos h.1]
    exact ⟨full, rfl, by rw [h.1]; omega, resolves_self _ h.1⟩
  | some short =>
    obtain ⟨offset, rfl, hkey⟩ := hsound short rfl
    have hshort : (encodeShorterKey offset).length ≤ 10 := putUvarint_length_le 10 offset
    refine ⟨encodeShorterKey offset, rfl, by omega, h.1, ?_⟩
    rw [sourceKey, if_neg (encodeShorterKey_length_ne offset isStorage),
      lookupByShortenedKey_encodeShorterKey hkey]

/-! ### Merged ranges -/

/-- A range that a domain merges has an even number of steps. -/
theorem thresholdReached_of_findMergeRange {stepSize maxEndTxNum : Nat} (hstep : 0 < stepSize)
    {files : List VisibleFile} (htiled : Tiled stepSize files)
    (hneed : (domainFindMergeRange stepSize files maxEndTxNum).needMerge = true) :
    thresholdReached stepSize (domainFindMergeRange stepSize files maxEndTxNum).fromTxNum
      (domainFindMergeRange stepSize files maxEndTxNum).toTxNum = true := by
  have hchosen : ChosenFrom (mergeSpan stepSize) files _ :=
    domainFindMergeRange_chosen files maxEndTxNum
  obtain ⟨item, hitem, hto, hfrom, hlt⟩ := hchosen hneed
  obtain ⟨j, hspan, hdvd⟩ := mergeSpan_eq hstep htiled hitem
  obtain ⟨k, m, hstart, hend⟩ := htiled.aligned item hitem
  have hblock : stepSize ≤ 2 ^ k * stepSize := Nat.le_mul_of_pos_left _ (by positivity)
  have hwhole : item.endTxNum = item.startTxNum + 2 ^ k * stepSize := by
    rw [hstart, hend, Nat.succ_mul]
  have hle : 2 ^ j * stepSize ≤ item.endTxNum := Nat.le_of_dvd (by omega) hdvd
  rw [hspan] at hfrom
  cases j with
  | zero => omega
  | succ j =>
    rw [thresholdReached, hto, hfrom, Nat.sub_sub_self hle, Nat.mul_div_cancel _ hstep,
      Nat.pow_succ, Nat.mul_mod_left]
    rfl

/-! ### Branches of files -/

/-- What the keys of a branch in a file of a range stand for: short keys are offsets into the
account and storage files of the range, and only a range with an even number of steps has
them. -/
structure ReadsAs (stepSize txFrom txTo : Nat) (accountFile storageFile : DataFile) (b : Branch)
    (full : Bytes → Bool → Bytes) : Prop where
  small : ∀ c ∈ b.cells, c.Small
  resolves : ∀ key isStorage, b.Key key isStorage → Resolves (keyLength isStorage)
    (if isStorage then storageFile else accountFile) key (full key isStorage)
  short : thresholdReached stepSize txFrom txTo = false → ∀ key isStorage, b.Key key isStorage →
    key.length = keyLength isStorage

/-- Where there are no short keys, a key stands for itself. -/
theorem ReadsAs.full_eq {stepSize txFrom txTo : Nat} {accountFile storageFile : DataFile}
    {b : Branch} {full : Bytes → Bool → Bytes}
    (hreads : ReadsAs stepSize txFrom txTo accountFile storageFile b full)
    (hreached : thresholdReached stepSize txFrom txTo = false) (key : Bytes) (isStorage : Bool)
    (hkey : b.Key key isStorage) : full key isStorage = key :=
  (hreads.resolves key isStorage hkey).unique
    (resolves_self _ (hreads.short hreached key isStorage hkey))

/-- The stored value of a branch, which is empty if the branch was deleted. -/
def storedBranch : Option Branch → Bytes
  | none => []
  | some b => b.encode

theorem Branch.encode_ne_nil (b : Branch) : b.encode ≠ [] := by
  intro hnil
  have hlength := congrArg List.length hnil
  simp [Branch.encode] at hlength

section Expansion

variable {aggTx : AggregatorRoTx} {path : Bytes} {txFrom txTo : Nat}
  {accountItem storageItem : FilesItem}

theorem replaceShortenedKeysInBranch_off (hflag : aggTx.replaceKeysInValues = false)
    (path branch : Bytes) (txFrom txTo : Nat) :
    replaceShortenedKeysInBranch aggTx path branch txFrom txTo = .ok branch := by
  rw [replaceShortenedKeysInBranch, if_pos (.inl (by simp [hflag]))]
  rfl

theorem replaceShortenedKeysInBranch_nil (aggTx : AggregatorRoTx) (path : Bytes)
    (txFrom txTo : Nat) : replaceShortenedKeysInBranch aggTx path [] txFrom txTo = .ok [] := by
  rw [replaceShortenedKeysInBranch, if_pos (.inr (.inl rfl))]
  rfl

/-- An expanded branch has the full keys in their places. -/
theorem replaceShortenedKeysInBranch_encode (hflag : aggTx.replaceKeysInValues = true)
    (hpath : path ≠ keyCommitmentState) (hfiles : aggTx.txNumsInFiles ≠ 0)
    (haccount : Present aggTx.accounts txFrom txTo accountItem)
    (hstorage : Present aggTx.storage txFrom txTo storageItem) {b : Branch}
    {full : Bytes → Bool → Bytes}
    (hreads : ReadsAs aggTx.stepSize txFrom txTo accountItem.data storageItem.data b full) :
    replaceShortenedKeysInBranch aggTx path b.encode txFrom txTo =
      .ok (b.mapKeys full).encode := by
  cases hreached : thresholdReached aggTx.stepSize txFrom txTo with
  | false =>
    have hfull : b.mapKeys full = b.mapKeys fun key _ => key :=
      Branch.mapKeys_congr (hreads.full_eq hreached)
    rw [replaceShortenedKeysInBranch, if_pos (by simp [hreached]), hfull, b.mapKeys_id]
    rfl
  | true =>
    rw [replaceShortenedKeysInBranch,
      if_neg (by simp [hflag, hpath, hfiles, hreached, Branch.encode_ne_nil]),
      hstorage.rawLookupFileByRange, Result.ok_bind, haccount.rawLookupFileByRange, Result.ok_bind]
    refine b.replacePlainKeys_encode hreads.small _ fun key isStorage hkey => ?_
    have hkey := hreads.resolves key isStorage hkey
    cases isStorage with
    | false => exact expandKey_of_resolves hkey
    | true => exact expandKey_of_resolves hkey

end Expansion

section Transformation

variable {stepSize : Nat} {rng : MergeRange} {accounts storage : DomainRoTx}
  {txFrom txTo : Nat} {accountItem storageItem mergedAccount mergedStorage : FilesItem}

/-- A transformed branch reads, in the merged range, as it did in its own. -/
theorem valueTransformer_encode (haccount : Present accounts txFrom txTo accountItem)
    (hstorage : Present storage txFrom txTo storageItem) {b : Branch}
    {full : Bytes → Bool → Bytes}
    (hreads : ReadsAs stepSize txFrom txTo accountItem.data storageItem.data b full)
    (hmerged : thresholdReached stepSize rng.fromTxNum rng.toTxNum = true) :
    ∃ b' full', valueTransformer true stepSize rng accounts storage mergedAccount mergedStorage
        b.encode txFrom txTo = .ok b'.encode ∧
      ReadsAs stepSize rng.fromTxNum rng.toTxNum mergedAccount.data mergedStorage.data b' full' ∧
      b'.mapKeys full' = b.mapKeys full := by
  let full' : Bytes → Bool → Bytes := fun key isStorage => resolve (keyLength isStorage)
    (if isStorage then mergedStorage.data else mergedAccount.data) key
  -- Keys that stand for the same in the merged files may take the place of the keys.
  have hread : ∀ new : Bytes → Bool → Bytes,
      (∀ key isStorage, b.Key key isStorage → (new key isStorage).length < 2 ^ 64 ∧
        Resolves (keyLength isStorage)
          (if isStorage then mergedStorage.data else mergedAccount.data) (new key isStorage)
          (full key isStorage)) →
      ReadsAs stepSize rng.fromTxNum rng.toTxNum mergedAccount.data mergedStorage.data
        (b.mapKeys new) full' ∧ (b.mapKeys new).mapKeys full' = b.mapKeys full := by
    intro new hnew
    refine ⟨⟨Branch.small_mapKeys hreads.small fun key isStorage hkey =>
      (hnew key isStorage hkey).1, ?_, fun hnot => by simp [hmerged] at hnot⟩, ?_⟩
    · intro key' isStorage hkey'
      obtain ⟨key, hkey, rfl⟩ := Branch.key_mapKeys hkey'
      have hresolves := (hnew key isStorage hkey).2
      rwa [← hresolves.resolve_eq] at hresolves
    · rw [Branch.mapKeys_mapKeys]
      exact Branch.mapKeys_congr fun key isStorage hkey => (hnew key isStorage hkey).2.resolve_eq
  cases hreached : thresholdReached stepSize txFrom txTo with
  | false =>
    obtain ⟨hmergedReads, hmergedFull⟩ := hread (fun key _ => key) fun key isStorage hkey => by
      have hlength := hreads.short hreached key isStorage hkey
      have hle : keyLength isStorage ≤ 52 := by cases isStorage <;> decide
      rw [hreads.full_eq hreached key isStorage hkey]
      exact ⟨by omega, resolves_self _ hlength⟩
    rw [b.mapKeys_id] at hmergedReads hmergedFull
    refine ⟨b, full', ?_, hmergedReads, hmergedFull⟩
    rw [valueTransformer, if_pos (by simp [hreached])]
    rfl
  | true =>
    have htransform : ∀ key isStorage, b.Key key isStorage → ∃ new : Bytes,
        (if isStorage then
          transformKey storage storageKeyLength "lookup lost storage full key"
            "replacement not found for storage" storageItem.data mergedStorage key
        else
          transformKey accounts addrLength "lookup account full key:"
            "replacement not found for account " accountItem.data mergedAccount key) =
          .ok (some new) ∧ new.length < 2 ^ 64 ∧ Resolves (keyLength isStorage)
            (if isStorage then mergedStorage.data else mergedAccount.data) new
            (full key isStorage) := by
      intro key isStorage hkey
      have hresolves := hreads.resolves key isStorage hkey
      cases isStorage with
      | false => exact transformKey_of_resolves accounts mergedAccount hresolves
      | true => exact transformKey_of_resolves storage mergedStorage hresolves
    choose! new hnew using htransform
    obtain ⟨hmergedReads, hmergedFull⟩ := hread new fun key isStorage hkey =>
      (hnew key isStorage hkey).2
    refine ⟨b.mapKeys new, full', ?_, hmergedReads, hmergedFull⟩
    rw [valueTransformer, if_neg (by simp [hreached, Branch.encode_ne_nil]), hstorage.sourceFile]
    dsimp only
    rw [haccount.sourceFile]
    exact b.replacePlainKeys_encode hreads.small _ fun key isStorage hkey =>
      ⟨_, (hnew key isStorage hkey).1, rfl⟩

end Transformation

/-- The file that an argument of the transformation stands for. -/
def Given (rng : MergeRange) (arg : Option FilesItem) (item : FilesItem) : Prop :=
  arg = some item ∨ arg = none ∧ Present dt rng.fromTxNum rng.toTxNum item

theorem Given.mergedFile_eq {dt : DomainRoTx} {arg : Option FilesItem} {item : FilesItem}
    (h : Given dt rng arg item) : mergedFile dt rng arg = .ok item := by
  obtain rfl | ⟨rfl, hpresent⟩ := h
  · rfl
  · exact hpresent.rawLookupFileByRange

/-- The visible files of a domain, as the choice of a range sees them. -/
def DomainRoTx.visibleFiles : List VisibleFile :=
  dt.files.map fun f => ⟨f.startTxNum, f.endTxNum⟩

/-- A branch that a merge takes over reads the same from the merged files, by whoever has
them, as it does from the files of its own range. -/
theorem transformed_branch_expands {merging reading : AggregatorRoTx} {maxEndTxNum : Nat}
    {rng : MergeRange} (hstep : 0 < merging.stepSize)
    (hstepSize : reading.stepSize = merging.stepSize)
    (hflags : reading.replaceKeysInValues = merging.replaceKeysInValues)
    (htiled : Tiled merging.stepSize merging.commitment.visibleFiles)
    (hrng : domainFindMergeRange merging.stepSize merging.commitment.visibleFiles maxEndTxNum = rng)
    (hneed : rng.needMerge = true)
    {txFrom txTo : Nat} {accountItem storageItem mergedAccount mergedStorage : FilesItem}
    (haccount : Present merging.accounts txFrom txTo accountItem)
    (hstorage : Present merging.storage txFrom txTo storageItem)
    (hmergedAccount : Present reading.accounts rng.fromTxNum rng.toTxNum mergedAccount)
    (hmergedStorage : Present reading.storage rng.fromTxNum rng.toTxNum mergedStorage)
    {accountArg storageArg : Option FilesItem}
    (haccountArg : Given merging.accounts rng accountArg mergedAccount)
    (hstorageArg : Given merging.storage rng storageArg mergedStorage)
    (hmergingFiles : merging.txNumsInFiles ≠ 0) (hreadingFiles : reading.txNumsInFiles ≠ 0)
    {path : Bytes} (hpath : path ≠ keyCommitmentState) {v : Option Branch}
    {full : Bytes → Bool → Bytes} (hreads : merging.replaceKeysInValues = true → ∀ b ∈ v,
      ReadsAs merging.stepSize txFrom txTo accountItem.data storageItem.data b full) :
    ∃ vt w x, commitmentValTransformDomain merging.replaceKeysInValues merging.stepSize rng
        merging.accounts merging.storage accountArg storageArg = .ok vt ∧
      vt (storedBranch v) txFrom txTo = .ok w ∧
      replaceShortenedKeysInBranch reading path w rng.fromTxNum rng.toTxNum = .ok x ∧
      replaceShortenedKeysInBranch merging path (storedBranch v) txFrom txTo = .ok x ∧
      x = storedBranch (if merging.replaceKeysInValues then v.map (Branch.mapKeys full) else v) := by
  have hreached : thresholdReached merging.stepSize rng.fromTxNum rng.toTxNum = true := by
    subst hrng
    exact thresholdReached_of_findMergeRange hstep htiled hneed
  have hvt : commitmentValTransformDomain merging.replaceKeysInValues merging.stepSize rng
      merging.accounts merging.storage accountArg storageArg =
        .ok (valueTransformer merging.replaceKeysInValues merging.stepSize rng merging.accounts
          merging.storage mergedAccount mergedStorage) := by
    rw [commitmentValTransformDomain, hstorageArg.mergedFile_eq, Result.ok_bind,
      haccountArg.mergedFile_eq, Result.ok_bind]
    rfl
  cases hflag : merging.replaceKeysInValues with
  | false =>
    rw [hflag] at hflags hvt
    refine ⟨_, storedBranch v, storedBranch v, hvt, ?_,
      replaceShortenedKeysInBranch_off hflags .., replaceShortenedKeysInBranch_off hflag .., rfl⟩
    rw [valueTransformer, if_pos (.inl rfl)]
    rfl
  | true =>
    rw [hflag] at hflags hvt
    cases v with
    | none =>
      exact ⟨_, [], [], hvt, rfl, replaceShortenedKeysInBranch_nil ..,
        replaceShortenedKeysInBranch_nil .., rfl⟩
    | some b =>
      have hreads := hreads hflag b rfl
      obtain ⟨b', full', htransform, hmergedReads, hsame⟩ :=
        valueTransformer_encode haccount hstorage hreads hreached
      rw [← hstepSize] at hmergedReads
      have hmergedExpand := replaceShortenedKeysInBranch_encode hflags hpath hreadingFiles
        hmergedAccount hmergedStorage hmergedReads
      rw [hsame] at hmergedExpand
      exact ⟨_, b'.encode, (b.mapKeys full).encode, hvt, htransform, hmergedExpand,
        replaceShortenedKeysInBranch_encode hflag hpath hmergingFiles haccount hstorage hreads,
        rfl⟩

variable (key : Bytes)

/-- A file with one key, at an offset. -/
def oneKeyFile (offset : Nat) : DataFile where
  size := 100
  dataLen := 100
  next isValue pos :=
    if isValue then (if pos = 90 then some ([], 100) else none)
    else if pos = offset then some (key, 90) else none
  dataLen_le := Nat.le_refl _
  size_lt := by decide

/-- Its index, with the range it is for. -/
def oneKeyItem (startTxNum endTxNum : Nat) (key : Bytes) (offset : Nat) (hoffset : offset < 90) :
    FilesItem where
  startTxNum := startTxNum
  endTxNum := endTxNum
  data := oneKeyFile key offset
  bindex := some
    { offt := [offset]
      mx := []
      nodes := by simp
      pairs := by
        intro i o ho
        obtain ⟨rfl, rfl⟩ : i = 0 ∧ o = offset := by
          cases i with
          | zero => exact ⟨rfl, (Option.some.inj ho).symm⟩
          | succ i => simp at ho
        exact ⟨key, 90, [], 100, by simp [oneKeyFile], by simp [oneKeyFile],
          decide_eq_true (show o < 100 by omega), rfl, by simp⟩ }

/-- Two files of two steps, and the file that they are merged into. -/
def twoFiles : DomainRoTx where
  files := [oneKeyItem 0 2 key 0 (by decide), oneKeyItem 2 4 key 0 (by decide)]
  dirtyFiles := [oneKeyItem 0 2 key 0 (by decide), oneKeyItem 0 4 key 5 (by decide),
    oneKeyItem 2 4 key 0 (by decide)]
  accessorBTree := true
  version := "v1.0"
  filenameBase := "accounts"
  stepSize := 1

def twoFilesTx (accountKey storageKey : Bytes) : AggregatorRoTx where
  stepSize := 1
  replaceKeysInValues := true
  accounts := twoFiles accountKey
  storage := twoFiles storageKey
  code := twoFiles []
  commitment := twoFiles []

theorem mem_twoFiles {key : Bytes} {f : FilesItem}
    (hf : f ∈ (twoFiles key).files ∨ f ∈ (twoFiles key).dirtyFiles) :
    f = oneKeyItem 0 2 key 0 (by decide) ∨ f = oneKeyItem 2 4 key 0 (by decide) ∨
      f = oneKeyItem 0 4 key 5 (by decide) := by
  simp only [twoFiles, mem_cons, not_mem_nil, or_false] at hf
  tauto

theorem present_twoFiles_source :
    Present (twoFiles key) 2 4 (oneKeyItem 2 4 key 0 (by decide)) where
  dirty := by simp [twoFiles]
  range := rfl
  indexed := rfl
  only f hf hrange := by
    obtain rfl | rfl | rfl := mem_twoFiles hf
    · cases hrange
    · rfl
    · cases hrange

theorem present_twoFiles_merged :
    Present (twoFiles key) 0 4 (oneKeyItem 0 4 key 5 (by decide)) where
  dirty := by simp [twoFiles]
  range := rfl
  indexed := rfl
  only f hf hrange := by
    obtain rfl | rfl | rfl := mem_twoFiles hf
    · cases hrange
    · cases hrange
    · rfl

/-- A branch with one account, whose key is the offset zero. -/
def shortBranch : Branch where
  touchMap := 1
  afterMap := 1
  cells := [⟨none, some [0], none, none, none⟩]
  touchMap_lt := by decide
  afterMap_lt := by decide
  count := by decide

theorem readsAs_shortBranch {accountKey storageKey : Bytes} (hlength : accountKey.length = 20) :
    ReadsAs 1 2 4 (oneKeyFile accountKey 0) (oneKeyFile storageKey 0) shortBranch
      fun _ _ => accountKey where
  small := by simp [shortBranch, BranchData.Cell.Small]
  resolves key isStorage hkey := by
    obtain ⟨c, hc, hfield⟩ := hkey
    obtain rfl := mem_singleton.mp hc
    cases isStorage with
    | true => cases hfield
    | false =>
      obtain rfl := Option.some.inj hfield
      exact ⟨hlength, rfl⟩
  short h := absurd h (by decide)

/-- The key of the branch moves from the offset zero to the offset five. -/
theorem transformed_shortBranch_expands :
    ∃ vt w x, commitmentValTransformDomain true 1 ⟨true, 0, 4⟩ (twoFiles (List.replicate 20 7))
        (twoFiles (List.replicate 52 9)) none none = .ok vt ∧
      vt shortBranch.encode 2 4 = .ok w ∧
      replaceShortenedKeysInBranch (twoFilesTx (List.replicate 20 7) (List.replicate 52 9)) [] w
        0 4 = .ok x ∧
      replaceShortenedKeysInBranch (twoFilesTx (List.replicate 20 7) (List.replicate 52 9)) []
        shortBranch.encode 2 4 = .ok x ∧
      x = (shortBranch.mapKeys fun _ _ => List.replicate 20 7).encode := by
  let tx := twoFilesTx (List.replicate 20 7) (List.replicate 52 9)
  have htiled : Tiled tx.stepSize tx.commitment.visibleFiles := by
    refine ⟨⟨rfl, by decide, rfl, by decide, rfl⟩, ?_, by decide⟩
    intro item hitem
    obtain rfl | rfl : item = ⟨0, 2⟩ ∨ item = ⟨2, 4⟩ := by
      simpa [tx, twoFilesTx, twoFiles, DomainRoTx.visibleFiles, oneKeyItem] using hitem
    · exact ⟨1, 0, rfl, rfl⟩
    · exact ⟨1, 1, rfl, rfl⟩
  have hrng : domainFindMergeRange tx.stepSize tx.commitment.visibleFiles 4 = ⟨true, 0, 4⟩ := by
    decide
  have haccount : Present tx.accounts 0 4 _ := present_twoFiles_merged _
  have hstorage : Present tx.storage 0 4 _ := present_twoFiles_merged _
  have hreads : tx.replaceKeysInValues = true → ∀ b ∈ some shortBranch,
      ReadsAs tx.stepSize 2 4 (oneKeyFile (List.replicate 20 7) 0)
        (oneKeyFile (List.replicate 52 9) 0) b fun _ _ => List.replicate 20 7 := by
    intro _ b hb
    obtain rfl := Option.some.inj hb
    exact readsAs_shortBranch rfl
  exact transformed_branch_expands Nat.one_pos rfl rfl htiled hrng rfl
    (present_twoFiles_source _) (present_twoFiles_source _) haccount hstorage
    (.inr ⟨rfl, haccount⟩) (.inr ⟨rfl, hstorage⟩) (by decide) (by decide) (by decide) hreads

end ShortenedKeys

end Erigon
