/-
State patches for unwinding (`HistoryRoTx.HistoryRange`): the keys that changed in
a range of transactions, with their values before.  What is in the files comes from
one stream, what is in the table from another, and their union is returned.  A
negative bound is none.
-/
import Erigon.ReconHeap

namespace Erigon

/-- The history in the DB: the values of a key begin with their transaction number,
or, when values are large, the number is the end of the key. -/
inductive HistoryValues
  | small (t : DupTable Bytes Bytes)
  | large (t : SortedPairs Bytes Bytes)

structure HistoryRoTx where
  files : List HistoryFile
  values : HistoryValues

/-- `uint64(n)` of an `int`. -/
def toUint64 (n : Int) : Nat := (n % 2 ^ 64).toNat

/-! ### The files -/

structure HistoryChangesIterFiles where
  startTxNum : Nat
  endTxNum : Int
  iter : ReconIter

namespace HistoryChangesIterFiles

def verdict (startTxNum : Nat) (endTxNum : Int) (nextKey : Option Bytes) (top : ReconEntry) :
    Verdict :=
  if top.key = nextKey.getD [] then .skip
  else
    match seekSeq top.val startTxNum with
    | none => .skip
    | some txNum =>
      if endTxNum ≤ toInt txNum then .skip
      else
        match top.file.lookup2 txNum top.key with
        | none => .noValue
        | some v => .found v

variable (it : HistoryChangesIterFiles)

def advance : HistoryChangesIterFiles :=
  { it with iter := it.iter.advance none (verdict it.startTxNum it.endTxNum) }

def next : Option ((Bytes × Bytes) × HistoryChangesIterFiles) :=
  (it.iter.next none (verdict it.startTxNum it.endTxNum)).map fun r =>
    (r.1, { it with iter := r.2 })

end HistoryChangesIterFiles

/-! ### The table -/

structure HistoryChangesIterDB where
  values : HistoryValues
  startTxKey : Bytes
  endTxNum : Int
  ahead : Ahead (Bytes × Bytes)

namespace HistoryChangesIterDB

section Loops

variable (startTxKey : Bytes) (endTxNum : Int)

/-- The loop of `advanceSmallVals`, at a key of the table. -/
def smallVals (t : DupTable Bytes Bytes) : Nat → Option Bytes → Option (Bytes × Bytes)
  | 0, _ => none
  | _, none => none
  | fuel + 1, some k =>
    match t.seekBothRange k startTxKey with
    | none =>
      match nextSubtree k with
      | none => none
      | some q => smallVals t fuel ((t.seek q).map Prod.fst)
    | some v =>
      if endTxNum < 0 ∨ toInt (beNat (v.take 8)) < endTxNum then some (k, v.drop 8)
      else smallVals t fuel ((t.nextNoDup k).map Prod.fst)

/-- `k[:len(k)-8]`. -/
def keyOf (k : Bytes) : Bytes := k.take (k.length - 8)

/-- `binary.BigEndian.Uint64(k[len(k)-8:])`. -/
def txNumOf (k : Bytes) : Nat := beNat (k.drop (k.length - 8))

/-- The loop of `advanceLargeVals`; `last` is the item that was found before. -/
def largeVals (t : SortedPairs Bytes Bytes) (last : Option (Bytes × Bytes)) :
    Nat → Bytes → Option (Bytes × Bytes)
  | 0, _ => none
  | fuel + 1, seek =>
    match t.seek seek with
    | [] => none
    | (k, v) :: rest =>
      if 0 ≤ endTxNum ∧ endTxNum ≤ toInt (txNumOf k) then
        match nextSubtree (keyOf k) with
        | none => none
        | some q => largeVals t last fuel (q ++ startTxKey)
      else
        -- When it is stuck on the last item it goes on to the first greater key.
        match (if last = some (keyOf k, v) then
            rest.find? fun a => decide (keyOf seek < keyOf a.1) else some (k, v)) with
        | none => none
        | some (k, v) =>
          if keyOf seek ≠ keyOf k then largeVals t last fuel (keyOf k ++ startTxKey)
          else some (keyOf k, v)

/-- The first advance, which opens the cursor. -/
def openAdvance : HistoryValues → Option (Bytes × Bytes)
  | .small t =>
    smallVals startTxKey endTxNum t (t.entries.length + 1) (t.entries.head?.map Prod.fst)
  | .large t =>
    match t.pairs.head? with
    | none => none
    | some (firstKey, _) =>
      largeVals startTxKey endTxNum t none (2 * t.pairs.length + 2)
        (keyOf firstKey ++ startTxKey)

def advance (last : Bytes × Bytes) : HistoryValues → Option (Bytes × Bytes)
  | .small t =>
    smallVals startTxKey endTxNum t (t.entries.length + 1) ((t.nextNoDup last.1).map Prod.fst)
  | .large t =>
    match nextSubtree last.1 with
    | none => none
    | some q =>
      largeVals startTxKey endTxNum t (some last) (2 * t.pairs.length + 2) (q ++ startTxKey)

end Loops

def next (it : HistoryChangesIterDB) : Option ((Bytes × Bytes) × HistoryChangesIterDB) :=
  (it.ahead.next (fun _ => true) fun last =>
    advance it.startTxKey it.endTxNum last it.values).map fun r => (r.1, { it with ahead := r.2 })

end HistoryChangesIterDB

/-! ### The union -/

section Range

variable (ht : HistoryRoTx) (fromTxNum toTxNum : Int) (limit : Int)

/-- `visibleFiles.EndTxNum`. -/
def historyFilesEnd (files : List HistoryFile) : Nat :=
  (files.getLast?.map fun f => f.endTxNum).getD 0

/-- The loop over the files: those that end before the range are left out, and it
ends at the first one behind the range. -/
def changedReaders : List HistoryFile → List (HistoryFile × List (Bytes × List Nat))
  | [] => []
  | f :: files =>
    if 0 ≤ fromTxNum ∧ f.endTxNum ≤ fromTxNum.toNat then changedReaders files
    else if 0 ≤ toTxNum ∧ toTxNum.toNat ≤ f.startTxNum then []
    else (f, f.sequences.pairs) :: changedReaders files

/-- None is the empty stream. -/
def iterateChangedFrozen : Option HistoryChangesIterFiles :=
  if ht.files = [] then none
  else if 0 ≤ fromTxNum ∧ historyFilesEnd ht.files ≤ fromTxNum.toNat then none
  else
    let s : HistoryChangesIterFiles := ⟨max 0 (toUint64 fromTxNum), toTxNum,
      .start (changedReaders fromTxNum toTxNum ht.files) limit⟩
    some s.advance

def startTxKey : Bytes := if 0 ≤ fromTxNum then beBytes 8 fromTxNum.toNat else beBytes 8 0

def iterateChangedRecent : Option HistoryChangesIterDB :=
  if 0 ≤ toTxNum ∧ ht.files ≠ [] ∧ toTxNum.toNat ≤ historyFilesEnd ht.files then none
  else some ⟨ht.values, startTxKey fromTxNum, toTxNum,
    ⟨HistoryChangesIterDB.openAdvance (startTxKey fromTxNum) toTxNum ht.values, limit⟩⟩

/-- `Next` of a stream that may be the empty one. -/
def nextOrEmpty {X T : Type} (next : X → Option (T × X)) : Option X → Option (T × Option X)
  | none => none
  | some x => (next x).map fun r => (r.1, some r.2)

abbrev HistoryStream :=
  Union (Option HistoryChangesIterDB) (Option HistoryChangesIterFiles) (Bytes × Bytes)

/-- The descending order is not supported. -/
def historyRange (asc : Bool) : Option HistoryStream :=
  if asc then
    some (Union.start (nextOrEmpty HistoryChangesIterDB.next)
      (nextOrEmpty HistoryChangesIterFiles.next) (iterateChangedRecent ht fromTxNum toTxNum limit)
      (iterateChangedFrozen ht fromTxNum toTxNum limit) limit)
  else none

def HistoryStream.next : HistoryStream → Option ((Bytes × Bytes) × HistoryStream) :=
  Union.next (nextOrEmpty HistoryChangesIterDB.next) (nextOrEmpty HistoryChangesIterFiles.next)
    Prod.fst

end Range

end Erigon
