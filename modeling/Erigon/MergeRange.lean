/-
Choice of the files to merge next (`findMergeRange`, `staticFilesInRange`).
Visible files are known by their ranges of transaction numbers; the largest
merge that may end with a file is given by the lowest set bit of its last
step, capped for indices and histories.
-/
import Erigon.SimpleSequence
import Erigon.Tiling

namespace Erigon

/-- A visible file `[startTxNum, endTxNum)`. -/
structure VisibleFile where
  startTxNum : Nat
  endTxNum : Nat
  deriving DecidableEq

/-- `MergeRange`, without the name that only messages use. -/
structure MergeRange where
  needMerge : Bool
  fromTxNum : Nat
  toTxNum : Nat
  deriving DecidableEq

/-- The zero value of the source. -/
def MergeRange.zero : MergeRange := ⟨false, 0, 0⟩

/-- `visibleFiles.EndTxNum`. -/
def filesEndTxNum (files : List VisibleFile) : Nat :=
  (files.getLast?.map VisibleFile.endTxNum).getD 0

/-- `endStep & -endStep`, the size of the largest merge that may end there. -/
def lowestBit (endStep : Nat) : Nat :=
  endStep &&& sub64 0 endStep

variable (stepSize : Nat)

/-- Largest number of transactions of a merge that ends with a file. -/
def mergeSpan (item : VisibleFile) : Nat :=
  lowestBit (item.endTxNum / stepSize) * stepSize

/-! ### Domain values -/

/-- One pass of the loop of `DomainRoTx.findMergeRange`. -/
def domainMergeStep (r : MergeRange) (item : VisibleFile) : MergeRange :=
  let fromTxNum := item.endTxNum - mergeSpan stepSize item
  if item.startTxNum ≤ fromTxNum then r
  else if r.needMerge ∧ r.fromTxNum ≤ fromTxNum then r -- small files inside the span
  else ⟨true, fromTxNum, item.endTxNum⟩

/-- The values part of `DomainRoTx.findMergeRange`: the loop ends at the first
file behind `maxEndTxNum`. -/
def domainFindMergeRange (files : List VisibleFile)
    (maxEndTxNum : Nat) : MergeRange :=
  (files.takeWhile fun item => decide (item.endTxNum ≤ maxEndTxNum)).foldl
    (domainMergeStep stepSize) .zero

/-! ### Inverted index -/

/-- One pass of the loop of `InvertedIndexRoTx.findMergeRange`, whose local
variables are kept as a range. -/
def indexMergeStep (maxEndTxNum maxSpan : Nat) (r : MergeRange)
    (item : VisibleFile) : MergeRange :=
  if maxEndTxNum < item.endTxNum then r
  else
    let start := item.endTxNum - min (mergeSpan stepSize item) maxSpan
    let foundSuperSet := r.fromTxNum = item.startTxNum ∧ r.toTxNum ≤ item.endTxNum
    if foundSuperSet then ⟨false, start, item.endTxNum⟩
    else if item.startTxNum ≤ start then r
    else if r.needMerge ∧ r.fromTxNum ≤ start then r
    else ⟨true, start, item.endTxNum⟩

/-- The ranges left by the loop over the files. -/
def indexMergeLoop (files : List VisibleFile)
    (maxEndTxNum maxSpan : Nat) : MergeRange :=
  files.foldl (indexMergeStep stepSize maxEndTxNum maxSpan) .zero

/-- `InvertedIndexRoTx.findMergeRange`; an empty range fails its assertion. -/
def indexFindMergeRange (files : List VisibleFile)
    (maxEndTxNum maxSpan : Nat) : Option MergeRange :=
  let r := indexMergeLoop stepSize files maxEndTxNum maxSpan
  if r.needMerge ∧ r.fromTxNum = r.toTxNum then none else some r

/-! ### History -/

structure HistoryRanges where
  history : MergeRange
  index : MergeRange
  deriving DecidableEq

def HistoryRanges.any (r : HistoryRanges) : Bool :=
  r.history.needMerge || r.index.needMerge

/-- The loop of `HistoryRoTx.findMergeRange` makes the same choices as that of
its index. -/
def historyMergeLoop (files : List VisibleFile)
    (maxEndTxNum maxSpan : Nat) : MergeRange :=
  files.foldl (indexMergeStep stepSize maxEndTxNum maxSpan) .zero

/-- What `HistoryRoTx.findMergeRange` makes of the ranges of the history and of
its index. -/
def reconcile (history index : MergeRange) : HistoryRanges :=
  if history.needMerge ∧ index.needMerge then
    if index.toTxNum < history.toTxNum then ⟨.zero, index⟩ -- history is ahead
    else if history.toTxNum < index.toTxNum then ⟨history, .zero⟩ -- history is behind
    else ⟨history, index⟩
  else ⟨history, index⟩

/-- `HistoryRoTx.findMergeRange`. -/
def historyFindMergeRange (historyFiles indexFiles : List VisibleFile)
    (maxEndTxNum maxSpan : Nat) : Option HistoryRanges :=
  (indexFindMergeRange stepSize indexFiles maxEndTxNum maxSpan).map
    (reconcile (historyMergeLoop stepSize historyFiles maxEndTxNum maxSpan))

/-! ### Files of a range -/

/-- `InvertedIndexRoTx.staticFilesInRange`, also the loop over the value files
of a domain: files in front of the range are skipped, the first one behind it
ends the loop. -/
def staticFilesInRange (files : List VisibleFile) (fromTxNum toTxNum : Nat) :
    List VisibleFile :=
  match files with
  | [] => []
  | item :: rest =>
    if item.startTxNum < fromTxNum then staticFilesInRange rest fromTxNum toTxNum
    else if toTxNum < item.endTxNum then []
    else item :: staticFilesInRange rest fromTxNum toTxNum

/-- `HistoryRoTx.staticFilesInRange`: index files and history files.  The index
files of a history merge come from the dirty files, and a missing one is an
error. -/
def historyStaticFilesInRange (historyFiles indexFiles dirtyIndexFiles : List VisibleFile)
    (r : HistoryRanges) : Option (List VisibleFile × List VisibleFile) :=
  if ¬ r.history.needMerge ∧ r.index.needMerge then
    some (staticFilesInRange indexFiles r.index.fromTxNum r.index.toTxNum, [])
  else if r.history.needMerge then
    let found := staticFilesInRange historyFiles r.history.fromTxNum r.history.toTxNum
    if found.all fun item => decide (item ∈ dirtyIndexFiles) then some (found, found)
    else none
  else some ([], [])

/-- The start of `InvertedIndexRoTx.mergeFiles`: the range of the new file, or
the failed assertion. -/
def indexMergeFilesRange (startTxNum endTxNum : Nat) : Option (Nat × Nat) :=
  if startTxNum = endTxNum then none else some (startTxNum, endTxNum)

/-- The range `HistoryRoTx.mergeFiles` has its index files merged to; `none`
when the assertion fails. -/
def historyMergeFilesRange (r : HistoryRanges) : Option (Nat × Nat) :=
  indexMergeFilesRange r.index.fromTxNum r.index.toTxNum

end Erigon
