/-
Ranges of transaction numbers of a key (`InvertedIndexRoTx.IdxRange`).  What the
files have comes from one stream, what is in the table from another, and their
union is returned.  A negative bound is none.  A file is read through its accessor,
which gives the sequence of a key if the file has the key.
-/
import Erigon.DupRange
import Erigon.SortedPairs
import Erigon.Tiling

namespace Erigon

/-- `int(n)` of a `uint64`. -/
def toInt (n : Nat) : Int := if n < 2 ^ 63 then n else n - 2 ^ 64

theorem toInt_eq {n : Nat} (hn : n < 2 ^ 63) : toInt n = n := if_pos hn

structure IndexFile where
  startTxNum : Nat
  endTxNum : Nat
  sequences : SortedPairs Bytes (List Nat)

/-! ### The files -/

/-- `SequenceReader.Iterator`. -/
def seqIterator (xs : List Nat) (fromNum : Int) : List Nat :=
  if 0 < fromNum then xs.dropWhile fun n => decide (n < fromNum.toNat) else xs

/-- `SequenceReader.ReverseIterator`. -/
def seqReverseIterator (xs : List Nat) (v : Int) : List Nat :=
  if 0 < v then xs.reverse.dropWhile fun n => decide (v.toNat < n) else xs.reverse

structure InvertedIdxStreamFiles where
  key : Bytes
  startTxNum : Int
  endTxNum : Int
  orderAscend : Bool
  limit : Int
  seqIt : Option (List Nat)
  stack : List IndexFile
  nextN : Nat
  hasNext : Bool

namespace InvertedIdxStreamFiles

variable (it : InvertedIdxStreamFiles)

/-- Numbers before the range are skipped. -/
def skips (n : Nat) : Bool :=
  if it.orderAscend then decide (toInt n < it.startTxNum)
  else decide (0 ≤ it.startTxNum ∧ it.startTxNum < toInt n)

/-- A number behind the range ends the stream. -/
def stops (n : Nat) : Bool :=
  if it.orderAscend then decide (0 ≤ it.endTxNum ∧ it.endTxNum ≤ toInt n)
  else decide (0 ≤ it.endTxNum ∧ toInt n ≤ it.endTxNum)

inductive SeqStep
  | found (n : Nat) (rest : List Nat)
  | terminated (rest : List Nat)
  | exhausted

/-- The loop over one sequence. -/
def scanSeq : List Nat → SeqStep
  | [] => .exhausted
  | n :: rest =>
    if it.skips n then scanSeq rest
    else if it.stops n then .terminated rest
    else .found n rest

def sequence (xs : List Nat) : List Nat :=
  if it.orderAscend then seqIterator xs it.startTxNum else seqReverseIterator xs it.startTxNum

/-- The loop over the files, when no sequence is open. -/
def advanceStack : List IndexFile → InvertedIdxStreamFiles
  | [] => { it with seqIt := none, stack := [], hasNext := false }
  | item :: stack =>
    match item.sequences.get it.key with
    | none => advanceStack stack
    | some xs =>
      match it.scanSeq (it.sequence xs) with
      | .found n rest =>
        { it with seqIt := some rest, stack := stack, nextN := n, hasNext := true }
      | .terminated rest =>
        { it with seqIt := some rest, stack := stack, hasNext := false }
      | .exhausted => advanceStack stack

def advanceInFiles : InvertedIdxStreamFiles :=
  match it.seqIt with
  | none => it.advanceStack it.stack
  | some xs =>
    match it.scanSeq xs with
    | .found n rest => { it with seqIt := some rest, nextN := n, hasNext := true }
    | .terminated rest => { it with seqIt := some rest, hasNext := false }
    | .exhausted => it.advanceStack it.stack

def advance : InvertedIdxStreamFiles := if it.hasNext then it.advanceInFiles else it

def next : Option (Nat × InvertedIdxStreamFiles) :=
  if it.limit ≠ 0 ∧ it.hasNext then
    some (it.nextN, advance { it with limit := it.limit - 1 })
  else none

end InvertedIdxStreamFiles

/-- The loops that fill the stack: `skip` goes on with the next file, `stop` ends
the loop, and files without keys are left out. -/
def pushFiles (skip stop : IndexFile → Bool) : List IndexFile → List IndexFile → List IndexFile
  | [], stack => stack
  | f :: files, stack =>
    if skip f then pushFiles skip stop files stack
    else if stop f then stack
    else if f.sequences.pairs.length = 0 then pushFiles skip stop files stack
    else pushFiles skip stop files (f :: stack)

/-- From the last file down, so that the first one comes to lie on top. -/
def ascendingStack (files : List IndexFile) (startTxNum endTxNum : Int) : List IndexFile :=
  pushFiles (fun f => decide (0 ≤ endTxNum ∧ endTxNum ≤ toInt f.startTxNum))
    (fun f => decide (0 ≤ startTxNum ∧ f.endTxNum ≤ startTxNum.toNat)) files.reverse []

def descendingStack (files : List IndexFile) (startTxNum endTxNum : Int) : List IndexFile :=
  pushFiles (fun f => decide (0 ≤ endTxNum ∧ toInt f.endTxNum ≤ endTxNum))
    (fun f => decide (0 ≤ startTxNum ∧ startTxNum.toNat < f.startTxNum)) files []

inductive IdxRangeError
  | expectedLower (startTxNum endTxNum : Int)
  | expectedBigger (startTxNum endTxNum : Int)
  | range (err : RangeError)
  deriving DecidableEq

section Range

variable (files : List IndexFile) (table : DupTable Bytes Bytes) (key : Bytes)
  (startTxNum endTxNum : Int) (asc : Bool) (limit : Int)

def iterateRangeOnFiles : Except IdxRangeError InvertedIdxStreamFiles :=
  if asc = true ∧ 0 ≤ startTxNum ∧ 0 ≤ endTxNum ∧ endTxNum < startTxNum then
    .error (.expectedLower startTxNum endTxNum)
  else if asc = false ∧ 0 ≤ startTxNum ∧ 0 ≤ endTxNum ∧ startTxNum < endTxNum then
    .error (.expectedBigger startTxNum endTxNum)
  else
    let stack := if asc then ascendingStack files startTxNum endTxNum
      else descendingStack files startTxNum endTxNum
    let it : InvertedIdxStreamFiles :=
      ⟨key, startTxNum, endTxNum, asc, limit, none, stack, 0, !stack.isEmpty⟩
    .ok it.advance

/-! ### The table -/

/-- `visibleFiles.EndTxNum`. -/
def filesEnd : Nat := (files.getLast?.map IndexFile.endTxNum).getD 0

/-- The range is taken to lie in the files. -/
def isFrozenRange : Bool :=
  if asc then decide (files ≠ [] ∧ 0 ≤ endTxNum ∧ endTxNum.toNat ≤ filesEnd files)
  else decide (files ≠ [] ∧ 0 ≤ startTxNum ∧ startTxNum.toNat ≤ filesEnd files)

def boundBytes (bound : Int) : Option Bytes :=
  if 0 ≤ bound then some (beBytes 8 bound.toNat) else none

/-- The stream over the table; none is the empty one. -/
def recentIterateRange : Except RangeError (Option CursorDup2iter) :=
  if isFrozenRange files startTxNum endTxNum asc then .ok none
  else (CursorDup2iter.init (table.dups key) (boundBytes startTxNum) (boundBytes endTxNum) asc
    limit).map some

def recentNext : Option CursorDup2iter → Option (Nat × Option CursorDup2iter)
  | none => none
  | some s => s.next.map fun r => (beNat r.1, some r.2)

/-! ### The union -/

/-- What a union compares. -/
def unionKey (n : Nat) : Int := if asc then n else -n

/-- `stream.Union` does not merge with a stream that is empty. -/
inductive IdxStream
  | files (x : InvertedIdxStreamFiles)
  | recent (y : Option CursorDup2iter)
  | union (asc : Bool) (m : Union InvertedIdxStreamFiles (Option CursorDup2iter) Nat)

def IdxStream.next : IdxStream → Option (Nat × IdxStream)
  | .files x => x.next.map fun r => (r.1, .files r.2)
  | .recent y => (recentNext y).map fun r => (r.1, .recent r.2)
  | .union asc m => (Union.next InvertedIdxStreamFiles.next recentNext (unionKey asc) m).map
      fun r => (r.1, .union asc r.2)

def idxUnion (x : InvertedIdxStreamFiles) (y : Option CursorDup2iter) : IdxStream :=
  if x.next.isNone then .recent y
  else if (recentNext y).isNone then .files x
  else .union asc (Union.start InvertedIdxStreamFiles.next recentNext x y limit)

def idxRange : Except IdxRangeError IdxStream := do
  let frozenIt ← iterateRangeOnFiles files key startTxNum endTxNum asc limit
  match recentIterateRange files table key startTxNum endTxNum asc limit with
  | .error err => .error (.range err)
  | .ok recentIt => .ok (idxUnion asc limit frozenIt recentIt)

end Range

end Erigon
