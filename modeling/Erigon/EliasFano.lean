/-
The Elias-Fano encoding of one monotone sequence (`eliasfano32`).  Element
`x_i` is split at bit `l`: the low part goes to a packed array, the high part
`h` sets bit `h + i` of the upper-bits array.  Index and division panics are
`none`; `uint64` arithmetic is reduced modulo `2 ^ 64` wherever it can wrap.
-/
import Erigon.UpperSelect
import Erigon.ByteCodec

namespace Erigon

/-- `bits.LeadingZeros64`. -/
def leadingZeros64 (x : Nat) : Nat :=
  if x = 0 then 64 else 63 - x.log2

/-- Largest number of bytes one allocation of the runtime may have. -/
def maxAlloc : Nat := 2 ^ 48

/-- `make([]uint64, n)`. -/
def makeWords (n : Nat) : Option (List Word) :=
  if 8 * n ≤ maxAlloc then some (List.replicate n 0#64) else none

structure EliasFano where
  lowerBits : List Word
  upperBits : List Word
  jump : List Word
  lowerBitsMask : Word
  count : Nat
  u : Nat
  l : Nat
  maxOffset : Nat
  i : Nat
  wordsUpperBits : Nat

namespace EliasFano

def superQSize : Nat := 1 + qPerSuperQ / 2

def layout : JumpLayout where
  header c := c / superQ * superQSize
  slotWord c := c / superQ * superQSize + 1 + ((c % superQ / q) >>> 1)
  slotShift c := 32 * (c % superQ / q % 2)
  slotMask := 0xffffffff#64
  slotLimit := 1 <<< 32

variable (ef : EliasFano)

/-- The backing array; the three parts are windows into it. -/
def data : List Word :=
  ef.lowerBits ++ ef.upperBits ++ ef.jump

/-- Bits of an element kept in the lower-bits array, for `n` elements. -/
def lowerWidth (n u : Nat) : Nat :=
  if u / n = 0 then 0 else 63 ^^^ leadingZeros64 (u / n)

def wordsLower (n l : Nat) : Nat :=
  (n * l + 63) % 2 ^ 64 / 64 + 1

def wordsUpper (n u l : Nat) : Nat :=
  (n + (u >>> l) + 63) % 2 ^ 64 / 64

def jumpSizeWords (n : Nat) : Nat :=
  let size := n / superQ * superQSize -- Whole blocks
  if n % superQ ≠ 0 then
    size + 1 + ((n % superQ + q - 1) / q + 3) / 2 -- Partial block
  else size

def totalWords (n u : Nat) : Nat :=
  let l := lowerWidth n u
  wordsLower n l + wordsUpper n u l + jumpSizeWords n

/-- `deriveFields`, over fresh memory or over the words of a serialized
sequence. -/
def deriveFields (count u maxOffset : Nat) (data : Option (List Word)) :
    Option EliasFano := do
  let n := (count + 1) % 2 ^ 64
  if n = 0 then none -- integer divide by zero
  let l := lowerWidth n u
  let total := totalWords n u
  let data ← match data with
    | none => makeWords total
    | some data => if total ≤ data.length then some (data.take total) else none
  return {
    lowerBits := data.take (wordsLower n l)
    upperBits := (data.drop (wordsLower n l)).take (wordsUpper n u l)
    jump := data.drop (wordsLower n l + wordsUpper n u l)
    lowerBitsMask := (1#64 <<< l) - 1#64
    count := count
    u := u
    l := l
    maxOffset := maxOffset
    i := 0
    wordsUpperBits := wordsUpper n u l }

/-- `NewEliasFano`. -/
def new (count maxOffset : Nat) : Option EliasFano :=
  if count = 0 then none -- too small count
  else deriveFields (count - 1) ((maxOffset + 1) % 2 ^ 64) maxOffset none

def addOffset (offset : Nat) : Option EliasFano := do
  let lowerBits ← setLower ef.lowerBits (ef.i * ef.l % 2 ^ 64) ef.l ef.lowerBitsMask
    offset
  let upperBits ← set ef.upperBits (((offset >>> ef.l) + ef.i) % 2 ^ 64)
  return { ef with lowerBits, upperBits, i := ef.i + 1 }

def build : Option EliasFano := do
  let jump ← layout.build ef.upperBits ef.jump ef.wordsUpperBits
  return { ef with jump }

/-- The life of a builder: `NewEliasFano`, `AddOffset` for every element,
`Build`. -/
def ofList (count maxOffset : Nat) (xs : List Nat) : Option EliasFano := do
  let ef ← new count maxOffset
  let ef ← xs.foldlM addOffset ef
  ef.build

/-- Result of `get`: the value and where the scan for it ended. -/
structure Found where
  val : Nat
  window : Word
  sel : Nat
  currWord : Nat
  lower : Word

def get (i : Nat) : Option Found := do
  let lower ← EliasFano.window ef.lowerBits (i * ef.l % 2 ^ 64)
  let (currWord, window, sel) ← layout.select ef.upperBits ef.jump i
  let val := ((BitVec.ofNat 64 (currWord * 64 + sel) - BitVec.ofNat 64 i) <<< ef.l) |||
    (lower &&& ef.lowerBitsMask)
  return ⟨val.toNat, window, sel, currWord, lower⟩

def Get (i : Nat) : Option Nat :=
  (ef.get i).map Found.val

/-- Elements `i` and `i + 1`.  The low part of the second is what the shift leaves of the word read
for the first; the words without a set bit behind the first are passed over. -/
def Get2 (i : Nat) : Option (Nat × Nat) := do
  let found ← ef.get i
  let window := found.window &&& (onesFrom found.sel <<< 1)
  let (currWord, window, _) ←
    scanSelect (ef.upperBits.drop (found.currWord + 1)) found.currWord window 0
  let trailingZeros ← (wordOnes window)[0]?
  let lower := found.lower >>> ef.l
  let valNext := ((BitVec.ofNat 64 (currWord * 64 + trailingZeros) - BitVec.ofNat 64 i - 1#64) <<<
    ef.l) ||| (lower &&& ef.lowerBitsMask)
  return (found.val, valNext.toNat)

/-- High part of element `i`. -/
def upper (i : Nat) : Option Nat := do
  let (currWord, _, sel) ← layout.select ef.upperBits ef.jump i
  return (BitVec.ofNat 64 (currWord * 64 + sel) - BitVec.ofNat 64 i).toNat

def Max : Nat := ef.maxOffset

def Min : Option Nat := ef.Get 0

def Count : Nat := (ef.count + 1) % 2 ^ 64

/-- The linear scan that ends a search: the first of `remaining` indices from
`j` on whose value `accept` takes; `order` maps the loop counter to an index. -/
def searchFrom (ef : EliasFano) (order : Nat → Nat) (accept : Nat → Bool) :
    Nat → Nat → Option (Option (Nat × Nat))
  | 0, _ => some none
  | remaining + 1, j => do
    let found ← ef.get (order j)
    if accept found.val then return some (found.val, order j)
    else searchFrom ef order accept remaining (j + 1)

/-- Least value not below `v`, or for `reverse` the greatest not above it, with
its index. -/
def search (v : Nat) (reverse : Bool) :
    Option (Option (Nat × Nat)) := do
  if v = 0 then
    let min ← ef.Min
    if reverse then return if min = 0 then some (0, 0) else none
    else return some (min, 0)
  else if v = ef.Max then return some (ef.Max, ef.count)
  else if ef.Max < v then
    if reverse then return some (ef.Max, ef.count) else return none
  else
    let hi := v >>> ef.l
    if reverse then
      let i ← sortSearch ef.Count fun i =>
        (ef.upper (ef.count - i)).map fun upper => decide (upper ≤ hi)
      searchFrom ef (ef.count - ·) (fun val => decide (val ≤ v)) (ef.count + 1 - i) i
    else
      let i ← sortSearch ef.Count fun i =>
        (ef.upper i).map fun upper => decide (hi ≤ upper)
      searchFrom ef id (fun val => decide (v ≤ val)) (ef.count + 1 - i) i

/-- Seek returns the value in the sequence, equal or greater than given value. -/
def Seek (v : Nat) : Option (Option Nat) := do
  return (← ef.search v false).map Prod.fst

def AppendBytes (buf : Bytes) : Bytes :=
  buf ++ beBytes 8 ef.count ++ beBytes 8 ef.u ++ wordsToBytes ef.data

/-- `Reset` and `ReadEliasFano`. -/
def reset (r : Bytes) : Option EliasFano := do
  let count ← readUint 8 r
  let u ← readUint 8 (← sliceFrom 8 r)
  if r.length ≤ 16 then none
  deriveFields count u ((u + 2 ^ 64 - 1) % 2 ^ 64) (some (bytesToWords (r.drop 16)))

end EliasFano

/-- `eliasfano32.Count` on serialized bytes. -/
def eliasFanoCount (r : Bytes) : Option Nat := do
  return ((← readUint 8 r) + 1) % 2 ^ 64

/-- Forward iterator. -/
structure EliasFanoIter where
  lowerBits : List Word
  upperBits : List Word
  count : Nat
  lowerBitsMask : Word
  l : Nat
  upperStep : Word
  upper : Word
  upperIdx : Nat
  lowerIdx : Nat
  upperMask : Word
  itemsIterated : Nat

def EliasFano.Iterator (ef : EliasFano) : EliasFanoIter where
  lowerBits := ef.lowerBits
  upperBits := ef.upperBits
  count := ef.count
  lowerBitsMask := ef.lowerBitsMask
  l := ef.l
  upperStep := 1#64 <<< ef.l
  upper := 0#64
  upperIdx := 0
  lowerIdx := 0
  upperMask := 1#64
  itemsIterated := 0

namespace EliasFanoIter

variable (efi : EliasFanoIter)

def HasNext : Bool := decide (efi.itemsIterated ≤ efi.count)

/-- Move to the next word once the mask has left the current one. -/
def wrap : EliasFanoIter :=
  if efi.upperMask = 0#64 then
    { efi with upperIdx := efi.upperIdx + 1, upperMask := 1#64 }
  else efi

/-- The loop over zero bits.  Every pass moves one bit forward, so that the
index panic comes before the fuel runs out. -/
def skipZeros : Nat → EliasFanoIter → Option EliasFanoIter
  | 0, _ => none
  | fuel + 1, efi => do
    let word ← efi.upperBits[efi.upperIdx]?
    if word &&& efi.upperMask = 0#64 then
      skipZeros fuel (wrap { efi with
        upper := efi.upper + efi.upperStep
        upperMask := efi.upperMask <<< 1 })
    else return efi

def increment : Option EliasFanoIter := do
  let efi ← skipZeros (64 * efi.upperBits.length + 1) efi.wrap
  return { efi with
    upperMask := efi.upperMask <<< 1
    lowerIdx := (efi.lowerIdx + efi.l) % 2 ^ 64 }

/-- `Next`, on an iterator that has a next element. -/
def Next : Option (Nat × EliasFanoIter) := do
  if ¬ efi.HasNext then none -- stream.ErrIteratorExhausted
  let lower ← EliasFano.window efi.lowerBits efi.lowerIdx
  let efi ← efi.increment
  return ((efi.upper ||| (lower &&& efi.lowerBitsMask)).toNat,
    { efi with itemsIterated := efi.itemsIterated + 1 })

/-- The caller's loop `for it.HasNext() { it.Next() }`. -/
def drain : Nat → EliasFanoIter → Option (List Nat)
  | 0, _ => some []
  | fuel + 1, efi =>
    if efi.HasNext then do
      let (val, efi) ← efi.Next
      return val :: (← drain fuel efi)
    else some []

/-- All values an iterator still yields. -/
def toList : Option (List Nat) :=
  drain (efi.count + 1 - efi.itemsIterated) efi

end EliasFanoIter

end Erigon
