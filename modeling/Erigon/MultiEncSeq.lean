/-
Serialized number sequences (`multiencseq`): up to sixteen elements are stored
as `uint32` deltas, longer sequences as an Elias-Fano encoding of the elements
minus a base number.  Legacy files hold plain Elias-Fano sequences.
-/
import Erigon.EliasFanoRead
import Erigon.SimpleSequence

namespace Erigon

/-! ### Rebased Elias-Fano -/

structure RebasedEliasFano where
  baseNum : Nat
  ef : EliasFano

namespace RebasedEliasFano

variable (ref : RebasedEliasFano)

def Get (i : Nat) : Option Nat :=
  (ref.ef.Get i).map (add64 ref.baseNum)

def Min : Option Nat :=
  ref.ef.Min.map (add64 ref.baseNum)

def Max : Nat := add64 ref.baseNum ref.ef.Max

def Count : Nat := ref.ef.Count

def reset (baseNum : Nat) (raw : Bytes) : Option RebasedEliasFano :=
  (EliasFano.reset raw).map (⟨baseNum, ·⟩)

def Seek (v : Nat) : Option (Nat × Bool) := do
  let v := if v < ref.baseNum then ref.baseNum else v
  match ← ref.ef.Seek (sub64 v ref.baseNum) with
  | some n => return (add64 ref.baseNum n, true)
  | none => return (add64 ref.baseNum 0, false)

/-- What the wrapped forward iterator yields. -/
def iterate : Option (List Nat) :=
  ref.ef.Iterator.toList.map (List.map (add64 ref.baseNum))

end RebasedEliasFano

/-! ### Builder -/

def simpleSequenceMaxThreshold : Nat := 16

def simpleEncodingType : UInt8 := 0b10000000
def rebasedEliasFanoType : UInt8 := 0b10010000
def plainEliasFanoMask : UInt8 := 0b10000000
def simpleEncodingMask : UInt8 := 0b11110000
def simpleEncodingSizeMask : UInt8 := ~~~simpleEncodingMask

structure SequenceBuilder where
  baseNum : Nat
  ef : EliasFano

namespace SequenceBuilder

/-- `NewBuilder`. -/
def new (baseNum count maxOffset : Nat) : Option SequenceBuilder :=
  (EliasFano.new count maxOffset).map (⟨baseNum, ·⟩)

variable (b : SequenceBuilder)

def addOffset (offset : Nat) : Option SequenceBuilder :=
  (b.ef.addOffset offset).map (⟨b.baseNum, ·⟩)

def build : Option SequenceBuilder :=
  b.ef.build.map (⟨b.baseNum, ·⟩)

def simpleEncoding (buf : Bytes) : Option Bytes := do
  -- Simple encoding type + size: [0x80, 0x8F]
  let enc := (UInt8.ofNat (sub64 b.ef.Count 1) &&& 0b00001111) ||| simpleEncodingType
  let elems ← b.ef.Iterator.toList
  return buf ++ [enc] ++ elems.flatMap fun n => beBytes 4 (sub64 n b.baseNum)

def rebasedEliasFano (buf : Bytes) : Option Bytes := do
  let elems ← b.ef.Iterator.toList
  let rbef ← EliasFano.ofList b.ef.Count (sub64 b.ef.Max b.baseNum)
    (elems.map fun n => sub64 n b.baseNum)
  return rbef.AppendBytes (buf ++ [rebasedEliasFanoType])

def AppendBytes (buf : Bytes) : Option Bytes :=
  if b.ef.Count ≤ simpleSequenceMaxThreshold then b.simpleEncoding buf
  else b.rebasedEliasFano buf

/-- The life of a builder: `NewBuilder`, `AddOffset` for every element, `Build`,
`AppendBytes`. -/
def encode (baseNum count maxOffset : Nat) (xs : List Nat) : Option Bytes := do
  let b ← new baseNum count maxOffset
  let b ← xs.foldlM addOffset b
  let b ← b.build
  b.AppendBytes []

end SequenceBuilder

/-! ### Reader -/

/-- A reader is in one of the three encodings. -/
inductive SequenceReader where
  | simpleEncoding (sseq : SimpleSequence)
  | plainEliasFano (ref : RebasedEliasFano)
  | rebasedEliasFano (ref : RebasedEliasFano)

namespace SequenceReader

/-- `ReadMultiEncSeq`; `none` for empty input and for an unknown encoding. -/
def read (baseNum : Nat) (raw : Bytes) : Option SequenceReader := do
  let enc ← raw.head?
  if enc &&& plainEliasFanoMask = 0 then
    return plainEliasFano (← RebasedEliasFano.reset 0 raw)
  else if enc = rebasedEliasFanoType then
    return rebasedEliasFano (← RebasedEliasFano.reset baseNum raw.tail)
  else if enc &&& simpleEncodingMask = simpleEncodingType then
    return simpleEncoding ⟨baseNum, raw.tail⟩
  else none

def Get : SequenceReader → Nat → Option Nat
  | simpleEncoding sseq, i => sseq.Get i
  | plainEliasFano ref, i => ref.Get i
  | rebasedEliasFano ref, i => ref.Get i

def Min : SequenceReader → Option Nat
  | simpleEncoding sseq => sseq.Min
  | plainEliasFano ref => ref.Min
  | rebasedEliasFano ref => ref.Min

def Max : SequenceReader → Option Nat
  | simpleEncoding sseq => sseq.Max
  | plainEliasFano ref => some ref.Max
  | rebasedEliasFano ref => some ref.Max

def Count : SequenceReader → Nat
  | simpleEncoding sseq => sseq.Count
  | plainEliasFano ref => ref.Count
  | rebasedEliasFano ref => ref.Count

def seek : SequenceReader → Nat → Option (Nat × Bool)
  | simpleEncoding sseq, v => sseq.Seek v
  | plainEliasFano ref, v => ref.Seek v
  | rebasedEliasFano ref, v => ref.Seek v

/-- Everything `Iterator(0)` yields. -/
def iterate : SequenceReader → Option (List Nat)
  | simpleEncoding sseq => sseq.Iterator.toList
  | plainEliasFano ref => ref.iterate
  | rebasedEliasFano ref => ref.iterate

end SequenceReader

namespace MultiEncSeq

/-- `multiencseq.Count`: the count read directly from raw data. -/
def Count (data : Bytes) : Option Nat := do
  let enc ← data.head?
  if enc &&& plainEliasFanoMask = 0 then eliasFanoCount data
  else if enc = rebasedEliasFanoType then eliasFanoCount data.tail
  else if enc &&& simpleEncodingMask = simpleEncodingType then
    return (enc &&& simpleEncodingSizeMask).toNat + 1
  else none

/-- `multiencseq.Seek` on raw data. -/
def Seek (baseNum : Nat) (data : Bytes) (n : Nat) : Option (Nat × Bool) := do
  (← SequenceReader.read baseNum data).seek n

end MultiEncSeq

end Erigon
