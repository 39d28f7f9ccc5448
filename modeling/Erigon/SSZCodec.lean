/-
SSZ encodings of the queues of the beacon state.  Their elements have fields of fixed size only:
numbers and byte arrays, one after the other.
-/
import Erigon.LittleEndian

namespace Erigon

namespace SSZ

def errLowBufferSize : String := "ssz(DecodeSSZ): bad encoding size"

def errBadOffset : String := "ssz(DecodeSSZ): invalid offset"

def errBufferNotRounded : String := "ssz(DecodeSSZ): badly rounded operator"

def errTooBigList : String := "ssz(DecodeSSZ): list too big"

/-! ### Fields -/

def marshalUint64 (v : Word) : Bytes := leUint 8 v.toNat

def unmarshalUint64 (buf : Bytes) : Except String (Word × Bytes) :=
  match readLE 8 buf with
  | none => .error errLowBufferSize
  | some (v, rest) => .ok (BitVec.ofNat 64 v, rest)

theorem unmarshalUint64_append (v : Word) (rest : Bytes) :
    unmarshalUint64 (marshalUint64 v ++ rest) = .ok (v, rest) := by
  have hv : v.toNat < 256 ^ 8 := v.isLt
  rw [unmarshalUint64, marshalUint64, readLE_leUint_append hv]
  simp

/-- What `copy` leaves in an array of zeros. -/
def copyInto (n : Nat) (src : Bytes) : Vector UInt8 n := Vector.ofFn fun i => src.getD i 0

theorem copyInto_toList {n : Nat} (v : Vector UInt8 n) : copyInto n v.toList = v := by
  ext i hi
  simp [copyInto]

def unmarshalBytes (n : Nat) (buf : Bytes) : Except String (Vector UInt8 n × Bytes) :=
  if buf.length < n then .error errLowBufferSize else .ok (copyInto n (buf.take n), buf.drop n)

theorem unmarshalBytes_append {n : Nat} (v : Vector UInt8 n) (rest : Bytes) :
    unmarshalBytes n (v.toList ++ rest) = .ok (v, rest) := by
  have hlength : v.toList.length = n := by simp
  rw [unmarshalBytes, if_neg (by simp), List.take_left' hlength, List.drop_left' hlength,
    copyInto_toList]

end SSZ

open SSZ

/-! ### Elements -/

/-- The interface of list elements; the zero value is what is decoded into. -/
class EncodableSSZ (T : Type) where
  encodeSSZ : T → Except String Bytes
  decodeSSZ : Bytes → Except String T

open EncodableSSZ

/-- Every value has an encoding of one size and is decoded from it, whatever follows. -/
structure FixedSizeSSZ (T : Type) [EncodableSSZ T] (size : Nat) where
  bytes : T → Bytes
  encode_eq : ∀ t, encodeSSZ t = .ok (bytes t)
  length_eq : ∀ t, (bytes t).length = size
  decode_eq : ∀ t rest, decodeSSZ (bytes t ++ rest) = .ok t
  size_pos : 0 < size
  size_lt : size < 2 ^ 32

structure PendingConsolidation where
  sourceIndex : Word
  targetIndex : Word
  deriving DecidableEq, Repr

namespace PendingConsolidation

def marshal (p : PendingConsolidation) : Bytes :=
  marshalUint64 p.sourceIndex ++ marshalUint64 p.targetIndex

instance : EncodableSSZ PendingConsolidation where
  encodeSSZ p := .ok p.marshal
  decodeSSZ buf := do
    let (sourceIndex, buf) ← unmarshalUint64 buf
    let (targetIndex, _) ← unmarshalUint64 buf
    return { sourceIndex, targetIndex }

def fixedSize : FixedSizeSSZ PendingConsolidation 16 where
  bytes := marshal
  encode_eq _ := rfl
  length_eq p := by simp [marshal, marshalUint64]
  decode_eq p rest := by
    simp only [decodeSSZ, marshal, List.append_assoc, bind, Except.bind, unmarshalUint64_append]
    rfl
  size_pos := by decide
  size_lt := by decide

end PendingConsolidation

structure PendingDeposit where
  pubKey : Vector UInt8 48
  withdrawalCredentials : Vector UInt8 32
  amount : Word
  signature : Vector UInt8 96
  slot : Word
  deriving DecidableEq, Repr

namespace PendingDeposit

def marshal (p : PendingDeposit) : Bytes :=
  p.pubKey.toList ++ p.withdrawalCredentials.toList ++ marshalUint64 p.amount ++
    p.signature.toList ++ marshalUint64 p.slot

instance : EncodableSSZ PendingDeposit where
  encodeSSZ p := .ok p.marshal
  decodeSSZ buf := do
    let (pubKey, buf) ← unmarshalBytes 48 buf
    let (withdrawalCredentials, buf) ← unmarshalBytes 32 buf
    let (amount, buf) ← unmarshalUint64 buf
    let (signature, buf) ← unmarshalBytes 96 buf
    let (slot, _) ← unmarshalUint64 buf
    return { pubKey, withdrawalCredentials, amount, signature, slot }

def fixedSize : FixedSizeSSZ PendingDeposit 192 where
  bytes := marshal
  encode_eq _ := rfl
  length_eq p := by simp [marshal, marshalUint64]
  decode_eq p rest := by
    simp only [decodeSSZ, marshal, List.append_assoc, bind, Except.bind, unmarshalBytes_append,
      unmarshalUint64_append]
    rfl
  size_pos := by decide
  size_lt := by decide

end PendingDeposit

structure PendingPartialWithdrawal where
  validatorIndex : Word
  amount : Word
  withdrawableEpoch : Word
  deriving DecidableEq, Repr

namespace PendingPartialWithdrawal

def marshal (p : PendingPartialWithdrawal) : Bytes :=
  marshalUint64 p.validatorIndex ++ marshalUint64 p.amount ++ marshalUint64 p.withdrawableEpoch

instance : EncodableSSZ PendingPartialWithdrawal where
  encodeSSZ p := .ok p.marshal
  decodeSSZ buf := do
    let (validatorIndex, buf) ← unmarshalUint64 buf
    let (amount, buf) ← unmarshalUint64 buf
    let (withdrawableEpoch, _) ← unmarshalUint64 buf
    return { validatorIndex, amount, withdrawableEpoch }

def fixedSize : FixedSizeSSZ PendingPartialWithdrawal 24 where
  bytes := marshal
  encode_eq _ := rfl
  length_eq p := by simp [marshal, marshalUint64]
  decode_eq p rest := by
    simp only [decodeSSZ, marshal, List.append_assoc, bind, Except.bind, unmarshalUint64_append]
    rfl
  size_pos := by decide
  size_lt := by decide

end PendingPartialWithdrawal

/-! ### Lists -/

/-- `ListSSZ` with elements of fixed size, without the cached root. -/
structure ListSSZ (T : Type) where
  list : List T
  limit : Nat
  bytesPerElement : Nat

namespace ListSSZ

variable {T : Type} (l : ListSSZ T)

def append (obj : T) : ListSSZ T := { l with list := l.list ++ [obj] }

def cut (length : Nat) : ListSSZ T :=
  if length ≥ l.list.length then { l with list := [] }
  else { l with list := l.list.drop length }

theorem cut_eq (length : Nat) :
    l.cut length = { l with list := l.list.drop length } := by
  rw [cut]
  split
  · rename_i hle
    rw [List.drop_eq_nil_of_le hle]
  · rfl

variable [EncodableSSZ T]

def encodeElements : List T → Except String Bytes
  | [] => .ok []
  | element :: list => do
    let dst ← encodeSSZ element
    let rest ← encodeElements list
    return dst ++ rest

def encode : Except String Bytes := encodeElements l.list

/-- The objects from the front of a buffer. -/
def decodeElements (bytesPerElement : Nat) : Nat → Bytes → Except String (List T)
  | 0, _ => .ok []
  | n + 1, buf => do
    let obj ← decodeSSZ buf
    let objs ← decodeElements bytesPerElement n (buf.drop bytesPerElement)
    return obj :: objs

/-- `DecodeStaticList`; offsets and lengths are 32 bits wide. -/
def decodeStaticList (bytes : Bytes) (start stop bytesPerElement max : Nat) :
    Except String (List T) :=
  if start > stop ∨ bytes.length < stop then .error errBadOffset
  else
    let buf := (bytes.take stop).drop start
    let elementsNum := buf.length / bytesPerElement
    if buf.length % 2 ^ 32 % bytesPerElement ≠ 0 then .error errBufferNotRounded
    else if elementsNum > max then .error errTooBigList
    else decodeElements bytesPerElement elementsNum buf

def decode (buf : Bytes) : Except String (ListSSZ T) := do
  let list ← decodeStaticList buf 0 (buf.length % 2 ^ 32) l.bytesPerElement l.limit
  return { l with list := list }

section FixedSize

variable {size : Nat} (codec : FixedSizeSSZ T size)

include codec

theorem encodeElements_eq (l : List T) : encodeElements l = .ok (l.flatMap codec.bytes) := by
  induction l with
  | nil => rfl
  | cons t l ih =>
    rw [encodeElements, codec.encode_eq, ih]
    rfl

theorem length_flatMap_bytes (l : List T) : (l.flatMap codec.bytes).length = size * l.length := by
  induction l with
  | nil => simp
  | cons t l ih =>
    rw [List.flatMap_cons, List.length_append, ih, codec.length_eq, List.length_cons]
    ring

theorem decodeElements_eq (l : List T) (rest : Bytes) :
    decodeElements size l.length (l.flatMap codec.bytes ++ rest) = .ok l := by
  induction l with
  | nil => rfl
  | cons t l ih =>
    rw [List.length_cons, decodeElements, List.flatMap_cons, List.append_assoc, codec.decode_eq,
      List.drop_left' (codec.length_eq t)]
    simp only [bind, Except.bind, ih]
    rfl

/-- A list within the limit and the 32 bits of an offset is decoded from its encoding. -/
theorem decode_eq {l : List T} {out : ListSSZ T} (hsize : out.bytesPerElement = size)
    (hlimit : l.length ≤ out.limit) (hbytes : size * l.length < 2 ^ 32) :
    out.decode (l.flatMap codec.bytes) = .ok { out with list := l } := by
  have hlength := length_flatMap_bytes codec l
  have helements : (l.flatMap codec.bytes).length / size = l.length := by
    rw [hlength, Nat.mul_div_cancel_left _ codec.size_pos]
  have hobjs := decodeElements_eq codec l []
  rw [List.append_nil] at hobjs
  rw [decode, hsize, hlength, Nat.mod_eq_of_lt hbytes, ← hlength, decodeStaticList,
    if_neg (by omega)]
  dsimp only
  rw [List.take_length, List.drop_zero, helements, hlength, Nat.mod_eq_of_lt hbytes,
    if_neg (by simp), if_neg (by omega), hobjs]
  rfl

end FixedSize

end ListSSZ

end Erigon
