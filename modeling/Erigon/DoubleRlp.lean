/-
RLP of byte strings for the state commitment: the bytes of a node's values, encoded once or
twice, and the lengths of these encodings, which are counted apart from them.
-/
import Erigon.AccountStorage

namespace Erigon

namespace Rlp

/-- Go's `byte(n)`. -/
def byte (n : Nat) : UInt8 := UInt8.ofNat n

variable (l : Nat)

/-- The header of a string of `l` bytes, of any length. -/
def header : Bytes :=
  if l < 56 then [byte (0x80 + l)] else byte (0xB7 + byteLen l) :: numberBytes l

/-- RLP of a byte string. -/
def rlp : Bytes → Bytes
  | [x] => if x < 0x80 then [x] else header 1 ++ [x]
  | b => header b.length ++ b

def generateRlpPrefixLenDouble (firstByte : UInt8) : Nat :=
  if l < 2 then if 0x80 ≤ firstByte then 2 else 0
  else if l < 55 then 2
  else if l < 56 then 3
  else if l < 254 then 4
  else if l < 256 then 5
  else if l < 65533 then 6
  else if l < 65536 then 7
  else 8

def multiByteHeaderPrefixOfLen : UInt8 := byte (0xB7 + l)

/-- The bytes put into the buffer. -/
def generateByteArrayLen : Bytes :=
  if l < 56 then [byte (0x80 + l)]
  else if l < 256 then [multiByteHeaderPrefixOfLen 1, byte l]
  else if l < 65536 then [multiByteHeaderPrefixOfLen 2, byte (l >>> 8), byte (l &&& 255)]
  else [multiByteHeaderPrefixOfLen 3, byte (l >>> 16), byte (l >>> 8 &&& 255), byte (l &&& 255)]

def generateByteArrayLenDouble : Bytes :=
  if l < 55 then [byte (0x80 + l + 1), byte (0x80 + l)]
  else if l < 56 then [multiByteHeaderPrefixOfLen 1, byte (l + 1), byte (0x80 + l)]
  else if l < 254 then
    [multiByteHeaderPrefixOfLen 1, byte (l + 2), multiByteHeaderPrefixOfLen 1, byte l]
  else if l < 256 then
    [multiByteHeaderPrefixOfLen 2, byte ((l + 2) >>> 8), byte (l + 2 &&& 255),
      multiByteHeaderPrefixOfLen 1, byte l]
  else if l < 65533 then
    [multiByteHeaderPrefixOfLen 2, byte ((l + 3) >>> 8), byte (l + 3 &&& 255),
      multiByteHeaderPrefixOfLen 2, byte (l >>> 8), byte (l &&& 255)]
  else if l < 65536 then
    [multiByteHeaderPrefixOfLen 3, byte ((l + 3) >>> 16), byte ((l + 3) >>> 8 &&& 255),
      byte (l + 3 &&& 255), multiByteHeaderPrefixOfLen 2, byte (l >>> 8 &&& 255),
      byte (l &&& 255)]
  else
    [multiByteHeaderPrefixOfLen 3, byte ((l + 4) >>> 16), byte ((l + 4) >>> 8 &&& 255),
      byte (l + 4 &&& 255), multiByteHeaderPrefixOfLen 3, byte (l >>> 16),
      byte (l >>> 8 &&& 255), byte (l &&& 255)]

def generateRlpPrefixLen : Nat :=
  if l < 2 then 0
  else if l < 56 then 1
  else if l < 256 then 2
  else if l < 65536 then 3
  else 4

/-- `encodeBytesAsRlpToWriter`: the bytes written, with a buffer that has room for a prefix. -/
def encodeBytesAsRlp (source : Bytes) (prefixGenFunc : Nat → Bytes) : Bytes :=
  if 1 < source.length ∨ source.length = 1 ∧ 0x80 ≤ source.headD 0 then
    prefixGenFunc source.length ++ source
  else source

variable (b : Bytes)

/-- `RlpSerializableBytes.ToDoubleRLP`. -/
def serializableToDoubleRLP : Bytes := encodeBytesAsRlp b generateByteArrayLenDouble

/-- `RlpSerializableBytes.DoubleRLPLen`. -/
def serializableDoubleRLPLen : Nat :=
  if b.length < 1 then 0 else generateRlpPrefixLenDouble b.length (b.headD 0) + b.length

/-- `RlpEncodedBytes.ToDoubleRLP`. -/
def encodedToDoubleRLP : Bytes := encodeBytesAsRlp b generateByteArrayLen

/-- `RlpEncodedBytes.DoubleRLPLen`. -/
def encodedDoubleRLPLen : Nat := generateRlpPrefixLen b.length + b.length

/-- The bytes written and the length returned. -/
def encodeByteArrayAsRlp (raw : Bytes) : Bytes × Nat :=
  (encodeBytesAsRlp raw generateByteArrayLen, generateRlpPrefixLen raw.length + raw.length)

theorem byte_and (n : Nat) : byte (n &&& 255) = byte n := by
  rw [byte, Nat.and_two_pow_sub_one_eq_mod n 8]
  exact UInt8.ofNat_mod_size

theorem byteLen_of_lt {n k : Nat} (hlo : 2 ^ (8 * k) ≤ n) (hhi : n < 2 ^ (8 * (k + 1))) :
    byteLen n = k + 1 := by
  have hle : n.size ≤ 8 * (k + 1) := Nat.size_le.mpr hhi
  have hlt : 8 * k < n.size := Nat.lt_size.mpr hlo
  rw [byteLen]
  omega

theorem header_eq {l : Nat} (hl : l < 2 ^ 24) : header l = generateByteArrayLen l := by
  simp only [header, generateByteArrayLen, numberBytes, multiByteHeaderPrefixOfLen]
  split
  · rfl
  split
  · rw [byteLen_of_lt (k := 0) (by omega) (by omega)]
    rfl
  split
  · rw [byteLen_of_lt (k := 1) (by omega) (by omega), byte_and, Nat.shiftRight_eq_div_pow]
    rfl
  · rw [byteLen_of_lt (k := 2) (by omega) (by omega), byte_and, byte_and, Nat.shiftRight_eq_div_pow,
      Nat.shiftRight_eq_div_pow, show 2 ^ 16 = 256 * 256 from rfl, ← Nat.div_div_eq_div_mul]
    rfl

/-- Both headers are those of the string and of its encoding. -/
theorem generateByteArrayLenDouble_eq :
    generateByteArrayLenDouble l =
      generateByteArrayLen (l + (generateByteArrayLen l).length) ++ generateByteArrayLen l := by
  rw [generateByteArrayLenDouble]
  split_ifs <;>
    simp (disch := omega) [generateByteArrayLen, if_pos, if_neg, byte_and, Nat.add_assoc]

theorem length_generateByteArrayLen {l : Nat} (hl : 2 ≤ l) :
    (generateByteArrayLen l).length = generateRlpPrefixLen l := by
  rw [generateRlpPrefixLen, if_neg (by omega), generateByteArrayLen]
  split_ifs <;> rfl

theorem length_generateByteArrayLenDouble {l : Nat} (hl : 2 ≤ l) (x : UInt8) :
    (generateByteArrayLenDouble l).length = generateRlpPrefixLenDouble l x := by
  rw [generateRlpPrefixLenDouble, if_neg (by omega), generateByteArrayLenDouble]
  split_ifs <;> rfl

theorem rlp_of_two_le {b : Bytes} (hb : 2 ≤ b.length) : rlp b = header b.length ++ b := by
  match b, hb with
  | _ :: _ :: _, _ => rfl

/-- All that is claimed of a string. -/
structure Encodes (b : Bytes) : Prop where
  serializable : serializableToDoubleRLP b = rlp (rlp b)
  serializable_length : (serializableToDoubleRLP b).length = serializableDoubleRLPLen b
  encoded : encodedToDoubleRLP b = rlp b
  encoded_length : (encodedToDoubleRLP b).length = encodedDoubleRLPLen b
  array : (encodeByteArrayAsRlp b).1 = rlp b
  array_length : (encodeByteArrayAsRlp b).2 = (encodeByteArrayAsRlp b).1.length

theorem encodes_of_two_le {b : Bytes} (hb : 2 ≤ b.length) (hlen : b.length < 2 ^ 24 - 4) :
    Encodes b := by
  have hput (f : Nat → Bytes) : encodeBytesAsRlp b f = f b.length ++ b := if_pos (.inl hb)
  have hrlp : rlp b = generateByteArrayLen b.length ++ b := by
    rw [rlp_of_two_le hb, header_eq (by omega)]
  have hshort : (generateByteArrayLen b.length).length ≤ 4 := by
    rw [generateByteArrayLen]
    split_ifs <;> simp
  have hlength := length_generateByteArrayLen hb
  have hdouble : rlp (rlp b) = generateByteArrayLenDouble b.length ++ b := by
    rw [hrlp, rlp_of_two_le (by rw [List.length_append]; omega), List.length_append,
      header_eq (by omega), generateByteArrayLenDouble_eq, Nat.add_comm b.length, List.append_assoc]
  constructor
  · rw [serializableToDoubleRLP, hput, hdouble]
  · rw [serializableToDoubleRLP, hput, List.length_append,
      length_generateByteArrayLenDouble hb (b.headD 0), serializableDoubleRLPLen, if_neg (by omega)]
  · rw [encodedToDoubleRLP, hput, hrlp]
  · rw [encodedToDoubleRLP, hput, List.length_append, hlength, encodedDoubleRLPLen]
  · rw [encodeByteArrayAsRlp, hput, hrlp]
  · rw [encodeByteArrayAsRlp, hput, List.length_append, hlength]

/-- The lengths and the bytes agree for every string but a single byte with a prefix. -/
theorem encodes_iff (b : Bytes) (hne : b ≠ []) (hlen : b.length < 2 ^ 24 - 4) :
    Encodes b ↔ ∀ x, b = [x] → x < 0x80 := by
  match b, hne with
  | _ :: _ :: _, _ =>
    exact ⟨fun _ x hx => by simp at hx, fun _ => encodes_of_two_le (by simp) hlen⟩
  | [x], _ =>
    refine ⟨fun h y hy => ?_, fun h => ?_⟩
    · -- With a prefix two bytes are written, and one is counted.
      by_contra hx
      obtain rfl : x = y := by simpa using hy
      have hlength := h.encoded_length
      rw [encodedToDoubleRLP, encodeBytesAsRlp, if_pos (.inr ⟨rfl, UInt8.not_lt.mp hx⟩)] at hlength
      change 2 = 1 at hlength
      omega
    · have hx : x < 0x80 := h x rfl
      have hplain (f : Nat → Bytes) : encodeBytesAsRlp [x] f = [x] :=
        if_neg (by simpa using hx)
      have hrlp : rlp [x] = [x] := if_pos hx
      constructor
      · rw [serializableToDoubleRLP, hplain, hrlp, hrlp]
      · rw [serializableToDoubleRLP, hplain]
        simp [serializableDoubleRLPLen, generateRlpPrefixLenDouble, hx]
      · exact (hplain _).trans hrlp.symm
      · exact congrArg List.length (hplain _)
      · exact (hplain _).trans hrlp.symm
      · exact (congrArg List.length (hplain _)).symm

theorem encodes_iff_two : Encodes [0x80, 0x01] :=
  (encodes_iff [0x80, 0x01] (by decide) (by decide)).mpr (by simp)

/-- Two bytes are written for the byte `0x80`, and one is counted. -/
theorem single_byte_miscounted :
    encodedToDoubleRLP [0x80] = [0x81, 0x80] ∧ encodedDoubleRLPLen [0x80] = 1 ∧
      encodeByteArrayAsRlp [0x80] = ([0x81, 0x80], 1) := by
  decide

end Rlp

end Erigon
