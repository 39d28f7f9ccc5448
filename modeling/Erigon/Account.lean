/-
Accounts and their stored form: a length byte and the bytes of every field, the
numbers without leading zeros, an empty code hash left out.
-/
import Mathlib.Data.Nat.Size
import Erigon.ByteCodec

namespace Erigon

open List

/-- `[length.Hash]byte`. -/
abbrev Hash := { bytes : Bytes // bytes.length = 32 }

namespace Hash

instance : Zero Hash := ⟨⟨List.replicate 32 0, length_replicate⟩⟩

/-- `copy(h[:], src)`: the bytes behind the end of `src` stay. -/
def copy (h : Hash) (src : Bytes) : Hash :=
  ⟨src.take 32 ++ h.1.drop src.length, by have := h.2; simp; omega⟩

theorem copy_val (h : Hash) (src : Bytes) :
    (h.copy src).1 = src.take 32 ++ h.1.drop src.length := rfl

theorem copy_hash (h src : Hash) : h.copy src.1 = src := by
  apply Subtype.ext
  rw [copy_val, take_of_length_le src.2.le, drop_of_length_le (by rw [h.2, src.2]), append_nil]

theorem take_copy (h : Hash) {src : Bytes} (hsrc : src.length ≤ 32) :
    (h.copy src).1.take src.length = src := by
  rw [copy_val, take_of_length_le hsrc, take_left]

end Hash

/-- The hash of the empty code. -/
def emptyCodeHash : Hash :=
  ⟨[0xc5, 0xd2, 0x46, 0x01, 0x86, 0xf7, 0x23, 0x3c, 0x92, 0x7e, 0x7d, 0xb2, 0xdc, 0xc7, 0x03,
    0xc0, 0xe5, 0x00, 0xb6, 0x53, 0xca, 0x82, 0x27, 0x3b, 0x7b, 0xfa, 0xd8, 0x04, 0x5d, 0x85,
    0xa4, 0x70], rfl⟩

/-- The fields of an account that are stored. -/
structure Account where
  nonce : Word
  balance : BitVec 256
  codeHash : Hash
  incarnation : Word
deriving DecidableEq

namespace Account

/-- `Reset`. -/
def reset : Account := ⟨0, 0, emptyCodeHash, 0⟩

def isEmptyCodeHash (a : Account) : Bool := decide (a.codeHash = emptyCodeHash ∨ a.codeHash = 0)

end Account

/-- `BitLenToByteLen` of the bit length. -/
def byteLen (n : Nat) : Nat := (n.size + 7) / 8

/-- A length byte and the bytes. -/
def writeField (bytes : Bytes) : Bytes := UInt8.ofNat bytes.length :: bytes

/-- The bytes that a length byte announces, and what is behind them. -/
def readField : Bytes → Option (Bytes × Bytes)
  | [] => none
  | n :: rest =>
    if n.toNat ≤ rest.length then some (rest.take n.toNat, rest.drop n.toNat) else none

def bytesToUint64 (buf : Bytes) : Word := BitVec.ofNat 64 (beNat (buf.take 8))

variable (a : Account)

def serialiseV3 : Bytes :=
  writeField (beBytes (byteLen a.nonce.toNat) a.nonce.toNat) ++
    writeField (beBytes (byteLen a.balance.toNat) a.balance.toNat) ++
    writeField (if a.isEmptyCodeHash then [] else a.codeHash.1) ++
    writeField (beBytes (byteLen a.incarnation.toNat) a.incarnation.toNat)

/-- `none` for an error and for an index out of range. -/
def deserialiseV3 (enc : Bytes) : Option Account := do
  let (nonce, enc) ← readField enc
  let (balance, enc) ← readField enc
  let (codeHash, enc) ← readField enc
  let (incarnation, _) ← readField enc
  some {
    nonce := bytesToUint64 nonce
    balance := BitVec.ofNat 256 (beNat balance)
    codeHash := if codeHash = [] then Account.reset.codeHash
      else Account.reset.codeHash.copy codeHash
    incarnation := bytesToUint64 incarnation }

theorem readField_writeField {bytes : Bytes} (hlength : bytes.length < 256) (rest : Bytes) :
    readField (writeField bytes ++ rest) = some (bytes, rest) := by
  have hn : (UInt8.ofNat bytes.length).toNat = bytes.length := by
    rw [UInt8.toNat_ofNat']
    exact Nat.mod_eq_of_lt hlength
  rw [writeField, cons_append, readField, hn, if_pos (by simp), take_left, drop_left]

theorem lt_pow_byteLen (n : Nat) : n < 256 ^ byteLen n := by
  calc n < 2 ^ n.size := Nat.lt_size_self n
    _ ≤ 2 ^ (8 * byteLen n) := Nat.pow_le_pow_right (by omega) (by rw [byteLen]; omega)
    _ = 256 ^ byteLen n := by rw [Nat.pow_mul]

theorem byteLen_le {n width : Nat} (hn : n < 2 ^ (8 * width)) : byteLen n ≤ width := by
  have hsize : n.size ≤ 8 * width := Nat.size_le.mpr hn
  rw [byteLen]
  omega

theorem beNat_field (n : Nat) : beNat (beBytes (byteLen n) n) = n := by
  rw [beNat_beBytes, Nat.mod_eq_of_lt (lt_pow_byteLen n)]

theorem bytesToUint64_field (w : Word) : bytesToUint64 (beBytes (byteLen w.toNat) w.toNat) = w := by
  have hlen : byteLen w.toNat ≤ 8 := byteLen_le w.isLt
  rw [bytesToUint64, take_of_length_le (by simpa using hlen), beNat_field,
    BitVec.ofNat_toNat, BitVec.setWidth_eq]

/-- The account that is read back: a zero code hash is that of the empty code. -/
def Account.stored : Account :=
  { a with codeHash := if a.codeHash = 0 then emptyCodeHash else a.codeHash }

theorem getD_map_codeHash :
    ((if !a.isEmptyCodeHash then some a.codeHash.1 else none).map
      Account.reset.codeHash.copy).getD Account.reset.codeHash = a.stored.codeHash := by
  by_cases hempty : a.codeHash = emptyCodeHash
  · simp [Account.isEmptyCodeHash, Account.stored, Account.reset, hempty]
  · by_cases hzero : a.codeHash = 0
    · simp [Account.isEmptyCodeHash, Account.stored, Account.reset, hzero]
    · simp [Account.isEmptyCodeHash, Account.stored, hempty, hzero, Hash.copy_hash]

theorem deserialiseV3_serialiseV3 :
    deserialiseV3 (serialiseV3 a) = some a.stored := by
  have hword (w : Word) : (beBytes (byteLen w.toNat) w.toNat).length < 256 := by
    have : byteLen w.toNat ≤ 8 := byteLen_le w.isLt
    rw [beBytes_length]
    omega
  have hbalance : (beBytes (byteLen a.balance.toNat) a.balance.toNat).length < 256 := by
    have : byteLen a.balance.toNat ≤ 32 := byteLen_le a.balance.isLt
    rw [beBytes_length]
    omega
  have hcode : (if a.isEmptyCodeHash then [] else a.codeHash.1).length < 256 := by
    have := a.codeHash.2
    split
    · simp
    · omega
  have hlast := readField_writeField (hword a.incarnation) []
  rw [append_nil] at hlast
  simp only [deserialiseV3, serialiseV3, append_assoc, readField_writeField (hword _),
    readField_writeField hbalance, readField_writeField hcode, hlast, Option.bind_eq_bind,
    Option.bind_some, bytesToUint64_field, beNat_field, BitVec.ofNat_toNat, BitVec.setWidth_eq]
  have hhash : (if (if a.isEmptyCodeHash then [] else a.codeHash.1) = [] then
      Account.reset.codeHash else
      Account.reset.codeHash.copy (if a.isEmptyCodeHash then [] else a.codeHash.1)) =
      a.stored.codeHash := by
    have hne : a.codeHash.1 ≠ [] := ne_nil_of_length_eq_add_one a.codeHash.2
    rw [← getD_map_codeHash]
    cases a.isEmptyCodeHash <;> simp [hne]
  rw [hhash]
  rfl

end Erigon
