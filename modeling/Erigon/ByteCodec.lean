/-
Fixed-width big-endian numbers inside byte strings, and the little-endian
image of a word slice.  Readers fail instead of reading past the end.
-/
import Erigon.MachineWord

namespace Erigon

open List

abbrev Bytes := List UInt8

/-- Big-endian encoding of the low `width` bytes of a number. -/
def beBytes : Nat → Nat → Bytes
  | 0, _ => []
  | width + 1, n => beBytes width (n / 256) ++ [UInt8.ofNat n]

def beNat (bytes : Bytes) : Nat :=
  bytes.foldl (fun acc b => acc * 256 + b.toNat) 0

@[simp] theorem beBytes_length (width n : Nat) : (beBytes width n).length = width := by
  induction width generalizing n with
  | zero => rfl
  | succ width ih => simp [beBytes, ih]

theorem beNat_append_singleton (bytes : Bytes) (b : UInt8) :
    beNat (bytes ++ [b]) = beNat bytes * 256 + b.toNat := by
  simp [beNat, foldl_append]

/-- Decoding recovers the number up to truncation to the encoded width. -/
@[simp] theorem beNat_beBytes (width n : Nat) : beNat (beBytes width n) = n % 256 ^ width := by
  induction width generalizing n with
  | zero => simp [beBytes, beNat, Nat.mod_one]
  | succ width ih =>
    have hbyte : (UInt8.ofNat n).toNat = n % 256 := UInt8.toNat_ofNat'
    rw [beBytes, beNat_append_singleton, ih, hbyte, pow_succ, Nat.mul_comm (256 ^ width),
      Nat.mod_mul]
    omega

/-- `binary.BigEndian.UintN` on the front of a slice. -/
def readUint (width : Nat) (bytes : Bytes) : Option Nat :=
  if width ≤ bytes.length then some (beNat (bytes.take width)) else none

theorem readUint_beBytes_append (width n : Nat) (rest : Bytes) :
    readUint width (beBytes width n ++ rest) = some (n % 256 ^ width) := by
  rw [readUint, if_pos (by simp), take_left' (beBytes_length width n), beNat_beBytes]

/-- `slice[n:]`. -/
def sliceFrom (n : Nat) (bytes : Bytes) : Option Bytes :=
  if n ≤ bytes.length then some (bytes.drop n) else none

theorem sliceFrom_append {front : Bytes} {n : Nat} (hlength : front.length = n)
    (rest : Bytes) : sliceFrom n (front ++ rest) = some rest := by
  rw [sliceFrom, if_pos (by simp [hlength]), drop_left' hlength]

/-- Memory image of a word. -/
def leBytes (word : Word) : Bytes :=
  (List.range 8).map fun i => UInt8.ofNat (word.toNat / 256 ^ i)

variable (words : List Word)

def wordsToBytes : Bytes :=
  words.flatMap leBytes

/-- The word slice laid over a byte slice; an incomplete last word is cut
off. -/
def bytesToWords : Bytes → List Word
  | b0 :: b1 :: b2 :: b3 :: b4 :: b5 :: b6 :: b7 :: rest =>
    BitVec.ofNat 64 (Nat.ofDigits 256
      ([b0, b1, b2, b3, b4, b5, b6, b7].map UInt8.toNat)) :: bytesToWords rest
  | _ => []

@[simp] theorem leBytes_length (word : Word) : (leBytes word).length = 8 := by
  simp [leBytes]

@[simp] theorem wordsToBytes_length :
    (wordsToBytes words).length = 8 * words.length := by
  induction words with
  | nil => rfl
  | cons word words ih =>
    simp only [wordsToBytes, flatMap_cons, length_append, leBytes_length, length_cons] at ih ⊢
    omega

theorem ofDigits_leBytes (word : Word) :
    Nat.ofDigits 256 ((leBytes word).map UInt8.toNat) = word.toNat := by
  have hword := word.isLt
  simp only [leBytes, range_succ, range_zero, nil_append, cons_append, map_cons, map_nil,
    Nat.ofDigits_cons, Nat.ofDigits_nil, UInt8.toNat_ofNat', pow_zero, Nat.div_one]
  omega

theorem bytesToWords_wordsToBytes_append (rest : Bytes) :
    bytesToWords (wordsToBytes words ++ rest) = words ++ bytesToWords rest := by
  induction words with
  | nil => rfl
  | cons word words ih =>
    have hcons : wordsToBytes (word :: words) ++ rest =
        leBytes word ++ (wordsToBytes words ++ rest) := by
      simp [wordsToBytes]
    have hvalue : BitVec.ofNat 64 (Nat.ofDigits 256
        ((leBytes word).map UInt8.toNat)) = word := by
      rw [ofDigits_leBytes, BitVec.ofNat_toNat, BitVec.setWidth_eq]
    rw [hcons]
    change BitVec.ofNat 64 (Nat.ofDigits 256 ((leBytes word).map UInt8.toNat)) ::
      bytesToWords (wordsToBytes words ++ rest) = _
    rw [hvalue, ih, cons_append]

end Erigon
