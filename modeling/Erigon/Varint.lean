/-
Signed numbers of variable length, as `encoding/binary` of the Go library writes
and reads them: seven bits a byte, least significant first, the sign in the
lowest bit.
-/
import Erigon.ByteCodec

namespace Erigon

/-- What reading from a stream of bytes may end with. -/
inductive ReadError
  | eof
  | unexpectedEOF
  | overflow
  deriving DecidableEq

/-- `binary.PutUvarint`; `width` bounds the bytes, of which there are at most ten. -/
def putUvarint : Nat → Nat → Bytes
  | 0, _ => []
  | width + 1, x =>
    if x < 128 then [UInt8.ofNat x]
    else (UInt8.ofNat x ||| 128) :: putUvarint width (x / 128)

/-- `uint64(x) << 1`, complemented when `x` is negative. -/
def zigzag (x : Int) : Nat :=
  let ux := ((2 * x) % 2 ^ 64).toNat
  if x < 0 then 2 ^ 64 - 1 - ux else ux

def unzigzag (ux : Nat) : Int :=
  if ux % 2 = 1 then -(ux / 2 : Nat) - 1 else (ux / 2 : Nat)

def putVarint (x : Int) : Bytes := putUvarint 10 (zigzag x)

/-- The loop of `binary.ReadUvarint` with `left` bytes to go. -/
def readUvarint : Nat → Nat → Nat → Bytes → Except ReadError (Nat × Bytes)
  | 0, _, _, _ => .error .overflow
  | left + 1, _, _, [] => .error (if left = 9 then .eof else .unexpectedEOF)
  | left + 1, s, x, b :: rest =>
    if b.toNat < 128 then
      if left = 0 ∧ 1 < b.toNat then .error .overflow
      else .ok (x ||| b.toNat <<< s, rest)
    else readUvarint left (s + 7) (x ||| (b.toNat % 128) <<< s) rest

def readVarint (bytes : Bytes) : Except ReadError (Int × Bytes) :=
  (readUvarint 10 0 0 bytes).map fun r => (unzigzag r.1, r.2)

/-- Why `binary.Uvarint` reads no number. -/
inductive UvarintError
  | tooSmall | overflow
  deriving DecidableEq

/-- The loop of `binary.Uvarint` with `left` bytes to go; the rest of the buffer stands for
the number of bytes read. -/
def uvarintLoop : Nat → Nat → Nat → Bytes → Except UvarintError (Nat × Bytes)
  | _, _, _, [] => .error .tooSmall
  | 0, _, _, _ :: _ => .error .overflow
  | left + 1, s, x, b :: rest =>
    if b.toNat < 128 then
      if left = 0 ∧ 1 < b.toNat then .error .overflow
      else .ok (x ||| b.toNat <<< s, rest)
    else uvarintLoop left (s + 7) (x ||| (b.toNat % 128) <<< s) rest

def uvarint (bytes : Bytes) : Except UvarintError (Nat × Bytes) := uvarintLoop 10 0 0 bytes

theorem toNat_continued (x : Nat) : (UInt8.ofNat x ||| 128).toNat = 128 + x % 128 := by
  have hbyte : (UInt8.ofNat x).toNat = x % 256 := UInt8.toNat_ofNat'
  rw [UInt8.toNat_or, hbyte]
  have hsplit : x % 256 = 128 * (x / 128 % 2) + x % 128 := by omega
  have hor := Nat.two_pow_add_eq_or_of_lt (show x % 128 < 2 ^ 7 by omega)
  rw [show (128 : UInt8).toNat = 2 ^ 7 * 1 from rfl, Nat.or_comm]
  rcases Nat.mod_two_eq_zero_or_one (x / 128) with hbit | hbit
  · rw [hsplit, hbit, Nat.mul_zero, Nat.zero_add, ← hor 1]
  · rw [hsplit, hbit, show 128 * 1 + x % 128 = 2 ^ 7 * 1 + x % 128 from rfl, hor 1,
      ← Nat.or_assoc, Nat.or_self]

variable {s x y : Nat}

theorem or_shiftLeft (hx : x < 2 ^ s) (y : Nat) : x ||| y <<< s = x + y * 2 ^ s := by
  rw [Nat.or_comm, ← Nat.shiftLeft_add_eq_or_of_lt hx, Nat.shiftLeft_eq, Nat.add_comm]

/-- Reading on after `10 - left` bytes gives the rest of the number. -/
theorem readUvarint_putUvarint {left : Nat} (hwidth : s + 7 * left = 70) (hleft : 0 < left)
    (hx : x < 2 ^ s) (hy : y * 2 ^ s < 2 ^ 64) (rest : Bytes) :
    readUvarint left s x (putUvarint left y ++ rest) = .ok (x + y * 2 ^ s, rest) := by
  induction left generalizing s x y with
  | zero => omega
  | succ left ih =>
    rw [putUvarint]
    split
    · rename_i hsmall
      have hbyte : (UInt8.ofNat y).toNat = y := by
        rw [UInt8.toNat_ofNat']
        omega
      rw [List.singleton_append, readUvarint, hbyte, if_pos hsmall, or_shiftLeft hx]
      rw [if_neg]
      rintro ⟨hlast, hbig⟩
      -- the tenth byte holds one bit
      have hs : s = 63 := by omega
      rw [hs] at hy
      omega
    · rename_i hlarge
      have hpow : 2 ^ (s + 7) = 2 ^ s * 128 := by rw [Nat.pow_add]
      have hdiv : y = y / 128 * 128 + y % 128 := by omega
      have hnext : x + y % 128 * 2 ^ s < 2 ^ (s + 7) := by
        have := Nat.mul_le_mul_right (2 ^ s) (show y % 128 ≤ 127 by omega)
        omega
      have hpos : 0 < left := by
        by_contra hzero
        have hs : s = 63 := by omega
        rw [hs] at hy
        omega
      have hvalue : y / 128 * 2 ^ (s + 7) + y % 128 * 2 ^ s = y * 2 ^ s := by
        rw [hpow]
        conv_rhs => rw [hdiv, Nat.add_mul, Nat.mul_assoc, Nat.mul_comm 128]
      rw [List.cons_append, readUvarint, toNat_continued, if_neg (by omega),
        show (128 + y % 128) % 128 = y % 128 by omega, or_shiftLeft hx,
        ih (by omega) hpos hnext (by omega)]
      rw [Nat.add_assoc, Nat.add_comm (y % 128 * 2 ^ s), hvalue]

/-- A number that can be read from a stream is read from a buffer too. -/
theorem uvarintLoop_of_read {left : Nat} {bytes rest : Bytes}
    (h : readUvarint left s x bytes = .ok (y, rest)) :
    uvarintLoop left s x bytes = .ok (y, rest) := by
  induction left generalizing s x bytes with
  | zero => cases h
  | succ left ih =>
    cases bytes with
    | nil => cases h
    | cons b bytes =>
      rw [readUvarint] at h
      rw [uvarintLoop]
      split at h
      · rename_i hlast
        rw [if_pos hlast]
        split at h
        · cases h
        · rename_i hbound
          rw [if_neg hbound]
          cases h
          rfl
      · rename_i hmore
        rw [if_neg hmore]
        exact ih h

/-- The number written, and what comes after it. -/
theorem uvarint_putUvarint (hx : x < 2 ^ 64) (rest : Bytes) :
    uvarint (putUvarint 10 x ++ rest) = .ok (x, rest) := by
  have hread : readUvarint 10 0 0 (putUvarint 10 x ++ rest) = .ok (0 + x * 2 ^ 0, rest) :=
    readUvarint_putUvarint (by norm_num) (by norm_num) (by norm_num) (by simpa using hx) rest
  rw [uvarint, uvarintLoop_of_read hread]
  simp

theorem putUvarint_length_pos {width : Nat} (hwidth : 0 < width) (x : Nat) :
    0 < (putUvarint width x).length := by
  cases width with
  | zero => omega
  | succ width =>
    rw [putUvarint]
    split <;> simp

theorem putUvarint_length_le (width x : Nat) : (putUvarint width x).length ≤ width := by
  induction width generalizing x with
  | zero => rfl
  | succ width ih =>
    rw [putUvarint]
    split
    · simp
    · rw [List.length_cons]
      exact Nat.succ_le_succ (ih _)

theorem unzigzag_zigzag {x : Int} (hlow : -(2 ^ 63) ≤ x) (hhigh : x < 2 ^ 63) :
    unzigzag (zigzag x) = x := by
  unfold unzigzag zigzag
  dsimp only
  split <;> split <;> omega

theorem zigzag_lt (x : Int) : zigzag x < 2 ^ 64 := by
  unfold zigzag
  dsimp only
  split <;> omega

/-- Reading returns the number written and what comes after it. -/
theorem readVarint_putVarint {x : Int} (hlow : -(2 ^ 63) ≤ x) (hhigh : x < 2 ^ 63)
    (rest : Bytes) : readVarint (putVarint x ++ rest) = .ok (x, rest) := by
  rw [readVarint, putVarint, readUvarint_putUvarint (by norm_num) (by norm_num) (by norm_num)
    (by simpa using zigzag_lt x)]
  simp [Except.map, unzigzag_zigzag hlow hhigh]

end Erigon
