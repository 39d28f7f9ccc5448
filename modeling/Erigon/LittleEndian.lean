/-
Fixed-width little-endian numbers at the front of byte strings.
-/
import Erigon.ByteCodec

namespace Erigon

/-- Little-endian encoding of the low `width` bytes of a number. -/
def leUint : Nat → Nat → Bytes
  | 0, _ => []
  | width + 1, n => UInt8.ofNat n :: leUint width (n / 256)

def leNat (bytes : Bytes) : Nat :=
  bytes.foldr (fun b rest => b.toNat + 256 * rest) 0

@[simp] theorem leUint_length (width n : Nat) : (leUint width n).length = width := by
  induction width generalizing n with
  | zero => rfl
  | succ width ih => simp [leUint, ih]

/-- Decoding recovers the number up to truncation to the encoded width. -/
@[simp] theorem leNat_leUint (width n : Nat) : leNat (leUint width n) = n % 256 ^ width := by
  induction width generalizing n with
  | zero => simp [leUint, leNat, Nat.mod_one]
  | succ width ih =>
    have hcons : leNat (leUint (width + 1) n) =
        (UInt8.ofNat n).toNat + 256 * leNat (leUint width (n / 256)) := rfl
    have hbyte : (UInt8.ofNat n).toNat = n % 256 := UInt8.toNat_ofNat'
    rw [hcons, ih, hbyte, pow_succ, Nat.mul_comm (256 ^ width), Nat.mod_mul]

/-- A number at the front of a byte string, with what follows. -/
def readLE (width : Nat) (bytes : Bytes) : Option (Nat × Bytes) :=
  if width ≤ bytes.length then some (leNat (bytes.take width), bytes.drop width) else none

theorem readLE_leUint_append {width n : Nat} (hn : n < 256 ^ width) (rest : Bytes) :
    readLE width (leUint width n ++ rest) = some (n, rest) := by
  rw [readLE, if_pos (by simp), List.take_left' (leUint_length width n),
    List.drop_left' (leUint_length width n), leNat_leUint, Nat.mod_eq_of_lt hn]

theorem readLE_rest_length {width n : Nat} {bytes rest : Bytes}
    (h : readLE width bytes = some (n, rest)) : rest.length + width = bytes.length := by
  rw [readLE] at h
  split at h
  · rename_i hle
    cases h
    rw [List.length_drop]
    omega
  · cases h

end Erigon
