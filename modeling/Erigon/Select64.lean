/-
The broadword selection of `bitutil.Select64`: the position of the `k`-th set
bit of a 64-bit word, computed from byte-wise population counts and one table
lookup.
-/
import Erigon.BitPositions

namespace Erigon

open List
open Nat (ofDigits ofDigits_cons ofDigits_nil)

set_option maxRecDepth 10000 in
/-- Entry `byte + 256 * rank` is the position of set bit number `rank` inside
`byte`, or 8 when `byte` has no such bit. -/
def kSelectInByte : List Nat := [
    8,0,1,0,2,0,1,0,3,0,1,0,2,0,1,0,4,0,1,0,2,0,1,0,3,0,1,0,2,0,1,0,
    5,0,1,0,2,0,1,0,3,0,1,0,2,0,1,0,4,0,1,0,2,0,1,0,3,0,1,0,2,0,1,0,
    6,0,1,0,2,0,1,0,3,0,1,0,2,0,1,0,4,0,1,0,2,0,1,0,3,0,1,0,2,0,1,0,
    5,0,1,0,2,0,1,0,3,0,1,0,2,0,1,0,4,0,1,0,2,0,1,0,3,0,1,0,2,0,1,0,
    7,0,1,0,2,0,1,0,3,0,1,0,2,0,1,0,4,0,1,0,2,0,1,0,3,0,1,0,2,0,1,0,
    5,0,1,0,2,0,1,0,3,0,1,0,2,0,1,0,4,0,1,0,2,0,1,0,3,0,1,0,2,0,1,0,
    6,0,1,0,2,0,1,0,3,0,1,0,2,0,1,0,4,0,1,0,2,0,1,0,3,0,1,0,2,0,1,0,
    5,0,1,0,2,0,1,0,3,0,1,0,2,0,1,0,4,0,1,0,2,0,1,0,3,0,1,0,2,0,1,0,
    8,8,8,1,8,2,2,1,8,3,3,1,3,2,2,1,8,4,4,1,4,2,2,1,4,3,3,1,3,2,2,1,
    8,5,5,1,5,2,2,1,5,3,3,1,3,2,2,1,5,4,4,1,4,2,2,1,4,3,3,1,3,2,2,1,
    8,6,6,1,6,2,2,1,6,3,3,1,3,2,2,1,6,4,4,1,4,2,2,1,4,3,3,1,3,2,2,1,
    6,5,5,1,5,2,2,1,5,3,3,1,3,2,2,1,5,4,4,1,4,2,2,1,4,3,3,1,3,2,2,1,
    8,7,7,1,7,2,2,1,7,3,3,1,3,2,2,1,7,4,4,1,4,2,2,1,4,3,3,1,3,2,2,1,
    7,5,5,1,5,2,2,1,5,3,3,1,3,2,2,1,5,4,4,1,4,2,2,1,4,3,3,1,3,2,2,1,
    7,6,6,1,6,2,2,1,6,3,3,1,3,2,2,1,6,4,4,1,4,2,2,1,4,3,3,1,3,2,2,1,
    6,5,5,1,5,2,2,1,5,3,3,1,3,2,2,1,5,4,4,1,4,2,2,1,4,3,3,1,3,2,2,1,
    8,8,8,8,8,8,8,2,8,8,8,3,8,3,3,2,8,8,8,4,8,4,4,2,8,4,4,3,4,3,3,2,
    8,8,8,5,8,5,5,2,8,5,5,3,5,3,3,2,8,5,5,4,5,4,4,2,5,4,4,3,4,3,3,2,
    8,8,8,6,8,6,6,2,8,6,6,3,6,3,3,2,8,6,6,4,6,4,4,2,6,4,4,3,4,3,3,2,
    8,6,6,5,6,5,5,2,6,5,5,3,5,3,3,2,6,5,5,4,5,4,4,2,5,4,4,3,4,3,3,2,
    8,8,8,7,8,7,7,2,8,7,7,3,7,3,3,2,8,7,7,4,7,4,4,2,7,4,4,3,4,3,3,2,
    8,7,7,5,7,5,5,2,7,5,5,3,5,3,3,2,7,5,5,4,5,4,4,2,5,4,4,3,4,3,3,2,
    8,7,7,6,7,6,6,2,7,6,6,3,6,3,3,2,7,6,6,4,6,4,4,2,6,4,4,3,4,3,3,2,
    7,6,6,5,6,5,5,2,6,5,5,3,5,3,3,2,6,5,5,4,5,4,4,2,5,4,4,3,4,3,3,2,
    8,8,8,8,8,8,8,8,8,8,8,8,8,8,8,3,8,8,8,8,8,8,8,4,8,8,8,4,8,4,4,3,
    8,8,8,8,8,8,8,5,8,8,8,5,8,5,5,3,8,8,8,5,8,5,5,4,8,5,5,4,5,4,4,3,
    8,8,8,8,8,8,8,6,8,8,8,6,8,6,6,3,8,8,8,6,8,6,6,4,8,6,6,4,6,4,4,3,
    8,8,8,6,8,6,6,5,8,6,6,5,6,5,5,3,8,6,6,5,6,5,5,4,6,5,5,4,5,4,4,3,
    8,8,8,8,8,8,8,7,8,8,8,7,8,7,7,3,8,8,8,7,8,7,7,4,8,7,7,4,7,4,4,3,
    8,8,8,7,8,7,7,5,8,7,7,5,7,5,5,3,8,7,7,5,7,5,5,4,7,5,5,4,5,4,4,3,
    8,8,8,7,8,7,7,6,8,7,7,6,7,6,6,3,8,7,7,6,7,6,6,4,7,6,6,4,6,4,4,3,
    8,7,7,6,7,6,6,5,7,6,6,5,6,5,5,3,7,6,6,5,6,5,5,4,6,5,5,4,5,4,4,3,
    8,8,8,8,8,8,8,8,8,8,8,8,8,8,8,8,8,8,8,8,8,8,8,8,8,8,8,8,8,8,8,4,
    8,8,8,8,8,8,8,8,8,8,8,8,8,8,8,5,8,8,8,8,8,8,8,5,8,8,8,5,8,5,5,4,
    8,8,8,8,8,8,8,8,8,8,8,8,8,8,8,6,8,8,8,8,8,8,8,6,8,8,8,6,8,6,6,4,
    8,8,8,8,8,8,8,6,8,8,8,6,8,6,6,5,8,8,8,6,8,6,6,5,8,6,6,5,6,5,5,4,
    8,8,8,8,8,8,8,8,8,8,8,8,8,8,8,7,8,8,8,8,8,8,8,7,8,8,8,7,8,7,7,4,
    8,8,8,8,8,8,8,7,8,8,8,7,8,7,7,5,8,8,8,7,8,7,7,5,8,7,7,5,7,5,5,4,
    8,8,8,8,8,8,8,7,8,8,8,7,8,7,7,6,8,8,8,7,8,7,7,6,8,7,7,6,7,6,6,4,
    8,8,8,7,8,7,7,6,8,7,7,6,7,6,6,5,8,7,7,6,7,6,6,5,7,6,6,5,6,5,5,4,
    8,8,8,8,8,8,8,8,8,8,8,8,8,8,8,8,8,8,8,8,8,8,8,8,8,8,8,8,8,8,8,8,
    8,8,8,8,8,8,8,8,8,8,8,8,8,8,8,8,8,8,8,8,8,8,8,8,8,8,8,8,8,8,8,5,
    8,8,8,8,8,8,8,8,8,8,8,8,8,8,8,8,8,8,8,8,8,8,8,8,8,8,8,8,8,8,8,6,
    8,8,8,8,8,8,8,8,8,8,8,8,8,8,8,6,8,8,8,8,8,8,8,6,8,8,8,6,8,6,6,5,
    8,8,8,8,8,8,8,8,8,8,8,8,8,8,8,8,8,8,8,8,8,8,8,8,8,8,8,8,8,8,8,7,
    8,8,8,8,8,8,8,8,8,8,8,8,8,8,8,7,8,8,8,8,8,8,8,7,8,8,8,7,8,7,7,5,
    8,8,8,8,8,8,8,8,8,8,8,8,8,8,8,7,8,8,8,8,8,8,8,7,8,8,8,7,8,7,7,6,
    8,8,8,8,8,8,8,7,8,8,8,7,8,7,7,6,8,8,8,7,8,7,7,6,8,7,7,6,7,6,6,5,
    8,8,8,8,8,8,8,8,8,8,8,8,8,8,8,8,8,8,8,8,8,8,8,8,8,8,8,8,8,8,8,8,
    8,8,8,8,8,8,8,8,8,8,8,8,8,8,8,8,8,8,8,8,8,8,8,8,8,8,8,8,8,8,8,8,
    8,8,8,8,8,8,8,8,8,8,8,8,8,8,8,8,8,8,8,8,8,8,8,8,8,8,8,8,8,8,8,8,
    8,8,8,8,8,8,8,8,8,8,8,8,8,8,8,8,8,8,8,8,8,8,8,8,8,8,8,8,8,8,8,6,
    8,8,8,8,8,8,8,8,8,8,8,8,8,8,8,8,8,8,8,8,8,8,8,8,8,8,8,8,8,8,8,8,
    8,8,8,8,8,8,8,8,8,8,8,8,8,8,8,8,8,8,8,8,8,8,8,8,8,8,8,8,8,8,8,7,
    8,8,8,8,8,8,8,8,8,8,8,8,8,8,8,8,8,8,8,8,8,8,8,8,8,8,8,8,8,8,8,7,
    8,8,8,8,8,8,8,8,8,8,8,8,8,8,8,7,8,8,8,8,8,8,8,7,8,8,8,7,8,7,7,6,
    8,8,8,8,8,8,8,8,8,8,8,8,8,8,8,8,8,8,8,8,8,8,8,8,8,8,8,8,8,8,8,8,
    8,8,8,8,8,8,8,8,8,8,8,8,8,8,8,8,8,8,8,8,8,8,8,8,8,8,8,8,8,8,8,8,
    8,8,8,8,8,8,8,8,8,8,8,8,8,8,8,8,8,8,8,8,8,8,8,8,8,8,8,8,8,8,8,8,
    8,8,8,8,8,8,8,8,8,8,8,8,8,8,8,8,8,8,8,8,8,8,8,8,8,8,8,8,8,8,8,8,
    8,8,8,8,8,8,8,8,8,8,8,8,8,8,8,8,8,8,8,8,8,8,8,8,8,8,8,8,8,8,8,8,
    8,8,8,8,8,8,8,8,8,8,8,8,8,8,8,8,8,8,8,8,8,8,8,8,8,8,8,8,8,8,8,8,
    8,8,8,8,8,8,8,8,8,8,8,8,8,8,8,8,8,8,8,8,8,8,8,8,8,8,8,8,8,8,8,8,
    8,8,8,8,8,8,8,8,8,8,8,8,8,8,8,8,8,8,8,8,8,8,8,8,8,8,8,8,8,8,8,7]

def kOnesStep4 : Word := 0x1111111111111111#64
def kOnesStep8 : Word := 0x0101010101010101#64
def kLAMBDAsStep8 : Word := 0x80#64 * kOnesStep8
def kOnesStep4x3 : Word := 0x3#64 * kOnesStep4
def kOnesStep4xA : Word := 0xA#64 * kOnesStep4
def kOnesStep8xF : Word := 0xF#64 * kOnesStep8

/-- Running byte sums: byte `i` counts the set bits of bytes `0..i` of `x`. -/
def selectByteSums (x : Word) : Word :=
  let s := x - ((x &&& kOnesStep4xA) >>> 1)
  let s := (s &&& kOnesStep4x3) + ((s >>> 2) &&& kOnesStep4x3)
  ((s + (s >>> 4)) &&& kOnesStep8xF) * kOnesStep8

/-- `Select64`; `none` is the index panic of the table access. -/
def select64 (x : Word) (k : Nat) : Option Nat :=
  let byteSums := selectByteSums x
  let place := onesCount64
    ((((BitVec.ofNat 64 k * kOnesStep8) ||| kLAMBDAsStep8) - byteSums) &&&
      kLAMBDAsStep8) * 8
  let byteRank := BitVec.ofNat 64 k - (((byteSums <<< 8) >>> place) &&& 0xFF#64)
  (kSelectInByte[(((x >>> place) &&& 0xFF#64) ||| (byteRank <<< 8)).toNat]?).map
    (place + ·)

/-- Set-bit positions of a byte. -/
def byteOnes (byte : Nat) : List Nat :=
  positions byte.testBit 0 8

theorem kSelectInByte_eq : kSelectInByte =
    (List.range 2048).map fun i => (byteOnes (i % 256)).getD (i / 256) 8 := by
  decide +kernel

variable {j b m x y n k : Nat}

theorem byte_add_split (hb : b < 256) (x : Nat) :
    (b + 256 * x) % 256 = b ∧ (b + 256 * x) / 256 = x := by
  omega

/-- The table lists the set bits of every byte. -/
theorem kSelectInByte_getElem? {byte rank : Nat} (hbyte : byte < 256)
    (hj : (byteOnes byte)[rank]? = some j) :
    kSelectInByte[byte + 256 * rank]? = some j := by
  have hrank : rank < 8 := by
    obtain ⟨hlt, -⟩ := List.getElem?_eq_some_iff.mp hj
    have hlen : (byteOnes byte).length ≤ 8 := by
      refine Nat.le_trans (List.length_filter_le _ _) ?_
      simp
    omega
  obtain ⟨hmod, hdiv⟩ := byte_add_split hbyte rank
  rw [kSelectInByte_eq, getElem?_map, getElem?_range (by omega), Option.map_some, hmod, hdiv,
    getD_eq_getElem?_getD, hj, Option.getD_some]

/-! ### Byte-wise evaluation of the population count -/

theorem land_byte_add (hb : b < 256) (hm : m < 256) :
    (b + 256 * x) &&& (m + 256 * y) = (b &&& m) + 256 * (x &&& y) := by
  rw [← Nat.mod_add_div (_ &&& _) (2 ^ 8), Nat.and_mod_two_pow, Nat.and_div_two_pow]
  simp only [byte_add_split hb, byte_add_split hm, Nat.reducePow]

theorem lor_byte_add (hb : b < 256) (hm : m < 256) :
    (b + 256 * x) ||| (m + 256 * y) = (b ||| m) + 256 * (x ||| y) := by
  rw [← Nat.mod_add_div (_ ||| _) (2 ^ 8), Nat.or_mod_two_pow, Nat.or_div_two_pow]
  simp only [byte_add_split hb, byte_add_split hm, Nat.reducePow]

theorem lor_byte_mul (hb : b < 256) (y : Nat) : b ||| y * 256 = b + 256 * y := by
  have hor := lor_byte_add hb (by decide : 0 < 256) (x := 0) (y := y)
  simpa [Nat.mul_comm y] using hor

/-- Counts inside the two-bit groups of a byte. -/
def pairCounts (b : Nat) : Nat := b - ((b &&& 0xAA) >>> 1)

/-- Counts inside the nibbles of a byte. -/
def nibbleCounts (b : Nat) : Nat :=
  (pairCounts b &&& 0x33) + ((pairCounts b >>> 2) &&& 0x33)

def byteCount (b : Nat) : Nat :=
  (nibbleCounts b + (nibbleCounts b >>> 4)) &&& 0x0F

theorem byte_facts : ∀ b < 256, (b &&& 0xAA) % 2 = 0 ∧ b &&& 0xAA ≤ b ∧
    pairCounts b < 256 ∧ nibbleCounts b ≤ 68 ∧ nibbleCounts b % 16 ≤ 4 ∧
    byteCount b = (byteOnes b).length ∧ byteCount b ≤ 8 := by
  decide +kernel

theorem pair_shift_facts : ∀ p < 256, ∀ carry < 4,
    (p / 4 + 64 * carry) &&& 0x33 = (p / 4) &&& 0x33 := by
  decide +kernel

theorem nibble_shift_facts : ∀ e ≤ 68, ∀ carry ≤ 4,
    (e + e / 16 + 16 * carry) &&& 0x0F = (e + e / 16) &&& 0x0F := by
  decide +kernel

/-- A mask repeating one byte as often as `bytes` is long. -/
def repeatByte (mask : Nat) (bytes : List Nat) : Nat :=
  ofDigits 256 (bytes.map fun _ => mask)

section Stages

variable {bytes : List Nat}

theorem pairCounts_stage (hbytes : ∀ b ∈ bytes, b < 256) :
    ofDigits 256 bytes -
        ((ofDigits 256 bytes &&& repeatByte 0xAA bytes) >>> 1) =
      ofDigits 256 (bytes.map pairCounts) := by
  suffices hstage : (ofDigits 256 bytes &&& repeatByte 0xAA bytes) % 2 = 0 ∧
      (ofDigits 256 bytes &&& repeatByte 0xAA bytes) ≤
        ofDigits 256 bytes ∧
      ofDigits 256 bytes -
        ((ofDigits 256 bytes &&& repeatByte 0xAA bytes) >>> 1) =
      ofDigits 256 (bytes.map pairCounts) from hstage.2.2
  induction bytes with
  | nil => simp [repeatByte]
  | cons b bytes ih =>
    obtain ⟨heven, hle, hstage⟩ := ih fun c hc => hbytes c (mem_cons_of_mem b hc)
    have hb := hbytes b mem_cons_self
    obtain ⟨hbeven, hble, -⟩ := byte_facts b hb
    simp only [repeatByte, map_cons, ofDigits_cons] at *
    rw [land_byte_add hb (by decide)]
    rw [Nat.shiftRight_eq_div_pow] at *
    rw [pairCounts, Nat.shiftRight_eq_div_pow]
    omega

theorem nibbleCounts_stage (hbytes : ∀ b ∈ bytes, b < 256) :
    (ofDigits 256 (bytes.map pairCounts) &&& repeatByte 0x33 bytes) +
        ((ofDigits 256 (bytes.map pairCounts) >>> 2) &&&
          repeatByte 0x33 bytes) =
      ofDigits 256 (bytes.map nibbleCounts) := by
  induction bytes with
  | nil => simp [repeatByte]
  | cons b bytes ih =>
    have hstage := ih fun c hc => hbytes c (mem_cons_of_mem b hc)
    have hb := hbytes b mem_cons_self
    obtain ⟨-, -, hpair, -⟩ := byte_facts b hb
    simp only [repeatByte, map_cons, ofDigits_cons] at *
    generalize ofDigits 256 (bytes.map pairCounts) = high at *
    have hshift : (pairCounts b + 256 * high) >>> 2 =
        (pairCounts b / 4 + 64 * (high % 4)) + 256 * (high >>> 2) := by
      simp only [Nat.shiftRight_eq_div_pow]
      omega
    rw [hshift, land_byte_add hpair (by decide), land_byte_add (by omega) (by decide),
      pair_shift_facts _ hpair _ (Nat.mod_lt _ (by decide)), nibbleCounts,
      Nat.shiftRight_eq_div_pow (pairCounts b), show 2 ^ 2 = 4 from rfl]
    omega

theorem byteCount_stage (hbytes : ∀ b ∈ bytes, b < 256) :
    (ofDigits 256 (bytes.map nibbleCounts) +
        (ofDigits 256 (bytes.map nibbleCounts) >>> 4)) &&&
          repeatByte 0x0F bytes =
      ofDigits 256 (bytes.map byteCount) := by
  suffices hstage : ofDigits 256 (bytes.map nibbleCounts) % 16 ≤ 4 ∧
      (ofDigits 256 (bytes.map nibbleCounts) +
        (ofDigits 256 (bytes.map nibbleCounts) >>> 4)) &&&
          repeatByte 0x0F bytes =
      ofDigits 256 (bytes.map byteCount) from hstage.2
  induction bytes with
  | nil => simp [repeatByte]
  | cons b bytes ih =>
    obtain ⟨hlow, hstage⟩ := ih fun c hc => hbytes c (mem_cons_of_mem b hc)
    have hb := hbytes b mem_cons_self
    obtain ⟨-, -, -, hnib, hnibLow, -⟩ := byte_facts b hb
    simp only [repeatByte, map_cons, ofDigits_cons] at *
    generalize ofDigits 256 (bytes.map nibbleCounts) = high at *
    refine ⟨by omega, ?_⟩
    have hsum : nibbleCounts b + 256 * high +
        (nibbleCounts b + 256 * high) >>> 4 =
        (nibbleCounts b + nibbleCounts b / 16 + 16 * (high % 16)) +
          256 * (high + high >>> 4) := by
      simp only [Nat.shiftRight_eq_div_pow]
      omega
    rw [hsum, land_byte_add (by omega) (by decide), nibble_shift_facts _ hnib _ hlow, hstage,
      byteCount, Nat.shiftRight_eq_div_pow]

end Stages

/-! ### Locating the byte that holds the wanted bit -/

/-- Set-bit positions of a little-endian byte list. -/
def bytesOnes : List Nat → List Nat
  | [] => []
  | b :: bytes => byteOnes b ++ (bytesOnes bytes).map (8 + ·)

theorem positions_ofDigits {bytes : List Nat} (hbytes : ∀ b ∈ bytes, b < 256) :
    positions (ofDigits 256 bytes).testBit 0 (8 * bytes.length) =
      bytesOnes bytes := by
  induction bytes with
  | nil => rfl
  | cons b bytes ih =>
    have hb : b < 2 ^ 8 := hbytes b mem_cons_self
    have hbit : ∀ j, (ofDigits 256 (b :: bytes)).testBit j =
        if j < 8 then b.testBit j
        else (ofDigits 256 bytes).testBit (j - 8) := by
      intro j
      rw [ofDigits_cons, Nat.add_comm, show 256 = 2 ^ 8 from rfl]
      exact Nat.testBit_two_pow_mul_add _ hb j
    have hshift := positions_map_add
      (fun p => (ofDigits 256 bytes).testBit (p - 8)) 8 0 (8 * bytes.length)
    simp only [Nat.add_sub_cancel_left, Nat.add_zero] at hshift
    rw [length_cons, ← positions_append _ (Nat.zero_le 8) (by omega),
      bytesOnes, ← ih fun c hc => hbytes c (mem_cons_of_mem b hc), hshift,
      show 8 + 8 * bytes.length = 8 * (bytes.length + 1) by omega]
    congr 1
    · exact positions_congr fun j _ hj => by rw [hbit j, if_pos hj]
    · exact positions_congr fun j hj _ => by
        rw [hbit j, if_neg (Nat.not_lt.mpr hj)]

/-- Digit `j` of a base-256 number. -/
theorem ofDigits_digit {digits : List Nat} (hdigits : ∀ d ∈ digits, d < 256)
    (j : Nat) :
    ofDigits 256 digits / 256 ^ j % 256 = digits.getD j 0 := by
  induction digits generalizing j with
  | nil => simp
  | cons d digits ih =>
    have hd := hdigits d mem_cons_self
    have hrest := ih fun c hc => hdigits c (mem_cons_of_mem d hc)
    rw [ofDigits_cons]
    cases j with
    | zero =>
      rw [pow_zero, Nat.div_one, getD_cons_zero]
      omega
    | succ j =>
      rw [getD_cons_succ, ← hrest j, pow_succ', ← Nat.div_div_eq_div_mul]
      congr 2
      omega

/-- Set bits of the first `n` bytes. -/
def onesBefore (bytes : List Nat) (n : Nat) : Nat :=
  ((bytes.take n).map byteCount).sum

theorem onesBefore_succ {bytes : List Nat} (hn : n < bytes.length) :
    onesBefore bytes (n + 1) = onesBefore bytes n + byteCount bytes[n] := by
  rw [onesBefore, onesBefore, take_add_one, map_append, sum_append]
  simp [hn]

/-- The wanted bit sits in byte `n` when `k` falls between the running counts
around it. -/
theorem bytesOnes_getElem? {bytes : List Nat} (hbytes : ∀ b ∈ bytes, b < 256)
    (hn : n < bytes.length) (hlow : onesBefore bytes n ≤ k) (hhigh : k < onesBefore bytes (n + 1)) :
    (bytesOnes bytes)[k]? =
      ((byteOnes bytes[n])[k - onesBefore bytes n]?).map (8 * n + ·) := by
  induction n generalizing bytes k with
  | zero =>
    cases bytes with
    | nil => simp at hn
    | cons b bytes =>
      have hcount := (byte_facts b (hbytes b mem_cons_self)).2.2.2.2.2.1
      rw [onesBefore_succ hn] at hhigh
      simp only [onesBefore, take_zero, map_nil, sum_nil, getElem_cons_zero, Nat.zero_add] at hhigh
      rw [bytesOnes, getElem?_append_left (by omega)]
      simp [onesBefore]
  | succ n ih =>
    cases bytes with
    | nil => simp at hn
    | cons b bytes =>
      have hcount := (byte_facts b (hbytes b mem_cons_self)).2.2.2.2.2.1
      have hstep : ∀ m, onesBefore (b :: bytes) (m + 1) =
          byteCount b + onesBefore bytes m := by
        intro m
        simp [onesBefore]
      rw [hstep] at hlow hhigh
      have hrest := ih (fun c hc => hbytes c (mem_cons_of_mem b hc))
        (by simpa using hn) (k := k - byteCount b) (by omega) (by omega)
      rw [bytesOnes, getElem?_append_right (by omega), getElem?_map, ← hcount, hrest, hstep,
        getElem_cons_succ, Option.map_map, Nat.sub_add_eq]
      congr 1
      funext j
      simp only [Function.comp_apply]
      omega

/-- A predicate true exactly below `n` has count `n`. -/
theorem countP_range_eq {accept : Nat → Bool} (hle : n ≤ m)
    (haccept : ∀ j, accept j = true ↔ j < n) : (List.range m).countP accept = n := by
  obtain ⟨gap, rfl⟩ := Nat.exists_eq_add_of_le hle
  have hbelow : (List.range n).countP accept = n := by
    rw [countP_eq_length.mpr fun j hj => (haccept j).mpr (mem_range.mp hj), length_range]
  have habove : ((List.range gap).map (n + ·)).countP accept = 0 := by
    simp [haccept]
  rw [range_add, countP_append, hbelow, habove, Nat.add_zero]

/-- Little-endian bytes of a word. -/
def wordBytes (x : Word) : List Nat :=
  (List.range 8).map fun i => x.toNat / 256 ^ i % 256

@[simp] theorem wordBytes_length (x : Word) : (wordBytes x).length = 8 := by
  simp [wordBytes]

theorem wordBytes_lt (x : Word) : ∀ b ∈ wordBytes x, b < 256 := by
  intro b hb
  simp only [wordBytes, mem_map] at hb
  obtain ⟨i, -, rfl⟩ := hb
  exact Nat.mod_lt _ (by decide)

theorem wordBytes_getElem (x : Word) (hn : n < (wordBytes x).length) :
    (wordBytes x)[n] = x.toNat / 256 ^ n % 256 := by
  simp [wordBytes]

theorem ofDigits_wordBytes (x : Word) : ofDigits 256 (wordBytes x) = x.toNat := by
  have hx := x.isLt
  simp only [wordBytes, range_succ, range_zero, nil_append, cons_append, map_cons, map_nil,
    ofDigits_cons, ofDigits_nil, pow_zero, Nat.div_one]
  omega

theorem wordOnes_eq_bytesOnes {x : Word} {bytes : List Nat}
    (hx : x.toNat = ofDigits 256 bytes) (hlength : bytes.length = 8)
    (hbytes : ∀ b ∈ bytes, b < 256) : wordOnes x = bytesOnes bytes := by
  rw [← positions_ofDigits hbytes, hlength, ← hx, wordOnes]
  exact positions_congr fun j _ _ => (BitVec.testBit_toNat x).symm

theorem bytesOnes_length {bytes : List Nat} (hbytes : ∀ b ∈ bytes, b < 256) :
    (bytesOnes bytes).length = (bytes.map byteCount).sum := by
  induction bytes with
  | nil => rfl
  | cons b bytes ih =>
    have hcount := (byte_facts b (hbytes b mem_cons_self)).2.2.2.2.2.1
    rw [bytesOnes, length_append, length_map, ih fun c hc => hbytes c (mem_cons_of_mem b hc),
      map_cons, sum_cons, hcount]

theorem repeatByte_wordBytes (mask : Nat) (x : Word) :
    repeatByte mask (wordBytes x) = ofDigits 256 (List.replicate 8 mask) := by
  rw [repeatByte, map_const', wordBytes_length]

theorem onesBefore_le (x : Word) (n : Nat) : onesBefore (wordBytes x) n ≤ 8 * n := by
  have hcount : ∀ c ∈ ((wordBytes x).take n).map byteCount, c ≤ 8 := by
    intro c hc
    obtain ⟨b, hb, rfl⟩ := mem_map.mp hc
    exact (byte_facts b (wordBytes_lt x b (mem_of_mem_take hb))).2.2.2.2.2.2
  have hsum := List.sum_le_card_nsmul _ _ hcount
  simp only [length_map, length_take, smul_eq_mul] at hsum
  rw [onesBefore]
  omega

/-- Every byte of the product holds the running count up to that byte. -/
theorem selectByteSums_toNat (x : Word) :
    (selectByteSums x).toNat = ofDigits 256
      ((List.range 8).map fun j => onesBefore (wordBytes x) (j + 1)) := by
  have hA : kOnesStep4xA.toNat = repeatByte 0xAA (wordBytes x) := by
    rw [repeatByte_wordBytes]; decide
  have h3 : kOnesStep4x3.toNat = repeatByte 0x33 (wordBytes x) := by
    rw [repeatByte_wordBytes]; decide
  have hF : kOnesStep8xF.toNat = repeatByte 0x0F (wordBytes x) := by
    rw [repeatByte_wordBytes]; decide
  have hbytes := wordBytes_lt x
  have hpair : (x - ((x &&& kOnesStep4xA) >>> 1)).toNat =
      ofDigits 256 ((wordBytes x).map pairCounts) := by
    rw [← pairCounts_stage hbytes, ← hA, ofDigits_wordBytes]
    have hle : (x.toNat &&& kOnesStep4xA.toNat) >>> 1 ≤ x.toNat :=
      Nat.le_trans (Nat.shiftRight_le _ _) Nat.and_le_left
    rw [BitVec.toNat_sub_of_le]
    · simp
    · rw [BitVec.le_def]
      simpa using hle
  obtain ⟨b0, b1, b2, b3, b4, b5, b6, b7, hx⟩ : ∃ b0 b1 b2 b3 b4 b5 b6 b7,
      wordBytes x = [b0, b1, b2, b3, b4, b5, b6, b7] :=
    ⟨_, _, _, _, _, _, _, _, rfl⟩
  have hnib := nibbleCounts_stage hbytes
  have hcnt := byteCount_stage hbytes
  rw [← hpair, ← h3] at hnib
  rw [← hF] at hcnt
  have hnibLt : ofDigits 256 ((wordBytes x).map nibbleCounts) < 2 ^ 63 := by
    have hfact : ∀ b ∈ wordBytes x, nibbleCounts b ≤ 68 :=
      fun b hb => (byte_facts b (hbytes b hb)).2.2.2.1
    rw [hx] at hfact ⊢
    simp only [forall_mem_cons] at hfact
    simp only [map_cons, map_nil, ofDigits_cons, ofDigits_nil]
    omega
  have hsum8 : ∀ b ∈ wordBytes x, byteCount b ≤ 8 :=
    fun b hb => (byte_facts b (hbytes b hb)).2.2.2.2.2.2
  have hs : ((x - ((x &&& kOnesStep4xA) >>> 1)) &&& kOnesStep4x3).toNat +
      (((x - ((x &&& kOnesStep4xA) >>> 1)) >>> 2) &&& kOnesStep4x3).toNat =
      ofDigits 256 ((wordBytes x).map nibbleCounts) := by
    simpa only [BitVec.toNat_and, BitVec.toNat_ushiftRight] using hnib
  have hs2 : (((x - ((x &&& kOnesStep4xA) >>> 1)) &&& kOnesStep4x3) +
      (((x - ((x &&& kOnesStep4xA) >>> 1)) >>> 2) &&& kOnesStep4x3)).toNat =
      ofDigits 256 ((wordBytes x).map nibbleCounts) := by
    rw [BitVec.toNat_add, hs, Nat.mod_eq_of_lt (by omega)]
  rw [selectByteSums]
  generalize (((x - ((x &&& kOnesStep4xA) >>> 1)) &&& kOnesStep4x3) +
      (((x - ((x &&& kOnesStep4xA) >>> 1)) >>> 2) &&& kOnesStep4x3)) = s2 at hs2 ⊢
  have hs3 : ((s2 + (s2 >>> 4)) &&& kOnesStep8xF).toNat =
      ofDigits 256 ((wordBytes x).map byteCount) := by
    rw [← hcnt, BitVec.toNat_and, BitVec.toNat_add, BitVec.toNat_ushiftRight, hs2, Nat.mod_eq_of_lt]
    have := Nat.shiftRight_le (ofDigits 256 ((wordBytes x).map nibbleCounts)) 4
    omega
  rw [BitVec.toNat_mul, hs3, show kOnesStep8.toNat = 0x0101010101010101 from rfl]
  rw [hx] at hsum8 ⊢
  simp only [forall_mem_cons] at hsum8
  simp only [onesBefore, range_succ, range_zero, nil_append, cons_append, map_cons, map_nil,
    ofDigits_cons, ofDigits_nil, take_succ_cons, take_zero, sum_cons, sum_nil]
  omega

section DigitMaps

variable {indices : List Nat} {f g : Nat → Nat}

theorem ofDigits_map_op (op : Nat → Nat → Nat) (hzero : op 0 0 = 0)
    (hop : ∀ {b m x y : Nat}, b < 256 → m < 256 →
      op (b + 256 * x) (m + 256 * y) = op b m + 256 * op x y)
    (hf : ∀ i ∈ indices, f i < 256) (hg : ∀ i ∈ indices, g i < 256) :
    op (ofDigits 256 (indices.map f)) (ofDigits 256 (indices.map g)) =
      ofDigits 256 (indices.map fun i => op (f i) (g i)) := by
  induction indices with
  | nil => simp [hzero]
  | cons i indices ih =>
    rw [forall_mem_cons] at hf hg
    simp only [map_cons, ofDigits_cons]
    rw [hop hf.1 hg.1, ih hf.2 hg.2]

theorem ofDigits_map_sub (hle : ∀ i ∈ indices, g i ≤ f i) :
    ofDigits 256 (indices.map f) = ofDigits 256 (indices.map g) +
      ofDigits 256 (indices.map fun i => f i - g i) := by
  induction indices with
  | nil => simp
  | cons i indices ih =>
    rw [forall_mem_cons] at hle
    simp only [map_cons, ofDigits_cons]
    rw [ih hle.2]
    omega

end DigitMaps

theorem lambda_facts : (∀ k < 128, k ||| 128 = k + 128) ∧
    (∀ v < 256, v &&& 128 = if 128 ≤ v then 128 else 0) ∧
    (∀ accept : Bool, byteCount (if accept then 128 else 0) = accept.toNat) := by
  decide +kernel

/-- The flag byte of position `j` is set when the running count has not passed
`k`. -/
def lambdaFlags (x : Word) (k : Nat) : List Nat :=
  (List.range 8).map fun j =>
    if onesBefore (wordBytes x) (j + 1) ≤ k then 128 else 0

theorem lambda_toNat (x : Word) (hk : k < 64) :
    ((((BitVec.ofNat 64 k * kOnesStep8) ||| kLAMBDAsStep8) - selectByteSums x) &&&
      kLAMBDAsStep8).toNat = ofDigits 256 (lambdaFlags x k) := by
  obtain ⟨hor, hand, -⟩ := lambda_facts
  have hlam : kLAMBDAsStep8.toNat =
      ofDigits 256 ((List.range 8).map fun _ => 128) := by
    decide
  have hk8 : (BitVec.ofNat 64 k * kOnesStep8).toNat =
      ofDigits 256 ((List.range 8).map fun _ => k) := by
    rw [BitVec.toNat_mul, show kOnesStep8.toNat = 0x0101010101010101 from rfl, BitVec.toNat_ofNat,
      Nat.mod_eq_of_lt (show k < 2 ^ 64 by omega), Nat.mod_eq_of_lt (by omega)]
    simp only [range_succ, range_zero, nil_append, cons_append, map_cons, map_nil,
      ofDigits_cons, ofDigits_nil]
    omega
  have hflags : ((BitVec.ofNat 64 k * kOnesStep8) ||| kLAMBDAsStep8).toNat =
      ofDigits 256 ((List.range 8).map fun _ => k + 128) := by
    rw [BitVec.toNat_or, hk8, hlam, ofDigits_map_op HOr.hOr rfl lor_byte_add (fun _ _ => by omega)
      (fun _ _ => by omega), hor k (by omega)]
  have hbound : ∀ j ∈ List.range 8, onesBefore (wordBytes x) (j + 1) ≤ 64 := by
    intro j hj
    rw [mem_range] at hj
    exact Nat.le_trans (onesBefore_le x (j + 1)) (by omega)
  have hdiff : (((BitVec.ofNat 64 k * kOnesStep8) ||| kLAMBDAsStep8) -
      selectByteSums x).toNat = ofDigits 256
        ((List.range 8).map fun j => k + 128 - onesBefore (wordBytes x) (j + 1)) := by
    have hsub := ofDigits_map_sub (f := fun _ => k + 128)
      (g := fun j => onesBefore (wordBytes x) (j + 1))
      fun j hj => Nat.le_trans (hbound j hj) (by omega)
    rw [← selectByteSums_toNat, ← hflags] at hsub
    rw [BitVec.toNat_sub_of_le (by rw [BitVec.le_def]; omega)]
    omega
  rw [BitVec.toNat_and, hdiff, hlam, ofDigits_map_op HAnd.hAnd rfl land_byte_add (fun j _ => by omega)
    (fun _ _ => by omega), lambdaFlags]
  congr 1
  apply map_congr_left
  intro j hj
  have hb := hbound j hj
  rw [hand _ (by omega)]
  congr 1
  rw [eq_iff_iff]
  omega

theorem sum_map_toNat_eq_countP (accept : Nat → Bool) (indices : List Nat) :
    (indices.map fun i => (accept i).toNat).sum = indices.countP accept := by
  induction indices with
  | nil => rfl
  | cons i indices ih =>
    rw [map_cons, sum_cons, ih, countP_cons]
    cases accept i <;> simp [Nat.add_comm]

/-- The comparison word has one bit per byte whose running count is at most
`k`. -/
theorem lambda_onesCount (x : Word) (hk : k < 64) :
    onesCount64 ((((BitVec.ofNat 64 k * kOnesStep8) ||| kLAMBDAsStep8) -
      selectByteSums x) &&& kLAMBDAsStep8) =
      (List.range 8).countP fun j => decide (onesBefore (wordBytes x) (j + 1) ≤ k) := by
  have hflags : ∀ b ∈ lambdaFlags x k, b < 256 := by
    intro b hb
    simp only [lambdaFlags, mem_map] at hb
    obtain ⟨j, -, rfl⟩ := hb
    split <;> decide
  rw [onesCount64, wordOnes_eq_bytesOnes (lambda_toNat x hk) (by simp [lambdaFlags]) hflags,
    bytesOnes_length hflags, lambdaFlags, map_map, ← sum_map_toNat_eq_countP]
  congr 1
  apply map_congr_left
  intro j _
  rw [← lambda_facts.2.2]
  simp only [Function.comp_apply, decide_eq_true_eq]

theorem shifted_byte_toNat (x : Word) (n : Nat) :
    ((x >>> (n * 8)) &&& 0xFF#64).toNat = x.toNat / 256 ^ n % 256 := by
  rw [BitVec.toNat_and, BitVec.toNat_ushiftRight, BitVec.toNat_ofNat,
    show 0xFF % 2 ^ 64 = 2 ^ 8 - 1 from rfl, Nat.and_two_pow_sub_one_eq_mod,
    Nat.shiftRight_eq_div_pow, Nat.mul_comm n 8, Nat.pow_mul]

/-- One byte further up, the byte sums show the count before byte `n`. -/
theorem byteSums_shifted (x : Word) (hn : n < 8) :
    (((selectByteSums x <<< 8) >>> (n * 8)) &&& 0xFF#64).toNat =
      onesBefore (wordBytes x) n := by
  have hdigits : ∀ d ∈ (List.range 9).map (onesBefore (wordBytes x)), d < 256 := by
    intro d hd
    obtain ⟨j, hj, rfl⟩ := mem_map.mp hd
    have := onesBefore_le x j
    rw [mem_range] at hj
    omega
  have hsums : (selectByteSums x).toNat * 2 ^ 8 =
      ofDigits 256 ((List.range 9).map (onesBefore (wordBytes x))) := by
    rw [show List.range 9 = 0 :: (List.range 8).map Nat.succ from range_succ_eq_map, map_cons,
      map_map, ofDigits_cons, selectByteSums_toNat, Nat.mul_comm]
    exact (Nat.zero_add _).symm
  have hsplit : 2 ^ 64 = 256 ^ n * 256 ^ (8 - n) := by
    rw [← pow_add, Nat.add_sub_of_le hn.le]
    rfl
  rw [shifted_byte_toNat, BitVec.toNat_shiftLeft, Nat.shiftLeft_eq, hsums, hsplit,
    Nat.mod_mul_right_div_self, Nat.mod_mod_of_dvd _ (dvd_pow_self 256 (by omega)),
    ofDigits_digit hdigits]
  simp [getD_eq_getElem?_getD, show n < 9 by omega]

/-- `Select64` returns the `k`-th set bit whenever the word has one. -/
theorem select64_eq_some {x : Word} (hj : (wordOnes x)[k]? = some j) : select64 x k = some j := by
  have hbytes := wordBytes_lt x
  rw [wordOnes_eq_bytesOnes (ofDigits_wordBytes x).symm (wordBytes_length x) hbytes] at hj
  have hkTotal : k < onesBefore (wordBytes x) 8 := by
    have hlt := (List.getElem?_eq_some_iff.mp hj).1
    rw [bytesOnes_length hbytes] at hlt
    rwa [onesBefore, List.take_of_length_le (by simp)]
  have hk : k < 64 := by
    have := onesBefore_le x 8
    omega
  have hmono : Monotone (onesBefore (wordBytes x)) := monotone_nat_of_le_succ fun n => by
    rw [onesBefore, onesBefore, take_add_one, map_append, sum_append]
    omega
  -- the byte is the first whose running count has passed `k`
  have hexists : ∃ n, k < onesBefore (wordBytes x) (n + 1) := ⟨7, hkTotal⟩
  obtain ⟨n, hhigh, hmin⟩ : ∃ n, k < onesBefore (wordBytes x) (n + 1) ∧
      ∀ i < n, onesBefore (wordBytes x) (i + 1) ≤ k :=
    ⟨Nat.find hexists, Nat.find_spec hexists, fun i hi => Nat.not_lt.mp (Nat.find_min hexists hi)⟩
  have hn : n < 8 := by
    by_contra hge
    exact Nat.not_le.mpr hkTotal (hmin 7 (by omega))
  have haccept : ∀ j, decide (onesBefore (wordBytes x) (j + 1) ≤ k) = true ↔ j < n := by
    intro j
    rw [decide_eq_true_eq]
    refine ⟨fun hle => ?_, hmin j⟩
    by_contra hge
    have := hmono (show n + 1 ≤ j + 1 by omega)
    omega
  rw [select64, lambda_onesCount x hk, countP_range_eq (Nat.le_of_lt hn) haccept]
  have hlow : onesBefore (wordBytes x) n ≤ k := by
    cases n with
    | zero => simp [onesBefore]
    | succ n => exact hmin n (Nat.lt_succ_self n)
  have hlen : n < (wordBytes x).length := by
    rw [wordBytes_length]
    exact hn
  rw [bytesOnes_getElem? hbytes hlen hlow hhigh, Option.map_eq_some_iff] at hj
  obtain ⟨bit, hbit, rfl⟩ := hj
  have hbyte := hbytes _ (getElem_mem hlen)
  have hrank : (BitVec.ofNat 64 k -
      (((selectByteSums x <<< 8) >>> (n * 8)) &&& 0xFF#64)).toNat =
      k - onesBefore (wordBytes x) n := by
    have hkval : (BitVec.ofNat 64 k).toNat = k := by
      rw [BitVec.toNat_ofNat, Nat.mod_eq_of_lt (by omega)]
    rw [BitVec.toNat_sub_of_le, hkval, byteSums_shifted x hn]
    rw [BitVec.le_def, hkval, byteSums_shifted x hn]
    exact hlow
  have hindex : (((x >>> (n * 8)) &&& 0xFF#64) |||
      ((BitVec.ofNat 64 k - (((selectByteSums x <<< 8) >>> (n * 8)) &&& 0xFF#64)) <<<
        8)).toNat = (wordBytes x)[n] + 256 * (k - onesBefore (wordBytes x) n) := by
    rw [BitVec.toNat_or, shifted_byte_toNat, BitVec.toNat_shiftLeft, hrank, Nat.shiftLeft_eq,
      ← wordBytes_getElem x hlen, Nat.mod_eq_of_lt (by omega), lor_byte_mul hbyte]
  rw [hindex, kSelectInByte_getElem? hbyte hbit, Option.map_some, Nat.mul_comm n 8]

/-- `Select64` finds the set bit that has exactly `k` set bits below it. -/
theorem select64_spec (x : Word) (hk : k < onesCount64 x) :
    ∃ j, select64 x k = some j ∧ x.getLsbD j = true ∧ (positions x.getLsbD 0 j).length = k := by
  obtain ⟨j, hj⟩ : ∃ j, (wordOnes x)[k]? = some j := ⟨_, getElem?_eq_getElem hk⟩
  obtain ⟨-, hlast, hset⟩ := mem_positions.mp (mem_of_getElem? hj)
  refine ⟨j, select64_eq_some hj, hset, ?_⟩
  have hones : wordOnes x = positions x.getLsbD 0 j ++ j :: positions x.getLsbD (j + 1) 64 := by
    have hfrom : positions x.getLsbD j 64 = j :: positions x.getLsbD (j + 1) 64 := by
      rw [positions, show 64 - j = 64 - (j + 1) + 1 by omega, range'_succ, filter_cons_of_pos hset]
      rfl
    rw [wordOnes, ← positions_append _ j.zero_le hlast.le, hfrom]
  have hat : (wordOnes x)[(positions x.getLsbD 0 j).length]? = some j := by
    rw [hones, getElem?_append_right (Nat.le_refl _), Nat.sub_self]
    rfl
  have hnodup : (wordOnes x).Nodup := (positions_pairwise _ 0 64).imp Nat.ne_of_lt
  exact ((getElem?_inj hk hnodup).mp (hj.trans hat.symm)).symm

theorem select64_spec_third : ∃ j, select64 0xB0#64 2 = some j ∧ (0xB0#64).getLsbD j = true ∧
    (positions (0xB0#64).getLsbD 0 j).length = 2 :=
  select64_spec _ (by decide)

end Erigon
