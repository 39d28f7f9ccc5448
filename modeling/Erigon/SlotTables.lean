/-
The tables of the beacon state archive.  Values are stored under the low four bytes of a slot, and
a later write replaces an earlier one.  The compression library is known by what it promises.
-/
import Erigon.ByteCodec

namespace Erigon

namespace Antiquary

def slotsPerDump : Nat := 1536

/-- The key of a slot.  Only 32 bits of it are kept. -/
def encode64ToBytes4 (x : Nat) : Bytes := beBytes 4 x

theorem encode64ToBytes4_inj {x y : Nat} (hx : x < 2 ^ 32) (hy : y < 2 ^ 32)
    (h : encode64ToBytes4 x = encode64ToBytes4 y) : x = y := by
  have hnat := congrArg beNat h
  rw [encode64ToBytes4, encode64ToBytes4, beNat_beBytes, beNat_beBytes] at hnat
  omega

/-- What was collected and flushed, the newest first. -/
abbrev Table := List (Bytes × Bytes)

namespace Table

def collect (t : Table) (slot : Nat) (value : Bytes) : Table := (encode64ToBytes4 slot, value) :: t

/-- A missing key reads as the empty value. -/
def get (t : Table) (slot : Nat) : Bytes :=
  ((t.find? fun e => decide (e.1 = encode64ToBytes4 slot)).map Prod.snd).getD []

@[simp] theorem get_collect_self (t : Table) (slot : Nat) (value : Bytes) :
    (t.collect slot value).get slot = value := by
  simp [get, collect]

theorem get_collect_ne (t : Table) {slot other : Nat} (value : Bytes) (hslot : slot < 2 ^ 32)
    (hother : other < 2 ^ 32) (hne : slot ≠ other) :
    (t.collect slot value).get other = t.get other := by
  have hkey : encode64ToBytes4 slot ≠ encode64ToBytes4 other :=
    fun heq => hne (encode64ToBytes4_inj hslot hother heq)
  simp [get, collect, hkey]

end Table

/-- Lossless compression.  Nothing but the empty string may be compressed to the empty string. -/
structure Zstd where
  compress : Bytes → Bytes
  decompress : Bytes → Except String Bytes
  lossless : ∀ b, decompress (compress b) = .ok b
  eq_nil : ∀ b, compress b = [] → b = []

end Antiquary

end Erigon
