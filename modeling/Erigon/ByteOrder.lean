/-
The order of byte strings that `bytes.Compare` decides: lexicographic, a proper
beginning before its continuations.
-/
import Erigon.ByteCodec

namespace Erigon

instance instLinearOrderUInt8 : LinearOrder UInt8 where
  le_refl := UInt8.le_refl
  le_trans _ _ _ := UInt8.le_trans
  lt_iff_le_not_ge _ _ :=
    ⟨fun h => ⟨UInt8.le_of_lt h, UInt8.not_le.mpr h⟩, fun h => UInt8.not_le.mp h.2⟩
  le_antisymm _ _ := UInt8.le_antisymm
  le_total := UInt8.le_total
  toDecidableLE := inferInstance
  toDecidableEq := inferInstance
  toDecidableLT := inferInstance

theorem nil_le_bytes (b : Bytes) : [] ≤ b := not_lt.mp (List.not_lt_nil b)

/-- The strings of a list, each once, in ascending order. -/
def sortKeys (keys : List Bytes) : List Bytes := keys.toFinset.sort

theorem sortKeys_sorted (keys : List Bytes) : (sortKeys keys).Pairwise (· < ·) :=
  (Finset.sortedLT_sort _).pairwise

end Erigon
