/-
Lists of numbers as alternating run lengths and gaps.  The writer counts how far the numbers go on
one by one and writes the distance to the next modulo `2 ^ 64`; the reader adds both up.
-/
import Erigon.QueueArchive

namespace Erigon

open List Antiquary

namespace Rabbits

/-- What the loop over the elements writes, and the last run behind it. -/
def runs : Nat → Nat → List Nat → List Nat
  | _, count, [] => [count]
  | expectedNum, count, element :: rest =>
    if expectedNum ≠ element then
      count :: (element + 2 ^ 64 - expectedNum) % 2 ^ 64 :: runs ((element + 1) % 2 ^ 64) 1 rest
    else runs ((element + 1) % 2 ^ 64) (count + 1) rest

/-- `WriteRabbits`, to a writer that does not fail. -/
def writeRabbits (z : Zstd) (elements : List Nat) : Bytes :=
  z.compress ((elements.length % 2 ^ 64 :: runs 0 0 elements).flatMap (leUint 8))

/-- The loop of `ReadRabbits`, which ends with the input. -/
def readRuns (active : Bool) (current : Nat) (r : Bytes) : Except String (List Nat) :=
  match _h : readLE 8 r with
  | none => if r = [] then .ok [] else .error "unexpected EOF"
  | some (count, rest) => do
    let next := (current + count) % 2 ^ 64
    let out ← readRuns (!active) next rest
    return (if active then List.range' current (next - current) else []) ++ out
termination_by r.length
decreasing_by
  have := readLE_rest_length _h
  omega

/-- `ReadRabbits`.  The length is good for the capacity of the list only. -/
def readRabbits (z : Zstd) (r : Bytes) : Except String (List Nat) := do
  let bytes ← z.decompress r
  match readLE 8 bytes with
  | none => .error (if bytes = [] then "EOF" else "unexpected EOF")
  | some (_length, rest) => readRuns true 0 rest

theorem readRuns_leUint {n : Nat} (hn : n < 2 ^ 64) (active : Bool) (current : Nat) (rest : Bytes) :
    readRuns active current (leUint 8 n ++ rest) =
      (readRuns (!active) ((current + n) % 2 ^ 64) rest).map
        ((if active then List.range' current ((current + n) % 2 ^ 64 - current) else []) ++ ·) := by
  have hread := readLE_leUint_append (show n < 256 ^ 8 by omega) rest
  rw [readRuns]
  split
  · rename_i hnone
    cases hnone.symm.trans hread
  · rename_i hsome
    cases hsome.symm.trans hread
    dsimp only
    cases readRuns (!active) ((current + n) % 2 ^ 64) rest <;> rfl

section

variable {expectedNum count : Nat} (hcount : count ≤ expectedNum) (hexpected : expectedNum < 2 ^ 64)

include hcount hexpected

theorem readRuns_count (rest : Bytes) :
    readRuns true (expectedNum - count) (leUint 8 count ++ rest) =
      (readRuns false expectedNum rest).map (List.range' (expectedNum - count) count ++ ·) := by
  rw [readRuns_leUint (by omega), Nat.sub_add_cancel hcount, Nat.mod_eq_of_lt hexpected,
    Nat.sub_sub_self hcount]
  rfl

/-- The reader stands before the run that the writer counts. -/
theorem readRuns_runs {elements : List Nat} (hlt : ∀ x ∈ elements, x < 2 ^ 64 - 1) :
    readRuns true (expectedNum - count) ((runs expectedNum count elements).flatMap (leUint 8)) =
      .ok (List.range' (expectedNum - count) count ++ elements) := by
  induction elements generalizing expectedNum count with
  | nil =>
    rw [runs, flatMap_singleton, ← append_nil (leUint 8 count), readRuns_count hcount hexpected,
      readRuns]
    rfl
  | cons element rest ih =>
    rw [forall_mem_cons] at hlt
    have hnext : (element + 1) % 2 ^ 64 = element + 1 := Nat.mod_eq_of_lt (by omega)
    rw [runs, hnext]
    split
    · have hgap : (expectedNum + (element + 2 ^ 64 - expectedNum) % 2 ^ 64) % 2 ^ 64 = element := by
        omega
      have hrest := ih (show 1 ≤ element + 1 by omega) (by omega) hlt.2
      rw [Nat.add_sub_cancel] at hrest
      rw [flatMap_cons, flatMap_cons, readRuns_count hcount hexpected,
        readRuns_leUint (Nat.mod_lt _ (by decide)), hgap, Bool.not_false, hrest]
      rfl
    · rename_i hsame
      obtain rfl : expectedNum = element := not_not.mp hsame
      have hrest := ih (Nat.add_le_add_right hcount 1) (by omega) hlt.2
      rw [Nat.add_sub_add_right, range'_1_concat, Nat.sub_add_cancel hcount] at hrest
      simpa using hrest

end

/-- Reading gives back what was written. -/
theorem readRabbits_writeRabbits (z : Zstd) (elements : List Nat)
    (hlt : ∀ x ∈ elements, x < 2 ^ 64 - 1) :
    readRabbits z (writeRabbits z elements) = .ok elements := by
  have hlength := readLE_leUint_append
    (show elements.length % 2 ^ 64 < 256 ^ 8 from Nat.mod_lt _ (by decide))
    ((runs 0 0 elements).flatMap (leUint 8))
  have hruns := readRuns_runs (Nat.le_refl 0) (by decide) hlt
  rw [readRabbits, writeRabbits, z.lossless, flatMap_cons]
  simp only [bind, Except.bind, hlength]
  exact hruns

theorem readRabbits_decreasing :
    readRabbits QueueArchive.plain (writeRabbits QueueArchive.plain [7, 8, 3, 3]) =
      .ok [7, 8, 3, 3] :=
  readRabbits_writeRabbits _ _ (by decide)

end Rabbits

end Erigon
