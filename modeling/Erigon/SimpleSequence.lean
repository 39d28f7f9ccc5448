/-
Short number sequences stored as big-endian `uint32` deltas of a base number
(`simpleseq`), read side.
-/
import Erigon.ByteCodec
import Erigon.Loops

namespace Erigon

open List Option

/-- `uint64` subtraction. -/
def sub64 (a b : Nat) : Nat := (a + 2 ^ 64 - b) % 2 ^ 64

/-- `uint64` addition. -/
def add64 (a b : Nat) : Nat := (a + b) % 2 ^ 64

def maxUint64 : Nat := 2 ^ 64 - 1

theorem sub64_eq {a b : Nat} (hle : b ≤ a) (hlt : a < 2 ^ 64) : sub64 a b = a - b := by
  rw [sub64]
  omega

theorem add64_sub {a b : Nat} (hle : b ≤ a) (hlt : a < 2 ^ 64) : add64 b (a - b) = a := by
  rw [add64]
  omega

structure SimpleSequence where
  baseNum : Nat
  raw : Bytes

namespace SimpleSequence

variable (s : SimpleSequence)

def Get (i : Nat) : Option Nat := do
  let idx := i * 4 % 2 ^ 64
  let delta ← readUint 4 (← sliceFrom idx s.raw)
  return add64 s.baseNum delta

def Count : Nat := s.raw.length / 4

def Min : Option Nat := s.Get 0

def Max : Option Nat := s.Get (sub64 s.Count 1)

/-- Index of the first element not below `v`. -/
def search (v : Nat) : Option (Option Nat) := do
  let idx ← sortSearch s.Count fun i => (s.Get i).map fun val => decide (v ≤ val)
  return if s.Count ≤ idx then none else some idx

def Seek (v : Nat) : Option (Nat × Bool) := do
  match ← s.search v with
  | none => return (0, false)
  | some idx => return (← s.Get idx, true)

end SimpleSequence

structure SimpleSequenceIterator where
  seq : SimpleSequence
  pos : Nat

namespace SimpleSequenceIterator

variable (it : SimpleSequenceIterator)

def HasNext : Bool := decide (it.pos < it.seq.Count)

/-- `Next`, on an iterator that has a next element. -/
def Next : Option (Nat × SimpleSequenceIterator) := do
  if ¬ it.HasNext then none -- stream.ErrIteratorExhausted
  let v ← it.seq.Get it.pos
  return (v, { it with pos := it.pos + 1 })

/-- The caller's loop `for it.HasNext() { it.Next() }`. -/
def drain : Nat → SimpleSequenceIterator → Option (List Nat)
  | 0, _ => some []
  | fuel + 1, it =>
    if it.HasNext then do
      let (v, it) ← it.Next
      return v :: (← drain fuel it)
    else some []

def toList : Option (List Nat) :=
  drain (it.seq.Count - it.pos) it

end SimpleSequenceIterator

namespace SimpleSequence

def Iterator (s : SimpleSequence) : SimpleSequenceIterator := ⟨s, 0⟩

variable (baseNum : Nat) (xs : List Nat)

/-- The stored image of a sequence. -/
def deltas : Bytes :=
  xs.flatMap fun x => beBytes 4 (sub64 x baseNum)

theorem deltas_length :
    (deltas baseNum xs).length = 4 * xs.length := by
  induction xs with
  | nil => rfl
  | cons x xs ih =>
    rw [deltas] at ih ⊢
    simp only [flatMap_cons, length_append, beBytes_length, ih, length_cons]
    omega

theorem deltas_drop (i : Nat) :
    (deltas baseNum xs).drop (4 * i) = deltas baseNum (xs.drop i) := by
  induction i generalizing xs with
  | zero => rfl
  | succ i ih =>
    cases xs with
    | nil => simp [deltas]
    | cons x xs =>
      rw [drop_succ_cons, ← ih xs, show 4 * (i + 1) = 4 + 4 * i by omega, ← drop_drop, deltas,
        flatMap_cons, drop_left' (beBytes_length 4 _)]
      rfl

/-- The elements lie within `uint32` reach above the base. -/
def InReach : Prop :=
  ∀ x ∈ xs, baseNum ≤ x ∧ x - baseNum < 2 ^ 32 ∧ x < 2 ^ 64

section Read

variable {baseNum : Nat} {xs : List Nat}

theorem Count_eq : Count ⟨baseNum, deltas baseNum xs⟩ = xs.length := by
  rw [Count, deltas_length]
  omega

section

variable (hreach : InReach baseNum xs) (hlength : xs.length ≤ 2 ^ 32)

include hreach hlength

theorem Get_eq {i : Nat}
    (hi : i < xs.length) : Get ⟨baseNum, deltas baseNum xs⟩ i = some xs[i] := by
  obtain ⟨hle, hsmall, hlt⟩ := hreach xs[i] (getElem_mem hi)
  have hidx : i * 4 % 2 ^ 64 = 4 * i := by omega
  have hslice : sliceFrom (4 * i) (deltas baseNum xs) =
      some (beBytes 4 (xs[i] - baseNum) ++ deltas baseNum (xs.drop (i + 1))) := by
    rw [sliceFrom, if_pos (by rw [deltas_length]; omega), deltas_drop, drop_eq_getElem_cons hi]
    simp only [deltas, flatMap_cons, sub64_eq hle hlt]
  simp only [Get, hidx, hslice, Option.bind_eq_bind, Option.bind_some,
    readUint_beBytes_append, Option.pure_def, Option.some.injEq]
  rw [show 256 ^ 4 = 2 ^ 32 from rfl, Nat.mod_eq_of_lt hsmall, add64_sub hle hlt]

/-- Seek finds the least element not below `v`. -/
theorem Seek_eq (hsorted : xs.Pairwise (· ≤ ·)) (v : Nat) :
    Seek ⟨baseNum, deltas baseNum xs⟩ v =
      match xs.find? fun x => decide (v ≤ x) with
      | some x => some (x, true)
      | none => some (0, false) := by
  obtain ⟨r, hsearch, hr, hbelow, habove⟩ := sortSearch_spec xs.length
    (fun i => (Get ⟨baseNum, deltas baseNum xs⟩ i).map fun val => decide (v ≤ val))
    (fun k => v ≤ xs.getD k 0)
    (by
      intro k hk
      rw [Get_eq hreach hlength hk, map_some, getD_eq_getElem?_getD,
        getElem?_eq_getElem hk, getD_some])
    (by
      intro k hk hle
      have hxs := pairwise_iff_getElem.mp hsorted k (k + 1) (by omega) hk
        (Nat.lt_succ_self k)
      simp only [getD_eq_getElem?_getD, getElem?_eq_getElem hk,
        getElem?_eq_getElem (show k < xs.length by omega), getD_some]
        at hle ⊢
      omega)
  have hfind : xs.find? (fun x => decide (v ≤ x)) =
      (xs.drop r).find? (fun x => decide (v ≤ x)) := by
    refine (find?_drop fun k hk hkr => ?_).symm
    have hnot := hbelow k hkr
    rw [getD_eq_getElem?_getD, getElem?_eq_getElem hk, getD_some] at hnot
    exact decide_eq_false hnot
  by_cases hend : r = xs.length
  · rw [hfind, hend, drop_length]
    simp [Seek, search, Count_eq, hsearch, hend]
  · have hlt : r < xs.length := by omega
    have hholds := habove r (Nat.le_refl r) hlt
    rw [getD_eq_getElem?_getD, getElem?_eq_getElem hlt, getD_some] at hholds
    rw [hfind, drop_eq_getElem_cons hlt, find?_cons]
    simp [Seek, search, Count_eq, hsearch, Nat.not_le.mpr hlt, Get_eq hreach hlength hlt, hholds]

theorem drain_eq {fuel pos : Nat} (hfuel : pos + fuel = xs.length) :
    SimpleSequenceIterator.drain fuel ⟨⟨baseNum, deltas baseNum xs⟩, pos⟩ =
      some (xs.drop pos) := by
  induction fuel generalizing pos with
  | zero =>
    rw [SimpleSequenceIterator.drain, drop_of_length_le (by omega)]
  | succ fuel ih =>
    have hpos : pos < xs.length := by omega
    rw [SimpleSequenceIterator.drain, drop_eq_getElem_cons hpos]
    simp [SimpleSequenceIterator.HasNext, SimpleSequenceIterator.Next, Count_eq, hpos,
      Get_eq hreach hlength hpos, ih (show pos + 1 + fuel = xs.length by omega)]

theorem toList_Iterator : (Iterator ⟨baseNum, deltas baseNum xs⟩).toList = some xs :=
  drain_eq hreach hlength (by
    show 0 + (Count ⟨baseNum, deltas baseNum xs⟩ - 0) = xs.length
    rw [Count_eq]
    omega)

end

end Read

end SimpleSequence

end Erigon
