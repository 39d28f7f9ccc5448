/-
The values of one key of a table in a range (`MdbxTx.RangeDupSort`).  The cursor
stands at the value it returns next; the values of the key are in order.
-/
import Erigon.ByteRange
import Erigon.Streams

namespace Erigon

open List

/-- Bounds that exclude every value are refused. -/
inductive RangeError
  | mustBeBefore (lower upper : Bytes)
  deriving DecidableEq

structure CursorDup2iter where
  dups : List Bytes
  toPrefix : Option Bytes
  orderAscend : Bool
  limit : Int
  nextV : Option Bytes

namespace CursorDup2iter

variable (dups : List Bytes)

def seekBothRange (v : Bytes) : Option Bytes :=
  dups.find? fun d => decide (v ≤ d)

def nextDup (v : Bytes) : Option Bytes := dups.find? fun d => decide (v < d)

def prevDup (v : Bytes) : Option Bytes :=
  dups.reverse.find? fun d => decide (d < v)

/-- The first value of an iteration. -/
def initial (fromPrefix : Option Bytes) (orderAscend : Bool) :
    Option Bytes :=
  match dups.head? with
  | none => none
  | some first =>
    match fromPrefix, orderAscend with
    | none, true => some first
    | none, false => dups.getLast?
    | some v, true => seekBothRange dups v
    | some v, false =>
      match nextSubtree v with
      | none => prevDup dups first
      | some subtree =>
        match seekBothRange dups subtree with
        | some d => prevDup dups d
        | none => dups.getLast?

def init (fromPrefix toPrefix : Option Bytes) (orderAscend : Bool)
    (limit : Int) : Except RangeError CursorDup2iter :=
  let it := ⟨dups, toPrefix, orderAscend, limit, initial dups fromPrefix orderAscend⟩
  match fromPrefix, toPrefix, orderAscend with
  | some lower, some upper, true =>
    if upper ≤ lower then .error (.mustBeBefore lower upper) else .ok it
  | some upper, some lower, false =>
    if upper ≤ lower then .error (.mustBeBefore lower upper) else .ok it
  | _, _, _ => .ok it

/-- Whether a value is on this side of the end of the range. -/
def inside (toPrefix : Option Bytes) (orderAscend : Bool) (v : Bytes) : Bool :=
  match toPrefix with
  | none => true
  | some bound => if orderAscend then decide (v < bound) else decide (bound < v)

def next (s : CursorDup2iter) : Option (Bytes × CursorDup2iter) :=
  match s.nextV with
  | none => none
  | some v =>
    if s.limit ≠ 0 ∧ inside s.toPrefix s.orderAscend v then
      some (v, { s with
        limit := s.limit - 1
        nextV := if s.orderAscend then nextDup s.dups v else prevDup s.dups v })
    else none

/-! ### Walks -/

variable (orderAscend : Bool)

/-- The values in the order of the iteration. -/
def along : List Bytes :=
  if orderAscend then dups else dups.reverse

def Follows (v d : Bytes) : Prop :=
  if orderAscend then v < d else d < v

theorem follows_asymm (a b : Bytes) (h : Follows orderAscend a b) :
    ¬Follows orderAscend b a := by
  cases orderAscend with
  | true => exact lt_asymm (a := a) h
  | false => exact lt_asymm (a := b) h

theorem along_ordered {dups : List Bytes} (hdups : dups.Pairwise (· < ·)) (orderAscend : Bool) :
    (along dups orderAscend).Pairwise (Follows orderAscend) := by
  cases orderAscend with
  | true => exact hdups
  | false => exact pairwise_reverse.mpr hdups

variable {orderAscend : Bool}

theorem mem_along {dups : List Bytes} {d : Bytes} : d ∈ along dups orderAscend ↔ d ∈ dups := by
  cases orderAscend with
  | true => exact Iff.rfl
  | false => exact mem_reverse

theorem step_eq (orderAscend : Bool) (v : Bytes) :
    ∃ after, (if orderAscend then nextDup dups v else prevDup dups v) =
        (along dups orderAscend).find? after ∧
      ∀ d, after d = true ↔ Follows orderAscend v d := by
  cases orderAscend with
  | true => exact ⟨_, rfl, fun d => decide_eq_true_iff⟩
  | false => exact ⟨_, rfl, fun d => decide_eq_true_iff⟩

variable {toPrefix fromPrefix : Option Bytes}

/-- From its first value on an iteration goes through the values inside. -/
theorem yields_back {dups front back : List Bytes} (hdups : dups.Pairwise (· < ·))
    (halong : along dups orderAscend = front ++ back) {limit : Int} (hlimit : limit < 0) :
    Yields next ⟨dups, toPrefix, orderAscend, limit, back.head?⟩
      (back.takeWhile (inside toPrefix orderAscend)) := by
  induction back generalizing front limit with
  | nil => exact .done rfl
  | cons v back ih =>
    cases hv : inside toPrefix orderAscend v with
    | false =>
      rw [takeWhile_cons_of_neg (by simp [hv])]
      exact .done (by simp [next, hv])
    | true =>
      obtain ⟨after, hstep, hafter⟩ := step_eq dups orderAscend v
      have hordered := along_ordered hdups orderAscend
      rw [halong] at hordered hstep
      rw [find?_behind (follows_asymm orderAscend) hordered hafter] at hstep
      rw [takeWhile_cons_of_pos hv]
      have hsplit : along dups orderAscend = (front ++ [v]) ++ back := by
        rw [halong, append_assoc, singleton_append]
      have hless : limit - 1 < 0 := by omega
      refine .step ?_ (ih hsplit hless)
      simp [next, hv, hstep, Int.ne_of_lt hlimit]

/-- Whether the iteration has reached its start. -/
def reached (fromPrefix : Option Bytes) (orderAscend : Bool) (v : Bytes) : Bool :=
  match fromPrefix with
  | none => true
  | some bound => if orderAscend then decide (bound ≤ v) else decide (v ≤ bound)

/-- The last value up to a bound is found through the subtree behind it. -/
theorem initial_descending {dups : List Bytes} (hdups : dups.Pairwise (· < ·)) {bound subtree : Bytes}
    (hnext : nextSubtree bound = some subtree)
    (hlength : ∀ d ∈ dups, d.length = bound.length) :
    initial dups (some bound) false =
      dups.reverse.find? (reached (some bound) false) := by
  have hbehind : ∀ d ∈ dups, subtree ≤ d ↔ bound < d := by
    intro d hd
    rw [le_iff_of_nextSubtree hnext, and_iff_left_iff_imp]
    intro hlt hpre
    exact hlt.ne (hpre.eq_of_length (hlength d hd).symm)
  cases dups with
  | nil => rfl
  | cons first rest =>
    simp only [initial, head?_cons, hnext, seekBothRange]
    cases hseek : (first :: rest).find? fun d => decide (subtree ≤ d) with
    | none =>
      rw [find?_eq_none] at hseek
      have hall : ∀ d ∈ first :: rest, reached (some bound) false d = true := by
        intro d hd
        have hnot := hseek d hd
        rw [decide_eq_true_iff, hbehind d hd, not_lt] at hnot
        simpa [reached] using hnot
      rw [find?_eq_head? fun d hd => hall d (mem_reverse.mp hd), head?_reverse]
    | some v =>
      have hv : v ∈ first :: rest := mem_of_find?_eq_some hseek
      have hbound : bound < v := by
        have := find?_some hseek
        rwa [decide_eq_true_iff, hbehind v hv] at this
      refine find?_congr fun d hd => ?_
      rw [mem_reverse] at hd
      rw [reached, Bool.eq_iff_iff, decide_eq_true_iff, if_neg Bool.false_ne_true,
        decide_eq_true_iff]
      refine ⟨fun hlt => not_lt.mp fun hd' => ?_, fun hle => hle.trans_lt hbound⟩
      -- A value between the bound and the one found would have been found.
      obtain ⟨-, front, back, hsplit, hfront⟩ := find?_eq_some_iff_append.mp hseek
      rw [hsplit, pairwise_append, pairwise_cons] at hdups
      have hmem := hd
      rw [hsplit, mem_append, mem_cons] at hmem
      rcases hmem with hmem | rfl | hmem
      · have hnot := hfront d hmem
        rw [Bool.not_eq_true', decide_eq_false_iff_not, hbehind d hd] at hnot
        exact hnot hd'
      · exact lt_irrefl d hlt
      · exact lt_asymm hlt (hdups.2.1.1 d hmem)

theorem initial_eq {dups : List Bytes} (hdups : dups.Pairwise (· < ·))
    (hfrom : orderAscend = false → ∀ bound ∈ fromPrefix, nextSubtree bound ≠ none ∧
      ∀ d ∈ dups, d.length = bound.length) :
    initial dups fromPrefix orderAscend =
      (along dups orderAscend).find? (reached fromPrefix orderAscend) := by
  cases fromPrefix with
  | none =>
    cases orderAscend with
    | true => cases dups <;> rfl
    | false =>
      have hhead : dups.reverse.find? (reached none false) = dups.reverse.head? :=
        find?_eq_head? fun _ _ => rfl
      rw [head?_reverse] at hhead
      refine Eq.trans ?_ hhead.symm
      cases dups <;> rfl
  | some bound =>
    cases orderAscend with
    | true => cases dups <;> rfl
    | false =>
      obtain ⟨hsome, hlength⟩ := hfrom rfl bound rfl
      obtain ⟨subtree, hnext⟩ := Option.ne_none_iff_exists'.mp hsome
      exact initial_descending hdups hnext hlength

theorem reached_of_follows {a b : Bytes} (hab : Follows orderAscend a b)
    (ha : reached fromPrefix orderAscend a = true) :
    reached fromPrefix orderAscend b = true := by
  cases fromPrefix with
  | none => rfl
  | some bound =>
    cases orderAscend with
    | true =>
      have hle : bound ≤ a := by simpa [reached] using ha
      simpa [reached] using hle.trans (le_of_lt hab)
    | false =>
      have hle : a ≤ bound := by simpa [reached] using ha
      simpa [reached] using (le_of_lt hab).trans hle

theorem inside_of_follows {a b : Bytes} (hab : Follows orderAscend a b)
    (hb : inside toPrefix orderAscend b = true) :
    inside toPrefix orderAscend a = true := by
  cases toPrefix with
  | none => rfl
  | some bound =>
    cases orderAscend with
    | true =>
      have hlt : b < bound := by simpa [inside] using hb
      simpa [inside] using lt_trans hab hlt
    | false =>
      have hlt : bound < b := by simpa [inside] using hb
      simpa [inside] using lt_trans hlt hab

/-- An iteration has the values between its bounds. -/
theorem yields_initial {dups : List Bytes} (hdups : dups.Pairwise (· < ·)) (toPrefix : Option Bytes)
    (hfrom : orderAscend = false → ∀ bound ∈ fromPrefix, nextSubtree bound ≠ none ∧
      ∀ d ∈ dups, d.length = bound.length) {limit : Int} (hlimit : limit < 0) :
    Yields next ⟨dups, toPrefix, orderAscend, limit, initial dups fromPrefix orderAscend⟩
      ((along dups orderAscend).filter fun d =>
        reached fromPrefix orderAscend d && inside toPrefix orderAscend d) := by
  have hordered := along_ordered hdups orderAscend
  rw [initial_eq hdups hfrom, find?_eq_head?_dropWhile_not,
    ← takeWhile_dropWhile_eq_filter (hordered.imp reached_of_follows)
      (hordered.imp inside_of_follows)]
  exact yields_back hdups (takeWhile_append_dropWhile ..).symm hlimit

end CursorDup2iter

end Erigon
