/-
The index of Heimdall's spans by their first block: which span a block is looked up to, when the
ranges of spans may overlap.
-/
import Erigon.SortedPairs

namespace Erigon

open List

/-- The span's id and end block, under its start block. -/
abbrev SpanRangeIndex := SortedPairs Nat (Nat × Nat)

namespace SpanRangeIndex

variable (index : SpanRangeIndex)

def put (startBlock endBlock id : Nat) : SpanRangeIndex :=
  index.insert startBlock (id, endBlock)

variable (blockNum : Nat)

def blockNumInRange (entry : Nat × Nat × Nat) : Bool :=
  decide (entry.1 ≤ blockNum) && decide (blockNum ≤ entry.2.2)

/-- The walk to the entries before the one sought, up to the first out of range. -/
def walkBack (blockNum : Nat) : List (Nat × Nat × Nat) → Nat → Nat
  | [], lastSpanIdInRange => lastSpanIdInRange
  | prev :: before, lastSpanIdInRange =>
    if blockNumInRange blockNum prev then
      walkBack blockNum before (max lastSpanIdInRange prev.2.1)
    else lastSpanIdInRange

def before : List (Nat × Nat × Nat) :=
  (index.pairs.takeWhile fun e => decide (e.1 < blockNum)).reverse

def lookup : Except String (Nat × Bool) :=
  match index.seek blockNum with
  | [] =>
    match index.pairs.getLast? with
    | none => .ok (0, false)
    | some (start, id, last) =>
      if blockNumInRange blockNum (start, id, last) then .ok (id, true)
      else .error (s!"SpanIndexLookup({blockNum}) returns Span\x7bId:{id}, StartBlock:{start}, " ++
        s!"EndBlock:{last} \x7d not containing blockNum={blockNum}")
  | curr :: _ =>
    .ok (walkBack blockNum (index.before blockNum)
      (if blockNumInRange blockNum curr then curr.2.1 else 0), true)

/-- What a lookup is to return. -/
def Greatest (returned : Except String (Nat × Bool)) :
    Prop :=
  if ∃ e ∈ index.pairs, blockNumInRange blockNum e then
    ∃ e ∈ index.pairs, blockNumInRange blockNum e ∧
      (∀ o ∈ index.pairs, blockNumInRange blockNum o → o.2.1 ≤ e.2.1) ∧
      returned = .ok (e.2.1, true)
  else ∀ id, returned ≠ .ok (id, true)

/-- The ranges a lookup meets with the block in them: the last one, when all start before the
block, and else those from the first that does not start before it back to the first without
the block. -/
def met : List (Nat × Nat × Nat) :=
  match index.seek blockNum with
  | [] => index.pairs.getLast?.toList.filter (blockNumInRange blockNum)
  | curr :: _ => [curr].filter (blockNumInRange blockNum) ++
      (index.before blockNum).takeWhile (blockNumInRange blockNum)

theorem le_walkBack_iff (n : Nat) (entries : List (Nat × Nat × Nat)) (id : Nat) :
    n ≤ walkBack blockNum entries id ↔
      n ≤ id ∨ ∃ e ∈ entries.takeWhile (blockNumInRange blockNum), n ≤ e.2.1 := by
  induction entries generalizing id with
  | nil => simp [walkBack]
  | cons prev entries ih =>
    rw [walkBack, takeWhile_cons]
    split
    · simp only [ih, le_max_iff, exists_mem_cons_iff, or_assoc]
    · simp

theorem mem_of_mem_met {index : SpanRangeIndex} {blockNum : Nat} {e : Nat × Nat × Nat}
    (he : e ∈ index.met blockNum) : e ∈ index.pairs ∧ blockNumInRange blockNum e := by
  rw [met] at he
  split at he
  · obtain ⟨he, hrange⟩ := mem_filter.mp he
    exact ⟨mem_of_getLast? (Option.mem_toList.mp he), hrange⟩
  · rename_i curr rest hseek
    rcases mem_append.mp he with he | he
    · obtain ⟨he, hrange⟩ := mem_filter.mp he
      exact ⟨mem_singleton.mp he ▸ (index.seek_eq_cons hseek).1, hrange⟩
    · have hbefore := mem_reverse.mp ((List.takeWhile_prefix _).subset he)
      exact ⟨(List.takeWhile_prefix _).subset hbefore, mem_takeWhile_imp he⟩

theorem greatest_found {index : SpanRangeIndex} {blockNum id : Nat}
    (h : id = 0 ∨ ∃ e ∈ index.met blockNum, e.2.1 = id) :
    Greatest index blockNum (.ok (id, true)) ↔
      (∃ e ∈ index.pairs, blockNumInRange blockNum e) ∧
        ∀ e ∈ index.pairs, blockNumInRange blockNum e → e.2.1 ≤ id := by
  rw [Greatest]
  split
  · rename_i hsome
    refine ⟨fun ⟨e, he, hrange, hmax, hid⟩ => ⟨hsome, ?_⟩, fun ⟨_, hmax⟩ => ?_⟩
    · cases hid
      exact hmax
    · rcases h with rfl | ⟨e, he, rfl⟩
      · obtain ⟨e, he, hrange⟩ := hsome
        have hzero := Nat.le_zero.mp (hmax e he hrange)
        exact ⟨e, he, hrange, fun o ho hr => hzero ▸ hmax o ho hr, by rw [hzero]⟩
      · obtain ⟨hmem, hrange⟩ := mem_of_mem_met he
        exact ⟨e, hmem, hrange, hmax, rfl⟩
  · rename_i hnone
    exact ⟨fun h => absurd rfl (h id), fun h => absurd h.1 hnone⟩

/-- A lookup is right exactly when the block is in a range, or beyond all starts, and no range
with the block has a greater id than those met. -/
theorem lookup_greatest_iff (index : SpanRangeIndex) (blockNum : Nat) :
    Greatest index blockNum (index.lookup blockNum) ↔
      if ∃ e ∈ index.pairs, blockNum ≤ e.1 then
        (∃ e ∈ index.pairs, blockNumInRange blockNum e) ∧
          ∀ e ∈ index.pairs, blockNumInRange blockNum e →
            e.2.1 = 0 ∨ ∃ o ∈ index.met blockNum, e.2.1 ≤ o.2.1
      else ∀ e ∈ index.pairs, blockNumInRange blockNum e →
        ∃ o ∈ index.met blockNum, e.2.1 ≤ o.2.1 := by
  rw [lookup]
  split
  · rename_i hseek
    have hstarts : ¬∃ e ∈ index.pairs, blockNum ≤ e.1 := fun ⟨e, he, hle⟩ =>
      absurd hle (index.seek_eq_nil hseek he).not_ge
    rw [if_neg hstarts]
    have hmet : index.met blockNum =
        index.pairs.getLast?.toList.filter (blockNumInRange blockNum) := by rw [met, hseek]
    split
    · rename_i hlast
      simp [Greatest, getLast?_eq_none_iff.mp hlast]
    · rename_i start id last hlast
      rw [hlast, Option.toList_some, filter_singleton] at hmet
      split
      · rename_i hrange
        rw [hrange, cond_true] at hmet
        have hsome : ∃ e ∈ index.pairs, blockNumInRange blockNum e :=
          ⟨_, mem_of_getLast? hlast, hrange⟩
        rw [greatest_found (.inr ⟨(start, id, last), hmet ▸ mem_singleton_self _, rfl⟩), hmet,
          and_iff_right hsome]
        simp only [mem_singleton, exists_eq_left]
      · rename_i hrange
        simp [Greatest, hmet, hrange]
  · rename_i curr rest hseek
    obtain ⟨hcurr, hstart, _⟩ := index.seek_eq_cons hseek
    have hstarts : ∃ e ∈ index.pairs, blockNum ≤ e.1 := ⟨curr, hcurr, hstart⟩
    have hle (n : Nat) : n ≤ walkBack blockNum (index.before blockNum)
        (if blockNumInRange blockNum curr then curr.2.1 else 0) ↔
          n = 0 ∨ ∃ o ∈ index.met blockNum, n ≤ o.2.1 := by
      have hmet : index.met blockNum = [curr].filter (blockNumInRange blockNum) ++
          (index.before blockNum).takeWhile (blockNumInRange blockNum) := by rw [met, hseek]
      rw [le_walkBack_iff, hmet]
      by_cases hrange : blockNumInRange blockNum curr
      · simp only [filter_singleton, hrange, if_true, cond_true, singleton_append,
          exists_mem_cons_iff]
        exact (or_iff_right_of_imp fun h => .inl (h ▸ Nat.zero_le _)).symm
      · simp [hrange]
    have hid := (hle _).mp le_rfl
    rw [greatest_found (hid.imp_right fun ⟨o, ho, hid⟩ =>
      ⟨o, ho, ((hle _).mpr (.inr ⟨o, ho, le_rfl⟩)).antisymm hid⟩), if_pos hstarts]
    simp only [hle]

/-- A block before every span is found, and one behind a shorter span is not. -/
theorem lookup_found_in_gap :
    lookup (put .empty 10 19 1) 5 = .ok (0, true) ∧
      (lookup (put (put .empty 0 30 1) 10 19 2) 25).isOk = false := by
  decide

end SpanRangeIndex

end Erigon
