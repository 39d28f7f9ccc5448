/-
The table of the last transaction number of every block.  Blocks are appended and cut
off at the end, and the block of a transaction is found by binary search over the block
numbers, which has to meet no number that is not stored.
-/
import Erigon.Loops
import Erigon.OrderedLists
import Erigon.Query

namespace Erigon

open List

namespace TxNums

/-- The table `MaxTxNum`, in the order of its keys.  Keys and values are numbers of eight
bytes, the high byte first. -/
abbrev Table := List (Nat × Nat)

variable (t : Table)

def maxTxNum (blockNum : Nat) : Option Nat :=
  (t.find? fun row => decide (row.1 = blockNum)).map Prod.snd

/-- `sort.Search` with a predicate that may fail; after an error the answers no longer
matter, as the caller returns the error. -/
def search (probe : Nat → Result Bool) : Nat → Nat → Nat → Result Nat
  | 0, i, _ => .ok i
  | fuel + 1, i, j =>
    if i < j then do
      let h := (i + j) / 2
      if ← probe h then search probe fuel i h else search probe fuel (h + 1) j
    else .ok i

/-- The predicate of the search of `BlockNumber`. -/
def probe (secondBlockNum txNum sblk : Nat) : Result Bool :=
  if sblk < secondBlockNum then .ok false
  else
    match maxTxNum t sblk with
    | some maxTxNum => .ok (decide (txNum ≤ maxTxNum))
    | none =>
      let (fb, ft) := t.head?.getD (0, 0)
      let (lb, lt) := t.getLast?.getD (0, 0)
      .error (s!"BlockNum({sblk}): seems broken TxNum value: {txNum} -> 0; " ++
        s!"db has: ({fb}-{ft}, {lb}-{lt})")

def maxInt32 : Nat := 2 ^ 31 - 1

/-- `DefaultTxBlockIndex.BlockNumber`. -/
def blockNumber (txNum : Nat) : Result (Option Nat) :=
  match t.getLast? with
  | none => .ok none
  | some (lastBlockNum, txNumInDb) =>
    if txNumInDb < txNum then .ok none
    else if maxInt32 < lastBlockNum then .panic s!"block number is too big: {lastBlockNum}"
    else if (maxTxNum t 0).any fun firstMaxTxNum => decide (txNum ≤ firstMaxTxNum) then
      .ok (some 0)
    else
      match t[1]? with
      | none => .error "DefaultReadTxNumFunc Second: seems broken TxNum value: "
      | some (secondBlockNum, _) =>
        (search (probe t secondBlockNum txNum) (lastBlockNum + 1) 0 (lastBlockNum + 1)).map some

def findBlockNum (endTxNumMinimax : Nat) : Result (Option Nat) :=
  blockNumber t endTxNumMinimax

/-- `Append`; the table only takes keys behind its last one. -/
def append (blockNum maxTxNum : Nat) : Result Table :=
  match t.getLast? with
  | none => .ok [(blockNum, maxTxNum)]
  | some (lastBlockNum, _) =>
    if 1 < lastBlockNum ∧ (lastBlockNum + 1) % 2 ^ 64 ≠ blockNum then
      .error s!"append with gap blockNum={blockNum}, but current height={lastBlockNum}"
    else if blockNum ≤ lastBlockNum then .error "MDBX_EKEYMISMATCH"
    else .ok (t ++ [(blockNum, maxTxNum)])

/-- The loop of `Truncate` over the rows that its cursor is still to come to; an error
leaves the rows deleted that were deleted before it. -/
def truncateLoop (blockNum : Nat) : Nat → List (Nat × Nat) → Table → Table × Option String
  | _, [], t => (t, none)
  | prevBlockNum, (currentBlockNum, _) :: rest, t =>
    if currentBlockNum ≠ (prevBlockNum + 1) % 2 ^ 64 ∧ currentBlockNum ≠ blockNum then
      (t, some (s!"bad block num: current num is {currentBlockNum} but previous is " ++
        s!"{prevBlockNum}"))
    else
      truncateLoop blockNum currentBlockNum rest
        (t.filter fun row => decide (row.1 ≠ currentBlockNum))

def truncate (blockNum : Nat) : Table × Option String :=
  truncateLoop blockNum blockNum (t.dropWhile fun row => decide (row.1 < blockNum)) t

/-! ### Runs -/

inductive Call
  | append (blockNum maxTxNum : Nat)
  | truncate (blockNum : Nat)

namespace Call

/-- The table after a call; an append that is rejected changes nothing. -/
def apply (t : Table) : Call → Table
  | .append blockNum maxTxNum =>
    match TxNums.append t blockNum maxTxNum with
    | .ok t' => t'
    | _ => t
  | .truncate blockNum => (TxNums.truncate t blockNum).1

/-- Calls as they are made: block zero first, then blocks and numbers above what is
stored, and block zero is never cut off. -/
def Fits (t : Table) : Call → Prop
  | .append blockNum maxTxNum => blockNum < 2 ^ 64 ∧ maxTxNum < 2 ^ 64 ∧
      (t = [] → blockNum = 0) ∧ ∀ last ∈ t.getLast?, last.1 < blockNum ∧ last.2 < maxTxNum
  | .truncate blockNum => 1 ≤ blockNum ∧ blockNum < 2 ^ 64

instance (t : Table) : DecidablePred (Fits t)
  | .append _ _ => inferInstanceAs (Decidable (_ ∧ _))
  | .truncate _ => inferInstanceAs (Decidable (_ ∧ _))

/-- An append that, if it is taken, skips no block behind block one and has a number that
the search can count to. -/
def Safe (t : Table) : Call → Prop
  | .append blockNum maxTxNum => ∀ t', TxNums.append t blockNum maxTxNum = .ok t' →
      blockNum ≤ maxInt32 ∧ ∀ last ∈ t.getLast?, last.1 = 1 → blockNum = 2
  | .truncate _ => True

end Call

/-- A property of all tables of a run. -/
def Throughout (P : Table → Prop) : Table → List Call → Prop
  | t, [] => P t
  | t, c :: calls => P t ∧ Throughout P (c.apply t) calls

/-- A property of all calls of a run, where they are made. -/
def AllCalls (P : Table → Call → Prop) : Table → List Call → Prop
  | _, [] => True
  | t, c :: calls => P t c ∧ AllCalls P (c.apply t) calls

/-- Block zero, and behind it at most one range of blocks. -/
def Contiguous : Prop :=
  t = [] ∨ ∃ a n, t.map Prod.fst = 0 :: List.range' a n

/-- The block of every transaction that is covered is found. -/
def Finds : Prop :=
  ∀ last ∈ t.getLast?, ∀ txNum ≤ last.2, ∃ b, findBlockNum t txNum = .ok (some b) ∧
    IsLeast {blockNum | ∃ m, (blockNum, m) ∈ t ∧ txNum ≤ m} b

/-! ### Tables without gaps -/

/-- Block zero and rows of blocks that follow one another, with ascending numbers. -/
structure Ranged (m a : Nat) (rows : List (Nat × Nat)) : Prop where
  one_le : 1 ≤ a
  blocks : rows.map Prod.fst = List.range' a rows.length
  ascending : ((0, m) :: rows).Pairwise fun x y => x.2 < y.2
  bounded : ∀ row ∈ rows, row.1 ≤ maxInt32

namespace Ranged

variable {m a : Nat} {rows : List (Nat × Nat)}

theorem fst_getElem (h : Ranged m a rows) {i : Nat} (hi : i < rows.length) : rows[i].1 = a + i := by
  have hfst : (rows.map Prod.fst)[i]? = (List.range' a rows.length)[i]? := by rw [h.blocks]
  simpa [hi] using hfst

/-- A stored number is that of the row it has to be in. -/
theorem mem_iff (h : Ranged m a rows) {blockNum txNum : Nat} :
    (blockNum, txNum) ∈ rows ↔ a ≤ blockNum ∧ rows[blockNum - a]? = some (blockNum, txNum) := by
  constructor
  · intro hmem
    obtain ⟨i, hi, hrow⟩ := getElem_of_mem hmem
    have hfst := h.fst_getElem hi
    rw [hrow] at hfst
    dsimp only at hfst
    refine ⟨by omega, ?_⟩
    rw [hfst, Nat.add_sub_cancel_left, getElem?_eq_getElem hi, hrow, hfst]
  · rintro ⟨-, hrow⟩
    exact mem_of_getElem? hrow

theorem row_mem (h : Ranged m a rows) {i : Nat} (hi : i < rows.length) :
    (a + i, rows[i].2) ∈ rows := by
  rw [← h.fst_getElem hi]
  exact getElem_mem hi

theorem maxTxNum_zero : maxTxNum ((0, m) :: rows) 0 = some m := by
  simp [maxTxNum]

theorem maxTxNum_row (h : Ranged m a rows) {i : Nat} (hi : i < rows.length) :
    maxTxNum ((0, m) :: rows) (a + i) = some rows[i].2 := by
  have hpos := h.one_le
  have hmem := h.row_mem hi
  rw [maxTxNum, find?_cons_of_neg (by simp; omega)]
  cases hfind : rows.find? fun row => decide (row.1 = a + i) with
  | none => exact absurd (decide_eq_true rfl) (find?_eq_none.mp hfind _ hmem)
  | some row =>
    obtain ⟨n, x⟩ := row
    have hn : n = a + i := by simpa using find?_some hfind
    subst hn
    have hx := (h.mem_iff.mp (mem_of_find?_eq_some hfind)).2
    rw [Nat.add_sub_cancel_left, getElem?_eq_getElem hi] at hx
    rw [Option.some.inj hx]
    rfl

theorem take (h : Ranged m a rows) (k : Nat) : Ranged m a (rows.take k) where
  one_le := h.one_le
  blocks := by
    rw [map_take, h.blocks]
    exact ext_getElem (by simp) (by simp)
  ascending := h.ascending.sublist ((take_sublist k rows).cons_cons _)
  bounded row hrow := h.bounded row (mem_of_mem_take hrow)

theorem getLast? (h : Ranged m a rows) (hrows : rows ≠ []) :
    ∃ x, ((0, m) :: rows).getLast? = some (a + rows.length - 1, x) ∧
      rows[rows.length - 1]? = some (a + rows.length - 1, x) := by
  have hlength := length_pos_iff.mpr hrows
  have hfst := h.fst_getElem (show rows.length - 1 < rows.length by omega)
  refine ⟨rows[rows.length - 1].2, ?_, ?_⟩
  · rw [getLast?_cons, getLast?_eq_getElem?, getElem?_eq_getElem (by omega)]
    exact congrArg some (Prod.ext (by dsimp only [Option.getD]; omega) rfl)
  · rw [getElem?_eq_getElem (by omega)]
    exact congrArg some (Prod.ext (by dsimp only; omega) rfl)

end Ranged

/-! ### Searching -/

theorem search_eq {accept : Nat → Bool} {probe : Nat → Result Bool} {fuel i j r : Nat}
    (hprobe : ∀ k, i ≤ k → k < j → probe k = .ok (accept k))
    (hsearch : searchLoop (fun k => some (accept k)) fuel i j = some r) :
    search probe fuel i j = .ok r := by
  induction fuel generalizing i j with
  | zero => exact congrArg Result.ok (Option.some.inj hsearch)
  | succ fuel ih =>
    rw [searchLoop] at hsearch
    rw [search]
    split at hsearch
    · rename_i hlt
      rw [if_pos hlt]
      dsimp only [Option.bind_some] at hsearch ⊢
      rw [hprobe _ (by omega) (by omega), Result.ok_bind]
      split at hsearch
      · rename_i haccept
        rw [if_pos haccept]
        exact ih (fun k h₁ h₂ => hprobe k h₁ (by omega)) hsearch
      · rename_i haccept
        rw [if_neg haccept]
        exact ih (fun k h₁ h₂ => hprobe k (by omega) h₂) hsearch
    · rename_i hlt
      rw [if_neg hlt]
      exact congrArg Result.ok (Option.some.inj hsearch)

variable {a m x blockNum : Nat}

/-- In a table without gaps the search meets no number that is not stored, and ends at the
first block that reaches far enough. -/
theorem Ranged.search_eq {txNum lastBlockNum : Nat} {rows : List (Nat × Nat)} (h : Ranged m a rows)
    (hlast : lastBlockNum = a + rows.length - 1)
    (hrow : rows[rows.length - 1]? = some (lastBlockNum, x)) (hle : txNum ≤ x) :
    ∃ b, search (probe ((0, m) :: rows) a txNum) (lastBlockNum + 1) 0 (lastBlockNum + 1) = .ok b ∧
      IsLeast {blockNum | ∃ m, (blockNum, m) ∈ rows ∧ txNum ≤ m} b := by
  obtain ⟨hlength, -⟩ := List.getElem?_eq_some_iff.mp hrow
  let reaches : Nat → Prop := fun k => a ≤ k ∧ ∀ row ∈ rows[k - a]?, txNum ≤ row.2
  have hascending := h.ascending.of_cons
  rw [List.pairwise_iff_getElem] at hascending
  have hmono : ∀ k, k + 1 < lastBlockNum + 1 → reaches k → reaches (k + 1) := by
    rintro k hk ⟨hak, hreach⟩
    refine ⟨by omega, fun row hrow => ?_⟩
    have hi : k - a < rows.length := by omega
    have hlt := hascending (k - a) (k - a + 1) hi (by omega) (by omega)
    have hbelow := hreach rows[k - a] (getElem?_eq_getElem hi)
    rw [show k + 1 - a = k - a + 1 by omega, getElem?_eq_getElem (by omega)] at hrow
    obtain rfl := Option.some.inj hrow
    omega
  have hprobe : ∀ k, 0 ≤ k → k < lastBlockNum + 1 →
      probe ((0, m) :: rows) a txNum k = .ok (decide (reaches k)) := by
    intro k _ hk
    rw [probe]
    split
    · rename_i hka
      rw [decide_eq_false (fun hreach : reaches k => absurd hreach.1 (by omega))]
    · rename_i hka
      have hi : k - a < rows.length := by omega
      have hmax := h.maxTxNum_row hi
      rw [show a + (k - a) = k by omega] at hmax
      have hiff : txNum ≤ rows[k - a].2 ↔ reaches k := by
        simp only [reaches, getElem?_eq_getElem hi, Option.mem_some_iff, forall_eq']
        omega
      rw [hmax]
      exact congrArg Result.ok (decide_eq_decide.mpr hiff)
  obtain ⟨b, hsearch, hb, hbelow, habove⟩ := sortSearch_spec (lastBlockNum + 1)
    (fun k => some (decide (reaches k))) reaches (fun _ _ => rfl) hmono
  have hend : reaches lastBlockNum := by
    refine ⟨by omega, fun row hrow' => ?_⟩
    rw [show lastBlockNum - a = rows.length - 1 by omega, hrow] at hrow'
    obtain rfl := Option.some.inj hrow'
    exact hle
  have hb' : b ≤ lastBlockNum := by
    by_contra hlt
    exact hbelow lastBlockNum (by omega) hend
  obtain ⟨hab, hreach⟩ := habove b le_rfl (by omega)
  have hi : b - a < rows.length := by omega
  refine ⟨b, TxNums.search_eq hprobe hsearch, ⟨rows[b - a].2, ?_, ?_⟩, ?_⟩
  · have hmem := h.row_mem hi
    rwa [show a + (b - a) = b by omega] at hmem
  · exact hreach _ (getElem?_eq_getElem hi)
  · rintro blockNum ⟨y, hmem, hle⟩
    obtain ⟨hablock, hget⟩ := h.mem_iff.mp hmem
    by_contra hlt
    refine hbelow blockNum (by omega) ⟨hablock, fun row hrow => ?_⟩
    rw [hget] at hrow
    obtain rfl := Option.some.inj hrow
    exact hle

theorem Ranged.finds {rows : List (Nat × Nat)} (h : Ranged m a rows) : Finds ((0, m) :: rows) := by
  rintro ⟨lastBlockNum, x⟩ hlast txNum hle
  have hmem := mem_of_getLast? hlast
  have hbound : lastBlockNum ≤ maxInt32 := by
    rcases mem_cons.mp hmem with heq | hrow
    · rw [(Prod.mk.inj heq).1]
      exact Nat.zero_le _
    · exact h.bounded _ hrow
  dsimp only at hle
  rw [findBlockNum, blockNumber, Option.mem_def.mp hlast]
  dsimp only
  rw [if_neg (by omega), if_neg (by omega), Ranged.maxTxNum_zero]
  by_cases hfirst : txNum ≤ m
  · rw [if_pos (by simpa using hfirst)]
    exact ⟨0, rfl, ⟨m, mem_cons_self, hfirst⟩, fun _ _ => Nat.zero_le _⟩
  · rw [if_neg (by simpa using hfirst)]
    have hrows : rows ≠ [] := by
      rintro rfl
      obtain ⟨-, rfl⟩ := Prod.mk.inj (Option.some.inj hlast)
      exact hfirst hle
    obtain ⟨y, hlast', hrow⟩ := h.getLast? hrows
    obtain ⟨hblock, rfl⟩ := Prod.mk.inj (Option.some.inj (hlast.symm.trans hlast'))
    rw [← hblock] at hrow
    obtain ⟨b, hsearch, ⟨z, hz, hreach⟩, hleast⟩ := h.search_eq hblock hrow hle
    have hlength := length_pos_iff.mpr hrows
    rw [getElem?_cons_succ, getElem?_eq_getElem hlength]
    dsimp only
    rw [h.fst_getElem hlength, Nat.add_zero, hsearch]
    refine ⟨b, rfl, ⟨z, mem_cons_of_mem _ hz, hreach⟩, ?_⟩
    rintro blockNum ⟨w, hw, hwle⟩
    rcases mem_cons.mp hw with heq | hw
    · obtain ⟨-, rfl⟩ := Prod.mk.inj heq
      exact absurd hwle hfirst
    · exact hleast ⟨w, hw, hwle⟩

/-! ### Truncation -/

/-- Rows that follow one another are all deleted. -/
theorem truncateLoop_eq {prevBlockNum c : Nat} {rest : List (Nat × Nat)}
    (hblocks : rest.map Prod.fst = List.range' c rest.length)
    (hc : c = prevBlockNum + 1 ∨ c = blockNum) (hbound : ∀ row ∈ rest, row.1 ≤ maxInt32) (t : Table) :
    truncateLoop blockNum prevBlockNum rest t =
      (t.filter fun row => decide (row.1 ∉ rest.map Prod.fst), none) := by
  induction rest generalizing prevBlockNum c t with
  | nil => simp [truncateLoop]
  | cons row rest ih =>
    obtain ⟨current, x⟩ := row
    rw [map_cons, length_cons, List.range'_succ, List.cons.injEq] at hblocks
    obtain ⟨rfl, hblocks⟩ := hblocks
    have hcurrent : current ≤ maxInt32 := hbound _ mem_cons_self
    rw [maxInt32] at hcurrent
    rw [truncateLoop, if_neg (by omega), ih hblocks (.inl rfl)
      (fun row hrow => hbound row (mem_cons_of_mem _ hrow)), filter_filter]
    refine congrArg (·, none) (filter_congr fun row _ => ?_)
    rw [map_cons, Bool.eq_iff_iff]
    simp only [Bool.and_eq_true, decide_eq_true_iff, mem_cons, not_or]
    exact and_comm

namespace Ranged

variable {m a : Nat} {rows : List (Nat × Nat)}

theorem dropWhile_eq (hblocks : rows.map Prod.fst = List.range' a rows.length) (blockNum : Nat) :
    rows.dropWhile (fun row => decide (row.1 < blockNum)) = rows.drop (blockNum - a) := by
  induction rows generalizing a with
  | nil => simp
  | cons row rows ih =>
    obtain ⟨current, x⟩ := row
    rw [map_cons, length_cons, List.range'_succ, List.cons.injEq] at hblocks
    obtain ⟨rfl, hblocks⟩ := hblocks
    by_cases hlt : current < blockNum
    · rw [dropWhile_cons_of_pos (by simpa using hlt), ih hblocks,
        show blockNum - current = blockNum - (current + 1) + 1 by omega, drop_succ_cons]
    · rw [dropWhile_cons_of_neg (by simpa using hlt),
        show blockNum - current = 0 by omega, drop_zero]

theorem filter_drop (h : Ranged m a rows) (k : Nat) :
    ((0, m) :: rows).filter (fun row => decide (row.1 ∉ (rows.drop k).map Prod.fst)) =
      (0, m) :: rows.take k := by
  have hpos := h.one_le
  have hnodup : ((rows.take k ++ rows.drop k).map Prod.fst).Nodup := by
    rw [take_append_drop, h.blocks]
    exact nodup_range'
  rw [map_append] at hnodup
  have hdisjoint := disjoint_of_nodup_append hnodup
  have hzero : 0 ∉ (rows.drop k).map Prod.fst := by
    intro hmem
    have hblock : 0 ∈ List.range' a rows.length := by
      rw [← h.blocks]
      exact map_subset _ (drop_subset k rows) hmem
    rw [mem_range'_1] at hblock
    omega
  rw [filter_cons_of_pos (by simpa using hzero)]
  have hsplit : ∀ keep : Nat × Nat → Bool,
      rows.filter keep = (rows.take k).filter keep ++ (rows.drop k).filter keep := by
    intro keep
    rw [← filter_append, take_append_drop]
  rw [hsplit, filter_eq_self.mpr, filter_eq_nil_iff.mpr, append_nil]
  · intro row hrow hkept
    exact of_decide_eq_true hkept (mem_map_of_mem hrow)
  · intro row hrow
    exact decide_eq_true (hdisjoint (mem_map_of_mem hrow))

/-- A table without gaps is cut off somewhere, or is left as it is. -/
theorem truncate_eq (h : Ranged m a rows) {blockNum : Nat} (hblock : 1 ≤ blockNum) :
    ∃ k, (truncate ((0, m) :: rows) blockNum).1 = (0, m) :: rows.take k := by
  have hrest : ((0, m) :: rows).dropWhile (fun row => decide (row.1 < blockNum)) =
      rows.drop (blockNum - a) := by
    rw [dropWhile_cons_of_pos (by simp; omega), dropWhile_eq h.blocks]
  have hblocks : (rows.drop (blockNum - a)).map Prod.fst =
      List.range' (a + (blockNum - a)) (rows.drop (blockNum - a)).length := by
    rw [map_drop, h.blocks]
    exact ext_getElem (by simp) (by simp)
  have hbound : ∀ row ∈ rows.drop (blockNum - a), row.1 ≤ maxInt32 :=
    fun row hrow => h.bounded row (mem_of_mem_drop hrow)
  rw [truncate, hrest]
  by_cases hfollows : a + (blockNum - a) = blockNum + 1 ∨ a + (blockNum - a) = blockNum
  · refine ⟨blockNum - a, ?_⟩
    rw [truncateLoop_eq hblocks hfollows hbound, h.filter_drop]
  · refine ⟨rows.length, ?_⟩
    rw [take_length]
    cases hcases : rows.drop (blockNum - a) with
    | nil => rfl
    | cons row rest =>
      obtain ⟨current, x⟩ := row
      rw [hcases, map_cons, length_cons, List.range'_succ, List.cons.injEq] at hblocks
      have hcurrent : current = a + (blockNum - a) := hblocks.1
      have hsmall : current ≤ maxInt32 := hbound _ (hcases ▸ mem_cons_self)
      rw [maxInt32] at hsmall
      rw [truncateLoop, if_pos (by omega)]

end Ranged

/-! ### Runs without gaps -/

variable {t : Table}

/-- What an append that is taken does. -/
theorem append_eq_ok {t' : Table} (happend : append t blockNum x = .ok t') :
    t' = t ++ [(blockNum, x)] ∧ ∀ last ∈ t.getLast?, last.1 < blockNum ∧
      (1 < last.1 → (last.1 + 1) % 2 ^ 64 = blockNum) := by
  rw [append] at happend
  cases hlast : t.getLast? with
  | none =>
    rw [hlast] at happend
    obtain rfl := getLast?_eq_none_iff.mp hlast
    injection happend with happend
    exact ⟨happend.symm, by simp⟩
  | some last =>
    rw [hlast] at happend
    dsimp only at happend
    split at happend
    · cases happend
    · split at happend
      · cases happend
      · rename_i hgap hbehind
        injection happend with happend
        refine ⟨happend.symm, fun last' hlast' => ?_⟩
        obtain rfl := Option.some.inj hlast'
        exact ⟨by omega, fun hlt => by_contra fun hne => hgap ⟨hlt, hne⟩⟩

/-- Tables without gaps, before and after the first call. -/
def Gapless (t : Table) : Prop := t = [] ∨ ∃ m a rows, t = (0, m) :: rows ∧ Ranged m a rows

theorem Gapless.sound (h : Gapless t) : Contiguous t ∧ Finds t := by
  obtain rfl | ⟨m, a, rows, rfl, hranged⟩ := h
  · exact ⟨.inl rfl, by simp [Finds]⟩
  · exact ⟨.inr ⟨a, rows.length, by rw [map_cons, hranged.blocks]⟩, hranged.finds⟩

theorem Ranged.append {rows : List (Nat × Nat)} (h : Ranged m a rows)
    (hnext : rows ≠ [] → blockNum = a + rows.length) (hpos : 1 ≤ blockNum)
    (hbound : blockNum ≤ maxInt32) (hx : ∀ row ∈ (0, m) :: rows, row.2 < x) :
    ∃ a', Ranged m a' (rows ++ [(blockNum, x)]) := by
  have hascending : ((0, m) :: (rows ++ [(blockNum, x)])).Pairwise fun y z => y.2 < z.2 := by
    rw [← cons_append, pairwise_append]
    refine ⟨h.ascending, pairwise_singleton _ _, fun row hrow last hlast => ?_⟩
    obtain rfl := mem_singleton.mp hlast
    exact hx row hrow
  have hbounded : ∀ row ∈ rows ++ [(blockNum, x)], row.1 ≤ maxInt32 :=
    forall_mem_append.mpr ⟨h.bounded, forall_mem_singleton.mpr hbound⟩
  by_cases hrows : rows = []
  · subst hrows
    exact ⟨blockNum, hpos, rfl, hascending, hbounded⟩
  · refine ⟨a, h.one_le, ?_, hascending, hbounded⟩
    rw [map_append, h.blocks, length_append, length_singleton, List.range'_1_concat, hnext hrows]
    rfl

theorem Ranged.snd_le_last {rows : List (Nat × Nat)} (h : Ranged m a rows) {last : Nat × Nat}
    (hlast : ((0, m) :: rows).getLast? = some last) :
    ∀ row ∈ (0, m) :: rows, row.2 ≤ last.2 :=
  le_of_getLast? (h.ascending.imp le_of_lt) hlast

/-- Calls that are safe leave no gap. -/
theorem Gapless.apply (h : Gapless t) {c : Call} (hfits : c.Fits t) (hsafe : c.Safe t) :
    Gapless (c.apply t) := by
  cases c with
  | truncate blockNum =>
    obtain rfl | ⟨m, a, rows, rfl, hranged⟩ := h
    · exact .inl rfl
    · obtain ⟨k, hk⟩ := hranged.truncate_eq hfits.1
      exact .inr ⟨m, a, rows.take k, hk, hranged.take k⟩
  | append blockNum x =>
    rw [Call.apply]
    split
    · rename_i t' happend
      obtain ⟨rfl, hbehind⟩ := append_eq_ok happend
      obtain ⟨hbound, hone⟩ := hsafe _ happend
      obtain rfl | ⟨m, a, rows, rfl, hranged⟩ := h
      · obtain rfl := hfits.2.2.1 rfl
        exact .inr ⟨x, 1, [], rfl, le_rfl, rfl, pairwise_singleton _ _, by simp⟩
      · obtain ⟨last, hlast⟩ : ∃ last, ((0, m) :: rows).getLast? = some last :=
          ⟨_, getLast?_cons⟩
        have habove := hfits.2.2.2 last hlast
        rw [hlast] at hbehind hone
        obtain ⟨hlt, hgap⟩ := hbehind last rfl
        have hnext : rows ≠ [] → blockNum = a + rows.length := by
          intro hrows
          obtain ⟨y, hlast', hrow⟩ := hranged.getLast? hrows
          obtain rfl := Option.some.inj (hlast.symm.trans hlast')
          have hsmall := hranged.bounded _ (mem_of_getElem? hrow)
          have hpos := hranged.one_le
          have hlength := length_pos_iff.mpr hrows
          have htwo := hone _ rfl
          rw [maxInt32] at hsmall
          dsimp only at hlt hgap htwo hsmall
          omega
        obtain ⟨a', hranged'⟩ := hranged.append hnext (by omega) hbound fun row hrow =>
          (hranged.snd_le_last hlast row hrow).trans_lt habove.2
        exact .inr ⟨m, a', _, rfl, hranged'⟩
    · exact h

/-- Behind block one only block two goes on with the range. -/
theorem Gapless.jump (h : Gapless t) {last : Nat × Nat} (hlast : t.getLast? = some last)
    (hone : last.1 = 1) (hcontiguous : Contiguous (t ++ [(blockNum, x)])) : blockNum = 2 := by
  obtain rfl | ⟨m, a, rows, rfl, hranged⟩ := h
  · cases hlast
  · have hrows : rows ≠ [] := by
      rintro rfl
      obtain rfl := Option.some.inj hlast
      cases hone
    obtain ⟨y, hlast', -⟩ := hranged.getLast? hrows
    obtain rfl := Option.some.inj (hlast.symm.trans hlast')
    have hpos := hranged.one_le
    have hlength := length_pos_iff.mpr hrows
    dsimp only at hone
    have hblocks := hranged.blocks
    rw [show a = 1 by omega, show rows.length = 1 by omega] at hblocks
    obtain hnil | ⟨a', n, hrange⟩ := hcontiguous
    · simp at hnil
    · rw [map_append, map_cons, hblocks] at hrange
      have hn := congrArg List.length hrange
      simp only [length_append, length_cons, length_range', length_map, length_nil] at hn
      obtain rfl : n = 2 := by omega
      simp [List.range'] at hrange
      omega

/-- A call that is not safe leaves a table that is not sound. -/
theorem Gapless.not_sound (h : Gapless t) {c : Call} (hfits : c.Fits t) (hbad : ¬ c.Safe t) :
    ¬ (Contiguous (c.apply t) ∧ Finds (c.apply t)) := by
  cases c with
  | truncate blockNum => exact absurd trivial hbad
  | append blockNum x =>
    rw [Call.Safe] at hbad
    push Not at hbad
    obtain ⟨t', happend, hjump⟩ := hbad
    have hresult : Call.apply t (.append blockNum x) = t' := by rw [Call.apply, happend]
    obtain ⟨rfl, hbehind⟩ := append_eq_ok happend
    rw [hresult]
    rintro ⟨hcontiguous, hfinds⟩
    by_cases hbound : blockNum ≤ maxInt32
    · obtain ⟨last, hlast, hone, htwo⟩ := hjump hbound
      exact htwo (h.jump hlast hone hcontiguous)
    · -- The search does not start with a last block of this size.
      obtain ⟨b, hfound, -⟩ := hfinds (blockNum, x) (by simp) x le_rfl
      rw [findBlockNum, blockNumber, getLast?_concat] at hfound
      dsimp only at hfound
      rw [if_neg (Nat.lt_irrefl x), if_pos (by omega)] at hfound
      cases hfound

theorem Gapless.throughout_iff (h : Gapless t) {calls : List Call}
    (hfits : AllCalls Call.Fits t calls) :
    Throughout (fun t => Contiguous t ∧ Finds t) t calls ↔ AllCalls Call.Safe t calls := by
  induction calls generalizing t with
  | nil => exact ⟨fun _ => trivial, fun _ => h.sound⟩
  | cons c calls ih =>
    obtain ⟨hfits, hrest⟩ := hfits
    rw [Throughout, AllCalls, and_iff_right h.sound]
    by_cases hsafe : c.Safe t
    · rw [ih (h.apply hfits hsafe) hrest, and_iff_right hsafe]
    · refine iff_of_false (fun hsound => ?_) fun hcalls => hsafe hcalls.1
      refine h.not_sound hfits hsafe ?_
      cases calls with
      | nil => exact hsound
      | cons d calls => exact hsound.1

/-- The stored blocks are block zero and one range, and the block of every covered
transaction is found, at all times of a run if and only if its calls are safe. -/
theorem throughout_sound_iff (calls : List Call) (hfits : AllCalls Call.Fits [] calls) :
    Throughout (fun t => Contiguous t ∧ Finds t) [] calls ↔ AllCalls Call.Safe [] calls :=
  Gapless.throughout_iff (.inl rfl) hfits

/-- Blocks that are appended one after another, with a cut in between. -/
theorem throughout_sound_five :
    Throughout (fun t => Contiguous t ∧ Finds t) []
      [.append 0 0, .append 3 5, .append 4 7, .truncate 4, .append 4 9] := by
  refine (throughout_sound_iff _ ?_).mpr ?_
  · refine ⟨?_, ?_, ?_, ?_, ?_, trivial⟩ <;> decide
  · refine ⟨?_, ?_, ?_, trivial, ?_, trivial⟩
    all_goals
      rintro t' -
      exact ⟨by decide, by decide⟩

/-- Block five is taken behind block one, and then the search meets block three. -/
theorem findBlockNum_error_of_gap :
    AllCalls Call.Fits [] [.append 0 0, .append 1 1, .append 5 2] ∧
      ([.append 0 0, .append 1 1, .append 5 2] : List Call).foldl (fun t c => c.apply t) [] =
        [(0, 0), (1, 1), (5, 2)] ∧
      ¬ Contiguous [(0, 0), (1, 1), (5, 2)] ∧
      findBlockNum [(0, 0), (1, 1), (5, 2)] 2 =
        .error "BlockNum(3): seems broken TxNum value: 2 -> 0; db has: (0-0, 5-2)" := by
  refine ⟨⟨by decide, by decide, by decide, trivial⟩, by decide, ?_, by decide⟩
  rintro (hnil | ⟨a, n, hrange⟩)
  · cases hnil
  · have hn := congrArg List.length hrange
    simp only [map_cons, map_nil, length_cons, length_nil, length_range'] at hn
    obtain rfl : n = 2 := by omega
    simp [List.range'] at hrange
    omega

end TxNums

end Erigon
