/-
Iteration over the latest values of the keys with a given beginning
(`DomainRoTx.debugIteratePrefixLatest`).  One heap has a cursor of the RAM map,
one of the values table and one of every file; among cursors at one key the
greatest `endTxNum` comes first.  The files are read through their B-tree
accessor, whose `Seek` finds the first key that is not less.
-/
import Erigon.DupTable
import Erigon.KWayMerge
import Erigon.SimpleSequence
import Erigon.SortedPairs
import Mathlib.Order.CompletePartialOrder

namespace Erigon

open List DupTable

namespace PrefixLatest

/-- A value in the DB: the inverted step, in the table's first eight bytes, and
the data. -/
abbrev DomainValues := DupTable Bytes (Nat ×ₗ Bytes)

abbrev RamMap := SortedPairs Bytes Bytes

structure DomainFile where
  endTxNum : Nat
  pairs : SortedPairs Bytes Bytes

/-- What a cursor stands at. -/
structure Entry where
  key : Bytes
  val : Bytes
  step : Nat
  endTxNum : Nat
  deriving DecidableEq

inductive CursorSource
  | ram (rest : List (Bytes × Bytes))
  | db (table : DomainValues)
  | file (rest : List (Bytes × Bytes))

structure CursorItem extends Entry where
  source : CursorSource

/-- `CursorHeap.Less`. -/
def less (reverse : Bool) (c d : CursorItem) : Bool :=
  if c.key = d.key then
    if reverse then decide (d.endTxNum < c.endTxNum) else decide (c.endTxNum < d.endTxNum)
  else decide (c.key < d.key)

/-- `bytes.Equal(cp[0].key, lastKey)`. -/
def sameKey (top c : CursorItem) : Bool := decide (c.key = top.key)

/-- `kv.Step(^binary.BigEndian.Uint64(v[:8]))`. -/
def stepOf (v : Nat ×ₗ Bytes) : Nat := maxUint64 - (ofLex v).1

def dataOf (v : Nat ×ₗ Bytes) : Bytes := (ofLex v).2

def toTxNum (step stepSize : Nat) : Nat := step * stepSize % 2 ^ 64

/-! ### Cursors -/

section Cursors

variable (pre : Bytes)

def ramCursor (ram : RamMap) : Option CursorItem :=
  match ram.seek pre with
  | [] => none
  | (k, v) :: rest =>
    if 0 < k.length ∧ pre.isPrefixOf k then some ⟨⟨k, v, 0, maxUint64⟩, .ram rest⟩ else none

def dbCursor (table : DomainValues) : Option CursorItem :=
  match table.seek pre with
  | none => none
  | some (k, v) =>
    if 0 < k.length ∧ pre.isPrefixOf k then
      some ⟨⟨k, dataOf v, stepOf v, maxUint64⟩, .db table⟩
    else none

def fileCursor (item : DomainFile) : Option CursorItem :=
  match item.pairs.seek pre with
  | [] => none
  | (k, v) :: rest =>
    if pre.isPrefixOf k then some ⟨⟨k, v, 0, sub64 item.endTxNum 1⟩, .file rest⟩ else none

/-- The cursor after a step, unless it leaves the keys that begin with `pre`. -/
def next (stepSize : Nat) (c : CursorItem) : Option CursorItem :=
  match c.source with
  | .ram [] => none
  | .ram ((k, v) :: rest) =>
    if pre.isPrefixOf k then some ⟨⟨k, v, c.step, c.endTxNum⟩, .ram rest⟩ else none
  | .file [] => none
  | .file ((k, v) :: rest) =>
    if pre.isPrefixOf k then some ⟨⟨k, v, c.step, c.endTxNum⟩, .file rest⟩ else none
  | .db table =>
    match table.nextNoDup c.key with
    | none => none
    | some (k, v) =>
      if 0 < k.length ∧ pre.isPrefixOf k then
        some ⟨⟨k, dataOf v, stepOf v, toTxNum (stepOf v) stepSize⟩, .db table⟩
      else none

def cursors (ram : RamMap) (table : DomainValues) (files : List DomainFile) :
    List CursorItem :=
  (ramCursor pre ram).toList ++ (dbCursor pre table).toList ++ files.filterMap (fileCursor pre)

end Cursors

/-! ### The loop -/

section Iterate

variable {S E : Type}

/-- Why an iteration ends early: `it` fails, or it asks not to go on. -/
inductive Halt (S E : Type)
  | failed (err : E)
  | stopped (s : S)

def Halt.result : Except (Halt S E) S → Except E S
  | .ok s => .ok s
  | .error (.stopped s) => .ok s
  | .error (.failed err) => .error err

variable (it : S → Bytes → Bytes → Nat → Except E (S × Bool))

def call (s : S) (e : Entry) :
    Except (Halt S E) S :=
  match it s e.key e.val e.step with
  | .error err => .error (.failed err)
  | .ok (s', true) => .ok s'
  | .ok (s', false) => .error (.stopped s')

/-- What is done for a key, with the entry that came first; an empty value is that
of a deleted key. -/
def report (s : S) (e : Entry) :
    Except (Halt S E) S :=
  if 0 < e.val.length then call it s e else .ok s

/-- A pass of the loop over one key: its first cursor is the root `cp[0]`. -/
def pass (s : S) :
    List CursorItem → Except (Halt S E) S
  | [] => .ok s
  | top :: _ => report it s top.toEntry

def debugIteratePrefixLatest (pre : Bytes) (ram : RamMap) (table : DomainValues)
    (files : List DomainFile) (stepSize : Nat)
    (it : S → Bytes → Bytes → Nat → Except E (S × Bool)) (s : S) : Except E S :=
  let cp := (cursors pre ram table files).foldl (BinaryHeap.push (less true)) #[]
  let fuel := ram.pairs.length + table.entries.length +
    (files.map fun f => f.pairs.pairs.length).sum
  Halt.result (runLoop (less true) sameKey (next pre stepSize) (pass it) fuel cp s)

end Iterate

/-! ### Entries before a cursor -/

section Entries

/-- The order of the heap: by key, then the greater `endTxNum` first. -/
def Entry.rank (e : Entry) : Bytes ×ₗ Natᵒᵈ := toLex (e.key, OrderDual.toDual e.endTxNum)

theorem Entry.rank_le_iff {e f : Entry} :
    e.rank ≤ f.rank ↔ e.key < f.key ∨ e.key = f.key ∧ f.endTxNum ≤ e.endTxNum :=
  Prod.Lex.toLex_le_toLex

def CursorItem.rank (c : CursorItem) : (Bytes ×ₗ Natᵒᵈ) ×ₗ Unit := toLex (c.toEntry.rank, ())

theorem less_eq (c d : CursorItem) : less true c d = decide (c.rank < d.rank) := by
  rw [less, Bool.eq_iff_iff, decide_eq_true_iff, CursorItem.rank, CursorItem.rank,
    Prod.Lex.toLex_lt_toLex, Entry.rank, Entry.rank, Prod.Lex.toLex_lt_toLex]
  by_cases hkey : c.key = d.key
  · simp [hkey]
  · simp [hkey]

variable (pre : Bytes) (stepSize : Nat)

def dbEntry (a : Bytes × (Nat ×ₗ Bytes)) : Entry :=
  ⟨a.1, dataOf a.2, stepOf a.2, toTxNum (stepOf a.2) stepSize⟩

/-- The entries behind the one a cursor stands at. -/
def upcoming (c : CursorItem) : List Entry :=
  match c.source with
  | .ram rest | .file rest => (rest.takeWhile fun a => pre.isPrefixOf a.1).map fun a =>
    ⟨a.1, a.2, c.step, c.endTxNum⟩
  | .db table => ((table.firstsAfter c.key).takeWhile fun a => pre.isPrefixOf a.1).map
      (dbEntry stepSize)

def entries (c : CursorItem) : List Entry := c.toEntry :: upcoming pre stepSize c

theorem length_pos_of_lt {k l : Bytes} (hlt : k < l) : 0 < l.length :=
  length_pos_iff.mpr fun hnil => not_lt.mpr (nil_le_bytes k) (hnil ▸ hlt)

theorem next_upcoming (c : CursorItem) :
    (upcoming pre stepSize c = [] ∧ next pre stepSize c = none) ∨
      ∃ c', next pre stepSize c = some c' ∧
        upcoming pre stepSize c = entries pre stepSize c' := by
  obtain ⟨e, source⟩ := c
  cases source with
  | ram rest | file rest =>
    cases rest with
    | nil => exact .inl ⟨rfl, rfl⟩
    | cons a rest =>
      cases hpre : pre.isPrefixOf a.1 with
      | false => exact .inl (by simp [upcoming, next, hpre])
      | true => exact .inr (by simp [upcoming, next, entries, hpre])
  | db table =>
    cases hnext : table.nextNoDup e.key with
    | none =>
      have hnil := firstsAfter_eq_nil hnext
      exact .inl (by simp [upcoming, next, hnil, hnext])
    | some a =>
      have hcons := firstsAfter_eq_cons hnext
      have hpos := length_pos_of_lt (lt_of_nextNoDup hnext)
      cases hpre : pre.isPrefixOf a.1 with
      | false => exact .inl (by simp [upcoming, next, hcons, hnext, hpre])
      | true =>
        refine .inr ?_
        simp [upcoming, next, entries, hcons, hnext, hpre, hpos, dbEntry]

theorem next_advances : Advances Entry.rank CursorItem.rank
    (fun c stream => stream = ((), entries pre stepSize c)) CursorItem.toEntry
    (next pre stepSize) := by
  refine ⟨fun c p items hc => ?_⟩
  cases hc
  refine ⟨upcoming pre stepSize c, rfl, rfl, ?_⟩
  rcases next_upcoming pre stepSize c with hnil | ⟨c', hnext, hup⟩
  · exact .inl hnil
  · exact .inr ⟨c', hnext, by rw [hup]⟩

end Entries

/-! ### Entries of the sources -/

section Sources

variable (pre : Bytes) (ram : RamMap) (table : DomainValues) (files : List DomainFile)
  (stepSize : Nat)

def pairEntry (endTxNum : Nat) (a : Bytes × Bytes) : Entry := ⟨a.1, a.2, 0, endTxNum⟩

/-- The `endTxNum` a DB cursor has at a key: only the first key of the walk gets
the greatest number. -/
def dbEndTxNum (k : Bytes) (step : Nat) : Nat :=
  if (table.seek pre).map Prod.fst = some k then maxUint64 else toTxNum step stepSize

/-- What the sources have for a key, as the heap sees it. -/
def entriesOf (k : Bytes) : List Entry :=
  ((ram.get k).map fun v => ⟨k, v, 0, maxUint64⟩).toList ++
    ((table.first k).map fun a =>
      ⟨k, dataOf a.2, stepOf a.2, dbEndTxNum pre table stepSize k (stepOf a.2)⟩).toList ++
    files.filterMap fun f => (f.pairs.get k).map fun v => ⟨k, v, 0, sub64 f.endTxNum 1⟩

/-- The newest value of a key: RAM before the DB, the DB before the files, later
files before earlier ones.  The first entry of a key in the DB has its greatest
step. -/
def newest (k : Bytes) : Option Bytes :=
  (ram.get k).or (((table.first k).map fun a => dataOf a.2).or
    (files.reverse.findSome? fun f => f.pairs.get k))

variable {pre ram table files stepSize}

/-- A cursor of pairs, at the first that begins with `pre`. -/
def pairCursor (pre : Bytes) (m : SortedPairs Bytes Bytes) (endTxNum : Nat)
    (source : List (Bytes × Bytes) → CursorSource) : Option CursorItem :=
  match m.seek pre with
  | [] => none
  | a :: rest =>
    if pre.isPrefixOf a.1 then some ⟨pairEntry endTxNum a, source rest⟩ else none

theorem pairCursor_entries (stepSize : Nat) (m : SortedPairs Bytes Bytes) (endTxNum : Nat)
    {source : List (Bytes × Bytes) → CursorSource} (hsource : source = .ram ∨ source = .file) :
    (pairCursor pre m endTxNum source).toList.flatMap (entries pre stepSize) =
      (m.pairs.filter fun a => pre.isPrefixOf a.1).map (pairEntry endTxNum) := by
  rw [← m.takeWhile_seek, pairCursor]
  cases m.seek pre with
  | nil => rfl
  | cons a rest =>
    cases hpre : pre.isPrefixOf a.1 with
    | false => simp [hpre]
    | true =>
      rw [takeWhile_cons_of_pos (by simp [hpre]), map_cons]
      rcases hsource with rfl | rfl <;> simp [hpre, entries, upcoming, pairEntry]

theorem fileCursor_entries (stepSize : Nat) (f : DomainFile) :
    (fileCursor pre f).toList.flatMap (entries pre stepSize) =
      (f.pairs.pairs.filter fun a => pre.isPrefixOf a.1).map
        (pairEntry (sub64 f.endTxNum 1)) := by
  rw [← pairCursor_entries stepSize f.pairs _ (.inr rfl), fileCursor, pairCursor]
  cases f.pairs.seek pre <;> rfl

theorem length_pos_of_isPrefixOf {k : Bytes} (hpre : pre.isPrefixOf k = true)
    (hne : pre = [] → k ≠ []) : 0 < k.length := by
  refine length_pos_iff.mpr fun hnil => ?_
  rw [hnil, isPrefixOf_iff_prefix, prefix_nil] at hpre
  exact hne hpre hnil

theorem ramCursor_entries (hkeys : pre = [] → ram.get [] = none) :
    (ramCursor pre ram).toList.flatMap (entries pre stepSize) =
      (ram.pairs.filter fun a => pre.isPrefixOf a.1).map (pairEntry maxUint64) := by
  rw [← pairCursor_entries stepSize ram _ (.inl rfl), ramCursor, pairCursor]
  cases hseek : ram.seek pre with
  | nil => rfl
  | cons a rest =>
    cases hpre : pre.isPrefixOf a.1 with
    | false => simp [hpre]
    | true =>
      have hmem : a ∈ ram.pairs :=
        (dropWhile_sublist _).subset (hseek ▸ mem_cons_self : a ∈ ram.seek pre)
      have hpos := length_pos_of_isPrefixOf hpre fun hempty hnil => by
        have hsome : ram.get [] = some a.2 := ram.get_eq_some.mpr (hnil ▸ hmem)
        rw [hkeys hempty] at hsome
        cases hsome
      simp [hpre, hpos, pairEntry]

/-- The entry of the DB at a key of the walk. -/
def dbWalkEntry (pre : Bytes) (table : DomainValues) (stepSize : Nat)
    (a : Bytes × (Nat ×ₗ Bytes)) : Entry :=
  ⟨a.1, dataOf a.2, stepOf a.2, dbEndTxNum pre table stepSize a.1 (stepOf a.2)⟩

theorem firstsFrom_takeWhile (pre : Bytes) (table : DomainValues) :
    (table.firstsFrom pre).takeWhile (fun a => pre.isPrefixOf a.1) =
      (table.firstsFrom pre).filter fun a => pre.isPrefixOf a.1 :=
  takeWhile_isPrefixOf (table.firstsIn_sorted _) fun _ ha => (mem_firstsFrom.mp ha).1

theorem dbCursor_entries (hkeys : pre = [] → table.first [] = none) :
    (dbCursor pre table).toList.flatMap (entries pre stepSize) =
      ((table.firstsFrom pre).filter fun a => pre.isPrefixOf a.1).map
        (dbWalkEntry pre table stepSize) := by
  rw [← firstsFrom_takeWhile, dbCursor]
  cases hseek : table.seek pre with
  | none =>
    rw [DupTable.firstsFrom, firstsIn_eq_nil hseek]
    rfl
  | some a =>
    rw [firstsFrom_eq_cons hseek]
    cases hpre : pre.isPrefixOf a.1 with
    | false => simp [hpre]
    | true =>
      have hfirst : table.first a.1 = some a := first_of_find? hseek
      have hpos := length_pos_of_isPrefixOf hpre fun hempty hnil => by
        rw [hnil, hkeys hempty] at hfirst
        cases hfirst
      rw [takeWhile_cons_of_pos (by simp [hpre]), map_cons]
      simp only [hpre, hpos, and_self, if_true, Option.toList_some, flatMap_singleton]
      refine congrArg₂ List.cons ?_ (map_congr_left fun b hb => ?_)
      · simp [dbWalkEntry, dbEndTxNum, hseek]
      · -- The keys behind the first one are different from it.
        have hlt : a.1 < b.1 := (mem_firstsAfter.mp
          ((takeWhile_sublist _).subset hb)).1
        simp [dbEntry, dbWalkEntry, dbEndTxNum, hseek, hlt.ne]

section

variable (hram : pre = [] → ram.get [] = none) (htable : pre = [] → table.first [] = none)

include hram htable

theorem cursors_entries : (cursors pre ram table files).flatMap (entries pre stepSize) =
      (ram.pairs.filter fun a => pre.isPrefixOf a.1).map (pairEntry maxUint64) ++
      ((table.firstsFrom pre).filter fun a => pre.isPrefixOf a.1).map
        (dbWalkEntry pre table stepSize) ++
      files.flatMap fun f => (f.pairs.pairs.filter fun a => pre.isPrefixOf a.1).map
        (pairEntry (sub64 f.endTxNum 1)) := by
  rw [cursors, flatMap_append, flatMap_append, ramCursor_entries hram, dbCursor_entries htable]
  congr 1
  induction files with
  | nil => rfl
  | cons f files ih =>
    rw [flatMap_cons, ← fileCursor_entries stepSize, ← ih]
    cases hcursor : fileCursor pre f with
    | none => simp [hcursor]
    | some c => simp [hcursor]

/-- The cursors see the keys that begin with `pre`, with what the sources have. -/
theorem mem_cursors_entries (e : Entry) :
    e ∈ (cursors pre ram table files).flatMap (entries pre stepSize) ↔
      pre <+: e.key ∧ e ∈ entriesOf pre ram table files stepSize e.key := by
  have hpairs : ∀ (m : SortedPairs Bytes Bytes) endTxNum,
      e ∈ (m.pairs.filter fun a => pre.isPrefixOf a.1).map (pairEntry endTxNum) ↔
        pre <+: e.key ∧ ∃ v, m.get e.key = some v ∧ ⟨e.key, v, 0, endTxNum⟩ = e := by
    intro m endTxNum
    rw [mem_map]
    constructor
    · rintro ⟨a, ha, rfl⟩
      obtain ⟨hmem, hpre⟩ := mem_filter.mp ha
      exact ⟨List.isPrefixOf_iff_prefix.mp hpre, a.2, m.get_eq_some.mpr hmem, rfl⟩
    · rintro ⟨hpre, v, hv, heq⟩
      exact ⟨(e.key, v), mem_filter.mpr
        ⟨m.get_eq_some.mp hv, isPrefixOf_iff_prefix.mpr hpre⟩, heq⟩
  have hdb : e ∈ ((table.firstsFrom pre).filter fun a => pre.isPrefixOf a.1).map
        (dbWalkEntry pre table stepSize) ↔
      pre <+: e.key ∧ ∃ a, table.first e.key = some a ∧
        ⟨e.key, dataOf a.2, stepOf a.2, dbEndTxNum pre table stepSize e.key (stepOf a.2)⟩ = e := by
    rw [mem_map]
    constructor
    · rintro ⟨a, ha, rfl⟩
      obtain ⟨hmem, hpre⟩ := mem_filter.mp ha
      exact ⟨List.isPrefixOf_iff_prefix.mp hpre, a, (mem_firstsFrom.mp hmem).2, rfl⟩
    · rintro ⟨hpre, a, hfirst, heq⟩
      have hkey := first_fst hfirst
      refine ⟨a, mem_filter.mpr ⟨mem_firstsFrom.mpr ⟨?_, hkey ▸ hfirst⟩, ?_⟩, ?_⟩
      · rw [hkey]
        exact le_of_isPrefix hpre
      · rw [hkey]
        exact isPrefixOf_iff_prefix.mpr hpre
      · rw [dbWalkEntry, hkey]
        exact heq
  rw [cursors_entries hram htable, mem_append, mem_append, hpairs, hdb,
    mem_flatMap, entriesOf, mem_append, mem_append, mem_filterMap]
  simp only [hpairs, Option.mem_toList, Option.map_eq_some_iff]
  constructor
  · rintro ((⟨hpre, h⟩ | ⟨hpre, h⟩) | ⟨f, hf, hpre, h⟩)
    · exact ⟨hpre, .inl (.inl h)⟩
    · exact ⟨hpre, .inl (.inr h)⟩
    · exact ⟨hpre, .inr ⟨f, hf, h⟩⟩
  · rintro ⟨hpre, ((h | h) | ⟨f, hf, h⟩)⟩
    · exact .inl (.inl ⟨hpre, h⟩)
    · exact .inl (.inr ⟨hpre, h⟩)
    · exact .inr ⟨f, hf, hpre, h⟩

/-! ### The reports -/

theorem cursors_sorted {c : CursorItem}
    (hc : c ∈ cursors pre ram table files) :
    (entries pre stepSize c).Pairwise fun e f => e.rank ≤ f.rank := by
  have hmap : ∀ {A : Type} {l : List A} {q : A → Bool} {f : A → Entry},
      (l.Pairwise fun a b => (f a).key < (f b).key) →
      ((l.filter q).map f).Pairwise fun e f => e.rank ≤ f.rank := by
    intro A l q f hl
    rw [pairwise_map]
    exact (hl.filter q).imp fun hlt => Entry.rank_le_iff.mpr (.inl hlt)
  have hentries : ∀ {o : Option CursorItem}, o = some c →
      entries pre stepSize c = o.toList.flatMap (entries pre stepSize) := by
    rintro o rfl
    simp
  rw [cursors, mem_append, mem_append, Option.mem_toList, Option.mem_toList, mem_filterMap] at hc
  rcases hc with (hc | hc) | ⟨f, -, hc⟩
  · rw [hentries hc, ramCursor_entries hram]
    exact hmap ram.sorted
  · rw [hentries hc, dbCursor_entries htable]
    exact hmap (table.firstsIn_sorted _)
  · rw [hentries hc, fileCursor_entries]
    exact hmap f.pairs.sorted

theorem pending_cursors_le :
    pending ((cursors pre ram table files).map fun c => ((), entries pre stepSize c)) ≤
      ram.pairs.length + table.entries.length +
        (files.map fun f => f.pairs.pairs.length).sum := by
  have hflat : pending ((cursors pre ram table files).map fun c => ((), entries pre stepSize c)) =
      ((cursors pre ram table files).flatMap (entries pre stepSize)).length := by
    rw [pending, map_map, length_flatMap]
    rfl
  rw [hflat, cursors_entries hram htable, length_append, length_append,
    length_map, length_map, length_flatMap]
  refine Nat.add_le_add (Nat.add_le_add (length_filter_le _ _) ?_) ?_
  · exact (length_filter_le _ _).trans ((length_filterMap_le _ _).trans (table.keysIn_length_le _))
  · refine sum_le_sum fun f _ => ?_
    rw [length_map]
    exact length_filter_le _ _

end

theorem key_of_mem_entriesOf {k : Bytes} {e : Entry}
    (he : e ∈ entriesOf pre ram table files stepSize k) : e.key = k := by
  simp only [entriesOf, mem_append, Option.mem_toList, Option.map_eq_some_iff, mem_filterMap] at he
  rcases he with (⟨v, -, rfl⟩ | ⟨a, -, rfl⟩) | ⟨f, -, v, -, rfl⟩ <;> rfl

theorem exists_entry_of_newest {k v : Bytes} (hnewest : newest ram table files k = some v) :
    ∃ e, e ∈ entriesOf pre ram table files stepSize k := by
  simp only [newest, Option.or_eq_some_iff, Option.map_eq_some_iff] at hnewest
  simp only [entriesOf, mem_append, Option.mem_toList, Option.map_eq_some_iff, mem_filterMap]
  rcases hnewest with hram | ⟨-, ⟨a, htable, -⟩ | ⟨-, hfiles⟩⟩
  · exact ⟨_, .inl (.inl ⟨v, hram, rfl⟩)⟩
  · exact ⟨_, .inl (.inr ⟨a, htable, rfl⟩)⟩
  · obtain ⟨f, hf, hget⟩ := exists_of_findSome?_eq_some hfiles
    exact ⟨_, .inr ⟨f, mem_reverse.mp hf, v, hget, rfl⟩⟩

/-- The keys with the beginning `pre` whose newest value is not empty, each once
and in ascending order, with this value. -/
structure ReportsNewest (pre : Bytes) (ram : RamMap) (table : DomainValues)
    (files : List DomainFile) (reports : List Entry) : Prop where
  ascending : (reports.map Entry.key).Pairwise (· < ·)
  mem_iff : ∀ k v, (∃ e ∈ reports, e.key = k ∧ e.val = v) ↔
    pre <+: k ∧ newest ram table files k = some v ∧ v ≠ []

/-- What of the runs is reported. -/
def reported (runs : List (List Entry)) : List Entry :=
  (runs.filterMap List.head?).filter fun e => decide (0 < e.val.length)

def reportRun {S E : Type} (it : S → Bytes → Bytes → Nat → Except E (S × Bool)) (s : S) :
    List Entry → Except (Halt S E) S
  | [] => .ok s
  | e :: _ => report it s e

theorem foldlM_reported {S E : Type} (it : S → Bytes → Bytes → Nat → Except E (S × Bool))
    (runs : List (List Entry)) (s : S) :
    runs.foldlM (reportRun it) s = (reported runs).foldlM (call it) s := by
  induction runs generalizing s with
  | nil => rfl
  | cons run runs ih =>
    rw [foldlM_cons]
    cases run with
    | nil => exact ih s
    | cons e es =>
      rw [reportRun, report, reported, filterMap_cons_some head?_cons]
      by_cases hval : 0 < e.val.length
      · rw [if_pos hval, filter_cons_of_pos (by simpa using hval), foldlM_cons]
        exact bind_congr ih
      · rw [if_neg hval, filter_cons_of_neg (by simpa using hval)]
        exact ih s

theorem mem_reported {runs : List (List Entry)} {e : Entry} :
    e ∈ reported runs ↔ (∃ es, e :: es ∈ runs) ∧ e.val ≠ [] := by
  rw [reported, mem_filter, mem_filterMap, decide_eq_true_iff, length_pos_iff]
  refine and_congr_left fun _ => ⟨?_, ?_⟩
  · rintro ⟨run, hrun, hhead⟩
    obtain ⟨es, rfl⟩ := head?_eq_some_iff.mp hhead
    exact ⟨es, hrun⟩
  · rintro ⟨es, hrun⟩
    exact ⟨_, hrun, rfl⟩

end Sources

/-! ### Two states of the sources -/

/-- Two files of one step of 16 transactions each. -/
def stepFiles : List DomainFile :=
  [⟨16, ⟨[([1], [10])], by decide⟩⟩, ⟨32, ⟨[([3], [30])], by decide⟩⟩]

def collect (calls : List (Bytes × Bytes)) (k v : Bytes) (_ : Nat) :
    Except Unit (List (Bytes × Bytes) × Bool) :=
  .ok (calls ++ [(k, v)], true)

def updatedRam : RamMap := ⟨[([2], [20])], by decide⟩

/-- The first key of the table is not in RAM. -/
def aheadTable : DomainValues :=
  ⟨[([1], toLex (maxUint64 - 3, [11])), ([2], toLex (maxUint64 - 3, [21]))], by decide⟩

/-- Only the key 2 is in the table, and its first cursor comes with the same
`endTxNum` as that of RAM. -/
def staleTable : DomainValues := ⟨[([2], toLex (maxUint64 - 3, [21]))], by decide⟩

end PrefixLatest

end Erigon
