/-
An in-memory batch over a table with one value for each key: its cursors show the table as it
would be if the changes had been made in the database, and flushing the batch makes them.
-/
import Erigon.MemoryMutationView
import Erigon.SortedPairs

namespace Erigon

open List

namespace MemoryMutation

open Overlay SortedPairs

inductive MapOp
  | put (k v : Bytes)
  | delete (k : Bytes)
  | clearTable

/-- A change of a table of the database. -/
def MapOp.apply (table : SortedPairs Bytes Bytes) : MapOp → SortedPairs Bytes Bytes
  | put k v => table.insert k v
  | delete k => table.erase k
  | clearTable => .empty

/-- Nothing empty is put. -/
def MapOp.Filled : MapOp → Prop
  | put k v => k ≠ [] ∧ v ≠ []
  | _ => True

/-- What a batch has of a table: the table of its own, and what it has noted. -/
structure MapTable where
  mem : SortedPairs Bytes Bytes
  marks : Marks

namespace MapTable

/-- `NewMemoryBatch`, which copies the table of the sequences. -/
def new (sequences : Bool) (db : SortedPairs Bytes Bytes) : MapTable where
  mem := if sequences then db else .empty
  marks := ⟨∅, ∅, false⟩

def note (marks : Marks) : MapOp → Marks
  | .put _ _ => marks
  | .delete k => { marks with deletedEntries := insert k marks.deletedEntries }
  | .clearTable => { marks with cleared := true }

/-- `Put`, `Delete` and `ClearTable` of the batch. -/
def apply (s : MapTable) (op : MapOp) : MapTable := ⟨op.apply s.mem, note s.marks op⟩

/-- A cursor of the batch, wherever it stands. -/
structure Opened (s : MapTable) (db : SortedPairs Bytes Bytes) (c : Cursor) : Prop where
  pureDupSort : c.pureDupSort = false
  marks : c.marks = s.marks
  dbTable : c.dbTable = db.pairs
  memTable : c.memTable = s.mem.pairs

/-- `GetOne`, by the cursor that the batch keeps for a table. -/
def getOne (c : Cursor) (key : Bytes) : Option Bytes := (c.seekExact key).1.value

def has (c : Cursor) (key : Bytes) : Bool := Cursor.bytesEqual (some key) (c.seek key).1.key

/-- `Flush`, with the deleted keys in the order in which the loop meets them. -/
def flush (s : MapTable) (deleted : List Bytes) (db : SortedPairs Bytes Bytes) :
    SortedPairs Bytes Bytes :=
  let db := if s.marks.cleared then .empty else db
  let db := deleted.foldl (fun db k => db.erase k) db
  s.mem.pairs.foldl (fun db e => db.insert e.1 e.2) db

/-- What there is under a key. -/
def get (s : MapTable) (db : SortedPairs Bytes Bytes) (k : Bytes) : Option Bytes :=
  (s.mem.get k).or (if s.marks.cleared = true ∨ k ∈ s.marks.deletedEntries then none else db.get k)

variable {table : SortedPairs Bytes Bytes}

/-- A change of the batch changes what there is as it would change the database. -/
theorem get_apply {s : MapTable} {db : SortedPairs Bytes Bytes} (h : ∀ k, table.get k = s.get db k)
    (op : MapOp) (k : Bytes) :
    (op.apply table).get k = (s.apply op).get db k := by
  have hk := h k
  cases op with
  | put l v =>
    rw [MapOp.apply, get, apply, MapOp.apply, note, get_insert,
      get_insert, hk, get]
    split <;> rfl
  | delete l =>
    rw [MapOp.apply, get, apply, MapOp.apply, note, get_erase,
      get_erase, hk, get]
    by_cases hl : k = l
    · simp [hl]
    · simp [hl]
  | clearTable => simp [MapOp.apply, get, apply, note, get_empty]

theorem get_new (sequences : Bool) (db : SortedPairs Bytes Bytes) (k : Bytes) :
    db.get k = (new sequences db).get db k := by
  cases sequences with
  | false => simp [new, get, get_empty]
  | true => simp [new, get]

/-- After any changes. -/
theorem get_foldl (sequences : Bool) (db : SortedPairs Bytes Bytes) (ops : List MapOp) (k : Bytes) :
    (ops.foldl MapOp.apply db).get k = (ops.foldl apply (new sequences db)).get db k := by
  revert k
  exact foldl_rel (r := fun (table : SortedPairs Bytes Bytes) (s : MapTable) =>
    ∀ k, table.get k = s.get db k) (get_new sequences db) fun op _ _ _ h => get_apply h op

theorem filled_apply (h : Cursor.Filled table.pairs) {op : MapOp} (hop : op.Filled) :
    Cursor.Filled (op.apply table).pairs := by
  intro e he
  cases op with
  | put k v =>
    rcases table.mem_insert.mp he with rfl | ⟨he, -⟩
    · exact hop
    · exact h e he
  | delete k => exact h e (mem_filter.mp he).1
  | clearTable => cases he

theorem filled_foldl {ops : List MapOp} (hops : ∀ op ∈ ops, op.Filled) {s : MapTable}
    (h : Cursor.Filled s.mem.pairs) : Cursor.Filled (ops.foldl apply s).mem.pairs := by
  refine foldlRecOn ops _ (motive := fun s : MapTable => Cursor.Filled s.mem.pairs) h ?_
  exact fun _ hs op hop => filled_apply hs (hops op hop)

theorem ascending_pairs (table : SortedPairs Bytes Bytes) : Ascending (rank false) table.pairs :=
  table.sorted.imp fun hlt => rank_lt.mpr (Or.inl hlt)

variable {s : MapTable} {db : SortedPairs Bytes Bytes} {c : Cursor}

theorem Opened.sound (h : s.Opened db c) (hmem : Cursor.Filled s.mem.pairs)
    (hdb : Cursor.Filled db.pairs) : c.Sound where
  mem_ascending := by
    rw [h.pureDupSort, h.memTable]
    exact ascending_pairs s.mem
  db_ascending := by
    rw [h.pureDupSort, h.dbTable]
    exact ascending_pairs db
  mem_filled := h.memTable ▸ hmem
  db_filled := h.dbTable ▸ hdb

theorem Opened.mem_content (h : s.Opened db c) {e : Entry} :
    e ∈ c.content ↔ s.get db e.1 = some e.2 := by
  have hlive : Ascending (rank false) (db.pairs.filter c.live) :=
    List.Pairwise.filter _ (ascending_pairs db)
  have hfree : (∀ a ∈ s.mem.pairs, rank false a ≠ rank false e) ↔ s.mem.get e.1 = none := by
    rw [Option.eq_none_iff_forall_ne_some]
    constructor
    · intro hne v hv
      exact hne _ (s.mem.get_eq_some.mp hv) (rank_eq.mpr ⟨rfl, fun h => by cases h⟩)
    · intro hnone a ha heq
      exact hnone a.2 ((rank_eq.mp heq).1 ▸ s.mem.get_eq_some.mpr ha)
  have hdeleted : c.live e = true ↔ e.1 ∉ s.marks.deletedEntries := by
    simp [Cursor.live, Cursor.isEntryDeleted, h.pureDupSort, h.marks]
  rw [Cursor.content, h.marks, h.pureDupSort, h.memTable, h.dbTable, get, Option.or_eq_some_iff]
  cases s.marks.cleared with
  | true => simp [SortedPairs.get_eq_some]
  | false =>
    rw [if_neg (by simp), mem_overlay (ascending_pairs s.mem) hlive, mem_filter, hdeleted,
      hfree, SortedPairs.get_eq_some]
    by_cases hk : e.1 ∈ s.marks.deletedEntries
    · simp [hk]
    · simp [hk, SortedPairs.get_eq_some, and_comm]

/-- The cursors show the table that the changes make of the database. -/
theorem Opened.content_eq (h : s.Opened db c) (hsound : c.Sound)
    (htable : ∀ k, table.get k = s.get db k) : c.content = table.pairs := by
  have hcontent : Ascending (rank false) c.content :=
    h.pureDupSort ▸ Cursor.ascending_content hsound
  refine hcontent.ext (ascending_pairs table) fun e => ?_
  rw [h.mem_content, ← htable, table.get_eq_some]

theorem get_foldl_erase (table : SortedPairs Bytes Bytes) (deleted : List Bytes) (k : Bytes) :
    (deleted.foldl (fun db k => db.erase k) table).get k =
      if k ∈ deleted then none else table.get k := by
  induction deleted generalizing table with
  | nil => simp
  | cons l deleted ih =>
    rw [foldl_cons, ih, table.get_erase]
    by_cases hl : k = l
    · simp [hl]
    · simp [hl]

/-- Pairs with keys of their own are put one by one. -/
theorem get_foldl_insert (table mem : SortedPairs Bytes Bytes) (k : Bytes) :
    (mem.pairs.foldl (fun db e => db.insert e.1 e.2) table).get k = (mem.get k).or (table.get k) := by
  obtain ⟨pairs, sorted⟩ := mem
  induction pairs generalizing table with
  | nil => rfl
  | cons e pairs ih =>
    have hrest := pairwise_cons.mp sorted
    have hput := ih (table.insert e.1 e.2) hrest.2
    dsimp only at hput ⊢
    rw [foldl_cons, hput, table.get_insert]
    by_cases hk : k = e.1
    · -- the keys behind are greater
      have hnone : SortedPairs.get ⟨pairs, hrest.2⟩ k = none := by
        rw [Option.eq_none_iff_forall_ne_some]
        intro v hv
        have hlt := hrest.1 _ ((SortedPairs.get_eq_some _).mp hv)
        exact hlt.ne hk.symm
      rw [hnone, if_pos hk]
      simp [SortedPairs.get, hk]
    · have hne : ¬ e.1 = k := fun heq => hk heq.symm
      rw [if_neg hk]
      simp [SortedPairs.get, hne]

theorem get_flush (s : MapTable) {deleted : List Bytes}
    (hdeleted : deleted.toFinset = s.marks.deletedEntries) (db : SortedPairs Bytes Bytes)
    (k : Bytes) : (s.flush deleted db).get k = s.get db k := by
  have hmem : k ∈ deleted ↔ k ∈ s.marks.deletedEntries := by rw [← hdeleted, mem_toFinset]
  rw [flush, get_foldl_insert, get_foldl_erase, get]
  cases s.marks.cleared with
  | true => simp [get_empty]
  | false => simp [hmem]

/-- Of a table that a loop from a key on goes through, the first entry is that of the key. -/
theorem head?_seek (table : SortedPairs Bytes Bytes) (key : Bytes) :
    ((table.seek key).head?.filter fun e => decide (e.1 = key)) =
      (table.get key).map fun v => (key, v) := by
  cases hseek : table.seek key with
  | nil =>
    have hnone : table.get key = none := by
      rw [Option.eq_none_iff_forall_ne_some]
      exact fun v hv => lt_irrefl key (table.seek_eq_nil hseek (table.get_eq_some.mp hv))
    rw [hnone]
    rfl
  | cons a rest =>
    obtain ⟨hmem, hle, hleast⟩ := table.seek_eq_cons hseek
    by_cases hkey : a.1 = key
    · have hget : table.get key = some a.2 := table.get_eq_some.mpr (hkey ▸ hmem)
      rw [hget]
      simp [Option.filter, ← hkey]
    · have hnone : table.get key = none := by
        rw [Option.eq_none_iff_forall_ne_some]
        exact fun v hv => hkey (le_antisymm (hleast _ (table.get_eq_some.mp hv) le_rfl) hle)
      rw [hnone]
      simp [Option.filter, hkey]

theorem has_of_lists {key : Bytes} (hkey : key ≠ [])
    (h : Cursor.Lists .normal (c.seek key) (table.seek key)) :
    has c key = (table.get key).isSome := by
  have hisSome : (table.get key).isSome =
      ((table.seek key).head?.filter fun e => decide (e.1 = key)).isSome := by
    rw [head?_seek, Option.isSome_map]
  rw [has, h.1, hisSome, Bool.eq_iff_iff, Cursor.bytesEqual_iff]
  cases (table.seek key).head? with
  | none => simp [CursorEntry.of, hkey]
  | some e =>
    by_cases he : e.1 = key
    · simp [CursorEntry.of, Option.filter, he]
    · simp [CursorEntry.of, Option.filter, he, Ne.symm he]

/-- The cursors of a batch show the table as the same changes make it of the database, from the
first entry and from any key on, and flushing the batch makes it so. -/
theorem batch_shows_table (db : SortedPairs Bytes Bytes) (hdb : Cursor.Filled db.pairs)
    (sequences : Bool) (ops : List MapOp) (hops : ∀ op ∈ ops, op.Filled) :
    (∀ c, (ops.foldl apply (new sequences db)).Opened db c →
      Cursor.Lists .normal c.first (ops.foldl MapOp.apply db).pairs ∧
      (∀ k, Cursor.Lists .normal (c.seek k) ((ops.foldl MapOp.apply db).seek k)) ∧
      ∀ k, k ≠ [] →
        (c.seekExact k).1 = .of (((ops.foldl MapOp.apply db).get k).map fun v => (k, v)) ∧
        getOne c k = (ops.foldl MapOp.apply db).get k ∧
        has c k = ((ops.foldl MapOp.apply db).get k).isSome) ∧
    ∀ deleted : List Bytes,
      deleted.toFinset = (ops.foldl apply (new sequences db)).marks.deletedEntries →
        (ops.foldl apply (new sequences db)).flush deleted db = ops.foldl MapOp.apply db := by
  have hget := get_foldl sequences db ops
  have hfilled : Cursor.Filled (ops.foldl apply (new sequences db)).mem.pairs := by
    refine filled_foldl hops ?_
    cases sequences with
    | false => exact fun e he => by cases he
    | true => exact hdb
  refine ⟨fun c hc => ?_, fun deleted hdeleted => ?_⟩
  · have hsound := hc.sound hfilled hdb
    have hcontent := hc.content_eq hsound hget
    have hseek (k : Bytes) :
        Cursor.Lists .normal (c.seek k) ((ops.foldl MapOp.apply db).seek k) := by
      rw [seek_eq_filter, ← hcontent]
      exact Cursor.seek_lists hsound k
    refine ⟨hcontent ▸ Cursor.first_lists hsound, hseek, fun k hk => ?_⟩
    have hexact := Cursor.seekExact_of_lists (hseek k)
    rw [head?_seek] at hexact
    refine ⟨hexact, ?_, ?_⟩
    · rw [getOne, hexact]
      cases (ops.foldl MapOp.apply db).get k <;> rfl
    · exact has_of_lists hk (hseek k)
  · refine ext_get fun k => ?_
    rw [get_flush _ hdeleted, hget]

def sampleTable : SortedPairs Bytes Bytes := ⟨[([1], [5]), ([3], [6])], by decide⟩

/-- A key is deleted that is in the database, another one is put. -/
def sampleBatch : MapTable :=
  [MapOp.delete [1], .put [2] [7]].foldl apply (new false sampleTable)

theorem batch_shows_table_sample :
    Cursor.Lists .normal
      (makeCursor false sampleBatch.marks sampleTable.pairs sampleBatch.mem.pairs).first
      [([2], [7]), ([3], [6])] := by
  have hshows := batch_shows_table sampleTable (by simp [Cursor.Filled, sampleTable]) false
    [.delete [1], .put [2] [7]] (by simp [MapOp.Filled])
  exact (hshows.1 _ ⟨rfl, rfl, rfl, rfl⟩).1

end MapTable

end MemoryMutation

end Erigon
