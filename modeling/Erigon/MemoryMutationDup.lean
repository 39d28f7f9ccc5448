/-
An in-memory batch over a table that sorts duplicates.  Deleted keys and deleted entries are
noted apart: a cursor of the batch goes by the entries and `Flush` by the keys, and neither takes
a deleted entry out of the batch itself.  So the batch keeps all that it should, and shows and
flushes more than that.
-/
import Erigon.DupTable
import Erigon.MemoryMutationView

namespace Erigon

open List

namespace MemoryMutation

open Overlay DupTable

/-- The moves of a cursor. -/
inductive Move
  | first
  | next
  | nextDup
  | seek (key : Bytes)
  | seekBothRange (key value : Bytes)

namespace Cursor

def move (c : Cursor) : Move → CursorEntry × Cursor
  | .first => c.first
  | .next => c.next
  | .nextDup => c.nextDup
  | .seek key => c.seek key
  | .seekBothRange key value =>
    let r := c.seekBothRange key value
    (⟨r.1.map fun _ => key, r.1⟩, r.2)

/-- The entry that the last move has returned, if each has returned one. -/
def walk : Option Entry → Cursor → List Move → Option (Entry × Cursor)
  | e, c, [] => e.map fun e => (e, c)
  | _, c, m :: moves =>
    match c.move m with
    | (⟨some key, some value⟩, c) => walk (some (key, value)) c moves
    | _ => none

end Cursor

inductive DupOp
  | put (k v : Bytes)
  | delete (k : Bytes)
  | deleteExact (k v : Bytes)
  /-- A cursor is opened and moved to an entry, which `DeleteCurrent` then deletes. -/
  | deleteCurrent (moves : List Move)
  | clearTable

/-- Nothing empty is put. -/
def DupOp.Filled : DupOp → Prop
  | put k v => k ≠ [] ∧ v ≠ []
  | _ => True

/-- What a batch has of a table that sorts duplicates. -/
structure DupBatch where
  mem : DupTable Bytes Bytes
  marks : Marks

/-- `deleteDup`. -/
def Marks.deleteDup (marks : Marks) (e : CursorEntry) : Marks :=
  { marks with deletedDups := insert (e.key.getD [], e.value.getD []) marks.deletedDups }

namespace DupBatch

def new : DupBatch := ⟨.empty, ⟨∅, ∅, false⟩⟩

variable (s : DupBatch)

def cursor (db : DupTable Bytes Bytes) : Cursor :=
  makeCursor true s.marks db.entries s.mem.entries

variable (db : DupTable Bytes Bytes)

def apply : DupOp → DupBatch
  | .put k v => { s with mem := s.mem.insert (k, v) }
  | .delete k =>
    ⟨s.mem.delete k, { s.marks with deletedEntries := insert k s.marks.deletedEntries }⟩
  | .deleteExact k v => { s with marks := s.marks.deleteDup ⟨some k, some v⟩ }
  | .deleteCurrent moves =>
    match (s.cursor db).walk none moves with
    | some (_, c) => { s with marks := s.marks.deleteDup c.currentPair }
    | none => s
  | .clearTable => ⟨.empty, { s.marks with cleared := true }⟩

/-- The change of the table of the database; `DeleteCurrent` deletes the entry on which the cursor
stands. -/
def applyTable (table : DupTable Bytes Bytes) :
    DupOp → DupTable Bytes Bytes
  | .put k v => table.insert (k, v)
  | .delete k => table.delete k
  | .deleteExact k v => table.deleteExact (k, v)
  | .deleteCurrent moves =>
    match (s.cursor db).walk none moves with
    | some (e, _) => table.deleteExact e
    | none => table
  | .clearTable => .empty

/-- The batch and the table after the same changes. -/
def run : List DupOp → DupBatch × DupTable Bytes Bytes :=
  List.foldl (fun r op => (r.1.apply db op, r.1.applyTable db r.2 op)) (new, db)

/-- `Flush`, with the deleted keys in the order in which the loop meets them. -/
def flush (deleted : List Bytes) (db : DupTable Bytes Bytes) :
    DupTable Bytes Bytes :=
  let db := if s.marks.cleared then .empty else db
  let db := deleted.foldl (fun db k => db.delete k) db
  s.mem.entries.foldl (fun db e => db.insert e) db

end DupBatch

namespace Cursor

/-- A move changes where a cursor stands, not the tables. -/
structure SameTables (c c' : Cursor) : Prop where
  pureDupSort : c'.pureDupSort = c.pureDupSort
  marks : c'.marks = c.marks
  dbTable : c'.dbTable = c.dbTable
  memTable : c'.memTable = c.memTable

theorem SameTables.refl (c : Cursor) : SameTables c c := ⟨rfl, rfl, rfl, rfl⟩

variable {c c' : Cursor}

theorem SameTables.trans {a b : Cursor} (hab : SameTables a b) (hbc : SameTables b c) :
    SameTables a c :=
  ⟨hbc.pureDupSort.trans hab.pureDupSort, hbc.marks.trans hab.marks,
    hbc.dbTable.trans hab.dbTable, hbc.memTable.trans hab.memTable⟩

theorem SameTables.sound (h : SameTables c c') (hsound : c.Sound) : c'.Sound where
  mem_ascending := by
    rw [h.pureDupSort, h.memTable]
    exact hsound.mem_ascending
  db_ascending := by
    rw [h.pureDupSort, h.dbTable]
    exact hsound.db_ascending
  mem_filled := h.memTable ▸ hsound.mem_filled
  db_filled := h.dbTable ▸ hsound.db_filled

theorem sameTables_skipIntersection (c : Cursor) (mem db : CursorEntry) (t : NextType) :
    SameTables c (c.skipIntersection mem db t).2 := by
  rw [skipIntersection]
  split
  · generalize (if t = .normal then _ else _ : Bool) = skip
    cases skip with
    | true => exact ⟨rfl, rfl, rfl, rfl⟩
    | false => exact .refl c
  · exact .refl c

theorem sameTables_resolve (c : Cursor) (mem db : CursorEntry) (t : NextType) :
    SameTables c (c.resolveCursorPriority mem db t).2 := by
  rw [resolveCursorPriority]
  split
  · exact .refl c
  · exact { sameTables_skipIntersection c mem db t with }

/-- The entry that is returned is noted as the current one. -/
theorem currentPair_resolve {mem db : CursorEntry} {t : NextType} {v : Bytes}
    (hvalue : (c.resolveCursorPriority mem db t).1.value = some v) :
    (c.resolveCursorPriority mem db t).2.currentPair = (c.resolveCursorPriority mem db t).1 := by
  by_cases hnone : (mem.value.isNone && db.value.isNone) = true
  · rw [resolveCursorPriority, if_pos hnone] at hvalue
    cases hvalue
  · rw [resolveCursorPriority, if_neg hnone]

theorem sameTables_skipDeleted (c : Cursor) (t : NextType) (e : Option Entry) :
    SameTables c (c.skipDeleted t e).2 := by
  obtain ⟨pos, hframe⟩ := skipDeleted_frame c t e
  rw [hframe]
  exact ⟨rfl, rfl, rfl, rfl⟩

theorem resolve_spec (h : SameTables c c') (mem db : CursorEntry) (t : NextType) :
    SameTables c (c'.resolveCursorPriority mem db t).2 ∧
      ∀ e, (c'.resolveCursorPriority mem db t).1 = .of (some e) →
        (c'.resolveCursorPriority mem db t).2.currentPair = .of (some e) := by
  refine ⟨h.trans (sameTables_resolve c' mem db t), fun e he => ?_⟩
  rw [currentPair_resolve (v := e.2) (by rw [he]; rfl), he]

theorem step_spec (hcleared : c.marks.cleared = false) (t : NextType) :
    SameTables c (c.step t).2 ∧
      ∀ e, (c.step t).1 = .of (some e) → (c.step t).2.currentPair = .of (some e) := by
  rw [step, if_neg (by simp [hcleared])]
  dsimp only
  split <;>
  · refine resolve_spec ?_ _ _ t
    exact ⟨rfl, rfl, rfl, rfl⟩

section

variable (h : c.Sound) (hdup : c.pureDupSort = true) (hcleared : c.marks.cleared = false)

include h hdup hcleared

theorem seekBothRange_spec (key value : Bytes) :
    SameTables c (c.seekBothRange key value).2 ∧
      ∀ v, (c.seekBothRange key value).1 = some v →
        (c.seekBothRange key value).2.currentPair = .of (some (key, v)) := by
  constructor
  · rw [seekBothRange, if_neg (by simp [hcleared])]
    refine (resolve_spec ?_ _ _ _).1
    exact { sameTables_skipDeleted _ _ _ with }
  · intro v hv
    obtain ⟨c', mem, db, hresolve, hlists, -⟩ := seekBothRange_resolves h hdup hcleared key value
    rw [hresolve] at hv ⊢
    have hpair := currentPair_resolve hv
    rw [hpair]
    rw [hlists] at hv ⊢
    cases hhead : (overlay (rank c.pureDupSort) (c.memTable.filter (inBothRange key value))
      ((c.dbTable.filter (inBothRange key value)).filter c.live)).head? with
    | none =>
      rw [hhead] at hv
      cases hv
    | some e =>
      rw [hhead] at hv
      have hkey : e.1 = key := by
        rcases mem_of_mem_overlay (mem_of_mem_head? hhead) with he | he
        · exact fst_of_inBothRange he
        · exact fst_of_inBothRange (mem_filter.mp he).1
      have hvalue : e.2 = v := Option.some.inj hv
      rw [← hkey, ← hvalue]

/-- A move goes over the same tables, and notes the entry that it returns. -/
theorem move_spec (m : Move) :
    SameTables c (c.move m).2 ∧
      ∀ e, (c.move m).1 = .of (some e) → (c.move m).2.currentPair = .of (some e) := by
  cases m with
  | first =>
    rw [move, first, if_neg (by simp [hcleared])]
    refine resolve_spec ?_ _ _ _
    exact { sameTables_skipDeleted _ _ _ with }
  | next => exact step_spec hcleared .normal
  | nextDup => exact step_spec hcleared .dup
  | seek key =>
    rw [move, seek, if_neg (by simp [hcleared])]
    refine resolve_spec ?_ _ _ _
    exact { sameTables_skipDeleted _ _ _ with }
  | seekBothRange key value =>
    obtain ⟨hsame, hpair⟩ := seekBothRange_spec h hdup hcleared key value
    refine ⟨hsame, fun e he => ?_⟩
    rw [move] at he ⊢
    dsimp only at he ⊢
    cases hvalue : (c.seekBothRange key value).1 with
    | none =>
      rw [hvalue] at he
      cases he
    | some v =>
      rw [hvalue] at he
      rw [hpair v hvalue, ← he]
      rfl

theorem walk_spec {moves : List Move} {e : Option Entry}
    (hcurrent : ∀ x, e = some x → c.currentPair = .of (some x))
    {x : Entry} (hwalk : walk e c moves = some (x, c')) : c'.currentPair = .of (some x) := by
  induction moves generalizing e c with
  | nil =>
    obtain ⟨y, hy, heq⟩ := Option.map_eq_some_iff.mp hwalk
    cases heq
    exact hcurrent x hy
  | cons m moves ih =>
    obtain ⟨hsame, hpair⟩ := move_spec h hdup hcleared m
    rw [walk] at hwalk
    split at hwalk
    · rename_i key value c'' heq
      rw [heq] at hsame hpair
      refine ih (hsame.sound h) (hsame.pureDupSort.trans hdup)
        (by rw [hsame.marks, hcleared]) ?_ hwalk
      intro y hy
      cases hy
      exact hpair (key, value) rfl
    · cases hwalk

end

theorem Lists.unique {t : NextType} {start : CursorEntry × Cursor} {l l' : List Entry}
    (h : Lists t start l) (h' : Lists t start l') : l = l' := by
  have hhead : CursorEntry.of l.head? = .of l'.head? := h.1.symm.trans h'.1
  cases l with
  | nil =>
    cases l' with
    | nil => rfl
    | cons e l' => cases hhead
  | cons e l =>
    cases l' with
    | nil => cases hhead
    | cons e' l' =>
      have he : e = e' := by
        simp only [head?_cons, CursorEntry.of, CursorEntry.mk.injEq,
          Option.some.injEq] at hhead
        exact Prod.ext hhead.1 hhead.2
      have hrest : l = l' := (h.2 (by simp)).unique (h'.2 (by simp))
      rw [he, hrest]

end Cursor

namespace DupBatch

variable {s : DupBatch} {db table : DupTable Bytes Bytes}

theorem sound_cursor (hmem : Cursor.Filled s.mem.entries) (hdb : Cursor.Filled db.entries) :
    (s.cursor db).Sound where
  mem_ascending := s.mem.sorted
  db_ascending := db.sorted
  mem_filled := hmem
  db_filled := hdb

variable {e : Entry}

theorem mem_content :
    e ∈ (s.cursor db).content ↔ e ∈ s.mem.entries ∨
      s.marks.cleared = false ∧ e ∈ db.entries ∧ e ∉ s.marks.deletedDups := by
  have hmem : Ascending (rank true) s.mem.entries := s.mem.sorted
  have hdb : Ascending (rank true) (db.entries.filter (s.cursor db).live) :=
    List.Pairwise.filter _ db.sorted
  have hlive : (s.cursor db).live e = true ↔ e ∉ s.marks.deletedDups := by
    simp only [Cursor.live, Cursor.isEntryDeleted, cursor, makeCursor, Bool.not_eq_true', if_true]
    exact ⟨of_decide_eq_false, decide_eq_false⟩
  have hfree : (∀ a ∈ s.mem.entries, rank true a ≠ rank true e) ↔ e ∉ s.mem.entries := by
    constructor
    · exact fun hne he => hne e he rfl
    · intro he a ha heq
      have hae : a = e := Prod.ext (rank_eq.mp heq).1 ((rank_eq.mp heq).2 rfl)
      exact he (hae ▸ ha)
  rw [Cursor.content]
  change e ∈ (if s.marks.cleared = true then s.mem.entries
    else overlay (rank true) s.mem.entries (db.entries.filter (s.cursor db).live)) ↔ _
  cases s.marks.cleared with
  | true => simp
  | false =>
    rw [if_neg (by simp), mem_overlay hmem hdb, mem_filter, hlive, hfree]
    tauto

theorem mem_foldl_delete {deleted : List Bytes} :
    e ∈ (deleted.foldl (fun db k => db.delete k) table).entries ↔
      e ∈ table.entries ∧ e.1 ∉ deleted := by
  induction deleted generalizing table with
  | nil => simp
  | cons k deleted ih =>
    rw [foldl_cons, ih, mem_delete, mem_cons, not_or, and_assoc]

theorem mem_foldl_insert {entries : List Entry} :
    e ∈ (entries.foldl (fun db e => db.insert e) table).entries ↔
      e ∈ entries ∨ e ∈ table.entries := by
  induction entries generalizing table with
  | nil => simp
  | cons f entries ih =>
    rw [foldl_cons, ih, mem_insert, mem_cons]
    tauto

theorem mem_flush {deleted : List Bytes} (hdeleted : deleted.toFinset = s.marks.deletedEntries) :
    e ∈ (s.flush deleted db).entries ↔ e ∈ s.mem.entries ∨
      s.marks.cleared = false ∧ e ∈ db.entries ∧ e.1 ∉ s.marks.deletedEntries := by
  rw [flush, mem_foldl_insert, mem_foldl_delete, ← hdeleted, mem_toFinset]
  cases s.marks.cleared with
  | true => simp [empty]
  | false => simp

/-- An entry of the table is one of the batch, or one of the database that nothing deletes. -/
def Keeps (db : DupTable Bytes Bytes) (r : DupBatch × DupTable Bytes Bytes) : Prop :=
  ∀ e ∈ r.2.entries, e ∈ r.1.mem.entries ∨
    r.1.marks.cleared = false ∧ e ∈ db.entries ∧ e ∉ r.1.marks.deletedDups ∧
      e.1 ∉ r.1.marks.deletedEntries

theorem keeps_deleteDup (h : Keeps db (s, table)) (e : Entry) :
    Keeps db ({ s with marks := s.marks.deleteDup (.of (some e)) }, table.deleteExact e) := by
  intro f hf
  rw [mem_deleteExact] at hf
  refine (h f hf.1).imp id fun ⟨hcleared, hdb, hdup, hentry⟩ => ⟨hcleared, hdb, ?_, hentry⟩
  exact fun hmem => (Finset.mem_insert.mp hmem).elim hf.2 hdup

/-- One change. -/
theorem keeps_apply (hmem : Cursor.Filled s.mem.entries) (hdb : Cursor.Filled db.entries)
    (h : Keeps db (s, table)) (op : DupOp) :
    Keeps db (s.apply db op, s.applyTable db table op) := by
  cases op with
  | put k v =>
    intro e he
    rcases mem_insert.mp he with rfl | he
    · exact .inl (mem_insert.mpr (.inl rfl))
    · exact (h e he).imp (fun hmem => mem_insert.mpr (.inr hmem)) id
  | delete k =>
    intro e he
    rw [applyTable, mem_delete] at he
    refine (h e he.1).imp (fun hmem => ?_) fun ⟨hcleared, hdb, hdup, hentry⟩ => ?_
    · exact mem_delete.mpr ⟨hmem, he.2⟩
    · exact ⟨hcleared, hdb, hdup, fun hmem => (Finset.mem_insert.mp hmem).elim he.2 hentry⟩
  | deleteExact k v => exact keeps_deleteDup h (k, v)
  | deleteCurrent moves =>
    rw [apply, applyTable]
    cases hwalk : (s.cursor db).walk none moves with
    | none => exact h
    | some r =>
      obtain ⟨e, c⟩ := r
      dsimp only
      cases hcleared : s.marks.cleared with
      | true =>
        -- all that is left of the table is in the batch
        intro f hf
        have hf' := (mem_keep.mp hf).1
        refine (h f hf').imp id fun hdb => ?_
        rw [hcleared] at hdb
        cases hdb.1
      | false =>
        have hcurrent := Cursor.walk_spec (sound_cursor hmem hdb) rfl hcleared
          (fun x hx => by cases hx) hwalk
        rw [hcurrent]
        exact keeps_deleteDup h e
  | clearTable => exact fun e he => by cases he

theorem filled_apply {op : DupOp} (hop : op.Filled) (hmem : Cursor.Filled s.mem.entries) :
    Cursor.Filled (s.apply db op).mem.entries := by
  intro e he
  cases op with
  | put k v =>
    rcases mem_insert.mp he with rfl | he
    · exact hop
    · exact hmem e he
  | delete k => exact hmem e (mem_keep.mp he).1
  | deleteExact k v => exact hmem e he
  | deleteCurrent moves =>
    rw [apply] at he
    split at he
    · exact hmem e he
    · exact hmem e he
  | clearTable => cases he

/-- After any changes. -/
theorem keeps_run (hdb : Cursor.Filled db.entries) {ops : List DupOp}
    (hops : ∀ op ∈ ops, op.Filled) :
    Cursor.Filled (run db ops).1.mem.entries ∧ Keeps db (run db ops) := by
  have hnew : Cursor.Filled new.mem.entries ∧ Keeps db (new, db) :=
    ⟨fun e he => (not_mem_nil he).elim,
      fun e he => .inr ⟨rfl, he, Finset.notMem_empty e, Finset.notMem_empty e.1⟩⟩
  rw [run]
  refine foldlRecOn ops _ (b := (new, db))
    (motive := fun r => Cursor.Filled r.1.mem.entries ∧ Keeps db r) hnew ?_
  intro r hr op hop
  exact ⟨filled_apply (hops op hop) hr.1, keeps_apply hr.1 hdb hr.2 op⟩

/-- A cursor of the batch lists the table, from the first entry on and from a value of a key on,
and flushing the batch makes it. -/
def ShowsTable (s : DupBatch) (db table : DupTable Bytes Bytes) : Prop :=
  Cursor.Lists .normal ((s.cursor db).move .first) table.entries ∧
    (∀ k v, Cursor.Lists .dup ((s.cursor db).move (.seekBothRange k v))
      (table.entries.filter (Cursor.inBothRange k v))) ∧
    ∀ deleted : List Bytes, deleted.toFinset = s.marks.deletedEntries →
      s.flush deleted db = table

def sampleTable : DupTable Bytes Bytes := ⟨[([1], [5])], by simp⟩

end DupBatch

end MemoryMutation

end Erigon
