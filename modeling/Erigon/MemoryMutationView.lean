/-
The entries that the cursor of an in-memory batch shows, and that loops over it from the first
entry, from a key or from a value of a key on go through them in order.
-/
import Erigon.MemoryMutationWalk

namespace Erigon

open List

namespace MemoryMutation

open Overlay

namespace Cursor

/-- The entries of the batch, over those of the database that are left. -/
def content (c : Cursor) : List Entry :=
  if c.marks.cleared then c.memTable
  else overlay (rank c.pureDupSort) c.memTable (c.dbTable.filter c.live)

/-- Both tables are in order, without empty keys and values. -/
structure Sound (c : Cursor) : Prop where
  mem_ascending : Ascending (rank c.pureDupSort) c.memTable
  db_ascending : Ascending (rank c.pureDupSort) c.dbTable
  mem_filled : Filled c.memTable
  db_filled : Filled c.dbTable

variable {c : Cursor}

/-- In a cleared table the loop is that of the cursor of the batch. -/
theorem lists_cleared {t : NextType} (ht : t ≠ .noDup) {entries : List Entry}
    (hcleared : c.marks.cleared = true) (hahead : ahead t c.memCursor = entries) :
    Lists t (.of entries.head?, c) entries := by
  refine ⟨rfl, fun hne => ?_⟩
  dsimp only
  induction entries generalizing c with
  | nil => exact absurd rfl hne
  | cons e entries ih =>
    obtain ⟨hresult, hpos⟩ := dbNext_ahead ht hahead
    have hstep : c.step t =
        (.of entries.head?, { c with memCursor := (dbNext t c.memCursor).2 }) := by
      rw [step, if_pos hcleared, ← hresult]
    rw [tail_cons]
    refine Lists.yields ?_
    rw [hstep]
    exact ⟨rfl, fun hne => ih hcleared (hpos hne) hne⟩

theorem skipDeleted_frame (c : Cursor) (t : NextType) (e : Option Entry) :
    ∃ pos, (c.skipDeleted t e).2 = { c with cursor := pos } := by
  cases e with
  | none => exact ⟨c.cursor, rfl⟩
  | some e =>
    rw [skipDeleted]
    split
    · exact ⟨_, rfl⟩
    · exact ⟨c.cursor, rfl⟩

theorem ahead_normal (pos : List Entry) : ahead .normal pos = pos := by
  cases pos <;> rfl

theorem Filled.filter {l : List Entry} (h : Filled l) (p : Entry → Bool) : Filled (l.filter p) :=
  fun e he => h e (mem_filter.mp he).1

/-- The loop from positions in both tables on. -/
theorem lists_normal {mem db : List Entry} (hcleared : c.marks.cleared = false)
    (hmem : Ascending (rank c.pureDupSort) mem) (hdb : Ascending (rank c.pureDupSort) db)
    (hmem_filled : Filled mem) (hdb_filled : Filled db) :
    Lists .normal
      (resolveCursorPriority
        { (skipDeleted { c with cursor := db } .normal db.head?).2 with memCursor := mem }
        (.of mem.head?) (.of (skipDeleted { c with cursor := db } .normal db.head?).1) .normal)
      (overlay (rank c.pureDupSort) mem (db.filter c.live)) := by
  obtain ⟨hresult, hon⟩ :=
    skipDeleted_spec (t := .normal) (by simp) { c with cursor := db }
  rw [ahead_normal] at hresult hon
  obtain ⟨pos, hframe⟩ := skipDeleted_frame { c with cursor := db } .normal db.head?
  rw [hresult]
  rw [hframe] at hon ⊢
  refine Given.lists (?_ : Given _ _ _ _ mem (db.filter c.live)) hcleared rfl
  exact
    { kind := by simp
      dups := .inl rfl
      mem_shows := Shows.of _
      db_shows := Shows.of _
      mem_key := fun hnil => by
        rw [hnil]
        exact .inl rfl
      db_key := fun hnil => by
        have hnil' : db.filter (live { c with cursor := db }) = [] := hnil
        rw [hnil']
        exact .inl rfl
      upper_filled := hmem_filled
      lower_filled := Filled.filter hdb_filled _
      upper_ascending := hmem
      lower_ascending := List.Pairwise.filter _ hdb
      onMem := by
        cases mem with
        | nil => trivial
        | cons a mem => rfl
      onDb := hon }

theorem first_lists (h : c.Sound) : Lists .normal c.first c.content := by
  rw [first, content]
  dsimp only
  cases hcleared : c.marks.cleared with
  | true => exact lists_cleared (by simp) hcleared (ahead_normal _)
  | false =>
    obtain ⟨pos, hframe⟩ :=
      skipDeleted_frame { c with memCursor := c.memTable, cursor := c.dbTable } .normal
        c.dbTable.head?
    have hlists := lists_normal (c := { c with memCursor := c.memTable }) hcleared
      h.mem_ascending h.db_ascending h.mem_filled h.db_filled
    rw [hframe] at hlists
    rw [if_neg (by simp), if_neg (by simp), hframe]
    exact hlists

variable {table : List Entry}

theorem seekFrom_eq_filter {pureDupSort : Bool} (htable : Ascending (rank pureDupSort) table)
    (key : Bytes) :
    seekFrom table key = table.filter fun e => decide (key ≤ e.1) := by
  rw [← dropWhile_not_eq_filter, seekFrom]
  · simp only [← decide_not, not_le]
  · refine List.Pairwise.imp (fun {e f} hlt hle => ?_) htable
    rw [decide_eq_true_iff] at hle ⊢
    rcases rank_lt.mp hlt with hlt | ⟨heq, -⟩
    · exact hle.trans hlt.le
    · exact heq ▸ hle

theorem content_filter (h : c.Sound) {p : Entry → Bool}
    (hp : ∀ a b, rank c.pureDupSort a = rank c.pureDupSort b → p a = p b) :
    c.content.filter p =
      if c.marks.cleared then c.memTable.filter p
      else overlay (rank c.pureDupSort) (c.memTable.filter p) ((c.dbTable.filter p).filter c.live) := by
  rw [content]
  split
  · rfl
  · have hlive : Ascending (rank c.pureDupSort) (c.dbTable.filter c.live) :=
      List.Pairwise.filter _ h.db_ascending
    rw [← overlay_filter h.mem_ascending hlive hp, filter_filter, filter_filter]
    simp only [Bool.and_comm]

theorem ascending_content (h : c.Sound) : Ascending (rank c.pureDupSort) c.content := by
  rw [content]
  split
  · exact h.mem_ascending
  · exact ascending_overlay h.mem_ascending (List.Pairwise.filter _ h.db_ascending)

theorem seek_lists (h : c.Sound) (key : Bytes) :
    Lists .normal (c.seek key) (c.content.filter fun e => decide (key ≤ e.1)) := by
  have hmem := seekFrom_eq_filter h.mem_ascending key
  have hdb := seekFrom_eq_filter h.db_ascending key
  rw [content_filter h fun a b heq => by rw [(rank_eq.mp heq).1], ← hmem, ← hdb, seek]
  dsimp only
  cases hcleared : c.marks.cleared with
  | true =>
    exact lists_cleared (c := { c with memCursor := _ }) (by simp) hcleared (ahead_normal _)
  | false =>
    obtain ⟨pos, hframe⟩ :=
      skipDeleted_frame { c with cursor := seekFrom c.dbTable key } .normal
        (seekFrom c.dbTable key).head?
    have hmem_ascending : Ascending (rank c.pureDupSort) (seekFrom c.memTable key) :=
      hmem ▸ List.Pairwise.filter _ h.mem_ascending
    have hdb_ascending : Ascending (rank c.pureDupSort) (seekFrom c.dbTable key) :=
      hdb ▸ List.Pairwise.filter _ h.db_ascending
    have hlists := lists_normal hcleared hmem_ascending hdb_ascending
      (hmem ▸ Filled.filter h.mem_filled _) (hdb ▸ Filled.filter h.db_filled _)
    rw [hframe] at hlists
    rw [if_neg (by simp), if_neg (by simp), hframe]
    exact hlists

/-- A loop that begins at a key begins at its value, if it has one. -/
theorem seekExact_of_lists {key : Bytes} {entries : List Entry}
    (h : Lists .normal (c.seek key) entries) :
    (c.seekExact key).1 = .of (entries.head?.filter fun e => decide (e.1 = key)) := by
  rw [seekExact, h.1]
  cases hhead : entries.head? with
  | none => rfl
  | some e =>
    by_cases hkey : e.1 = key
    · rw [if_pos, h.1, hhead]
      · simp [Option.filter, hkey]
      · simp [CursorEntry.of, bytesEqual, hkey]
    · rw [if_neg]
      · simp [Option.filter, hkey]
      · simp [CursorEntry.of, bytesEqual, hkey]

/-- The values of a key from a value on. -/
def inBothRange (key value : Bytes) (e : Entry) : Bool := decide (e.1 = key ∧ value ≤ e.2)

/-- Behind the entries below the value the values of the key come first. -/
theorem filter_inBothRange (htable : Ascending (rank true) table) (key value : Bytes) :
    table.filter (inBothRange key value) =
      (table.dropWhile fun e => decide (e.1 < key ∨ e.1 = key ∧ e.2 < value)).takeWhile
        fun e => decide (e.1 = key) := by
  have hbelow (e : Entry) :
      (e.1 < key ∨ e.1 = key ∧ e.2 < value) ↔ ¬ rank true (key, value) ≤ rank true e := by
    rw [not_le, rank_lt]
    simp
  have hfound : (table.dropWhile fun e => decide (e.1 < key ∨ e.1 = key ∧ e.2 < value)) =
      table.filter fun e => decide (rank true (key, value) ≤ rank true e) := by
    rw [← dropWhile_not_eq_filter]
    · simp only [hbelow, decide_not]
    · refine List.Pairwise.imp (fun {e f} hlt hle => ?_) htable
      rw [decide_eq_true_iff] at hle ⊢
      exact hle.trans hlt.le
  rw [hfound, takeWhile_eq_filter, filter_filter]
  · refine filter_congr fun e _ => ?_
    rw [inBothRange, ← Bool.decide_and, decide_eq_decide, ← not_lt, ← not_lt, rank_lt]
    constructor
    · rintro ⟨rfl, hle⟩
      simpa using hle
    · rintro ⟨rfl, hle⟩
      simpa using hle
  · refine List.Pairwise.imp_of_mem (fun {e f} he _ hlt hf => ?_)
      (List.Pairwise.filter _ htable)
    have hle := (mem_filter.mp he).2
    rw [decide_eq_true_iff] at hf hle ⊢
    rw [← not_lt, rank_lt, not_or] at hle
    rcases rank_lt.mp hlt with hlt | ⟨heq, -⟩
    · exact absurd (hf ▸ hlt) hle.1
    · exact heq.trans hf

theorem bothRangeFrom_spec (htable : Ascending (rank true) table) (pos : List Entry)
    (key value : Bytes) :
    (bothRangeFrom table pos key value).1 = (table.filter (inBothRange key value)).head? ∧
      (table.filter (inBothRange key value) ≠ [] →
        ahead .dup (bothRangeFrom table pos key value).2 =
          table.filter (inBothRange key value)) := by
  rw [filter_inBothRange htable, bothRangeFrom]
  cases table.dropWhile fun e => decide (e.1 < key ∨ e.1 = key ∧ e.2 < value) with
  | nil => exact ⟨rfl, fun h => absurd rfl h⟩
  | cons e rest =>
    by_cases hkey : e.1 = key
    · rw [if_pos (by simp [hkey]), takeWhile_cons_of_pos (by simp [hkey])]
      refine ⟨rfl, fun _ => ?_⟩
      rw [ahead, hkey]
    · rw [if_neg (by simp [hkey]), takeWhile_cons_of_neg (by simp [hkey])]
      exact ⟨rfl, fun h => absurd rfl h⟩

theorem fst_of_inBothRange {key value : Bytes} {entries : List Entry} {e : Entry}
    (he : e ∈ entries.filter (inBothRange key value)) : e.1 = key :=
  (of_decide_eq_true (mem_filter.mp he).2).1

theorem of_head?_inBothRange {key value : Bytes} {entries : List Entry} :
    (⟨((entries.filter (inBothRange key value)).head?.map Prod.snd).map fun _ => key,
      (entries.filter (inBothRange key value)).head?.map Prod.snd⟩ : CursorEntry) =
      .of (entries.filter (inBothRange key value)).head? := by
  cases hhead : (entries.filter (inBothRange key value)).head? with
  | none => rfl
  | some e =>
    rw [← fst_of_inBothRange (mem_of_mem_head? hhead)]
    rfl

/-- In a table that is not cleared, the entries from a value of a key on are resolved. -/
theorem seekBothRange_resolves (h : c.Sound) (hdup : c.pureDupSort = true)
    (hcleared : c.marks.cleared = false) (key value : Bytes) :
    ∃ (c' : Cursor) (mem db : CursorEntry), c.seekBothRange key value =
        ((c'.resolveCursorPriority mem db .dup).1.value, (c'.resolveCursorPriority mem db .dup).2) ∧
      Lists .dup (c'.resolveCursorPriority mem db .dup)
        (overlay (rank c.pureDupSort) (c.memTable.filter (inBothRange key value))
          ((c.dbTable.filter (inBothRange key value)).filter c.live)) := by
  have hmem_ascending : Ascending (rank true) c.memTable := hdup ▸ h.mem_ascending
  have hdb_ascending : Ascending (rank true) c.dbTable := hdup ▸ h.db_ascending
  obtain ⟨hmem, hmem_pos⟩ := bothRangeFrom_spec hmem_ascending c.memCursor key value
  obtain ⟨hdb, hdb_pos⟩ := bothRangeFrom_spec hdb_ascending c.cursor key value
  let found : Cursor := { c with cursor := (bothRangeFrom c.dbTable c.cursor key value).2 }
  have hlive : (found.skipDeleted .dup (bothRangeFrom c.dbTable c.cursor key value).1).1 =
        ((c.dbTable.filter (inBothRange key value)).filter c.live).head? ∧
      OnDb (found.skipDeleted .dup (bothRangeFrom c.dbTable c.cursor key value).1).2 .dup
        ((c.dbTable.filter (inBothRange key value)).filter c.live) := by
    by_cases hnil : c.dbTable.filter (inBothRange key value) = []
    · rw [hdb, hnil]
      exact ⟨rfl, trivial⟩
    · have hspec := skipDeleted_spec (t := .dup) (by simp) found
      rw [hdb_pos hnil, ← hdb] at hspec
      exact hspec
  obtain ⟨hresult, hon⟩ := hlive
  obtain ⟨pos, hframe⟩ :=
    skipDeleted_frame found .dup (bothRangeFrom c.dbTable c.cursor key value).1
  rw [hframe] at hon
  refine ⟨{ c with
      cursor := pos
      memCursor := (bothRangeFrom c.memTable c.memCursor key value).2 },
    ⟨some key, (c.memTable.filter (inBothRange key value)).head?.map Prod.snd⟩,
    ⟨some key, ((c.dbTable.filter (inBothRange key value)).filter c.live).head?.map Prod.snd⟩,
    ?_, ?_⟩
  · rw [seekBothRange, if_neg (by simp [hcleared])]
    dsimp only
    rw [hresult, hframe, ← hmem]
  · refine Given.lists (?_ : Given _ _ _ _ (c.memTable.filter (inBothRange key value))
      ((c.dbTable.filter (inBothRange key value)).filter c.live)) hcleared rfl
    exact
      { kind := by simp
        dups := .inr hdup
        mem_shows := ⟨rfl, fun e he => by rw [fst_of_inBothRange (mem_of_mem_head? he)]⟩
        db_shows := ⟨rfl, fun e he => by
          rw [fst_of_inBothRange (mem_filter.mp (mem_of_mem_head? he)).1]⟩
        mem_key := fun _ => .inr ⟨rfl, rfl⟩
        db_key := fun _ => .inr ⟨rfl, rfl⟩
        upper_filled := Filled.filter h.mem_filled _
        lower_filled := Filled.filter (Filled.filter h.db_filled _) _
        upper_ascending := List.Pairwise.filter _ h.mem_ascending
        lower_ascending := List.Pairwise.filter _ (List.Pairwise.filter _ h.db_ascending)
        onMem := by
          cases hupper : c.memTable.filter (inBothRange key value) with
          | nil => trivial
          | cons a upper => exact (hmem_pos (by simp [hupper])).trans hupper
        onDb := hon }

/-- The loop over the values of a key from a value on. -/
theorem seekBothRange_lists (h : c.Sound) (hdup : c.pureDupSort = true) (key value : Bytes) :
    Lists .dup
      (⟨(c.seekBothRange key value).1.map fun _ => key, (c.seekBothRange key value).1⟩,
        (c.seekBothRange key value).2)
      (c.content.filter (inBothRange key value)) := by
  have hp (a b : Entry) (heq : rank c.pureDupSort a = rank c.pureDupSort b) :
      inBothRange key value a = inBothRange key value b := by
    rw [inBothRange, (rank_eq.mp heq).1, (rank_eq.mp heq).2 hdup, inBothRange]
  suffices hlists : (c.seekBothRange key value).1 =
        (c.content.filter (inBothRange key value)).head?.map Prod.snd ∧
      (c.content.filter (inBothRange key value) ≠ [] →
        Yields (stepEntry .dup) (c.seekBothRange key value).2
          (c.content.filter (inBothRange key value)).tail) by
    refine ⟨?_, hlists.2⟩
    rw [hlists.1]
    exact of_head?_inBothRange
  rw [content_filter h hp]
  cases hcleared : c.marks.cleared with
  | true =>
    have hmem_ascending : Ascending (rank true) c.memTable := hdup ▸ h.mem_ascending
    obtain ⟨hmem, hmem_pos⟩ := bothRangeFrom_spec hmem_ascending c.memCursor key value
    rw [if_pos rfl, seekBothRange, if_pos hcleared]
    dsimp only
    rw [hmem]
    refine ⟨rfl, fun hne => ?_⟩
    have hkind : NextType.dup ≠ .noDup := by simp
    let found : Cursor :=
      { c with memCursor := (bothRangeFrom c.memTable c.memCursor key value).2 }
    exact (lists_cleared (c := found) hkind hcleared (hmem_pos hne)).2 hne
  | false =>
    obtain ⟨c', mem, db, hresolve, hlists⟩ := seekBothRange_resolves h hdup hcleared key value
    rw [if_neg (by simp), hresolve]
    refine ⟨?_, hlists.2⟩
    dsimp only
    rw [hlists.1]
    cases (overlay (rank c.pureDupSort) (c.memTable.filter (inBothRange key value))
      ((c.dbTable.filter (inBothRange key value)).filter c.live)).head? <;> rfl

end Cursor

end MemoryMutation

end Erigon
