/-
What the cursor of an in-memory batch goes through: the entries of the batch laid over those
entries of the database that the batch has not deleted.
-/
import Erigon.MemoryMutation

namespace Erigon

open List

namespace MemoryMutation

open CursorEntry

open Overlay

/-- Entries compare by their keys, and in a table that sorts duplicates by their values, too. -/
def rank (pureDupSort : Bool) (e : Entry) : Bytes ×ₗ Bytes :=
  toLex (e.1, if pureDupSort then e.2 else [])

theorem rank_lt {pureDupSort : Bool} {a b : Entry} :
    rank pureDupSort a < rank pureDupSort b ↔
      a.1 < b.1 ∨ a.1 = b.1 ∧ pureDupSort = true ∧ a.2 < b.2 := by
  rw [rank, rank, Prod.Lex.toLex_lt_toLex]
  cases pureDupSort <;> simp

theorem rank_eq {pureDupSort : Bool} {a b : Entry} :
    rank pureDupSort a = rank pureDupSort b ↔ a.1 = b.1 ∧ (pureDupSort = true → a.2 = b.2) := by
  rw [rank, rank, toLex_inj, Prod.mk.injEq]
  cases pureDupSort <;> simp

/-- The entries that steps of a kind lead to from where a cursor stands, with that entry. -/
def ahead : NextType → List Entry → List Entry
  | _, [] => []
  | .normal, e :: rest => e :: rest
  | .dup, e :: rest => e :: rest.takeWhile fun f => decide (f.1 = e.1)
  | .noDup, e :: _ => [e]

theorem ahead_length_le (t : NextType) (pos : List Entry) : (ahead t pos).length ≤ pos.length := by
  cases pos with
  | nil => cases t <;> rfl
  | cons e rest =>
    cases t with
    | normal => exact le_rfl
    | dup => exact Nat.succ_le_succ (takeWhile_sublist _).length_le
    | noDup => simp [ahead]

theorem dbNext_ahead {t : NextType} (ht : t ≠ .noDup) {pos : List Entry} {e : Entry}
    {rest : List Entry} (hahead : ahead t pos = e :: rest) :
    (dbNext t pos).1 = rest.head? ∧ (rest ≠ [] → ahead t (dbNext t pos).2 = rest) := by
  cases pos with
  | nil => cases t <;> cases hahead
  | cons e' pos =>
    cases t with
    | noDup => exact absurd rfl ht
    | normal =>
      obtain ⟨rfl, rfl⟩ := List.cons.inj hahead
      refine ⟨rfl, fun _ => ?_⟩
      cases pos <;> rfl
    | dup =>
      obtain ⟨rfl, rfl⟩ := List.cons.inj hahead
      cases pos with
      | nil => exact ⟨rfl, fun h => absurd rfl h⟩
      | cons f pos =>
        rw [dbNext]
        by_cases hf : f.1 = e'.1
        · rw [if_pos (by simp [hf]), takeWhile_cons_of_pos (by simp [hf])]
          refine ⟨rfl, fun _ => ?_⟩
          rw [ahead, hf]
        · rw [if_neg (by simp [hf]), takeWhile_cons_of_neg (by simp [hf])]
          exact ⟨rfl, fun h => absurd rfl h⟩

namespace Cursor

def live (c : Cursor) (e : Entry) : Bool := !c.isEntryDeleted e

/-- The cursor of the batch stands on the first of the entries. -/
def OnMem (c : Cursor) (t : NextType) : List Entry → Prop
  | [] => True
  | a :: upper => ahead t c.memCursor = a :: upper

/-- The cursor of the database stands on the first of the entries, and the others are those
behind it that are not deleted. -/
def OnDb (c : Cursor) (t : NextType) : List Entry → Prop
  | [] => True
  | b :: lower => ∃ raw, ahead t c.cursor = b :: raw ∧ raw.filter c.live = lower

variable {t : NextType} {c : Cursor}

theorem nextLive_spec (ht : t ≠ .noDup) {fuel : Nat} {pos : List Entry} {e : Entry}
    {rest : List Entry} (hahead : ahead t pos = e :: rest) (hfuel : rest.length < fuel) :
    (nextLive c.isEntryDeleted t fuel pos).1 = (rest.filter c.live).head? ∧
      ∀ b lower, rest.filter c.live = b :: lower →
        ∃ raw, ahead t (nextLive c.isEntryDeleted t fuel pos).2 = b :: raw ∧
          raw.filter c.live = lower := by
  induction fuel generalizing pos e rest with
  | zero => omega
  | succ fuel ih =>
    obtain ⟨hresult, hpos⟩ := dbNext_ahead ht hahead
    rw [nextLive]
    cases rest with
    | nil =>
      have hnone : dbNext t pos = (none, (dbNext t pos).2) := Prod.ext hresult rfl
      rw [hnone]
      exact ⟨rfl, fun b lower h => by cases h⟩
    | cons f rest =>
      have hsome : dbNext t pos = (some f, (dbNext t pos).2) := Prod.ext hresult rfl
      rw [hsome]
      dsimp only
      have hnext := hpos (by simp)
      split
      · rename_i hdeleted
        have hlive : ¬ c.live f = true := by simp [live, hdeleted]
        rw [filter_cons_of_neg hlive]
        exact ih hnext (by simpa using hfuel)
      · rename_i hkept
        have hlive : c.live f = true := by simpa [live] using hkept
        rw [filter_cons_of_pos hlive]
        refine ⟨rfl, fun b lower h => ?_⟩
        obtain ⟨rfl, rfl⟩ := List.cons.inj h
        exact ⟨rest, hnext, rfl⟩

theorem getNextOnDb_spec (ht : t ≠ .noDup) {e : Entry} {raw : List Entry}
    (hahead : ahead t c.cursor = e :: raw) :
    (c.getNextOnDb t).1 = (raw.filter c.live).head? ∧
      OnDb (c.getNextOnDb t).2 t (raw.filter c.live) := by
  have hlength := ahead_length_le t c.cursor
  rw [hahead, length_cons] at hlength
  have hfuel : raw.length < c.cursor.length + 1 := by omega
  obtain ⟨hresult, hpos⟩ := nextLive_spec ht (c := c) hahead hfuel
  refine ⟨hresult, ?_⟩
  cases hlower : raw.filter c.live with
  | nil => trivial
  | cons b lower => exact hpos b lower hlower

theorem skipDeleted_spec (ht : t ≠ .noDup) (c : Cursor) :
    (c.skipDeleted t (ahead t c.cursor).head?).1 = ((ahead t c.cursor).filter c.live).head? ∧
      OnDb (c.skipDeleted t (ahead t c.cursor).head?).2 t ((ahead t c.cursor).filter c.live) := by
  cases hahead : ahead t c.cursor with
  | nil => exact ⟨rfl, trivial⟩
  | cons e raw =>
    rw [head?_cons, skipDeleted]
    split
    · rename_i hdeleted
      have hlive : ¬ c.live e = true := by simp [live, hdeleted]
      rw [filter_cons_of_neg hlive]
      exact getNextOnDb_spec ht hahead
    · rename_i hkept
      have hlive : c.live e = true := by simpa [live] using hkept
      rw [filter_cons_of_pos hlive]
      exact ⟨rfl, raw, hahead, rfl⟩

/-- A pair of a key and a value shows an entry, or that there is none. -/
structure Shows (e : CursorEntry) (o : Option Entry) : Prop where
  value : e.value = o.map Prod.snd
  key : ∀ x, o = some x → e.key = some x.1

theorem Shows.of (o : Option Entry) : Shows (.of o) o := by
  cases o with
  | none => exact ⟨rfl, fun x h => by cases h⟩
  | some e => exact ⟨rfl, fun x h => by cases h; rfl⟩

variable {e db : CursorEntry}

theorem Shows.eq_of {x : Entry} (h : Shows e (some x)) : e = .of (some x) := by
  obtain ⟨key, value⟩ := e
  have hvalue : value = some x.2 := h.value
  have hkey : key = some x.1 := h.key x rfl
  rw [hkey, hvalue]
  rfl

/-- An entry that shows nothing is stored without its key. -/
theorem Shows.ite_eq {o : Option Entry} (h : Shows e o) :
    (if e.value.isNone then .of none else e) = CursorEntry.of o := by
  cases o with
  | none =>
    have hvalue : e.value = none := h.value
    rw [hvalue]
    rfl
  | some x =>
    rw [h.eq_of]
    rfl

def Filled (l : List Entry) : Prop := ∀ e ∈ l, e.1 ≠ [] ∧ e.2 ≠ []

/-- What `resolveCursorPriority` may be given: a missing entry has no key, or both entries are
looked for under one key. -/
structure Given (c : Cursor) (t : NextType) (mem db : CursorEntry) (upper lower : List Entry) :
    Prop where
  kind : t ≠ .noDup
  dups : t = .normal ∨ c.pureDupSort = true
  mem_shows : Shows mem upper.head?
  db_shows : Shows db lower.head?
  mem_key : upper = [] → mem.key = none ∨ t = .dup ∧ mem.key = db.key
  db_key : lower = [] → db.key = none ∨ t = .dup ∧ mem.key = db.key
  upper_filled : Filled upper
  lower_filled : Filled lower
  upper_ascending : Ascending (rank c.pureDupSort) upper
  lower_ascending : Ascending (rank c.pureDupSort) lower
  onMem : OnMem c t upper
  onDb : OnDb c t lower

/-- The first entries of both lists have different ranks. -/
def Apart (pureDupSort : Bool) (upper lower : List Entry) : Prop :=
  ∀ a ∈ upper.head?, ∀ b ∈ lower.head?, rank pureDupSort a ≠ rank pureDupSort b

/-- A cursor that is moved on, and what it is at then. -/
def MovedOn (c : Cursor) (t : NextType) (mem : CursorEntry) (upper lower : List Entry)
    (moved : CursorEntry × Cursor) : Prop :=
  ∃ pos lower', moved.2 = { c with cursor := pos } ∧
    Given { c with cursor := pos } t mem moved.1 upper lower' ∧
    overlay (rank c.pureDupSort) upper lower' = overlay (rank c.pureDupSort) upper lower ∧
    Apart c.pureDupSort upper lower'

variable {lower : List Entry}

theorem Given.skipIntersection {mem : CursorEntry} {upper : List Entry}
    (h : Given c t mem db upper lower) (hsome : upper ≠ [] ∨ lower ≠ []) :
    MovedOn c t mem upper lower (c.skipIntersection mem db t) := by
  -- nothing is skipped unless both are there and of one rank
  have hkeep (hskip : c.skipIntersection mem db t = (db, c))
      (hapart : Apart c.pureDupSort upper lower) :
      MovedOn c t mem upper lower (c.skipIntersection mem db t) := by
    rw [hskip]
    exact ⟨c.cursor, lower, rfl, h, rfl, hapart⟩
  cases upper with
  | nil =>
    cases lower with
    | nil => exact absurd rfl (hsome.resolve_left fun h => h rfl)
    | cons b lower =>
      refine hkeep ?_ (by simp [Apart])
      have hb := h.lower_filled b mem_cons_self
      have hvalue : mem.value = none := h.mem_shows.value
      rw [Cursor.skipIntersection, h.db_shows.eq_of, hvalue]
      rcases h.mem_key rfl with hkey | ⟨rfl, hkey⟩
      · have hne : ¬ bytesEqual none (of (some b)).key = true :=
          fun heq => hb.1 (bytesEqual_iff.mp heq).symm
        rw [hkey, if_neg hne]
      · have hne : ¬ bytesEqual none (of (some b)).value = true :=
          fun heq => hb.2 (bytesEqual_iff.mp heq).symm
        simp [hne]
  | cons a upper =>
    have ha := h.upper_filled a mem_cons_self
    cases lower with
    | nil =>
      refine hkeep ?_ (by simp [Apart])
      have hvalue : db.value = none := h.db_shows.value
      rw [Cursor.skipIntersection, h.mem_shows.eq_of, hvalue]
      rcases h.db_key rfl with hkey | ⟨rfl, hkey⟩
      · have hne : ¬ bytesEqual (of (some a)).key none = true :=
          fun heq => ha.1 (bytesEqual_iff.mp heq)
        rw [hkey, if_neg hne]
      · have hne : ¬ bytesEqual (of (some a)).value none = true :=
          fun heq => ha.2 (bytesEqual_iff.mp heq)
        simp [hne]
    | cons b lower =>
      have hskip : c.skipIntersection mem db t =
          if rank c.pureDupSort a = rank c.pureDupSort b then
            (.of (c.getNextOnDb t).1, (c.getNextOnDb t).2)
          else (db, c) := by
        have hkey : bytesEqual mem.key db.key = true ↔ a.1 = b.1 := by
          rw [h.mem_shows.eq_of, h.db_shows.eq_of]
          exact bytesEqual_iff
        have hvalue : bytesEqual mem.value db.value = true ↔ a.2 = b.2 := by
          rw [h.mem_shows.eq_of, h.db_shows.eq_of]
          exact bytesEqual_iff
        have hcond : (if t = .normal then !c.pureDupSort || bytesEqual mem.value db.value
            else bytesEqual mem.value db.value) = true ↔ (c.pureDupSort = true → a.2 = b.2) := by
          rw [← hvalue]
          rcases h.dups with rfl | hdup
          · cases c.pureDupSort <;> simp
          · simp [hdup]
        rw [Cursor.skipIntersection]
        by_cases hab : a.1 = b.1
        · rw [if_pos (hkey.mpr hab)]
          dsimp only
          by_cases hdups : c.pureDupSort = true → a.2 = b.2
          · rw [if_pos (hcond.mpr hdups), if_pos (rank_eq.mpr ⟨hab, hdups⟩)]
          · rw [if_neg (mt hcond.mp hdups), if_neg fun heq => hdups (rank_eq.mp heq).2]
        · rw [if_neg (mt hkey.mp hab), if_neg fun heq => hab (rank_eq.mp heq).1]
      by_cases heq : rank c.pureDupSort a = rank c.pureDupSort b
      · obtain ⟨raw, hahead, hraw⟩ := h.onDb
        obtain ⟨hresult, hon⟩ := getNextOnDb_spec h.kind hahead
        rw [hraw] at hresult hon
        have hascending := pairwise_cons.mp h.lower_ascending
        rw [hskip, if_pos heq]
        refine ⟨_, lower, rfl, ?_, (overlay_skip heq).symm, ?_⟩
        · exact
            { kind := h.kind
              dups := h.dups
              mem_shows := h.mem_shows
              db_shows := hresult ▸ Shows.of _
              mem_key := fun hnil => by cases hnil
              db_key := fun hnil => by
                rw [hresult, hnil]
                exact .inl rfl
              upper_filled := h.upper_filled
              lower_filled := fun e he => h.lower_filled e (mem_cons_of_mem b he)
              upper_ascending := h.upper_ascending
              lower_ascending := hascending.2
              onMem := h.onMem
              onDb := hon }
        · intro x hx y hy hxy
          obtain rfl : x = a := by simpa using hx.symm
          have := hascending.1 y (mem_of_mem_head? hy)
          rw [← heq, hxy] at this
          exact lt_irrefl _ this
      · refine hkeep (by rw [hskip, if_neg heq]) ?_
        intro x hx y hy
        obtain rfl : x = a := by simpa using hx.symm
        obtain rfl : y = b := by simpa using hy.symm
        exact heq

/-- The next entry is one of the database. -/
def fromDb (pureDupSort : Bool) : List Entry → List Entry → Bool
  | _, [] => false
  | [], _ :: _ => true
  | a :: _, b :: _ => decide (rank pureDupSort b < rank pureDupSort a)

/-- The cursor has returned the first entry of the overlay of the two lists. -/
structure Stands (c : Cursor) (t : NextType) (upper lower : List Entry) : Prop where
  given : Given c t c.currentMemEntry c.currentDbEntry upper lower
  mem_entry : c.currentMemEntry = .of upper.head?
  db_entry : c.currentDbEntry = .of lower.head?
  apart : Apart c.pureDupSort upper lower
  prev : c.isPrevFromDb = fromDb c.pureDupSort upper lower

/-- Of two entries that are not of one rank, the choice of `resolveCursorPriority` is that of the
smaller. -/
theorem Given.isPrevFromDb {mem : CursorEntry} {upper : List Entry}
    (h : Given c t mem db upper lower) (hsome : upper ≠ [] ∨ lower ≠ [])
    (hapart : Apart c.pureDupSort upper lower) :
    (if bytesEqual mem.key db.key then
        db.value.isSome && (mem.value.isNone || bytesGreater mem.value db.value)
      else db.value.isSome && (mem.key.isNone || bytesGreater mem.key db.key)) =
      fromDb c.pureDupSort upper lower := by
  cases lower with
  | nil =>
    have hvalue : db.value = none := h.db_shows.value
    simp [hvalue, fromDb]
  | cons b lower =>
    have hb := h.lower_filled b mem_cons_self
    cases upper with
    | nil =>
      have hvalue : mem.value = none := h.mem_shows.value
      rw [hvalue, h.db_shows.eq_of]
      rcases h.mem_key rfl with hkey | ⟨rfl, hkey⟩
      · have hne : ¬ bytesEqual none (of (some b)).key = true :=
          fun heq => hb.1 (bytesEqual_iff.mp heq).symm
        rw [hkey, if_neg hne]
        rfl
      · rw [h.db_shows.eq_of] at hkey
        have heq : bytesEqual mem.key (of (some b)).key = true :=
          bytesEqual_iff.mpr (by rw [hkey])
        rw [if_pos heq]
        rfl
    | cons a upper =>
      have hne := hapart a rfl b rfl
      rw [h.mem_shows.eq_of, h.db_shows.eq_of, fromDb]
      have hkey : bytesEqual (of (some a)).key (of (some b)).key = true ↔
          a.1 = b.1 := bytesEqual_iff
      have hgreater (x y : Bytes) : bytesGreater (some x) (some y) = true ↔ y < x :=
        decide_eq_true_iff
      rw [Bool.eq_iff_iff]
      by_cases hab : a.1 = b.1
      · -- under one key the values decide
        have hdup : c.pureDupSort = true := by
          by_contra hdup
          exact hne (rank_eq.mpr ⟨hab, fun h => absurd h hdup⟩)
        rw [if_pos (hkey.mpr hab)]
        simp only [of, Option.isSome_some, Option.isNone_some, Bool.true_and, Bool.false_or,
          hgreater, decide_eq_true_iff, rank_lt, hab, hdup, lt_irrefl, true_and, false_or]
      · rw [if_neg (mt hkey.mp hab)]
        simp only [of, Option.isSome_some, Option.isNone_some, Bool.true_and, Bool.false_or,
          hgreater, decide_eq_true_iff, rank_lt, Ne.symm hab, false_and, or_false]

theorem head?_overlay {pureDupSort : Bool} {upper : List Entry}
    (hapart : Apart pureDupSort upper lower) :
    (overlay (rank pureDupSort) upper lower).head? =
      if fromDb pureDupSort upper lower then lower.head? else upper.head? := by
  cases upper with
  | nil => cases lower <;> simp [overlay, fromDb]
  | cons a upper =>
    cases lower with
    | nil => simp [overlay, fromDb]
    | cons b lower =>
      rw [fromDb]
      by_cases hlt : rank pureDupSort b < rank pureDupSort a
      · rw [overlay_lower hlt]
        simp [hlt]
      · have hlt' := lt_of_le_of_ne (not_lt.mp hlt) (hapart a rfl b rfl)
        rw [overlay_upper hlt']
        simp [hlt]

theorem Given.resolve {mem : CursorEntry} {upper : List Entry} (h : Given c t mem db upper lower) :
    (c.resolveCursorPriority mem db t).1 =
        .of (overlay (rank c.pureDupSort) upper lower).head? ∧
      ((upper ≠ [] ∨ lower ≠ []) → ∃ lower',
        overlay (rank c.pureDupSort) upper lower' = overlay (rank c.pureDupSort) upper lower ∧
        (c.resolveCursorPriority mem db t).2.marks = c.marks ∧
        (c.resolveCursorPriority mem db t).2.pureDupSort = c.pureDupSort ∧
        Stands (c.resolveCursorPriority mem db t).2 t upper lower') := by
  by_cases hsome : upper ≠ [] ∨ lower ≠ []
  · have hneither : ¬ (mem.value.isNone && db.value.isNone) = true := by
      rw [h.mem_shows.value, h.db_shows.value, Bool.and_eq_true]
      rintro ⟨hmem, hdb⟩
      rcases hsome with hne | hne
      · cases upper with
        | nil => exact hne rfl
        | cons a upper => cases hmem
      · cases lower with
        | nil => exact hne rfl
        | cons b lower => cases hdb
    obtain ⟨pos, lower', hcursor, hgiven, hoverlay, hapart⟩ := h.skipIntersection hsome
    have hsome' : upper ≠ [] ∨ lower' ≠ [] := by
      by_contra hnone
      rw [not_or, not_not, not_not] at hnone
      rw [hnone.1, hnone.2] at hoverlay
      cases upper with
      | nil =>
        rw [overlay, overlay] at hoverlay
        exact hsome.elim (fun hne => hne rfl) fun hne => hne hoverlay.symm
      | cons a upper => cases hnone.1
    have hprev : (if bytesEqual mem.key (c.skipIntersection mem db t).1.key then _ else _) =
        fromDb c.pureDupSort upper lower' := hgiven.isPrevFromDb hsome' hapart
    have hmem := hgiven.mem_shows.ite_eq
    have hdb := hgiven.db_shows.ite_eq
    rw [resolveCursorPriority, if_neg hneither]
    dsimp only
    rw [hprev, hcursor, hmem, hdb]
    refine ⟨?_, fun _ => ⟨lower', hoverlay, rfl, rfl, ?_⟩⟩
    · rw [← hoverlay, head?_overlay hapart]
      cases hfrom : fromDb c.pureDupSort upper lower' with
      | true =>
        cases lower' with
        | nil => cases upper <;> cases hfrom
        | cons b lower' => exact hgiven.db_shows.eq_of
      | false =>
        cases upper with
        | nil =>
          cases lower' with
          | nil => exact absurd rfl (hsome'.elim id id)
          | cons b lower' => cases hfrom
        | cons a upper => exact hgiven.mem_shows.eq_of
    · exact
        { given :=
            { hgiven with
              mem_shows := Shows.of _
              db_shows := Shows.of _
              mem_key := fun hnil => by rw [hnil]; exact .inl rfl
              db_key := fun hnil => by rw [hnil]; exact .inl rfl }
          mem_entry := rfl
          db_entry := rfl
          apart := hapart
          prev := rfl }
  · rw [not_or, not_not, not_not] at hsome
    obtain ⟨rfl, rfl⟩ := hsome
    have hmem : mem.value = none := h.mem_shows.value
    have hdb : db.value = none := h.db_shows.value
    rw [resolveCursorPriority, hmem, hdb]
    exact ⟨by simp [overlay], fun hne => absurd rfl (hne.elim id id)⟩

/-- What a step of the cursor leaves to be resolved: the entries behind the one it stands on. -/
theorem Stands.step {upper : List Entry} (h : Stands c t upper lower)
    (hsome : upper ≠ [] ∨ lower ≠ []) (hcleared : c.marks.cleared = false) :
    ∃ c' mem db upper' lower', c.step t = c'.resolveCursorPriority mem db t ∧
      Given c' t mem db upper' lower' ∧ c'.marks = c.marks ∧ c'.pureDupSort = c.pureDupSort ∧
      overlay (rank c.pureDupSort) upper' lower' =
        (overlay (rank c.pureDupSort) upper lower).tail := by
  have hgiven := h.given
  cases hfrom : fromDb c.pureDupSort upper lower with
  | true =>
    cases lower with
    | nil => cases upper <;> cases hfrom
    | cons b lower =>
      obtain ⟨raw, hahead, hraw⟩ := hgiven.onDb
      obtain ⟨hresult, hon⟩ := getNextOnDb_spec hgiven.kind hahead
      rw [hraw] at hresult hon
      refine ⟨(c.getNextOnDb t).2, c.currentMemEntry, .of (c.getNextOnDb t).1, upper, lower,
        ?_, ?_, rfl, rfl, ?_⟩
      · rw [Cursor.step, if_neg (by simp [hcleared]), if_pos (h.prev.trans hfrom)]
      · exact
          { hgiven with
            db_shows := hresult ▸ Shows.of _
            mem_key := fun hnil => by
              rw [h.mem_entry, hnil]
              exact .inl rfl
            db_key := fun hnil => by
              rw [hresult, hnil]
              exact .inl rfl
            lower_filled := fun e he => hgiven.lower_filled e (mem_cons_of_mem b he)
            lower_ascending := (pairwise_cons.mp hgiven.lower_ascending).2
            onDb := hon }
      · cases upper with
        | nil => simp [overlay]
        | cons a upper =>
          rw [overlay_lower (by simpa [fromDb] using hfrom), tail_cons]
  | false =>
    cases upper with
    | nil =>
      cases lower with
      | nil => exact absurd rfl (hsome.elim id id)
      | cons b lower => cases hfrom
    | cons a upper =>
      obtain ⟨hresult, hpos⟩ := dbNext_ahead hgiven.kind hgiven.onMem
      refine ⟨{ c with memCursor := (dbNext t c.memCursor).2 }, .of (dbNext t c.memCursor).1,
        c.currentDbEntry, upper, lower, ?_, ?_, rfl, rfl, ?_⟩
      · rw [Cursor.step, if_neg (by simp [hcleared]), if_neg (by rw [h.prev, hfrom]; simp)]
      · exact
          { hgiven with
            mem_shows := hresult ▸ Shows.of _
            mem_key := fun hnil => by
              rw [hresult, hnil]
              exact .inl rfl
            db_key := fun hnil => by
              rw [h.db_entry, hnil]
              exact .inl rfl
            upper_filled := fun e he => hgiven.upper_filled e (mem_cons_of_mem a he)
            upper_ascending := (pairwise_cons.mp hgiven.upper_ascending).2
            onMem := by
              cases upper with
              | nil => trivial
              | cons a' upper => exact hpos (by simp) }
      · cases lower with
        | nil => rw [overlay_nil, overlay_nil, tail_cons]
        | cons b lower =>
          have hle : rank c.pureDupSort a ≤ rank c.pureDupSort b := by
            simpa [fromDb] using hfrom
          rw [overlay_upper (lt_of_le_of_ne hle (h.apart a rfl b rfl)), tail_cons]

theorem Lists.yields {entries : List Entry} (h : Lists t (c.step t) entries) :
    Yields (stepEntry t) c entries := by
  obtain ⟨hfirst, hrest⟩ := h
  cases entries with
  | nil =>
    refine .done ?_
    have hstep : c.step t = (.of none, (c.step t).2) := Prod.ext hfirst rfl
    rw [stepEntry, hstep]
    rfl
  | cons e entries =>
    refine .step ?_ (hrest (by simp))
    have hstep : c.step t = (.of (some e), (c.step t).2) := Prod.ext hfirst rfl
    rw [stepEntry, hstep]
    rfl

/-- From what it is given on, the cursor goes through the overlay. -/
theorem Given.lists {entries : List Entry} {mem : CursorEntry} {upper : List Entry}
    (h : Given c t mem db upper lower) (hcleared : c.marks.cleared = false)
    (hentries : overlay (rank c.pureDupSort) upper lower = entries) :
    Lists t (c.resolveCursorPriority mem db t) entries := by
  induction entries generalizing c mem db upper lower with
  | nil => exact ⟨hentries ▸ h.resolve.1, fun hne => absurd rfl hne⟩
  | cons e entries ih =>
    obtain ⟨hresult, hstands⟩ := h.resolve
    refine ⟨hentries ▸ hresult, fun _ => ?_⟩
    have hsome : upper ≠ [] ∨ lower ≠ [] := by
      by_contra hnone
      rw [not_or, not_not, not_not] at hnone
      rw [hnone.1, hnone.2, overlay_nil] at hentries
      cases hentries
    obtain ⟨lower', hoverlay, hmarks, hdup, hst⟩ := hstands hsome
    have hsome' : upper ≠ [] ∨ lower' ≠ [] := by
      by_contra hnone
      rw [not_or, not_not, not_not] at hnone
      rw [hentries, hnone.1, hnone.2, overlay_nil] at hoverlay
      cases hoverlay
    obtain ⟨c', mem', db', upper'', lower'', hstep, hgiven, hmarks', hdup', htail⟩ :=
      hst.step hsome' (hmarks ▸ hcleared)
    rw [hdup, hoverlay, hentries] at htail
    rw [tail_cons]
    have hlists := ih hgiven (by rw [hmarks', hmarks, hcleared]) (by rw [hdup', hdup, htail]; rfl)
    exact Lists.yields (hstep ▸ hlists)

end Cursor

end MemoryMutation

end Erigon
