/-
The cursor of an in-memory batch of changes over a table of the database.  It goes through the
entries of the batch and of the database together, and leaves out entries of the database that
the batch has deleted or has itself.
-/
import Erigon.ByteOrder
import Erigon.Overlay
import Erigon.Streams

namespace Erigon

namespace MemoryMutation

abbrev Entry := Bytes × Bytes

/-- A key and a value as the cursors return them; both may be missing. -/
structure CursorEntry where
  key : Option Bytes
  value : Option Bytes
deriving DecidableEq

def CursorEntry.of : Option Entry → CursorEntry
  | none => ⟨none, none⟩
  | some e => ⟨some e.1, some e.2⟩

inductive NextType
  | normal
  | dup
  | noDup
deriving DecidableEq

/-- A step of a cursor of the database that stands on the first of the given entries: what it
returns, and the entries from where it stands then. -/
def dbNext : NextType → List Entry → Option Entry × List Entry
  | _, [] => (none, [])
  | .normal, _ :: rest => (rest.head?, rest)
  | .dup, e :: rest =>
    if (rest.head?.map Prod.fst) = some e.1 then (rest.head?, rest) else (none, e :: rest)
  | .noDup, e :: rest =>
    let rest := rest.dropWhile fun f => decide (f.1 = e.1)
    (rest.head?, rest)

/-- What the batch has noted of a table beside its own entries. -/
structure Marks where
  deletedEntries : Finset Bytes
  deletedDups : Finset Entry
  cleared : Bool

/-- The cursor, for a table without conversion of keys: it sorts duplicates or has one value for
each key. -/
structure Cursor where
  pureDupSort : Bool
  marks : Marks
  dbTable : List Entry
  memTable : List Entry
  cursor : List Entry
  memCursor : List Entry
  currentPair : CursorEntry
  currentDbEntry : CursorEntry
  currentMemEntry : CursorEntry
  isPrevFromDb : Bool

/-- `makeCursor`. -/
def makeCursor (pureDupSort : Bool) (marks : Marks) (dbTable memTable : List Entry) : Cursor :=
  ⟨pureDupSort, marks, dbTable, memTable, [], [], .of none, .of none, .of none, false⟩

namespace Cursor

variable (c : Cursor)

def isEntryDeleted (e : Entry) : Bool :=
  if c.pureDupSort then decide (e ∈ c.marks.deletedDups)
  else decide (e.1 ∈ c.marks.deletedEntries)

/-- The loop of `getNextOnDb`. -/
def nextLive (deleted : Entry → Bool) (t : NextType) :
    Nat → List Entry → Option Entry × List Entry
  | 0, pos => (none, pos)
  | fuel + 1, pos =>
    match dbNext t pos with
    | (none, pos) => (none, pos)
    | (some e, pos) => if deleted e then nextLive deleted t fuel pos else (some e, pos)

variable (t : NextType)

def getNextOnDb : Option Entry × Cursor :=
  let r := nextLive c.isEntryDeleted t (c.cursor.length + 1) c.cursor
  (r.1, { c with cursor := r.2 })

/-- `bytes.Equal`, for which a missing slice is as good as an empty one. -/
def bytesEqual (a b : Option Bytes) : Bool := decide (a.getD [] = b.getD [])

/-- `bytes.Compare(a, b) > 0`. -/
def bytesGreater (a b : Option Bytes) : Bool := decide (b.getD [] < a.getD [])

theorem bytesEqual_iff {a b : Option Bytes} : bytesEqual a b = true ↔ a.getD [] = b.getD [] :=
  ⟨of_decide_eq_true, decide_eq_true⟩

def skipIntersection (mem db : CursorEntry) (t : NextType) : CursorEntry × Cursor :=
  if bytesEqual mem.key db.key then
    let skip :=
      if t = .normal then !c.pureDupSort || bytesEqual mem.value db.value
      else bytesEqual mem.value db.value
    if skip then
      let r := c.getNextOnDb t
      (.of r.1, r.2)
    else (db, c)
  else (db, c)

def resolveCursorPriority (mem db : CursorEntry) (t : NextType) :
    CursorEntry × Cursor :=
  if mem.value.isNone && db.value.isNone then (.of none, c)
  else
    let r := c.skipIntersection mem db t
    let db := r.1
    let c := r.2
    let isPrevFromDb :=
      if bytesEqual mem.key db.key then
        db.value.isSome && (mem.value.isNone || bytesGreater mem.value db.value)
      else db.value.isSome && (mem.key.isNone || bytesGreater mem.key db.key)
    let pair := if isPrevFromDb then db else mem
    (pair,
      { c with
        currentDbEntry := if db.value.isNone then .of none else db
        currentMemEntry := if mem.value.isNone then .of none else mem
        isPrevFromDb := isPrevFromDb
        currentPair := pair })

/-- An entry of the database that is found first, or if it is deleted, the next one. -/
def skipDeleted (e : Option Entry) : Option Entry × Cursor :=
  match e with
  | none => (none, c)
  | some e => if c.isEntryDeleted e then c.getNextOnDb t else (some e, c)

def first : CursorEntry × Cursor :=
  let c := { c with memCursor := c.memTable }
  if c.marks.cleared then (.of c.memCursor.head?, c)
  else
    let c := { c with cursor := c.dbTable }
    let r := c.skipDeleted .normal c.cursor.head?
    r.2.resolveCursorPriority (.of c.memCursor.head?) (.of r.1) .normal

/-- `Next` and `NextDup`. -/
def step : CursorEntry × Cursor :=
  if c.marks.cleared then
    let r := dbNext t c.memCursor
    (.of r.1, { c with memCursor := r.2 })
  else if c.isPrevFromDb then
    let r := c.getNextOnDb t
    r.2.resolveCursorPriority c.currentMemEntry (.of r.1) t
  else
    let r := dbNext t c.memCursor
    resolveCursorPriority { c with memCursor := r.2 } (.of r.1) c.currentDbEntry t

def next : CursorEntry × Cursor := c.step .normal

def nextDup : CursorEntry × Cursor := c.step .dup

/-- The entries from the first key on that is not less. -/
def seekFrom (table : List Entry) (seek : Bytes) : List Entry :=
  table.dropWhile fun e => decide (e.1 < seek)

def seek (key : Bytes) : CursorEntry × Cursor :=
  if c.marks.cleared then
    let c := { c with memCursor := seekFrom c.memTable key }
    (.of c.memCursor.head?, c)
  else
    let c := { c with cursor := seekFrom c.dbTable key }
    let r := c.skipDeleted .normal c.cursor.head?
    let c := { r.2 with memCursor := seekFrom r.2.memTable key }
    c.resolveCursorPriority (.of c.memCursor.head?) (.of r.1) .normal

def seekExact (key : Bytes) : CursorEntry × Cursor :=
  let r := c.seek key
  if r.1.key.isSome && bytesEqual r.1.key (some key) then r else (.of none, r.2)

/-- The entries from the first value on of the key that is not less, if there is one; otherwise
the cursor stays where it was. -/
def bothRangeFrom (table pos : List Entry) (key value : Bytes) : Option Entry × List Entry :=
  let found := table.dropWhile fun e => decide (e.1 < key ∨ e.1 = key ∧ e.2 < value)
  if (found.head?.map Prod.fst) = some key then (found.head?, found) else (none, pos)

def seekBothRange (key value : Bytes) : Option Bytes × Cursor :=
  if c.marks.cleared then
    let r := bothRangeFrom c.memTable c.memCursor key value
    (r.1.map Prod.snd, { c with memCursor := r.2 })
  else
    let found := bothRangeFrom c.dbTable c.cursor key value
    let r := skipDeleted { c with cursor := found.2 } .dup found.1
    let mem := bothRangeFrom r.2.memTable r.2.memCursor key value
    let s := resolveCursorPriority { r.2 with memCursor := mem.2 }
      ⟨some key, mem.1.map Prod.snd⟩ ⟨some key, r.1.map Prod.snd⟩ .dup
    (s.1.value, s.2)

/-- A step of a loop that ends where no key is returned. -/
def stepEntry (c : Cursor) : Option (Entry × Cursor) :=
  match c.step t with
  | (⟨some key, some value⟩, c) => some ((key, value), c)
  | _ => none

/-- The entries that a loop goes through: the one where it starts and those that its steps
return. -/
def Lists (start : CursorEntry × Cursor) (entries : List Entry) : Prop :=
  start.1 = .of entries.head? ∧ (entries ≠ [] → Yields (stepEntry t) start.2 entries.tail)

end Cursor

end MemoryMutation

end Erigon
