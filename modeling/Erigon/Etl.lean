/-
The collector of the ETL step.  Pairs are put into a buffer; a full buffer is
sorted and flushed to a file.  Loading merges the files with a heap, the older
file first among equal keys, and hands the pairs to a load function.
-/
import Erigon.ByteOrder
import Erigon.KWayMerge
import Erigon.Varint

namespace Erigon

/-- A byte slice: `none` is the nil slice, which is not the empty one. -/
abbrev GoSlice := Option Bytes

namespace GoSlice

def bytes (s : GoSlice) : Bytes := s.getD []

/-- `append(s, v...)`: nothing appended to nil is nil. -/
def append (s : GoSlice) (v : Bytes) : GoSlice :=
  if s = none ∧ v = [] then none else some (s.bytes ++ v)

/-- `s[:0]`. -/
def cleared (s : GoSlice) : GoSlice := s.map fun _ => []

/-- The length that is stored, `-1` for nil. -/
def storedLen : GoSlice → Int
  | none => -1
  | some v => v.length

end GoSlice

/-- A key, which is never nil, and its value. -/
abbrev Pair := Bytes × GoSlice

namespace Etl

inductive BufferType
  | sortableSlice
  | sortableAppend
  | sortableOldestAppeared
  deriving DecidableEq

/-! ### Buffers -/

/-- Two neighbours of `offsets` and of `lens`: where a key and its value are. -/
structure Slot where
  keyOffset : Nat
  valOffset : Nat
  keyLen : Int
  valLen : Int
  deriving DecidableEq

structure SortableBuffer where
  slots : List Slot
  data : Bytes
  size : Int
  optimalSize : Int
  deriving DecidableEq

namespace SortableBuffer

variable (b : SortableBuffer)

def put (k : Bytes) (v : GoSlice) : SortableBuffer :=
  { b with
    slots := b.slots ++
      [⟨b.data.length, b.data.length + k.length, k.length, v.storedLen⟩]
    data := b.data ++ k ++ v.bytes
    size := b.size + (k.length + v.storedLen + 32) }

variable (offset : Nat) (length : Int)

/-- `data[offset : offset+length]`. -/
def part : Bytes :=
  (b.data.drop offset).take length.toNat

def key (slot : Slot) : Bytes := b.part slot.keyOffset slot.keyLen

def sort : SortableBuffer :=
  { b with slots := stableSort b.key b.slots }

def getPart (buf : GoSlice) : GoSlice :=
  if 0 < length then buf.append (b.part offset length)
  else if length = 0 then some []
  else none

def get (slot : Slot) (keyBuf valBuf : GoSlice) : GoSlice × GoSlice :=
  (b.getPart slot.keyOffset slot.keyLen keyBuf, b.getPart slot.valOffset slot.valLen valBuf)

def writePart : Bytes :=
  putVarint length ++ if length ≤ 0 then [] else b.part offset length

def write : Bytes :=
  b.slots.flatMap fun slot =>
    b.writePart slot.keyOffset slot.keyLen ++ b.writePart slot.valOffset slot.valLen

end SortableBuffer

/-- `appendSortableBuffer` and `oldestEntrySortableBuffer`, which differ in `Put`
only.  The map is a list of entries with different keys; sorting makes its
order irrelevant. -/
structure EntryBuffer where
  entries : List Pair
  sortedBuf : List Pair
  size : Nat
  optimalSize : Int
  deriving DecidableEq

namespace EntryBuffer

variable (b : EntryBuffer) (k : Bytes)

def lookup : Option GoSlice :=
  (b.entries.find? fun e => decide (e.1 = k)).map Prod.snd

/-- `entries[k] = v`. -/
def store (entries : List Pair) (k : Bytes) (v : GoSlice) : List Pair :=
  (entries.filter fun e => decide (e.1 ≠ k)) ++ [(k, v)]

def putAppend (v : GoSlice) : EntryBuffer :=
  let stored := b.lookup k
  { b with
    size := b.size + (if stored.isNone then k.length else 0) + v.bytes.length
    entries := store b.entries k ((stored.getD none).append v.bytes) }

def putOldest (v : GoSlice) : EntryBuffer :=
  if (b.lookup k).isSome then b -- keep the old entry, ignore the new value
  else
    { b with
      size := b.size + (k.length * 2 + v.bytes.length)
      entries := store b.entries k v }

def sort : EntryBuffer :=
  { b with sortedBuf := stableSort Prod.fst (b.sortedBuf ++ b.entries) }

def get (entry : Pair) (keyBuf valBuf : GoSlice) : GoSlice × GoSlice :=
  (keyBuf.append entry.1, valBuf.append entry.2.bytes)

def write : Bytes :=
  b.sortedBuf.flatMap fun entry =>
    putVarint entry.1.length ++ entry.1 ++ putVarint entry.2.storedLen ++ entry.2.bytes

end EntryBuffer

inductive Buffer
  | sortable (b : SortableBuffer)
  | appending (b : EntryBuffer)
  | oldest (b : EntryBuffer)
  deriving DecidableEq

namespace Buffer

/-- `getBufferByType`. -/
def new (bufType : BufferType) (optimalSize : Int) : Buffer :=
  match bufType with
  | .sortableSlice => .sortable ⟨[], [], 0, optimalSize⟩
  | .sortableAppend => .appending ⟨[], [], 0, optimalSize⟩
  | .sortableOldestAppeared => .oldest ⟨[], [], 0, optimalSize⟩

def put (buf : Buffer) (k : Bytes) (v : GoSlice) : Buffer :=
  match buf with
  | .sortable b => .sortable (b.put k v)
  | .appending b => .appending (b.putAppend k v)
  | .oldest b => .oldest (b.putOldest k v)

def len : Buffer → Nat
  | .sortable b => b.slots.length
  | .appending b | .oldest b => b.entries.length

def sort : Buffer → Buffer
  | .sortable b => .sortable b.sort
  | .appending b => .appending b.sort
  | .oldest b => .oldest b.sort

/-- `none` for an index out of range. -/
def get (buf : Buffer) (i : Nat) (keyBuf valBuf : GoSlice) : Option (GoSlice × GoSlice) :=
  match buf with
  | .sortable b => b.slots[i]?.map fun slot => b.get slot keyBuf valBuf
  | .appending b | .oldest b =>
    b.sortedBuf[i]?.map fun entry => EntryBuffer.get entry keyBuf valBuf

def write : Buffer → Bytes
  | .sortable b => b.write
  | .appending b | .oldest b => b.write

def reset : Buffer → Buffer
  | .sortable b => .sortable { b with slots := [], data := [], size := 0 }
  | .appending b => .appending { b with entries := [], sortedBuf := [], size := 0 }
  | .oldest b => .oldest { b with entries := [], sortedBuf := [], size := 0 }

def checkFlushSize : Buffer → Bool
  | .sortable b => decide (b.optimalSize ≤ b.size)
  | .appending b | .oldest b => decide (b.optimalSize ≤ b.size)

end Buffer

/-! ### Data providers -/

/-- A flushed file, of which the unread bytes are kept, or a buffer in memory. -/
inductive DataProvider
  | file (unread : Bytes)
  | memory (buffer : Buffer) (currentIndex : Nat)

/-- `io.ReadFull` into the extension of a slice by `n` bytes; a negative `n` is nil. -/
def readPart (n : Int) (buf : GoSlice) (unread : Bytes) :
    Except ReadError (GoSlice × Bytes) :=
  if 0 ≤ n then
    if n.toNat ≤ unread.length then
      .ok (some (buf.bytes ++ unread.take n.toNat), unread.drop n.toNat)
    else .error (if unread = [] then .eof else .unexpectedEOF)
  else .ok (none, unread)

def readElementFromDisk (unread : Bytes) (keyBuf valBuf : GoSlice) :
    Except ReadError ((GoSlice × GoSlice) × Bytes) := do
  let (n, unread) ← readVarint unread
  let (key, unread) ← readPart n keyBuf unread
  let (m, unread) ← readVarint unread
  let (value, unread) ← readPart m valBuf unread
  return ((key, value), unread)

namespace DataProvider

def next (provider : DataProvider) (keyBuf valBuf : GoSlice) :
    Except ReadError ((GoSlice × GoSlice) × DataProvider) :=
  match provider with
  | .file unread =>
    (readElementFromDisk unread keyBuf valBuf).map fun r => (r.1, .file r.2)
  | .memory buffer currentIndex =>
    match buffer.get currentIndex keyBuf valBuf with
    | none => .error .eof
    | some r => .ok (r, .memory buffer (currentIndex + 1))

/-- More than the elements left in a provider. -/
def bound : DataProvider → Nat
  | .file unread => unread.length
  | .memory buffer currentIndex => buffer.len - currentIndex

end DataProvider

/-! ### Merging -/

structure HeapElem where
  key : GoSlice
  value : GoSlice
  timeIdx : Nat

/-- An element of the heap together with its provider: every provider but those
at their end has exactly one element in the heap. -/
structure Cursor where
  elem : HeapElem
  provider : DataProvider

def less (c d : Cursor) : Bool :=
  if c.elem.key.bytes = d.elem.key.bytes then decide (c.elem.timeIdx < d.elem.timeIdx)
  else decide (c.elem.key.bytes < d.elem.key.bytes)

/-- What stops a merge. -/
inductive LoadError (E : Type)
  | panic
  | read (e : ReadError)
  | load (e : E)

/-- The state of the load function and the variables `prevK` and `prevV`. -/
structure LoadState (S : Type) where
  load : S
  prevK : GoSlice
  prevV : GoSlice

section Merge

variable {S E : Type} (loadFunc : S → GoSlice → GoSlice → Except E S) (bufType : BufferType)

/-- What is done with an element that is taken from the heap. -/
def consume (st : LoadState S) (key value : GoSlice) :
    Except (LoadError E) (LoadState S) :=
  match bufType with
  | .sortableOldestAppeared =>
    if st.prevK.bytes = key.bytes then .ok st
    else ((loadFunc st.load key value).mapError .load).map fun s =>
      { st with load := s, prevK := key }
  | .sortableAppend =>
    if st.prevK.bytes = key.bytes then
      .ok { st with prevV := st.prevV.append value.bytes }
    else if st.prevK = none then .ok { st with prevK := key, prevV := value }
    else ((loadFunc st.load st.prevK st.prevV).mapError .load).map fun s =>
      ⟨s, key, value⟩
  | .sortableSlice =>
    ((loadFunc st.load key value).mapError .load).map fun s => { st with load := s }

/-- One pass of the main loading loop. -/
def loadStep (st : LoadState S) (c : Cursor) :
    Except (LoadError E) (LoadState S × Option Cursor) := do
  let st ← consume loadFunc bufType st c.elem.key c.elem.value
  match c.provider.next c.elem.key.cleared c.elem.value.cleared with
  | .ok ((key, value), provider) =>
    .ok (st, some ⟨⟨key, value, c.elem.timeIdx⟩, provider⟩)
  | .error .eof => .ok (st, none)
  | .error e => .error (.read e)

/-- The first element of every provider; there must be one. -/
def firstElems : Nat → List DataProvider → Array Cursor → Except (LoadError E) (Array Cursor)
  | _, [], h => .ok h
  | i, provider :: rest, h =>
    match provider.next none none with
    | .ok ((key, value), provider) =>
      firstElems (i + 1) rest (BinaryHeap.push less h ⟨⟨key, value, i⟩, provider⟩)
    | .error _ => .error .panic

def mergeSortFiles (providers : List DataProvider) (s : S) :
    Except (LoadError E) S := do
  let h ← firstElems 0 providers #[]
  let st ← popLoop less (loadStep loadFunc bufType)
    (providers.map DataProvider.bound).sum h ⟨s, none, none⟩
  if bufType = .sortableAppend ∧ st.prevK ≠ none then
    (loadFunc st.load st.prevK st.prevV).mapError .load
  else .ok st.load

end Merge

/-! ### The collector -/

structure Collector where
  buf : Buffer
  dataProviders : List DataProvider
  bufType : BufferType
  allFlushed : Bool

namespace Collector

def new (bufType : BufferType) (optimalSize : Int) : Collector :=
  ⟨.new bufType optimalSize, [], bufType, false⟩

variable (c : Collector)

/-- A flush in the background differs only in when the file is written. -/
def flushBuffer (canStoreInRam : Bool) : Collector :=
  if c.buf.len = 0 then c
  else if canStoreInRam ∧ c.dataProviders = [] then
    { c with
      buf := c.buf.sort
      dataProviders := [.memory c.buf.sort 0]
      allFlushed := true }
  else
    { c with
      buf := c.buf.reset
      dataProviders := c.dataProviders ++ [.file c.buf.sort.write] }

def collect (k : Bytes) (v : GoSlice) : Collector :=
  let c := { c with buf := c.buf.put k v }
  if c.buf.checkFlushSize then c.flushBuffer false else c

/-- `Load` without the table that the load function may write to. -/
def load {S E : Type} (loadFunc : S → GoSlice → GoSlice → Except E S) (s : S) :
    Except (LoadError E) S :=
  let c := if c.allFlushed then c else c.flushBuffer true
  mergeSortFiles loadFunc c.bufType c.dataProviders s

end Collector

end Etl

end Erigon
