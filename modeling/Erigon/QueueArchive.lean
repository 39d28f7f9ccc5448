/-
The archive of a queue of the beacon state.  Every block stores how many elements left the queue
and which came in.  What left is not recorded but inferred: the writer looks for the last element
of the old queue in the new one, from behind.
-/
import Mathlib.Data.List.DropRight
import Erigon.SSZCodec
import Erigon.SlotTables

namespace Erigon

open List EncodableSSZ

namespace Antiquary

variable {T : Type}

/-! ### Writing a difference -/

/-- The conversion `uint32(x)` of a signed number. -/
def uint32 (x : Int) : Nat := (x % 2 ^ 32).toNat

structure SSZQueueEncoder (T : Type) where
  previousQueueSize : Nat
  previousLastElem : Option T

namespace SSZQueueEncoder

def new : SSZQueueEncoder T := ⟨0, none⟩

/-- The last element of an earlier queue stays where the old queue is empty. -/
def initializeQueue (q : SSZQueueEncoder T) (oldQueue : List T) : SSZQueueEncoder T where
  previousQueueSize := oldQueue.length
  previousLastElem := if oldQueue.length > 0 then oldQueue.getLast? else q.previousLastElem

variable [DecidableEq T]

/-- The loop of `findEndIndex` over the first `i` elements, from behind. -/
def findEndIndex (updatedQueue : List T) (previousLastElem : Option T) : Nat → Int
  | 0 => -1
  | i + 1 =>
    if updatedQueue[i]? = previousLastElem then i
    else findEndIndex updatedQueue previousLastElem i

variable [EncodableSSZ T]

/-- Each element is written behind its length. -/
def writeElements : List T → Except String Bytes
  | [] => .ok []
  | element :: list => do
    let sszEncodedElement ← encodeSSZ element
    let rest ← writeElements list
    return leUint 4 sszEncodedElement.length ++ sszEncodedElement ++ rest

def writeDiff (q : SSZQueueEncoder T) (updatedQueue : List T) : Except String Bytes := do
  let endIndex : Int :=
    if q.previousQueueSize ≠ 0 then
      findEndIndex updatedQueue q.previousLastElem updatedQueue.length
    else -1
  let lengthToTruncate : Nat :=
    if q.previousQueueSize ≠ 0 then
      if endIndex ≠ -1 then uint32 (q.previousQueueSize - (endIndex + 1))
      else uint32 q.previousQueueSize
    else 0
  let elements ← writeElements (updatedQueue.drop (endIndex + 1).toNat)
  return leUint 4 lengthToTruncate ++ elements

end SSZQueueEncoder

/-! ### Applying a difference -/

inductive ReadError where
  | eof
  | unexpectedEOF

def ReadError.text : ReadError → String
  | .eof => "EOF"
  | .unexpectedEOF => "unexpected EOF"

/-- `binary.Read` of 32 bits. -/
def readUint32 (r : Bytes) : Except ReadError (Nat × Bytes) :=
  match readLE 4 r with
  | some v => .ok v
  | none => .error (if r = [] then .eof else .unexpectedEOF)

theorem readUint32_rest {r rest : Bytes} {n : Nat} (h : readUint32 r = .ok (n, rest)) :
    rest.length + 4 = r.length := by
  rw [readUint32] at h
  split at h
  · rename_i v heq
    cases h
    exact readLE_rest_length heq
  · cases h

theorem readUint32_append {n : Nat} (hn : n < 2 ^ 32) (rest : Bytes) :
    readUint32 (leUint 4 n ++ rest) = .ok (n, rest) := by
  rw [readUint32, readLE_leUint_append (by simpa using hn)]

variable [EncodableSSZ T]

def readElements (r : Bytes) (queue : ListSSZ T) : Except String (ListSSZ T) :=
  match _h : readUint32 r with
  | .error .eof => .ok queue
  | .error .unexpectedEOF => .error ReadError.unexpectedEOF.text
  | .ok (length, rest) =>
    if rest.length < length then
      .error (if rest = [] then ReadError.eof.text else ReadError.unexpectedEOF.text)
    else
      match decodeSSZ (rest.take length) with
      | .error e => .error e
      | .ok elem => readElements (rest.drop length) (queue.append elem)
termination_by r.length
decreasing_by
  have := readUint32_rest _h
  rw [length_drop]
  omega

theorem readElements_of_read {r rest : Bytes} {length : Nat}
    (h : readUint32 r = .ok (length, rest)) (hlength : length ≤ rest.length) {elem : T}
    (hdecode : decodeSSZ (rest.take length) = .ok elem) (queue : ListSSZ T) :
    readElements r queue = readElements (rest.drop length) (queue.append elem) := by
  rw [readElements]
  split
  · simp_all
  · simp_all
  · rename_i length' rest' h'
    rw [h] at h'
    cases h'
    rw [if_neg (by omega), hdecode]

def applySSZQueueDiff (r : Bytes) (queue : ListSSZ T) : Except String (ListSSZ T) :=
  match readUint32 r with
  | .error e => .error e.text
  | .ok (lengthToTruncate, rest) => readElements rest (queue.cut lengthToTruncate)

/-! ### The archive -/

structure QueueArchive (T : Type) where
  queue : ListSSZ T
  writer : SSZQueueEncoder T
  diffs : Table
  dumps : Table

def antiquateListSSZ (z : Zstd) (slot : Nat) (l : ListSSZ T) (collector : Table) :
    Except String Table := do
  let uncompressed ← l.encode
  return collector.collect (slot - slot % slotsPerDump) (z.compress uncompressed)

namespace QueueArchive

def collectDump (z : Zstd) (slot : Nat) (a : QueueArchive T) : Except String (QueueArchive T) := do
  let dumps ← antiquateListSSZ z slot a.queue a.dumps
  return { a with dumps := dumps }

/-- The archive before the first block: that of a genesis state, which is dumped, or of a chain
before it has the queue. -/
def start (z : Zstd) (slot : Nat) (dumped : Bool) (queue : ListSSZ T) :
    Except String (QueueArchive T) :=
  let a : QueueArchive T := ⟨queue, .new, [], []⟩
  if dumped then a.collectDump z slot else .ok a

variable [DecidableEq T]

/-- One slot, with the queue after its block if there is one. -/
def step (z : Zstd) (a : QueueArchive T) (slot : Nat) :
    Option (List T) → Except String (QueueArchive T)
  | none => if slot % slotsPerDump = 0 then a.collectDump z slot else .ok a
  | some after => do
    let writer := a.writer.initializeQueue a.queue.list
    let a : QueueArchive T := { a with writer, queue := { a.queue with list := after } }
    let a ← if slot % slotsPerDump = 0 then a.collectDump z slot else .ok a
    let diff ← writer.writeDiff after
    return { a with diffs := a.diffs.collect slot diff }

def run (z : Zstd) (a : QueueArchive T) (slot : Nat) :
    List (Option (List T)) → Except String (QueueArchive T)
  | [] => .ok a
  | block :: blocks => do
    let a ← a.step z slot block
    a.run z (slot + 1) blocks

end QueueArchive

/-- The differences of `n` slots from `currSlot` on. -/
def readDiffs (diffs : Table) (currSlot : Nat) : Nat → ListSSZ T → Except String (ListSSZ T)
  | 0, out => .ok out
  | n + 1, out => do
    let v := diffs.get currSlot
    let out ← if v.length = 0 then .ok out else applySSZQueueDiff v out
    readDiffs diffs (currSlot + 1) n out

def readDump (z : Zstd) (dumps : Table) (freshDumpSlot : Nat) (out : ListSSZ T) :
    Except String (ListSSZ T) := do
  let compressed := dumps.get freshDumpSlot
  if compressed.length ≠ 0 then
    let sszEnc ← z.decompress compressed
    out.decode sszEnc
  else
    return out

def readQueueSSZ (z : Zstd) (dumps diffs : Table) (slot : Nat) (out : ListSSZ T) :
    Except String (ListSSZ T) := do
  let freshDumpSlot := slot - slot % slotsPerDump
  let out ← readDump z dumps freshDumpSlot out
  readDiffs diffs (freshDumpSlot + 1) (slot - freshDumpSlot) out

/-! ### What a difference does -/

section Difference

variable [DecidableEq T]

/-- The new queue up to its last element that is equal to the last of the old one. -/
def keptPart (old new : List T) : List T :=
  match old.getLast? with
  | none => []
  | some last => new.rdropWhile fun t => decide (t ≠ last)

/-- The elements that the writer takes for old ones are the last of the old queue. -/
def Inferred (old new : List T) : Prop := keptPart old new <:+ old

omit [EncodableSSZ T] in
theorem keptPart_append_drop (old new : List T) :
    keptPart old new ++ new.drop (keptPart old new).length = new := by
  refine prefix_iff_eq_append.mp ?_
  rw [keptPart]
  split
  · exact nil_prefix
  · exact rdropWhile_prefix _ _

omit [EncodableSSZ T] in
theorem findEndIndex_eq (new : List T) (last : T) {i : Nat} (hi : i ≤ new.length) :
    SSZQueueEncoder.findEndIndex new (some last) i + 1 =
      ((new.take i).rdropWhile fun t => decide (t ≠ last)).length := by
  induction i with
  | zero => simp [SSZQueueEncoder.findEndIndex]
  | succ i ih =>
    have hget : new[i]? = some (new[i]) := getElem?_eq_getElem hi
    rw [SSZQueueEncoder.findEndIndex, hget, take_succ_eq_append_getElem hi]
    by_cases heq : new[i] = last
    · rw [if_pos (congrArg some heq), rdropWhile_concat_neg _ _ _ (by simpa using heq)]
      simp
      omega
    · rw [if_neg (by simpa using heq), rdropWhile_concat_pos _ _ _ (by simpa using heq)]
      exact ih (Nat.le_of_succ_le hi)

/-- The number of elements that the writer takes for removed, in 32 bits. -/
def removed (old new : List T) : Nat := uint32 (old.length - (keptPart old new).length)

variable {size : Nat} (codec : FixedSizeSSZ T size)

def elementBytes (l : List T) : Bytes :=
  l.flatMap fun t => leUint 4 size ++ codec.bytes t

omit [DecidableEq T] in
theorem writeElements_eq (l : List T) :
    SSZQueueEncoder.writeElements l = .ok (elementBytes codec l) := by
  induction l with
  | nil => rfl
  | cons t l ih =>
    rw [SSZQueueEncoder.writeElements, codec.encode_eq, ih]
    simp [elementBytes, bind, Except.bind, codec.length_eq, pure, Except.pure]

/-- What is written for the step from one queue to another. -/
def diffBytes (old new : List T) : Bytes :=
  leUint 4 (removed old new) ++ elementBytes codec (new.drop (keptPart old new).length)

theorem writeDiff_eq (writer : SSZQueueEncoder T) (old new : List T) :
    (writer.initializeQueue old).writeDiff new = .ok (diffBytes codec old new) := by
  rw [SSZQueueEncoder.writeDiff, SSZQueueEncoder.initializeQueue]
  cases hlast : old.getLast? with
  | none =>
    rw [getLast?_eq_none_iff] at hlast
    subst hlast
    simp [writeElements_eq codec, diffBytes, keptPart, removed, uint32, bind, Except.bind, pure,
      Except.pure]
  | some last =>
    have hne : old.length ≠ 0 := by
      intro hzero
      rw [eq_nil_of_length_eq_zero hzero] at hlast
      cases hlast
    have hkept : keptPart old new = new.rdropWhile fun t => decide (t ≠ last) := by
      rw [keptPart, hlast]
    have hindex := findEndIndex_eq new last le_rfl
    rw [take_length, ← hkept] at hindex
    dsimp only
    rw [if_pos hne, if_pos (Nat.pos_of_ne_zero hne), if_pos hne]
    have hcount : (if SSZQueueEncoder.findEndIndex new (some last) new.length ≠ -1 then
        uint32 (old.length - (SSZQueueEncoder.findEndIndex new (some last) new.length + 1))
        else uint32 old.length) = removed old new := by
      rw [removed, hindex]
      split
      · rfl
      · congr 1
        omega
    rw [hcount, hindex, Int.toNat_natCast, writeElements_eq codec]
    rfl

omit [DecidableEq T] in
theorem readElements_eq (l : List T) (queue : ListSSZ T) :
    readElements (elementBytes codec l) queue =
      .ok { queue with list := queue.list ++ l } := by
  induction l generalizing queue with
  | nil =>
    rw [readElements]
    simp [elementBytes, readUint32, readLE]
  | cons t l ih =>
    have hbytes : elementBytes codec (t :: l) =
        leUint 4 size ++ (codec.bytes t ++ elementBytes codec l) := by
      simp [elementBytes]
    have hdecode := codec.decode_eq t []
    rw [append_nil] at hdecode
    have hread := readUint32_append codec.size_lt (codec.bytes t ++ elementBytes codec l)
    have htake : (codec.bytes t ++ elementBytes codec l).take size = codec.bytes t :=
      take_left' (codec.length_eq t)
    rw [hbytes, readElements_of_read hread (by simp [codec.length_eq]) (htake ▸ hdecode),
      drop_left' (codec.length_eq t), ih]
    simp [ListSSZ.append]

/-- Applied to the old queue, the difference keeps some of its last elements and adds the rest of
the new queue. -/
theorem applySSZQueueDiff_eq (old new : List T) (queue : ListSSZ T) (hqueue : queue.list = old) :
    applySSZQueueDiff (diffBytes codec old new) queue =
      .ok { queue with
        list := old.drop (removed old new) ++ new.drop (keptPart old new).length } := by
  have hlt : removed old new < 2 ^ 32 := by
    rw [removed, uint32]
    omega
  rw [applySSZQueueDiff, diffBytes, readUint32_append hlt]
  dsimp only
  rw [readElements_eq, ListSSZ.cut_eq, hqueue]

omit [EncodableSSZ T] in
/-- The difference gives the new queue back if its old elements were inferred. -/
theorem applied_eq_iff {old new : List T} (hold : old.length < 2 ^ 32) :
    old.drop (removed old new) ++ new.drop (keptPart old new).length = new ↔
      Inferred old new := by
  have hsplit := keptPart_append_drop old new
  constructor
  · intro heq
    have hkept : old.drop (removed old new) = keptPart old new :=
      append_cancel_right (heq.trans hsplit.symm)
    rw [Inferred, ← hkept]
    exact drop_suffix _ _
  · intro hinferred
    have hle := hinferred.length_le
    have hremoved : removed old new = old.length - (keptPart old new).length := by
      rw [removed, uint32]
      omega
    rw [hremoved, ← suffix_iff_eq_drop.mp hinferred, hsplit]

end Difference

/-! ### Reading the tables -/

section Tables

variable {z : Zstd}

theorem readDiffs_succ (diffs : Table) (currSlot n : Nat) (out : ListSSZ T) :
    readDiffs diffs currSlot (n + 1) out =
      (readDiffs diffs currSlot n out).bind fun out =>
        if (diffs.get (currSlot + n)).length = 0 then .ok out
        else applySSZQueueDiff (diffs.get (currSlot + n)) out := by
  induction n generalizing currSlot out with
  | zero =>
    simp only [readDiffs, bind, Except.bind, Nat.add_zero]
    split
    · rfl
    · cases applySSZQueueDiff (diffs.get currSlot) out <;> rfl
  | succ n ih =>
    rw [readDiffs, readDiffs]
    have hslot : currSlot + 1 + n = currSlot + (n + 1) := by omega
    simp only [ih, hslot, bind]
    split
    · rfl
    · cases applySSZQueueDiff (diffs.get currSlot) out <;> rfl

variable {diffs diffs' dumps : Table}

theorem readDiffs_congr {currSlot n : Nat} (out : ListSSZ T)
    (h : ∀ t, currSlot ≤ t → t < currSlot + n → diffs.get t = diffs'.get t) :
    readDiffs diffs currSlot n out = readDiffs diffs' currSlot n out := by
  induction n with
  | zero => rfl
  | succ n ih =>
    rw [readDiffs_succ, readDiffs_succ, ih fun t hlo hhi => h t hlo (by omega),
      h (currSlot + n) (by omega) (by omega)]

theorem readQueueSSZ_congr {dumps' : Table} {slot : Nat} (out : ListSSZ T)
    (hdumps : ∀ t, t ≤ slot → dumps.get t = dumps'.get t)
    (hdiffs : ∀ t, t ≤ slot → diffs.get t = diffs'.get t) :
    readQueueSSZ z dumps diffs slot out = readQueueSSZ z dumps' diffs' slot out := by
  have hreads (out : ListSSZ T) :
      readDiffs diffs (slot - slot % slotsPerDump + 1) (slot - (slot - slot % slotsPerDump)) out =
        readDiffs diffs' (slot - slot % slotsPerDump + 1) (slot - (slot - slot % slotsPerDump))
          out :=
    readDiffs_congr out fun t hlo hhi => hdiffs t (by omega)
  simp only [readQueueSSZ, readDump, hdumps _ (Nat.sub_le slot _), hreads]

/-- Between dumps the next slot is read from the last one. -/
theorem readQueueSSZ_succ {slot : Nat} (hslot : (slot + 1) % slotsPerDump ≠ 0)
    (dumps diffs : Table) (out : ListSSZ T) :
    readQueueSSZ z dumps diffs (slot + 1) out =
      (readQueueSSZ z dumps diffs slot out).bind fun out =>
        if (diffs.get (slot + 1)).length = 0 then .ok out
        else applySSZQueueDiff (diffs.get (slot + 1)) out := by
  rw [slotsPerDump] at hslot
  have hfresh : slot + 1 - (slot + 1) % slotsPerDump = slot - slot % slotsPerDump := by
    rw [slotsPerDump]
    omega
  have hle : slot - slot % slotsPerDump ≤ slot := Nat.sub_le _ _
  have hcount : slot + 1 - (slot - slot % slotsPerDump) =
      slot - (slot - slot % slotsPerDump) + 1 := by omega
  have hlast : slot - slot % slotsPerDump + 1 + (slot - (slot - slot % slotsPerDump)) =
      slot + 1 := by omega
  simp only [readQueueSSZ, hfresh, hcount, readDiffs_succ, hlast, bind]
  cases readDump z dumps (slot - slot % slotsPerDump) out <;> rfl

variable {size : Nat} (codec : FixedSizeSSZ T size)

/-- A queue that a dump can hold. -/
structure Dumpable (size limit : Nat) (q : List T) : Prop where
  limit : q.length ≤ limit
  bytes : size * q.length < 2 ^ 32

include codec in
theorem readDump_eq {q : List T} {out : ListSSZ T} (hout : out.list = [])
    (hsize : out.bytesPerElement = size) (hq : Dumpable size out.limit q) {slot : Nat}
    (hdump : dumps.get slot = z.compress (q.flatMap codec.bytes)) :
    readDump z dumps slot out = .ok { out with list := q } := by
  rw [readDump]
  by_cases hempty : (dumps.get slot).length = 0
  · rw [if_neg (not_not.mpr hempty)]
    have hnil : q.flatMap codec.bytes = [] := by
      refine z.eq_nil _ ?_
      rw [← hdump]
      exact eq_nil_of_length_eq_zero hempty
    have hq : q = [] := by
      have hlength := ListSSZ.length_flatMap_bytes codec q
      rw [hnil, length_nil, eq_comm, Nat.mul_eq_zero] at hlength
      exact eq_nil_of_length_eq_zero (hlength.resolve_left codec.size_pos.ne')
    rw [hq, ← hout]
    rfl
  · rw [if_pos hempty, hdump, z.lossless]
    exact ListSSZ.decode_eq codec hsize hq.limit hq.bytes

end Tables

/-! ### Following a chain -/

namespace QueueArchive

section Run

variable {size : Nat} (codec : FixedSizeSSZ T size) {z : Zstd}

theorem collectDump_eq (slot : Nat) (a : QueueArchive T) :
    a.collectDump z slot = .ok { a with
      dumps := a.dumps.collect (slot - slot % slotsPerDump)
        (z.compress (a.queue.list.flatMap codec.bytes)) } := by
  rw [collectDump, antiquateListSSZ, ListSSZ.encode, ListSSZ.encodeElements_eq codec]
  rfl

/-- The archive after `slot`, with a queue that is read back. -/
structure Follows (z : Zstd) (out : ListSSZ T) (a : QueueArchive T) (slot : Nat) (q : List T) :
    Prop where
  queue : a.queue.list = q
  reads : readQueueSSZ z a.dumps a.diffs slot out = .ok { out with list := q }
  unwritten : ∀ t, slot < t → t < 2 ^ 32 → a.diffs.get t = []

variable [DecidableEq T]

/-- The tables after one more slot. -/
def dumpsAfter (z : Zstd) (dumps : Table) (slot : Nat) (q : List T) : Table :=
  if slot % slotsPerDump = 0 then dumps.collect slot (z.compress (q.flatMap codec.bytes))
  else dumps

def diffsAfter (diffs : Table) (slot : Nat) (q : List T) : Option (List T) → Table
  | none => diffs
  | some new => diffs.collect slot (diffBytes codec q new)

variable (a : QueueArchive T)

theorem step_eq (slot : Nat) (b : Option (List T)) :
    ∃ a', a.step z slot b = .ok a' ∧ a'.queue.list = b.getD a.queue.list ∧
      a'.dumps = dumpsAfter codec z a.dumps slot (b.getD a.queue.list) ∧
      a'.diffs = diffsAfter codec a.diffs slot a.queue.list b := by
  cases b with
  | none =>
    rw [step, dumpsAfter]
    split
    · rename_i hdump
      refine ⟨_, collectDump_eq codec slot a, rfl, ?_, rfl⟩
      rw [hdump]
      rfl
    · exact ⟨a, rfl, rfl, rfl, rfl⟩
  | some new =>
    rw [step, dumpsAfter]
    dsimp only
    rw [writeDiff_eq codec]
    split
    · rename_i hdump
      rw [collectDump_eq codec]
      refine ⟨_, rfl, rfl, ?_, rfl⟩
      dsimp only
      rw [hdump]
      rfl
    · exact ⟨_, rfl, rfl, rfl, rfl⟩

omit [DecidableEq T] in
theorem dumpsAfter_get (dumps : Table) {slot t : Nat} (hslot : slot < 2 ^ 32) (ht : t < slot)
    (q : List T) : (dumpsAfter codec z dumps slot q).get t = dumps.get t := by
  rw [dumpsAfter]
  split
  · exact Table.get_collect_ne _ _ hslot (ht.trans hslot) ht.ne'
  · rfl

theorem diffsAfter_get (diffs : Table) {slot t : Nat} (hslot : slot < 2 ^ 32) (ht : t < 2 ^ 32)
    (hne : t ≠ slot) (q : List T) (b : Option (List T)) :
    (diffsAfter codec diffs slot q b).get t = diffs.get t := by
  cases b with
  | none => rfl
  | some new => exact Table.get_collect_ne _ _ hslot ht hne.symm

include codec in
/-- One more slot leaves what is read for the slots before it. -/
theorem step_frame {slot : Nat} (hslot : slot + 1 < 2 ^ 32)
    (b : Option (List T)) (out : ListSSZ T) :
    ∃ a', a.step z (slot + 1) b = .ok a' ∧ ∀ t, t ≤ slot →
      readQueueSSZ z a'.dumps a'.diffs t out = readQueueSSZ z a.dumps a.diffs t out := by
  obtain ⟨a', hstep, -, hdumps, hdiffs⟩ := step_eq codec a (slot + 1) b (z := z)
  refine ⟨a', hstep, fun t ht => ?_⟩
  rw [hdumps, hdiffs]
  exact readQueueSSZ_congr out
    (fun u hu => dumpsAfter_get codec a.dumps hslot (by omega) _)
    (fun u hu => diffsAfter_get codec a.diffs hslot (by omega) (by omega) _ b)

variable {blocks : List (Option (List T))}

include codec in
theorem run_frame (slot : Nat) (hslots : slot + blocks.length < 2 ^ 32)
    (out : ListSSZ T) :
    ∃ a', a.run z (slot + 1) blocks = .ok a' ∧ ∀ t, t ≤ slot →
      readQueueSSZ z a'.dumps a'.diffs t out = readQueueSSZ z a.dumps a.diffs t out := by
  induction blocks generalizing a slot with
  | nil => exact ⟨a, rfl, fun _ _ => rfl⟩
  | cons b blocks ih =>
    rw [length_cons] at hslots
    obtain ⟨a₁, hstep, hframe⟩ := step_frame codec a (by omega : slot + 1 < 2 ^ 32) b out (z := z)
    obtain ⟨a', hrun, hrest⟩ := ih a₁ (slot + 1) (by omega)
    refine ⟨a', ?_, fun t ht => (hrest t (by omega)).trans (hframe t ht)⟩
    rw [run, hstep]
    exact hrun

include codec in
/-- What is read for one more slot is right if the old elements were inferred or there is a
dump. -/
theorem step_spec {out : ListSSZ T} (hout : out.list = []) (hsize : out.bytesPerElement = size)
    {a : QueueArchive T} {slot : Nat} {q : List T} (h : Follows z out a slot q)
    (hslot : slot + 1 < 2 ^ 32) (hq : q.length < 2 ^ 32) (b : Option (List T))
    (hnew : Dumpable size out.limit (b.getD q)) :
    ∃ a', a.step z (slot + 1) b = .ok a' ∧ a'.queue.list = b.getD q ∧
      (∀ t, slot + 1 < t → t < 2 ^ 32 → a'.diffs.get t = []) ∧
      (readQueueSSZ z a'.dumps a'.diffs (slot + 1) out = .ok { out with list := b.getD q } ↔
        ∀ n, b = some n → (slot + 1) % slotsPerDump ≠ 0 → Inferred q n) := by
  obtain ⟨a', hstep, hqueue, hdumps, hdiffs⟩ := step_eq codec a (slot + 1) b (z := z)
  obtain ⟨a₁, hstep₁, hbefore⟩ := step_frame codec a hslot b out (z := z)
  rw [hstep] at hstep₁
  cases hstep₁
  rw [h.queue] at hqueue hdumps hdiffs
  have hafter (t : Nat) (ht : slot + 1 < t) (ht' : t < 2 ^ 32) : a'.diffs.get t = [] := by
    rw [hdiffs, diffsAfter_get codec a.diffs hslot ht' (by omega)]
    exact h.unwritten t (by omega) ht'
  refine ⟨a', hstep, hqueue, hafter, ?_⟩
  by_cases hdump : (slot + 1) % slotsPerDump = 0
  · -- the dump of the slot itself is read
    have hget : a'.dumps.get (slot + 1) = z.compress ((b.getD q).flatMap codec.bytes) := by
      rw [hdumps, dumpsAfter, if_pos hdump, Table.get_collect_self]
    have hread := readDump_eq codec hout hsize hnew hget
    refine iff_of_true ?_ fun n _ hne => absurd hdump hne
    rw [readQueueSSZ, hdump, Nat.sub_zero, hread, Nat.sub_self]
    rfl
  · rw [readQueueSSZ_succ hdump, hbefore slot le_rfl, h.reads]
    cases b with
    | none =>
      have hnone : (a'.diffs.get (slot + 1)).length = 0 := by
        rw [hdiffs, diffsAfter, h.unwritten (slot + 1) (by omega) hslot]
        rfl
      refine iff_of_true ?_ fun n hn => by cases hn
      simp only [Except.bind, hnone, if_true]
      rfl
    | some new =>
      have hget : a'.diffs.get (slot + 1) = diffBytes codec q new := by
        rw [hdiffs, diffsAfter, Table.get_collect_self]
      have hne : (diffBytes codec q new).length ≠ 0 := by
        simp [diffBytes]
      simp only [Except.bind, hget, hne, if_false]
      rw [applySSZQueueDiff_eq codec q new _ rfl]
      simp only [Except.ok.injEq, ListSSZ.mk.injEq, and_true, Option.getD_some,
        applied_eq_iff hq, Option.some.injEq, forall_eq']
      tauto

/-- The queue after some slots. -/
def contents (q : List T) (blocks : List (Option (List T))) : List T :=
  blocks.foldl (fun q b => b.getD q) q

include codec in
theorem run_spec (out : ListSSZ T) (hout : out.list = []) (hsize : out.bytesPerElement = size)
    {a a' : QueueArchive T} {slot : Nat} {q : List T} (h : Follows z out a slot q)
    (hslots : slot + blocks.length < 2 ^ 32) (hq : Dumpable size out.limit q)
    (hblocks : ∀ n, some n ∈ blocks → Dumpable size out.limit n)
    (hrun : a.run z (slot + 1) blocks = .ok a') :
    (∀ i n, blocks[i]? = some (some n) →
        readQueueSSZ z a'.dumps a'.diffs (slot + 1 + i) out = .ok { out with list := n }) ↔
      ∀ i n, blocks[i]? = some (some n) → (slot + 1 + i) % slotsPerDump ≠ 0 →
        Inferred (contents q (blocks.take i)) n := by
  induction blocks generalizing a slot q with
  | nil => simp
  | cons b blocks ih =>
    rw [length_cons] at hslots
    have hnew : Dumpable size out.limit (b.getD q) := by
      cases b with
      | none => exact hq
      | some n => exact hblocks n mem_cons_self
    have hq' : q.length < 2 ^ 32 :=
      (Nat.le_mul_of_pos_left _ codec.size_pos).trans_lt hq.bytes
    obtain ⟨a₁, hstep, hqueue, hafter, hread⟩ :=
      step_spec codec hout hsize h (by omega) hq' b hnew
    rw [run, hstep] at hrun
    change a₁.run z (slot + 1 + 1) blocks = .ok a' at hrun
    obtain ⟨a₂, hrun₂, hframe⟩ :=
      run_frame codec a₁ (slot + 1) (by omega : _ + blocks.length < 2 ^ 32) out (z := z)
    rw [hrun] at hrun₂
    cases hrun₂
    have hhead := hframe (slot + 1) le_rfl
    -- both sides speak about the first slot and about the others
    have hsplit (P : Nat → List T → Prop) :
        (∀ i n, (b :: blocks)[i]? = some (some n) → P i n) ↔
          (∀ n, b = some n → P 0 n) ∧ ∀ i n, blocks[i]? = some (some n) → P (i + 1) n := by
      constructor
      · intro hall
        exact ⟨fun n hn => hall 0 n (by rw [hn]; rfl), fun i n hn => hall (i + 1) n hn⟩
      · rintro ⟨hzero, hsucc⟩ i n hn
        cases i with
        | zero => exact hzero n (Option.some.inj hn)
        | succ i => exact hsucc i n hn
    have hfirst : (∀ n, b = some n →
        readQueueSSZ z a'.dumps a'.diffs (slot + 1 + 0) out = .ok { out with list := n }) ↔
        ∀ n, b = some n → (slot + 1 + 0) % slotsPerDump ≠ 0 →
          Inferred (contents q ((b :: blocks).take 0)) n := by
      rw [Nat.add_zero, hhead]
      refine Iff.trans ?_ hread
      cases b with
      | none => exact iff_of_true (fun n hn => by cases hn) (hread.mpr fun n hn => by cases hn)
      | some new => simp
    rw [hsplit, hsplit, hfirst]
    refine and_congr_right fun hinferred => ?_
    have hfollows : Follows z out a₁ (slot + 1) (b.getD q) := ⟨hqueue, hread.mpr hinferred, hafter⟩
    have hrest := ih hfollows (by omega) hnew
      (fun n hn => hblocks n (mem_cons_of_mem b hn)) hrun
    have hshift (i : Nat) : slot + 1 + (i + 1) = slot + 1 + 1 + i := by omega
    refine Iff.trans (forall₂_congr fun i n => ?_) (hrest.trans (forall₂_congr fun i n => ?_))
    · rw [hshift i]
    · rw [hshift i, take_succ_cons]
      rfl

/-- The archive of a chain that begins at a slot. -/
def archive (z : Zstd) (slot : Nat) (dumped : Bool) (queue : ListSSZ T)
    (blocks : List (Option (List T))) : Except String (QueueArchive T) := do
  let a ← start z slot dumped queue
  a.run z (slot + 1) blocks

omit [DecidableEq T] in
include codec in
theorem start_follows (out : ListSSZ T) (hout : out.list = []) (hsize : out.bytesPerElement = size)
    (slot : Nat) (dumped : Bool) {q : List T} (hdumped : dumped = true ∨ q = [])
    (hq : Dumpable size out.limit q) :
    ∃ a, start z slot dumped { out with list := q } = .ok a ∧ Follows z out a slot q := by
  have hnone (n : Nat) (l : ListSSZ T) :
      readDiffs [] (slot - slot % slotsPerDump + 1) n l = .ok l := by
    induction n with
    | zero => rfl
    | succ n ih =>
      rw [readDiffs_succ, ih]
      rfl
  cases dumped with
  | true =>
    refine ⟨_, collectDump_eq codec slot _, rfl, ?_, fun t _ _ => rfl⟩
    rw [readQueueSSZ, readDump_eq codec hout hsize hq (Table.get_collect_self _ _ _)]
    exact hnone _ _
  | false =>
    obtain rfl := hdumped.resolve_left (by simp)
    refine ⟨_, rfl, rfl, ?_, fun t _ _ => rfl⟩
    have hself : { out with list := [] } = out := by rw [← hout]
    rw [hself]
    exact hnone _ _

/-- The archive gives back the queue after every block if, for every block that is not in a dump
slot, what stands in the new queue up to its last element equal to the last of the old queue is
the end of the old queue. -/
theorem reads_iff (codec : FixedSizeSSZ T size) (z : Zstd) (limit slot : Nat) (dumped : Bool)
    (q : List T) (blocks : List (Option (List T))) (hslots : slot + blocks.length < 2 ^ 32)
    (hdumped : dumped = true ∨ q = [])
    (hqueues : ∀ n, n = q ∨ some n ∈ blocks → Dumpable size limit n) :
    ∃ a, archive z slot dumped ⟨q, limit, size⟩ blocks = .ok a ∧
      ((∀ i n, blocks[i]? = some (some n) →
          readQueueSSZ z a.dumps a.diffs (slot + 1 + i) ⟨[], limit, size⟩ =
            .ok ⟨n, limit, size⟩) ↔
        ∀ i n, blocks[i]? = some (some n) → (slot + 1 + i) % slotsPerDump ≠ 0 →
          Inferred (contents q (blocks.take i)) n) := by
  let out : ListSSZ T := ⟨[], limit, size⟩
  have hq : Dumpable size limit q := hqueues q (.inl rfl)
  obtain ⟨a, hstart, hfollows⟩ :=
    start_follows codec out rfl rfl slot dumped hdumped hq (z := z)
  obtain ⟨a', hrun, -⟩ := run_frame codec a slot hslots out (z := z)
  refine ⟨a', ?_, run_spec codec out rfl rfl hfollows hslots hq
    (fun n hn => hqueues n (.inr hn)) hrun⟩
  have hstart' : start z slot dumped ⟨q, limit, size⟩ = .ok a := hstart
  rw [archive, hstart']
  exact hrun

end Run

/-- No compression. -/
def plain : Zstd where
  compress b := b
  decompress b := .ok b
  lossless _ := rfl
  eq_nil _ h := h

def withdrawal (i : Nat) : PendingPartialWithdrawal := ⟨BitVec.ofNat 64 i, 32, 7⟩

/-- Two withdrawals come in, one of them leaves, a third comes in. -/
def threeSlots : List (Option (List PendingPartialWithdrawal)) :=
  [some [withdrawal 1, withdrawal 2], none, some [withdrawal 2, withdrawal 3]]

theorem reads_threeSlots : ∃ a, archive plain 0 true ⟨[], 8, 24⟩ threeSlots = .ok a ∧
    readQueueSSZ plain a.dumps a.diffs 3 ⟨[], 8, 24⟩ =
      .ok ⟨[withdrawal 2, withdrawal 3], 8, 24⟩ := by
  have hqueues : ∀ n, n = [] ∨ some n ∈ threeSlots → Dumpable 24 8 n := by
    rintro n (rfl | hn)
    · exact ⟨by simp, by simp⟩
    · simp only [threeSlots, mem_cons, Option.some.injEq, reduceCtorEq, not_mem_nil,
        or_false, false_or] at hn
      rcases hn with rfl | rfl
      · exact ⟨by simp, by simp⟩
      · exact ⟨by simp, by simp⟩
  obtain ⟨a, ha, hiff⟩ := reads_iff PendingPartialWithdrawal.fixedSize plain 8 0 true []
    threeSlots (by simp [threeSlots]) (.inl rfl) hqueues
  refine ⟨a, ha, hiff.mpr (fun i n hn _ => ?_) 2 _ rfl⟩
  unfold Inferred
  match i with
  | 0 =>
    cases hn
    decide
  | 1 => cases hn
  | 2 =>
    cases hn
    decide
  | i + 3 => cases hn

/-- A queue of one withdrawal gets an equal one, and is not read back. -/
theorem not_reads_equal : ∃ a : QueueArchive PendingPartialWithdrawal,
    archive plain 0 true ⟨[withdrawal 1], 8, 24⟩ [some ([withdrawal 1] ++ [withdrawal 1])] =
      .ok a ∧
    readQueueSSZ plain a.dumps a.diffs 1 ⟨[], 8, 24⟩ ≠
      .ok ⟨[withdrawal 1] ++ [withdrawal 1], 8, 24⟩ := by
  let codec := PendingPartialWithdrawal.fixedSize
  let out : ListSSZ PendingPartialWithdrawal := ⟨[], 8, 24⟩
  have hone : Dumpable 24 out.limit [withdrawal 1] := ⟨by simp [out], by simp⟩
  obtain ⟨a, hstart, hfollows⟩ :=
    start_follows codec out rfl rfl 0 true (.inl rfl) hone (z := plain)
  have hslots : 0 + [some ([withdrawal 1] ++ [withdrawal 1])].length < 2 ^ 32 := by simp
  have hblocks : ∀ n, some n ∈ [some ([withdrawal 1] ++ [withdrawal 1])] →
      Dumpable 24 out.limit n := by
    intro n hn
    obtain rfl : n = [withdrawal 1] ++ [withdrawal 1] := by simpa using hn
    exact ⟨by simp [out], by simp⟩
  obtain ⟨a', hrun, -⟩ := run_frame codec a 0 hslots out (z := plain)
  have hiff := run_spec codec out rfl rfl hfollows hslots hone hblocks hrun
  refine ⟨a', ?_, fun hread => ?_⟩
  · have hstart' : start plain 0 true ⟨[withdrawal 1], 8, 24⟩ = .ok a := hstart
    rw [archive, hstart']
    exact hrun
  · have hinferred := hiff.mp (fun i n hn => ?_) 0 _ rfl (by decide)
    · revert hinferred
      unfold Inferred
      decide
    · match i with
      | 0 =>
        cases hn
        exact hread
      | i + 1 => cases hn

end QueueArchive

end Antiquary

end Erigon
