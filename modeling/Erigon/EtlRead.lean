/-
What a buffer holds and what is read back from it, from a file or from memory.
A provider is described by the pairs that its `Next` returns one after another,
each read into the cleared slices of the one before.
-/
import Erigon.Etl

namespace Erigon

open List GoSlice

namespace GoSlice

@[simp] theorem bytes_some (v : Bytes) : bytes (some v) = v := rfl
@[simp] theorem bytes_none : bytes none = [] := rfl
@[simp] theorem bytes_cleared (s : GoSlice) : s.cleared.bytes = [] := by cases s <;> rfl
@[simp] theorem cleared_some (v : Bytes) : cleared (some v) = some [] := rfl

@[simp] theorem bytes_append (s : GoSlice) (v : Bytes) : (s.append v).bytes = s.bytes ++ v := by
  unfold append
  split
  · rename_i hnil
    rw [hnil.1, hnil.2]
    rfl
  · rfl

theorem append_of_ne {s : GoSlice} {v : Bytes} (hs : s.bytes = []) (hv : v ≠ []) :
    s.append v = some v := by
  rw [append, if_neg fun hnil => hv hnil.2, hs, nil_append]

end GoSlice

namespace Etl

/-- The pairs that a provider returns. -/
inductive Reads : DataProvider → GoSlice → GoSlice → List Pair → Prop
  | nil {provider keyBuf valBuf} : provider.next keyBuf valBuf = .error .eof →
      Reads provider keyBuf valBuf []
  | cons {provider keyBuf valBuf k v rest items} :
      provider.next keyBuf valBuf = .ok ((some k, v), rest) →
      Reads rest (some []) v.cleared items → Reads provider keyBuf valBuf ((k, v) :: items)

/-! ### Files -/

/-- The bytes of one pair. -/
def writePair (pair : Pair) : Bytes :=
  putVarint pair.1.length ++ pair.1 ++ putVarint pair.2.storedLen ++ pair.2.bytes

/-- The lengths are those of slices. -/
def FitsLen (pair : Pair) : Prop :=
  pair.1.length < 2 ^ 63 ∧ pair.2.bytes.length < 2 ^ 63

theorem readPart_some {buf : GoSlice} (hbuf : buf.bytes = []) (v rest : Bytes) :
    readPart v.length buf (v ++ rest) = .ok (some v, rest) := by
  simp [readPart, hbuf]

theorem readPart_stored {buf : GoSlice} (hbuf : buf.bytes = []) (v : GoSlice) (rest : Bytes) :
    readPart v.storedLen buf (v.bytes ++ rest) = .ok (v, rest) := by
  cases v with
  | none => rfl
  | some v => exact readPart_some hbuf v rest

variable {keyBuf valBuf : GoSlice}

theorem readElementFromDisk_writePair {pair : Pair} (hfits : FitsLen pair)
    (hkey : keyBuf.bytes = []) (hval : valBuf.bytes = []) (rest : Bytes) :
    readElementFromDisk (writePair pair ++ rest) keyBuf valBuf =
      .ok ((some pair.1, pair.2), rest) := by
  obtain ⟨k, v⟩ := pair
  obtain ⟨hk, hv⟩ := hfits
  dsimp only at hk hv
  have hstored : -(2 ^ 63) ≤ v.storedLen ∧ v.storedLen < 2 ^ 63 := by
    cases v with
    | none => exact ⟨by decide, by decide⟩
    | some v =>
      simp only [bytes_some] at hv
      simp only [storedLen]
      omega
  simp only [writePair, append_assoc, readElementFromDisk]
  rw [readVarint_putVarint (by omega) (by omega)]
  simp only [bind, Except.bind]
  rw [readPart_some hkey]
  dsimp only
  rw [readVarint_putVarint hstored.1 hstored.2]
  dsimp only
  rw [readPart_stored hval]
  rfl

theorem reads_file {items : List Pair} (hfits : ∀ pair ∈ items, FitsLen pair)
    (hkey : keyBuf.bytes = []) (hval : valBuf.bytes = []) :
    Reads (.file (items.flatMap writePair)) keyBuf valBuf items := by
  induction items generalizing keyBuf valBuf with
  | nil => exact .nil rfl
  | cons pair items ih =>
    rw [forall_mem_cons] at hfits
    refine .cons ?_ (ih hfits.2 rfl (bytes_cleared _))
    rw [DataProvider.next, flatMap_cons, readElementFromDisk_writePair hfits.1 hkey hval]
    rfl

/-- A pair takes up a byte at least. -/
theorem length_le_writePairs (items : List Pair) :
    items.length ≤ (items.flatMap writePair).length := by
  induction items with
  | nil => exact le_rfl
  | cons pair items ih =>
    have hpos : 0 < (putVarint pair.1.length).length := by
      rw [putVarint, putUvarint]
      split <;> simp
    simp only [flatMap_cons, length_append, length_cons, writePair]
    omega

/-! ### The slice buffer -/

namespace SortableBuffer

/-- The pair behind a slot. -/
def item (b : SortableBuffer) (slot : Slot) : Pair :=
  (b.key slot, if slot.valLen < 0 then none else some (b.part slot.valOffset slot.valLen))

/-- A slot refers to bytes of the buffer. -/
structure Inside (b : SortableBuffer) (slot : Slot) : Prop where
  keyLen : 0 ≤ slot.keyLen
  key : slot.keyOffset + slot.keyLen.toNat ≤ b.data.length
  valLen : -1 ≤ slot.valLen
  val : slot.valOffset + slot.valLen.toNat ≤ b.data.length

/-- The buffer holds the pairs in the order of its slots. -/
structure Holds (b : SortableBuffer) (pairs : List Pair) : Prop where
  items : b.slots.map b.item = pairs
  inside : ∀ slot ∈ b.slots, b.Inside slot

variable {b : SortableBuffer}

theorem part_append {offset : Nat} {length : Int} (more : Bytes)
    (hinside : offset + length.toNat ≤ b.data.length) :
    ({ b with data := b.data ++ more } : SortableBuffer).part offset length =
      b.part offset length := by
  rw [part, part, drop_append_of_le_length (by omega), take_append_of_le_length]
  rw [length_drop]
  omega

variable {pairs : List Pair}

theorem put_holds (hholds : b.Holds pairs) (k : Bytes) (v : GoSlice) :
    (b.put k v).Holds (pairs ++ [(k, v)]) := by
  have hlen : (b.put k v).data.length = b.data.length + k.length + v.bytes.length := by
    simp [put, Nat.add_assoc]
  have hold : ∀ slot ∈ b.slots, (b.put k v).item slot = b.item slot := by
    intro slot hslot
    have hin := hholds.inside slot hslot
    have hkey := part_append (k ++ v.bytes) hin.key
    have hval := part_append (k ++ v.bytes) hin.val
    simp only [part, ← append_assoc] at hkey hval
    simp only [item, key, part, put, hkey, hval]
  have hnew : (b.put k v).item ⟨b.data.length, b.data.length + k.length, k.length,
      v.storedLen⟩ = (k, v) := by
    cases v with
    | none => simp [item, key, part, put, storedLen]
    | some v =>
      have hneg : ¬((v.length : Int) < 0) := by omega
      have hdrop : (b.data ++ (k ++ v)).drop (b.data.length + k.length) = v := by
        rw [← append_assoc, drop_left' (by simp)]
      simp [item, key, part, put, storedLen, hneg, hdrop]
  constructor
  · rw [put, map_append, ← hholds.items]
    exact congrArg₂ (· ++ ·) (map_congr_left hold) (congrArg ([·]) hnew)
  · intro slot hslot
    rcases mem_append.mp hslot with hslot | hslot
    · have hin := hholds.inside slot hslot
      refine ⟨hin.keyLen, ?_, hin.valLen, ?_⟩
      · have := hin.key
        omega
      · have := hin.val
        omega
    · rw [mem_singleton] at hslot
      subst hslot
      refine ⟨by simp, by simp only [Int.toNat_natCast]; omega, ?_, ?_⟩
      · cases v with
        | none => exact le_rfl
        | some v => exact le_trans (by decide) (Int.natCast_nonneg v.length)
      · cases v with
        | none => exact le_of_le_of_eq (Nat.le_add_right _ _) hlen.symm
        | some v => exact hlen.ge

theorem sort_holds (hholds : b.Holds pairs) : b.sort.Holds (stableSort Prod.fst pairs) := by
  constructor
  · have hmap := map_insertionSort (fun s t => b.key s ≤ b.key t)
      (fun p q : Pair => p.1 ≤ q.1) b.item b.slots fun _ _ _ _ => Iff.rfl
    rw [← hholds.items]
    exact hmap
  · intro slot hslot
    obtain ⟨hklen, hkey, hvlen, hval⟩ :=
      hholds.inside slot ((stableSort_perm b.key b.slots).mem_iff.mp hslot)
    exact ⟨hklen, hkey, hvlen, hval⟩

/-- Reading a slot into cleared slices gives its pair. -/
theorem get_eq {slot : Slot} (hin : b.Inside slot) {keyBuf valBuf : GoSlice}
    (hkey : keyBuf.bytes = []) (hval : valBuf.bytes = []) :
    b.get slot keyBuf valBuf = (some (b.item slot).1, (b.item slot).2) := by
  have hpart : ∀ (offset : Nat) (length : Int) (buf : GoSlice), buf.bytes = [] →
      offset + length.toNat ≤ b.data.length →
      b.getPart offset length buf = if length < 0 then none else some (b.part offset length) := by
    intro offset length buf hbuf hinside
    unfold getPart
    split
    · rename_i hpos
      have hne : b.part offset length ≠ [] := by
        rw [← length_pos_iff, part, length_take, length_drop]
        omega
      rw [if_neg (by omega), append_of_ne hbuf hne]
    · split
      · rename_i hzero
        rw [if_neg (by omega), hzero]
        rfl
      · rw [if_pos (by omega)]
  have hlen := hin.keyLen
  rw [get, hpart _ _ _ hkey hin.key, hpart _ _ _ hval hin.val, if_neg (by omega)]
  rfl

theorem write_eq (hholds : b.Holds pairs) : b.write = pairs.flatMap writePair := by
  rw [← hholds.items, write, flatMap_map]
  refine flatMap_congr fun slot hslot => ?_
  obtain ⟨hklen, hkey, hvlen, hval⟩ := hholds.inside slot hslot
  have hpart : ∀ (offset : Nat) (length : Int), 0 ≤ length →
      offset + length.toNat ≤ b.data.length → b.writePart offset length =
        putVarint (b.part offset length).length ++ b.part offset length := by
    intro offset length hnonneg hinside
    have hlen : ((b.part offset length).length : Int) = length := by
      rw [part, length_take, length_drop]
      omega
    rw [writePart, hlen]
    split
    · rw [part, show length.toNat = 0 by omega, take_zero]
    · rfl
  rw [hpart _ _ hklen hkey, writePair, item]
  rcases lt_or_ge slot.valLen 0 with hneg | hnonneg
  · have hminus : slot.valLen = -1 := by omega
    simp [writePart, key, hminus, storedLen]
  · rw [hpart _ _ hnonneg hval]
    simp [key, storedLen, not_lt.mpr hnonneg]

theorem reads_memory (hholds : b.Holds pairs) (i : Nat) {keyBuf valBuf : GoSlice}
    (hkey : keyBuf.bytes = []) (hval : valBuf.bytes = []) :
    Reads (.memory (.sortable b) i) keyBuf valBuf (pairs.drop i) := by
  have hlen : pairs.length = b.slots.length := by rw [← hholds.items, length_map]
  induction hn : b.slots.length - i generalizing i keyBuf valBuf with
  | zero =>
    rw [drop_eq_nil_of_le (by omega)]
    refine .nil ?_
    rw [DataProvider.next, Buffer.get, getElem?_eq_none (by omega)]
    rfl
  | succ n ih =>
    have hi : i < b.slots.length := by omega
    have hitem : pairs[i] = b.item b.slots[i] := by simp [← hholds.items]
    rw [drop_eq_getElem_cons (by omega), hitem]
    refine .cons ?_ (ih (i + 1) rfl (bytes_cleared _) (by omega))
    rw [DataProvider.next, Buffer.get, getElem?_eq_getElem hi, Option.map_some,
      get_eq (hholds.inside _ (getElem_mem hi)) hkey hval]
    rfl

end SortableBuffer

/-! ### The buffers with one entry a key -/

/-- The values of one key. -/
def valuesOf (k : Bytes) (pairs : List Pair) : List Bytes :=
  (withKey Prod.fst k pairs).map fun pair => pair.2.bytes

/-- What remains of the values of a key: nothing, or one value. -/
def summary (combine : List Bytes → Bytes) (values : List Bytes) : List Bytes :=
  if values = [] then [] else [combine values]

/-- The value that the oldest-entry buffer keeps. -/
def firstValue (values : List Bytes) : Bytes := values.head?.getD []

/-- Different keys, each with its values combined to one. -/
structure Collapses (combine : List Bytes → Bytes) (calls entries : List Pair) : Prop where
  nodup : (entries.map Prod.fst).Nodup
  values : ∀ k, valuesOf k entries = summary combine (valuesOf k calls)

section ValuesOf

variable {k l : Bytes} {pairs : List Pair}

@[simp] theorem valuesOf_nil : valuesOf k [] = [] := rfl

@[simp] theorem valuesOf_append (xs ys : List Pair) :
    valuesOf k (xs ++ ys) = valuesOf k xs ++ valuesOf k ys := by
  simp [valuesOf]

theorem valuesOf_cons_self (v : GoSlice) :
    valuesOf k ((k, v) :: pairs) = v.bytes :: valuesOf k pairs := by
  simp [valuesOf, withKey]

theorem valuesOf_cons_ne (v : GoSlice) (hne : k ≠ l) :
    valuesOf k ((l, v) :: pairs) = valuesOf k pairs := by
  simp [valuesOf, withKey, hne.symm]

theorem valuesOf_eq_nil_iff : valuesOf k pairs = [] ↔ k ∉ pairs.map Prod.fst := by
  rw [valuesOf, map_eq_nil_iff, eq_nil_iff_forall_not_mem, mem_map]
  constructor
  · rintro hnone ⟨pair, hpair, hkey⟩
    exact hnone pair (mem_withKey.mpr ⟨hpair, hkey⟩)
  · exact fun hnone pair hpair => hnone ⟨pair, mem_withKey.mp hpair⟩

theorem eq_nil_iff_valuesOf : pairs = [] ↔ ∀ k, valuesOf k pairs = [] := by
  simp only [valuesOf_eq_nil_iff, ← eq_nil_iff_forall_not_mem, map_eq_nil_iff]

theorem summary_eq_nil {combine : List Bytes → Bytes} {values : List Bytes} :
    summary combine values = [] ↔ values = [] := by
  unfold summary
  split <;> simp [*]

/-- Combining values leaves nothing only if there was nothing. -/
theorem eq_nil_iff_of_values {combine : List Bytes → Bytes} {calls : List Pair}
    (h : ∀ k, valuesOf k pairs = summary combine (valuesOf k calls)) : pairs = [] ↔ calls = [] := by
  simp only [eq_nil_iff_valuesOf, h, summary_eq_nil]

theorem valuesOf_flatten (batches : List (List Pair)) :
    valuesOf k batches.flatten = (batches.map (valuesOf k)).flatten := by
  induction batches with
  | nil => rfl
  | cons batch batches ih =>
    rw [flatten_cons, valuesOf_append, ih, map_cons, flatten_cons]

end ValuesOf

namespace EntryBuffer

variable {entries : List Pair}

theorem lookup_eq (b : EntryBuffer) (k : Bytes) :
    b.lookup k = (withKey Prod.fst k b.entries).head?.map Prod.snd := by
  rw [lookup, withKey, head?_filter]
  refine congrArg _ (congrArg (b.entries.find? ·) (funext fun e => ?_))
  rw [decide_eq_decide]

theorem lookup_isSome_iff (b : EntryBuffer) (k : Bytes) :
    (b.lookup k).isSome = true ↔ valuesOf k b.entries ≠ [] := by
  rw [lookup_eq, valuesOf]
  cases withKey Prod.fst k b.entries <;> simp

theorem nodup_store (hnodup : (entries.map Prod.fst).Nodup) (k : Bytes) (v : GoSlice) :
    ((store entries k v).map Prod.fst).Nodup := by
  have hkeys : (store entries k v).map Prod.fst =
      (entries.map Prod.fst).filter (fun l => decide (l ≠ k)) ++ [k] := by
    rw [store, map_append, filter_map]
    rfl
  rw [hkeys, nodup_append]
  refine ⟨hnodup.filter _, nodup_singleton k, fun l hl m hm => ?_⟩
  rw [mem_singleton] at hm
  rw [hm]
  exact of_decide_eq_true (mem_filter.mp hl).2

theorem valuesOf_store_ne {k l : Bytes} (hne : l ≠ k) (v : GoSlice) :
    valuesOf l (store entries k v) = valuesOf l entries := by
  rw [store, valuesOf_append, valuesOf_cons_ne v hne, valuesOf_nil, append_nil,
    valuesOf, withKey, filter_filter, valuesOf, withKey]
  refine congrArg _ (filter_congr fun e _ => ?_)
  by_cases hl : e.1 = l
  · simp [hl, hne]
  · simp [hl]

theorem valuesOf_store_self (k : Bytes) (v : GoSlice) :
    valuesOf k (store entries k v) = [v.bytes] := by
  have hnone : valuesOf k (entries.filter fun e => decide (e.1 ≠ k)) = [] := by
    rw [valuesOf_eq_nil_iff]
    simp
  rw [store, valuesOf_append, hnone, valuesOf_cons_self]
  rfl

variable {calls : List Pair}

/-- Storing the combination of all values of a key. -/
theorem store_collapses {combine : List Bytes → Bytes} (h : Collapses combine calls entries)
    (k : Bytes) (v w : GoSlice) (hw : w.bytes = combine (valuesOf k calls ++ [v.bytes])) :
    Collapses combine (calls ++ [(k, v)]) (store entries k w) := by
  refine ⟨nodup_store h.nodup k w, fun l => ?_⟩
  by_cases hl : l = k
  · subst hl
    rw [valuesOf_store_self, valuesOf_append, valuesOf_cons_self, valuesOf_nil, summary,
      if_neg (by simp), hw]
  · rw [valuesOf_store_ne hl, h.values l, valuesOf_append, valuesOf_cons_ne v hl,
      valuesOf_nil, append_nil]

theorem putAppend_collapses {b : EntryBuffer} (h : Collapses List.flatten calls b.entries)
    (k : Bytes) (v : GoSlice) :
    Collapses List.flatten (calls ++ [(k, v)]) (b.putAppend k v).entries := by
  refine store_collapses h k v _ ?_
  have hvalues := h.values k
  rw [bytes_append, flatten_append, flatten_singleton, lookup_eq]
  refine congrArg (· ++ v.bytes) ?_
  rw [valuesOf] at hvalues
  unfold summary at hvalues
  split at hvalues
  · rename_i hnone
    rw [map_eq_nil_iff] at hvalues
    rw [hvalues, hnone]
    rfl
  · obtain ⟨pair, hpair, hbytes⟩ := map_eq_singleton_iff.mp hvalues
    rw [hpair]
    exact hbytes

theorem putOldest_collapses {b : EntryBuffer} (h : Collapses firstValue calls b.entries) (k : Bytes)
    (v : GoSlice) :
    Collapses firstValue (calls ++ [(k, v)]) (b.putOldest k v).entries := by
  have hnil : valuesOf k b.entries = [] ↔ valuesOf k calls = [] := by
    rw [h.values k, summary_eq_nil]
  unfold putOldest
  split
  · rename_i hsome
    rw [lookup_isSome_iff, Ne, hnil] at hsome
    refine ⟨h.nodup, fun l => ?_⟩
    rw [h.values l, valuesOf_append]
    by_cases hl : l = k
    · subst hl
      obtain ⟨first, rest, hvalues⟩ := exists_cons_of_ne_nil hsome
      simp [summary, hvalues, firstValue]
    · rw [valuesOf_cons_ne v hl, valuesOf_nil, append_nil]
  · rename_i hnone
    rw [lookup_isSome_iff, not_not, hnil] at hnone
    refine store_collapses h k v v ?_
    rw [hnone]
    rfl

end EntryBuffer

/-- Ascending keys, each with its values combined to one. -/
structure Collapsed (combine : List Bytes → Bytes) (calls items : List Pair) : Prop where
  ascending : items.Pairwise fun p q => p.1 < q.1
  values : ∀ k, valuesOf k items = summary combine (valuesOf k calls)

variable {combine : List Bytes → Bytes} {calls items' : List Pair}

theorem Collapses.sorted {entries : List Pair} (h : Collapses combine calls entries) :
    Collapsed combine calls (stableSort Prod.fst entries) := by
  have hsorted := stableSorted_stableSort Prod.fst entries
  constructor
  · have hnodup : ((stableSort Prod.fst entries).map Prod.fst).Nodup :=
      ((stableSort_perm Prod.fst entries).map Prod.fst).nodup_iff.mpr h.nodup
    rw [List.Nodup, pairwise_map] at hnodup
    exact (hsorted.sorted.and hnodup).imp fun hle => lt_of_le_of_ne hle.1 hle.2
  · intro k
    rw [valuesOf, hsorted.keeps k]
    exact h.values k

/-- Nil and empty values are not told apart. -/
def sameBytes (items items' : List Pair) : Prop :=
  items.map (fun pair => (pair.1, pair.2.bytes)) =
    items'.map fun pair => (pair.1, pair.2.bytes)

theorem valuesOf_sameBytes {items : List Pair} (h : sameBytes items items') (k : Bytes) :
    valuesOf k items = valuesOf k items' := by
  have hvalues : ∀ pairs : List Pair, valuesOf k pairs =
      (withKey Prod.fst k (pairs.map fun pair => (pair.1, pair.2.bytes))).map Prod.snd := by
    intro pairs
    rw [withKey, filter_map, map_map]
    rfl
  rw [hvalues, hvalues, h]

theorem Collapsed.of_sameBytes {items : List Pair} (h : Collapsed combine calls items)
    (hsame : sameBytes items' items) :
    Collapsed combine calls items' := by
  refine ⟨?_, fun k => (valuesOf_sameBytes hsame k).trans (h.values k)⟩
  have hkeys : items'.map Prod.fst = items.map Prod.fst := by
    have hmap := congrArg (List.map Prod.fst) hsame
    rw [map_map, map_map] at hmap
    exact hmap
  rw [← pairwise_map (R := (· < ·)), hkeys, pairwise_map]
  exact h.ascending

theorem EntryBuffer.reads_memory {buf : Buffer} {sorted : List Pair}
    (hget : ∀ i keyBuf valBuf, buf.get i keyBuf valBuf =
      sorted[i]?.map fun entry => EntryBuffer.get entry keyBuf valBuf)
    (hne : ∀ pair ∈ sorted, pair.1 ≠ []) (i : Nat) (hkey : keyBuf.bytes = [])
    (hval : valBuf.bytes = []) :
    ∃ items, Reads (.memory buf i) keyBuf valBuf items ∧ sameBytes items (sorted.drop i) := by
  induction hn : sorted.length - i generalizing i keyBuf valBuf with
  | zero =>
    refine ⟨[], .nil ?_, by rw [drop_eq_nil_of_le (by omega)]; rfl⟩
    rw [DataProvider.next, hget, getElem?_eq_none (by omega)]
    rfl
  | succ n ih =>
    have hi : i < sorted.length := by omega
    obtain ⟨items, hreads, hsame⟩ := ih (i + 1) (rfl : bytes (some []) = [])
      (bytes_cleared (valBuf.append sorted[i].2.bytes)) (by omega)
    refine ⟨(sorted[i].1, valBuf.append sorted[i].2.bytes) :: items, .cons ?_ hreads, ?_⟩
    · rw [DataProvider.next, hget, getElem?_eq_getElem hi, Option.map_some,
        EntryBuffer.get, append_of_ne hkey (hne _ (getElem_mem hi))]
    · rw [drop_eq_getElem_cons hi, sameBytes, map_cons, map_cons,
        bytes_append, hval, nil_append]
      exact congrArg _ hsame

/-! ### Buffers and their providers -/

/-- A buffer after the given calls. -/
inductive BufferHolds : BufferType → Buffer → List Pair → Prop
  | sortable {b calls} : SortableBuffer.Holds b calls →
      BufferHolds .sortableSlice (.sortable b) calls
  | appending {b calls} : b.sortedBuf = [] → Collapses List.flatten calls b.entries →
      BufferHolds .sortableAppend (.appending b) calls
  | oldest {b calls} : b.sortedBuf = [] → Collapses firstValue calls b.entries →
      BufferHolds .sortableOldestAppeared (.oldest b) calls

/-- What a sorted buffer gives back of the calls. -/
def Gathers : BufferType → List Pair → List Pair → Prop
  | .sortableSlice => StableSorted Prod.fst
  | .sortableAppend => Collapsed List.flatten
  | .sortableOldestAppeared => Collapsed firstValue

/-- Keys and values have lengths that slices may have; the append buffer also
has slices of all the values of a key.  Only the slice buffer takes empty keys. -/
def FitsMemory : BufferType → List Pair → Prop
  | .sortableSlice, calls => ∀ pair ∈ calls, FitsLen pair
  | .sortableAppend, calls => ∀ pair ∈ calls, pair.1 ≠ [] ∧ pair.1.length < 2 ^ 63 ∧
      (valuesOf pair.1 calls).flatten.length < 2 ^ 63
  | .sortableOldestAppeared, calls => ∀ pair ∈ calls, pair.1 ≠ [] ∧ FitsLen pair

theorem collapses_nil (combine : List Bytes → Bytes) : Collapses combine [] [] :=
  ⟨nodup_nil, fun _ => rfl⟩

theorem new_holds (bufType : BufferType) (optimalSize : Int) :
    BufferHolds bufType (.new bufType optimalSize) [] := by
  cases bufType with
  | sortableSlice => exact .sortable ⟨rfl, fun _ h => nomatch h⟩
  | sortableAppend => exact .appending rfl (collapses_nil _)
  | sortableOldestAppeared => exact .oldest rfl (collapses_nil _)

namespace BufferHolds

variable {bufType : BufferType} {buf : Buffer} {calls : List Pair}

theorem put (h : BufferHolds bufType buf calls) (k : Bytes) (v : GoSlice) :
    BufferHolds bufType (buf.put k v) (calls ++ [(k, v)]) := by
  cases h with
  | sortable h => exact .sortable (SortableBuffer.put_holds h k v)
  | appending hsorted h => exact .appending hsorted (EntryBuffer.putAppend_collapses h k v)
  | @oldest b _ hsorted h =>
    refine .oldest ?_ (EntryBuffer.putOldest_collapses h k v)
    unfold EntryBuffer.putOldest
    split <;> exact hsorted

theorem reset (h : BufferHolds bufType buf calls) : BufferHolds bufType buf.reset [] := by
  cases h with
  | sortable => exact .sortable ⟨rfl, fun _ h => nomatch h⟩
  | appending => exact .appending rfl (collapses_nil _)
  | oldest => exact .oldest rfl (collapses_nil _)

theorem len_eq_zero_iff (h : BufferHolds bufType buf calls) : buf.len = 0 ↔ calls = [] := by
  cases h with
  | sortable h => rw [Buffer.len, ← h.items, map_eq_nil_iff, length_eq_zero_iff]
  | appending _ h => exact length_eq_zero_iff.trans (eq_nil_iff_of_values h.values)
  | oldest _ h => exact length_eq_zero_iff.trans (eq_nil_iff_of_values h.values)

end BufferHolds

/-- A provider that returns what a buffer gathered of the calls. -/
def Provides (bufType : BufferType) (provider : DataProvider) (calls : List Pair) : Prop :=
  ∃ items, Reads provider none none items ∧ Gathers bufType calls items ∧
    items.length ≤ provider.bound

/-- An entry has the combined values of a key of the calls. -/
theorem Collapsed.mem {items : List Pair} (h : Collapsed combine calls items) {pair : Pair}
    (hpair : pair ∈ items) :
    (∃ call ∈ calls, call.1 = pair.1) ∧ pair.2.bytes = combine (valuesOf pair.1 calls) := by
  have hvalue : pair.2.bytes ∈ valuesOf pair.1 items :=
    mem_map.mpr ⟨pair, mem_withKey.mpr ⟨hpair, rfl⟩, rfl⟩
  rw [h.values, summary] at hvalue
  split at hvalue
  · cases hvalue
  · rename_i hne
    rw [valuesOf_eq_nil_iff, not_not] at hne
    exact ⟨mem_map.mp hne, mem_singleton.mp hvalue⟩

theorem EntryBuffer.provides {bufType : BufferType} {b : EntryBuffer} (hnil : b.sortedBuf = [])
    (hgathers : Gathers bufType = Collapsed combine) (h : Collapses combine calls b.entries)
    (hne : ∀ pair ∈ calls, pair.1 ≠ [])
    (hfits : ∀ pair ∈ stableSort Prod.fst b.entries, FitsLen pair)
    {buf : Buffer} (hget : ∀ i keyBuf valBuf, buf.get i keyBuf valBuf =
      b.sort.sortedBuf[i]?.map fun entry => EntryBuffer.get entry keyBuf valBuf)
    (hlen : buf.len = b.entries.length) (hwrite : buf.write = b.sort.sortedBuf.flatMap writePair) :
    Provides bufType (.file buf.write) calls ∧ Provides bufType (.memory buf 0) calls := by
  have hsort : b.sort.sortedBuf = stableSort Prod.fst b.entries := by
    rw [EntryBuffer.sort, hnil]
    rfl
  have hsorted := h.sorted
  rw [← hsort] at hfits hsorted
  constructor
  · rw [hwrite]
    exact ⟨_, reads_file hfits rfl rfl, hgathers ▸ hsorted, length_le_writePairs _⟩
  · have hkeys : ∀ pair ∈ b.sort.sortedBuf, pair.1 ≠ [] := by
      intro pair hpair
      obtain ⟨⟨call, hcall, hkey⟩, -⟩ := hsorted.mem hpair
      exact hkey ▸ hne call hcall
    obtain ⟨items, hreads, hsame⟩ := EntryBuffer.reads_memory hget hkeys 0
      bytes_none bytes_none
    rw [drop_zero] at hsame
    refine ⟨items, hreads, hgathers ▸ hsorted.of_sameBytes hsame, ?_⟩
    have hlength := congrArg List.length hsame
    rw [length_map, length_map, hsort, (stableSort_perm Prod.fst b.entries).length_eq]
      at hlength
    rw [hlength, DataProvider.bound, hlen, Nat.sub_zero]

/-- A sorted buffer gives back what it gathered, from a file and from memory. -/
theorem BufferHolds.provides {bufType : BufferType} {buf : Buffer}
    (h : BufferHolds bufType buf calls) (hfits : FitsMemory bufType calls) :
    Provides bufType (.file buf.sort.write) calls ∧
      Provides bufType (.memory buf.sort 0) calls := by
  cases h with
  | @sortable b _ h =>
    have hsort := SortableBuffer.sort_holds h
    have hsorted := stableSorted_stableSort Prod.fst calls
    constructor
    · rw [Buffer.sort, Buffer.write, SortableBuffer.write_eq hsort]
      exact ⟨_, reads_file (fun pair hpair => hfits pair (hsorted.mem_iff.mp hpair)) rfl rfl,
        hsorted, length_le_writePairs _⟩
    · refine ⟨_, SortableBuffer.reads_memory hsort 0 rfl rfl, hsorted, ?_⟩
      rw [drop_zero, ← hsort.items, length_map]
      exact le_rfl
  | @appending b _ hnil h =>
    refine EntryBuffer.provides hnil rfl h (fun pair hpair => (hfits pair hpair).1)
      (fun pair hpair => ?_) (fun _ _ _ => rfl) rfl rfl
    obtain ⟨⟨call, hcall, hkey⟩, hvalue⟩ := h.sorted.mem hpair
    obtain ⟨-, hklen, hvlen⟩ := hfits call hcall
    rw [hkey] at hklen hvlen
    exact ⟨hklen, hvalue ▸ hvlen⟩
  | @oldest b _ hnil h =>
    refine EntryBuffer.provides hnil rfl h (fun pair hpair => (hfits pair hpair).1)
      (fun pair hpair => ?_) (fun _ _ _ => rfl) rfl rfl
    obtain ⟨⟨call, hcall, hkey⟩, hvalue⟩ := h.sorted.mem hpair
    refine ⟨hkey ▸ (hfits call hcall).2.1, ?_⟩
    have hmem : firstValue (valuesOf pair.1 calls) ∈ valuesOf pair.1 calls := by
      have hne : valuesOf pair.1 calls ≠ [] := by
        rw [Ne, valuesOf_eq_nil_iff, not_not]
        exact mem_map.mpr ⟨call, hcall, hkey⟩
      obtain ⟨first, rest, heq⟩ := exists_cons_of_ne_nil hne
      rw [heq]
      exact mem_cons_self
    rw [← hvalue] at hmem
    obtain ⟨source, hsource, hbytes⟩ := mem_map.mp hmem
    exact hbytes ▸ (hfits source (mem_withKey.mp hsource).1).2.2

end Etl

end Erigon
