/-
The latest value of a key in the files of a domain, newest file first, behind a cache of what
was found and of what was not.  An entry keeps the number of the file in one byte, and one that
stands for nothing found has the number of the oldest file.
-/
import Erigon.ByteCodec
import Erigon.EvictingCache
import Erigon.Query

namespace Erigon

/-- What `getLatestFromFiles` returns besides the error; `none` is the nil slice. -/
structure LatestFromFiles where
  v : Option Bytes
  found : Bool
  fileStartTxNum : Nat
  fileEndTxNum : Nat
deriving DecidableEq

/-- `domainGetFromFileCacheItem`. -/
structure FileCacheItem where
  lvl : Nat
  v : Option Bytes

/-- The visible files, oldest first, with what the existence filters and the lookups of the files
say of a key. -/
structure DomainFiles where
  ranges : List (Nat × Nat)
  containsHash : Nat → Word → Bool
  getLatestFromFile : Nat → Bytes → Result (Option (Option Bytes))
  hashKey : Bytes → Word

namespace DomainFiles

variable (dt : DomainFiles)

/-- The loop over the first `i` files. -/
def search (k : Bytes) : Nat → Result (Option (Nat × Option Bytes))
  | 0 => .ok none
  | i + 1 =>
    if !dt.containsHash i (dt.hashKey k) then search k i
    else do
      match ← dt.getLatestFromFile i k with
      | some v => return some (i, v)
      | none => search k i

/-- A value of the file of a number. -/
def inFile (lvl : Nat) (v : Option Bytes) : Result LatestFromFiles :=
  match dt.ranges[lvl]? with
  | some range => .ok ⟨v, true, range.1, range.2⟩
  | none => .panic "index out of range"

/-- What a search says. -/
def report : Option (Nat × Option Bytes) → Result LatestFromFiles
  | some (i, v) => dt.inFile i v
  | none => .ok ⟨none, false, 0, 0⟩

/-- Without the cache. -/
def getUncached (k : Bytes) : Result LatestFromFiles := do
  dt.report (← dt.search k dt.ranges.length)

/-- The entry of what a search found. -/
def item : Option (Nat × Option Bytes) → FileCacheItem
  | some (i, v) => ⟨i % 256, v⟩
  | none => ⟨0, none⟩

abbrev FileCache := Word → Option FileCacheItem

/-- A lookup, and the cache after it; an error is not cached. -/
def getLatestFromFiles (cache : FileCache) (k : Bytes) : Result LatestFromFiles × FileCache :=
  if dt.ranges = [] then (.ok ⟨none, false, 0, 0⟩, cache)
  else
    match cache (dt.hashKey k) with
    | some cv => (dt.inFile cv.lvl cv.v, cache)
    | none =>
      match dt.search k dt.ranges.length with
      | .ok r => (dt.report r, Function.update cache (dt.hashKey k) (some (item r)))
      | .error e => (.error e, cache)
      | .panic e => (.panic e, cache)

/-- Lookups one after the other, each followed by evictions: what each found in the cache, its
key and its answer. -/
def run (cache : FileCache) (calls : List (Bytes × (Word → Bool))) :
    List (Option FileCacheItem × Bytes × Result LatestFromFiles) :=
  EvictingCache.run dt.hashKey dt.getLatestFromFiles cache calls

/-! ### What the cache answers -/

/-- An entry is what a search finds; without files there is none. -/
def Good (k : Bytes) (cv : FileCacheItem) : Prop :=
  dt.ranges ≠ [] ∧ ∃ r, dt.search k dt.ranges.length = .ok r ∧ cv = item r

/-- A key that is in some file, with the number of the file in the byte of the entry. -/
def Kept (k : Bytes) : Prop :=
  ∃ i v, dt.search k dt.ranges.length = .ok (some (i, v)) ∧ dt.ranges[i % 256]? = dt.ranges[i]?

open EvictingCache (Keeps keeps_empty)

variable {dt} {keys : List Bytes} {cache : FileCache} {k : Bytes}

theorem search_lt {n i : Nat} {v : Option Bytes} (h : dt.search k n = .ok (some (i, v))) :
    i < n := by
  induction n with
  | zero => cases h
  | succ n ih =>
    rw [search] at h
    split at h
    · exact Nat.lt_succ_of_lt (ih h)
    · obtain ⟨found, -, hrest⟩ := Result.bind_eq_ok.mp h
      cases found with
      | none => exact Nat.lt_succ_of_lt (ih hrest)
      | some w =>
        cases hrest
        exact Nat.lt_succ_self i

/-- An answer from the cache is right exactly if the key is kept. -/
theorem hit_eq_iff {r : Option (Nat × Option Bytes)}
    (hsearch : dt.search k dt.ranges.length = .ok r) :
    dt.inFile (item r).lvl (item r).v = dt.getUncached k ↔ dt.Kept k := by
  rw [getUncached, hsearch, Result.ok_bind, Kept]
  cases r with
  | none =>
    simp only [hsearch, report, item, inFile]
    cases dt.ranges[0]? <;> simp
  | some a =>
    obtain ⟨i, v⟩ := a
    have hi : i < dt.ranges.length := search_lt hsearch
    have hmod : i % 256 < dt.ranges.length := Nat.lt_of_le_of_lt (Nat.mod_le i 256) hi
    simp only [hsearch, report, item, inFile, List.getElem?_eq_getElem hi,
      List.getElem?_eq_getElem hmod, Result.ok.injEq, Option.some.injEq,
      LatestFromFiles.mk.injEq, true_and, Prod.ext_iff]
    constructor
    · intro hsame
      exact ⟨i, v, ⟨rfl, rfl⟩, by simp [hi, hmod, Prod.ext_iff, hsame]⟩
    · rintro ⟨j, w, ⟨rfl, rfl⟩, hsame⟩
      simpa [List.getElem?_eq_getElem, hi, hmod, Prod.ext_iff] using hsame

/-- One lookup: the entries stay what a search finds, and the answer is right exactly if it was
not found in the cache or the key is kept. -/
theorem getLatestFromFiles_spec
    (hdistinct : ∀ k ∈ keys, ∀ l ∈ keys, dt.hashKey k = dt.hashKey l → k = l)
    (hkeeps : Keeps dt.hashKey keys dt.Good cache) (hk : k ∈ keys) :
    Keeps dt.hashKey keys dt.Good (dt.getLatestFromFiles cache k).2 ∧
      ((dt.getLatestFromFiles cache k).1 = dt.getUncached k ↔
        ((cache (dt.hashKey k)).isSome → dt.Kept k)) := by
  rw [getLatestFromFiles]
  cases hentry : cache (dt.hashKey k) with
  | some cv =>
    obtain ⟨hne, r, hsearch, rfl⟩ := hkeeps k hk cv hentry
    rw [if_neg hne, Option.isSome_some]
    exact ⟨hkeeps, (hit_eq_iff hsearch).trans (by simp)⟩
  | none =>
    split
    · next hnone => exact ⟨hkeeps, by simp [getUncached, search, report, hnone]⟩
    · next hne =>
      cases hsearch : dt.search k dt.ranges.length with
      | ok r =>
        exact ⟨hkeeps.update hdistinct hk ⟨hne, r, hsearch, rfl⟩,
          by simp [getUncached, hsearch]⟩
      | error e => exact ⟨hkeeps, by simp [getUncached, hsearch]; rfl⟩
      | panic e => exact ⟨hkeeps, by simp [getUncached, hsearch]; rfl⟩

/-- One file, without the key. -/
def emptyFile : DomainFiles where
  ranges := [(0, 64)]
  containsHash _ _ := true
  getLatestFromFile _ _ := .ok none
  hashKey k := BitVec.ofNat 64 k.length

end DomainFiles

end Erigon
