/-
The first transaction number of a key, from a given one on, in the files of an inverted index
(`InvertedIndexRoTx.seekInFiles`), behind a cache.  An entry of the cache is one interval, from
the number that was asked for to the one that was found; 0 in place of the second stands for
nothing found.
-/
import Erigon.EvictingCache
import Erigon.IndexRange

namespace Erigon

open List

/-- `iiSeekInFilesCacheItem`. -/
structure SeekItem where
  requested : Nat
  found : Nat
deriving DecidableEq

/-- The errors, with what their texts name: data before the first file, and a number outside of
the file it was read from. -/
inductive SeekError where
  | notAvailable (txNum startTxNum : Nat)
  | outOfBounds (key : Bytes) (txNum startTxNum endTxNum n : Nat)
deriving DecidableEq

/-- The visible files of an index, oldest first. -/
structure SeekableIndex where
  files : List IndexFile
  hashKey : Bytes → Word

namespace SeekableIndex

abbrev Cache := Word → Option SeekItem

/-- The first number of a key from a given one on in one file. -/
def seekFile (f : IndexFile) (key : Bytes) (txNum : Nat) : Option Nat :=
  (f.sequences.get key).bind (List.find? fun n => decide (txNum ≤ n))

/-- The loop over the files. -/
def search (key : Bytes) (txNum : Nat) : List IndexFile → Except SeekError (Option Nat)
  | [] => .ok none
  | f :: files =>
    if f.endTxNum ≤ txNum then search key txNum files
    else
      match seekFile f key txNum with
      | none => search key txNum files
      | some n =>
        if n < f.startTxNum ∨ f.endTxNum ≤ n then
          .error (.outOfBounds key txNum f.startTxNum f.endTxNum n)
        else .ok (some n)

/-- What an entry answers. -/
def fromCache : Option SeekItem → Nat → Option (Bool × Nat)
  | none, _ => none
  | some item, txNum =>
    if item.requested ≤ txNum then
      if txNum ≤ item.found then some (true, item.found)
      else if item.found = 0 then some (false, 0)
      else none
    else none

/-- What a search says. -/
def answer : Option Nat → Bool × Nat
  | some n => (true, n)
  | none => (false, 0)

variable (iit : SeekableIndex)

/-- The part of `seekInFiles` that looks into the cache and the files, and the cache after it. -/
def seekInside (cache : Cache) (key : Bytes) (txNum : Nat) :
    Except SeekError (Bool × Nat) × Cache :=
  match fromCache (cache (iit.hashKey key)) txNum with
  | some r => (.ok r, cache)
  | none =>
    match search key txNum iit.files with
    | .error e => (.error e, cache)
    | .ok (some n) =>
      -- a number that is itself recorded is not cached
      (.ok (true, n),
        if 0 < n - txNum then Function.update cache (iit.hashKey key) (some ⟨txNum, n⟩)
        else cache)
    | .ok none => (.ok (false, 0), Function.update cache (iit.hashKey key) (some ⟨txNum, 0⟩))

/-- A call with its key and number, and the cache after it. -/
def seekInFiles (cache : Cache) (call : Bytes × Nat) :
    Except SeekError (Bool × Nat) × Cache :=
  let (key, txNum) := call
  match iit.files.head?, iit.files.getLast? with
  | some first, some last =>
    if txNum < first.startTxNum then (.error (.notAvailable txNum first.startTxNum), cache)
    else if last.endTxNum ≤ txNum then (.ok (false, 0), cache)
    else iit.seekInside cache key txNum
  | _, _ => (.ok (false, 0), cache)

variable (call : Bytes × Nat)

/-- Without the cache. -/
def seekUncached : Except SeekError (Bool × Nat) :=
  (iit.seekInFiles (fun _ => none) call).1

/-- Calls one after the other, each followed by evictions: the entry each one met, its key and
number, and its answer. -/
def run (calls : List ((Bytes × Nat) × (Word → Bool))) :
    List (Option SeekItem × (Bytes × Nat) × Except SeekError (Bool × Nat)) :=
  EvictingCache.run (fun call => iit.hashKey call.1) iit.seekInFiles (fun _ => none) calls

/-! ### What the files hold -/

/-- The numbers of a key in a file. -/
def numbers (key : Bytes) (f : IndexFile) : List Nat := (f.sequences.get key).getD []

/-- The numbers of a key in all of the files. -/
def recorded (key : Bytes) : List Nat := iit.files.flatMap (numbers key)

/-- The files cover `[s, E)`, and each has increasing numbers of its own range. -/
structure Covers (s E : Nat) : Prop where
  tiles : Tiles IndexFile.startTxNum IndexFile.endTxNum s iit.files E
  bounded : ∀ f ∈ iit.files, ∀ key, ∀ n ∈ numbers key f, f.startTxNum ≤ n ∧ n < f.endTxNum
  sorted : ∀ f ∈ iit.files, ∀ key, (numbers key f).Pairwise (· < ·)

/-- The answer is the least recorded number from the one asked for on, and "not found" if there
is none. -/
def Right (r : Except SeekError (Bool × Nat)) : Prop :=
  (∃ n, IsLeast {n | n ∈ iit.recorded call.1 ∧ call.2 ≤ n} n ∧ r = .ok (true, n)) ∨
    ((∀ n ∈ iit.recorded call.1, n < call.2) ∧ r = .ok (false, 0))

/-- The first recorded number from a given one on. -/
def next : Option Nat :=
  (iit.recorded call.1).find? fun n => decide (call.2 ≤ n)

variable {iit} {s E : Nat} {key : Bytes} {txNum : Nat}

theorem seekFile_eq (f : IndexFile) (key : Bytes) (txNum : Nat) :
    seekFile f key txNum = (numbers key f).find? fun n => decide (txNum ≤ n) := by
  rw [seekFile, numbers]
  cases f.sequences.get key <;> rfl

theorem search_eq {files : List IndexFile}
    (hbounded : ∀ f ∈ files, ∀ n ∈ numbers key f, f.startTxNum ≤ n ∧ n < f.endTxNum) :
    search key txNum files =
      .ok ((files.flatMap (numbers key)).find? fun n => decide (txNum ≤ n)) := by
  induction files with
  | nil => rfl
  | cons f files ih =>
    have hrest := ih fun g hg => hbounded g (mem_cons_of_mem f hg)
    have hf := hbounded f mem_cons_self
    rw [search, flatMap_cons, find?_append, seekFile_eq]
    split
    · next hpast =>
      have hnone : (numbers key f).find? (fun n => decide (txNum ≤ n)) = none := by
        refine find?_eq_none.mpr fun n hn => ?_
        have := hf n hn
        simp only [decide_eq_true_eq]
        omega
      rw [hnone, Option.none_or, hrest]
    · cases hseek : (numbers key f).find? fun n => decide (txNum ≤ n) with
      | none => rw [Option.none_or]; exact hrest
      | some n =>
        have := hf n (mem_of_find?_eq_some hseek)
        exact if_neg (by omega)

theorem Covers.search (hcovers : iit.Covers s E) (call : Bytes × Nat) :
    search call.1 call.2 iit.files = .ok (iit.next call) :=
  search_eq fun f hf => hcovers.bounded f hf call.1

/-- The numbers of all of the files increase, since those of a file lie before the next. -/
theorem Covers.recorded_sorted (hcovers : iit.Covers s E) (key : Bytes) :
    (iit.recorded key).Pairwise (· < ·) := by
  refine pairwise_flatMap.mpr ⟨fun f hf => hcovers.sorted f hf key, ?_⟩
  refine hcovers.tiles.pairwise.imp_of_mem fun {f g} hf hg hfg m hm n hn => ?_
  have hbefore := hcovers.bounded f hf key m hm
  have hafter := hcovers.bounded g hg key n hn
  omega

variable {n requested : Nat}

theorem Covers.recorded_lt (hcovers : iit.Covers s E) (hn : n ∈ iit.recorded key) : n < E := by
  obtain ⟨f, hf, hnf⟩ := mem_flatMap.mp hn
  have hinside := hcovers.bounded f hf key n hnf
  have hfile := hcovers.tiles.bounds hf
  omega

theorem next_eq_none {call : Bytes × Nat} :
    iit.next call = none ↔ ∀ n ∈ iit.recorded call.1, n < call.2 := by
  simp [next, find?_eq_none]

/-- What is found is the least, and the other way round. -/
theorem Covers.next_eq_some (hcovers : iit.Covers s E) {call : Bytes × Nat} :
    iit.next call = some n ↔ IsLeast {n | n ∈ iit.recorded call.1 ∧ call.2 ≤ n} n := by
  rw [next, find?_le_eq_some (hcovers.recorded_sorted call.1)]
  simp only [IsLeast, mem_lowerBounds, Set.mem_ofPred_eq, and_imp]

theorem Covers.right_iff (hcovers : iit.Covers s E) {call : Bytes × Nat}
    {r : Except SeekError (Bool × Nat)} :
    iit.Right call r ↔ r = .ok (answer (iit.next call)) := by
  rw [Right]
  simp only [← hcovers.next_eq_some, ← next_eq_none]
  cases iit.next call <;> simp [answer]

/-! ### What the cache answers -/

open EvictingCache (Keeps keeps_empty)

variable (iit) in
/-- An entry says what is found from the number it was made for on. -/
def Good (key : Bytes) (item : SeekItem) : Prop :=
  iit.files ≠ [] ∧
    iit.next (key, item.requested) = if item.found = 0 then none else some item.found

/-- The interval of an entry answers for every number in it. -/
theorem Covers.next_within (hcovers : iit.Covers s E) {found : Nat}
    (hfound : iit.next (key, requested) = some found) (hlow : requested ≤ txNum)
    (hhigh : txNum ≤ found) : iit.next (key, txNum) = some found := by
  obtain ⟨⟨hmem, -⟩, hleast⟩ := hcovers.next_eq_some.mp hfound
  exact hcovers.next_eq_some.mpr
    ⟨⟨hmem, hhigh⟩, fun n hn => hleast ⟨hn.1, hlow.trans hn.2⟩⟩

/-- An entry that answers is right, except that the one for nothing found from 0 on answers
that 0 is found. -/
theorem Covers.fromCache_eq_some (hcovers : iit.Covers s E) {item : SeekItem}
    (hgood : iit.Good key item) {r : Bool × Nat} (hr : fromCache (some item) txNum = some r) :
    r = answer (iit.next (key, txNum)) ↔ ¬(txNum = 0 ∧ item = ⟨0, 0⟩) := by
  obtain ⟨requested, found⟩ := item
  obtain ⟨-, hnext⟩ := hgood
  dsimp only at hnext
  rw [fromCache] at hr
  split at hr
  · next hlow =>
    dsimp only at hlow hr
    by_cases hzero : found = 0
    · subst hzero
      rw [if_pos rfl] at hnext
      have hlater : iit.next (key, txNum) = none :=
        next_eq_none.mpr fun n hn => (next_eq_none.mp hnext n hn).trans_le hlow
      rw [hlater, answer]
      split at hr
      · cases hr
        simp only [Prod.mk.injEq, reduceCtorEq, false_iff, not_not, SeekItem.mk.injEq, and_true]
        omega
      · cases hr
        simp only [SeekItem.mk.injEq, true_iff, and_true]
        omega
    · rw [if_neg hzero] at hnext
      split at hr
      · next hhigh =>
        cases hr
        rw [hcovers.next_within hnext hlow hhigh, answer]
        simp [hzero]
      · cases hr
  · cases hr

section Call

variable {keys : List Bytes} {cache : Cache} (hcovers : iit.Covers s E)
  (hdistinct : ∀ k ∈ keys, ∀ l ∈ keys, iit.hashKey k = iit.hashKey l → k = l)
  (hkeeps : Keeps iit.hashKey keys iit.Good cache) (hkey : key ∈ keys)

include hcovers hdistinct hkeeps hkey

theorem Covers.seekInside_spec (hne : iit.files ≠ []) :
    Keeps iit.hashKey keys iit.Good (iit.seekInside cache key txNum).2 ∧
      ((iit.seekInside cache key txNum).1 = .ok (answer (iit.next (key, txNum))) ↔
        ¬(txNum = 0 ∧ cache (iit.hashKey key) = some ⟨0, 0⟩)) := by
  rw [seekInside]
  cases hcached : fromCache (cache (iit.hashKey key)) txNum with
  | some r =>
    cases hentry : cache (iit.hashKey key) with
    | none =>
      rw [hentry] at hcached
      cases hcached
    | some item =>
      rw [hentry] at hcached
      have hright := hcovers.fromCache_eq_some (hkeeps key hkey item hentry) hcached
      exact ⟨hkeeps, by simpa using hright⟩
  | none =>
    have hother : ¬(txNum = 0 ∧ cache (iit.hashKey key) = some ⟨0, 0⟩) := by
      rintro ⟨rfl, hentry⟩
      rw [hentry] at hcached
      cases hcached
    rw [hcovers.search (key, txNum)]
    cases hnext : iit.next (key, txNum) with
    | none =>
      exact ⟨hkeeps.update hdistinct hkey ⟨hne, by simpa using hnext⟩,
        iff_of_true rfl hother⟩
    | some n =>
      refine ⟨?_, iff_of_true rfl hother⟩
      dsimp only
      split
      · next hpos =>
        have hn : n ≠ 0 := by omega
        exact hkeeps.update hdistinct hkey ⟨hne, by simpa [hn] using hnext⟩
      · exact hkeeps

/-- One call: the entries stay good, and the answer is right exactly if it does not come from
the entry for nothing found from 0 on, asked for 0. -/
theorem Covers.seekInFiles_spec (hlow : s ≤ txNum) :
    Keeps iit.hashKey keys iit.Good (iit.seekInFiles cache (key, txNum)).2 ∧
      ((iit.seekInFiles cache (key, txNum)).1 = .ok (answer (iit.next (key, txNum))) ↔
        ¬(txNum = 0 ∧ cache (iit.hashKey key) = some ⟨0, 0⟩)) := by
  rw [seekInFiles]
  cases hhead : iit.files.head? with
  | none =>
    have hnil : iit.files = [] := head?_eq_none_iff.mp hhead
    refine ⟨hkeeps, iff_of_true ?_ fun hentry => (hkeeps key hkey _ hentry.2).1 hnil⟩
    rw [next, recorded, hnil]
    rfl
  | some first =>
    have hne : iit.files ≠ [] := ne_nil_of_mem (mem_of_head? hhead)
    have hlast := getLast?_eq_some_getLast hne
    have hstart : first.startTxNum = s := by
      obtain ⟨files, hfiles⟩ := head?_eq_some_iff.mp hhead
      exact (hfiles ▸ hcovers.tiles).1
    have hE : (iit.files.getLast hne).endTxNum = E := hcovers.tiles.hi_getLast hlast
    simp only [hlast, hstart, hE, if_neg (Nat.not_lt.mpr hlow)]
    split
    · next hpast =>
      have hnone : iit.next (key, txNum) = none :=
        next_eq_none.mpr fun n hn => (hcovers.recorded_lt hn).trans_le hpast
      have hfile := hcovers.tiles.bounds (mem_of_head? hhead)
      exact ⟨hkeeps, iff_of_true (by rw [hnone]; rfl) (by omega)⟩
    · exact hcovers.seekInside_spec hdistinct hkeeps hkey hne

end Call

theorem Covers.seekUncached_eq (hcovers : iit.Covers s E) (hlow : s ≤ txNum) :
    iit.seekUncached (key, txNum) = .ok (answer (iit.next (key, txNum))) := by
  have hempty : Keeps iit.hashKey [key] iit.Good fun _ => none := keeps_empty
  have hspec := hcovers.seekInFiles_spec (by simp) hempty mem_cons_self hlow
  exact hspec.2.mpr (by simp)

/-- Every call is right, and answers as without the cache, exactly if none for number 0 meets
the entry that stands for nothing found from 0 on. -/
theorem seek_right_iff (iit : SeekableIndex) (s E : Nat) (hcovers : iit.Covers s E)
    (calls : List ((Bytes × Nat) × (Word → Bool)))
    (hdistinct : ∀ c ∈ calls, ∀ d ∈ calls, iit.hashKey c.1.1 = iit.hashKey d.1.1 →
      c.1.1 = d.1.1)
    (hlow : ∀ c ∈ calls, s ≤ c.1.2) :
    (∀ a ∈ iit.run calls, iit.Right a.2.1 a.2.2 ∧ a.2.2 = iit.seekUncached a.2.1) ↔
      ∀ a ∈ iit.run calls, ¬(a.2.1.2 = 0 ∧ a.1 = some ⟨0, 0⟩) := by
  have hkeys : ∀ k ∈ calls.map (·.1.1), ∀ l ∈ calls.map (·.1.1),
      iit.hashKey k = iit.hashKey l → k = l := by
    simpa only [forall_mem_map] using hdistinct
  have hempty : Keeps iit.hashKey (calls.map (·.1.1)) iit.Good fun _ => none := keeps_empty
  refine forall₂_congr (hempty.run (P := fun (entry : Option SeekItem) call r =>
    iit.Right call r ∧ r = iit.seekUncached call ↔ ¬(call.2 = 0 ∧ entry = some ⟨0, 0⟩))
    fun cache hkeeps c hc => ?_)
  have hkey : c.1.1 ∈ calls.map (·.1.1) := mem_map_of_mem hc
  obtain ⟨hnext, hanswer⟩ := hcovers.seekInFiles_spec hkeys hkeeps hkey (hlow c hc)
  refine ⟨hnext, ?_⟩
  rw [hcovers.right_iff, hcovers.seekUncached_eq (hlow c hc), and_self]
  exact hanswer

/-- One file, with one number of one key. -/
def oneNumber : SeekableIndex where
  files := [⟨0, 16, ⟨[([1], [5])], by decide⟩⟩]
  hashKey k := BitVec.ofNat 64 k.length

theorem covers_oneNumber : oneNumber.Covers 0 16 where
  tiles := by simp [oneNumber, Tiles]
  bounded := by
    intro f hf key n hn
    obtain rfl := mem_singleton.mp hf
    by_cases hkey : [1] = key <;> simp [numbers, SortedPairs.get, hkey] at hn ⊢
    omega
  sorted := by
    intro f hf key
    obtain rfl := mem_singleton.mp hf
    by_cases hkey : [1] = key <;> simp [numbers, SortedPairs.get, hkey]

/-- Asked again within the interval, the number comes from the cache. -/
theorem seek_right_twice :
    (oneNumber.run [(([1], 0), fun _ => false), (([1], 3), fun _ => false)]).length = 2 ∧
      ∀ a ∈ oneNumber.run [(([1], 0), fun _ => false), (([1], 3), fun _ => false)],
        oneNumber.Right a.2.1 a.2.2 ∧ a.2.2 = oneNumber.seekUncached a.2.1 :=
  ⟨rfl, (seek_right_iff oneNumber 0 16 covers_oneNumber _ (by simp) (by simp)).mpr (by decide)⟩

/-- The other key has no number, but asked again from 0 on, 0 is found. -/
theorem zero_found_again :
    (oneNumber.run [(([2], 0), fun _ => false), (([2], 0), fun _ => false)]).map
        (fun a => (a.2.2, oneNumber.seekUncached a.2.1)) =
      [(.ok (false, 0), .ok (false, 0)), (.ok (true, 0), .ok (false, 0))] := by
  decide

end SeekableIndex

end Erigon
