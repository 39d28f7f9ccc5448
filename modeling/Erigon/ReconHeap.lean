/-
The heap of cursors over the index files of a history (`ReconHeap`) and what the
iterators over it have in common.  A cursor of the heap goes through the keys of
one file; of several at one key that of the earliest file comes first.  The
iterators differ in the bound of their keys and in what they do with an item
(`verdict`).
-/
import Erigon.HeapStream
import Erigon.IndexRange

namespace Erigon

open List

/-- A file of the index of a history with the file of the values for its range. -/
structure HistoryFile extends IndexFile where
  values : List (Bytes × Bytes)

def historyKey (txNum : Nat) (key : Bytes) : Bytes := beBytes 8 txNum ++ key

/-- The value the accessor finds, on a page or alone. -/
def HistoryFile.lookup2 (f : HistoryFile) (txNum : Nat) (key : Bytes) : Option Bytes :=
  (f.values.find? fun a => decide (a.1 = historyKey txNum key)).map Prod.snd

/-- `multiencseq.Seek`: the first number of a sequence that is not below `n`. -/
def seekSeq (xs : List Nat) (n : Nat) : Option Nat := xs.find? fun m => decide (n ≤ m)

/-- What a cursor stands at. -/
structure ReconEntry where
  file : HistoryFile
  key : Bytes
  val : List Nat

/-- `g` is what the reader has left; the field `txNum` of the source is the
`endTxNum` of the file. -/
structure ReconItem extends ReconEntry where
  g : List (Bytes × List Nat)

/-- A bound that is none is infinite. -/
def beforeBound (bound : Option Bytes) (k : Bytes) : Bool :=
  match bound with
  | none => true
  | some toKey => decide (k < toKey)

namespace ReconItem

/-- `ReconHeap.Less`. -/
def less (c d : ReconItem) : Bool :=
  if c.key = d.key then decide (c.file.endTxNum < d.file.endTxNum) else decide (c.key < d.key)

/-- The cursor that is pushed back. -/
def next (bound : Option Bytes) (c : ReconItem) : Option ReconItem :=
  match c.g with
  | [] => none
  | (k, v) :: g => if beforeBound bound k then some ⟨⟨c.file, k, v⟩, g⟩ else none

/-- The cursor before the first pair a reader has. -/
def start (f : HistoryFile) : List (Bytes × List Nat) → Option ReconItem
  | [] => none
  | (k, v) :: g => some ⟨⟨f, k, v⟩, g⟩

end ReconItem

/-- What is done with an item: it is passed over, its key is noted although there is
no value, or it is the next one. -/
inductive Verdict
  | skip
  | noValue
  | found (v : Bytes)
  deriving DecidableEq

/-- `items` is the number of items that were before the cursors at the beginning. -/
structure ReconIter where
  h : Array ReconItem
  nextKey : Option Bytes
  nextVal : Bytes
  limit : Int
  items : Nat

namespace ReconIter

section Advance

variable (bound : Option Bytes) (verdict : Option Bytes → ReconEntry → Verdict)

def advanceLoop : Nat → ReconIter → ReconIter
  | 0, it => { it with nextKey := none }
  | fuel + 1, it =>
    match popNext ReconItem.less (ReconItem.next bound) it.h with
    | none => { it with nextKey := none }
    | some (top, h) =>
      match verdict it.nextKey top.toReconEntry with
      | .skip => advanceLoop fuel { it with h := h }
      | .noValue => advanceLoop fuel { it with h := h, nextKey := some top.key }
      | .found v => { it with h := h, nextKey := some top.key, nextVal := v }

def advance (it : ReconIter) : ReconIter := advanceLoop bound verdict it.items it

/-- `Next`, if `HasNext`. -/
def next (it : ReconIter) : Option ((Bytes × Bytes) × ReconIter) :=
  match it.nextKey with
  | none => none
  | some k =>
    if it.limit ≠ 0 ∧ beforeBound bound k then
      some ((k, it.nextVal), advance bound verdict { it with limit := it.limit - 1 })
    else none

end Advance

/-- The heap with a cursor for every reader that has a pair. -/
def start (readers : List (HistoryFile × List (Bytes × List Nat))) (limit : Int) : ReconIter :=
  ⟨(readers.filterMap fun r => ReconItem.start r.1 r.2).foldl (BinaryHeap.push ReconItem.less) #[],
    none, [], limit, (readers.map fun r => r.2.length).sum⟩

/-! ### What the iterators yield -/

section Yields

variable {bound : Option Bytes} {verdict : Option Bytes → ReconEntry → Verdict}
  {accept : ReconEntry → Option Bytes}

/-- The verdict on an item is that of `accept`, unless its key is the last one.  No
key is noted as the empty one. -/
def Follows (verdict : Option Bytes → ReconEntry → Verdict) (accept : ReconEntry → Option Bytes)
    (e : ReconEntry) : Prop :=
  ∀ last : Option Bytes, verdict last e =
    if e.key = last.getD [] then .skip else (accept e).elim .skip .found

abbrev firsts (accept : ReconEntry → Option Bytes) (last : Option Bytes) (cs : List ReconItem) :
    List (Bytes × Bytes) :=
  firstPerKey ReconEntry.key accept (some (last.getD [])) (cs.map ReconItem.toReconEntry)

/-- An item is passed over, or it is the next one. -/
theorem firsts_cons {c : ReconItem} (hfollows : Follows verdict accept c.toReconEntry)
    (last : Option Bytes) (cs : List ReconItem) :
    (verdict last c.toReconEntry = .skip ∧
      firsts accept last (c :: cs) = firsts accept last cs) ∨
    ∃ v, verdict last c.toReconEntry = .found v ∧
      firsts accept last (c :: cs) = (c.key, v) :: firsts accept (some c.key) cs := by
  rw [hfollows last, firsts, map_cons, firstPerKey]
  by_cases hkey : c.key = last.getD []
  · rw [if_pos hkey, if_pos (congrArg some hkey)]
    exact .inl ⟨rfl, rfl⟩
  · rw [if_neg hkey, if_neg fun heq => hkey (Option.some.inj heq)]
    cases haccept : accept c.toReconEntry with
    | none => exact .inl ⟨rfl, rfl⟩
    | some v => exact .inr ⟨v, rfl, rfl⟩

/-- Advancing comes to the first item that is accepted. -/
theorem advanceLoop_firsts {fuel : Nat} {it : ReconIter} {cs : List ReconItem}
    (hyields : Yields (popNext ReconItem.less (ReconItem.next bound)) it.h cs)
    (hfuel : cs.length ≤ fuel) (hfollows : ∀ c ∈ cs, Follows verdict accept c.toReconEntry) :
    (firsts accept it.nextKey cs = [] ∧
      (advanceLoop bound verdict fuel it).nextKey = none) ∨
    ∃ k v h cs', firsts accept it.nextKey cs = (k, v) :: firsts accept (some k) cs' ∧
      advanceLoop bound verdict fuel it = { it with h := h, nextKey := some k, nextVal := v } ∧
      Yields (popNext ReconItem.less (ReconItem.next bound)) h cs' ∧
      cs'.length < cs.length ∧ ∀ c ∈ cs', c ∈ cs := by
  induction cs generalizing fuel it with
  | nil =>
    refine .inl ⟨rfl, ?_⟩
    cases hyields with
    | done hdone =>
      cases fuel with
      | zero => rfl
      | succ fuel => simp [advanceLoop, hdone]
  | cons c cs ih =>
    cases fuel with
    | zero => cases hfuel
    | succ fuel =>
      cases hyields with
      | @step _ _ h _ hstep hrest =>
        rw [advanceLoop, hstep]
        dsimp only
        rw [length_cons, Nat.add_le_add_iff_right] at hfuel
        rcases firsts_cons (hfollows c mem_cons_self) it.nextKey cs with
          ⟨hskip, hfirsts⟩ | ⟨v, hfound, hfirsts⟩
        · rw [hskip, hfirsts]
          have hheap : Yields (popNext ReconItem.less (ReconItem.next bound))
            { it with h := h : ReconIter }.h cs := hrest
          rcases ih hheap hfuel fun d hd => hfollows d (mem_cons_of_mem c hd) with
            hnil | ⟨k, v, h', cs', hcons, hadv, hy, hlt, hmem⟩
          · exact .inl hnil
          · exact .inr ⟨k, v, h', cs', hcons, hadv, hy, hlt.trans (Nat.lt_succ_self _),
              fun d hd => mem_cons_of_mem c (hmem d hd)⟩
        · rw [hfound, hfirsts]
          exact .inr ⟨c.key, v, h, cs, rfl, rfl, hrest, Nat.lt_succ_self _,
            fun d hd => mem_cons_of_mem c hd⟩

/-- The items up to the bound are yielded. -/
theorem yields_advance {it : ReconIter} {cs : List ReconItem}
    (hyields : Yields (popNext ReconItem.less (ReconItem.next bound)) it.h cs)
    (hitems : cs.length ≤ it.items) (hlimit : it.limit < 0)
    (hfollows : ∀ c ∈ cs, Follows verdict accept c.toReconEntry) :
    Yields (next bound verdict) (advance bound verdict it)
      ((firsts accept it.nextKey cs).takeWhile fun a => beforeBound bound a.1) := by
  obtain ⟨n, hn⟩ : ∃ n, cs.length = n := ⟨_, rfl⟩
  induction n using Nat.strong_induction_on generalizing it cs with
  | _ n ih =>
    rcases advanceLoop_firsts hyields hitems hfollows with ⟨hnil, hadv⟩ |
      ⟨k, v, h, cs', hcons, hadv, hrest, hlt, hmem⟩
    · rw [hnil]
      exact .done (by rw [advance, next, hadv])
    · rw [hcons, advance, hadv]
      cases hbound : beforeBound bound k with
      | false =>
        rw [takeWhile_cons_of_neg (by simp [hbound])]
        exact .done (by simp [next, hbound])
      | true =>
        rw [takeWhile_cons_of_pos (by simp [hbound])]
        refine .step (by simp [next, hbound, Int.ne_of_lt hlimit]; rfl) ?_
        have hlimit' : it.limit - 1 < 0 := by omega
        exact ih cs'.length (hn ▸ hlt) hrest (hlt.le.trans hitems) hlimit'
          (fun c hc => hfollows c (hmem c hc)) rfl

end Yields

/-! ### The merge of the files -/

section Merge

variable (bound : Option Bytes)

def rank (c : ReconItem) : Bytes ×ₗ Nat := toLex (c.key, c.file.endTxNum)

theorem less_eq (c d : ReconItem) : ReconItem.less c d = decide (rank c < rank d) := by
  rw [ReconItem.less, Bool.eq_iff_iff, decide_eq_true_iff, rank, rank, Prod.Lex.toLex_lt_toLex]
  by_cases hkey : c.key = d.key <;> simp [hkey]

variable (f : HistoryFile)

def entry (a : Bytes × List Nat) : ReconEntry := ⟨f, a.1, a.2⟩

/-- The items a reader gives out: the first one without a look at the bound. -/
def entries : List (Bytes × List Nat) → List ReconEntry
  | [] => []
  | a :: g => entry f a :: (g.takeWhile fun b => beforeBound bound b.1).map (entry f)

theorem next_advances : Advances ReconEntry.key rank
    (fun c stream => stream = (c.file.endTxNum, entries bound c.file ((c.key, c.val) :: c.g)))
    ReconItem.toReconEntry (ReconItem.next bound) := by
  refine ⟨fun c p items hc => ?_⟩
  cases hc
  refine ⟨_, rfl, rfl, ?_⟩
  obtain ⟨e, g⟩ := c
  cases g with
  | nil => exact .inl ⟨rfl, rfl⟩
  | cons a g =>
    cases hbound : beforeBound bound a.1 with
    | false => exact .inl (by simp [ReconItem.next, hbound])
    | true => exact .inr (by simp [ReconItem.next, entries, entry, hbound])

variable {bound}

theorem beforeBound_of_lt {k l : Bytes} (hlt : k < l) (hl : beforeBound bound l = true) :
    beforeBound bound k = true := by
  cases bound with
  | none => rfl
  | some toKey => exact decide_eq_true (hlt.trans (of_decide_eq_true hl))

theorem entries_cons {a : Bytes × List Nat} {g : List (Bytes × List Nat)}
    (hpairs : (a :: g).Pairwise fun a b => a.1 < b.1) :
    entries bound f (a :: g) = (a :: g.filter fun b => beforeBound bound b.1).map (entry f) := by
  rw [entries, takeWhile_eq_filter (hpairs.of_cons.imp fun hlt => beforeBound_of_lt hlt)]
  rfl

variable {pairs : List (Bytes × List Nat)}

theorem entries_sorted (hpairs : pairs.Pairwise fun a b => a.1 < b.1) :
    (entries bound f pairs).Pairwise fun d e => d.key ≤ e.key := by
  cases pairs with
  | nil => exact .nil
  | cons a g =>
    rw [entries_cons f hpairs, pairwise_map]
    exact (hpairs.sublist (filter_sublist.cons_cons a)).imp le_of_lt

theorem length_entries_le (pairs : List (Bytes × List Nat)) :
    (entries bound f pairs).length ≤ pairs.length := by
  cases pairs with
  | nil => exact le_rfl
  | cons a g =>
    rw [entries, length_cons, length_map, length_cons]
    exact Nat.succ_le_succ (takeWhile_sublist _).length_le

theorem mem_entries {f : HistoryFile} {e : ReconEntry} (he : e ∈ entries bound f pairs) :
    ∃ a ∈ pairs, entry f a = e := by
  cases pairs with
  | nil => cases he
  | cons a g =>
    rcases mem_cons.mp he with rfl | he
    · exact ⟨a, mem_cons_self, rfl⟩
    · obtain ⟨b, hb, rfl⟩ := mem_map.mp he
      exact ⟨b, mem_cons_of_mem a ((takeWhile_sublist _).subset hb), rfl⟩

/-- Below the bound a reader gives out all it has. -/
theorem withKey_entries (hpairs : pairs.Pairwise fun a b => a.1 < b.1) {k : Bytes}
    (hk : beforeBound bound k = true) :
    withKey ReconEntry.key k (entries bound f pairs) =
      (withKey Prod.fst k pairs).map (entry f) := by
  cases pairs with
  | nil => rfl
  | cons a g =>
    have happend : ∀ l : List (Bytes × List Nat), withKey Prod.fst k (a :: l) =
        withKey Prod.fst k [a] ++ withKey Prod.fst k l := withKey_append [a]
    have hfilter : withKey Prod.fst k (g.filter fun b => beforeBound bound b.1) =
        withKey Prod.fst k g := by
      refine withKey_filter (fun b hb => ?_) g
      rw [hb, hk]
    rw [entries_cons f hpairs, withKey_map]
    refine congrArg (List.map (entry f)) ?_
    change withKey Prod.fst k (a :: g.filter fun b => beforeBound bound b.1) = _
    rw [happend, hfilter, ← happend]

theorem start_eq_some {f : HistoryFile} {c : ReconItem} (hstart : ReconItem.start f pairs = some c) :
    c.file = f ∧ (c.key, c.val) :: c.g = pairs := by
  cases pairs with
  | nil => cases hstart
  | cons a g =>
    cases hstart
    exact ⟨rfl, rfl⟩

/-- What the cursors stand before, as streams in the order of the files. -/
def streams (bound : Option Bytes) (readers : List (HistoryFile × List (Bytes × List Nat))) :
    List (Nat × List ReconEntry) :=
  (readers.filterMap fun r => ReconItem.start r.1 r.2).map fun c =>
    (c.file.endTxNum, entries bound c.file ((c.key, c.val) :: c.g))

section Streams

variable {readers : List (HistoryFile × List (Bytes × List Nat))}

theorem mem_streams {s : Nat × List ReconEntry} (hs : s ∈ streams bound readers) :
    ∃ r ∈ readers, s = (r.1.endTxNum, entries bound r.1 r.2) := by
  obtain ⟨c, hc, rfl⟩ := mem_map.mp hs
  obtain ⟨r, hr, hstart⟩ := mem_filterMap.mp hc
  obtain ⟨hfile, hpairs⟩ := start_eq_some hstart
  exact ⟨r, hr, by rw [hfile, hpairs]⟩

theorem streams_ordered (hordered : readers.Pairwise fun r s => r.1.endTxNum < s.1.endTxNum) :
    (streams bound readers).Pairwise fun s t => s.1 < t.1 := by
  rw [streams, pairwise_map]
  refine List.Pairwise.filterMap _ (fun r s hlt c hc d hd => ?_) hordered
  rw [(start_eq_some hc).1, (start_eq_some hd).1]
  exact hlt

/-- A reader without pairs has no stream. -/
theorem flatMap_streams {B : Type} {F : List ReconEntry → List B} (hnil : F [] = [])
    (readers : List (HistoryFile × List (Bytes × List Nat))) :
    ((streams bound readers).flatMap fun s => F s.2) =
      readers.flatMap fun r => F (entries bound r.1 r.2) := by
  rw [streams, flatMap_map]
  induction readers with
  | nil => rfl
  | cons r readers ih =>
    cases hstart : ReconItem.start r.1 r.2 with
    | none =>
      have hempty : r.2 = [] := by
        cases hpairs : r.2 with
        | nil => rfl
        | cons a g =>
          rw [hpairs] at hstart
          cases hstart
      rw [filterMap_cons, hstart, ih, flatMap_cons, hempty, entries, hnil]
      rfl
    | some c =>
      obtain ⟨hfile, hpairs⟩ := start_eq_some hstart
      rw [filterMap_cons, hstart, flatMap_cons, ih, flatMap_cons, hfile, hpairs]

theorem pending_streams_le (readers : List (HistoryFile × List (Bytes × List Nat))) :
    pending (streams bound readers) ≤ (readers.map fun r => r.2.length).sum := by
  have hflat : pending (streams bound readers) =
      (readers.flatMap fun r => entries bound r.1 r.2).length := by
    rw [← flatMap_streams (F := fun l => l) rfl, length_flatMap, pending]
  rw [hflat, length_flatMap]
  exact sum_le_sum fun r _ => length_entries_le r.1 r.2

/-- The heap yields a merge of the streams. -/
theorem popNext_start (bound : Option Bytes)
    (readers : List (HistoryFile × List (Bytes × List Nat))) (limit : Int) :
    ∃ cs, Yields (popNext ReconItem.less (ReconItem.next bound)) (start readers limit).h cs ∧
      Merges ReconEntry.key (streams bound readers) (cs.map ReconItem.toReconEntry) ∧
      cs.length ≤ (start readers limit).items := by
  obtain ⟨horder, hperm⟩ := BinaryHeap.foldl_push_ordered (rank_asymm less_eq)
    (rank_trans less_eq) (readers.filterMap fun r => ReconItem.start r.1 r.2)
    (h := #[]) fun c _ hc => absurd hc (Nat.not_lt_zero c)
  rw [append_nil] at hperm
  obtain ⟨shown, hshows, hperm'⟩ := perm_comp_forall₂ hperm
    (List.forall₂_map_right_iff.mpr (List.forall₂_same.mpr fun c _ => rfl) :
      List.Forall₂ (fun (c : ReconItem) stream => stream =
        (c.file.endTxNum, entries bound c.file ((c.key, c.val) :: c.g))) _ (streams bound readers))
  obtain ⟨cs, hyields, hmerges, hlength⟩ :=
    popNext_yields less_eq (next_advances bound) horder hshows
  refine ⟨cs, hyields, .perm hperm' hmerges, ?_⟩
  rw [hlength, pending_perm hperm']
  exact pending_streams_le readers

variable {verdict : Option Bytes → ReconEntry → Verdict} {accept : ReconEntry → Option Bytes}

/-- Each key is yielded with what the first file gives that has an answer for it. -/
theorem yields_start (hpairs : ∀ r ∈ readers, r.2.Pairwise fun a b => a.1 < b.1)
    (hordered : readers.Pairwise fun r s => r.1.endTxNum < s.1.endTxNum)
    (hfollows : ∀ r ∈ readers, ∀ a ∈ r.2, Follows verdict accept (entry r.1 a))
    {limit : Int} (hlimit : limit < 0) :
    ∃ items, Yields (next bound verdict) (advance bound verdict (start readers limit)) items ∧
      items.Pairwise (fun a b => a.1 < b.1) ∧
      ∀ k v, (k, v) ∈ items ↔ k ≠ [] ∧ beforeBound bound k = true ∧
        (readers.findSome? fun r => (withKey Prod.fst k r.2).findSome? fun a =>
          accept (entry r.1 a)) = some v := by
  obtain ⟨cs, hyields, hmerges, hitems⟩ := popNext_start bound readers limit
  have hsorted : ∀ s ∈ streams bound readers, s.2.Pairwise fun d e => d.key ≤ e.key := by
    intro s hs
    obtain ⟨r, hr, rfl⟩ := mem_streams hs
    exact entries_sorted r.1 (hpairs r hr)
  have hout := hmerges.sorted hsorted
  have hcs : ∀ c ∈ cs, Follows verdict accept c.toReconEntry := by
    intro c hc
    obtain ⟨s, hs, hcs⟩ := (hmerges.mem_iff _).mp (mem_map_of_mem hc)
    obtain ⟨r, hr, rfl⟩ := mem_streams hs
    obtain ⟨a, ha, heq⟩ := mem_entries hcs
    exact heq ▸ hfollows r hr a ha
  have hlast : ∀ k ∈ some [], ∀ e ∈ cs.map ReconItem.toReconEntry, k ≤ e.key := by
    intro k hk e _
    cases hk
    exact nil_le_bytes e.key
  have hfirsts : (firstPerKey ReconEntry.key accept (some []) (cs.map
      ReconItem.toReconEntry)).Pairwise fun a b => a.1 < b.1 := (firstPerKey_sorted hout hlast).1
  have hdown : (firstPerKey ReconEntry.key accept (some []) (cs.map
      ReconItem.toReconEntry)).Pairwise fun a b =>
        beforeBound bound b.1 = true → beforeBound bound a.1 = true :=
    hfirsts.imp fun hlt => beforeBound_of_lt hlt
  refine ⟨_, yields_advance hyields hitems hlimit hcs, ?_, fun k v => ?_⟩
  · exact hfirsts.sublist (takeWhile_sublist _)
  · change (k, v) ∈ List.takeWhile _ (firstPerKey ReconEntry.key accept (some []) _) ↔ _
    rw [takeWhile_eq_filter hdown, mem_filter, mem_firstPerKey hout hlast, and_comm, ← and_assoc, ne_comm,
      and_comm (a := beforeBound bound k = true), and_assoc, ne_eq, Option.some.injEq]
    refine and_congr_right fun _ => and_congr_right fun hk => ?_
    have hwith : withKey ReconEntry.key k (cs.map ReconItem.toReconEntry) =
        readers.flatMap fun r => (withKey Prod.fst k r.2).map (entry r.1) := by
      rw [hmerges.withKey_eq hsorted (List.Perm.refl _) (streams_ordered hordered),
        flatMap_streams (F := withKey ReconEntry.key k) rfl]
      exact flatMap_congr fun r hr => withKey_entries r.1 (hpairs r hr) hk
    rw [hwith, findSome?_flatMap]
    simp only [findSome?_map, Function.comp_def]

end Streams

end Merge


end ReconIter

end Erigon
