/-
Loading: wherever the buffers were flushed, the load function is handed the
stable sorting of the collected pairs, or one pair for every key.
-/
import Erigon.EtlRead

namespace Erigon

open List

namespace Etl

/-! ### Consuming a merged sequence -/

section Consume

variable {S E : Type} (loadFunc : S → GoSlice → GoSlice → Except E S)

/-- One call of the load function. -/
def deliver (s : S) (pair : Pair) : Except (LoadError E) S :=
  (loadFunc s (some pair.1) pair.2).mapError .load

/-- The calls for the oldest-entry buffer after a key. -/
def skipRepeated : GoSlice → List Pair → List Pair
  | _, [] => []
  | prevK, pair :: rest =>
    if prevK.bytes = pair.1 then skipRepeated prevK rest
    else pair :: skipRepeated (some pair.1) rest

/-- The calls for the append buffer from a pair on. -/
def joinRuns : Pair → List Pair → List Pair
  | prev, [] => [prev]
  | prev, pair :: rest =>
    if prev.1 = pair.1 then joinRuns (prev.1, prev.2.append pair.2.bytes) rest
    else prev :: joinRuns pair rest

/-- What the consumers make of a merged sequence. -/
def delivered : BufferType → List Pair → List Pair
  | .sortableSlice, out => out
  | .sortableAppend, [] => []
  | .sortableAppend, pair :: rest => joinRuns pair rest
  | .sortableOldestAppeared, out => skipRepeated none out

/-- The calls after the main loop. -/
def finish (bufType : BufferType) (st : LoadState S) : Except (LoadError E) S :=
  if bufType = .sortableAppend ∧ st.prevK ≠ none then
    (loadFunc st.load st.prevK st.prevV).mapError .load
  else .ok st.load

variable (out : List Pair)

theorem finish_slice (st : LoadState S) :
    (out.foldlM (fun st pair => consume loadFunc .sortableSlice st (some pair.1) pair.2) st >>=
      finish loadFunc .sortableSlice) = out.foldlM (deliver loadFunc) st.load := by
  induction out generalizing st with
  | nil => rfl
  | cons pair out ih =>
    rw [foldlM_cons, foldlM_cons, bind_assoc, consume, deliver]
    cases loadFunc st.load (some pair.1) pair.2 with
    | error e => rfl
    | ok s => exact ih _

theorem finish_oldest (st : LoadState S) :
    (out.foldlM (fun st pair =>
        consume loadFunc .sortableOldestAppeared st (some pair.1) pair.2) st >>=
      finish loadFunc .sortableOldestAppeared) =
      (skipRepeated st.prevK out).foldlM (deliver loadFunc) st.load := by
  induction out generalizing st with
  | nil => rfl
  | cons pair out ih =>
    rw [foldlM_cons, bind_assoc, consume, skipRepeated, GoSlice.bytes_some]
    by_cases hsame : st.prevK.bytes = pair.1
    · rw [if_pos hsame, if_pos hsame]
      exact ih st
    · rw [if_neg hsame, if_neg hsame, foldlM_cons, deliver]
      cases loadFunc st.load (some pair.1) pair.2 with
      | error e => rfl
      | ok s => exact ih _

theorem finish_append (s : S) (prev : Pair) :
    (out.foldlM (fun st pair => consume loadFunc .sortableAppend st (some pair.1) pair.2)
        ⟨s, some prev.1, prev.2⟩ >>= finish loadFunc .sortableAppend) =
      (joinRuns prev out).foldlM (deliver loadFunc) s := by
  induction out generalizing s prev with
  | nil =>
    rw [joinRuns, foldlM_cons, deliver]
    exact (bind_pure _).symm
  | cons pair out ih =>
    rw [foldlM_cons, bind_assoc, consume, joinRuns]
    simp only [GoSlice.bytes_some]
    by_cases hsame : prev.1 = pair.1
    · rw [if_pos hsame, if_pos hsame]
      exact ih s (prev.1, prev.2.append pair.2.bytes)
    · rw [if_neg hsame, if_neg hsame, foldlM_cons, deliver, if_neg (Option.some_ne_none _)]
      cases loadFunc s (some prev.1) prev.2 with
      | error e => rfl
      | ok s' => exact ih s' pair

theorem finish_delivered (bufType : BufferType) {out : List Pair}
    (hne : bufType ≠ .sortableSlice → ∀ pair ∈ out, pair.1 ≠ []) (s : S) :
    (out.foldlM (fun st pair => consume loadFunc bufType st (some pair.1) pair.2)
        ⟨s, none, none⟩ >>= finish loadFunc bufType) =
      (delivered bufType out).foldlM (deliver loadFunc) s := by
  cases bufType with
  | sortableSlice => exact finish_slice loadFunc out _
  | sortableOldestAppeared => exact finish_oldest loadFunc out _
  | sortableAppend =>
    cases out with
    | nil => rfl
    | cons pair out =>
      have hfirst : ([] : Bytes) ≠ pair.1 := (hne (by decide) pair mem_cons_self).symm
      rw [foldlM_cons, bind_assoc, consume]
      simp only [GoSlice.bytes_some, GoSlice.bytes_none]
      rw [if_neg hfirst, if_pos trivial]
      exact finish_append loadFunc out s pair

end Consume

theorem valuesOf_eq_nil_of_lt {k : Bytes} {pairs : List Pair} (hlt : ∀ pair ∈ pairs, k < pair.1) :
    valuesOf k pairs = [] := by
  rw [valuesOf_eq_nil_iff, mem_map]
  rintro ⟨pair, hpair, rfl⟩
  exact lt_irrefl _ (hlt pair hpair)

variable {out calls : List Pair}

/-- Skipping repeated keys of a sorted sequence. -/
theorem skipRepeated_spec (prevK : GoSlice) (hsorted : out.Pairwise fun p q => p.1 ≤ q.1)
    (hprev : ∀ pair ∈ out, prevK.bytes ≤ pair.1) :
    (skipRepeated prevK out).Pairwise (fun p q => p.1 < q.1) ∧
      (∀ pair ∈ skipRepeated prevK out, prevK.bytes < pair.1) ∧
      ∀ k, k ≠ prevK.bytes →
        valuesOf k (skipRepeated prevK out) = summary firstValue (valuesOf k out) := by
  induction out generalizing prevK with
  | nil => exact ⟨.nil, fun _ h => (nomatch h), fun _ _ => rfl⟩
  | cons pair out ih =>
    obtain ⟨k, v⟩ := pair
    rw [pairwise_cons] at hsorted
    rw [forall_mem_cons] at hprev
    rw [skipRepeated]
    split
    · rename_i hsame
      obtain ⟨hasc, hlt, hvalues⟩ := ih prevK hsorted.2 hprev.2
      refine ⟨hasc, hlt, fun l hl => ?_⟩
      rw [hsame] at hl
      rw [hvalues l (hsame ▸ hl), valuesOf_cons_ne v hl]
    · rename_i hnew
      have hk : prevK.bytes < k := lt_of_le_of_ne hprev.1 hnew
      obtain ⟨hasc, hlt, hvalues⟩ := ih (some k) hsorted.2 hsorted.1
      rw [GoSlice.bytes_some] at hlt hvalues
      refine ⟨hasc.cons hlt, ?_, fun l _ => ?_⟩
      · rw [forall_mem_cons]
        exact ⟨hk, fun pair hpair => hk.trans (hlt pair hpair)⟩
      · by_cases hl : l = k
        · subst hl
          rw [valuesOf_cons_self, valuesOf_cons_self, valuesOf_eq_nil_of_lt hlt, summary,
            if_neg (cons_ne_nil _ _)]
          rfl
        · rw [valuesOf_cons_ne v hl, valuesOf_cons_ne v hl, hvalues l hl]

/-- Joining the runs of equal keys of a sorted sequence. -/
theorem joinRuns_spec (prev : Pair) (hsorted : (prev :: out).Pairwise fun p q => p.1 ≤ q.1) :
    (joinRuns prev out).Pairwise (fun p q => p.1 < q.1) ∧
      (∀ pair ∈ joinRuns prev out, prev.1 ≤ pair.1) ∧
      ∀ k, valuesOf k (joinRuns prev out) = summary List.flatten (valuesOf k (prev :: out)) := by
  have hsingle : ∀ (k : Bytes) (v : GoSlice) (l : Bytes),
      valuesOf l [(k, v)] = summary List.flatten (valuesOf l [(k, v)]) := by
    intro k v l
    by_cases hl : l = k
    · subst hl
      rw [valuesOf_cons_self]
      simp [summary]
    · rw [valuesOf_cons_ne v hl]
      rfl
  induction out generalizing prev with
  | nil =>
    refine ⟨pairwise_singleton _ _, fun pair hpair => ?_, hsingle prev.1 prev.2⟩
    rw [mem_singleton.mp hpair]
  | cons pair out ih =>
    obtain ⟨k, v⟩ := prev
    rw [pairwise_cons, forall_mem_cons] at hsorted
    rw [joinRuns]
    split
    · rename_i hsame
      obtain ⟨l, w⟩ := pair
      change k = l at hsame
      subst hsame
      obtain ⟨hasc, hle, hvalues⟩ := ih (k, v.append w.bytes)
        (pairwise_cons.mpr ⟨hsorted.1.2, hsorted.2.of_cons⟩)
      refine ⟨hasc, hle, fun l => ?_⟩
      rw [hvalues l]
      by_cases hl : l = k
      · subst hl
        simp [valuesOf_cons_self, summary]
      · simp only [valuesOf_cons_ne _ hl]
    · rename_i hnew
      have hk : k < pair.1 := lt_of_le_of_ne hsorted.1.1 hnew
      obtain ⟨hasc, hle, hvalues⟩ := ih pair hsorted.2
      have hlt : ∀ q ∈ joinRuns pair out, k < q.1 := fun q hq => hk.trans_le (hle q hq)
      have hrest : valuesOf k (pair :: out) = [] := by
        exact valuesOf_eq_nil_of_lt fun q hq => hk.trans_le (le_of_mem_cons hsorted.2 hq)
      refine ⟨hasc.cons hlt, ?_, fun l => ?_⟩
      · rw [forall_mem_cons]
        exact ⟨le_rfl, fun q hq => (hlt q hq).le⟩
      · by_cases hl : l = k
        · subst hl
          rw [valuesOf_cons_self, valuesOf_cons_self, valuesOf_eq_nil_of_lt hlt, hrest]
          simp [summary]
        · rw [valuesOf_cons_ne v hl, valuesOf_cons_ne v hl, hvalues l]

/-- The consumers gather a sorted sequence as the buffers gather the calls. -/
theorem delivered_gathers (bufType : BufferType) (hsorted : out.Pairwise fun p q => p.1 ≤ q.1)
    (hne : bufType ≠ .sortableSlice → ∀ pair ∈ out, pair.1 ≠ []) :
    Gathers bufType out (delivered bufType out) := by
  cases bufType with
  | sortableSlice => exact ⟨hsorted, fun _ => rfl⟩
  | sortableAppend =>
    cases out with
    | nil => exact ⟨.nil, fun _ => rfl⟩
    | cons pair out =>
      obtain ⟨hasc, -, hvalues⟩ := joinRuns_spec pair hsorted
      exact ⟨hasc, hvalues⟩
  | sortableOldestAppeared =>
    obtain ⟨hasc, hlt, hvalues⟩ := skipRepeated_spec none hsorted
      fun pair _ => nil_le_bytes pair.1
    refine ⟨hasc, fun k => ?_⟩
    by_cases hk : k = []
    · have hnone : valuesOf [] out = [] := by
        rw [valuesOf_eq_nil_iff, mem_map]
        rintro ⟨pair, hpair, hkey⟩
        exact hne (by decide) pair hpair hkey
      rw [hk, hnone]
      exact valuesOf_eq_nil_of_lt hlt
    · exact hvalues k hk

/-! ### Merging the providers -/

/-- The order of the heap. -/
def rank (c : Cursor) : Bytes ×ₗ Nat := toLex (c.elem.key.bytes, c.elem.timeIdx)

theorem less_eq (c d : Cursor) : less c d = decide (rank c < rank d) := by
  rw [rank, rank, Bool.eq_iff_iff, decide_eq_true_iff, Prod.Lex.toLex_lt_toLex, less]
  split
  · rename_i hsame
    simp [hsame]
  · rename_i hdiff
    simp [hdiff]

/-- A cursor stands before the items that its provider has left. -/
def Shows (c : Cursor) (stream : Nat × List Pair) : Prop :=
  c.elem.timeIdx = stream.1 ∧ ∃ k v items, c.elem.key = some k ∧ c.elem.value = v ∧
    stream.2 = (k, v) :: items ∧ Reads c.provider (some []) v.cleared items

theorem loadStep_steps {S E : Type} (loadFunc : S → GoSlice → GoSlice → Except E S)
    (bufType : BufferType) : Steps Prod.fst rank Shows (loadStep loadFunc bufType)
      fun st pair => consume loadFunc bufType st (some pair.1) pair.2 := by
  constructor
  rintro c i stream ⟨hidx, k, v, items, hkey, hvalue, hstream, hreads⟩
  dsimp only at hidx hstream
  refine ⟨(k, v), items, hstream, ?_, ?_⟩
  · rw [rank, hkey, hidx]
    rfl
  · cases hreads with
    | nil hnext =>
      refine .inl ⟨rfl, fun st => ?_⟩
      rw [loadStep, hkey, hvalue, GoSlice.cleared_some, hnext]
      rfl
    | @cons _ _ _ k' v' rest items' hnext hrest =>
      refine .inr ⟨⟨⟨some k', v', i⟩, rest⟩, fun st => ?_,
        rfl, k', v', items', rfl, rfl, rfl, hrest⟩
      rw [loadStep, hkey, hvalue, GoSlice.cleared_some, hnext, hidx]
      rfl

/-- The streams of the providers, numbered from `i`. -/
def numbered : Nat → List (List Pair) → List (Nat × List Pair)
  | _, [] => []
  | i, items :: rest => (i, items) :: numbered (i + 1) rest

variable {itemss batches : List (List Pair)}

theorem numbered_le {i : Nat} {stream : Nat × List Pair} (hmem : stream ∈ numbered i itemss) :
    i ≤ stream.1 ∧ stream.2 ∈ itemss := by
  induction itemss generalizing i with
  | nil => cases hmem
  | cons items rest ih =>
    rcases mem_cons.mp hmem with rfl | hmem
    · exact ⟨le_rfl, mem_cons_self⟩
    · obtain ⟨hle, hitems⟩ := ih hmem
      exact ⟨by omega, mem_cons_of_mem _ hitems⟩

theorem numbered_ordered (i : Nat) (itemss : List (List Pair)) :
    (numbered i itemss).Pairwise fun s t => s.1 < t.1 := by
  induction itemss generalizing i with
  | nil => exact .nil
  | cons items rest ih => exact .cons (fun _ hmem => (numbered_le hmem).1) (ih (i + 1))

theorem numbered_map {B : Type} (i : Nat) (itemss : List (List Pair)) (f : List Pair → B) :
    (numbered i itemss).map (fun s => f s.2) = itemss.map f := by
  induction itemss generalizing i with
  | nil => rfl
  | cons items rest ih => rw [numbered, map_cons, map_cons, ih]

/-- Every provider that returns something has a cursor in the heap. -/
theorem firstElems_spec {E : Type} {providers : List DataProvider}
    (hreads : List.Forall₂ (fun p items => Reads p none none items ∧ items ≠ [])
      providers itemss) (i : Nat) {h : Array Cursor} (horder : BinaryHeap.Ordered less h.size h)
    {streams : List (Nat × List Pair)} (hshows : List.Forall₂ Shows h.toList streams) :
    ∃ h' streams', firstElems (E := E) i providers h = .ok h' ∧
      BinaryHeap.Ordered less h'.size h' ∧ List.Forall₂ Shows h'.toList streams' ∧
      streams'.Perm (numbered i itemss ++ streams) := by
  induction hreads generalizing i h streams with
  | nil => exact ⟨h, streams, rfl, horder, hshows, List.Perm.refl _⟩
  | @cons provider items providers itemss hitems _ ih =>
    obtain ⟨hread, hne⟩ := hitems
    cases hread with
    | nil => exact absurd rfl hne
    | @cons _ _ _ k v rest items hnext hrest =>
      have hpush := BinaryHeap.push_ordered (rank_asymm less_eq) (rank_trans less_eq)
        horder ⟨⟨some k, v, i⟩, rest⟩
      have hshow : Shows ⟨⟨some k, v, i⟩, rest⟩ (i, (k, v) :: items) :=
        ⟨rfl, k, v, items, rfl, rfl, rfl, hrest⟩
      obtain ⟨pushed, hpushed, hperm⟩ := perm_comp_forall₂
        (BinaryHeap.push_perm h _) (List.Forall₂.cons hshow hshows)
      obtain ⟨h', streams', hrun, horder', hshows', hperm'⟩ := ih (i + 1) hpush hpushed
      refine ⟨h', streams', ?_, horder', hshows', hperm'.trans ?_⟩
      · rw [firstElems, hnext]
        exact hrun
      · exact (hperm.append_left _).trans perm_middle

/-- Merging hands over what the consumers make of a merge of the streams. -/
theorem mergeSortFiles_eq {S E : Type} (loadFunc : S → GoSlice → GoSlice → Except E S)
    (bufType : BufferType) {providers : List DataProvider}
    (hreads : List.Forall₂ (fun p items => Reads p none none items ∧ items ≠ [])
      providers itemss)
    (hbound : List.Forall₂ (fun p items => List.length items ≤ p.bound) providers itemss)
    (hne : bufType ≠ .sortableSlice → ∀ items ∈ itemss, ∀ pair ∈ items, pair.1 ≠ []) :
    ∃ out, Merges Prod.fst (numbered 0 itemss) out ∧
      (bufType ≠ .sortableSlice → ∀ pair ∈ out, pair.1 ≠ []) ∧ ∀ s,
      mergeSortFiles loadFunc bufType providers s =
        (delivered bufType out).foldlM (deliver loadFunc) s := by
  obtain ⟨h, streams, hfirst, horder, hshows, hperm⟩ := firstElems_spec (E := E) hreads 0
    (h := #[]) (fun _ _ hlt => absurd hlt (Nat.not_lt_zero _)) .nil
  rw [append_nil] at hperm
  have hfuel : (streams.map fun s => s.2.length).sum ≤
      (providers.map DataProvider.bound).sum := by
    rw [(hperm.map _).sum_nat, numbered_map]
    refine List.Forall₂.sum_le_sum ?_
    rw [List.forall₂_map_left_iff, List.forall₂_map_right_iff]
    exact hbound.flip
  obtain ⟨out, hmerges, hrun⟩ := popLoop_merges less_eq (loadStep_steps loadFunc bufType)
    horder hshows hfuel
  have hkeys : bufType ≠ .sortableSlice → ∀ pair ∈ out, pair.1 ≠ [] := by
    intro htype pair hpair
    obtain ⟨stream, hstream, hmem⟩ := (hmerges.mem_iff pair).mp hpair
    exact hne htype _ (numbered_le (hperm.mem_iff.mp hstream)).2 pair hmem
  refine ⟨out, .perm hperm hmerges, hkeys, fun s => ?_⟩
  rw [← finish_delivered loadFunc bufType hkeys, mergeSortFiles, hfirst]
  simp only [bind, Except.bind]
  rw [hrun]
  rfl

/-! ### From the batches to the calls -/

variable {combine : List Bytes → Bytes}

/-- Combining blocks and then their combinations is combining everything. -/
def Joins (combine : List Bytes → Bytes) : Prop :=
  ∀ blocks : List (List Bytes),
    combine (blocks.flatMap (summary combine)) = combine blocks.flatten

theorem Joins.summary_flatMap (hjoins : Joins combine) (blocks : List (List Bytes)) :
    summary combine (blocks.flatMap (summary combine)) = summary combine blocks.flatten := by
  have hnil : blocks.flatMap (summary combine) = [] ↔ blocks.flatten = [] := by
    simp [summary_eq_nil]
  rw [summary, summary, hjoins]
  by_cases hblocks : blocks.flatten = []
  · rw [if_pos hblocks, if_pos (hnil.mpr hblocks)]
  · rw [if_neg hblocks, if_neg (hnil.not.mpr hblocks)]

theorem flatten_joins : Joins List.flatten := by
  intro blocks
  induction blocks with
  | nil => rfl
  | cons block blocks ih =>
    have hblock : (summary List.flatten block).flatten = block.flatten := by
      unfold summary
      split
      · rename_i hnil
        rw [hnil]
      · exact flatten_singleton
    rw [flatMap_cons, flatten_append, hblock, ih, flatten_cons, flatten_append]

theorem firstValue_joins : Joins firstValue := by
  intro blocks
  induction blocks with
  | nil => rfl
  | cons block blocks ih =>
    rw [flatMap_cons, flatten_cons]
    cases block with
    | nil => exact ih
    | cons value block => rfl

/-- The values of a key in a merge, block by block. -/
theorem collapsed_merged (hjoins : Joins combine)
    (hgathers : List.Forall₂ (Collapsed combine) batches itemss) {items : List Pair}
    (hsorted : StableSorted Prod.fst itemss.flatten out) (hfinal : Collapsed combine out items) :
    Collapsed combine batches.flatten items := by
  have hblocks : ∀ k, valuesOf k itemss.flatten =
      (batches.map (valuesOf k)).flatMap (summary combine) := by
    intro k
    clear hsorted
    induction hgathers with
    | nil => rfl
    | cons hgather _ ih =>
      rw [flatten_cons, valuesOf_append, hgather.values k, ih]
      rfl
  refine ⟨hfinal.ascending, fun k => ?_⟩
  rw [hfinal.values k, valuesOf, hsorted.keeps k]
  change summary combine (valuesOf k itemss.flatten) = _
  rw [hblocks, hjoins.summary_flatMap, valuesOf_flatten]

variable {bufType : BufferType}

/-- The merge of what the batches gave gathers all the calls. -/
theorem gathers_merged (hgathers : List.Forall₂ (Gathers bufType) batches itemss)
    (hmerges : Merges Prod.fst (numbered 0 itemss) out)
    (hne : bufType ≠ .sortableSlice → ∀ pair ∈ out, pair.1 ≠ []) :
    Gathers bufType batches.flatten (delivered bufType out) := by
  have hitems : ∀ items ∈ itemss, items.Pairwise fun p q => p.1 ≤ q.1 := by
    intro items hmem
    obtain ⟨batch, -, hgather⟩ := exists_of_forall₂ hgathers hmem
    cases bufType with
    | sortableSlice => exact hgather.sorted
    | sortableAppend => exact hgather.ascending.imp le_of_lt
    | sortableOldestAppeared => exact hgather.ascending.imp le_of_lt
  have hsorted := hmerges.stableSorted
    (fun s hs => hitems s.2 (numbered_le hs).2) (numbered_ordered 0 itemss)
  have hflat : (numbered 0 itemss).flatMap Prod.snd = itemss.flatten := by
    rw [flatMap_def]
    exact congrArg List.flatten ((numbered_map 0 itemss id).trans (map_id _))
  rw [hflat] at hsorted
  have hfinal := delivered_gathers bufType hsorted.sorted hne
  -- One key at a time: the items of the batches against the calls of the batches.
  cases bufType with
  | sortableSlice =>
    refine StableSorted.trans ⟨hsorted.sorted, fun k => ?_⟩ hfinal
    rw [hsorted.keeps k]
    clear hmerges hitems hsorted hflat hfinal hne
    induction hgathers with
    | nil => rfl
    | cons hgather _ ih =>
      rw [flatten_cons, flatten_cons, withKey_append, withKey_append, ih, hgather.keeps k]
  | sortableAppend => exact collapsed_merged flatten_joins hgathers hsorted hfinal
  | sortableOldestAppeared => exact collapsed_merged firstValue_joins hgathers hsorted hfinal

/-! ### The collector -/

/-- The batches are in the providers, the calls since the last flush in the buffer. -/
structure Collected (bufType : BufferType) (batches : List (List Pair)) (current : List Pair)
    (c : Collector) : Prop where
  bufType_eq : c.bufType = bufType
  notFlushed : c.allFlushed = false
  holds : BufferHolds bufType c.buf current
  ne : ∀ batch ∈ batches, batch ≠ []
  provides : List.Forall₂ (Provides bufType) c.dataProviders batches

theorem FitsMemory.sublist {part : List Pair} (hfits : FitsMemory bufType calls)
    (hpart : part.Sublist calls) :
    FitsMemory bufType part := by
  cases bufType with
  | sortableSlice => exact fun pair hpair => hfits pair (hpart.subset hpair)
  | sortableOldestAppeared => exact fun pair hpair => hfits pair (hpart.subset hpair)
  | sortableAppend =>
    intro pair hpair
    obtain ⟨hne, hklen, hvlen⟩ := hfits pair (hpart.subset hpair)
    have hvalues : (valuesOf pair.1 part).Sublist (valuesOf pair.1 calls) :=
      (hpart.filter _).map _
    exact ⟨hne, hklen, hvalues.flatten.length_le.trans_lt hvlen⟩

/-- A flush to a file makes the calls of the buffer a batch. -/
theorem Collected.flush {current : List Pair} {c : Collector}
    (h : Collected bufType batches current c) (hfits : FitsMemory bufType current) : ∃ batches',
      batches'.flatten = batches.flatten ++ current ∧
      Collected bufType batches' [] (c.flushBuffer false) := by
  unfold Collector.flushBuffer
  split
  · rename_i hlen
    rw [h.holds.len_eq_zero_iff] at hlen
    subst hlen
    exact ⟨batches, (append_nil _).symm, h⟩
  · rename_i hlen
    rw [h.holds.len_eq_zero_iff] at hlen
    rw [if_neg fun hram => Bool.false_ne_true hram.1]
    exact ⟨batches ++ [current], by simp, h.bufType_eq, h.notFlushed, h.holds.reset,
      forall_mem_append.mpr ⟨h.ne, forall_mem_singleton.mpr hlen⟩,
      rel_append h.provides (.cons (h.holds.provides hfits).1 .nil)⟩

/-- A collector after a sequence of `Collect` calls. -/
def collectAll (bufType : BufferType) (optimalSize : Int) (calls : List Pair) : Collector :=
  calls.foldl (fun c call => c.collect call.1 call.2) (.new bufType optimalSize)

theorem collected_collectAll (bufType : BufferType) (optimalSize : Int)
    (hfits : FitsMemory bufType calls) : ∃ batches current,
      calls = batches.flatten ++ current ∧
      Collected bufType batches current (collectAll bufType optimalSize calls) := by
  unfold collectAll
  induction calls using List.reverseRecOn with
  | nil =>
    exact ⟨[], [], rfl, rfl, rfl, new_holds bufType optimalSize,
      fun _ h => (nomatch h), .nil⟩
  | append_singleton calls call ih =>
    obtain ⟨batches, current, hcalls, h⟩ :=
      ih (hfits.sublist (sublist_append_left _ _))
    rw [foldl_concat]
    generalize calls.foldl _ _ = c at h
    have hput : Collected bufType batches (current ++ [call])
        { c with buf := c.buf.put call.1 call.2 } :=
      ⟨h.bufType_eq, h.notFlushed, h.holds.put call.1 call.2, h.ne, h.provides⟩
    have hall : calls ++ [call] = batches.flatten ++ (current ++ [call]) := by
      rw [hcalls, append_assoc]
    unfold Collector.collect
    dsimp only
    split
    · obtain ⟨batches', hflatten, hflush⟩ :=
        hput.flush (hfits.sublist (hall ▸ sublist_append_right _ _))
      exact ⟨batches', [], by rw [hall, hflatten, append_nil], hflush⟩
    · exact ⟨batches, current ++ [call], hall, hput⟩

/-- Before loading everything is in the providers. -/
theorem Collected.providers {current : List Pair} {c : Collector}
    (h : Collected bufType batches current c) (hfits : FitsMemory bufType current) : ∃ batches',
      batches'.flatten = batches.flatten ++ current ∧ (∀ batch ∈ batches', batch ≠ []) ∧
      List.Forall₂ (Provides bufType) (c.flushBuffer true).dataProviders batches' ∧
      (c.flushBuffer true).bufType = bufType := by
  by_cases hram : c.buf.len ≠ 0 ∧ c.dataProviders = []
  · have hnil : batches = [] := by
      have := h.provides
      rwa [hram.2, List.forall₂_nil_left_iff] at this
    have hcurrent : current ≠ [] := fun hcurrent =>
      hram.1 (h.holds.len_eq_zero_iff.mpr hcurrent)
    rw [Collector.flushBuffer, if_neg hram.1, if_pos ⟨rfl, hram.2⟩, hnil]
    exact ⟨[current], by simp, by simpa using hcurrent,
      .cons (h.holds.provides hfits).2 .nil, h.bufType_eq⟩
  · have hsame : c.flushBuffer true = c.flushBuffer false := by
      unfold Collector.flushBuffer
      grind
    obtain ⟨batches', hflatten, hflush⟩ := h.flush hfits
    rw [hsame]
    exact ⟨batches', hflatten, hflush.ne, hflush.provides, hflush.bufType_eq⟩

theorem FitsMemory.key_ne (hfits : FitsMemory bufType calls) (htype : bufType ≠ .sortableSlice)
    {pair : Pair} (hpair : pair ∈ calls) : pair.1 ≠ [] := by
  cases bufType with
  | sortableSlice => exact absurd rfl htype
  | sortableAppend => exact (hfits pair hpair).1
  | sortableOldestAppeared => exact (hfits pair hpair).1

/-- A gathered key is the key of a call. -/
theorem Gathers.mem {items : List Pair} (h : Gathers bufType calls items) {pair : Pair}
    (hpair : pair ∈ items) :
    ∃ call ∈ calls, call.1 = pair.1 := by
  cases bufType with
  | sortableSlice => exact ⟨pair, StableSorted.mem_iff h |>.mp hpair, rfl⟩
  | sortableAppend => exact (Collapsed.mem h hpair).1
  | sortableOldestAppeared => exact (Collapsed.mem h hpair).1

theorem Gathers.ne_nil {items : List Pair} (h : Gathers bufType calls items) (hne : calls ≠ []) :
    items ≠ [] := by
  rintro rfl
  refine hne ?_
  cases bufType with
  | sortableSlice =>
    exact eq_nil_iff_forall_not_mem.mpr fun call hcall =>
      not_mem_nil ((StableSorted.mem_iff h).mpr hcall)
  | sortableAppend => exact (eq_nil_iff_of_values h.values).mp rfl
  | sortableOldestAppeared => exact (eq_nil_iff_of_values h.values).mp rfl

/-- The items that the providers return. -/
theorem exists_items {providers : List DataProvider}
    (h : List.Forall₂ (Provides bufType) providers batches) (hne : ∀ batch ∈ batches, batch ≠ []) :
    ∃ itemss,
      List.Forall₂ (fun p items => Reads p none none items ∧ items ≠ []) providers itemss ∧
      List.Forall₂ (fun p items => List.length items ≤ p.bound) providers itemss ∧
      List.Forall₂ (Gathers bufType) batches itemss := by
  induction h with
  | nil => exact ⟨[], .nil, .nil, .nil⟩
  | cons hprovides _ ih =>
    rw [forall_mem_cons] at hne
    obtain ⟨items, hreads, hgathers, hbound⟩ := hprovides
    obtain ⟨itemss, hreads', hbound', hgathers'⟩ := ih hne.2
    exact ⟨items :: itemss, .cons ⟨hreads, hgathers.ne_nil hne.1⟩ hreads',
      .cons hbound hbound', .cons hgathers hgathers'⟩

/-- Loading hands over the gathered calls. -/
theorem load_collectAll {S E : Type} (loadFunc : S → GoSlice → GoSlice → Except E S)
    (bufType : BufferType) (optimalSize : Int) (hfits : FitsMemory bufType calls) :
    ∃ items, Gathers bufType calls items ∧ ∀ s,
      (collectAll bufType optimalSize calls).load loadFunc s =
        items.foldlM (deliver loadFunc) s := by
  obtain ⟨batches, current, hcalls, h⟩ := collected_collectAll bufType optimalSize hfits
  obtain ⟨batches', hflatten, hne, hprovides, hbufType⟩ :=
    h.providers (hfits.sublist (hcalls ▸ sublist_append_right _ _))
  have hload : ∀ s, (collectAll bufType optimalSize calls).load loadFunc s =
      mergeSortFiles loadFunc bufType
        ((collectAll bufType optimalSize calls).flushBuffer true).dataProviders s := by
    intro s
    rw [Collector.load, h.notFlushed, if_neg Bool.false_ne_true, hbufType]
  obtain ⟨itemss, hreads, hbound, hgathers⟩ := exists_items hprovides hne
  have hitems : bufType ≠ .sortableSlice → ∀ items ∈ itemss, ∀ pair ∈ items,
      pair.1 ≠ [] := by
    intro htype items hmem pair hpair
    obtain ⟨batch, hbatch, hgather⟩ := exists_of_forall₂ hgathers hmem
    obtain ⟨call, hcall, hkey⟩ := hgather.mem hpair
    have hmem : call ∈ calls := by
      rw [hcalls, ← hflatten]
      exact mem_flatten.mpr ⟨batch, hbatch, hcall⟩
    exact hkey ▸ hfits.key_ne htype hmem
  obtain ⟨out, hmerges, hout, hrun⟩ := mergeSortFiles_eq loadFunc bufType hreads hbound hitems
  refine ⟨delivered bufType out, ?_, fun s => (hload s).trans (hrun s)⟩
  rw [hcalls, ← hflatten]
  exact gathers_merged hgathers hmerges hout

/-- The keys of the calls, each once, in ascending order. -/
def ascendingKeys (calls : List Pair) : List Bytes := sortKeys (calls.map Prod.fst)

/-- The calls of the load function: for the slice buffer the collected pairs,
stably sorted; for the others one call a key, with all values of the key in a
row, or with the value that was collected first. -/
def LoadsPairs : BufferType → List Pair → List Pair → Prop
  | .sortableSlice, calls, items => items = stableSort Prod.fst calls
  | .sortableAppend, calls, items =>
    items.map (fun pair => (pair.1, pair.2.bytes)) =
      (ascendingKeys calls).map fun k => (k, (valuesOf k calls).flatten)
  | .sortableOldestAppeared, calls, items =>
    items.map (fun pair => (pair.1, pair.2.bytes)) =
      (ascendingKeys calls).map fun k => (k, firstValue (valuesOf k calls))

theorem Collapsed.map_eq {items : List Pair} (h : Collapsed combine calls items) :
    items.map (fun pair => (pair.1, pair.2.bytes)) =
      (ascendingKeys calls).map fun k => (k, combine (valuesOf k calls)) := by
  have hkeys : items.map Prod.fst = ascendingKeys calls := by
    refine List.Pairwise.eq_of_mem_iff (pairwise_map.mpr h.ascending) (sortKeys_sorted _)
      fun k => ?_
    have hiff : valuesOf k items = [] ↔ valuesOf k calls = [] := by
      rw [h.values k, summary_eq_nil]
    rw [valuesOf_eq_nil_iff, valuesOf_eq_nil_iff, not_iff_not] at hiff
    rw [hiff, ascendingKeys, sortKeys, Finset.mem_sort, mem_toFinset]
  rw [← hkeys, map_map]
  refine map_congr_left fun pair hpair => ?_
  rw [Function.comp_apply, (h.mem hpair).2]

/-- Whatever the size limit, loading calls the load function for the pairs that
the type of the buffer promises, in order, until it fails. -/
theorem collector_load_pairs {S E : Type} (loadFunc : S → GoSlice → GoSlice → Except E S)
    (bufType : BufferType) (optimalSize : Int) (calls : List Pair)
    (hfits : FitsMemory bufType calls) :
    ∃ items, LoadsPairs bufType calls items ∧
      ∀ s, (collectAll bufType optimalSize calls).load loadFunc s =
        items.foldlM (deliver loadFunc) s := by
  obtain ⟨items, hgathers, hload⟩ := load_collectAll loadFunc bufType optimalSize hfits
  refine ⟨items, ?_, hload⟩
  cases bufType with
  | sortableSlice => exact StableSorted.eq_stableSort hgathers
  | sortableAppend => exact Collapsed.map_eq hgathers
  | sortableOldestAppeared => exact Collapsed.map_eq hgathers

/-- The load function that keeps its calls. -/
def recordCalls (s : List (GoSlice × GoSlice)) (k v : GoSlice) :
    Except Unit (List (GoSlice × GoSlice)) := .ok (s ++ [(k, v)])

/-- Two keys, a nil and an empty value, and a flush after every pair. -/
theorem collector_load_pairs_flushed :
    (collectAll .sortableSlice 0 [([2], none), ([1], some [7]), ([2], some [])]).load
      recordCalls [] = .ok [(some [1], some [7]), (some [2], none), (some [2], some [])] := by
  have hfits : FitsMemory .sortableSlice [([2], none), ([1], some [7]), ([2], some [])] := by
    intro pair hpair
    simp only [mem_cons, not_mem_nil, or_false] at hpair
    rcases hpair with rfl | rfl | rfl <;> exact ⟨by decide, by decide⟩
  obtain ⟨items, hitems, hload⟩ := collector_load_pairs recordCalls .sortableSlice 0 _ hfits
  rw [hload [], show items = [([1], some [7]), ([2], none), ([2], some [])] from hitems]
  rfl

end Etl

end Erigon
