/-
Walking the touched keys: in direct mode the collector hands them out by hashed
key and passes errors on; in update mode the tree hands them out by plain key,
and whatever stops the walk is dropped.
-/
import Erigon.CommitmentUpdates
import Erigon.EtlLoad

namespace Erigon

open List

namespace Commitment

/-- One call of the function that `HashSort` is given. -/
structure Call where
  hashedKey : Bytes
  plainKey : Bytes
  update : Option Update
deriving DecidableEq

inductive HashSortError (E : Type)
  | fn (e : E)
  | stopped

/-- The calls that were made and the error that `HashSort` returned. -/
structure Outcome (E : Type) where
  calls : List Call
  err : Option (HashSortError E)

section HashSort

/-
`fn` says how the last of the calls made so far ends; the context is cancelled once
`cancelAt` calls have been made.
-/
variable {E : Type} (fn : List Call → Option E) (cancelAt : Option Nat)

/-- Whether `ctx.Done()` is closed after a number of calls. -/
def done (calls : Nat) : Bool := cancelAt.any fun n => decide (n ≤ calls)

/-- The load function of the direct mode, with the look at `Quit` that comes before
every 1024th element. -/
def loadCall (calls : List Call) (k v : GoSlice) :
    Except (Outcome E) (List Call) :=
  if (calls.length + 1) % 1024 = 0 ∧ done cancelAt calls.length then
    .error ⟨calls, some .stopped⟩
  else
    let calls := calls ++ [⟨k.bytes, v.bytes, none⟩]
    match fn calls with
    | none => .ok calls
    | some e => .error ⟨calls, some (.fn e)⟩

/-- `Ascend`: an error or a cancelled context ends the walk. -/
def ascend : List (Bytes × KeyUpdate) → List Call → List Call
  | [], calls => calls
  | item :: rest, calls =>
    if done cancelAt calls.length then calls
    else
      let calls := calls ++ [⟨item.2.hashedKey, item.1, some item.2.update⟩]
      match fn calls with
      | none => ascend rest calls
      | some _ => calls

/-- The collector after `Close`, or a new one in its place. -/
def closed (c : Etl.Collector) : Etl.Collector :=
  { c with buf := c.buf.reset, dataProviders := [], allFlushed := false }

/-- `none` for a collector that cannot read its own files. -/
def Updates.hashSort (t : Updates) : Option (Outcome E × Updates) :=
  match t.mode with
  | .direct =>
    let t' := { t with keys := [], etl := closed t.etl }
    match t.etl.load (loadCall fn cancelAt) [] with
    | .ok calls => some (⟨calls, none⟩, t')
    | .error (.load o) => some (o, t')
    | .error _ => none
  | .update =>
    some (⟨ascend fn cancelAt t.tree.pairs [], none⟩, { t with tree := .empty })
  | .disabled => some (⟨[], none⟩, t)

end HashSort

/-! ### What is promised -/

section Promise

variable {E : Type} (fn : List Call → Option E) (cancelAt : Option Nat)

/-- The function fails on some call of a sequence of calls. -/
def FailsOn (calls : List Call) : Prop := ∃ p, p <+: calls ∧ p ≠ [] ∧ fn p ≠ none

/-- The context is cancelled before the last of `n` keys. -/
def CancelledBefore (n : Nat) : Prop := ∃ c, cancelAt = some c ∧ c < n

/-- The touched keys by hashed key, each at most once; all of them, and without an
error, if nil is returned; and an error if the function fails or the context is
cancelled in time. -/
structure SortsByHash (hasher : Bytes → Bytes) (touched : List Bytes) (o : Outcome E) : Prop where
  ascending : (o.calls.map Call.hashedKey).Pairwise (· < ·)
  once : (o.calls.map Call.plainKey).Nodup
  mem : ∀ call ∈ o.calls, call.plainKey ∈ touched ∧ call.hashedKey = hasher call.plainKey
  complete : o.err = none → (∀ key ∈ touched, key ∈ o.calls.map Call.plainKey) ∧
    ¬FailsOn fn o.calls
  fails : FailsOn fn o.calls ∨ CancelledBefore cancelAt touched.dedup.length → o.err ≠ none

/-- The call for a key in direct mode. -/
def directCall (hasher : Bytes → Bytes) (key : Bytes) : Call := ⟨hasher key, key, none⟩

/-- The calls of a complete walk in direct mode. -/
def hashedCalls (hasher : Bytes → Bytes) (touched : List Bytes) : List Call :=
  (stableSort hasher touched.dedup).map (directCall hasher)

/-- The call for an item of the tree. -/
def treeCall (item : Bytes × KeyUpdate) : Call :=
  ⟨item.2.hashedKey, item.1, some item.2.update⟩

/-- The calls of a complete walk over a tree. -/
def treeCalls (t : Updates) : List Call := t.tree.pairs.map treeCall

/-- Direct mode: a context that is cancelled before the last key is cancelled before the
last look at it, unless the function fails anyway.  Update mode: the two orders of the keys
agree, the function does not fail and the context is not cancelled. -/
def HashSortHolds (t : Updates) (touched : List Bytes) : Prop :=
  match t.mode with
  | .direct => CancelledBefore cancelAt touched.dedup.length →
      CancelledBefore cancelAt (1024 * (touched.dedup.length / 1024)) ∨
        FailsOn fn (hashedCalls t.hasher touched)
  | .update => (∀ k ∈ touched, ∀ l ∈ touched, k < l → t.hasher k < t.hasher l) ∧
      ¬FailsOn fn (treeCalls t) ∧ ¬CancelledBefore cancelAt touched.dedup.length
  | .disabled => True

end Promise

/-! ### Direct mode -/

section Direct

variable {E : Type} {fn : List Call → Option E} {cancelAt : Option Nat}

variable {calls : List Call}

theorem FailsOn.mono {calls' : List Call} (h : FailsOn fn calls) (hle : calls <+: calls') :
    FailsOn fn calls' := by
  obtain ⟨p, hp, hne, hfail⟩ := h
  exact ⟨p, hp.trans hle, hne, hfail⟩

theorem not_failsOn_nil : ¬FailsOn fn [] := by
  rintro ⟨p, hp, hne, -⟩
  exact hne (prefix_nil.mp hp)

theorem not_failsOn_concat {call : Call} (h : ¬FailsOn fn calls)
    (hcall : fn (calls ++ [call]) = none) : ¬FailsOn fn (calls ++ [call]) := by
  rintro ⟨p, hp, hne, hfail⟩
  rcases prefix_concat_iff.mp hp with rfl | hp
  · exact hfail hcall
  · exact h ⟨p, hp, hne, hfail⟩

theorem failsOn_of_last {call : Call} {e : E} (hcall : fn (calls ++ [call]) = some e) :
    FailsOn fn (calls ++ [call]) :=
  ⟨_, prefix_rfl, by simp, by simp [hcall]⟩

theorem done_eq_true_iff {n : Nat} : done cancelAt n = true ↔ CancelledBefore cancelAt (n + 1) := by
  cases cancelAt with
  | none => simp [done, CancelledBefore]
  | some c => simp [done, CancelledBefore]

/-- The call for a pair that the collector hands out. -/
def pairCall (pair : Pair) : Call := ⟨pair.1, pair.2.bytes, none⟩

theorem loadCall_pair (made : List Call) (pair : Pair) :
    loadCall fn cancelAt made (some pair.1) pair.2 =
      if (made.length + 1) % 1024 = 0 ∧ done cancelAt made.length then
        .error ⟨made, some .stopped⟩
      else
        match fn (made ++ [pairCall pair]) with
        | none => .ok (made ++ [pairCall pair])
        | some e => .error ⟨made ++ [pairCall pair], some (.fn e)⟩ := rfl

/-- How a load over the planned calls ends. -/
def LoadEnds (fn : List Call → Option E) (cancelAt : Option Nat) (plan : List Call) :
    Except (Etl.LoadError (Outcome E)) (List Call) → Prop
  | .ok calls => calls = plan ∧ ¬FailsOn fn plan ∧
      ¬CancelledBefore cancelAt (1024 * (plan.length / 1024))
  | .error (.load o) => o.err ≠ none ∧ o.calls <+: plan ∧
      (CancelledBefore cancelAt (1024 * (plan.length / 1024)) ∨ FailsOn fn plan)
  | .error _ => False

theorem CancelledBefore.mono {n m : Nat} (h : CancelledBefore cancelAt n) (hle : n ≤ m) :
    CancelledBefore cancelAt m := by
  obtain ⟨c, hc, hlt⟩ := h
  exact ⟨c, hc, hlt.trans_le hle⟩

variable (fn cancelAt) in
theorem loadEnds_foldlM (pairs : List Pair) (made : List Call) (hmade : ¬FailsOn fn made)
    (hlooked : ¬CancelledBefore cancelAt (1024 * (made.length / 1024))) :
    LoadEnds fn cancelAt (made ++ pairs.map pairCall)
      (pairs.foldlM (Etl.deliver (loadCall fn cancelAt)) made) := by
  induction pairs generalizing made with
  | nil => exact ⟨(append_nil made).symm, by simpa using hmade, by simpa using hlooked⟩
  | cons pair pairs ih =>
    rw [map_cons, append_cons, foldlM_cons, Etl.deliver, loadCall_pair]
    split
    · rename_i hstop
      refine ⟨by simp, ?_, .inl ((done_eq_true_iff.mp hstop.2).mono ?_)⟩
      · rw [append_assoc]
        exact prefix_append _ _
      · simp only [length_append, length_singleton]
        omega
    · rename_i hgo
      cases hfn : fn (made ++ [pairCall pair]) with
      | some e =>
        have hcalls : made ++ [pairCall pair] <+:
            made ++ [pairCall pair] ++ pairs.map pairCall :=
          prefix_append _ _
        exact ⟨by simp, hcalls, .inr ((failsOn_of_last hfn).mono hcalls)⟩
      | none =>
        have hlook : ¬CancelledBefore cancelAt (1024 * ((made ++ [pairCall pair]).length / 1024)) := by
          rw [length_append, length_singleton]
          intro hcancelled
          by_cases hmod : (made.length + 1) % 1024 = 0
          · exact hgo ⟨hmod, done_eq_true_iff.mpr (hcancelled.mono (by omega))⟩
          · exact hlooked (hcancelled.mono (by omega))
        exact ih _ (not_failsOn_concat hmade hfn) hlook

/-- What the collector is given for a key. -/
def collectedPair (hasher : Bytes → Bytes) (key : Bytes) : Pair := (hasher key, some key)

/-- In direct mode the collector has been given every touched key once. -/
structure Keeps (hasher : Bytes → Bytes) (optimalSize : Int) (touched : List Bytes)
    (t : Updates) : Prop where
  mode : t.mode = .direct
  hasher_eq : t.hasher = hasher
  nodup : t.keys.Nodup
  mem : ∀ key, key ∈ t.keys ↔ key ∈ touched
  etl : t.etl = Etl.collectAll .sortableSlice optimalSize
    (t.keys.reverse.map (collectedPair hasher))

theorem Keeps.touch {hasher : Bytes → Bytes} {optimalSize : Int} {touched : List Bytes}
    {t : Updates} (h : Keeps hasher optimalSize touched t) (key val : Bytes)
    (fn : Update → Bytes → Option Update) :
    ∃ t', t.touchPlainKey key val fn = some t' ∧ Keeps hasher optimalSize (touched ++ [key]) t' := by
  rw [Updates.touchPlainKey, h.mode]
  by_cases hkey : key ∈ t.keys
  · refine ⟨t, if_pos hkey, h.mode, h.hasher_eq, h.nodup, fun l => ?_, h.etl⟩
    rw [h.mem, mem_append, mem_singleton]
    refine ⟨Or.inl, fun hl => hl.elim id ?_⟩
    rintro rfl
    exact (h.mem l).mp hkey
  · refine ⟨_, if_neg hkey, rfl, h.hasher_eq, nodup_cons.mpr ⟨hkey, h.nodup⟩, fun l => ?_, ?_⟩
    · simp [h.mem, or_comm]
    · simp only [h.etl, h.hasher_eq, reverse_cons, map_append, map_cons, map_nil,
        collectedPair, Etl.collectAll, foldl_append, foldl_cons, foldl_nil]

theorem Keeps.touchAll {hasher : Bytes → Bytes} {optimalSize : Int} {touched : List Bytes}
    {t : Updates} (h : Keeps hasher optimalSize touched t) (touches : List Touch) :
    ∃ t', t.touchAll touches = some t' ∧
      Keeps hasher optimalSize (touched ++ touches.map Touch.key) t' := by
  induction touches generalizing touched t with
  | nil => exact ⟨t, rfl, by simpa using h⟩
  | cons x touches ih =>
    obtain ⟨next, hnext, hkeeps⟩ := h.touch x.key x.val x.kind.touch
    obtain ⟨t', ht', hdone⟩ := ih hkeeps
    refine ⟨t', ?_, by simpa using hdone⟩
    rw [Updates.touchAll, foldlM_cons, hnext]
    exact ht'

end Direct

/-! ### The planned calls -/

/-- The calls that a walk plans: all touched keys, in some order. -/
structure Plans (hasher : Bytes → Bytes) (touched : List Bytes) (plan : List Call) : Prop where
  once : (plan.map Call.plainKey).Nodup
  mem : ∀ key, key ∈ plan.map Call.plainKey ↔ key ∈ touched
  hashedKey : ∀ call ∈ plan, call.hashedKey = hasher call.plainKey

namespace Plans

variable {E : Type} {fn : List Call → Option E} {cancelAt : Option Nat}
variable {hasher : Bytes → Bytes} {touched : List Bytes} {plan : List Call}

theorem length_eq (h : Plans hasher touched plan) : plan.length = touched.dedup.length := by
  rw [← length_map (f := Call.plainKey)]
  exact ((perm_ext_iff_of_nodup h.once (nodup_dedup _)).mpr fun key => by
    rw [h.mem, mem_dedup]).length_eq

theorem eq_of_complete (h : Plans hasher touched plan) {calls : List Call} (hcalls : calls <+: plan)
    (hall : ∀ key ∈ touched, key ∈ calls.map Call.plainKey) : calls = plan := by
  apply hcalls.eq_of_length_le
  calc plan.length = touched.dedup.length := h.length_eq
    _ ≤ (calls.map Call.plainKey).length :=
        ((nodup_dedup touched).subperm fun key hkey =>
          hall key (mem_dedup.mp hkey)).length_le
    _ = calls.length := length_map _

/-- Calls in the planned order keep the promise if they end as it says. -/
theorem sortsByHash (h : Plans hasher touched plan)
    (hascending : (plan.map Call.hashedKey).Pairwise (· < ·)) {o : Outcome E}
    (hcalls : o.calls <+: plan)
    (hcomplete : o.err = none → o.calls = plan ∧ ¬FailsOn fn plan)
    (hcancelled : CancelledBefore cancelAt touched.dedup.length → o.err ≠ none) :
    SortsByHash fn cancelAt hasher touched o where
  ascending := hascending.sublist (hcalls.sublist.map _)
  once := h.once.sublist (hcalls.sublist.map _)
  mem := by
    intro call hcall
    have hmem := hcalls.subset hcall
    exact ⟨(h.mem _).mp (mem_map_of_mem hmem), h.hashedKey call hmem⟩
  complete := by
    intro hnone
    obtain ⟨hall, hfails⟩ := hcomplete hnone
    rw [hall]
    exact ⟨fun key hkey => (h.mem key).mpr hkey, hfails⟩
  fails := by
    rintro (hfails | hbefore)
    · intro hnone
      obtain ⟨hall, hnot⟩ := hcomplete hnone
      exact hnot (hall ▸ hfails)
    · exact hcancelled hbefore

end Plans

section Sorted

variable {hasher : Bytes → Bytes} {touched : List Bytes}

theorem plans_hashedCalls (hasher : Bytes → Bytes) (touched : List Bytes) :
    Plans hasher touched (hashedCalls hasher touched) := by
  have hperm := stableSort_perm hasher touched.dedup
  have hkeys : (hashedCalls hasher touched).map Call.plainKey =
      stableSort hasher touched.dedup := by
    simp [hashedCalls, directCall, Function.comp_def]
  refine ⟨?_, fun key => ?_, ?_⟩
  · rw [hkeys, hperm.nodup_iff]
    exact nodup_dedup _
  · rw [hkeys, hperm.mem_iff, mem_dedup]
  · intro call hcall
    obtain ⟨key, -, rfl⟩ := mem_map.mp hcall
    rfl

/-- Distinct hashed keys stand in strictly ascending order. -/
theorem ascending_hashedCalls
    (hdistinct : ∀ k ∈ touched, ∀ l ∈ touched, hasher k = hasher l → k = l) :
    ((hashedCalls hasher touched).map Call.hashedKey).Pairwise (· < ·) := by
  have hperm := stableSort_perm hasher touched.dedup
  have hnodup : (stableSort hasher touched.dedup).Nodup :=
    hperm.nodup_iff.mpr (nodup_dedup _)
  rw [hashedCalls, map_map, pairwise_map]
  refine ((stableSorted_stableSort hasher touched.dedup).sorted.and hnodup).imp_of_mem ?_
  intro k l hk hl h
  rw [hperm.mem_iff, mem_dedup] at hk hl
  exact lt_of_le_of_ne h.1 fun heq => h.2 (hdistinct k hk l hl heq)

/-- The sorted pairs of the collector are the calls by hashed key. -/
theorem map_pairCall_stableSort {keys : List Bytes} (hnodup : keys.Nodup)
    (hmem : ∀ key, key ∈ keys ↔ key ∈ touched)
    (hdistinct : ∀ k ∈ touched, ∀ l ∈ touched, hasher k = hasher l → k = l) :
    (stableSort Prod.fst (keys.map (collectedPair hasher))).map pairCall =
      hashedCalls hasher touched := by
  have hsame : stableSort hasher keys = stableSort hasher touched.dedup := by
    have hkeys : keys.Perm touched.dedup :=
      (perm_ext_iff_of_nodup hnodup (nodup_dedup _)).mpr fun key => by
        rw [hmem, mem_dedup]
    refine List.Perm.eq_of_pairwise ?_ (stableSorted_stableSort hasher keys).sorted
      (stableSorted_stableSort hasher touched.dedup).sorted
      (((stableSort_perm _ _).trans hkeys).trans (stableSort_perm _ _).symm)
    intro k l hk hl hkl hlk
    rw [(stableSort_perm _ _).mem_iff] at hk hl
    exact hdistinct k ((hmem k).mp hk) l (mem_dedup.mp hl) (le_antisymm hkl hlk)
  rw [hashedCalls, ← hsame, stableSort, ← map_insertionSort (r := fun k l => hasher k ≤ hasher l),
    map_map]
  · rfl
  · intro k _ l _
    exact Iff.rfl

end Sorted

section Modes

variable {E : Type} (fn : List Call → Option E) (cancelAt : Option Nat)
variable {hasher : Bytes → Bytes} {optimalSize : Int} {touched : List Bytes} {t : Updates}

/-- The keys and hashed keys have lengths that slices may have. -/
def FitsKeys (hasher : Bytes → Bytes) (touched : List Bytes) : Prop :=
  ∀ key ∈ touched, key.length < 2 ^ 63 ∧ (hasher key).length < 2 ^ 63

theorem Keeps.hashSort_iff (h : Keeps hasher optimalSize touched t)
    (hdistinct : ∀ k ∈ touched, ∀ l ∈ touched, hasher k = hasher l → k = l)
    (hfits : FitsKeys hasher touched) :
    ∃ o t', t.hashSort fn cancelAt = some (o, t') ∧
      (SortsByHash fn cancelAt hasher touched o ↔ HashSortHolds fn cancelAt t touched) := by
  have hplans := plans_hashedCalls hasher touched
  have hascending := ascending_hashedCalls hdistinct
  have hmemory : Etl.FitsMemory .sortableSlice (t.keys.reverse.map (collectedPair hasher)) := by
    intro pair hpair
    obtain ⟨key, hkey, rfl⟩ := mem_map.mp hpair
    obtain ⟨hlength, hhashed⟩ := hfits key ((h.mem key).mp (mem_reverse.mp hkey))
    exact ⟨hhashed, hlength⟩
  obtain ⟨items, hgathers, hload⟩ :=
    Etl.load_collectAll (loadCall fn cancelAt) .sortableSlice optimalSize hmemory
  have hplan : items.map pairCall = hashedCalls hasher touched := by
    rw [StableSorted.eq_stableSort hgathers]
    refine map_pairCall_stableSort (nodup_reverse.mpr h.nodup) (fun key => ?_) hdistinct
    rw [mem_reverse, h.mem]
  have hends := loadEnds_foldlM fn cancelAt items [] not_failsOn_nil (by simp [CancelledBefore])
  rw [nil_append, hplan, ← hload, ← h.etl] at hends
  simp only [Updates.hashSort, HashSortHolds, h.mode, h.hasher_eq]
  rw [← hplans.length_eq]
  revert hends
  cases t.etl.load (loadCall fn cancelAt) [] with
  | ok calls =>
    rintro ⟨rfl, hfails, hlooked⟩
    refine ⟨_, _, rfl, fun hsorts hbefore => ?_, fun hholds => ?_⟩
    · rw [hplans.length_eq] at hbefore
      exact absurd rfl (hsorts.fails (.inr hbefore))
    · refine hplans.sortsByHash hascending prefix_rfl (fun _ => ⟨rfl, hfails⟩) ?_
      intro hbefore
      rw [← hplans.length_eq] at hbefore
      rcases hholds hbefore with h | h
      · exact absurd h hlooked
      · exact absurd h hfails
  | error e =>
    cases e with
    | load o =>
      rintro ⟨herr, hcalls, hstopped⟩
      exact ⟨_, _, rfl, fun _ _ => hstopped,
        fun _ => hplans.sortsByHash hascending hcalls (fun hnone => absurd hnone herr)
          fun _ => herr⟩
    | panic => exact False.elim
    | read e => exact False.elim

theorem ascend_cons (item : Bytes × KeyUpdate) (rest : List (Bytes × KeyUpdate))
    (made : List Call) :
    ascend fn cancelAt (item :: rest) made =
      if done cancelAt made.length then made
      else
        match fn (made ++ [treeCall item]) with
        | none => ascend fn cancelAt rest (made ++ [treeCall item])
        | some _ => made ++ [treeCall item] := rfl

variable (items : List (Bytes × KeyUpdate))

theorem ascend_isPrefix (made : List Call) :
    ascend fn cancelAt items made <+: made ++ items.map treeCall := by
  induction items generalizing made with
  | nil => exact prefix_append _ _
  | cons item items ih =>
    rw [map_cons, append_cons, ascend_cons]
    split
    · rw [append_assoc]
      exact prefix_append _ _
    · split
      · exact ih _
      · exact prefix_append _ _

theorem ascend_eq (made : List Call)
    (hfails : ¬FailsOn fn (made ++ items.map treeCall))
    (hbefore : ¬CancelledBefore cancelAt (made ++ items.map treeCall).length) :
    ascend fn cancelAt items made = made ++ items.map treeCall := by
  induction items generalizing made with
  | nil => exact (append_nil made).symm
  | cons item items ih =>
    rw [map_cons, append_cons] at hfails hbefore ⊢
    have hgo : ¬done cancelAt made.length := by
      rw [done_eq_true_iff]
      exact fun h => hbefore (h.mono (by simp))
    rw [ascend_cons, if_neg hgo]
    split
    · exact ih _ hfails hbefore
    · rename_i hfn
      exact absurd ((failsOn_of_last hfn).mono (prefix_append _ _)) hfails

/-- In update mode the tree has every touched key with its hashed key. -/
structure Grows (hasher : Bytes → Bytes) (touched : List Bytes) (t : Updates) : Prop where
  mode : t.mode = .update
  hasher_eq : t.hasher = hasher
  mem : ∀ key, key ∈ t.tree.pairs.map Prod.fst ↔ key ∈ touched
  hashedKey : ∀ item ∈ t.tree.pairs, item.2.hashedKey = hasher item.1

section

variable (h : Grows hasher touched t)

include h

theorem Grows.setUpdate (key : Bytes) (u : Update) :
    Grows hasher (touched ++ [key]) (t.setUpdate key u) where
  mode := h.mode
  hasher_eq := h.hasher_eq
  mem := by
    intro l
    rw [mem_append, ← h.mem]
    simp only [Updates.setUpdate, mem_map, SortedPairs.mem_insert, mem_singleton]
    constructor
    · rintro ⟨item, rfl | ⟨hitem, -⟩, rfl⟩
      · exact .inr rfl
      · exact .inl ⟨item, hitem, rfl⟩
    · rintro (⟨item, hitem, rfl⟩ | rfl)
      · by_cases hkey : item.1 = key
        · exact ⟨_, .inl rfl, hkey.symm⟩
        · exact ⟨item, .inr ⟨hitem, hkey⟩, rfl⟩
      · exact ⟨_, .inl rfl, rfl⟩
  hashedKey := by
    intro item hitem
    rcases (SortedPairs.mem_insert _).mp hitem with rfl | ⟨hitem, -⟩
    · cases hget : t.tree.get key with
      | none => simp [h.hasher_eq]
      | some kept =>
        have hkept := h.hashedKey _ (t.tree.get_eq_some.mp hget)
        simpa [hget] using hkept
    · exact h.hashedKey item hitem

theorem Grows.touchAll {touches : List Touch}
    (hvalid : ∀ x ∈ touches, x.Valid) :
    ∃ t', t.touchAll touches = some t' ∧ Grows hasher (touched ++ touches.map Touch.key) t' := by
  induction touches generalizing touched t with
  | nil => exact ⟨t, rfl, by simpa using h⟩
  | cons x touches ih =>
    rw [forall_mem_cons] at hvalid
    obtain ⟨u, hu⟩ := KeyKind.touch_isSome hvalid.1 (t.collected x.key)
    obtain ⟨t', ht', hdone⟩ := ih (h.setUpdate x.key u) hvalid.2
    exact ⟨t', by rwa [Updates.touchAll_cons h.mode, hu], by simpa using hdone⟩

theorem Grows.plans : Plans hasher touched (treeCalls t) := by
  have hkeys : (treeCalls t).map Call.plainKey = t.tree.pairs.map Prod.fst := by
    simp [treeCalls, treeCall, Function.comp_def]
  refine ⟨?_, fun key => ?_, ?_⟩
  · rw [hkeys]
    exact pairwise_map.mpr (t.tree.sorted.imp ne_of_lt)
  · rw [hkeys, h.mem]
  · intro call hcall
    obtain ⟨item, hitem, rfl⟩ := mem_map.mp hcall
    exact h.hashedKey item hitem

/-- The tree is walked by hashed key exactly if the two orders agree. -/
theorem Grows.ascending_iff :
    ((treeCalls t).map Call.hashedKey).Pairwise (· < ·) ↔
      ∀ k ∈ touched, ∀ l ∈ touched, k < l → hasher k < hasher l := by
  rw [treeCalls, map_map, pairwise_map]
  constructor
  · intro hpairwise k hk l hl hkl
    obtain ⟨a, ha, rfl⟩ := mem_map.mp ((h.mem k).mpr hk)
    obtain ⟨b, hb, rfl⟩ := mem_map.mp ((h.mem l).mpr hl)
    rw [← h.hashedKey a ha, ← h.hashedKey b hb]
    exact t.tree.rel_of_lt hpairwise ha hb hkl
  · intro horder
    refine t.tree.sorted.imp_of_mem fun {a b} ha hb hlt => ?_
    have hkey {item : Bytes × KeyUpdate} (hitem : item ∈ t.tree.pairs) : item.1 ∈ touched :=
      (h.mem _).mp (mem_map_of_mem hitem)
    have hhashed := horder _ (hkey ha) _ (hkey hb) hlt
    rwa [← h.hashedKey a ha, ← h.hashedKey b hb] at hhashed

theorem Grows.hashSort_iff :
    ∃ o t', t.hashSort fn cancelAt = some (o, t') ∧
      (SortsByHash fn cancelAt hasher touched o ↔ HashSortHolds fn cancelAt t touched) := by
  have hplans := h.plans
  have hlength := hplans.length_eq
  simp only [Updates.hashSort, HashSortHolds, h.mode, h.hasher_eq]
  refine ⟨_, _, rfl, fun hsorts => ?_, ?_⟩
  · obtain ⟨hall, hfails⟩ := hsorts.complete rfl
    have hcalls := hplans.eq_of_complete (ascend_isPrefix fn cancelAt t.tree.pairs []) hall
    have hascending := hsorts.ascending
    rw [hcalls] at hascending hfails
    exact ⟨h.ascending_iff.mp hascending, hfails,
      fun hbefore => absurd rfl (hsorts.fails (.inr hbefore))⟩
  · rintro ⟨horder, hfails, hbefore⟩
    have hall : ascend fn cancelAt t.tree.pairs [] = treeCalls t :=
      ascend_eq fn cancelAt t.tree.pairs [] hfails (by rw [nil_append]; exact hlength ▸ hbefore)
    exact hplans.sortsByHash (h.ascending_iff.mpr horder) (by rw [hall])
      (fun _ => ⟨hall, hfails⟩) fun h => absurd h hbefore

end

end Modes

/-- Touches of any keys, then a walk over them in direct or in update mode: the walk keeps
its promise exactly under the condition for the mode. -/
theorem hashSort_sorts_iff {E : Type} (fn : List Call → Option E) (cancelAt : Option Nat)
    (mode : Mode) (hmode : mode ≠ .disabled) (hasher : Bytes → Bytes) (optimalSize : Int)
    (touches : List Touch) (hvalid : ∀ x ∈ touches, x.Valid)
    (hdistinct : ∀ k ∈ touches.map Touch.key, ∀ l ∈ touches.map Touch.key,
      hasher k = hasher l → k = l)
    (hfits : FitsKeys hasher (touches.map Touch.key)) :
    ∃ t o t', (Updates.new mode hasher optimalSize).touchAll touches = some t ∧
      t.hashSort fn cancelAt = some (o, t') ∧
      (SortsByHash fn cancelAt hasher (touches.map Touch.key) o ↔
        HashSortHolds fn cancelAt t (touches.map Touch.key)) := by
  cases mode with
  | disabled => exact absurd rfl hmode
  | direct =>
    have hnew : Keeps hasher optimalSize [] (.new .direct hasher optimalSize) :=
      ⟨rfl, rfl, .nil, fun _ => Iff.rfl, rfl⟩
    obtain ⟨t, ht, hkeeps⟩ := hnew.touchAll touches
    rw [nil_append] at hkeeps
    obtain ⟨o, t', hsort, hiff⟩ := hkeeps.hashSort_iff fn cancelAt hdistinct hfits
    exact ⟨t, o, t', ht, hsort, hiff⟩
  | update =>
    have hnew : Grows hasher [] (.new .update hasher optimalSize) :=
      ⟨rfl, rfl, fun _ => Iff.rfl, fun _ h => (nomatch h)⟩
    obtain ⟨t, ht, hgrows⟩ := hnew.touchAll hvalid
    rw [nil_append] at hgrows
    obtain ⟨o, t', hsort, hiff⟩ := hgrows.hashSort_iff fn cancelAt
    exact ⟨t, o, t', ht, hsort, hiff⟩

/-- Two slots that are touched in the order of their keys. -/
def twoSlots : List Touch := [⟨[1], .storage, [7]⟩, ⟨[2], .storage, [8]⟩]

/-- A hasher that turns the order of the keys around. -/
def turned (key : Bytes) : Bytes := key.map (255 - ·)

/-- In update mode the walk goes by plain key, and an error of the function ends it with
a nil error and a key that is never reached. -/
theorem hashSort_update_unsorted :
    (((Updates.new .update turned 0).touchAll twoSlots).bind fun t =>
      (t.hashSort (fun _ => (none : Option Unit)) none).map fun r =>
        r.1.calls.map Call.hashedKey) = some [[254], [253]] ∧
    (((Updates.new .update id 0).touchAll twoSlots).bind fun t =>
      (t.hashSort (fun _ => some ()) none).map fun r =>
        (r.1.calls.map Call.plainKey, r.1.err.isNone)) = some ([[1]], true) := by
  decide

/-- In direct mode the same keys are walked by hashed key. -/
theorem hashSort_direct_sorted :
    ∃ t o t', (Updates.new .direct turned 0).touchAll twoSlots = some t ∧
      t.hashSort (fun _ => (none : Option Unit)) none = some (o, t') ∧
      SortsByHash (fun _ => (none : Option Unit)) none turned (twoSlots.map Touch.key) o := by
  have hvalid : ∀ x ∈ twoSlots, x.Valid := by
    simp only [twoSlots, forall_mem_cons, not_mem_nil, false_imp_iff, implies_true, and_true]
    exact ⟨fun h => (nomatch h), fun h => (nomatch h)⟩
  have hfits : FitsKeys turned (twoSlots.map Touch.key) := by
    intro key hkey
    simp only [twoSlots, map_cons, map_nil, mem_cons, not_mem_nil, or_false] at hkey
    rcases hkey with rfl | rfl <;> simp [turned]
  obtain ⟨t, o, t', ht, hsort, hiff⟩ := hashSort_sorts_iff (fun _ => (none : Option Unit)) none
    .direct (by decide) turned 0 twoSlots hvalid (by decide) hfits
  have hmode : t.mode = .direct := by
    cases ht
    rfl
  refine ⟨t, o, t', ht, hsort, hiff.mpr ?_⟩
  rw [HashSortHolds, hmode]
  rintro ⟨c, hc, -⟩
  cases hc

end Commitment

end Erigon
