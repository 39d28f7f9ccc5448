/-
Pruning of an inverted index (`InvertedIndexRoTx.prune`).  The keys table maps
transaction numbers to keys, the values table maps keys to transaction numbers.
The numbers are stored in eight bytes, most significant first, so the order of
the bytes is the order of the numbers.
-/
import Erigon.DupTable
import Erigon.EtlLoad
import Erigon.SimpleSequence

namespace Erigon

open List DupTable

abbrev KeysTable := DupTable Nat Bytes

abbrev ValuesTable := DupTable Bytes Nat

structure PruneStat where
  minTxNum : Nat
  maxTxNum : Nat
  pruneCountTx : Nat
  pruneCountValues : Nat
  deriving DecidableEq

/-- What the load function of the collector changes: the values table, what `fn`
changes, and the number of its calls. -/
structure PruneLoad (F : Type) where
  values : ValuesTable
  fn : F
  pruneCountValues : Nat

structure PruneResult (F : Type) where
  keys : KeysTable
  values : ValuesTable
  fn : F
  stat : PruneStat

/-- The loop over the keys of one transaction; `fuel` bounds their number. -/
def collectDups (keys : KeysTable) : Nat → Nat × Bytes → List Pair
  | 0, _ => []
  | fuel + 1, cur => (cur.2, some (beBytes 8 cur.1)) ::
      match keys.nextDup cur with
      | none => []
      | some next => collectDups keys fuel next

/-- The loop that collects: the statistics and the pairs that are collected. -/
def scanTxNums (keys : KeysTable) (txTo : Nat) :
    Nat → Option (Nat × Bytes) → Nat → PruneStat → List Pair → PruneStat × List Pair
  | 0, _, _, stat, collected => (stat, collected)
  | _ + 1, none, _, stat, collected => (stat, collected)
  | fuel + 1, some (txNum, v), limit, stat, collected =>
    if txTo ≤ txNum ∨ limit = 0 then (stat, collected)
    else
      scanTxNums keys txTo fuel (keys.nextNoDup txNum) (limit - 1)
        { stat with
          minTxNum := min stat.minTxNum txNum
          maxTxNum := max stat.maxTxNum txNum }
        (collected ++ collectDups keys keys.entries.length (txNum, v))

/-- The load function: a call of `fn`, then the deletion. -/
def pruneValue {F E : Type} (fn : F → Bytes → Bytes → Except E F) (st : PruneLoad F)
    (key txnm : GoSlice) : Except E (PruneLoad F) :=
  (fn st.fn key.bytes txnm.bytes).map fun f =>
    ⟨st.values.deleteExact (key.bytes, beNat txnm.bytes), f, st.pruneCountValues + 1⟩

/-- The loop that deletes from the keys table, with the number of deletions. -/
def pruneTxNums (maxTxNum : Nat) :
    Nat → KeysTable → Option (Nat × Bytes) → Nat → KeysTable × Nat
  | 0, keys, _, count => (keys, count)
  | _ + 1, keys, none, count => (keys, count)
  | fuel + 1, keys, some (txNum, _), count =>
    if maxTxNum < txNum then (keys, count)
    else
      let rest := keys.delete txNum
      pruneTxNums maxTxNum fuel rest (rest.nextNoDup txNum) (count + 1)

variable (keys : KeysTable) (values : ValuesTable) (txFrom : Nat)

/-- `InvertedIndexRoTx.prune`; `fn` is called with the bytes of a key and of a
transaction number.  An error of the load is returned, whatever was deleted. -/
def prune {F E : Type} (txTo limit : Nat)
    (fn : F → Bytes → Bytes → Except E F) (f : F) (optimalSize : Int) :
    Except (Etl.LoadError E) (PruneResult F) :=
  let limit := if limit = 0 then maxUint64 else limit
  let scan := scanTxNums keys txTo (keys.entries.length + 1) (keys.seek txFrom) limit
    ⟨maxUint64, 0, 0, 0⟩ []
  let stat := scan.1
  ((Etl.collectAll .sortableSlice optimalSize scan.2).load (pruneValue fn)
      ⟨values, f, 0⟩).map fun st =>
    let rest :=
      if stat.minTxNum ≠ maxUint64 then
        pruneTxNums stat.maxTxNum (keys.entries.length + 1) keys (keys.seek stat.minTxNum) 0
      else (keys, 0)
    ⟨rest.1, st.values, st.fn,
      { stat with pruneCountTx := rest.2, pruneCountValues := st.pruneCountValues }⟩

/-! ### Specification -/

/-- Every entry of one table is an entry of the other. -/
def Mirrored : Prop :=
  ∀ txNum key, (txNum, key) ∈ keys.entries ↔ (key, txNum) ∈ values.entries

/-- The transaction numbers that are pruned: the smallest ones of the range. -/
def prunedTxNums (txTo limit : Nat) : List Nat :=
  let prunable := keys.keysIn fun txNum => txFrom ≤ txNum ∧ txNum < txTo
  if limit = 0 then prunable else prunable.take limit

/-! ### The scan -/

variable {fuel txTo : Nat}

theorem collectDups_eq {cur : Nat × Bytes}
    (hfuel : (keys.dupsAbove cur).length < fuel) :
    collectDups keys fuel cur =
      (cur.2 :: keys.dupsAbove cur).map fun v => (v, some (beBytes 8 cur.1)) := by
  induction fuel generalizing cur with
  | zero => omega
  | succ fuel ih =>
    rw [collectDups]
    cases hnext : keys.nextDup cur with
    | none => rw [dupsAbove_eq_nil hnext]; rfl
    | some next =>
      rw [dupsAbove_eq_cons hnext, length_cons] at hfuel
      rw [dupsAbove_eq_cons hnext, map_cons]
      dsimp only
      rw [ih (by omega), (nextDup_spec hnext).1]

theorem dupsAbove_length_lt {keys : KeysTable} {cur : Nat × Bytes}
    (hmem : cur ∈ keys.entries) : (keys.dupsAbove cur).length < keys.entries.length := by
  rw [dupsAbove, length_map]
  exact length_filter_lt_length_iff_exists.mpr ⟨cur, hmem, by simp⟩

/-- The pairs of a transaction number. -/
def pairsOf (txNum : Nat) : List Pair :=
  (keys.dups txNum).map fun v => (v, some (beBytes 8 txNum))

variable {p : Nat → Prop}

theorem scanTxNums_eq (txTo : Nat) [DecidablePred p]
    (hup : ∀ {a b}, p a → a < b → p b) (limit : Nat) (stat : PruneStat) (collected : List Pair)
    (hfuel : (keys.keysIn p).length < fuel) :
    scanTxNums keys txTo fuel (keys.entries.find? fun e => decide (p e.1)) limit stat
        collected =
      (let visited := ((keys.keysIn p).takeWhile fun n => decide (n < txTo)).take limit
       ({ stat with
          minTxNum := visited.foldl min stat.minTxNum
          maxTxNum := visited.foldl max stat.maxTxNum },
        collected ++ visited.flatMap (pairsOf keys))) := by
  induction fuel generalizing p limit stat collected with
  | zero => omega
  | succ fuel ih =>
    cases hfind : keys.entries.find? fun e => decide (p e.1) with
    | none =>
      rw [keysIn_eq_nil hfind]
      simp [scanTxNums]
    | some e =>
      obtain ⟨txNum, v⟩ := e
      have hkeys := keysIn_eq_cons hup hfind
      rw [hkeys, length_cons] at hfuel
      rw [scanTxNums, hkeys]
      dsimp only at hfuel hkeys ⊢
      by_cases hstop : txTo ≤ txNum ∨ limit = 0
      · rw [if_pos hstop]
        rcases hstop with hto | hlimit
        · simp [Nat.not_lt.mpr hto]
        · simp [hlimit]
      · rw [not_or, Nat.not_le] at hstop
        obtain ⟨rest, rfl⟩ := Nat.exists_eq_succ_of_ne_zero hstop.2
        have hdups : collectDups keys keys.entries.length (txNum, v) =
            pairsOf keys txNum := by
          rw [collectDups_eq keys (dupsAbove_length_lt (mem_of_find?_eq_some hfind)), pairsOf,
            dups_eq_cons hfind]
        rw [if_neg (by omega), nextNoDup, hdups,
          ih (fun hlt hab => Nat.lt_trans hlt hab) _ _ _ (by omega)]
        simp [hstop.1, append_assoc]

/-- A scan from `txFrom` visits the numbers that are pruned. -/
theorem visited_eq (limit : Nat) (hto : txTo < 2 ^ 64) :
    ((keys.keysIn fun n => txFrom ≤ n).takeWhile fun n => decide (n < txTo)).take
      (if limit = 0 then maxUint64 else limit) = prunedTxNums keys txFrom txTo limit := by
  have hrange : (keys.keysIn fun n => txFrom ≤ n).takeWhile (fun n => decide (n < txTo)) =
      keys.keysIn fun n => txFrom ≤ n ∧ n < txTo := by
    have hsorted := keysIn_sorted keys fun n => txFrom ≤ n
    rw [takeWhile_lt_eq_filter hsorted]
    refine eq_keysIn (hsorted.filter _) fun k => ?_
    rw [mem_filter, mem_keysIn, decide_eq_true_iff, and_assoc]
  have hlength : (keys.keysIn fun n => txFrom ≤ n ∧ n < txTo).length ≤ maxUint64 := by
    have hcard : (keys.keysIn fun n => txFrom ≤ n ∧ n < txTo).length ≤ txTo := by
      rw [DupTable.keysIn, Finset.length_sort]
      calc _ ≤ (Finset.range txTo).card := Finset.card_le_card fun n hn =>
              Finset.mem_range.mpr (Finset.mem_filter.mp hn).2.2
        _ = txTo := Finset.card_range txTo
    unfold maxUint64
    omega
  rw [hrange, prunedTxNums]
  split
  · exact take_of_length_le hlength
  · rfl

/-! ### The deletion of transaction numbers -/

/-- A walk that stops at once. -/
theorem keep_none_pruned {keys : KeysTable} [DecidablePred p] {maxTxNum : Nat}
    (hnone : ∀ e ∈ keys.entries, ¬(p e.1 ∧ e.1 ≤ maxTxNum)) (count : Nat) :
    (keys.keep fun e => decide ¬(p e.1 ∧ e.1 ≤ maxTxNum),
      count + (keys.keysIn fun n => p n ∧ n ≤ maxTxNum).length) = (keys, count) := by
  have hkeys : (keys.keysIn fun n => p n ∧ n ≤ maxTxNum) = [] := by
    refine (eq_keysIn .nil fun k => ?_).symm
    simp only [not_mem_nil, false_iff]
    rintro ⟨⟨v, hv⟩, hk⟩
    exact hnone _ hv hk
  rw [hkeys, keep_true keys fun e he => decide_eq_true (hnone e he)]
  rfl

theorem pruneTxNums_eq (maxTxNum : Nat) {keys : KeysTable} [DecidablePred p]
    (hup : ∀ {a b}, p a → a < b → p b) (count : Nat) (hfuel : (keys.keysIn p).length < fuel) :
    pruneTxNums maxTxNum fuel keys (keys.entries.find? fun e => decide (p e.1)) count =
      (keys.keep fun e => decide ¬(p e.1 ∧ e.1 ≤ maxTxNum),
        count + (keys.keysIn fun n => p n ∧ n ≤ maxTxNum).length) := by
  induction fuel generalizing keys p count with
  | zero => omega
  | succ fuel ih =>
    cases hfind : keys.entries.find? fun e => decide (p e.1) with
    | none =>
      have hnone : ∀ e ∈ keys.entries, ¬p e.1 := by
        simpa using find?_eq_none.mp hfind
      rw [pruneTxNums, keep_none_pruned fun e he h => hnone e he h.1]
    | some e =>
      obtain ⟨txNum, v⟩ := e
      have hmem := mem_of_find?_eq_some hfind
      have hiff : ∀ f ∈ keys.entries, p f.1 ↔ txNum ≤ f.1 := fun f hf =>
        find?_iff hup hfind hf
      rw [keysIn_eq_cons hup hfind, length_cons] at hfuel
      rw [pruneTxNums]
      split
      · rename_i hlast
        rw [keep_none_pruned]
        intro f hf h
        have := (hiff f hf).mp h.1
        omega
      · rename_i hle
        dsimp only at hfuel ⊢
        -- Deleting the number leaves the entries behind it as they are.
        have hrest : ((keys.delete txNum).keysIn fun n => txNum < n) =
            keys.keysIn fun n => txNum < n := by
          refine eq_keysIn (keysIn_sorted _ _) fun k => ?_
          simp only [mem_keysIn, mem_delete]
          constructor
          · rintro ⟨⟨w, hw, -⟩, hlt⟩
            exact ⟨⟨w, hw⟩, hlt⟩
          · rintro ⟨⟨w, hw⟩, hlt⟩
            exact ⟨⟨w, hw, hlt.ne'⟩, hlt⟩
        have hcons : (keys.keysIn fun n => p n ∧ n ≤ maxTxNum) =
            txNum :: (keys.delete txNum).keysIn fun n => txNum < n ∧ n ≤ maxTxNum := by
          refine (eq_keysIn (.cons (fun k hk => (mem_keysIn.mp hk).2.1)
            (keysIn_sorted _ _)) fun k => ?_).symm
          simp only [mem_cons, mem_keysIn, mem_delete]
          constructor
          · rintro (rfl | ⟨⟨w, hw, -⟩, hlt, hmax⟩)
            · exact ⟨⟨v, hmem⟩, (hiff _ hmem).mpr le_rfl, Nat.le_of_not_lt hle⟩
            · exact ⟨⟨w, hw⟩, (hiff _ hw).mpr hlt.le, hmax⟩
          · rintro ⟨⟨w, hw⟩, hp, hmax⟩
            rcases Nat.eq_or_lt_of_le ((hiff _ hw).mp hp) with heq | hlt
            · exact .inl heq.symm
            · exact .inr ⟨⟨w, hw, hlt.ne'⟩, hlt, hmax⟩
        rw [nextNoDup, ih (fun hlt hab => Nat.lt_trans hlt hab) _
          (by rw [hrest]; omega), hcons, length_cons]
        refine Prod.ext ?_ (by dsimp only; omega)
        rw [DupTable.delete, keep_keep]
        refine keep_congr _ fun f hf => ?_
        rw [← Bool.decide_and, decide_eq_decide, hiff f hf]
        omega

/-! ### The deletion of values -/

/-- One call of `fn`. -/
def callFn {F E : Type} (fn : F → Bytes → Bytes → Except E F) (f : F) (call : Bytes × Nat) :
    Except (Etl.LoadError E) F :=
  (fn f call.1 (beBytes 8 call.2)).mapError .load

/-- The load deletes what `fn` was called for. -/
theorem foldlM_pruneValue {F E : Type} (fn : F → Bytes → Bytes → Except E F)
    {calls : List (Bytes × Nat)} (hfits : ∀ call ∈ calls, call.2 < 2 ^ 64) (st : PruneLoad F) :
    (calls.map fun call => ((call.1, some (beBytes 8 call.2)) : Pair)).foldlM
        (Etl.deliver (pruneValue fn)) st =
      (calls.foldlM (callFn fn) st.fn).map fun f =>
        ⟨st.values.keep fun e => decide (e ∉ calls), f, st.pruneCountValues + calls.length⟩ := by
  induction calls generalizing st with
  | nil =>
    obtain ⟨values, f, count⟩ := st
    simp [keep_true, Except.map, pure, Except.pure]
  | cons call calls ih =>
    rw [forall_mem_cons] at hfits
    have hnat : beNat (beBytes 8 call.2) = call.2 := by
      rw [beNat_beBytes]
      exact Nat.mod_eq_of_lt hfits.1
    rw [map_cons, foldlM_cons, foldlM_cons, Etl.deliver, pruneValue, callFn]
    simp only [GoSlice.bytes_some, hnat]
    cases fn st.fn call.1 (beBytes 8 call.2) with
    | error e => rfl
    | ok f =>
      refine (ih hfits.2 _).trans ?_
      have hkeep : (st.values.deleteExact call).keep (fun e => decide (e ∉ calls)) =
          st.values.keep fun e => decide (e ∉ call :: calls) := by
        rw [DupTable.deleteExact, keep_keep]
        refine keep_congr _ fun e _ => ?_
        rw [Bool.eq_iff_iff]
        simp [and_comm]
      simp only [Prod.eta, hkeep, length_cons, Nat.add_assoc, Nat.add_comm 1]
      rfl

/-! ### Pruning -/

/-- The calls of `fn`: the entries of the pruned numbers, sorted by key. -/
def pruneCalls (pruned : List Nat) : List (Bytes × Nat) :=
  stableSort Prod.fst (pruned.flatMap fun n => (keys.dups n).map fun v => (v, n))

variable {pruned l : List Nat}

theorem mem_pruneCalls {keys : KeysTable} {key : Bytes} {n : Nat} :
    (key, n) ∈ pruneCalls keys pruned ↔ n ∈ pruned ∧ (n, key) ∈ keys.entries := by
  rw [pruneCalls, (stableSort_perm _ _).mem_iff, mem_flatMap]
  constructor
  · rintro ⟨m, hm, hmem⟩
    obtain ⟨v, hv, heq⟩ := mem_map.mp hmem
    cases heq
    exact ⟨hm, mem_dups.mp hv⟩
  · rintro ⟨hn, hmem⟩
    exact ⟨n, hn, mem_map.mpr ⟨key, mem_dups.mpr hmem, rfl⟩⟩

theorem nodup_pruneCalls (hpruned : pruned.Nodup) :
    (pruneCalls keys pruned).Nodup := by
  rw [pruneCalls, (stableSort_perm _ _).nodup_iff, nodup_flatMap]
  constructor
  · intro n _
    exact List.Nodup.map (fun a b hab => congrArg Prod.fst hab)
      ((keys.dups_sorted n).imp fun hlt => ne_of_lt hlt)
  · refine List.Nodup.pairwise_of_forall_ne hpruned fun m _ n _ hne => ?_
    intro call hm hn
    obtain ⟨v, -, rfl⟩ := mem_map.mp hm
    obtain ⟨w, -, heq⟩ := mem_map.mp hn
    exact hne (congrArg Prod.snd heq).symm

theorem foldl_min_eq (hl : l.Pairwise (· < ·)) {b : Nat} (hb : ∀ n ∈ l, n ≤ b) :
    l.foldl min b = l.head?.getD b := by
  have hkeep : ∀ (l : List Nat) (a : Nat), (∀ n ∈ l, a < n) → l.foldl min a = a := by
    intro l a ha
    induction l with
    | nil => rfl
    | cons n l ih =>
      rw [forall_mem_cons] at ha
      rw [foldl_cons, Nat.min_eq_left ha.1.le, ih ha.2]
  cases l with
  | nil => rfl
  | cons a l =>
    rw [foldl_cons, Nat.min_eq_right (hb a mem_cons_self), hkeep l a (pairwise_cons.mp hl).1]
    rfl

theorem foldl_max_eq (hl : l.Pairwise (· < ·)) : l.foldl max 0 = l.getLast?.getD 0 := by
  induction l using List.reverseRecOn with
  | nil => rfl
  | append_singleton l a ih =>
    rw [pairwise_append] at hl
    have hle : l.getLast?.getD 0 ≤ a := by
      cases hlast : l.getLast? with
      | none => exact Nat.zero_le a
      | some b =>
        exact (hl.2.2 b (mem_of_getLast? hlast) a (mem_singleton_self a)).le
    rw [foldl_concat, ih hl.1, Nat.max_eq_right hle, getLast?_concat]
    rfl

section Pruned

variable {keys : KeysTable} {txFrom txTo limit : Nat}

theorem prunedTxNums_initial (keys : KeysTable) (txFrom txTo limit : Nat) :
    prunedTxNums keys txFrom txTo limit <+:
      keys.keysIn fun n => txFrom ≤ n ∧ n < txTo := by
  rw [prunedTxNums]
  split
  · exact prefix_rfl
  · exact take_prefix _ _

theorem prunedTxNums_sorted (keys : KeysTable) (txFrom txTo limit : Nat) :
    (prunedTxNums keys txFrom txTo limit).Pairwise (· < ·) :=
  (keysIn_sorted keys _).sublist (prunedTxNums_initial keys txFrom txTo limit).sublist

theorem lt_of_mem_prunedTxNums {n : Nat} (hn : n ∈ prunedTxNums keys txFrom txTo limit) :
    n < txTo :=
  (mem_keysIn.mp ((prunedTxNums_initial keys txFrom txTo limit).subset hn)).2.2

/-- The pruned numbers are those of the table between the first and the last. -/
theorem prunedTxNums_eq_keysIn {first last : Nat}
    (hfirst : (prunedTxNums keys txFrom txTo limit).head? = some first)
    (hlast : (prunedTxNums keys txFrom txTo limit).getLast? = some last) :
    prunedTxNums keys txFrom txTo limit = keys.keysIn fun n => first ≤ n ∧ n ≤ last := by
  obtain ⟨later, hlater⟩ := prunedTxNums_initial keys txFrom txTo limit
  have hsorted := prunedTxNums_sorted keys txFrom txTo limit
  have hall := keysIn_sorted keys fun n => txFrom ≤ n ∧ n < txTo
  rw [← hlater, pairwise_append] at hall
  have hmem : ∀ n, n ∈ prunedTxNums keys txFrom txTo limit ∨ n ∈ later ↔
      (∃ v, (n, v) ∈ keys.entries) ∧ txFrom ≤ n ∧ n < txTo := by
    intro n
    rw [← mem_append, hlater, mem_keysIn]
  have hlastmem := mem_of_getLast? hlast
  have hfirstmem := mem_of_head? hfirst
  refine eq_keysIn hsorted fun n => ?_
  constructor
  · intro hn
    obtain ⟨hv, -, -⟩ := (hmem n).mp (.inl hn)
    refine ⟨hv, ?_, ?_⟩
    · obtain ⟨rest, hrest⟩ := head?_eq_some_iff.mp hfirst
      rw [hrest] at hn hsorted
      exact le_of_mem_cons (hsorted.imp le_of_lt) hn
    · exact le_of_getLast? (hsorted.imp le_of_lt) hlast n hn
  · rintro ⟨hv, hge, hle⟩
    have hlow := ((hmem first).mp (.inl hfirstmem)).2.1
    have hhigh := lt_of_mem_prunedTxNums hlastmem
    rcases (hmem n).mpr ⟨hv, by omega, by omega⟩ with hn | hn
    · exact hn
    · have := hall.2.2 last hlastmem n hn
      omega

end Pruned

theorem mirrored_keep {keys : KeysTable} {values : ValuesTable} (hmirrored : Mirrored keys values)
    (pruned : List Nat) : Mirrored (keys.keep fun e => decide (e.1 ∉ pruned))
      (values.keep fun e => decide (e.2 ∉ pruned)) := by
  intro n key
  rw [mem_keep, mem_keep, hmirrored n key]

/-- The keys table after both passes. -/
theorem pruneTxNums_pruned (limit : Nat) (hto : txTo < 2 ^ 64) :
    (if (prunedTxNums keys txFrom txTo limit).head?.getD maxUint64 ≠ maxUint64 then
        pruneTxNums ((prunedTxNums keys txFrom txTo limit).getLast?.getD 0)
          (keys.entries.length + 1) keys
          (keys.seek ((prunedTxNums keys txFrom txTo limit).head?.getD maxUint64)) 0
      else (keys, 0)) =
      (keys.keep fun e => decide (e.1 ∉ prunedTxNums keys txFrom txTo limit),
        (prunedTxNums keys txFrom txTo limit).length) := by
  generalize hpruned : prunedTxNums keys txFrom txTo limit = pruned
  cases pruned with
  | nil =>
    rw [head?_nil, Option.getD_none, if_neg (not_not.mpr rfl), keep_true]
    · rfl
    · simp
  | cons first rest =>
    obtain ⟨last, hlast⟩ := Option.ne_none_iff_exists'.mp
      (mt getLast?_eq_none_iff.mp (cons_ne_nil first rest))
    have hfirst : first < txTo :=
      lt_of_mem_prunedTxNums (hpruned ▸ mem_cons_self)
    have hbetween : prunedTxNums keys txFrom txTo limit =
        keys.keysIn fun n => first ≤ n ∧ n ≤ last :=
      prunedTxNums_eq_keysIn (by rw [hpruned]; rfl) (by rw [hpruned]; exact hlast)
    rw [hpruned] at hbetween
    rw [head?_cons, Option.getD_some, hlast, Option.getD_some,
      if_pos (by unfold maxUint64; omega), DupTable.seek,
      pruneTxNums_eq last (fun hle hlt => hle.trans hlt.le) 0
        (Nat.lt_succ_of_le (keysIn_length_le keys _)), ← hbetween, Nat.zero_add]
    refine congrArg (·, _) (keep_congr keys fun e he => ?_)
    rw [decide_eq_decide, not_iff_not, hbetween, mem_keysIn]
    exact ⟨fun h => ⟨⟨e.2, he⟩, h⟩, fun h => h.2⟩

/-- Loading the collected pairs. -/
theorem load_pruneValue {F E : Type} {keys : KeysTable}
    (hkeys : ∀ e ∈ keys.entries, e.2.length < 2 ^ 63) (hpruned : ∀ n ∈ pruned, n < 2 ^ 64)
    (fn : F → Bytes → Bytes → Except E F) (values : ValuesTable) (f : F) (optimalSize : Int) :
    (Etl.collectAll .sortableSlice optimalSize (pruned.flatMap (pairsOf keys))).load
        (pruneValue fn) ⟨values, f, 0⟩ =
      ((pruneCalls keys pruned).foldlM (callFn fn) f).map fun f =>
        ⟨values.keep fun e => decide (e ∉ pruneCalls keys pruned), f,
          (pruneCalls keys pruned).length⟩ := by
  have hfits : Etl.FitsMemory .sortableSlice (pruned.flatMap (pairsOf keys)) := by
    intro pair hpair
    obtain ⟨n, -, hmem⟩ := mem_flatMap.mp hpair
    obtain ⟨v, hv, rfl⟩ := mem_map.mp hmem
    refine ⟨hkeys _ (mem_dups.mp hv), ?_⟩
    rw [GoSlice.bytes_some, beBytes_length]
    decide
  obtain ⟨items, hgathers, hload⟩ :=
    Etl.load_collectAll (pruneValue fn) .sortableSlice optimalSize hfits
  have hitems : items = (pruneCalls keys pruned).map
      fun call => ((call.1, some (beBytes 8 call.2)) : Pair) := by
    rw [StableSorted.eq_stableSort hgathers, pruneCalls, stableSort, stableSort,
      map_insertionSort (fun c d : Bytes × Nat => c.1 ≤ d.1)
        (fun p q : Pair => p.1 ≤ q.1) _ _ fun _ _ _ _ => Iff.rfl, map_flatMap]
    refine congrArg _ (flatMap_congr fun n _ => ?_)
    rw [pairsOf, map_map]
    rfl
  rw [hload, hitems, foldlM_pruneValue fn fun call hcall =>
    hpruned call.2 (mem_pruneCalls.mp hcall).1]
  simp only [Nat.zero_add]

/-- Pruning two tables that mirror each other: `fn` is called once for every
entry of the smallest numbers of the range, as many as the limit allows; if no
call fails, these entries are gone from both tables, and nothing else is. -/
theorem prune_spec {F E : Type} (keys : KeysTable) (values : ValuesTable)
    (hmirrored : Mirrored keys values) (hkeys : ∀ e ∈ keys.entries, e.2.length < 2 ^ 63)
    (txFrom txTo limit : Nat) (hto : txTo < 2 ^ 64)
    (fn : F → Bytes → Bytes → Except E F) (f : F) (optimalSize : Int) :
    Mirrored (keys.keep fun e => decide (e.1 ∉ prunedTxNums keys txFrom txTo limit))
        (values.keep fun e => decide (e.2 ∉ prunedTxNums keys txFrom txTo limit)) ∧
      ∃ calls : List (Bytes × Nat), calls.Nodup ∧
        (∀ key n, (key, n) ∈ calls ↔
          n ∈ prunedTxNums keys txFrom txTo limit ∧ (n, key) ∈ keys.entries) ∧
        prune keys values txFrom txTo limit fn f optimalSize =
          (calls.foldlM (callFn fn) f).map fun f' =>
            ⟨keys.keep fun e => decide (e.1 ∉ prunedTxNums keys txFrom txTo limit),
              values.keep fun e => decide (e.2 ∉ prunedTxNums keys txFrom txTo limit), f',
              (prunedTxNums keys txFrom txTo limit).head?.getD maxUint64,
              (prunedTxNums keys txFrom txTo limit).getLast?.getD 0,
              (prunedTxNums keys txFrom txTo limit).length, calls.length⟩ := by
  have hsorted := prunedTxNums_sorted keys txFrom txTo limit
  have hscan := scanTxNums_eq keys txTo (fun hle hlt => hle.trans hlt.le)
    (if limit = 0 then maxUint64 else limit) ⟨maxUint64, 0, 0, 0⟩ []
    (Nat.lt_succ_of_le (keysIn_length_le keys fun n => txFrom ≤ n))
  dsimp only at hscan
  rw [visited_eq keys txFrom limit hto, nil_append] at hscan
  have hmin := foldl_min_eq hsorted (b := maxUint64) fun n hn => by
    have := lt_of_mem_prunedTxNums hn
    unfold maxUint64
    omega
  rw [hmin, foldl_max_eq hsorted] at hscan
  refine ⟨mirrored_keep hmirrored _, pruneCalls keys (prunedTxNums keys txFrom txTo limit),
    nodup_pruneCalls keys (hsorted.imp fun hlt => ne_of_lt hlt),
    fun key n => mem_pruneCalls, ?_⟩
  have hvalues : (values.keep fun e =>
        decide (e ∉ pruneCalls keys (prunedTxNums keys txFrom txTo limit))) =
      values.keep fun e => decide (e.2 ∉ prunedTxNums keys txFrom txTo limit) := by
    refine keep_congr values fun e he => ?_
    rw [decide_eq_decide, not_iff_not, mem_pruneCalls,
      and_iff_left ((hmirrored e.2 e.1).mpr he)]
  rw [prune, DupTable.seek, hscan]
  dsimp only
  rw [pruneTxNums_pruned keys txFrom limit hto, load_pruneValue hkeys
    (fun n hn => (lt_of_mem_prunedTxNums hn).trans hto), hvalues]
  cases (pruneCalls keys (prunedTxNums keys txFrom txTo limit)).foldlM (callFn fn) f with
  | error e => rfl
  | ok f' => rfl

/-- Three entries of two transactions. -/
def sampleKeys : KeysTable := ⟨[(5, [1]), (5, [2]), (7, [1])], by decide⟩

def sampleValues : ValuesTable := ⟨[([1], 5), ([1], 7), ([2], 5)], by decide⟩

/-- Pruning one transaction removes its entries from both tables. -/
theorem prune_sample : ∃ calls : List (Bytes × Nat),
    (∀ key n, (key, n) ∈ calls ↔ n ∈ [5] ∧ (n, key) ∈ sampleKeys.entries) ∧
    prune sampleKeys sampleValues 0 10 1
        (fun f _ _ => (.ok (f + 1) : Except Unit Nat)) 0 0 =
      (calls.foldlM (callFn fun f _ _ => .ok (f + 1)) 0).map fun f =>
        ⟨⟨[(7, [1])], by decide⟩, ⟨[([1], 7)], by decide⟩, f, 5, 5, 1, calls.length⟩ := by
  have hmirrored : Mirrored sampleKeys sampleValues := by
    intro n key
    simp only [sampleKeys, sampleValues, mem_cons, Prod.mk.injEq, not_mem_nil]
    tauto
  obtain ⟨-, calls, -, hcalls, hrun⟩ := prune_spec sampleKeys sampleValues hmirrored
    (by decide) 0 10 1 (by decide) (fun f _ _ => (.ok (f + 1) : Except Unit Nat)) 0 0
  have hall : [5, 7] = sampleKeys.keysIn fun n => 0 ≤ n ∧ n < 10 := by
    refine eq_keysIn (by decide) fun n => ?_
    simp only [sampleKeys, mem_cons, Prod.mk.injEq, not_mem_nil]
    constructor
    · rintro (rfl | rfl | hn)
      · exact ⟨⟨[1], .inl ⟨rfl, rfl⟩⟩, by decide⟩
      · exact ⟨⟨[1], .inr (.inr (.inl ⟨rfl, rfl⟩))⟩, by decide⟩
      · exact hn.elim
    · rintro ⟨⟨v, hv⟩, -⟩
      tauto
  have hpruned : prunedTxNums sampleKeys 0 10 1 = [5] := by
    rw [prunedTxNums, ← hall]
    rfl
  rw [hpruned] at hcalls hrun
  exact ⟨calls, hcalls, hrun⟩

end Erigon
