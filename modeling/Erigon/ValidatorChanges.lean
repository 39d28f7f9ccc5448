/-
A list of changes to a validator set.  The changes are sorted, checked and merged into the set,
and priorities are scaled and centered again.  The total is checked after each update in the order
of the addresses, so that a list may be refused although the total after all of them is fine.
-/
import Erigon.Overlay
import Erigon.ProposerRounds
import Erigon.StableSort

namespace Erigon

open List

namespace Heimdall

open Overlay

namespace ValidatorSet

open Validator

/-! ### Looking for an address -/

def Sorted (vs : List Validator) : Prop := Ascending Validator.address vs

variable {vs l updates ps us existing deletes ws changes : List Validator}

theorem Sorted.distinct (h : Sorted vs) : DistinctAddresses vs :=
  List.Pairwise.imp (fun hlt => hlt.ne) h

variable {v u : Validator}

theorem DistinctAddresses.eq_of_mem (h : DistinctAddresses vs) {w : Validator} (hv : v ∈ vs)
    (hw : w ∈ vs) (heq : v.address = w.address) : v = w := by
  obtain ⟨i, hi⟩ := getElem?_of_mem hv
  obtain ⟨k, hk⟩ := getElem?_of_mem hw
  obtain rfl := h.index_eq hi hk heq
  exact Option.some.inj (hi.symm.trans hk)

variable {vals : ValidatorSet}

theorem getByAddress_eq_some (h : DistinctAddresses vals.validators) {address : Bytes} :
    vals.getByAddress address = some v ↔ v ∈ vals.validators ∧ v.address = address := by
  rw [getByAddress]
  constructor
  · intro hfind
    exact ⟨mem_reverse.mp (mem_of_find?_eq_some hfind),
      by simpa using find?_some hfind⟩
  · rintro ⟨hmem, rfl⟩
    cases hfind : vals.validators.reverse.find? fun w => decide (w.address = v.address) with
    | none =>
      rw [find?_eq_none] at hfind
      exact absurd (decide_eq_true rfl) (hfind v (mem_reverse.mpr hmem))
    | some w =>
      have hw : w ∈ vals.validators := mem_reverse.mp (mem_of_find?_eq_some hfind)
      have heq : w.address = v.address := by simpa using find?_some hfind
      rw [DistinctAddresses.eq_of_mem h hw hmem heq]

theorem getByAddress_eq_none {address : Bytes} :
    vals.getByAddress address = none ↔ ∀ v ∈ vals.validators, v.address ≠ address := by
  simp [getByAddress]

/-! ### Checking the changes one by one -/

/-- A power that a change may have. -/
def InRange (v : Validator) : Prop := 0 ≤ v.votingPower ∧ v.votingPower ≤ maxTotalVotingPower

def updatesOf (changes : List Validator) : List Validator :=
  changes.filter fun v => decide (v.votingPower ≠ 0)

def removalsOf (changes : List Validator) : List Validator :=
  changes.filter fun v => decide (v.votingPower = 0)

/-- Distinct sorted addresses behind that of the last change, and powers in range. -/
structure Scannable (prevAddr : Option Bytes) (l : List Validator) : Prop where
  sorted : Sorted l
  behind : ∀ a, prevAddr = some a → ∀ w ∈ l, a < w.address
  inRange : ∀ v ∈ l, InRange v

/-- The scan splits such a list, and refuses any other. -/
theorem scanChanges_spec (all : List Validator) {prevAddr : Option Bytes}
    (hl : l.Pairwise fun u w => u.address ≤ w.address)
    (hprev : ∀ a, prevAddr = some a → ∀ w ∈ l, a ≤ w.address) :
    (Scannable prevAddr l ∧
      scanChanges all prevAddr l = .ok (updatesOf l, removalsOf l)) ∨
    (¬ Scannable prevAddr l ∧ ∃ e, scanChanges all prevAddr l = .error e) := by
  induction l generalizing prevAddr with
  | nil => exact .inl ⟨⟨List.Pairwise.nil, by simp, by simp⟩, rfl⟩
  | cons v l ih =>
    have hl' := pairwise_cons.mp hl
    rw [scanChanges]
    by_cases hdup : prevAddr = some v.address
    · rw [if_pos hdup]
      exact .inr ⟨fun h => lt_irrefl _ (h.behind _ hdup v mem_cons_self), _, rfl⟩
    rw [if_neg hdup]
    by_cases hnegative : v.votingPower < 0
    · rw [if_pos hnegative]
      exact .inr ⟨fun h => hnegative.not_ge (h.inRange v mem_cons_self).1, _, rfl⟩
    rw [if_neg hnegative]
    by_cases hhigh : v.votingPower > maxTotalVotingPower
    · rw [if_pos hhigh]
      exact .inr ⟨fun h => hhigh.not_ge (h.inRange v mem_cons_self).2, _, rfl⟩
    rw [if_neg hhigh]
    have hbehind (a : Bytes) (ha : some v.address = some a) (w : Validator) (hw : w ∈ l) :
        a ≤ w.address := by
      cases ha
      exact hl'.1 w hw
    rcases ih hl'.2 hbehind with ⟨hrest, hscan⟩ | ⟨hrest, e, hscan⟩
    · rw [hscan]
      have hlt (w : Validator) (hw : w ∈ l) : v.address < w.address :=
        hrest.behind _ rfl w hw
      refine .inl ⟨⟨pairwise_cons.mpr ⟨hlt, hrest.sorted⟩, fun a ha => ?_, ?_⟩, ?_⟩
      · have hav : a < v.address := lt_of_le_of_ne (hprev a ha v mem_cons_self)
          fun heq => hdup (ha.trans (congrArg some heq))
        exact forall_mem_cons.mpr ⟨hav, fun w hw => hav.trans (hlt w hw)⟩
      · exact forall_mem_cons.mpr ⟨⟨not_lt.mp hnegative, not_lt.mp hhigh⟩, hrest.inRange⟩
      · by_cases hzero : v.votingPower = 0
        · simp [hzero, updatesOf, removalsOf]
        · simp [hzero, updatesOf, removalsOf]
    · rw [hscan]
      refine .inr ⟨fun h => hrest ?_, e, rfl⟩
      have hsorted := pairwise_cons.mp h.sorted
      refine ⟨hsorted.2, fun a ha => ?_, fun w hw => h.inRange w (mem_cons_of_mem v hw)⟩
      cases ha
      exact hsorted.1

/-! ### The totals -/

/-- A validator that some updates leave alone. -/
def untouched (updates : List Validator) (v : Validator) : Bool :=
  updates.all fun u => decide (u.address ≠ v.address)

theorem untouched_iff : untouched updates v = true ↔ ∀ u ∈ updates, u.address ≠ v.address := by
  simp [untouched]

/-- The total when some updates are made. -/
def totalWith (vals : ValidatorSet) (updates : List Validator) : Int :=
  powerSum updates + powerSum (vals.validators.filter (untouched updates))

theorem powerSum_append (vs us : List Validator) :
    powerSum (vs ++ us) = powerSum vs + powerSum us := by
  simp [powerSum]

theorem powerSum_nonneg (h : ∀ v ∈ vs, 0 ≤ v.votingPower) : 0 ≤ powerSum vs :=
  sum_nonneg (by simpa using h)

theorem powerSum_filter_ne_of_notMem {a : Bytes} (h : ∀ v ∈ vs, v.address ≠ a) :
    powerSum (vs.filter fun v => decide (v.address ≠ a)) = powerSum vs := by
  rw [filter_eq_self.mpr fun v hv => decide_eq_true (h v hv)]

theorem powerSum_filter_ne (hdistinct : DistinctAddresses vs) (hv : v ∈ vs) :
    powerSum (vs.filter fun w => decide (w.address ≠ v.address)) = powerSum vs - v.votingPower := by
  induction vs with
  | nil => cases hv
  | cons w vs ih =>
    have hw := pairwise_cons.mp hdistinct
    rcases mem_cons.mp hv with rfl | hmem
    · rw [filter_cons_of_neg (by simp), powerSum_filter_ne_of_notMem fun u hu => (hw.1 u hu).symm]
      simp [powerSum]
    · have hrest := ih hw.2 hmem
      rw [filter_cons_of_pos (by simpa using hw.1 v hmem)]
      simp only [powerSum, map_cons, sum_cons] at hrest ⊢
      omega

/-- What an update adds to the total. -/
def delta (vals : ValidatorSet) (u : Validator) : Int :=
  match vals.getByAddress u.address with
  | none => u.votingPower
  | some v => u.votingPower - v.votingPower

theorem delta_le (hdistinct : DistinctAddresses vals.validators)
    (hpowers : ∀ v ∈ vals.validators, 0 < v.votingPower) (u : Validator) :
    vals.delta u ≤ u.votingPower := by
  rw [delta]
  cases hget : vals.getByAddress u.address with
  | none => exact le_rfl
  | some v =>
    have := hpowers v ((getByAddress_eq_some hdistinct).mp hget).1
    dsimp only
    omega

theorem totalWith_append (hdistinct : DistinctAddresses vals.validators)
    (hu : ∀ p ∈ ps, p.address ≠ u.address) :
    vals.totalWith (ps ++ [u]) = vals.totalWith ps + vals.delta u := by
  have hfilter : vals.validators.filter (untouched (ps ++ [u])) =
      (vals.validators.filter (untouched ps)).filter fun w => decide (w.address ≠ u.address) := by
    rw [filter_filter]
    refine filter_congr fun w _ => ?_
    rw [untouched, all_append, ← untouched, Bool.and_comm]
    simp [eq_comm]
  have hdistinct' : DistinctAddresses (vals.validators.filter (untouched ps)) :=
    List.Pairwise.filter _ hdistinct
  rw [totalWith, totalWith, hfilter, powerSum_append, delta]
  have hone : powerSum [u] = u.votingPower := by simp [powerSum]
  rw [hone]
  cases hget : vals.getByAddress u.address with
  | none =>
    have hnone := getByAddress_eq_none.mp hget
    rw [powerSum_filter_ne_of_notMem fun w hw => hnone w (mem_filter.mp hw).1]
    dsimp only
    omega
  | some v =>
    obtain ⟨hv, heq⟩ := (getByAddress_eq_some hdistinct).mp hget
    rw [← heq] at hu ⊢
    rw [powerSum_filter_ne hdistinct' (mem_filter.mpr ⟨hv, untouched_iff.mpr hu⟩)]
    dsimp only
    omega

/-- The total stays in range after each update in the order of the addresses. -/
def Fits (vals : ValidatorSet) (ps us : List Validator) : Prop :=
  ∀ c ∈ us, vals.totalWith (ps ++ us.filter fun u => decide (u.address ≤ c.address)) ≤
    maxTotalVotingPower

theorem fits_cons (hsorted : Sorted (u :: us)) :
    vals.Fits ps (u :: us) ↔
      vals.totalWith (ps ++ [u]) ≤ maxTotalVotingPower ∧ vals.Fits (ps ++ [u]) us := by
  have hu := pairwise_cons.mp hsorted
  have hfirst : ((u :: us).filter fun w => decide (w.address ≤ u.address)) = [u] := by
    rw [filter_cons_of_pos (by simp), filter_eq_nil_iff.mpr]
    intro w hw
    simpa using hu.1 w hw
  have hrest (c : Validator) (hc : c ∈ us) :
      (ps ++ (u :: us).filter fun w => decide (w.address ≤ c.address)) =
        (ps ++ [u]) ++ us.filter fun w => decide (w.address ≤ c.address) := by
    rw [filter_cons_of_pos (by simpa using (hu.1 c hc).le), append_assoc]
    rfl
  rw [Fits, forall_mem_cons, hfirst]
  refine and_congr_right fun _ => forall₂_congr fun c hc => ?_
  rw [hrest c hc]

def isNew (vals : ValidatorSet) (u : Validator) : Bool := (vals.getByAddress u.address).isNone

theorem totalWith_nonneg (hpowers : ∀ v ∈ vals.validators, 0 < v.votingPower)
    (hps : ∀ p ∈ ps, 0 ≤ p.votingPower) : 0 ≤ vals.totalWith ps := by
  have hown := powerSum_nonneg hps
  have hrest : 0 ≤ powerSum (vals.validators.filter (untouched ps)) :=
    powerSum_nonneg fun v hv => (hpowers v (mem_filter.mp hv).1).le
  rw [totalWith]
  omega

theorem verifyTotals_spec (hdistinct : DistinctAddresses vals.validators)
    (hpowers : ∀ v ∈ vals.validators, 0 < v.votingPower)
    (hbounded : ∀ v ∈ vals.validators, v.votingPower ≤ maxTotalVotingPower) {n : Nat}
    (hus : Sorted us) (hrange : ∀ u ∈ us, InRange u) (hps : ∀ p ∈ ps, InRange p)
    (hnew : ∀ u ∈ us, ∀ p ∈ ps, p.address ≠ u.address)
    (hfits : vals.totalWith ps ≤ maxTotalVotingPower) :
    (vals.Fits ps us ∧ vals.totalWith (ps ++ us) ≤ maxTotalVotingPower ∧
      vals.verifyTotals (vals.totalWith ps) n us =
        .ok (vals.totalWith (ps ++ us), n + us.countP vals.isNew)) ∨
    (¬ vals.Fits ps us ∧ ∃ e, vals.verifyTotals (vals.totalWith ps) n us = .error e) := by
  induction us generalizing ps n with
  | nil =>
    refine .inl ⟨fun c hc => ?_, by simpa using hfits, by simp [verifyTotals]⟩
    cases hc
  | cons u us ih =>
    have hu := pairwise_cons.mp hus
    rw [forall_mem_cons] at hrange hnew
    have hnext := totalWith_append hdistinct hnew.1
    have hps' : ∀ p ∈ ps ++ [u], InRange p := by
      simpa [or_imp, forall_and] using ⟨hps, hrange.1⟩
    have hlow := totalWith_nonneg hpowers fun p hp => (hps' p hp).1
    -- the total and the count after the update
    have hstep : vals.verifyTotals (vals.totalWith ps) n (u :: us) =
        if vals.totalWith (ps ++ [u]) > maxTotalVotingPower then .error (.exceeds u)
        else vals.verifyTotals (vals.totalWith (ps ++ [u]))
          (n + if vals.isNew u then 1 else 0) us := by
      have hmax := maxTotalVotingPower_eq
      have hin : InInt64 (vals.totalWith ps + vals.delta u) := by
        have hle := delta_le hdistinct hpowers u
        have hu' := hrange.1.2
        rw [inInt64_iff]
        omega
      have hr : vals.afterUpdate (vals.totalWith ps) n u =
          (vals.totalWith (ps ++ [u]), n + if vals.isNew u then 1 else 0) := by
        rw [hnext, afterUpdate, isNew]
        rw [delta] at hin ⊢
        cases hget : vals.getByAddress u.address with
        | none =>
          rw [hget] at hin
          dsimp only at hin ⊢
          rw [int64_eq hin]
          rfl
        | some v =>
          rw [hget] at hin
          have hv := (getByAddress_eq_some hdistinct).mp hget
          have hdiff : InInt64 (u.votingPower - v.votingPower) := by
            have := hpowers v hv.1
            have := hbounded v hv.1
            have := hrange.1
            rw [InRange] at this
            rw [inInt64_iff]
            omega
          dsimp only at hin ⊢
          rw [int64_eq hdiff, int64_eq hin]
          rfl
      rw [verifyTotals, hr]
    rw [hstep, fits_cons hus]
    by_cases hexceeds : vals.totalWith (ps ++ [u]) > maxTotalVotingPower
    · rw [if_pos hexceeds]
      exact .inr ⟨fun h => hexceeds.not_ge h.1, _, rfl⟩
    · rw [if_neg hexceeds]
      have hnew' : ∀ w ∈ us, ∀ p ∈ ps ++ [u], p.address ≠ w.address := fun w hw =>
        forall_mem_append.mpr ⟨hnew.2 w hw, forall_mem_singleton.mpr (hu.1 w hw).ne⟩
      rcases ih hu.2 hrange.2 hps' hnew' (not_lt.mp hexceeds)
        (n := n + if vals.isNew u then 1 else 0) with ⟨hrest, hall, heq⟩ | ⟨hrest, herror⟩
      · rw [append_assoc] at hall heq
        refine .inl ⟨⟨not_lt.mp hexceeds, hrest⟩, hall, ?_⟩
        rw [heq, countP_cons]
        congr 2
        omega
      · exact .inr ⟨fun h => hrest h.2, herror⟩

/-! ### Merging -/

/-- The updates are laid over the validators. -/
theorem applyUpdates_eq (hexisting : Sorted existing) (hupdates : Sorted updates) :
    applyUpdates existing updates = overlay address updates existing := by
  fun_induction applyUpdates existing updates with
  | case1 updates => rw [overlay_nil]
  | case2 e existing => rw [overlay]
  | case3 e existing u updates hlt ih =>
    rw [overlay_lower hlt, ih (pairwise_cons.mp hexisting).2 hupdates]
  | case4 e existing u updates _ heq ih =>
    have he := pairwise_cons.mp hexisting
    rw [overlay_skip heq.symm, ih he.2 (pairwise_cons.mp hupdates).2]
    cases existing with
    | nil => rw [overlay_nil, overlay_nil]
    | cons e' existing => rw [overlay_upper (heq ▸ he.1 e' mem_cons_self)]
  | case5 e existing u updates hge hne ih =>
    have hlt : u.address < e.address := lt_of_le_of_ne (not_lt.mp hge) (Ne.symm hne)
    rw [overlay_upper hlt, ih hexisting (pairwise_cons.mp hupdates).2]

/-- What is removed is there. -/
abbrev Known (existing deletes : List Validator) : Prop :=
  ∀ d ∈ deletes, ∃ v ∈ existing, v.address = d.address

theorem Known.tail {e : Validator} (h : Known (e :: existing) deletes)
    (hne : ∀ d ∈ deletes, e.address ≠ d.address) : Known existing deletes := by
  intro d hd
  obtain ⟨v, hv, hvd⟩ := h d hd
  rcases mem_cons.mp hv with rfl | hv
  · exact absurd hvd (hne d hd)
  · exact ⟨v, hv, hvd⟩

theorem applyRemovals_eq (hexisting : Sorted existing) (hdeletes : Sorted deletes)
    (hknown : Known existing deletes) :
    applyRemovals existing deletes = .ok (existing.filter (untouched deletes)) := by
  fun_induction applyRemovals existing deletes with
  | case1 existing =>
    rw [filter_eq_self.mpr fun v _ => untouched_iff.mpr (by simp)]
  | case2 d deletes =>
    obtain ⟨v, hv, -⟩ := hknown d mem_cons_self
    cases hv
  | case3 e existing d deletes heq ih =>
    have he := pairwise_cons.mp hexisting
    have hd := pairwise_cons.mp hdeletes
    have hrest : Known existing deletes :=
      Known.tail (forall_mem_cons.mp hknown).2 fun d' hd' => heq ▸ (hd.1 d' hd').ne
    have hgone : untouched (d :: deletes) e ≠ true := by
      rw [ne_eq, untouched_iff]
      exact fun h => h d mem_cons_self heq.symm
    rw [ih he.2 hd.2 hrest, filter_cons_of_neg hgone]
    congr 1
    refine filter_congr fun v hv => ?_
    have hne : d.address ≠ v.address := heq ▸ (he.1 v hv).ne
    simp [untouched, hne]
  | case4 e existing d deletes hne ih =>
    have he := pairwise_cons.mp hexisting
    have hd := pairwise_cons.mp hdeletes
    -- what is removed comes behind the first validator
    have hlt : e.address < d.address := by
      obtain ⟨v, hv, hvd⟩ := hknown d mem_cons_self
      rcases mem_cons.mp hv with rfl | hv
      · exact absurd hvd hne
      · exact hvd ▸ he.1 v hv
    have hbehind : ∀ d' ∈ d :: deletes, e.address < d'.address :=
      forall_mem_cons.mpr ⟨hlt, fun d' hd' => hlt.trans (hd.1 d' hd')⟩
    rw [ih he.2 hdeletes (Known.tail hknown fun d' hd' => (hbehind d' hd').ne), filter_cons_of_pos]
    · rfl
    · exact untouched_iff.mpr fun d' hd' => (hbehind d' hd').ne'

/-- Sets as the claims about changes take them: the cached total is right. -/
structure Ready (vals : ValidatorSet) : Prop where
  sorted : Sorted vals.validators
  powers : ∀ v ∈ vals.validators, 0 < v.votingPower
  total : vals.totalVotingPower = powerSum vals.validators
  bounded : vals.totalVotingPower ≤ maxTotalVotingPower
  priorities : ∀ v ∈ vals.validators, -2 ^ 61 ≤ v.proposerPriority ∧ v.proposerPriority ≤ 2 ^ 61

theorem map_strip_computeNewPriorities (updates : List Validator) (vals : ValidatorSet) (t : Int) :
    (computeNewPriorities updates vals t).map strip = updates.map strip := by
  rw [computeNewPriorities, map_map]
  refine map_congr_left fun u _ => ?_
  rw [Function.comp_apply]
  split <;> rfl

theorem computeNewPriorities_bounds (h : vals.Ready) {t : Int}
    (ht : 0 ≤ t ∧ t ≤ maxTotalVotingPower) (updates : List Validator) :
    ∀ v ∈ computeNewPriorities updates vals t,
      -2 ^ 61 ≤ v.proposerPriority ∧ v.proposerPriority ≤ 2 ^ 61 := by
  intro v hv
  obtain ⟨u, -, rfl⟩ := mem_map.mp hv
  rw [maxTotalVotingPower_eq] at ht
  cases hget : vals.getByAddress u.address with
  | none =>
    have hsum : int64 (t + t / 8) = t + t / 8 := int64_eq (inInt64_iff.mpr (by omega))
    have hneg : int64 (-(t + t / 8)) = -(t + t / 8) := int64_eq (inInt64_iff.mpr (by omega))
    dsimp only
    rw [hsum, hneg]
    omega
  | some w => exact h.priorities w ((getByAddress_eq_some h.sorted.distinct).mp hget).1

theorem untouched_congr (h : ∀ a, a ∈ us.map address ↔ a ∈ ws.map address) :
    untouched us = untouched ws := by
  funext v
  have hiff (l : List Validator) :
      untouched l v = true ↔ v.address ∉ l.map address := by simp [untouched]
  rw [Bool.eq_iff_iff, hiff, hiff, h]

theorem totalWith_congr (vals : ValidatorSet) (h : us.map strip = ws.map strip) :
    vals.totalWith us = vals.totalWith ws := by
  have haddresses := map_eq_of_strip h (f := address) fun _ _ => rfl
  have hpowers := map_eq_of_strip h (f := votingPower) fun _ _ => rfl
  have huntouched : untouched us = untouched ws := untouched_congr fun a => by rw [haddresses]
  rw [totalWith, totalWith, huntouched, powerSum, hpowers]
  rfl

theorem Sorted.of_strip (h : us.map strip = ws.map strip) (hws : Sorted ws) : Sorted us := by
  have haddresses := map_eq_of_strip h (f := address) fun _ _ => rfl
  rw [Sorted, Ascending, ← pairwise_map (R := (· < ·))] at hws ⊢
  rw [haddresses]
  exact hws

theorem powerSum_overlay (h : Sorted vals.validators) (hus : Sorted us) :
    powerSum (overlay address us vals.validators) = vals.totalWith us := by
  have huntouched (v : Validator) : untouched us v = true ↔ ∀ u ∈ us, u.address ≠ v.address :=
    untouched_iff
  have hperm := overlay_perm hus h huntouched
  rw [totalWith, ← powerSum_append]
  exact (hperm.map _).sum_eq

/-- A set with the priorities scaled and centered. -/
structure Centered (vals : ValidatorSet) : Prop where
  total : vals.totalVotingPower = powerSum vals.validators
  bounded : vals.totalVotingPower ≤ maxTotalVotingPower
  spread : Spread vals.validators (2 * vals.totalVotingPower)
  sum_nonneg : 0 ≤ prioritySum vals.validators
  sum_lt : prioritySum vals.validators < vals.validators.length

/-- The validators that updates and removals leave. -/
def changedList (vals : ValidatorSet) (updates deletes : List Validator) : List Validator :=
  (overlay Validator.address updates vals.validators).filter (untouched deletes)

/-- Verified changes are made. -/
theorem applyChanges_spec (h : vals.Ready) (hupdates : Sorted updates) (hdeletes : Sorted deletes)
    (hpositive : ∀ u ∈ updates, 0 < u.votingPower)
    (hknown : Known vals.validators deletes)
    (hfits : vals.totalWith updates ≤ maxTotalVotingPower)
    (hne : vals.changedList updates deletes ≠ []) :
    ∃ vals', vals.applyChanges updates deletes (vals.totalWith updates) = (vals', .ok ()) ∧
      vals'.validators.map strip = (vals.changedList updates deletes).map strip ∧
      vals'.proposer = vals.proposer ∧ Centered vals' := by
  have hnonneg : 0 ≤ vals.totalWith updates :=
    totalWith_nonneg h.powers fun u hu => (hpositive u hu).le
  set ups := computeNewPriorities updates vals (vals.totalWith updates) with hups
  have hstrip : ups.map strip = updates.map strip := map_strip_computeNewPriorities _ _ _
  have hupsSorted : Sorted ups := Sorted.of_strip hstrip hupdates
  set merged := overlay address ups vals.validators with hmerged
  have hmergedSorted : Sorted merged := ascending_overlay hupsSorted h.sorted
  have hmergedPowers : ∀ v ∈ merged, 0 < v.votingPower := by
    intro v hv
    rcases mem_of_mem_overlay hv with hv | hv
    · have hpowers := map_eq_of_strip hstrip (f := votingPower) fun _ _ => rfl
      have hmem : v.votingPower ∈ updates.map votingPower :=
        hpowers ▸ mem_map_of_mem hv
      obtain ⟨u, hu, heq⟩ := mem_map.mp hmem
      exact heq ▸ hpositive u hu
    · exact h.powers v hv
  have hknown' : Known merged deletes := by
    intro d hd
    obtain ⟨v, hv, hvd⟩ := hknown d hd
    by_cases hfree : ∀ u ∈ ups, u.address ≠ v.address
    · exact ⟨v, (mem_overlay hupsSorted h.sorted).mpr (.inr ⟨hv, hfree⟩), hvd⟩
    · push Not at hfree
      obtain ⟨u, hu, huv⟩ := hfree
      exact ⟨u, (mem_overlay hupsSorted h.sorted).mpr (.inl hu), huv.trans hvd⟩
  have hremovals := applyRemovals_eq hmergedSorted hdeletes hknown'
  set result := merged.filter (untouched deletes) with hresult
  have hsame : result.map strip = (vals.changedList updates deletes).map strip := by
    have hfilter (l : List Validator) :
        (l.filter (untouched deletes)).map strip = (l.map strip).filter (untouched deletes) := by
      rw [filter_map]
      rfl
    have hrank (v : Validator) : (strip v).address = v.address := rfl
    rw [hresult, changedList, hfilter, hfilter, hmerged, map_overlay hrank, map_overlay hrank,
      hstrip]
  have hpowers : ∀ v ∈ result, 0 < v.votingPower :=
    fun v hv => hmergedPowers v (mem_filter.mp hv).1
  have hbounds : ∀ v ∈ result, -2 ^ 61 ≤ v.proposerPriority ∧ v.proposerPriority ≤ 2 ^ 61 := by
    intro v hv
    rcases mem_of_mem_overlay (mem_filter.mp hv).1 with hv | hv
    · exact computeNewPriorities_bounds h ⟨hnonneg, hfits⟩ updates v hv
    · exact h.priorities v hv
  have htotal : powerSum result ≤ maxTotalVotingPower := by
    have hsub : powerSum result ≤ powerSum merged :=
      (filter_sublist.map votingPower).sum_le_sum
        (by simpa using fun v hv => (hmergedPowers v hv).le)
    rw [hmerged, powerSum_overlay h.sorted hupsSorted, totalWith_congr vals hstrip] at hsub
    exact hsub.trans hfits
  have hresultNe : result ≠ [] := by
    intro hnil
    rw [hnil] at hsame
    exact hne (map_eq_nil_iff.mp hsame.symm)
  have hpos : 0 < powerSum result :=
    sum_pos _ (by simpa using hpowers) (by simpa using hresultNe)
  have hmax := maxTotalVotingPower_eq
  let vals' : ValidatorSet :=
    { vals with validators := result, totalVotingPower := powerSum result }
  have hstanding : vals'.Standing (powerSum result) :=
    { ne := hresultNe
      distinct := Sorted.distinct (List.Pairwise.filter _ hmergedSorted)
      powers := hpowers
      total := rfl
      bounded := htotal
      cached := .inl rfl }
  have hin : ∀ v ∈ vals'.validators, InInt64 v.proposerPriority := by
    intro v hv
    have := hbounds v hv
    rw [inInt64_iff]
    omega
  have hspread : Spread vals'.validators (maxInt64 - 2 * powerSum result) := by
    intro u hu w hw
    have := hbounds u hu
    have := hbounds w hw
    rw [maxInt64]
    omega
  obtain ⟨scaled, start, hscale, -, hshift, -, hstart, hpower, hproposer, hwindow, -, hsum, hlt⟩ :=
    normalize_spec hstanding hin hspread
  have hupdateTotal : updateTotalVotingPower { vals with validators := result } =
      (vals', .ok ()) := by
    rw [updateTotalVotingPower, sumPowers_eq le_rfl hpowers (by omega)]
    simp [vals']
  have htotal' : vals'.total = (vals', .ok (powerSum result)) :=
    total_eq hpowers htotal (.inl rfl)
  have hwide : int64 (priorityWindowSizeFactor * powerSum result) = 2 * powerSum result :=
    int64_eq (inInt64_iff.mpr (by rw [priorityWindowSizeFactor]; omega))
  refine ⟨start, ?_, hstart.trans hsame, hproposer, ?_⟩
  · rw [applyChanges, ← hups, applyUpdates_eq h.sorted hupsSorted, ← hmerged, hremovals]
    dsimp only
    rw [hupdateTotal]
    dsimp only
    rw [htotal']
    dsimp only
    rw [hwide, hscale]
    dsimp only
    rw [hshift]
  · have hsumPowers : powerSum start.validators = powerSum result := by
      rw [powerSum, map_eq_of_strip hstart (f := votingPower) fun _ _ => rfl]
      rfl
    exact
      { total := by rw [hpower, hsumPowers]
        bounded := hpower ▸ htotal
        spread := hpower ▸ hwindow
        sum_nonneg := hsum
        sum_lt := hlt }

/-! ### All changes -/

/-- A function that sorts by address, in any order where addresses are equal. -/
def Sorts (sort : List Validator → List Validator) : Prop :=
  ∀ l, (sort l).Perm l ∧ (sort l).Pairwise fun u w => u.address ≤ w.address

/-- Sorted changes that pass all checks. -/
structure Accepted (vals : ValidatorSet) (changes : List Validator) : Prop where
  scannable : Scannable none changes
  known : ∀ d ∈ removalsOf changes, ∃ v ∈ vals.validators, v.address = d.address
  fits : vals.Fits [] (updatesOf changes)
  ne : vals.changedList (updatesOf changes) (removalsOf changes) ≠ []

theorem apart_of_scannable (h : Scannable none changes) {d : Validator} (hu : u ∈ updatesOf changes)
    (hd : d ∈ removalsOf changes) :
    d.address ≠ u.address := by
  intro heq
  rw [updatesOf, mem_filter, decide_eq_true_iff] at hu
  rw [removalsOf, mem_filter, decide_eq_true_iff] at hd
  obtain rfl := DistinctAddresses.eq_of_mem h.sorted.distinct hd.1 hu.1 heq
  exact hu.2 hd.2

theorem nodup_addresses (hl : Sorted l) : (l.map address).Nodup :=
  pairwise_map.mpr hl.distinct

theorem removals_subperm (hdeletes : Sorted deletes) (hknown : Known vals.validators deletes) :
    (deletes.map address).Subperm (vals.validators.map address) := by
  refine (nodup_addresses hdeletes).subperm fun a ha => ?_
  obtain ⟨d, hd, rfl⟩ := mem_map.mp ha
  obtain ⟨v, hv, heq⟩ := hknown d hd
  exact heq ▸ mem_map_of_mem hv

/-- The check for an empty set counts the new and the removed validators. -/
theorem changedList_eq_nil_iff (hvals : Sorted vals.validators) (h : Scannable none changes)
    (hknown : Known vals.validators (removalsOf changes)) :
    vals.changedList (updatesOf changes) (removalsOf changes) = [] ↔
      (updatesOf changes).countP vals.isNew = 0 ∧
        vals.validators.length = (removalsOf changes).length := by
  have hupdates : Sorted (updatesOf changes) := List.Pairwise.filter _ h.sorted
  have hremovals : Sorted (removalsOf changes) := List.Pairwise.filter _ h.sorted
  have hsubperm := removals_subperm hremovals hknown
  have hle : (removalsOf changes).length ≤ vals.validators.length := by
    simpa using hsubperm.length_le
  -- all validators are removed if as many are removed as there are
  have hall : vals.validators.length = (removalsOf changes).length ↔
      ∀ v ∈ vals.validators, ∃ d ∈ removalsOf changes, d.address = v.address := by
    constructor
    · intro hlength v hv
      have hperm := hsubperm.perm_of_length_le (by simpa using hlength.le)
      exact mem_map.mp (hperm.mem_iff.mpr (mem_map_of_mem hv))
    · intro hremoved
      have hsubset' : vals.validators.map address ⊆
          (removalsOf changes).map address := by
        intro a ha
        obtain ⟨v, hv, rfl⟩ := mem_map.mp ha
        exact mem_map.mpr (hremoved v hv)
      have hle' : vals.validators.length ≤ (removalsOf changes).length := by
        simpa using ((nodup_addresses hvals).subperm hsubset').length_le
      omega
  have htouched {v : Validator} : ¬ untouched (removalsOf changes) v = true ↔
      ∃ d ∈ removalsOf changes, d.address = v.address := by
    rw [untouched_iff]
    push Not
    rfl
  rw [hall, changedList, filter_eq_nil_iff]
  constructor
  · intro hgone
    have hnone : updatesOf changes = [] := by
      rw [eq_nil_iff_forall_not_mem]
      intro u hu
      obtain ⟨d, hd, heq⟩ := htouched.mp (hgone u ((mem_overlay hupdates hvals).mpr (.inl hu)))
      exact apart_of_scannable h hu hd heq
    rw [hnone] at hgone ⊢
    refine ⟨rfl, fun v hv => htouched.mp (hgone v ?_)⟩
    rw [overlay]
    exact hv
  · rintro ⟨hnew, hremoved⟩ v hv
    rw [htouched]
    rcases mem_of_mem_overlay hv with hv | hv
    · rw [countP_eq_zero] at hnew
      have hknown' : ¬ vals.getByAddress v.address = none := by
        simpa [isNew] using hnew v hv
      rw [getByAddress_eq_none] at hknown'
      push Not at hknown'
      obtain ⟨w, hw, heq⟩ := hknown'
      obtain ⟨d, hd, hdw⟩ := hremoved w hw
      exact ⟨d, hd, hdw.trans heq⟩
    · exact hremoved v hv

theorem verifyRemovals_spec (vals : ValidatorSet) (hdeletes : Sorted deletes) :
    (Known vals.validators deletes ∧ verifyRemovals deletes vals = .ok ()) ∨
    (¬ Known vals.validators deletes ∧
      ∃ e, verifyRemovals deletes vals = .error (.error e)) := by
  rw [verifyRemovals]
  cases hfind : deletes.find? fun v => (vals.getByAddress v.address).isNone with
  | some d =>
    have hnone : vals.getByAddress d.address = none := by
      simpa using find?_some hfind
    refine .inr ⟨fun hknown => ?_, _, rfl⟩
    obtain ⟨v, hv, heq⟩ := hknown d (mem_of_find?_eq_some hfind)
    exact getByAddress_eq_none.mp hnone v hv heq
  | none =>
    have hknown : Known vals.validators deletes := by
      intro d hd
      have hsome := find?_eq_none.mp hfind d hd
      rw [Option.isNone_iff_eq_none, getByAddress_eq_none] at hsome
      push Not at hsome
      exact hsome
    have hle : deletes.length ≤ vals.validators.length := by
      simpa using (removals_subperm hdeletes hknown).length_le
    exact .inl ⟨hknown, if_neg (by omega)⟩

theorem totalWith_nil (vals : ValidatorSet) : vals.totalWith [] = powerSum vals.validators := by
  rw [totalWith, filter_eq_self.mpr fun v _ => untouched_iff.mpr (by simp)]
  simp [powerSum]

/-- Changes that pass all checks are made, others leave the set as it was. -/
theorem updateWithChangeSet_spec {sort : List Validator → List Validator} (hsort : Sorts sort)
    (h : vals.Ready) (hne : changes ≠ []) :
    (vals.Accepted (sort changes) ∧ ∃ vals',
      updateWithChangeSet sort true changes vals = (vals', .ok ()) ∧
      vals.applyChanges (updatesOf (sort changes)) (removalsOf (sort changes))
        (vals.totalWith (updatesOf (sort changes))) = (vals', .ok ()) ∧
      vals'.validators.map strip =
        (vals.changedList (updatesOf (sort changes)) (removalsOf (sort changes))).map strip ∧
      Centered vals') ∨
    (¬ vals.Accepted (sort changes) ∧
      ∃ e, updateWithChangeSet sort true changes vals = (vals, .error (.error e))) := by
  have hlength : ¬ changes.length < 1 := by
    have := length_pos_of_ne_nil hne
    omega
  have hprev : ∀ a, (none : Option Bytes) = some a → ∀ w ∈ sort changes, a ≤ w.address :=
    fun a ha => by cases ha
  rw [updateWithChangeSet, if_neg hlength, processChanges]
  rcases scanChanges_spec (sort changes) (hsort changes).2 hprev with
    ⟨hscan, heq⟩ | ⟨hscan, e, heq⟩
  swap
  · rw [heq]
    exact .inr ⟨fun hacc => hscan hacc.scannable, e, rfl⟩
  rw [heq]
  dsimp only
  rw [if_neg (by simp)]
  have hupdates : Sorted (updatesOf (sort changes)) := List.Pairwise.filter _ hscan.sorted
  have hremovals : Sorted (removalsOf (sort changes)) := List.Pairwise.filter _ hscan.sorted
  rcases verifyRemovals_spec vals hremovals with ⟨hknown, heq⟩ | ⟨hknown, e, heq⟩
  swap
  · rw [heq]
    exact .inr ⟨fun hacc => hknown hacc.known, e, rfl⟩
  rw [heq]
  dsimp only
  have htotal : vals.total = (vals, .ok (vals.totalWith [])) := by
    have hself : { vals with totalVotingPower := powerSum vals.validators } = vals := by
      rw [← h.total]
    rw [totalWith_nil, total_eq h.powers (h.total ▸ h.bounded) (.inl h.total), hself]
  have hbounded : ∀ v ∈ vals.validators, v.votingPower ≤ maxTotalVotingPower := by
    intro v hv
    have hnonneg : ∀ p ∈ vals.validators.map votingPower, 0 ≤ p := by
      simpa using fun w hw => (h.powers w hw).le
    have hle : v.votingPower ≤ powerSum vals.validators :=
      single_le_sum hnonneg _ (mem_map_of_mem hv)
    exact hle.trans (h.total ▸ h.bounded)
  have hrange : ∀ u ∈ updatesOf (sort changes), InRange u :=
    fun u hu => hscan.inRange u (mem_filter.mp hu).1
  rw [verifyUpdates, htotal]
  dsimp only
  have hstart : vals.totalWith [] ≤ maxTotalVotingPower := by
    rw [totalWith_nil, ← h.total]
    exact h.bounded
  rcases verifyTotals_spec (n := 0) h.sorted.distinct h.powers hbounded hupdates hrange
    (by simp) (by simp) hstart with ⟨hfits, hall, heq⟩ | ⟨hfits, e, heq⟩
  swap
  · rw [heq]
    exact .inr ⟨fun hacc => hfits hacc.fits, e, rfl⟩
  rw [heq, nil_append, zero_add]
  rw [nil_append] at hall
  dsimp only
  have hempty := changedList_eq_nil_iff h.sorted hscan hknown
  by_cases hnil : vals.changedList (updatesOf (sort changes)) (removalsOf (sort changes)) = []
  · rw [if_pos (hempty.mp hnil)]
    exact .inr ⟨fun hacc => hacc.ne hnil, _, rfl⟩
  · rw [if_neg (mt hempty.mpr hnil)]
    have hpositive : ∀ u ∈ updatesOf (sort changes), 0 < u.votingPower := by
      intro u hu
      have hzero : u.votingPower ≠ 0 := by simpa using (mem_filter.mp hu).2
      have := (hrange u hu).1
      omega
    obtain ⟨vals', happly, hsame, -, hcentered⟩ :=
      applyChanges_spec h hupdates hremovals hpositive hknown hall hnil
    exact .inl ⟨⟨hscan, hknown, hfits, hnil⟩, vals', happly, happly, hsame, hcentered⟩

/-! ### What the changes ask for -/

/-- A validator of the set that the changes ask for. -/
def Asked (vals : ValidatorSet) (changes : List Validator) (v : Validator) : Prop :=
  (v ∈ changes ∧ 0 < v.votingPower) ∨
    (v ∈ vals.validators ∧ ∀ c ∈ changes, c.address ≠ v.address)

/-- The reasons for which changes may be refused. -/
def Refusable (vals : ValidatorSet) (changes : List Validator) : Prop :=
  ¬ DistinctAddresses changes ∨ (∃ c ∈ changes, ¬ InRange c) ∨
    (∃ c ∈ changes, c.votingPower = 0 ∧ ∀ v ∈ vals.validators, v.address ≠ c.address) ∨
    (∀ v, ¬ vals.Asked changes v) ∨
    maxTotalVotingPower < vals.totalWith (updatesOf changes)

/-- The set that the changes ask for, with the priorities scaled and centered. -/
structure Changed (vals : ValidatorSet) (changes : List Validator) (vals' : ValidatorSet) :
    Prop where
  sorted : Sorted vals'.validators
  members : ∀ w, w ∈ vals'.validators.map strip ↔ ∃ v, vals.Asked changes v ∧ strip v = w
  centered : Centered vals'

/-- The changes are made, or refused for one of the reasons with the set as it was, whatever the
order in which they are given. -/
structure Meets (sort : List Validator → List Validator) (vals : ValidatorSet)
    (changes : List Validator) : Prop where
  outcome :
    (vals.Refusable changes ∧
      ∃ e, updateWithChangeSet sort true changes vals = (vals, .error (.error e))) ∨
    ∃ vals', updateWithChangeSet sort true changes vals = (vals', .ok ()) ∧
      vals.Changed changes vals'
  order : ∀ changes', changes'.Perm changes →
    (updateWithChangeSet sort true changes' vals).1 =
      (updateWithChangeSet sort true changes vals).1 ∧
    ((updateWithChangeSet sort true changes' vals).2 = .ok () ↔
      (updateWithChangeSet sort true changes vals).2 = .ok ())

section Order

variable {us ws : List Validator}

variable (vals)

theorem totalWith_perm (h : us.Perm ws) :
    vals.totalWith us = vals.totalWith ws := by
  rw [totalWith, totalWith, untouched_congr fun _ => (h.map _).mem_iff]
  congr 1
  exact (h.map _).sum_eq

theorem fits_perm (h : us.Perm ws) : vals.Fits [] us ↔ vals.Fits [] ws := by
  have htotal (c : Validator) := totalWith_perm vals (h.filter fun u => decide (u.address ≤ c.address))
  simp only [Fits, nil_append, htotal, h.mem_iff]

theorem distinctAddresses_perm (h : us.Perm ws) : DistinctAddresses us ↔ DistinctAddresses ws :=
  h.pairwise_iff fun hne => hne.symm

theorem asked_perm (h : us.Perm ws) (v : Validator) :
    vals.Asked us v ↔ vals.Asked ws v := by
  simp only [Asked, h.mem_iff]

theorem refusable_perm (h : us.Perm ws) :
    vals.Refusable us ↔ vals.Refusable ws := by
  have hupdates : vals.totalWith (updatesOf us) = vals.totalWith (updatesOf ws) :=
    totalWith_perm vals (h.filter _)
  simp only [Refusable, distinctAddresses_perm h, asked_perm vals h, hupdates, h.mem_iff]

/-- Lists with distinct addresses are sorted in one way only. -/
theorem sort_eq_of_perm {sort : List Validator → List Validator} (hsort : Sorts sort)
    (h : us.Perm ws) (hsorted : Sorted (sort ws)) : sort us = sort ws := by
  have hperm : (sort us).Perm (sort ws) := (hsort us).1.trans (h.trans (hsort ws).1.symm)
  have hdistinct : DistinctAddresses (sort us) := (distinctAddresses_perm hperm).mpr hsorted.distinct
  have hsorted' : Sorted (sort us) :=
    ((hsort us).2.and hdistinct).imp fun hle => lt_of_le_of_ne hle.1 hle.2
  exact hsorted'.ext hsorted fun v => hperm.mem_iff

end Order

theorem mem_changedList (hvals : Sorted vals.validators) (h : Scannable none changes) :
    v ∈ vals.changedList (updatesOf changes) (removalsOf changes) ↔ vals.Asked changes v := by
  have hupdates : Sorted (updatesOf changes) := List.Pairwise.filter _ h.sorted
  have hchosen : v ∈ updatesOf changes ↔ v ∈ changes ∧ 0 < v.votingPower := by
    rw [updatesOf, mem_filter, decide_eq_true_iff]
    refine and_congr_right fun hv => ?_
    have := (h.inRange v hv).1
    omega
  rw [changedList, mem_filter, mem_overlay hupdates hvals, untouched_iff, Asked, ← hchosen]
  constructor
  · rintro ⟨hv | ⟨hv, hfree⟩, hkept⟩
    · exact .inl hv
    · refine .inr ⟨hv, fun c hc => ?_⟩
      by_cases hzero : c.votingPower = 0
      · exact hkept c (mem_filter.mpr ⟨hc, decide_eq_true hzero⟩)
      · exact hfree c (mem_filter.mpr ⟨hc, decide_eq_true hzero⟩)
  · rintro (hv | ⟨hv, hfree⟩)
    · exact ⟨.inl hv, fun d hd => apart_of_scannable h hv hd⟩
    · exact ⟨.inr ⟨hv, fun c hc => hfree c (mem_filter.mp hc).1⟩,
        fun c hc => hfree c (mem_filter.mp hc).1⟩

/-- The last total is that of all updates. -/
theorem Ready.totalWith_le (h : vals.Ready) (hsorted : Sorted us) (hfits : vals.Fits [] us) :
    vals.totalWith us ≤ maxTotalVotingPower := by
  rcases eq_nil_or_concat' us with rfl | ⟨init, c, rfl⟩
  · rw [totalWith_nil, ← h.total]
    exact h.bounded
  · have hall : ((init ++ [c]).filter fun u => decide (u.address ≤ c.address)) = init ++ [c] := by
      refine filter_eq_self.mpr fun u hu => decide_eq_true ?_
      exact le_of_getLast? (hsorted.imp le_of_lt) (by simp) u hu
    have hlast := hfits c (by simp)
    rwa [nil_append, hall] at hlast

/-- Sorted changes pass the checks if no reason speaks against them and the total stays in range
all the way. -/
theorem Ready.accepted_iff (h : vals.Ready)
    (hsorted : changes.Pairwise fun u w => u.address ≤ w.address) :
    vals.Accepted changes ↔ ¬ vals.Refusable changes ∧ vals.Fits [] (updatesOf changes) := by
  constructor
  · intro hacc
    have hscan := hacc.scannable
    refine ⟨?_, hacc.fits⟩
    rintro (hdistinct | ⟨c, hc, hrange⟩ | ⟨c, hc, hzero, hunknown⟩ | hnone | htotal)
    · exact hdistinct hscan.sorted.distinct
    · exact hrange (hscan.inRange c hc)
    · obtain ⟨v, hv, heq⟩ := hacc.known c (mem_filter.mpr ⟨hc, decide_eq_true hzero⟩)
      exact hunknown v hv heq
    · obtain ⟨v, hv⟩ := exists_mem_of_ne_nil _ hacc.ne
      exact hnone v ((mem_changedList h.sorted hscan).mp hv)
    · exact htotal.not_ge (h.totalWith_le (List.Pairwise.filter _ hscan.sorted) hacc.fits)
  · rintro ⟨hrefuse, hfits⟩
    simp only [Refusable, not_or] at hrefuse
    obtain ⟨hdistinct, hrange, hknown, hsome, -⟩ := hrefuse
    push Not at hdistinct hrange hknown hsome
    have hscan : Scannable none changes :=
      { sorted := (hsorted.and hdistinct).imp fun hle => lt_of_le_of_ne hle.1 hle.2
        behind := by simp
        inRange := hrange }
    refine ⟨hscan, fun d hd => ?_, hfits, fun hnil => ?_⟩
    · obtain ⟨hd, hzero⟩ := mem_filter.mp hd
      exact hknown d hd (of_decide_eq_true hzero)
    · obtain ⟨v, hv⟩ := hsome
      have hmem := (mem_changedList h.sorted hscan).mpr hv
      rw [hnil] at hmem
      cases hmem

/-- Accepted or refused, the order of the changes plays no part. -/
theorem Ready.order {sort : List Validator → List Validator} (hsort : Sorts sort) (h : vals.Ready)
    {changes' : List Validator} (hne : changes ≠ []) (hperm : changes'.Perm changes) :
    (updateWithChangeSet sort true changes' vals).1 =
      (updateWithChangeSet sort true changes vals).1 ∧
    ((updateWithChangeSet sort true changes' vals).2 = .ok () ↔
      (updateWithChangeSet sort true changes vals).2 = .ok ()) := by
  have hne' : changes' ≠ [] := fun hnil => hne (nil_perm.mp (hnil ▸ hperm))
  rcases updateWithChangeSet_spec hsort h hne with ⟨hacc, vals', hrun, happly, -⟩ | ⟨hacc, e, hrun⟩
  · have hsame := sort_eq_of_perm hsort hperm hacc.scannable.sorted
    rcases updateWithChangeSet_spec hsort h hne' with ⟨-, vals'', hrun', happly', -⟩ | ⟨hacc', -⟩
    · rw [hsame, happly] at happly'
      rw [hrun, hrun', happly']
      exact ⟨rfl, Iff.rfl⟩
    · exact absurd (hsame ▸ hacc) hacc'
  · rcases updateWithChangeSet_spec hsort h hne' with ⟨hacc', -⟩ | ⟨-, e', hrun'⟩
    · have hsame := sort_eq_of_perm hsort hperm.symm hacc'.scannable.sorted
      exact absurd (hsame ▸ hacc') hacc
    · rw [hrun, hrun']
      exact ⟨rfl, by simp⟩

/-- `UpdateWithChangeSet` makes the changes or refuses them for one of the reasons, in any order,
if there is such a reason or the total stays in range after each update. -/
theorem meets_iff (sort : List Validator → List Validator) (hsort : Sorts sort)
    (vals : ValidatorSet) (h : vals.Ready) (changes : List Validator) (hne : changes ≠ []) :
    Meets sort vals changes ↔ vals.Refusable changes ∨ vals.Fits [] (updatesOf changes) := by
  have hperm := (hsort changes).1
  have haccepted : vals.Accepted (sort changes) ↔
      ¬ vals.Refusable changes ∧ vals.Fits [] (updatesOf changes) := by
    have hupdates : (updatesOf (sort changes)).Perm (updatesOf changes) := hperm.filter _
    rw [h.accepted_iff (hsort changes).2, refusable_perm vals hperm, fits_perm vals hupdates]
  constructor
  · intro hmeets
    rcases hmeets.outcome with ⟨hrefuse, -⟩ | ⟨vals', hok, -⟩
    · exact .inl hrefuse
    · rcases updateWithChangeSet_spec hsort h hne with ⟨hacc, -⟩ | ⟨-, e, herror⟩
      · exact .inr (haccepted.mp hacc).2
      · rw [hok] at herror
        cases herror
  · intro hcond
    refine ⟨?_, fun changes' hperm' => h.order hsort hne hperm'⟩
    rcases updateWithChangeSet_spec hsort h hne with ⟨hacc, vals', hok, -, hsame, hcentered⟩ |
      ⟨hacc, e, herror⟩
    · have hscan := hacc.scannable
      refine .inr ⟨vals', hok, ?_, fun w => ?_, hcentered⟩
      · exact Sorted.of_strip hsame (List.Pairwise.filter _
          (ascending_overlay (List.Pairwise.filter _ hscan.sorted) h.sorted))
      · rw [hsame, mem_map]
        simp only [mem_changedList h.sorted hscan, asked_perm vals hperm]
    · refine .inl ⟨?_, e, herror⟩
      rw [haccepted, not_and] at hacc
      exact hcond.elim id fun hfits => by_contra fun hrefuse => hacc hrefuse hfits

/-- Two validators whose powers add up to the greatest total. -/
def fullSet : ValidatorSet :=
  ⟨[⟨1, [1], 1, 0⟩, ⟨2, [2], maxTotalVotingPower - 1, 0⟩], none, maxTotalVotingPower⟩

theorem fullSet_ready : fullSet.Ready where
  sorted := by simp [Sorted, Ascending, fullSet]; decide
  powers := by simp [fullSet, maxTotalVotingPower_eq]
  total := by decide
  bounded := le_rfl
  priorities := by simp [fullSet]

theorem sorts_stableSort : Sorts (stableSort address) := fun l =>
  ⟨stableSort_perm _ l, pairwise_insertionSort _ l⟩

theorem meets_lower : Meets (stableSort Validator.address) fullSet [⟨2, [2], 5, 0⟩] :=
  (meets_iff _ sorts_stableSort fullSet fullSet_ready [⟨2, [2], 5, 0⟩] (by simp)).mpr
    (.inr (by unfold Fits; decide))

/-- One unit of power goes from the second validator to the first. -/
def transfer : List Validator := [⟨1, [1], 2, 0⟩, ⟨2, [2], maxTotalVotingPower - 2, 0⟩]

/-- The total after both updates is the same, but that between them is too high. -/
theorem not_meets_transfer : fullSet.Ready ∧
    ¬ Meets (stableSort Validator.address) fullSet transfer := by
  refine ⟨fullSet_ready, fun hmeets => ?_⟩
  have hrun : ∃ e, updateWithChangeSet (stableSort Validator.address) true transfer fullSet =
      (fullSet, .error (.error e)) := ⟨.exceeds ⟨1, [1], 2, 0⟩, rfl⟩
  rcases hmeets.outcome with ⟨hrefuse, -⟩ | ⟨vals', hok, -⟩
  · rcases hrefuse with hdistinct | ⟨c, hc, hrange⟩ | ⟨c, hc, hzero, -⟩ | hnone | htotal
    · exact hdistinct (by unfold DistinctAddresses; decide)
    · revert c
      unfold InRange
      decide
    · revert c
      decide
    · exact hnone ⟨1, [1], 2, 0⟩ (.inl ⟨by simp [transfer], by simp⟩)
    · revert htotal
      decide
  · obtain ⟨e, herror⟩ := hrun
    rw [hok] at herror
    cases herror

end ValidatorSet

end Heimdall

end Erigon
