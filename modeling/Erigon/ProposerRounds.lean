/-
The rounds of a validator set.  A round is a turn of a weighted rotation in which the validator of
the most priority pays the total, so the priorities stay within the bounds of the rotation, no
addition or subtraction is clipped, and each validator proposes in proportion to its power up to a
constant.
-/
import Erigon.ValidatorPriorities
import Erigon.WeightedRotation

namespace Erigon

open List

namespace Heimdall

open Validator

open WeightedRotation

def DistinctAddresses (vs : List Validator) : Prop := vs.Pairwise fun u w => u.address ≠ w.address

variable {vs : List Validator}

theorem DistinctAddresses.index_eq (h : DistinctAddresses vs) {i k : Nat} {v w : Validator}
    (hv : vs[i]? = some v) (hw : vs[k]? = some w) (heq : v.address = w.address) : i = k := by
  have hi := (List.getElem?_eq_some_iff.mp hv).1
  refine (getElem?_inj (l := vs.map address) (by simpa using hi) (pairwise_map.mpr h)).mp ?_
  rw [getElem?_map, getElem?_map, hv, hw, Option.map_some, Option.map_some, heq]

/-- A number of the validator at a place of the list. -/
def entryAt (f : Validator → Int) (vs : List Validator) (i : Nat) : ℚ := ((vs[i]?.map f).getD 0 : Int)

theorem entryAt_of_getElem? {f : Validator → Int} {i : Nat} {v : Validator} (h : vs[i]? = some v) :
    entryAt f vs i = f v := by
  simp [entryAt, h]

theorem sum_entryAt (f : Validator → Int) (vs : List Validator) :
    ∑ i ∈ Finset.range vs.length, entryAt f vs i = ((vs.map f).sum : Int) := by
  induction vs with
  | nil => simp
  | cons v vs ih =>
    have hshift : ∀ i ∈ Finset.range vs.length,
        entryAt f (v :: vs) (i + 1) = entryAt f vs i := fun i _ => by simp [entryAt]
    rw [length_cons, Finset.sum_range_succ', Finset.sum_congr rfl hshift, ih]
    simp [entryAt, add_comm]

theorem exists_getElem?_of_lt {i : Nat} (h : i < vs.length) : ∃ v, vs[i]? = some v ∧ v ∈ vs :=
  ⟨vs[i], getElem?_eq_getElem h, getElem_mem h⟩

theorem forall_entryAt {f : Validator → Int} {P : ℚ → Prop} (h : ∀ v ∈ vs, P (f v)) :
    ∀ i ∈ Finset.range vs.length, P (entryAt f vs i) := by
  intro i hi
  obtain ⟨v, hv, hmem⟩ := exists_getElem?_of_lt (Finset.mem_range.mp hi)
  rw [entryAt_of_getElem? hv]
  exact h v hmem

/-- The list after a turn in which the validator at a place pays. -/
def turnList (power : Int) (i : Nat) (vs : List Validator) : List Validator :=
  vs.mapIdx fun k v =>
    { v with
      proposerPriority := v.proposerPriority + v.votingPower - if k = i then power else 0 }

theorem length_turnList (power : Int) (i : Nat) (vs : List Validator) :
    (turnList power i vs).length = vs.length := by
  simp [turnList]

theorem map_turnList {B : Type} (power : Int) (i : Nat) (vs : List Validator) (f : Validator → B)
    (hf : ∀ v p, f { v with proposerPriority := p } = f v) :
    (turnList power i vs).map f = vs.map f := by
  refine ext_getElem? fun k => ?_
  rw [getElem?_map, getElem?_map, turnList, getElem?_mapIdx, Option.map_map]
  congr 1
  funext v
  exact hf v _

theorem entryAt_turnList {power : Int} {i k : Nat} (hk : k < vs.length) :
    entryAt proposerPriority (turnList power i vs) k =
      turn (entryAt votingPower vs) power i
        (entryAt proposerPriority vs) k := by
  obtain ⟨v, hv, -⟩ := exists_getElem?_of_lt hk
  rw [turn, entryAt_of_getElem? hv, entryAt_of_getElem? hv, entryAt, turnList, getElem?_mapIdx, hv]
  by_cases hki : k = i
  · simp [hki]
  · simp [hki]

namespace ValidatorSet

/-! ### The proposer of a round -/

theorem cmp_spec {v other : Validator × Nat} (hne : v.1.address ≠ other.1.address) :
    ∃ r, cmp (some v) other = .ok r ∧ [r].Sublist [v, other] ∧
      v.1.proposerPriority ≤ r.1.proposerPriority ∧
      other.1.proposerPriority ≤ r.1.proposerPriority := by
  rw [cmp]
  split
  · rename_i hgt
    exact ⟨v, rfl, by simp, le_rfl, by omega⟩
  · split
    · rename_i hlt
      exact ⟨other, rfl, by simp, by omega, le_rfl⟩
    · have heq : v.1.proposerPriority = other.1.proposerPriority := by omega
      split
      · exact ⟨v, rfl, by simp, le_rfl, heq.ge⟩
      · exact ⟨other, rfl, by simp, heq.le, le_rfl⟩

theorem mostPriority_spec {l : List (Validator × Nat)} {res : Validator × Nat}
    (hdistinct : (res :: l).Pairwise fun a b => a.1.address ≠ b.1.address) :
    ∃ r, mostPriority (some res) l = .ok (some r) ∧ r ∈ res :: l ∧
      ∀ w ∈ res :: l, w.1.proposerPriority ≤ r.1.proposerPriority := by
  induction l generalizing res with
  | nil => exact ⟨res, rfl, mem_cons_self, by simp⟩
  | cons v l ih =>
    obtain ⟨r, hcmp, hr, hle, hle'⟩ :=
      cmp_spec ((pairwise_cons.mp hdistinct).1 v mem_cons_self)
    have hsub : (r :: l).Sublist (res :: v :: l) := hr.append (.refl l)
    obtain ⟨m, hmost, hmem, hall⟩ := ih (hdistinct.sublist hsub)
    refine ⟨m, ?_, hsub.subset hmem, ?_⟩
    · rw [mostPriority, hcmp]
      exact hmost
    · have hm := hall r mem_cons_self
      refine forall_mem_cons.mpr ⟨hle.trans hm, forall_mem_cons.mpr ⟨hle'.trans hm, ?_⟩⟩
      exact fun w hw => hall w (mem_cons_of_mem r hw)

variable {vs ms : List Validator}

/-- The validator that is chosen has the most priority. -/
theorem getValWithMostPriority_spec (hne : vs ≠ []) (hdistinct : DistinctAddresses vs) :
    ∃ m i, getValWithMostPriority vs = .ok (some (m, i)) ∧ vs[i]? = some m ∧
      ∀ w ∈ vs, w.proposerPriority ≤ m.proposerPriority := by
  have hpairs : vs.zipIdx.Pairwise fun a b => a.1.address ≠ b.1.address := by
    rw [← zipIdx_map_fst 0 vs, DistinctAddresses, pairwise_map] at hdistinct
    exact hdistinct
  rw [getValWithMostPriority]
  cases hzip : vs.zipIdx with
  | nil => exact absurd (by simpa using congrArg List.length hzip) hne
  | cons res l =>
    rw [hzip] at hpairs
    obtain ⟨r, hmost, hmem, hall⟩ := mostPriority_spec hpairs
    refine ⟨r.1, r.2, hmost, mem_zipIdx_iff_getElem?.mp (hzip ▸ hmem), fun w hw => ?_⟩
    obtain ⟨i, hi⟩ := getElem?_of_mem hw
    exact hall (w, i) (hzip ▸ mem_zipIdx_iff_getElem?.mpr hi)

/-- What does not change in the rounds. -/
structure Standing (vals : ValidatorSet) (power : Int) : Prop where
  ne : vals.validators ≠ []
  distinct : DistinctAddresses vals.validators
  powers : ∀ v ∈ vals.validators, 0 < v.votingPower
  total : powerSum vals.validators = power
  bounded : power ≤ maxTotalVotingPower
  cached : vals.Cached

variable {vals s : ValidatorSet} {power : Int}

theorem Standing.pos (h : vals.Standing power) : 0 < power := by
  rw [← h.total, powerSum]
  refine sum_pos _ (by simpa using h.powers) ?_
  simpa using h.ne

variable {v : Validator}

theorem Standing.votingPower_le (h : vals.Standing power) (hv : v ∈ vals.validators) :
    v.votingPower ≤ power := by
  rw [← h.total, powerSum]
  refine single_le_sum ?_ _ (mem_map_of_mem hv)
  simpa using fun w hw => (h.powers w hw).le

variable {i n : Nat}

theorem most_entryAt (hv : vs[i]? = some v) (hmost : ∀ w ∈ vs,
      w.proposerPriority + w.votingPower ≤ v.proposerPriority + v.votingPower) :
    ∀ k ∈ Finset.range vs.length,
      entryAt proposerPriority vs k + entryAt votingPower vs k ≤
        entryAt proposerPriority vs i + entryAt votingPower vs i := by
  intro k hk
  obtain ⟨w, hw, hmem⟩ := exists_getElem?_of_lt (Finset.mem_range.mp hk)
  rw [entryAt_of_getElem? hv, entryAt_of_getElem? hv, entryAt_of_getElem? hw,
    entryAt_of_getElem? hw]
  exact_mod_cast hmost w hmem

theorem mem_range_of_getElem? (hv : vs[i]? = some v) : i ∈ Finset.range vs.length :=
  Finset.mem_range.mpr (List.getElem?_eq_some_iff.mp hv).1

theorem Standing.sum_entryAt_votingPower (h : vals.Standing power) :
    ∑ i ∈ Finset.range vals.validators.length, entryAt votingPower vals.validators i =
      (power : ℚ) := by
  rw [sum_entryAt, ← h.total]
  rfl

theorem sum_entryAt_nonneg (h : 0 ≤ prioritySum vs) :
    0 ≤ ∑ i ∈ Finset.range vs.length, entryAt proposerPriority vs i := by
  rw [sum_entryAt]
  exact_mod_cast h

/-- One round, if nothing is clipped. -/
theorem incrementProposerPriority_spec (h : vals.Standing power)
    (hlow : ∀ v ∈ vals.validators, -2 * power ≤ v.proposerPriority)
    (hhigh : ∀ v ∈ vals.validators, v.proposerPriority + v.votingPower ≤ maxInt64)
    (hsum : 0 ≤ prioritySum vals.validators) :
    (∀ v ∈ vals.validators, safeAdd v.proposerPriority v.votingPower =
      (v.proposerPriority + v.votingPower, false)) ∧
    ∃ v m i s, vals.validators[i]? = some v ∧
      m = { v with proposerPriority := v.proposerPriority + v.votingPower } ∧
      getValWithMostPriority vals.addPowers.validators = .ok (some (m, i)) ∧
      safeSub m.proposerPriority power = (m.proposerPriority - power, false) ∧
      (∀ w ∈ vals.validators,
        w.proposerPriority + w.votingPower ≤ v.proposerPriority + v.votingPower) ∧
      vals.incrementProposerPriority =
        .ok (s, { m with proposerPriority := m.proposerPriority - power }) ∧
      s.validators = turnList power i vals.validators ∧ s.totalVotingPower = power := by
  have hpos := h.pos
  have hbounded := h.bounded
  rw [maxTotalVotingPower_eq] at hbounded
  have hpower (v : Validator) (hv : v ∈ vals.validators) : InInt64 v.votingPower := by
    have := h.votingPower_le hv
    have := h.powers v hv
    rw [inInt64_iff]
    omega
  have hadd (v : Validator) (hv : v ∈ vals.validators) :
      InInt64 (v.proposerPriority + v.votingPower) := by
    have := hlow v hv
    have := h.powers v hv
    refine ⟨?_, hhigh v hv⟩
    rw [minInt64]
    omega
  refine ⟨fun v hv => safeAdd_eq (hpower v hv) (hadd v hv), ?_⟩
  have hadded : vals.addPowers =
      vals.mapPriority fun v => v.proposerPriority + v.votingPower :=
    mapPriority_congr fun v hv => safeAddClip_eq (hpower v hv) (hadd v hv)
  rw [incrementProposerPriority, hadded]
  set added := vals.mapPriority fun v => v.proposerPriority + v.votingPower with hdef
  have hne : added.validators ≠ [] := by
    simpa [hdef] using h.ne
  have hdistinct : DistinctAddresses added.validators := by
    rw [DistinctAddresses, hdef, mapPriority_validators, pairwise_map]
    exact h.distinct
  obtain ⟨m, i, hget, hm, hmost⟩ := getValWithMostPriority_spec hne hdistinct
  rw [hdef, mapPriority_validators, getElem?_map, Option.map_eq_some_iff] at hm
  obtain ⟨v, hv, rfl⟩ := hm
  have hmost' (w : Validator) (hw : w ∈ vals.validators) :
      w.proposerPriority + w.votingPower ≤ v.proposerPriority + v.votingPower :=
    hmost _ (mem_map_of_mem hw)
  have hvmem := mem_of_getElem? hv
  have hnonneg : 0 ≤ v.proposerPriority + v.votingPower := by
    have hmost'' := nonneg_most h.sum_entryAt_votingPower (mem_range_of_getElem? hv)
      (most_entryAt hv hmost') (by exact_mod_cast hpos.le) (sum_entryAt_nonneg hsum)
    rw [entryAt_of_getElem? hv, entryAt_of_getElem? hv] at hmost''
    exact_mod_cast hmost''
  have hsub : InInt64 (v.proposerPriority + v.votingPower - power) := by
    have := hhigh v hvmem
    refine ⟨?_, by omega⟩
    rw [minInt64]
    omega
  have hpowerIn : InInt64 power := by
    rw [inInt64_iff]
    omega
  have htotal : added.total =
      ({ added with totalVotingPower := power }, .ok power) := by
    have hsame : powerSum added.validators = power := by
      rw [← h.total, powerSum, hdef, mapPriority_validators, map_map]
      rfl
    rw [← hsame]
    refine total_eq ?_ (by rw [hsame]; exact h.bounded) ?_
    · intro w hw
      obtain ⟨u, hu, rfl⟩ := mem_map.mp hw
      exact h.powers u hu
    · rw [Cached, hsame, ← h.total]
      exact h.cached
  refine ⟨v, _, i, { added with
      totalVotingPower := power
      validators := added.validators.set i { v with
        proposerPriority := v.proposerPriority + v.votingPower - power } },
    hv, rfl, hget, safeSub_eq hpowerIn hsub, hmost', ?_, ?_, rfl⟩
  · dsimp only
    rw [hget]
    simp only [bind, Except.bind, htotal, safeSubClip_eq hpowerIn hsub]
    rfl
  · refine ext_getElem? fun k => ?_
    rw [turnList, getElem?_mapIdx, getElem?_set, hdef, mapPriority_validators,
      getElem?_map, length_map]
    by_cases hk : i = k
    · subst hk
      rw [hv, if_pos rfl, if_pos (List.getElem?_eq_some_iff.mp hv).1]
      simp
    · have hk' : ¬ k = i := fun heq => hk heq.symm
      simp [hk, hk']

/-! ### All rounds -/

theorem Standing.of_strip (h : vals.Standing power)
    (hsame : s.validators.map strip = vals.validators.map strip)
    (hcached : s.totalVotingPower = power ∨ s.totalVotingPower = 0) : s.Standing power := by
  have haddresses := map_eq_of_strip hsame (f := address) fun _ _ => rfl
  have hpowers := map_eq_of_strip hsame (f := votingPower) fun _ _ => rfl
  have htotal : powerSum s.validators = power := by
    rw [← h.total, powerSum, hpowers]
    rfl
  refine ⟨?_, ?_, ?_, htotal, h.bounded, by rwa [Cached, htotal]⟩
  · intro hnil
    rw [hnil] at hpowers
    exact h.ne (map_eq_nil_iff.mp hpowers.symm)
  · have hdistinct := h.distinct
    rw [DistinctAddresses, ← pairwise_map (R := (· ≠ ·))] at hdistinct ⊢
    rw [haddresses]
    exact hdistinct
  · intro v hv
    have hmem : v.votingPower ∈ vals.validators.map votingPower :=
      hpowers ▸ mem_map_of_mem hv
    obtain ⟨w, hw, heq⟩ := mem_map.mp hmem
    exact heq ▸ h.powers w hw

theorem exists_of_strip {us : List Validator} (h : us.map strip = vs.map strip)
    (hv : vs[i]? = some v) :
    ∃ u, us[i]? = some u ∧ u ∈ us ∧ u.address = v.address ∧ u.votingPower = v.votingPower := by
  have hat := congrArg (fun l => l[i]?) h
  simp only [getElem?_map, hv, Option.map_some, Option.map_eq_some_iff] at hat
  obtain ⟨u, hu, hstrip⟩ := hat
  obtain ⟨-, haddress, hpower, -⟩ : u.id = v.id ∧ u.address = v.address ∧
      u.votingPower = v.votingPower ∧ (0 : Int) = 0 := Validator.mk.inj hstrip
  exact ⟨u, hu, mem_of_getElem? hu, haddress, hpower⟩

/-- How often a validator was the proposer. -/
def timesChosen (ms : List Validator) (address : Bytes) : Nat :=
  ms.countP fun m => decide (m.address = address)

/-- The set after some rounds with their proposers. -/
structure Running (start : ValidatorSet) (power : Int) (s : ValidatorSet) (ms : List Validator) :
    Prop where
  same : s.validators.map strip = start.validators.map strip
  cached : s.totalVotingPower = power ∨ s.totalVotingPower = 0
  low : ∀ v ∈ s.validators, -2 * power ≤ v.proposerPriority
  capped : Capped (Finset.range s.validators.length) power 2
    (entryAt Validator.proposerPriority s.validators)
  sum : prioritySum s.validators = prioritySum start.validators
  share : ∀ (i : Nat) (u v : Validator), start.validators[i]? = some u → s.validators[i]? = some v →
    v.proposerPriority =
      u.proposerPriority + ms.length * u.votingPower - power * timesChosen ms u.address

variable {start : ValidatorSet}

/-- The bound of the rotation leaves room for the addition of a round. -/
theorem Running.high (h : Running start power s ms)
    (hstanding : s.Standing power) (hv : v ∈ s.validators) :
    (v.proposerPriority + v.votingPower : ℚ) ≤ power * (2 + harmonic s.validators.length) := by
  obtain ⟨i, hi⟩ := getElem?_of_mem hv
  have hcap := h.capped.le (mem_range_of_getElem? hi)
  rw [entryAt_of_getElem? hi, Finset.card_range] at hcap
  have hpower : (v.votingPower : ℚ) ≤ power := by exact_mod_cast hstanding.votingPower_le hv
  linarith

section

variable (hstart : start.Standing power) (hsum : 0 ≤ prioritySum start.validators)
  (hsmall : (power : ℚ) * (2 + harmonic start.validators.length) < 2 ^ 63)

include hstart hsum hsmall

theorem running_step (h : Running start power s ms) :
    (∀ v ∈ s.validators, safeAdd v.proposerPriority v.votingPower =
      (v.proposerPriority + v.votingPower, false)) ∧
    (∃ m i, getValWithMostPriority s.addPowers.validators = .ok (some (m, i)) ∧
      safeSub m.proposerPriority power = (m.proposerPriority - power, false)) ∧
    ∃ s' m, s.incrementProposerPriority = .ok (s', m) ∧ Running start power s' (ms ++ [m]) := by
  have hstanding := hstart.of_strip h.same h.cached
  have hlength : s.validators.length = start.validators.length := by
    simpa using congrArg List.length h.same
  have hhigh (v : Validator) (hv : v ∈ s.validators) :
      v.proposerPriority + v.votingPower ≤ maxInt64 := by
    have hle := h.high hstanding hv
    rw [hlength] at hle
    have hlt : ((v.proposerPriority + v.votingPower : Int) : ℚ) < ((2 ^ 63 : Int) : ℚ) := by
      push_cast
      linarith
    have hlt' : v.proposerPriority + v.votingPower < 2 ^ 63 := by exact_mod_cast hlt
    rw [maxInt64]
    omega
  obtain ⟨hadd, v, m, i, s', hv, rfl, hget, hsub, hmost, hincr, hlist, htotal⟩ :=
    incrementProposerPriority_spec hstanding h.low hhigh (h.sum ▸ hsum)
  refine ⟨hadd, ⟨_, i, hget, hsub⟩, s', _, hincr, ?_⟩
  have hpos : (0 : ℚ) ≤ power := by exact_mod_cast hstanding.pos.le
  have hweight : ∀ k ∈ Finset.range s.validators.length,
      0 ≤ entryAt votingPower s.validators k :=
    forall_entryAt fun w hw => by exact_mod_cast (hstanding.powers w hw).le
  have hmem := mem_range_of_getElem? hv
  have hmost' := most_entryAt hv hmost
  have hentry {k : Nat} (hk : k ∈ Finset.range s.validators.length) :
      entryAt proposerPriority s'.validators k =
        turn (entryAt votingPower s.validators) power i
          (entryAt proposerPriority s.validators) k := by
    rw [hlist]
    exact entryAt_turnList (Finset.mem_range.mp hk)
  have hlength' : s'.validators.length = s.validators.length := by
    rw [hlist, length_turnList]
  refine ⟨?_, .inl htotal, ?_, ?_, ?_, ?_⟩
  · rw [hlist, map_turnList power i s.validators strip fun _ _ => rfl]
    exact h.same
  · intro w hw
    obtain ⟨k, hk⟩ := getElem?_of_mem hw
    have hkmem : k ∈ Finset.range s.validators.length := hlength' ▸ mem_range_of_getElem? hk
    have hlow : ∀ k ∈ Finset.range s.validators.length,
        (-2 * power : ℚ) ≤ entryAt proposerPriority s.validators k :=
      forall_entryAt fun u hu => by exact_mod_cast h.low u hu
    have hle := le_turn hweight hstanding.sum_entryAt_votingPower hmem hmost' hpos
      (sum_entryAt_nonneg (h.sum ▸ hsum)) (by linarith) hlow hkmem
    rw [← hentry hkmem, entryAt_of_getElem? hk] at hle
    exact_mod_cast hle
  · rw [hlength']
    exact (h.capped.turn hweight hstanding.sum_entryAt_votingPower hmem hmost').congr
      fun k hk => hentry hk
  · have hsum' : (prioritySum s'.validators : ℚ) = prioritySum s.validators := by
      rw [prioritySum, prioritySum, ← sum_entryAt, ← sum_entryAt, hlength',
        Finset.sum_congr rfl fun k hk => hentry hk, sum_turn, if_pos hmem,
        hstanding.sum_entryAt_votingPower]
      ring
    rw [← h.sum]
    exact_mod_cast hsum'
  · intro k u w hu hw
    rw [hlist, turnList, getElem?_mapIdx, Option.map_eq_some_iff] at hw
    obtain ⟨x, hx, rfl⟩ := hw
    have hshare := h.share k u x hu hx
    obtain ⟨y, hy, -, haddress, hpower⟩ := exists_of_strip h.same hu
    obtain rfl : x = y := Option.some.inj (hx.symm.trans hy)
    have hchosen : v.address = u.address ↔ k = i := by
      rw [← haddress]
      constructor
      · exact fun heq => (hstanding.distinct.index_eq hv hx heq).symm
      · rintro rfl
        rw [hv] at hx
        cases hx
        rfl
    rw [timesChosen, countP_append, countP_singleton, length_append, length_singleton]
    dsimp only
    rw [hshare, hpower, timesChosen]
    by_cases hk : k = i
    · rw [if_pos hk, if_pos (by simpa using hchosen.mpr hk)]
      push_cast
      ring
    · rw [if_neg hk, if_neg (by simpa using fun heq => hk (hchosen.mp heq))]
      push_cast
      ring

theorem running_rounds (h : Running start power start []) (k : Nat) :
    ∃ s ms, rounds k start = .ok (s, ms) ∧ ms.length = k ∧ Running start power s ms := by
  induction k with
  | zero => exact ⟨start, [], rfl, rfl, h⟩
  | succ k ih =>
    obtain ⟨s, ms, hrounds, hlength, hrunning⟩ := ih
    obtain ⟨-, -, s', m, hincr, hnext⟩ := running_step hstart hsum hsmall hrunning
    refine ⟨s', ms ++ [m], ?_, by simp [hlength], hnext⟩
    rw [rounds, hrounds]
    simp only [bind, Except.bind, hincr]
    rfl

end

/-- Scaling and centering of a set with priorities that do not wrap around. -/
theorem normalize_spec (h : vals.Standing power)
    (hin : ∀ v ∈ vals.validators, InInt64 v.proposerPriority)
    (hspread : Spread vals.validators (maxInt64 - 2 * power)) :
    ∃ scaled start : ValidatorSet,
      rescalePriorities { vals with totalVotingPower := power } (2 * power) = .ok scaled ∧
      (∀ v ∈ scaled.validators, safeSub v.proposerPriority (average scaled.validators) =
        (v.proposerPriority - average scaled.validators, false)) ∧
      scaled.shiftByAvgProposerPriority = .ok start ∧ vals.normalize = .ok start ∧
      start.validators.map strip = vals.validators.map strip ∧ start.totalVotingPower = power ∧
      start.proposer = vals.proposer ∧ Spread start.validators (2 * power) ∧
      (∀ v ∈ start.validators,
        -2 * power ≤ v.proposerPriority ∧ v.proposerPriority ≤ 2 * power) ∧
      0 ≤ prioritySum start.validators ∧ prioritySum start.validators < start.validators.length := by
  have hpos := h.pos
  have hbounded := h.bounded
  rw [maxTotalVotingPower_eq] at hbounded
  have hne : { vals with totalVotingPower := power }.validators ≠ [] := h.ne
  obtain ⟨f, hscale, hbetween, hwindow⟩ :=
    rescalePriorities_spec hne (d := 2 * power) (by omega) hin hspread
  set scaled := mapPriority { vals with totalVotingPower := power } f with hscaled
  have hscaledIn : ∀ v ∈ scaled.validators, InInt64 v.proposerPriority := by
    intro v hv
    obtain ⟨u, hu, rfl⟩ := mem_map.mp hv
    have hb := hbetween u hu
    have hu' := hin u hu
    rw [InInt64, minInt64, maxInt64] at hu' ⊢
    dsimp only
    omega
  have hscaledSpread : Spread scaled.validators (2 * power) := by
    intro u hu w hw
    obtain ⟨u', hu', rfl⟩ := mem_map.mp hu
    obtain ⟨w', hw', rfl⟩ := mem_map.mp hw
    exact hwindow u' hu' w' hw'
  have hscaledNe : scaled.validators ≠ [] := by
    simpa [hscaled] using h.ne
  obtain ⟨hsub, hshift, hbounds, hnonneg, hlt⟩ := shiftByAvgProposerPriority_spec hscaledNe
    (by rw [maxInt64]; omega) hscaledIn hscaledSpread
  have hsum : prioritySum (scaled.mapPriority fun v =>
        v.proposerPriority - average scaled.validators).validators =
      prioritySum scaled.validators - scaled.validators.length * average scaled.validators :=
    prioritySum_map_sub _ _
  refine ⟨scaled, scaled.mapPriority fun v => v.proposerPriority - average scaled.validators,
    hscale, hsub, hshift, ?_, ?_, rfl, rfl, ?_, ?_, ?_, ?_⟩
  · have htotal := total_eq h.powers (by rw [h.total]; exact h.bounded) h.cached
    have hwide : int64 (priorityWindowSizeFactor * power) = 2 * power :=
      int64_eq (inInt64_iff.mpr (by rw [priorityWindowSizeFactor]; omega))
    rw [h.total] at htotal
    rw [normalize, htotal]
    dsimp only
    rw [hwide, hscale]
    exact hshift
  · rw [mapPriority_validators, hscaled, mapPriority_validators, map_map, map_map]
    rfl
  · intro u hu w hw
    obtain ⟨u', hu', rfl⟩ := mem_map.mp hu
    obtain ⟨w', hw', rfl⟩ := mem_map.mp hw
    have := hscaledSpread u' hu' w' hw'
    dsimp only
    omega
  · intro v hv
    obtain ⟨u, hu, rfl⟩ := mem_map.mp hv
    have := hbounds u hu
    dsimp only
    omega
  · rw [hsum]
    exact hnonneg
  · have hlength : (scaled.mapPriority fun v =>
        v.proposerPriority - average scaled.validators).validators.length =
        scaled.validators.length := length_map _
    rw [hsum, hlength]
    exact hlt

theorem harmonic_le_six (hn : n ≤ 200) : harmonic n ≤ 6 := by
  have hmono := harmonic_mono hn
  have hlast : harmonic 200 ≤ 6 := by decide +kernel
  exact hmono.trans hlast

theorem total_mul_lt (h : vals.Standing power) (hn : n ≤ 200) :
    (power : ℚ) * (2 + harmonic n) < 2 ^ 63 := by
  have hharmonic := harmonic_le_six hn
  have hpos : (0 : ℚ) < power := by exact_mod_cast h.pos
  have hbounded : (power : ℚ) ≤ 2 ^ 60 - 1 := by
    have hle := h.bounded
    rw [maxTotalVotingPower_eq] at hle
    exact_mod_cast hle
  calc (power : ℚ) * (2 + harmonic n) ≤ power * 8 := by
        exact mul_le_mul_of_nonneg_left (by linarith) hpos.le
    _ < 2 ^ 63 := by linarith

/-- The share of a validator in the rounds, from the bounds on its priorities. -/
theorem share_bounds {k weight p q chosen : Int} {h : ℚ} (hpos : 0 < power)
    (heq : q = p + k * weight - power * chosen) (hp : -2 * power ≤ p ∧ p ≤ 2 * power)
    (hlow : -2 * power ≤ q) (hhigh : (q : ℚ) ≤ power * (2 + h)) :
    -4 ≤ (k * weight / power - chosen : ℚ) ∧ (k * weight / power - chosen : ℚ) ≤ 4 + h := by
  have hpos' : (0 : ℚ) < power := by exact_mod_cast hpos
  have hdiff : (k * weight / power - chosen : ℚ) = (q - p) / power := by
    rw [heq]
    push_cast
    field_simp
    ring
  have hp1 : (-2 * power : ℚ) ≤ p := by exact_mod_cast hp.1
  have hp2 : (p : ℚ) ≤ 2 * power := by exact_mod_cast hp.2
  have hq : (-2 * power : ℚ) ≤ q := by exact_mod_cast hlow
  rw [hdiff, le_div_iff₀ hpos', div_le_iff₀ hpos']
  constructor
  · linarith
  · linarith

/-- Of a set with priorities that do not wrap around, `IncrementProposerPriority` clips nothing.
Before the first round the priorities are within twice the total, later within the bounds of the
rotation; the sum is the same after each round, and after any number of rounds each validator was
chosen as often as its power demands, up to a constant. -/
theorem incrementProposerPriority_fair (vals : ValidatorSet) (power : Int)
    (h : vals.Standing power) (hin : ∀ v ∈ vals.validators, InInt64 v.proposerPriority)
    (hspread : ∀ u ∈ vals.validators, ∀ w ∈ vals.validators,
      u.proposerPriority - w.proposerPriority + 2 * power < 2 ^ 63)
    (hsmall : vals.validators.length ≤ 200 ∨
      (power : ℚ) * (2 + harmonic vals.validators.length) < 2 ^ 63)
    (times : Int) (htimes : 1 ≤ times) :
    ∃ scaled start : ValidatorSet,
      rescalePriorities { vals with totalVotingPower := power } (2 * power) = .ok scaled ∧
      (∀ v ∈ scaled.validators, safeSub v.proposerPriority (average scaled.validators) =
        (v.proposerPriority - average scaled.validators, false)) ∧
      vals.normalize = .ok start ∧
      (∀ v ∈ start.validators,
        -2 * power ≤ v.proposerPriority ∧ v.proposerPriority ≤ 2 * power) ∧
      0 ≤ prioritySum start.validators ∧
      prioritySum start.validators < vals.validators.length ∧
      (∀ k : Nat, k ≤ times → ∃ (s : ValidatorSet) (ms : List Validator),
        rounds k start = .ok (s, ms) ∧ ms.length = k ∧
        prioritySum s.validators = prioritySum start.validators ∧
        (∀ v ∈ s.validators, -2 * power ≤ v.proposerPriority ∧
          safeAdd v.proposerPriority v.votingPower =
            (v.proposerPriority + v.votingPower, false) ∧
          -2 * power ≤ v.proposerPriority + v.votingPower ∧
          (v.proposerPriority : ℚ) ≤ power * (2 + harmonic vals.validators.length) ∧
          (v.proposerPriority + v.votingPower : ℚ) ≤
            power * (2 + harmonic vals.validators.length)) ∧
        (∃ m i, getValWithMostPriority s.addPowers.validators = .ok (some (m, i)) ∧
          safeSub m.proposerPriority power = (m.proposerPriority - power, false)) ∧
        ∀ v ∈ vals.validators,
          -4 ≤ (k * v.votingPower / power - timesChosen ms v.address : ℚ) ∧
          (k * v.votingPower / power - timesChosen ms v.address : ℚ) ≤
            4 + harmonic vals.validators.length) ∧
      ∃ s ms, rounds times.toNat start = .ok (s, ms) ∧
        vals.incrementProposerPriorityTimes times = .ok { s with proposer := ms.getLast? } := by
  have hspread' : Spread vals.validators (maxInt64 - 2 * power) := fun u hu w hw => by
    have := hspread u hu w hw
    rw [maxInt64]
    omega
  obtain ⟨scaled, start, hscale, hsub, -, hnormalize, hsame, htotal, -, -, hbounds, hnonneg, hlt⟩ :=
    normalize_spec h hin hspread'
  have hstart := h.of_strip hsame (.inl htotal)
  have hlength : start.validators.length = vals.validators.length := by
    simpa using congrArg List.length hsame
  have hsmall' : (power : ℚ) * (2 + harmonic start.validators.length) < 2 ^ 63 := by
    rw [hlength]
    exact hsmall.elim (total_mul_lt h) id
  have hrunning : Running start power start [] :=
    { same := rfl
      cached := .inl htotal
      low := fun v hv => (hbounds v hv).1
      capped := by
        refine capped_of_le (by exact_mod_cast hstart.pos.le)
          (forall_entryAt (P := (· ≤ _)) fun v hv => ?_)
        exact_mod_cast (hbounds v hv).2
      sum := rfl
      share := fun i u v hu hv => by
        rw [hu] at hv
        cases hv
        simp [timesChosen] }
  have hrounds := running_rounds hstart hnonneg hsmall' hrunning
  refine ⟨scaled, start, hscale, hsub, hnormalize, hbounds, hnonneg, hlength ▸ hlt, ?_, ?_⟩
  · intro k _
    obtain ⟨s, ms, hk, hms, hrun⟩ := hrounds k
    have hstanding := hstart.of_strip hrun.same hrun.cached
    obtain ⟨hadd, hmost, -⟩ := running_step hstart hnonneg hsmall' hrun
    have hlength' : s.validators.length = vals.validators.length := by
      rw [← hlength]
      simpa using congrArg List.length hrun.same
    refine ⟨s, ms, hk, hms, hrun.sum, fun v hv => ?_, hmost, fun v hv => ?_⟩
    · have hlow := hrun.low v hv
      have hpower := hstanding.powers v hv
      have hhigh := hrun.high hstanding hv
      have hpower' : (0 : ℚ) < v.votingPower := by exact_mod_cast hpower
      rw [hlength'] at hhigh
      exact ⟨hlow, hadd v hv, by omega, by linarith, hhigh⟩
    · obtain ⟨i, hi⟩ := getElem?_of_mem hv
      obtain ⟨u, hu, humem, haddress, hpower⟩ := exists_of_strip hsame hi
      obtain ⟨w, hw, hwmem, -, -⟩ := exists_of_strip hrun.same hu
      have hshare := hrun.share i u w hu hw
      have hhigh := hrun.high hstanding hwmem
      have hpower' : (0 : ℚ) < w.votingPower := by exact_mod_cast hstanding.powers w hwmem
      rw [haddress, hpower, hms] at hshare
      rw [hlength'] at hhigh
      exact_mod_cast share_bounds h.pos hshare (hbounds u humem) (hrun.low w hwmem) (by linarith)
  · obtain ⟨s, ms, hk, -, -⟩ := hrounds times.toNat
    refine ⟨s, ms, hk, ?_⟩
    rw [incrementProposerPriorityTimes, if_neg h.ne, if_neg (by omega), hnormalize]
    simp only [bind, Except.bind, hk]
    rfl

def sampleValidators : ValidatorSet :=
  ⟨[⟨1, [1], 1, 0⟩, ⟨2, [2], 2, 9⟩], none, 3⟩

theorem incrementProposerPriority_fair_sample :
    ∃ start s ms, sampleValidators.normalize = .ok start ∧ rounds 5 start = .ok (s, ms) ∧
      -4 ≤ ((5 : Nat) * (2 : Int) / (3 : Int) - timesChosen ms [2] : ℚ) := by
  have hstanding : sampleValidators.Standing 3 :=
    { ne := by simp [sampleValidators]
      distinct := by simp [DistinctAddresses, sampleValidators]
      powers := by simp [sampleValidators]
      total := by decide
      bounded := by decide
      cached := .inl (by decide) }
  obtain ⟨-, start, -, -, hnormalize, -, -, -, hrounds, -⟩ :=
    incrementProposerPriority_fair sampleValidators 3 hstanding
      (by simp [sampleValidators, InInt64, minInt64, maxInt64]) (by simp [sampleValidators])
      (.inl (by simp [sampleValidators])) 5 (by simp)
  obtain ⟨s, ms, hk, -, -, -, -, hfair⟩ := hrounds 5 le_rfl
  exact ⟨start, s, ms, hnormalize, hk, (hfair ⟨2, [2], 2, 9⟩ (by simp [sampleValidators])).1⟩

end ValidatorSet

end Heimdall

end Erigon
