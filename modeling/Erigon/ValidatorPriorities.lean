/-
Scaling and centering the priorities of a validator set.  Afterwards no two priorities are further
apart than the window, and their sum is at least 0 and less than the number of validators; nothing
wraps around or is clipped on the way.
-/
import Erigon.ValidatorSet

namespace Erigon

open List

namespace Heimdall

variable (vs : List Validator)

/-- No two priorities are further apart. -/
def Spread (d : Int) : Prop :=
  ∀ u ∈ vs, ∀ w ∈ vs, u.proposerPriority - w.proposerPriority ≤ d

def prioritySum : Int := (vs.map Validator.proposerPriority).sum

def powerSum : Int := (vs.map Validator.votingPower).sum

theorem maxTotalVotingPower_eq : maxTotalVotingPower = 2 ^ 60 - 1 := by
  decide

namespace ValidatorSet

/-- A validator without its priority. -/
def strip (v : Validator) : Validator := { v with proposerPriority := 0 }

variable {vs : List Validator}

theorem map_eq_of_strip {B : Type} {us : List Validator} (h : vs.map strip = us.map strip)
    {f : Validator → B} (hf : ∀ v p, f { v with proposerPriority := p } = f v) :
    vs.map f = us.map f := by
  have hmap (l : List Validator) : l.map f = (l.map strip).map f := by
    rw [map_map]
    exact map_congr_left fun v _ => (hf v 0).symm
  rw [hmap vs, h, ← hmap us]

/-! ### The total -/

theorem sumPowers_eq {all : List Validator} {sum : Int} (hsum : 0 ≤ sum)
    (hpowers : ∀ v ∈ vs, 0 < v.votingPower) (hmax : sum + powerSum vs ≤ maxTotalVotingPower) :
    sumPowers all sum vs = .ok (sum + powerSum vs) := by
  induction vs generalizing sum with
  | nil => simp [sumPowers, powerSum]
  | cons v vs ih =>
    rw [forall_mem_cons] at hpowers
    have hrest : 0 ≤ powerSum vs :=
      sum_nonneg (by simpa using fun w hw => (hpowers.2 w hw).le)
    have hcons : powerSum (v :: vs) = v.votingPower + powerSum vs := by simp [powerSum]
    rw [hcons] at hmax ⊢
    have hadd : safeAddClip sum v.votingPower = sum + v.votingPower := by
      rw [maxTotalVotingPower_eq] at hmax
      refine safeAddClip_eq ?_ ?_
      · rw [inInt64_iff]
        omega
      · rw [inInt64_iff]
        omega
    rw [sumPowers, hadd, if_neg (by omega), ih (by omega) hpowers.2 (by omega), add_assoc]

/-- The total of a set is cached, or not yet. -/
def Cached (vals : ValidatorSet) : Prop :=
  vals.totalVotingPower = powerSum vals.validators ∨ vals.totalVotingPower = 0

variable {vals : ValidatorSet}

theorem total_eq (hpowers : ∀ v ∈ vals.validators, 0 < v.votingPower)
    (hmax : powerSum vals.validators ≤ maxTotalVotingPower) (hcached : vals.Cached) :
    vals.total = ({ vals with totalVotingPower := powerSum vals.validators },
      .ok (powerSum vals.validators)) := by
  rw [total]
  split
  · rw [updateTotalVotingPower, sumPowers_eq le_rfl hpowers (by omega)]
    simp
  · rename_i hne
    have heq := hcached.resolve_right hne
    rw [← heq]

/-! ### Scaling -/

theorem foldl_maxMin (vs : List Validator) (r : Int × Int) :
    ∃ hi lo, vs.foldl (fun (r : Int × Int) v =>
        (if v.proposerPriority > r.1 then v.proposerPriority else r.1,
          if v.proposerPriority < r.2 then v.proposerPriority else r.2)) r = (hi, lo) ∧
      r.1 ≤ hi ∧ lo ≤ r.2 ∧ (∀ w ∈ vs, w.proposerPriority ≤ hi ∧ lo ≤ w.proposerPriority) ∧
      (hi = r.1 ∨ ∃ u ∈ vs, u.proposerPriority = hi) ∧
      (lo = r.2 ∨ ∃ u ∈ vs, u.proposerPriority = lo) := by
  induction vs generalizing r with
  | nil => exact ⟨r.1, r.2, rfl, le_rfl, le_rfl, by simp, .inl rfl, .inl rfl⟩
  | cons v vs ih =>
    rw [foldl_cons]
    obtain ⟨hi, lo, hfold, hhi, hlo, hall, hmax, hmin⟩ := ih
      (if v.proposerPriority > r.1 then v.proposerPriority else r.1,
        if v.proposerPriority < r.2 then v.proposerPriority else r.2)
    dsimp only at hhi hlo hmax hmin
    refine ⟨hi, lo, hfold, ?_, ?_, ?_, ?_, ?_⟩
    · split at hhi <;> omega
    · split at hlo <;> omega
    · refine forall_mem_cons.mpr ⟨⟨?_, ?_⟩, hall⟩
      · split at hhi <;> omega
      · split at hlo <;> omega
    · rcases hmax with hmax | ⟨u, hu, hmax⟩
      · split at hmax
        · exact .inr ⟨v, mem_cons_self, hmax.symm⟩
        · exact .inl hmax
      · exact .inr ⟨u, mem_cons_of_mem v hu, hmax⟩
    · rcases hmin with hmin | ⟨u, hu, hmin⟩
      · split at hmin
        · exact .inr ⟨v, mem_cons_self, hmin.symm⟩
        · exact .inl hmin
      · exact .inr ⟨u, mem_cons_of_mem v hu, hmin⟩

/-- The difference is that of two of the priorities, and the greatest. -/
theorem computeMaxMinPriorityDiff_spec (hne : vs ≠ []) (hin : ∀ v ∈ vs, InInt64 v.proposerPriority)
    (hspread : Spread vs maxInt64) :
    (∃ u ∈ vs, ∃ w ∈ vs,
        computeMaxMinPriorityDiff vs = u.proposerPriority - w.proposerPriority) ∧
      Spread vs (computeMaxMinPriorityDiff vs) := by
  obtain ⟨hi, lo, hfold, -, -, hall, hmax, hmin⟩ := foldl_maxMin vs (minInt64, maxInt64)
  obtain ⟨x, hx⟩ := exists_mem_of_ne_nil vs hne
  have hmax' : ∃ u ∈ vs, u.proposerPriority = hi :=
    hmax.elim (fun heq => ⟨x, hx, le_antisymm (hall x hx).1 (heq ▸ (hin x hx).1)⟩) id
  have hmin' : ∃ w ∈ vs, w.proposerPriority = lo :=
    hmin.elim (fun heq => ⟨x, hx, le_antisymm (heq ▸ (hin x hx).2) (hall x hx).2⟩) id
  obtain ⟨u, hu, rfl⟩ := hmax'
  obtain ⟨w, hw, rfl⟩ := hmin'
  have hpos : 0 ≤ u.proposerPriority - w.proposerPriority := by
    have := (hall w hw).1
    omega
  have hdiff : computeMaxMinPriorityDiff vs = u.proposerPriority - w.proposerPriority := by
    have hle := hspread u hu w hw
    rw [computeMaxMinPriorityDiff, hfold]
    dsimp only
    rw [int64_eq ⟨by rw [minInt64]; omega, hle⟩, if_neg (by omega)]
  refine ⟨⟨u, hu, w, hw, hdiff⟩, fun a ha b hb => ?_⟩
  have := (hall a ha).1
  have := (hall b hb).2
  rw [hdiff]
  omega

variable {b d ratio : Int}

/-- Division that cuts off brings numbers together, rounding to the whole window at most. -/
theorem tdiv_sub_tdiv_le {a : Int} (hratio : 0 < ratio) (hd : 0 ≤ d) (h : a - b ≤ ratio * d) :
    a.tdiv ratio - b.tdiv ratio ≤ d := by
  have hcut (x : Int) : ratio * x.tdiv ratio + x.tmod ratio = x := Int.mul_tdiv_add_tmod x ratio
  have hneg {x : Int} (hx : x < 0) : x.tdiv ratio ≤ 0 ∧ x.tmod ratio ≤ 0 := by
    have hdiv : 0 ≤ (-x).tdiv ratio := Int.tdiv_nonneg (by omega) hratio.le
    have hmod : 0 ≤ (-x).tmod ratio := Int.tmod_nonneg ratio (by omega)
    rw [Int.neg_tdiv] at hdiv
    rw [Int.neg_tmod] at hmod
    omega
  by_cases hsigns : a < 0 ∧ 0 ≤ b
  · have ha := (hneg hsigns.1).1
    have hb : 0 ≤ b.tdiv ratio := Int.tdiv_nonneg hsigns.2 hratio.le
    omega
  · -- the rest of `b` is less than one `ratio` above that of `a`
    have hrest : b.tmod ratio - a.tmod ratio < ratio := by
      have hlow := Int.lt_tmod_of_pos a hratio
      have hhigh := Int.tmod_lt_of_pos b hratio
      by_cases ha : a < 0
      · have hb := (hneg (x := b) (by omega)).2
        omega
      · have ha' := Int.tmod_nonneg ratio (not_lt.mp ha)
        omega
    have hlt : ratio * (a.tdiv ratio - b.tdiv ratio) < ratio * (d + 1) := by
      have ha := hcut a
      have hb := hcut b
      rw [mul_sub, mul_add, mul_one]
      omega
    exact Int.lt_add_one_iff.mp (lt_of_mul_lt_mul_left hlt hratio.le)

theorem tdiv_between (a : Int) (hratio : 0 < ratio) :
    min 0 a ≤ a.tdiv ratio ∧ a.tdiv ratio ≤ max 0 a := by
  have habs := Int.natAbs_tdiv_le_natAbs a ratio
  by_cases ha : 0 ≤ a
  · have hdiv := Int.tdiv_nonneg ha hratio.le
    omega
  · have hdiv : 0 ≤ (-a).tdiv ratio := Int.tdiv_nonneg (by omega) hratio.le
    rw [Int.neg_tdiv] at hdiv
    omega

@[simp] theorem mapPriority_validators (vals : ValidatorSet) (f : Validator → Int) :
    (vals.mapPriority f).validators =
      vals.validators.map fun v => { v with proposerPriority := f v } := rfl

theorem mapPriority_self (vals : ValidatorSet) :
    vals.mapPriority Validator.proposerPriority = vals := by
  rw [mapPriority]
  simp

theorem mapPriority_congr {f g : Validator → Int} (h : ∀ v ∈ vals.validators, f v = g v) :
    vals.mapPriority f = vals.mapPriority g := by
  rw [mapPriority, mapPriority]
  congr 1
  exact map_congr_left fun v hv => by rw [h v hv]

/-- Scaling moves priorities towards 0, until they are in the window. -/
theorem rescalePriorities_spec (hne : vals.validators ≠ []) (hd : 0 < d)
    (hin : ∀ v ∈ vals.validators, InInt64 v.proposerPriority)
    (hspread : Spread vals.validators (maxInt64 - d)) :
    ∃ f : Validator → Int, vals.rescalePriorities d = .ok (vals.mapPriority f) ∧
      (∀ v ∈ vals.validators,
        min 0 v.proposerPriority ≤ f v ∧ f v ≤ max 0 v.proposerPriority) ∧
      ∀ u ∈ vals.validators, ∀ w ∈ vals.validators, f u - f w ≤ d := by
  have hspread' : Spread vals.validators maxInt64 := fun u hu w hw => by
    have := hspread u hu w hw
    omega
  obtain ⟨⟨u, hu, w, hw, hdiff⟩, hmax⟩ := computeMaxMinPriorityDiff_spec hne hin hspread'
  have hle := hspread u hu w hw
  rw [← hdiff] at hle
  have hnonneg : 0 ≤ computeMaxMinPriorityDiff vals.validators := by
    have := hmax u hu u hu
    omega
  rw [rescalePriorities, if_neg hne, if_neg (by omega)]
  dsimp only
  generalize computeMaxMinPriorityDiff vals.validators = diff at hle hnonneg hmax
  have hsum : int64 (diff + d) = diff + d :=
    int64_eq ⟨by rw [minInt64]; omega, by omega⟩
  have hpred : int64 (diff + d - 1) = diff + d - 1 :=
    int64_eq ⟨by rw [minInt64]; omega, by omega⟩
  rw [hsum, hpred]
  by_cases hgt : diff > d
  · -- `ratio` is the quotient rounded up
    have hquot : (diff + d - 1).tdiv d = (diff + d - 1) / d :=
      Int.tdiv_eq_ediv_of_nonneg (by omega)
    have hratio : 0 < (diff + d - 1).tdiv d := by
      rw [hquot]
      exact Int.le_ediv_of_mul_le hd (by omega)
    have hup : diff ≤ (diff + d - 1).tdiv d * d := by
      have hlt := Int.lt_mul_ediv_self_add (x := diff + d - 1) hd
      rw [hquot, mul_comm]
      omega
    refine ⟨fun v => v.proposerPriority.tdiv ((diff + d - 1).tdiv d), ?_, ?_, ?_⟩
    · rw [if_pos hgt, if_neg hratio.ne']
      refine congrArg Except.ok (mapPriority_congr fun v hv => int64_eq ?_)
      have hbetween := tdiv_between v.proposerPriority hratio
      have hv := hin v hv
      rw [InInt64, minInt64, maxInt64] at hv ⊢
      omega
    · exact fun v _ => tdiv_between _ hratio
    · intro u hu w hw
      have := hmax u hu w hw
      exact tdiv_sub_tdiv_le hratio hd.le (by omega)
  · refine ⟨Validator.proposerPriority, ?_, fun v _ => ⟨min_le_right _ _, le_max_right _ _⟩,
      fun u hu w hw => ?_⟩
    · rw [if_neg hgt, mapPriority_self]
    · have := hmax u hu w hw
      omega

/-! ### Centering -/

theorem prioritySum_le (h : ∀ v ∈ vs, v.proposerPriority ≤ b) : prioritySum vs ≤ vs.length * b := by
  have hle := sum_le_card_nsmul (vs.map Validator.proposerPriority) b (forall_mem_map.mpr h)
  rwa [length_map, nsmul_eq_mul] at hle

theorem le_prioritySum (h : ∀ v ∈ vs, b ≤ v.proposerPriority) : vs.length * b ≤ prioritySum vs := by
  have hle := card_nsmul_le_sum (vs.map Validator.proposerPriority) b (forall_mem_map.mpr h)
  rwa [length_map, nsmul_eq_mul] at hle

/-- The average rounded down. -/
def average (vs : List Validator) : Int := prioritySum vs / vs.length

theorem average_le (hne : vs ≠ []) (h : ∀ v ∈ vs, v.proposerPriority ≤ b) : average vs ≤ b := by
  have hlength : (0 : Int) < vs.length := by exact_mod_cast length_pos_of_ne_nil hne
  exact Int.ediv_le_of_le_mul hlength (by rw [mul_comm]; exact prioritySum_le h)

theorem le_average (hne : vs ≠ []) (h : ∀ v ∈ vs, b ≤ v.proposerPriority) : b ≤ average vs := by
  have hlength : (0 : Int) < vs.length := by exact_mod_cast length_pos_of_ne_nil hne
  exact Int.le_ediv_of_mul_le hlength (by rw [mul_comm]; exact le_prioritySum h)

theorem prioritySum_map_sub (vs : List Validator) (avg : Int) :
    prioritySum (vs.map fun v => { v with proposerPriority := v.proposerPriority - avg }) =
      prioritySum vs - vs.length * avg := by
  induction vs with
  | nil => simp [prioritySum]
  | cons v vs ih =>
    simp only [prioritySum, map_cons, sum_cons, length_cons] at ih ⊢
    rw [ih]
    push_cast
    ring

/-- Centering is exact: no subtraction is clipped. -/
theorem shiftByAvgProposerPriority_spec (hne : vals.validators ≠ []) (hd : d ≤ maxInt64)
    (hin : ∀ v ∈ vals.validators, InInt64 v.proposerPriority) (hspread : Spread vals.validators d) :
    (∀ v ∈ vals.validators, safeSub v.proposerPriority (average vals.validators) =
      (v.proposerPriority - average vals.validators, false)) ∧
    vals.shiftByAvgProposerPriority = .ok (vals.mapPriority fun v =>
      v.proposerPriority - average vals.validators) ∧
    (∀ v ∈ vals.validators, -d ≤ v.proposerPriority - average vals.validators ∧
      v.proposerPriority - average vals.validators ≤ d) ∧
    0 ≤ prioritySum vals.validators - vals.validators.length * average vals.validators ∧
    prioritySum vals.validators - vals.validators.length * average vals.validators <
      vals.validators.length := by
  have havg : InInt64 (average vals.validators) :=
    ⟨le_average hne fun v hv => (hin v hv).1, average_le hne fun v hv => (hin v hv).2⟩
  have hbounds (v : Validator) (hv : v ∈ vals.validators) :
      -d ≤ v.proposerPriority - average vals.validators ∧
        v.proposerPriority - average vals.validators ≤ d := by
    have hhigh : average vals.validators ≤ v.proposerPriority + d :=
      average_le hne fun w hw => by
        have := hspread w hw v hv
        omega
    have hlow : v.proposerPriority - d ≤ average vals.validators :=
      le_average hne fun w hw => by
        have := hspread v hv w hw
        omega
    omega
  have hexact (v : Validator) (hv : v ∈ vals.validators) :
      InInt64 (v.proposerPriority - average vals.validators) := by
    have := hbounds v hv
    rw [InInt64, minInt64]
    rw [maxInt64] at hd ⊢
    omega
  have hlength : (0 : Int) < vals.validators.length := by
    exact_mod_cast length_pos_of_ne_nil hne
  refine ⟨fun v hv => safeSub_eq havg (hexact v hv), ?_, hbounds, ?_, ?_⟩
  · rw [shiftByAvgProposerPriority, if_neg hne, computeAvgProposerPriority]
    change (do let avg ← (if minInt64 ≤ average vals.validators ∧ average vals.validators ≤ maxInt64
      then Except.ok (average vals.validators) else _); _) = _
    rw [InInt64] at havg
    rw [if_pos havg]
    exact congrArg Except.ok (mapPriority_congr fun v hv => safeSubClip_eq havg (hexact v hv))
  · have := Int.mul_ediv_self_le (x := prioritySum vals.validators) hlength.ne'
    rw [average]
    omega
  · have := Int.lt_mul_ediv_self_add (x := prioritySum vals.validators) hlength
    rw [average]
    omega

end ValidatorSet

end Heimdall

end Erigon
