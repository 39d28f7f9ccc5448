/-
The exit queue of the beacon state from Electra on: exits are paid for out of a churn that each
epoch adds to, and what is left of the epoch at the end of the queue is carried to the next exit.
-/
import Mathlib.Tactic

namespace Erigon

open List

/-- `EarliestExitEpoch` and `ExitBalanceToConsume` of the state. -/
structure ExitQueue where
  earliestExitEpoch : Nat
  exitBalanceToConsume : Nat

/-- A call: the balance that exits, and the epoch and the churn limit of the state then. -/
structure ExitCall where
  epoch : Nat
  perEpochChurn : Nat
  exitBalance : Nat

def computeActivationExitEpoch (maxSeedLookahead epoch : Nat) : Nat :=
  (epoch + 1 + maxSeedLookahead) % 2 ^ 64

namespace ExitQueue

variable (lookahead : Nat) (q : ExitQueue) (c : ExitCall)

/-- The epoch an exit is offered first. -/
def base : Nat :=
  max q.earliestExitEpoch (computeActivationExitEpoch lookahead c.epoch)

/-- What that epoch still has for it. -/
def allowance : Nat :=
  if q.earliestExitEpoch < q.base lookahead c then c.perEpochChurn
  else q.exitBalanceToConsume

/-- The epochs an exit takes beyond the first. -/
def additionalEpochs : Nat :=
  (c.exitBalance - q.allowance lookahead c - 1) / c.perEpochChurn + 1

/-- The state after a call; the call returns its earliest exit epoch.  A churn of zero is a
division by zero. -/
def computeExitEpochAndUpdateChurn : Option ExitQueue :=
  if q.allowance lookahead c < c.exitBalance then
    if c.perEpochChurn = 0 then none
    else some {
      earliestExitEpoch :=
        (q.base lookahead c + q.additionalEpochs lookahead c) % 2 ^ 64
      exitBalanceToConsume :=
        ((q.allowance lookahead c +
          q.additionalEpochs lookahead c * c.perEpochChurn) % 2 ^ 64 +
            2 ^ 64 - c.exitBalance) % 2 ^ 64 }
  else some {
    earliestExitEpoch := q.base lookahead c
    exitBalanceToConsume := q.allowance lookahead c - c.exitBalance }

/-- The sums of a call do not overflow. -/
def Fits : Prop :=
  c.epoch + 1 + lookahead < 2 ^ 64 ∧
    (q.allowance lookahead c < c.exitBalance →
      q.base lookahead c + q.additionalEpochs lookahead c < 2 ^ 64 ∧
        q.allowance lookahead c +
          q.additionalEpochs lookahead c * c.perEpochChurn < 2 ^ 64)

/-- The epochs that calls one after the other return, with what each of them exits. -/
def run (q : ExitQueue) : List ExitCall → Option (List (Nat × Nat))
  | [] => some []
  | c :: calls => do
    let q ← q.computeExitEpochAndUpdateChurn lookahead c
    return (q.earliestExitEpoch, c.exitBalance) :: (← run q calls)

/-- No sum of a run overflows. -/
def RunFits (q : ExitQueue) : List ExitCall → Prop
  | [] => True
  | c :: calls => q.Fits lookahead c ∧
      ∀ q', q.computeExitEpochAndUpdateChurn lookahead c = some q' → RunFits q' calls

/-- What exits up to an epoch. -/
def exitedBy (e : Nat) (exits : List (Nat × Nat)) : Nat :=
  ((exits.filter (·.1 ≤ e)).map Prod.snd).sum

variable {lookahead} {q : ExitQueue} {c : ExitCall} {C e₀ : Nat}

/-- One call: the epochs it adds pay for the exit to the last unit. -/
theorem computeExitEpochAndUpdateChurn_spec (hfits : q.Fits lookahead c)
    (hchurn : 0 < c.perEpochChurn) :
    ∃ k q', q.computeExitEpochAndUpdateChurn lookahead c = some q' ∧
      q'.earliestExitEpoch = q.base lookahead c + k ∧
      q'.exitBalanceToConsume + c.exitBalance =
        q.allowance lookahead c + k * c.perEpochChurn := by
  rw [computeExitEpochAndUpdateChurn]
  split
  · next hmore =>
    obtain ⟨hepoch, hbalance⟩ := hfits.2 hmore
    have hpaid : c.exitBalance ≤ q.allowance lookahead c +
        q.additionalEpochs lookahead c * c.perEpochChurn := by
      have hdiv := Nat.lt_mul_div_succ
        (c.exitBalance - q.allowance lookahead c - 1) hchurn
      rw [Nat.mul_comm] at hdiv
      rw [additionalEpochs]
      omega
    rw [if_neg hchurn.ne']
    refine ⟨_, _, rfl, Nat.mod_eq_of_lt hepoch, ?_⟩
    simp only [Nat.mod_eq_of_lt hbalance]
    omega
  · exact ⟨0, _, rfl, rfl, by dsimp only; omega⟩

theorem le_base (hfits : q.Fits lookahead c) : c.epoch + 1 + lookahead ≤ q.base lookahead c := by
  rw [base, computeActivationExitEpoch, Nat.mod_eq_of_lt hfits.1]
  exact Nat.le_max_right _ _

/-- What has exited and what is left never pass the churn of the epochs up to the end of the
queue: `n` of them before a call, and after it those up to the new end. -/
theorem allowance_le (lookahead : Nat) {n total : Nat} (hchurn : c.perEpochChurn ≤ C)
    (hend : q.earliestExitEpoch + 1 = e₀ + n)
    (hwithin : total + q.exitBalanceToConsume ≤ C * n) :
    ∃ m, q.base lookahead c + 1 = e₀ + m ∧
      total + q.allowance lookahead c ≤ C * m := by
  have hle : q.earliestExitEpoch ≤ q.base lookahead c := Nat.le_max_left _ _
  obtain ⟨d, hd⟩ := Nat.exists_eq_add_of_le hle
  refine ⟨n + d, by omega, ?_⟩
  rw [allowance, Nat.mul_add]
  split
  · have hd1 : C * 1 ≤ C * d := Nat.mul_le_mul_left C (by omega)
    omega
  · omega

theorem run_cons {q' : ExitQueue}
    (hstep : q.computeExitEpochAndUpdateChurn lookahead c = some q')
    (calls : List ExitCall) : q.run lookahead (c :: calls) =
      (q'.run lookahead calls).map ((q'.earliestExitEpoch, c.exitBalance) :: ·) := by
  simp only [run, hstep, Option.bind_eq_bind, Option.bind_some]
  cases q'.run lookahead calls <;> rfl

variable {calls : List ExitCall} {exits : List (Nat × Nat)}

theorem run_ge (hchurn : ∀ c ∈ calls, 0 < c.perEpochChurn) (hfits : q.RunFits lookahead calls)
    (hrun : q.run lookahead calls = some exits) :
    ∀ x ∈ exits, q.earliestExitEpoch ≤ x.1 := by
  induction calls generalizing q exits with
  | nil =>
    cases hrun
    simp
  | cons c calls ih =>
    obtain ⟨k, q', hstep, hepoch, -⟩ := computeExitEpochAndUpdateChurn_spec hfits.1
      (hchurn c mem_cons_self)
    have hbase : q.earliestExitEpoch ≤ q.base lookahead c := Nat.le_max_left _ _
    rw [run_cons hstep, Option.map_eq_some_iff] at hrun
    obtain ⟨rest, hrest, rfl⟩ := hrun
    intro x hx
    rcases mem_cons.mp hx with rfl | hx
    · dsimp only
      omega
    · have := ih (fun d hd => hchurn d (mem_cons_of_mem _ hd)) (hfits.2 q' hstep) hrest x hx
      omega

theorem run_ordered (hchurn : ∀ c ∈ calls, 0 < c.perEpochChurn) (hfits : q.RunFits lookahead calls) :
    ∃ exits, q.run lookahead calls = some exits ∧ exits.Pairwise (·.1 ≤ ·.1) ∧
      List.Forall₂ (fun c x => c.epoch + 1 + lookahead ≤ x.1 ∧ x.2 = c.exitBalance)
        calls exits := by
  induction calls generalizing q with
  | nil => exact ⟨[], rfl, List.Pairwise.nil, List.Forall₂.nil⟩
  | cons c calls ih =>
    obtain ⟨k, q', hstep, hepoch, -⟩ := computeExitEpochAndUpdateChurn_spec hfits.1
      (hchurn c mem_cons_self)
    have hchurn' : ∀ d ∈ calls, 0 < d.perEpochChurn := fun d hd =>
      hchurn d (mem_cons_of_mem _ hd)
    obtain ⟨exits, hrun, hpairwise, hall⟩ := ih hchurn' (hfits.2 q' hstep)
    have hbase := le_base hfits.1
    refine ⟨(q'.earliestExitEpoch, c.exitBalance) :: exits, by rw [run_cons hstep, hrun]; rfl,
      List.Pairwise.cons (run_ge hchurn' (hfits.2 q' hstep) hrun) hpairwise,
      List.Forall₂.cons ⟨?_, rfl⟩ hall⟩
    dsimp only
    omega

theorem exitedBy_eq_zero {e : Nat} (h : ∀ x ∈ exits, e < x.1) : exitedBy e exits = 0 := by
  have hnone : exits.filter (·.1 ≤ e) = [] := by
    rw [filter_eq_nil_iff]
    intro x hx
    simpa using h x hx
  rw [exitedBy, hnone]
  rfl

theorem exitedBy_cons (e : Nat) (x : Nat × Nat) (exits : List (Nat × Nat)) :
    exitedBy e (x :: exits) = (if x.1 ≤ e then x.2 else 0) + exitedBy e exits := by
  by_cases h : x.1 ≤ e <;> simp [exitedBy, h]

/-- A run keeps within the churn of the epochs since `e₀`. -/
theorem exitedBy_le {n total e : Nat}
    (hchurn : ∀ c ∈ calls, 0 < c.perEpochChurn ∧ c.perEpochChurn ≤ C)
    (hfits : q.RunFits lookahead calls) (hrun : q.run lookahead calls = some exits)
    (hend : q.earliestExitEpoch + 1 = e₀ + n) (hwithin : total + q.exitBalanceToConsume ≤ C * n)
    (he : q.earliestExitEpoch ≤ e) :
    total + exitedBy e exits ≤ C * (e + 1 - e₀) := by
  have hsofar : C * n ≤ C * (e + 1 - e₀) := Nat.mul_le_mul_left C (by omega)
  induction calls generalizing q exits n total with
  | nil =>
    cases hrun
    rw [exitedBy_eq_zero (by simp)]
    omega
  | cons c calls ih =>
    obtain ⟨hpos, hle⟩ := hchurn c mem_cons_self
    have hchurn' : ∀ d ∈ calls, 0 < d.perEpochChurn ∧ d.perEpochChurn ≤ C := fun d hd =>
      hchurn d (mem_cons_of_mem _ hd)
    obtain ⟨k, q', hstep, hepoch, hpaid⟩ := computeExitEpochAndUpdateChurn_spec hfits.1 hpos
    obtain ⟨m, hm, hallowed⟩ := allowance_le lookahead hle hend hwithin
    rw [run_cons hstep, Option.map_eq_some_iff] at hrun
    obtain ⟨rest, hrest, rfl⟩ := hrun
    have hfits' := hfits.2 q' hstep
    rw [exitedBy_cons]
    split
    · next hnow =>
      -- the exit is paid for, and the rest of the run goes on from there
      have hadded : k * c.perEpochChurn ≤ C * k :=
        (Nat.mul_le_mul_left k hle).trans_eq (Nat.mul_comm k C)
      have hend' : q'.earliestExitEpoch + 1 = e₀ + (m + k) := by omega
      have hwithin' : total + c.exitBalance + q'.exitBalanceToConsume ≤ C * (m + k) := by
        rw [Nat.mul_add]
        omega
      have hnext := ih hchurn' hfits' hrest hend' hwithin' hnow
        (Nat.mul_le_mul_left C (by dsimp only at hnow; omega))
      omega
    · next hlater =>
      -- this exit and all after it come later than `e`
      have hge := run_ge (fun d hd => (hchurn' d hd).1) hfits' hrest
      rw [exitedBy_eq_zero fun x hx => Nat.lt_of_lt_of_le (Nat.not_le.mp hlater) (hge x hx)]
      omega

/-- The queue as if it ended with the base epoch of a call, nothing of that epoch used. -/
def opened (lookahead : Nat) (q : ExitQueue) (c : ExitCall) : ExitQueue :=
  ⟨q.base lookahead c, c.perEpochChurn⟩

/-- Exits are assigned to epochs in order, none before the epoch an activation could have, and
from an unused epoch on never more than `C` for each epoch. -/
theorem exits_within_churn (lookahead C : Nat) (q : ExitQueue) (calls : List ExitCall)
    (hchurn : ∀ c ∈ calls, 1 ≤ c.perEpochChurn ∧ c.perEpochChurn ≤ C)
    (hfits : q.RunFits lookahead calls) :
    ∃ exits, q.run lookahead calls = some exits ∧ exits.Pairwise (·.1 ≤ ·.1) ∧
      List.Forall₂ (fun c x => c.epoch + 1 + lookahead ≤ x.1 ∧ x.2 = c.exitBalance)
        calls exits ∧
      ∀ first ∈ calls.head?, q.earliestExitEpoch < q.base lookahead first → ∀ e,
        exitedBy e exits ≤ C * (e + 1 - q.base lookahead first) := by
  obtain ⟨exits, hrun, hpairwise, hall⟩ := run_ordered (fun c hc => (hchurn c hc).1) hfits
  refine ⟨exits, hrun, hpairwise, hall, ?_⟩
  cases calls with
  | nil => simp
  | cons c calls =>
    rintro _ ⟨⟩ hunused e
    have hbase : (q.opened lookahead c).base lookahead c = q.base lookahead c :=
      Nat.max_eq_left (Nat.le_max_right _ _)
    have hallowance : (q.opened lookahead c).allowance lookahead c = q.allowance lookahead c := by
      rw [allowance, allowance, if_pos hunused, hbase]
      exact if_neg (Nat.lt_irrefl _)
    have hsame : (q.opened lookahead c).computeExitEpochAndUpdateChurn lookahead c =
        q.computeExitEpochAndUpdateChurn lookahead c := by
      simp only [computeExitEpochAndUpdateChurn, additionalEpochs, hbase, hallowance]
    have hfits' : (q.opened lookahead c).RunFits lookahead (c :: calls) := by
      simpa only [RunFits, Fits, additionalEpochs, hbase, hallowance, hsame] using hfits
    have hrun' : (q.opened lookahead c).run lookahead (c :: calls) = some exits := by
      rwa [run, hsame]
    by_cases he : q.base lookahead c ≤ e
    · have hunspent : 0 + c.perEpochChurn ≤ C * 1 := by
        have := (hchurn c List.mem_cons_self).2
        omega
      have hwithin := exitedBy_le hchurn hfits' hrun'
        (Eq.refl (q.base lookahead c + 1)) hunspent he
      rwa [Nat.zero_add] at hwithin
    · have hge := run_ge (fun c hc => (hchurn c hc).1) hfits' hrun'
      rw [exitedBy_eq_zero fun x hx => Nat.lt_of_lt_of_le (Nat.not_le.mp he) (hge x hx)]
      exact Nat.zero_le _

/-- Two exits in one epoch, the second larger than what is left. -/
theorem exits_within_churn_two :
    ∃ exits, (ExitQueue.mk 0 0).run 4 [⟨10, 8, 6⟩, ⟨10, 8, 12⟩] = some exits ∧
      ∀ e, exitedBy e exits ≤ 8 * (e + 1 - 15) := by
  have hfits : (ExitQueue.mk 0 0).RunFits 4 [⟨10, 8, 6⟩, ⟨10, 8, 12⟩] := by
    refine ⟨⟨by norm_num, by decide⟩, ?_⟩
    rintro q' ⟨⟩
    exact ⟨⟨by norm_num, fun _ => by decide +kernel⟩, fun _ _ => trivial⟩
  obtain ⟨exits, hrun, -, -, hwithin⟩ := exits_within_churn 4 8 ⟨0, 0⟩ _ (by decide) hfits
  exact ⟨exits, hrun, hwithin _ rfl (by decide)⟩

end ExitQueue

end Erigon
