/-
Justification and finality of epochs.  A step weighs the votes for the previous and the
current epoch, moves the justification bits on by one epoch and may finalize a checkpoint
that was justified before.
-/
import Mathlib.Tactic
import Erigon.Query

namespace Erigon

namespace Justification

abbrev Root := List UInt8

structure Checkpoint where
  epoch : Nat
  root : Root
deriving DecidableEq

/-- The settings of the chain that are used here. -/
structure Config where
  slotsPerEpoch : Nat
  slotsPerHistoricalRoot : Nat
  genesisEpoch : Nat
  slotsPerEpoch_pos : 0 < slotsPerEpoch
  genesisEpoch_lt : genesisEpoch + 1 < 2 ^ 64

/-- `JustificationBits`; bit `i` is about the epoch `i` before the current one. -/
abbrev Bits := Fin 4 → Bool

/-- `CheckRange`. -/
def checkRange (bits : Bits) (start stop : Nat) : Bool :=
  (((List.ofFn bits).take stop).drop start).all id

/-- The parts of the state that justification reads and writes. -/
structure BeaconState where
  slot : Nat
  blockRoots : Nat → Root
  previousJustifiedCheckpoint : Checkpoint
  currentJustifiedCheckpoint : Checkpoint
  finalizedCheckpoint : Checkpoint
  justificationBits : Bits

namespace BeaconState

variable (cfg : Config) (s : BeaconState)

/-- `Epoch`. -/
def epoch : Nat := s.slot / cfg.slotsPerEpoch

/-- `PreviousEpoch`. -/
def previousEpoch : Nat := if s.epoch cfg = 0 then s.epoch cfg else s.epoch cfg - 1

def getBlockRootAtSlot (slot : Nat) : Result Root :=
  if s.slot ≤ slot then .error "GetBlockRootAtSlot: slot in the future"
  else if (slot + cfg.slotsPerHistoricalRoot) % 2 ^ 64 < s.slot then
    .error "GetBlockRootAtSlot: slot too much far behind"
  else .ok (s.blockRoots (slot % cfg.slotsPerHistoricalRoot))

def getBlockRoot (epoch : Nat) : Result Root :=
  s.getBlockRootAtSlot cfg (epoch * cfg.slotsPerEpoch % 2 ^ 64)

end BeaconState

/-- The test of two thirds, on numbers of 64 bits. -/
def superMajority (targetBalance totalActiveBalance : Nat) : Bool :=
  decide (totalActiveBalance * 2 % 2 ^ 64 ≤ targetBalance * 3 % 2 ^ 64)

variable (cfg : Config)

/-- Justify the checkpoint of an epoch if it has a super majority. -/
def justify (passed : Bool) (epoch : Nat) (bit : Fin 4) (s : BeaconState)
    (bits : Bits) : Result (BeaconState × Bits) :=
  if passed then
    (s.getBlockRoot cfg epoch).map fun checkPointRoot =>
      ({ s with currentJustifiedCheckpoint := ⟨epoch, checkPointRoot⟩ },
        Function.update bits bit true)
  else .ok (s, bits)

/-- The bits one epoch later, with nothing yet for the new epoch. -/
def shiftBits (bits : Bits) : Bits
  | 0 => false
  | 1 => bits 0
  | 2 => bits 1
  | 3 => bits 2

/-- An old checkpoint that bits and epochs say to be final. -/
def finalize (final : Bool) (checkpoint : Checkpoint) (s : BeaconState) : BeaconState :=
  if final then { s with finalizedCheckpoint := checkpoint } else s

variable (s : BeaconState)

/-- `weighJustificationAndFinalization`, with the state as it is left after an error. -/
def weighJustificationAndFinalization
    (totalActiveBalance previousEpochTargetBalance currentEpochTargetBalance : Nat) :
    BeaconState × Option String :=
  let currentEpoch := s.epoch cfg
  let oldPrevious := s.previousJustifiedCheckpoint
  let oldCurrent := s.currentJustifiedCheckpoint
  let s₁ := { s with previousJustifiedCheckpoint := oldCurrent }
  match justify cfg (superMajority previousEpochTargetBalance totalActiveBalance)
      (s.previousEpoch cfg) 1 s₁ (shiftBits s.justificationBits) with
  | .error e => (s₁, some e)
  | .panic e => (s₁, some e)
  | .ok (s₂, bits₂) =>
    match justify cfg (superMajority currentEpochTargetBalance totalActiveBalance)
        currentEpoch 0 s₂ bits₂ with
    | .error e => (s₂, some e)
    | .panic e => (s₂, some e)
    | .ok (s₃, bits) =>
      let s₄ := finalize
        ((checkRange bits 1 4 && decide ((oldPrevious.epoch + 3) % 2 ^ 64 = currentEpoch)) ||
          (checkRange bits 1 3 && decide ((oldPrevious.epoch + 2) % 2 ^ 64 = currentEpoch)))
        oldPrevious s₃
      let s₅ := finalize
        ((checkRange bits 0 3 && decide ((oldCurrent.epoch + 2) % 2 ^ 64 = currentEpoch)) ||
          (checkRange bits 0 2 && decide ((oldCurrent.epoch + 1) % 2 ^ 64 = currentEpoch)))
        oldCurrent s₄
      ({ s₅ with justificationBits := bits }, none)

/-- What a step finds: where the chain is, and how much voted for the targets. -/
structure Round where
  slot : Nat
  blockRoots : Nat → Root
  totalActiveBalance : Nat
  previousTargetBalance : Nat
  currentTargetBalance : Nat
  slot_lt : slot < 2 ^ 64
  total_lt : totalActiveBalance * 3 < 2 ^ 64
  previous_lt : previousTargetBalance * 3 < 2 ^ 64
  current_lt : currentTargetBalance * 3 < 2 ^ 64

variable (round : Round)

/-- `ProcessJustificationBitsAndFinality`, with the balances it adds up. -/
def processJustificationBitsAndFinality :
    BeaconState × Option String :=
  if s.epoch cfg ≤ (cfg.genesisEpoch + 1) % 2 ^ 64 then (s, none)
  else weighJustificationAndFinalization cfg s round.totalActiveBalance
    round.previousTargetBalance round.currentTargetBalance

/-- The state that a step starts from: the chain has moved on. -/
def BeaconState.enter : BeaconState :=
  { s with slot := round.slot, blockRoots := round.blockRoots }

def Round.epoch : Nat := round.slot / cfg.slotsPerEpoch

/-- A step that succeeds. -/
def Step (s' : BeaconState) : Prop :=
  processJustificationBitsAndFinality cfg (s.enter round) round = (s', none)

/-- Steps at consecutive epochs, the last one first, from a state in which nothing has
happened. -/
inductive Run (cfg : Config) : List Round → BeaconState → Prop
  | start {s : BeaconState} (hprevious : s.previousJustifiedCheckpoint.epoch = cfg.genesisEpoch)
      (hcurrent : s.currentJustifiedCheckpoint.epoch = cfg.genesisEpoch)
      (hfinalized : s.finalizedCheckpoint.epoch = cfg.genesisEpoch)
      (hbits : ∀ i, s.justificationBits i = false) : Run cfg [] s
  | step {rounds : List Round} {s s' : BeaconState} {round : Round} (hrun : Run cfg rounds s)
      (hfirst : rounds = [] → cfg.genesisEpoch ≤ round.epoch cfg)
      (hnext : ∀ last ∈ rounds.head?, round.epoch cfg = last.epoch cfg + 1)
      (hstep : Step cfg s round s') : Run cfg (round :: rounds) s'

/-- The checkpoint of an epoch had two thirds of the votes in one of the steps. -/
def Passed (rounds : List Round) (epoch : Nat) : Prop :=
  ∃ round ∈ rounds, cfg.genesisEpoch + 1 < round.epoch cfg ∧
    (round.epoch cfg = epoch ∧
        round.totalActiveBalance * 2 ≤ round.currentTargetBalance * 3 ∨
      round.epoch cfg = epoch + 1 ∧
        round.totalActiveBalance * 2 ≤ round.previousTargetBalance * 3)

/-! ### What a step does -/

section Steps

variable {cfg : Config} {s s' : BeaconState} {round : Round}

variable {bits : Bits}

theorem justify_eq_ok {passed : Bool} {epoch : Nat} {bit : Fin 4} {bits' : Bits}
    (h : justify cfg passed epoch bit s bits = .ok (s', bits')) :
    s'.previousJustifiedCheckpoint = s.previousJustifiedCheckpoint ∧
      s'.finalizedCheckpoint = s.finalizedCheckpoint ∧
      s'.currentJustifiedCheckpoint.epoch =
        (if passed then epoch else s.currentJustifiedCheckpoint.epoch) ∧
      bits' = if passed then Function.update bits bit true else bits := by
  rw [justify] at h
  cases passed with
  | false =>
    cases h
    exact ⟨rfl, rfl, rfl, rfl⟩
  | true =>
    rw [if_pos rfl] at h
    cases hroot : s.getBlockRoot cfg epoch with
    | error e => rw [hroot] at h; cases h
    | panic e => rw [hroot] at h; cases h
    | ok root =>
      rw [hroot] at h
      cases h
      exact ⟨rfl, rfl, rfl, rfl⟩

/-- The rules that finalize the checkpoint that was justified before the last one. -/
def FinalizesPrevious (cfg : Config) (s : BeaconState) (round : Round) (bits : Bits) : Prop :=
  bits 1 = true ∧ bits 2 = true ∧
    (bits 3 = true ∧ s.previousJustifiedCheckpoint.epoch + 3 = round.epoch cfg ∨
      s.previousJustifiedCheckpoint.epoch + 2 = round.epoch cfg)

/-- The rules that finalize the checkpoint that was justified last. -/
def FinalizesCurrent (cfg : Config) (s : BeaconState) (round : Round) (bits : Bits) : Prop :=
  bits 0 = true ∧ bits 1 = true ∧
    (bits 2 = true ∧ s.currentJustifiedCheckpoint.epoch + 2 = round.epoch cfg ∨
      s.currentJustifiedCheckpoint.epoch + 1 = round.epoch cfg)

/-- A step that weighs votes. -/
structure Weighed (cfg : Config) (s : BeaconState) (round : Round) (s' : BeaconState) : Prop where
  previous : s'.previousJustifiedCheckpoint = s.currentJustifiedCheckpoint
  current : s'.currentJustifiedCheckpoint.epoch = round.epoch cfg ∨
    s'.currentJustifiedCheckpoint.epoch = round.epoch cfg - 1 ∨
    s'.currentJustifiedCheckpoint.epoch = s.currentJustifiedCheckpoint.epoch
  bit_zero : s'.justificationBits 0 = true ↔
    round.totalActiveBalance * 2 ≤ round.currentTargetBalance * 3
  bit_one : s'.justificationBits 1 = true ↔ s.justificationBits 0 = true ∨
    round.totalActiveBalance * 2 ≤ round.previousTargetBalance * 3
  bit_two : s'.justificationBits 2 = s.justificationBits 1
  bit_three : s'.justificationBits 3 = s.justificationBits 2
  finalized : s'.finalizedCheckpoint = s.finalizedCheckpoint ∨
    s'.finalizedCheckpoint = s.previousJustifiedCheckpoint ∧
      FinalizesPrevious cfg s round s'.justificationBits ∨
    s'.finalizedCheckpoint = s.currentJustifiedCheckpoint ∧
      FinalizesCurrent cfg s round s'.justificationBits

theorem superMajority_iff {target total : Nat} (htarget : target * 3 < 2 ^ 64)
    (htotal : total * 3 < 2 ^ 64) : superMajority target total = true ↔ total * 2 ≤ target * 3 := by
  rw [superMajority, decide_eq_true_iff, Nat.mod_eq_of_lt (by omega), Nat.mod_eq_of_lt htarget]

theorem finalize_eq (final : Bool) (checkpoint : Checkpoint) : finalize final checkpoint s =
    { s with finalizedCheckpoint := if final then checkpoint else s.finalizedCheckpoint } := by
  cases final <;> rfl

theorem checkRange_eq (bits : Bits) :
    checkRange bits 1 4 = (bits 1 && bits 2 && bits 3) ∧ checkRange bits 1 3 = (bits 1 && bits 2) ∧
      checkRange bits 0 3 = (bits 0 && bits 1 && bits 2) ∧
      checkRange bits 0 2 = (bits 0 && bits 1) := by
  simp [checkRange, List.ofFn_succ, Bool.and_assoc]

theorem weighedBits {bits₂ bits₃ : Bits} {passedPrevious passedCurrent : Bool}
    (hfirst : bits₂ = if passedPrevious then Function.update (shiftBits bits) 1 true
      else shiftBits bits)
    (hsecond : bits₃ = if passedCurrent then Function.update bits₂ 0 true else bits₂) :
    bits₃ 0 = passedCurrent ∧ bits₃ 1 = (bits 0 || passedPrevious) ∧ bits₃ 2 = bits 1 ∧
      bits₃ 3 = bits 2 := by
  subst hsecond hfirst
  cases passedPrevious <;> cases passedCurrent <;> simp [shiftBits]

/-- Two rules that finalize a checkpoint of epoch `e`: the one with three bits reaches an epoch
further back. -/
theorem finalizes_of_rules {e epoch k : Nat} {recent middle oldest : Bool} (he : e ≤ epoch)
    (hepoch : epoch < 2 ^ 64) (hk : k ≤ 2)
    (hfinal : ((recent && middle && oldest && decide ((e + (k + 1)) % 2 ^ 64 = epoch)) ||
      (recent && middle && decide ((e + k) % 2 ^ 64 = epoch))) = true) :
    recent = true ∧ middle = true ∧ (oldest = true ∧ e + (k + 1) = epoch ∨ e + k = epoch) := by
  simp only [Bool.or_eq_true, Bool.and_eq_true, decide_eq_true_iff] at hfinal
  obtain ⟨⟨⟨hrecent, hmiddle⟩, holdest⟩, heq⟩ | ⟨⟨hrecent, hmiddle⟩, heq⟩ := hfinal
  · exact ⟨hrecent, hmiddle, .inl ⟨holdest, by omega⟩⟩
  · exact ⟨hrecent, hmiddle, .inr (by omega)⟩

/-- A step skips the first epochs, and weighs votes in all others. -/
theorem Step.cases (h : Step cfg s round s')
    (hprevious : s.previousJustifiedCheckpoint.epoch ≤ round.epoch cfg)
    (hcurrent : s.currentJustifiedCheckpoint.epoch ≤ round.epoch cfg) :
    round.epoch cfg ≤ cfg.genesisEpoch + 1 ∧ s' = s.enter round ∨
      cfg.genesisEpoch + 1 < round.epoch cfg ∧ Weighed cfg s round s' := by
  have hslot := round.slot_lt
  have hepoch : round.epoch cfg < 2 ^ 64 := (Nat.div_le_self _ _).trans_lt hslot
  rw [Step, processJustificationBitsAndFinality, Nat.mod_eq_of_lt cfg.genesisEpoch_lt] at h
  split at h
  · rename_i hskip
    cases h
    exact .inl ⟨hskip, rfl⟩
  · rename_i hlate
    have hlate : cfg.genesisEpoch + 1 < round.epoch cfg := not_le.mp hlate
    refine .inr ⟨hlate, ?_⟩
    rw [weighJustificationAndFinalization] at h
    dsimp only at h
    split at h
    · cases h
    · cases h
    · rename_i s₂ bits₂ hfirst
      split at h
      · cases h
      · cases h
      · rename_i s₃ bits hsecond
        obtain ⟨hprevious₂, hfinalized₂, hcurrent₂, hfirstBits⟩ := justify_eq_ok hfirst
        obtain ⟨hprevious₃, hfinalized₃, hcurrent₃, hsecondBits⟩ := justify_eq_ok hsecond
        obtain ⟨hbits₀, hbits₁, hbits₂, hbits₃⟩ := weighedBits hfirstBits hsecondBits
        obtain rfl := (Prod.mk.inj h).1
        refine
          { previous := ?_, current := ?_, bit_zero := ?_, bit_one := ?_, bit_two := ?_,
            bit_three := ?_, finalized := ?_ }
        · simp only [finalize_eq]
          rw [hprevious₃, hprevious₂]
          rfl
        · simp only [finalize_eq]
          rw [hcurrent₃, hcurrent₂]
          have hpreviousEpoch : (s.enter round).previousEpoch cfg = round.epoch cfg - 1 := by
            rw [BeaconState.previousEpoch, if_neg]
            · rfl
            · exact (Nat.zero_lt_of_lt hlate).ne'
          rw [hpreviousEpoch]
          split
          · exact .inl rfl
          · split
            · exact .inr (.inl rfl)
            · exact .inr (.inr rfl)
        · dsimp only
          rw [← superMajority_iff round.current_lt round.total_lt, hbits₀]
        · dsimp only
          rw [← superMajority_iff round.previous_lt round.total_lt, hbits₁, Bool.or_eq_true]
          rfl
        · exact hbits₂
        · exact hbits₃
        · simp only [finalize_eq, hfinalized₃, hfinalized₂, checkRange_eq]
          split
          · rename_i hfinal
            exact .inr (.inr ⟨rfl, finalizes_of_rules hcurrent hepoch (by decide) hfinal⟩)
          · split
            · rename_i hfinal
              exact .inr (.inl ⟨rfl, finalizes_of_rules hprevious hepoch (by decide) hfinal⟩)
            · exact .inl rfl

end Steps

/-! ### Runs -/

/-- What holds before the step of an epoch. -/
structure Settled (cfg : Config) (rounds : List Round) (s : BeaconState) (epoch : Nat) : Prop where
  genesis : cfg.genesisEpoch ≤ epoch
  past : ∀ round ∈ rounds, round.epoch cfg < epoch
  finalized_le : s.finalizedCheckpoint.epoch ≤ s.previousJustifiedCheckpoint.epoch
  previous_le : s.previousJustifiedCheckpoint.epoch ≤ s.currentJustifiedCheckpoint.epoch
  current_le : s.currentJustifiedCheckpoint.epoch ≤ cfg.genesisEpoch ∨
    s.currentJustifiedCheckpoint.epoch < epoch
  bits : ∀ i : Fin 4, s.justificationBits i = true ↔
    i.val + 1 ≤ epoch ∧ Passed cfg rounds (epoch - 1 - i.val)

/-- What holds after a step. -/
structure Sound (cfg : Config) (rounds : List Round) (s : BeaconState) (round : Round)
    (s' : BeaconState) : Prop where
  finalized_le : s'.finalizedCheckpoint.epoch ≤ s'.previousJustifiedCheckpoint.epoch
  previous_le : s'.previousJustifiedCheckpoint.epoch ≤ s'.currentJustifiedCheckpoint.epoch
  current_le : s'.currentJustifiedCheckpoint.epoch ≤ round.epoch cfg
  monotone : s.finalizedCheckpoint.epoch ≤ s'.finalizedCheckpoint.epoch
  bits : ∀ i : Fin 4, s'.justificationBits i = true ↔
    i.val ≤ round.epoch cfg ∧ Passed cfg (round :: rounds) (round.epoch cfg - i.val)
  finalized : s'.finalizedCheckpoint ≠ s.finalizedCheckpoint →
    Passed cfg (round :: rounds) s'.finalizedCheckpoint.epoch ∧
      Passed cfg (round :: rounds) (s'.finalizedCheckpoint.epoch + 1)

section Runs

variable {cfg : Config} {rounds : List Round} {s s' : BeaconState} {round : Round} {epoch : Nat}

theorem passed_cons : Passed cfg (round :: rounds) epoch ↔
    cfg.genesisEpoch + 1 < round.epoch cfg ∧
      (round.epoch cfg = epoch ∧
          round.totalActiveBalance * 2 ≤ round.currentTargetBalance * 3 ∨
        round.epoch cfg = epoch + 1 ∧
          round.totalActiveBalance * 2 ≤ round.previousTargetBalance * 3) ∨
      Passed cfg rounds epoch := by
  simp only [Passed, List.exists_mem_cons_iff]

/-- Only epochs before the next one can have passed. -/
theorem Passed.bounds (h : Passed cfg rounds epoch) {next : Nat}
    (hpast : ∀ round ∈ rounds, round.epoch cfg < next) :
    epoch < next ∧ cfg.genesisEpoch + 1 < next := by
  obtain ⟨round, hround, hlate, hepoch⟩ := h
  have := hpast round hround
  omega

section

variable (h : Settled cfg rounds s (round.epoch cfg))

include h

theorem Settled.current_le_epoch : s.currentJustifiedCheckpoint.epoch ≤ round.epoch cfg := by
  have := h.current_le
  have := h.genesis
  omega

theorem Settled.skip (hskip : round.epoch cfg ≤ cfg.genesisEpoch + 1) :
    Sound cfg rounds s round (s.enter round) where
  finalized_le := h.finalized_le
  previous_le := h.previous_le
  current_le := h.current_le_epoch
  monotone := le_rfl
  bits i := by
    have hnone : ∀ epoch, ¬ Passed cfg rounds epoch := fun epoch hpassed => by
      have := (hpassed.bounds h.past).2
      omega
    have hbit : s.justificationBits i = true ↔ False := by
      rw [h.bits i]
      exact ⟨fun hi => hnone _ hi.2, False.elim⟩
    rw [passed_cons]
    refine hbit.trans ⟨False.elim, ?_⟩
    rintro ⟨-, ⟨hlate, -⟩ | hpassed⟩
    · omega
    · exact hnone _ hpassed
  finalized hne := absurd rfl hne

theorem Settled.bits_weighed
    (hlate : cfg.genesisEpoch + 1 < round.epoch cfg) (hweighed : Weighed cfg s round s')
    (i : Fin 4) : s'.justificationBits i = true ↔
      i.val ≤ round.epoch cfg ∧ Passed cfg (round :: rounds) (round.epoch cfg - i.val) := by
  have hpassed : ∀ k : Nat, Passed cfg (round :: rounds) (round.epoch cfg - k) ↔
      (k = 0 ∧ round.totalActiveBalance * 2 ≤ round.currentTargetBalance * 3) ∨
        (k = 1 ∧ round.totalActiveBalance * 2 ≤ round.previousTargetBalance * 3) ∨
        Passed cfg rounds (round.epoch cfg - k) := by
    intro k
    rw [passed_cons, and_iff_right hlate, or_assoc,
      show round.epoch cfg = round.epoch cfg - k ↔ k = 0 by omega,
      show round.epoch cfg = round.epoch cfg - k + 1 ↔ k = 1 by omega]
  have hnow : ¬ Passed cfg rounds (round.epoch cfg) := fun hnow =>
    (hnow.bounds h.past).1.false
  rw [hpassed]
  match i with
  | 0 => simp [hweighed.bit_zero, hnow]
  | 1 =>
    rw [hweighed.bit_one, h.bits 0]
    simp [show 1 ≤ round.epoch cfg by omega, or_comm]
  | 2 =>
    rw [hweighed.bit_two, h.bits 1]
    simp [Nat.sub_sub]
  | 3 =>
    rw [hweighed.bit_three, h.bits 2]
    simp [Nat.sub_sub]

theorem Settled.weigh
    (hlate : cfg.genesisEpoch + 1 < round.epoch cfg) (hweighed : Weighed cfg s round s') :
    Sound cfg rounds s round s' where
  finalized_le := by
    rw [hweighed.previous]
    have hle := h.finalized_le
    have hle' := h.previous_le
    obtain heq | ⟨heq, -⟩ | ⟨heq, -⟩ := hweighed.finalized <;> rw [heq] <;> omega
  previous_le := by
    rw [hweighed.previous]
    have hcurrent := h.current_le
    obtain heq | heq | heq := hweighed.current <;> omega
  current_le := by
    have hcurrent := h.current_le
    obtain heq | heq | heq := hweighed.current <;> omega
  monotone := by
    have hle := h.finalized_le
    have hle' := h.previous_le
    obtain heq | ⟨heq, -⟩ | ⟨heq, -⟩ := hweighed.finalized <;> rw [heq] <;> omega
  bits := h.bits_weighed hlate hweighed
  finalized hne := by
    -- A bit that is set says that the epoch it is about has passed.
    have hpassed : ∀ i : Fin 4, s'.justificationBits i = true → ∀ epoch,
        epoch + i.val = round.epoch cfg → Passed cfg (round :: rounds) epoch := by
      intro i hi epoch hepoch
      have hpassed := ((h.bits_weighed hlate hweighed i).mp hi).2
      rwa [← hepoch, Nat.add_sub_cancel] at hpassed
    obtain heq | ⟨heq, hone, htwo, hrule⟩ | ⟨heq, hzero, hone, hrule⟩ := hweighed.finalized
    · exact absurd heq hne
    · rw [heq]
      obtain ⟨hthree, hepoch⟩ | hepoch := hrule
      · exact ⟨hpassed 3 hthree _ hepoch, hpassed 2 htwo _ (by rw [← hepoch]; rfl)⟩
      · exact ⟨hpassed 2 htwo _ hepoch, hpassed 1 hone _ hepoch⟩
    · rw [heq]
      obtain ⟨htwo, hepoch⟩ | hepoch := hrule
      · exact ⟨hpassed 2 htwo _ hepoch, hpassed 1 hone _ hepoch⟩
      · exact ⟨hpassed 1 hone _ hepoch, hpassed 0 hzero _ hepoch⟩

theorem Settled.step (hstep : Step cfg s round s') : Sound cfg rounds s round s' := by
  obtain ⟨hskip, rfl⟩ | ⟨hlate, hweighed⟩ :=
    hstep.cases (h.previous_le.trans h.current_le_epoch) h.current_le_epoch
  · exact h.skip hskip
  · exact h.weigh hlate hweighed

end

/-- What holds after a step holds before the next one. -/
theorem Sound.settled (hsound : Sound cfg rounds s round s')
    (h : Settled cfg rounds s (round.epoch cfg)) :
    Settled cfg (round :: rounds) s' (round.epoch cfg + 1) where
  genesis := h.genesis.trans (Nat.le_succ _)
  past r hr := by
    rcases List.mem_cons.mp hr with rfl | hr
    · exact Nat.lt_succ_self _
    · exact (h.past r hr).trans (Nat.lt_succ_self _)
  finalized_le := hsound.finalized_le
  previous_le := hsound.previous_le
  current_le := .inr (Nat.lt_succ_of_le hsound.current_le)
  bits i := by
    rw [hsound.bits i, Nat.add_sub_cancel, Nat.add_le_add_iff_right]

/-- Before every step of a run. -/
theorem Run.settled (hrun : Run cfg rounds s)
    (hfirst : rounds = [] → cfg.genesisEpoch ≤ round.epoch cfg)
    (hnext : ∀ last ∈ rounds.head?, round.epoch cfg = last.epoch cfg + 1) :
    Settled cfg rounds s (round.epoch cfg) := by
  induction hrun generalizing round with
  | start hprevious hcurrent hfinalized hbits =>
    exact
      { genesis := hfirst rfl
        past := by simp
        finalized_le := by omega
        previous_le := by omega
        current_le := .inl hcurrent.le
        bits := by simp [hbits, Passed] }
  | step hrun hfirst' hnext' hstep ih =>
    have h := ih hfirst' hnext'
    rw [hnext _ rfl]
    exact (h.step hstep).settled h

/-- After every step of a run the checkpoints are in order, finality has not moved back, the
bits say which epochs have passed, and an epoch that is newly final has passed together with
the one behind it. -/
theorem run_step_sound (hrun : Run cfg rounds s)
    (hfirst : rounds = [] → cfg.genesisEpoch ≤ round.epoch cfg)
    (hnext : ∀ last ∈ rounds.head?, round.epoch cfg = last.epoch cfg + 1)
    (hstep : Step cfg s round s') : Sound cfg rounds s round s' :=
  (hrun.settled hfirst hnext).step hstep

end Runs

/-- Epochs of two slots. -/
def smallConfig : Config where
  slotsPerEpoch := 2
  slotsPerHistoricalRoot := 8
  genesisEpoch := 0
  slotsPerEpoch_pos := by decide
  genesisEpoch_lt := by decide

/-- The end of an epoch for which all have voted. -/
def fullRound (epoch : Nat) (hepoch : epoch < 10) : Round where
  slot := 2 * epoch + 1
  blockRoots _ := []
  totalActiveBalance := 32
  previousTargetBalance := 32
  currentTargetBalance := 32
  slot_lt := by omega
  total_lt := by decide
  previous_lt := by decide
  current_lt := by decide

def genesisState : BeaconState where
  slot := 0
  blockRoots _ := []
  previousJustifiedCheckpoint := ⟨0, []⟩
  currentJustifiedCheckpoint := ⟨0, []⟩
  finalizedCheckpoint := ⟨0, []⟩
  justificationBits _ := false

/-- The state after a step that is known to succeed. -/
def BeaconState.next : BeaconState :=
  (processJustificationBitsAndFinality smallConfig (s.enter round) round).1

/-- Two epochs for which all vote make the first of them final. -/
theorem run_step_sound_two :
    let first := fullRound 2 (by decide)
    let second := fullRound 3 (by decide)
    Sound smallConfig [first] (genesisState.next first) second
        ((genesisState.next first).next second) ∧
      ((genesisState.next first).next second).finalizedCheckpoint.epoch = 2 := by
  have hstep : Step smallConfig genesisState (fullRound 2 (by decide)) _ := Prod.ext rfl rfl
  have hrun : Run smallConfig [fullRound 2 (by decide)] _ :=
    .step (.start rfl rfl rfl fun _ => rfl) (fun _ => by decide) (by simp) hstep
  have hnext : ∀ last ∈ [fullRound 2 (by decide)].head?,
      (fullRound 3 (by decide)).epoch smallConfig = last.epoch smallConfig + 1 := by
    intro last hlast
    obtain rfl := Option.some.inj hlast
    rfl
  exact ⟨run_step_sound hrun (by simp) hnext (Prod.ext rfl rfl), rfl⟩

end Justification

end Erigon
