/-
The calls that change the fork choice store: blocks, ticks of the clock, attestations and
attester slashings.  What they take from the state transition, the execution engine and the
checks of signatures is given by the environment of a call.
-/
import Erigon.ForkChoice

namespace Erigon

namespace ForkChoice

open KeyedTable

/-- A block, with the root of its hash tree. -/
structure BeaconBlock where
  root : Root
  slot : Nat
  parentRoot : Root
deriving DecidableEq

/-- Which states are on disk, and the checkpoint states that are found after the call. -/
structure Env where
  hasBeaconState : Root → Bool
  checkpointStates : Checkpoint → Except String CheckpointState

/-- The answers that `OnBlock` gets: the error of a check before the import, the checkpoints of
the state after the block (or no state, or an error), and what the justification at the end
of the epoch and the next proposers come to. -/
structure BlockEnv extends Env where
  hashError : Option String
  rejected : Option String
  transition : Except String (Option (Checkpoint × Checkpoint))
  unrealized : Except String (Checkpoint × Checkpoint)
  proposersError : Option String

namespace ForkGraph

variable (g : ForkGraph)

/-- The greatest slot of a block whose state is on disk; the anchor is not among the blocks. -/
def highestStoredBeaconStateSlot (hasBeaconState : Root → Bool) : Nat :=
  g.headers.foldl
    (fun highest e =>
      if e.1 ≠ g.anchorRoot ∧ hasBeaconState e.1 = true ∧ highest < e.2.slot then e.2.slot
      else highest)
    0

/-- A block that `Prune` takes out. -/
def isOld (pruneSlot : Nat) (blockRoot : Root) : Bool :=
  match g.getHeader blockRoot with
  | none => false
  | some header => decide (blockRoot ≠ g.anchorRoot ∧ header.slot < pruneSlot)

def prune (hasBeaconState : Root → Bool) (pruneSlot : Nat) : ForkGraph :=
  if g.highestStoredBeaconStateSlot hasBeaconState ≤ pruneSlot then g
  else
    { g with
      headers := g.headers.filter fun e => !g.isOld pruneSlot e.1
      currentJustifiedCheckpoints :=
        g.currentJustifiedCheckpoints.filter fun e => !g.isOld pruneSlot e.1
      finalizedCheckpoints := g.finalizedCheckpoints.filter fun e => !g.isOld pruneSlot e.1 }

/-- The last steps of `AddChainSegment`. -/
def addBlock (block : BeaconBlock) (justified finalized : Checkpoint) :
    ForkGraph :=
  { g with
    headers := store g.headers block.root ⟨block.slot, block.parentRoot⟩
    currentJustifiedCheckpoints := store g.currentJustifiedCheckpoints block.root justified
    finalizedCheckpoints := store g.finalizedCheckpoints block.root finalized }

end ForkGraph

namespace Store

variable (s : Store) (cfg : BeaconConfig)

def slot : Nat :=
  (cfg.genesisSlot + (s.time + 2 ^ 64 - s.genesisTime) % 2 ^ 64 / cfg.secondsPerSlot) % 2 ^ 64

/-- Forget the cached head. -/
def clearHead : Store := { s with headHash := 0 }

def computeEpochAtSlot (slot : Nat) : Nat := slot / cfg.slotsPerEpoch

def computeStartSlotAtEpoch (epoch : Nat) : Nat :=
  epoch * cfg.slotsPerEpoch % 2 ^ 64

/-- The entries of the children that a new finalized epoch drops. -/
def isOldParent (bound : Nat) (parent : Root) : Bool :=
  match load s.childrens parent with
  | none => false
  | some c => decide (c.parentSlot ≤ bound)

variable (env : Env)

def onNewFinalized (newFinalized : Checkpoint) :
    Store :=
  let bound := newFinalized.epoch * cfg.slotsPerEpoch % 2 ^ 64
  let slotToPrune :=
    ((newFinalized.epoch + 2 ^ 64 - 3) % 2 ^ 64 * cfg.slotsPerEpoch + 2 ^ 64 - 1) % 2 ^ 64
  { s with
    childrens := s.childrens.filter fun e => !s.isOldParent bound e.1
    headSet := s.headSet.filter fun root => !s.isOldParent bound root
    graph := s.graph.prune env.hasBeaconState slotToPrune
    checkpointStates := env.checkpointStates }

/-- Drop what is before a new finalized checkpoint, and store it. -/
def finalize (finalized : Checkpoint) : Store :=
  { s.onNewFinalized cfg env finalized with finalizedCheckpoint := finalized }

def updateCheckpoints
    (justified finalized : Checkpoint) : Store :=
  let s :=
    if justified.epoch > s.justifiedCheckpoint.epoch then { s with justifiedCheckpoint := justified }
    else s
  if finalized.epoch > s.finalizedCheckpoint.epoch then s.finalize cfg env finalized else s

def updateUnrealizedCheckpoints (justified finalized : Checkpoint) : Store :=
  let s :=
    if justified.epoch > s.unrealizedJustifiedCheckpoint.epoch then
      { s with unrealizedJustifiedCheckpoint := justified }
    else s
  if finalized.epoch > s.unrealizedFinalizedCheckpoint.epoch then
    { s with unrealizedFinalizedCheckpoint := finalized }
  else s

/-- A block that arrives in the first part of its slot gets the boost, if no other has it. -/
def boostTimely (block : BeaconBlock) : Store :=
  let timeIntoSlot := (s.time + 2 ^ 64 - s.genesisTime) % 2 ^ 64 % cfg.secondsPerSlot
  if s.slot cfg = block.slot ∧ timeIntoSlot < cfg.secondsPerSlot / cfg.intervalsPerSlot ∧
      s.proposerBoostRoot = 0 then
    { s with proposerBoostRoot := block.root }
  else s

/-- What `OnBlock` stores of a block that the fork graph has taken in. -/
def attach (env : BlockEnv) (block : BeaconBlock) (justified finalized : Checkpoint) :
    Store :=
  { s with
    graph := s.graph.addBlock block justified finalized
    checkpointStates := env.checkpointStates
    childrens :=
      (s.updateChildren ((block.slot + 2 ^ 64 - 1) % 2 ^ 64) block.parentRoot block.root).childrens
    highestSeen := if block.slot > s.highestSeen then block.slot else s.highestSeen
    headSet := insert block.root (s.headSet.erase block.parentRoot) }

/-- The end of `OnBlock`: the checkpoints that the end of the epoch would bring, and those of a
block from an earlier epoch. -/
def settle (env : BlockEnv) (block : BeaconBlock)
    (justified finalized : Checkpoint) : Except String Unit × Store :=
  match env.unrealized with
  | .error e => (.error e, s)
  | .ok (unrealizedJustified, unrealizedFinalized) =>
    let s := s.updateUnrealizedCheckpoints unrealizedJustified unrealizedFinalized
    match env.proposersError with
    | some e => (.error e, s)
    | none =>
      if computeEpochAtSlot cfg block.slot < computeEpochAtSlot cfg (s.slot cfg) then
        (.ok (), s.updateCheckpoints cfg env.toEnv justified finalized)
      else (.ok (), s)

/-- `OnBlock` from the import of the block on. -/
def importBlock (env : BlockEnv) (block : BeaconBlock)
    (justified finalized : Checkpoint) : Except String Unit × Store :=
  let s := (s.attach env block justified finalized).boostTimely cfg block
  let s := s.updateCheckpoints cfg env.toEnv justified finalized
  s.settle cfg env block justified finalized

def onBlock (env : BlockEnv) (block : BeaconBlock) :
    Except String Unit × Store :=
  let s := s.clearHead
  match env.hashError with
  | some e => (.error e, s)
  | none =>
    if s.slot cfg < block.slot then
      (.error "block is too early compared to current_slot", s)
    else if block.slot ≤ computeStartSlotAtEpoch cfg s.finalizedCheckpoint.epoch then (.ok (), s)
    else
      match env.rejected with
      | some e => (.error e, s)
      | none =>
        match s.graph.getHeader block.root with
        | some _ => (.ok (), s)
        | none =>
          if block.slot ≤ s.graph.anchorSlot then (.ok (), s)
          else
            match env.transition with
            | .error e => (.error e, s)
            | .ok none => (.error "replay block, status chain missing segment", s)
            | .ok (some (justified, finalized)) =>
              s.importBlock cfg env block justified finalized

variable (time : Nat)

def onTickPerSlot : Store :=
  let previousSlot := s.slot cfg
  let s := { s with time := time }
  if s.slot cfg ≤ previousSlot then s
  else
    let s : Store := { s.clearHead with proposerBoostRoot := 0 }
    let currentSlot := s.slot cfg
    let sinceEpochStart := (currentSlot + 2 ^ 64 -
      computeStartSlotAtEpoch cfg (computeEpochAtSlot cfg currentSlot)) % 2 ^ 64
    if sinceEpochStart = 0 then
      s.updateCheckpoints cfg env s.unrealizedJustifiedCheckpoint s.unrealizedFinalizedCheckpoint
    else s

/-- The loop of `OnTick` over the slots before the last. -/
def tickSlots (cfg : BeaconConfig) (env : Env) (tickSlot : Nat) : Nat → Store → Store
  | 0, s => s
  | fuel + 1, s =>
    if s.slot cfg < tickSlot then
      let previousTime :=
        (s.genesisTime + (s.slot cfg + 1) % 2 ^ 64 * cfg.secondsPerSlot) % 2 ^ 64
      tickSlots cfg env tickSlot fuel (s.onTickPerSlot cfg env previousTime)
    else s

def onTick : Store :=
  let tickSlot := (time + 2 ^ 64 - s.genesisTime) % 2 ^ 64 / cfg.secondsPerSlot
  (tickSlots cfg env tickSlot tickSlot s).onTickPerSlot cfg env time

theorem onTickPerSlot_times : (s.onTickPerSlot cfg env time).time = time ∧
    (s.onTickPerSlot cfg env time).genesisTime = s.genesisTime := by
  rw [onTickPerSlot]
  dsimp only
  split
  · exact ⟨rfl, rfl⟩
  · split
    · rw [updateCheckpoints]
      split <;> split <;> exact ⟨rfl, rfl⟩
    · exact ⟨rfl, rfl⟩

/-- A turn of the loop of `OnTick` comes to the next slot. -/
theorem slot_onTickPerSlot {cfg : BeaconConfig} (hgenesis : cfg.genesisSlot = 0) (s : Store)
    (env : Env) (htime : s.genesisTime < 2 ^ 64)
    (hfit : (s.slot cfg + 1) * cfg.secondsPerSlot < 2 ^ 64) :
    (s.onTickPerSlot cfg env
      ((s.genesisTime + (s.slot cfg + 1) % 2 ^ 64 * cfg.secondsPerSlot) % 2 ^ 64)).slot cfg =
      s.slot cfg + 1 := by
  have hlt : s.slot cfg + 1 < 2 ^ 64 :=
    (Nat.le_mul_of_pos_right _ cfg.secondsPerSlot_pos).trans_lt hfit
  rw [Nat.mod_eq_of_lt hlt]
  conv_lhs => rw [slot]
  rw [(onTickPerSlot_times ..).1, (onTickPerSlot_times ..).2, hgenesis, Nat.zero_add]
  have hdiff : ((s.genesisTime + (s.slot cfg + 1) * cfg.secondsPerSlot) % 2 ^ 64 + 2 ^ 64 -
      s.genesisTime) % 2 ^ 64 = (s.slot cfg + 1) * cfg.secondsPerSlot := by
    generalize (s.slot cfg + 1) * cfg.secondsPerSlot = q at hfit
    omega
  rw [hdiff, Nat.mul_div_cancel _ cfg.secondsPerSlot_pos, Nat.mod_eq_of_lt hlt]

/-- The loop of `OnTick` ends in the slot of the tick, or after it. -/
theorem le_slot_tickSlots {cfg : BeaconConfig} (hgenesis : cfg.genesisSlot = 0) (env : Env)
    {tickSlot : Nat} (htick : tickSlot * cfg.secondsPerSlot < 2 ^ 64) {fuel : Nat} {s : Store}
    (htime : s.genesisTime < 2 ^ 64) (hfuel : tickSlot ≤ fuel + s.slot cfg) :
    tickSlot ≤ (tickSlots cfg env tickSlot fuel s).slot cfg := by
  induction fuel generalizing s with
  | zero =>
    rw [tickSlots]
    omega
  | succ fuel ih =>
    rw [tickSlots]
    split
    · rename_i hlt
      have hfit : (s.slot cfg + 1) * cfg.secondsPerSlot < 2 ^ 64 :=
        (Nat.mul_le_mul_right _ hlt).trans_lt htick
      have hslot := slot_onTickPerSlot hgenesis s env htime hfit
      refine ih ?_ ?_
      · rw [(onTickPerSlot_times ..).2]
        exact htime
      · rw [hslot]
        omega
    · omega

end Store

/-- The data of an attestation. -/
structure AttestationData where
  slot : Nat
  beaconBlockRoot : Root
  target : Checkpoint

namespace Store

/-- The walk of `Ancestor` down to a slot. -/
def ancestorLoop (g : ForkGraph) (slot : Nat) : Nat → Root → Root
  | 0, _ => 0
  | fuel + 1, root =>
    match g.getHeader root with
    | none => 0
    | some header => if header.slot > slot then ancestorLoop g slot fuel header.parentRoot else root

variable (s : Store)

def ancestor (root : Root) (slot : Nat) : Root :=
  ancestorLoop s.graph slot (s.graph.height root + 1) root

variable (cfg : BeaconConfig) (data : AttestationData)

def validateOnAttestation :
    Except String Unit :=
  if data.target.epoch ≠ computeEpochAtSlot cfg data.slot then
    .error "mismatching target epoch with slot data"
  else if (s.graph.getHeader data.target.root).isNone then .error "target root is missing"
  else if (s.graph.getHeader data.beaconBlockRoot).all fun header => decide (header.slot > data.slot)
    then .error "bad attestation data"
  else
    let targetSlot := computeStartSlotAtEpoch cfg data.target.epoch
    let ancestorRoot := s.ancestor data.beaconBlockRoot targetSlot
    if ancestorRoot = 0 then .error "could not retrieve ancestor"
    else if ancestorRoot ≠ data.target.root then .error "ancestor root mismatches with target"
    else .ok ()

def validateTargetEpochAgainstCurrentTime
    : Except String Unit :=
  let currentEpoch := computeEpochAtSlot cfg (s.slot cfg)
  let previousEpoch :=
    if currentEpoch ≤ cfg.genesisEpoch then cfg.genesisEpoch else currentEpoch - 1
  if data.target.epoch = currentEpoch ∨ data.target.epoch = previousEpoch then .ok ()
  else .error "verification of attestation against current time failed"

/-- One turn of the loop of `processAttestingIndicies`. -/
def takeVote (s : Store) (index : Nat) : Store :=
  if s.isUnequivocating index then s
  else
    let newer :=
      match s.latestMessages.get index with
      | none => true
      | some message => decide (data.target.epoch > message.epoch)
    if newer then
      { s with
        latestMessages := s.latestMessages.set index ⟨data.target.epoch, data.beaconBlockRoot⟩ }
    else s

def processAttestingIndicies (indicies : List Nat) : Store :=
  indicies.foldl (takeVote data) s

/-- `OnAttestation`; `verified` is how the committee and the signature are found. -/
def onAttestation (fromBlock : Bool)
    (verified : Except String (List Nat)) : Except String Unit × Store :=
  if !s.synced then (.ok (), s)
  else
    let s := s.clearHead
    match s.validateOnAttestation cfg data with
    | .error e => (.error e, s)
    | .ok () =>
      let currentEpoch := computeEpochAtSlot cfg (s.slot cfg)
      if s.slot cfg < (data.slot + 1) % 2 ^ 64 ∨ data.target.epoch > currentEpoch then (.ok (), s)
      else
        match if fromBlock then .ok () else s.validateTargetEpochAgainstCurrentTime cfg data with
        | .error e => (.error e, s)
        | .ok () =>
          match verified with
          | .error e => (.error e, s)
          | .ok indicies => (.ok (), s.processAttestingIndicies data indicies)

/-- The loop of `onProcessAttesterSlashing` over the validators that signed both attestations;
`isSlashable` is what the state says of a validator, who is only asked for until one is found. -/
def slashLoop (isSlashable : Nat → Except String Bool) :
    Bool → List Nat → Store → Except String Unit × Store
  | _, [], s => (.ok (), s)
  | anySlashed, index :: rest, s =>
    let s := { s with equivocatingIndicies := insert index s.equivocatingIndicies }
    if anySlashed then slashLoop isSlashable anySlashed rest s
    else
      match isSlashable index with
      | .error e => (.error ("unable to retrieve state: " ++ e), s)
      | .ok slashable => slashLoop isSlashable slashable rest s

/-- `OnAttesterSlashing`; `known` says that the pool has the slashing, and `verified` gives the
validators that signed both attestations if they are found to be slashable and valid. -/
def onAttesterSlashing (known : Bool) (verified : Except String (List Nat))
    (isSlashable : Nat → Except String Bool) : Except String Unit × Store :=
  if known then (.ok (), s)
  else
    match verified with
    | .error e => (.error e, s)
    | .ok indicies => slashLoop isSlashable false indicies s

end Store

end ForkChoice

end Erigon
