/-
The fork choice store: the tree of the imported blocks, the latest votes of the validators,
and the choice of the head among the leaves of the tree.
-/
import Mathlib.Data.BitVec
import Erigon.DeletingSearch
import Erigon.MachineWord
import Erigon.ParentWalk
import Erigon.Query

namespace Erigon

namespace ForkChoice

open KeyedTable

abbrev Root := BitVec 256

/-- The constants of the beacon configuration that the fork choice reads. -/
structure BeaconConfig where
  slotsPerEpoch : Nat
  secondsPerSlot : Nat
  intervalsPerSlot : Nat
  genesisSlot : Nat
  genesisEpoch : Nat
  proposerScoreBoost : Word
  slotsPerEpoch_pos : 0 < slotsPerEpoch
  slotsPerEpoch_lt : slotsPerEpoch < 2 ^ 60
  secondsPerSlot_pos : 0 < secondsPerSlot

structure Checkpoint where
  epoch : Nat
  root : Root
deriving DecidableEq

structure BeaconBlockHeader where
  slot : Nat
  parentRoot : Root
deriving DecidableEq

/-- The tables of the fork graph that are kept for each block. -/
structure ForkGraph where
  anchorSlot : Nat
  anchorRoot : Root
  headers : List (Root × BeaconBlockHeader)
  currentJustifiedCheckpoints : List (Root × Checkpoint)
  finalizedCheckpoints : List (Root × Checkpoint)

def ForkGraph.getHeader (g : ForkGraph) (blockRoot : Root) : Option BeaconBlockHeader :=
  load g.headers blockRoot

/-- Before the anchor nothing is stored; above it every block has a greater slot than its
parent, so that the slot bounds a walk to the anchor. -/
def ForkGraph.height (g : ForkGraph) (blockRoot : Root) : Nat :=
  match g.getHeader blockRoot with
  | none => 0
  | some header => header.slot + 1

structure LatestMessage where
  epoch : Nat
  root : Root
deriving DecidableEq

instance : Inhabited LatestMessage := ⟨⟨0, 0⟩⟩

/-- The latest messages of the validators, each message stored once under a number of 16 bits. -/
structure LatestMessagesStore where
  messageByIdx : List (Nat × LatestMessage)
  idxByMessage : List (LatestMessage × Nat)
  countOfMessages : List (LatestMessage × Nat)
  latestMessages : List Nat
  capacity : Nat
  currID : Nat
deriving DecidableEq

namespace LatestMessagesStore

def newLatestMessagesStore (size : Nat) : LatestMessagesStore :=
  ⟨[], [], [], List.replicate size 0, size * 3 / 2, 0⟩

variable (l : LatestMessagesStore) (idx : Nat)

def get : Option LatestMessage :=
  match l.latestMessages[idx]? with
  | none => none
  | some id => load l.messageByIdx id

def latestMessagesCount : Nat := l.latestMessages.length

/-- A new message gets the next number. -/
def number (m : LatestMessage) : LatestMessagesStore :=
  match load l.idxByMessage m with
  | some _ => l
  | none =>
    let id := (l.currID + 1) % 2 ^ 16
    { l with
      currID := id
      idxByMessage := store l.idxByMessage m id
      messageByIdx := store l.messageByIdx id m }

/-- Make room for an index; beyond the capacity the slice starts anew. -/
def grow : LatestMessagesStore :=
  if idx < l.latestMessages.length then l
  else if l.capacity ≤ idx then
    { l with latestMessages := List.replicate (idx + 1) 0, capacity := (idx + 1) * 3 / 2 }
  else
    { l with
      latestMessages :=
        l.latestMessages ++ List.replicate (idx + 1 - l.latestMessages.length) 0 }

def doPrune : LatestMessagesStore :=
  (l.countOfMessages.filter fun e => decide (e.2 = 0)).foldl
    (fun l e =>
      { l with
        messageByIdx := delete l.messageByIdx ((load l.idxByMessage e.1).getD 0)
        idxByMessage := delete l.idxByMessage e.1
        countOfMessages := delete l.countOfMessages e.1 })
    l

def set (m : LatestMessage) : LatestMessagesStore :=
  let l := l.number m
  let messageID := (load l.idxByMessage m).getD 0
  let l := l.grow idx
  let prev := (l.get idx).getD default
  let count := (load l.countOfMessages prev).getD 0
  let counts :=
    if prev ≠ default ∧ 0 < count then store l.countOfMessages prev (count - 1)
    else l.countOfMessages
  doPrune
    { l with
      latestMessages := l.latestMessages.set idx messageID
      countOfMessages := store counts m ((load counts m).getD 0 + 1) }

end LatestMessagesStore

def bit (bitset : List UInt8) (i : Nat) : Bool := (bitset.getD (i / 8) 0).toNat.testBit (i % 8)

/-- What is kept of the state at a checkpoint: a balance for each validator and two sets of bits,
of as many bytes as the validators need. -/
structure CheckpointState where
  balances : List Word
  actives : List UInt8
  slasheds : List UInt8
  activeBalance : Word
  actives_length : actives.length = (balances.length + 7) / 8
  slasheds_length : slasheds.length = (balances.length + 7) / 8
  active_lt : ∀ i, bit actives i = true → i < balances.length

def outOfRange (i length : Nat) : String :=
  "runtime error: index out of range [" ++ toString i ++ "] with length " ++ toString length

def readFromBitset (bitset : List UInt8) (i : Nat) : Result Bool :=
  match bitset[i / 8]? with
  | none => .panic (outOfRange (i / 8) bitset.length)
  | some byte => .ok (byte.toNat.testBit (i % 8))

theorem readFromBitset_eq {bitset : List UInt8} {i : Nat} (hi : i / 8 < bitset.length) :
    readFromBitset bitset i = .ok (bit bitset i) := by
  rw [readFromBitset, bit, List.getD_eq_getElem?_getD, List.getElem?_eq_getElem hi]
  rfl

structure Childrens where
  childrenHashes : List Root
  parentSlot : Nat

/-- The store.  `checkpointStates` says how `getCheckpointState` ends with what the fork graph
has of the states. -/
structure Store where
  graph : ForkGraph
  childrens : List (Root × Childrens)
  headSet : Finset Root
  highestSeen : Nat
  justifiedCheckpoint : Checkpoint
  finalizedCheckpoint : Checkpoint
  unrealizedJustifiedCheckpoint : Checkpoint
  unrealizedFinalizedCheckpoint : Checkpoint
  proposerBoostRoot : Root
  latestMessages : LatestMessagesStore
  equivocatingIndicies : Finset Nat
  time : Nat
  genesisTime : Nat
  synced : Bool
  checkpointStates : Checkpoint → Except String CheckpointState
  headHash : Root
  headSlot : Nat
  weights : Root → Word

namespace Store

variable (s : Store)

def children (parent : Root) : List Root :=
  match load s.childrens parent with
  | none => []
  | some c => c.childrenHashes

def updateChildren (parentSlot : Nat) (parent child : Root) : Store :=
  let childrenHashes := s.children parent
  if child ∈ childrenHashes then s
  else
    { s with childrens := KeyedTable.store s.childrens parent ⟨childrenHashes ++ [child], parentSlot⟩ }

def isUnequivocating (validatorIndex : Nat) : Bool :=
  decide (validatorIndex ∈ s.equivocatingIndicies)

/-- One turn of the loop of `computeVotes` over the validators. -/
def countVote (st : CheckpointState) (votes : Root → Word) (validatorIndex : Nat) :
    Result (Root → Word) :=
  let message := (s.latestMessages.get validatorIndex).getD default
  if message = default then .ok votes
  else do
    let active ← readFromBitset st.actives validatorIndex
    if !active then .ok votes
    else do
      let slashed ← readFromBitset st.slasheds validatorIndex
      if slashed then .ok votes
      else if (s.latestMessages.get validatorIndex).isNone then .ok votes
      else if s.isUnequivocating validatorIndex then .ok votes
      else
        match st.balances[validatorIndex]? with
        | none => .panic (outOfRange validatorIndex st.balances.length)
        | some balance =>
          .ok (Function.update votes message.root (votes message.root + balance))

variable (cfg : BeaconConfig)

/-- The weight of the proposer boost. -/
def boost (st : CheckpointState) : Word :=
  st.activeBalance / BitVec.ofNat 64 cfg.slotsPerEpoch * cfg.proposerScoreBoost / 100

def addBoost (st : CheckpointState) (votes : Root → Word) :
    Root → Word :=
  if s.proposerBoostRoot ≠ 0 then
    Function.update votes s.proposerBoostRoot (votes s.proposerBoostRoot + boost cfg st)
  else votes

def computeVotes (st : CheckpointState) :
    Result (Root → Word) := do
  let votes ← (List.range s.latestMessages.latestMessagesCount).foldlM (s.countVote st) fun _ => 0
  .ok (s.addBoost cfg st votes)

/-- The loop of `accountWeights` from a leaf towards the justified root. -/
def accountWeights (g : ForkGraph) (justifiedRoot : Root) :
    Nat → Root → Word → (Root → Word) × (Root → Word) → (Root → Word) × (Root → Word)
  | 0, _, _, s => s
  | fuel + 1, curr, accumulated, (votes, weights) =>
    if curr = justifiedRoot then (votes, weights)
    else
      let accumulated := accumulated + votes curr
      let votes := Function.update votes curr 0
      let weights := Function.update weights curr (weights curr + accumulated)
      match g.getHeader curr with
      | none => (votes, weights)
      | some header =>
        accountWeights g justifiedRoot fuel header.parentRoot accumulated (votes, weights)

/-- The weights that the votes give to the blocks, with the heads in the order of `heads`. -/
def weigh (g : ForkGraph) (justifiedRoot : Root) (votes : Root → Word) (heads : List Root) :
    Root → Word :=
  (heads.foldl (fun s head => accountWeights g justifiedRoot (g.height head + 1) head 0 s)
    (votes, fun _ => 0)).2

/-- The test of a leaf: its checkpoints are those of the store. -/
def agrees (blockRoot : Root) : Bool :=
  match load s.graph.currentJustifiedCheckpoints blockRoot with
  | none => false
  | some currentJustified =>
    match load s.graph.finalizedCheckpoints blockRoot with
    | none => false
    | some finalized =>
      (decide (s.justifiedCheckpoint.epoch = cfg.genesisEpoch) ||
          decide (currentJustified = s.justifiedCheckpoint)) &&
        (decide (s.finalizedCheckpoint.epoch = cfg.genesisEpoch) ||
          decide (finalized = s.finalizedCheckpoint))

/-- Whether a block is viable, and the viable blocks with those found below it. -/
def getFilterBlockTree (s : Store) (cfg : BeaconConfig) :
    Nat → Root → List Root → Bool × List Root
  | 0, _, blocks => (false, blocks)
  | fuel + 1, blockRoot, blocks =>
    match s.graph.getHeader blockRoot with
    | none => (false, blocks)
    | some _ =>
      if s.children blockRoot ≠ [] then
        let r := (s.children blockRoot).foldl
          (fun r child =>
            let q := getFilterBlockTree s cfg fuel child r.2
            (r.1 || q.1, q.2))
          (false, blocks)
        if r.1 then (true, blockRoot :: r.2) else r
      else if s.agrees cfg blockRoot then (true, blockRoot :: blocks)
      else (false, blocks)

/-- The levels of the tree are bounded by the slots of its blocks. -/
def getFilteredBlockTree (base : Root) : List Root :=
  (s.getFilterBlockTree cfg (s.highestSeen + 1) base []).2

/-- The last child of the greatest weight, in the order of the roots. -/
def bestChild (weights : Root → Word) (children : List Root) : Option Root :=
  match children.insertionSort (· ≤ ·) with
  | [] => none
  | first :: rest =>
    some (rest.foldl
      (fun best child => if weights child ≥ weights best then child else best) first)

/-- The loop of `GetHead` from a block down to a block without viable children. -/
def descend (s : Store) (blocks : List Root) (weights : Root → Word) : Nat → Root → Root
  | 0, head => head
  | fuel + 1, head =>
    match bestChild weights ((s.children head).filter fun child => decide (child ∈ blocks)) with
    | none => head
    | some child => descend s blocks weights fuel child

/-- `GetHead` without an auxiliary state; `heads` is the order in which the set of the heads is
gone through. -/
def getHead (heads : List Root) :
    Result (Root × Nat) × Store :=
  if s.headHash ≠ 0 then (.ok (s.headHash, s.headSlot), s)
  else
    match s.checkpointStates s.justifiedCheckpoint with
    | .error e => (.error e, s)
    | .ok st =>
      let root := s.justifiedCheckpoint.root
      match s.computeVotes cfg st with
      | .error e => (.error e, { s with headHash := root })
      | .panic e => (.panic e, { s with headHash := root })
      | .ok votes =>
        let blocks := s.getFilteredBlockTree cfg root
        let weights := weigh s.graph root votes heads
        let head := s.descend blocks weights (s.highestSeen + 1) root
        match s.graph.getHeader head with
        | none =>
          (.error "no slot for head is stored",
            { s with weights := weights, headHash := head })
        | some header =>
          (.ok (head, header.slot),
            { s with weights := weights, headHash := head, headSlot := header.slot })

end Store

end ForkChoice

end Erigon
