/-
The validator sets of bor: validators sorted by address, each with a voting power and a priority.
Rounds choose the validator of the highest priority as proposer; a list of changes adds, replaces
and removes validators.
-/
import Erigon.ByteOrder
import Erigon.SaturatingInt

namespace Erigon

namespace Heimdall

def maxTotalVotingPower : Int := maxInt64.tdiv 8

def priorityWindowSizeFactor : Int := 2

structure Validator where
  id : Nat
  address : Bytes
  votingPower : Int
  proposerPriority : Int
deriving DecidableEq

/-- `Validators`, `Proposer` and the cached `totalVotingPower`.  The index of the addresses is
always that of the validators. -/
structure ValidatorSet where
  validators : List Validator
  proposer : Option Validator
  totalVotingPower : Int

inductive ChangeError
  | duplicate (v : Validator) (changes : List Validator)
  | negative (v : Validator)
  | tooHigh (v : Validator)
  | zeroPower (deletes : List Validator)
  | notFound (address : Bytes)
  | exceeds (v : Validator)
  | emptySet
  | totalExceeded (sum : Int) (validators : List Validator)

/-- How a call fails: with an error, or by a panic. -/
inductive Fault
  | error (e : ChangeError)
  | panic (text : String)
  | panicError (e : ChangeError)

section Texts

-- the hexadecimal text of an address with its checksum, and in upper case
variable (checksumHex upperHex : Bytes → String)

def Validator.text (v : Validator) : String :=
  "Validator\x7b" ++ checksumHex v.address ++ " ID: " ++ toString v.id ++ " Power:" ++
    toString v.votingPower ++ " Priority:" ++ toString v.proposerPriority ++ "\x7d"

def listText (vs : List Validator) : String :=
  "[" ++ String.intercalate " " (vs.map (Validator.text checksumHex)) ++ "]"

def ChangeError.text : ChangeError → String
  | duplicate v changes =>
    "duplicate entry " ++ v.text checksumHex ++ " in " ++ listText checksumHex changes
  | negative v => "voting power can't be negative: " ++ v.text checksumHex
  | tooHigh v =>
    "to prevent clipping/ overflow, voting power can't be higher than " ++
      toString maxTotalVotingPower ++ ": " ++ v.text checksumHex ++ " "
  | zeroPower deletes =>
    "cannot process validators with voting power 0: " ++ listText checksumHex deletes
  | notFound address => "failed to find validator " ++ upperHex address ++ " to remove"
  | exceeds v =>
    "failed to add/update validator " ++ v.text checksumHex ++
      ", total voting power would exceed the max allowed " ++ toString maxTotalVotingPower
  | emptySet => "applying the validator changes would result in empty set"
  | totalExceeded sum validators =>
    "Total voting power should be guarded to not exceed " ++ toString maxTotalVotingPower ++
      "; got: " ++ toString sum ++ "; for validator set: " ++ listText checksumHex validators

end Texts

/-- What a call returns, with the set that it leaves. -/
abbrev Outcome (A : Type) := ValidatorSet × Except Fault A

namespace ValidatorSet

/-! ### The total -/

/-- The loop of `UpdateTotalVotingPower`. -/
def sumPowers (validators : List Validator) : Int → List Validator → Except ChangeError Int
  | sum, [] => .ok sum
  | sum, v :: rest =>
    let sum := safeAddClip sum v.votingPower
    if sum > maxTotalVotingPower then .error (.totalExceeded sum validators)
    else sumPowers validators sum rest

variable (vals : ValidatorSet)

def updateTotalVotingPower : ValidatorSet × Except ChangeError Unit :=
  match sumPowers vals.validators 0 vals.validators with
  | .ok sum => ({ vals with totalVotingPower := sum }, .ok ())
  | .error e => (vals, .error e)

/-- `TotalVotingPower`. -/
def total : Outcome Int :=
  if vals.totalVotingPower = 0 then
    match vals.updateTotalVotingPower with
    | (vals, .ok _) => (vals, .ok vals.totalVotingPower)
    | (vals, .error e) => (vals, .error (.panicError e))
  else (vals, .ok vals.totalVotingPower)

/-! ### Priorities -/

def mapPriority (f : Validator → Int) : ValidatorSet :=
  { vals with validators := vals.validators.map fun v => { v with proposerPriority := f v } }

variable (vs : List Validator)

def computeMaxMinPriorityDiff : Int :=
  let r := vs.foldl (fun (r : Int × Int) v =>
    (if v.proposerPriority > r.1 then v.proposerPriority else r.1,
      if v.proposerPriority < r.2 then v.proposerPriority else r.2)) (minInt64, maxInt64)
  let diff := int64 (r.1 - r.2)
  if diff < 0 then int64 (-1 * diff) else diff

def rescalePriorities (diffMax : Int) : Except Fault ValidatorSet :=
  if vals.validators = [] then .error (.panic "empty validator set")
  else if diffMax ≤ 0 then .ok vals
  else
    let diff := computeMaxMinPriorityDiff vals.validators
    let ratio := (int64 (int64 (diff + diffMax) - 1)).tdiv diffMax
    if diff > diffMax then
      if ratio = 0 then .error (.panic "integer divide by zero")
      else .ok (vals.mapPriority fun v => int64 (v.proposerPriority.tdiv ratio))
    else .ok vals

/-- `computeAvgProposerPriority`, by arithmetic without bounds. -/
def computeAvgProposerPriority : Except Fault Int :=
  let avg := (vs.map Validator.proposerPriority).sum / vs.length
  if minInt64 ≤ avg ∧ avg ≤ maxInt64 then .ok avg
  else .error (.panic ("Cannot represent avg ProposerPriority as an int64 " ++ toString avg))

def shiftByAvgProposerPriority : Except Fault ValidatorSet :=
  if vals.validators = [] then .error (.panic "empty validator set")
  else do
    let avg ← computeAvgProposerPriority vals.validators
    return vals.mapPriority fun v => safeSubClip v.proposerPriority avg

/-! ### Proposers -/

/-- `Cmp`, for validators with their places in the list. -/
def cmp : Option (Validator × Nat) → Validator × Nat → Except Fault (Validator × Nat)
  | none, other => .ok other
  | some v, other =>
    if v.1.proposerPriority > other.1.proposerPriority then .ok v
    else if v.1.proposerPriority < other.1.proposerPriority then .ok other
    else if v.1.address = other.1.address then
      .error (.panic "Cannot compare identical validators")
    else if v.1.address < other.1.address then .ok v
    else .ok other

def mostPriority : Option (Validator × Nat) → List (Validator × Nat) →
    Except Fault (Option (Validator × Nat))
  | res, [] => .ok res
  | res, v :: rest => do
    let r ← cmp res v
    mostPriority (some r) rest

def getValWithMostPriority : Except Fault (Option (Validator × Nat)) :=
  mostPriority none vs.zipIdx

/-- The validators of a round after the additions. -/
def addPowers : ValidatorSet :=
  vals.mapPriority fun v => safeAddClip v.proposerPriority v.votingPower

def incrementProposerPriority : Except Fault (ValidatorSet × Validator) := do
  let vals := vals.addPowers
  match ← getValWithMostPriority vals.validators with
  | none => .error (.panic "nil pointer dereference")
  | some (mostest, i) =>
    match vals.total with
    | (_, .error f) => .error f
    | (vals, .ok power) =>
      let mostest := { mostest with
        proposerPriority := safeSubClip mostest.proposerPriority power }
      return ({ vals with validators := vals.validators.set i mostest }, mostest)

/-- The rounds of `IncrementProposerPriority`, with the proposers in turn. -/
def rounds : Nat → ValidatorSet → Except Fault (ValidatorSet × List Validator)
  | 0, vals => .ok (vals, [])
  | k + 1, vals => do
    let r ← rounds k vals
    let s ← r.1.incrementProposerPriority
    return (s.1, r.2 ++ [s.2])

/-- The set before the first round. -/
def normalize : Except Fault ValidatorSet :=
  match vals.total with
  | (_, .error f) => .error f
  | (vals, .ok power) => do
    let vals ← vals.rescalePriorities (int64 (priorityWindowSizeFactor * power))
    vals.shiftByAvgProposerPriority

/-- `IncrementProposerPriority(times)`. -/
def incrementProposerPriorityTimes (times : Int) :
    Except Fault ValidatorSet :=
  if vals.validators = [] then .error (.panic "empty validator set")
  else if times ≤ 0 then
    .error (.panic "Cannot call IncrementProposerPriority with non-positive times")
  else do
    let vals ← vals.normalize
    let r ← rounds times.toNat vals
    return { r.1 with proposer := r.2.getLast? }

/-! ### Changes -/

/-- `GetByAddress`; of validators with one address the index has the last. -/
def getByAddress (address : Bytes) : Option Validator :=
  vals.validators.reverse.find? fun v => decide (v.address = address)

/-- The scan of `processChanges` over the sorted changes. -/
def scanChanges (changes : List Validator) : Option Bytes → List Validator →
    Except ChangeError (List Validator × List Validator)
  | _, [] => .ok ([], [])
  | prevAddr, v :: rest =>
    if prevAddr = some v.address then .error (.duplicate v changes)
    else if v.votingPower < 0 then .error (.negative v)
    else if v.votingPower > maxTotalVotingPower then .error (.tooHigh v)
    else
      match scanChanges changes (some v.address) rest with
      | .error e => .error e
      | .ok (updates, removals) =>
        if v.votingPower = 0 then .ok (updates, v :: removals)
        else .ok (v :: updates, removals)

variable (sort : List Validator → List Validator)

def processChanges (origChanges : List Validator) :
    Except ChangeError (List Validator × List Validator) :=
  scanChanges (sort origChanges) none (sort origChanges)

/-- The total and the number of new validators after an update. -/
def afterUpdate (total : Int) (numNewValidators : Nat) (v : Validator) :
    Int × Nat :=
  match vals.getByAddress v.address with
  | none => (int64 (total + v.votingPower), numNewValidators + 1)
  | some val => (int64 (total + int64 (v.votingPower - val.votingPower)), numNewValidators)

/-- The loop of `verifyUpdates`. -/
def verifyTotals (vals : ValidatorSet) : Int → Nat → List Validator → Except ChangeError (Int × Nat)
  | total, numNewValidators, [] => .ok (total, numNewValidators)
  | total, numNewValidators, v :: rest =>
    let r := vals.afterUpdate total numNewValidators v
    if r.1 > maxTotalVotingPower then .error (.exceeds v)
    else verifyTotals vals r.1 r.2 rest

def verifyUpdates (updates : List Validator) (vals : ValidatorSet) : Outcome (Int × Nat) :=
  match vals.total with
  | (vals, .error f) => (vals, .error f)
  | (vals, .ok power) =>
    match vals.verifyTotals power 0 updates with
    | .error e => (vals, .error (.error e))
    | .ok r => (vals, .ok r)

def computeNewPriorities (updates : List Validator) (vals : ValidatorSet)
    (updatedTotalVotingPower : Int) : List Validator :=
  updates.map fun v =>
    match vals.getByAddress v.address with
    | none =>
      { v with
        proposerPriority :=
          int64 (-int64 (updatedTotalVotingPower + updatedTotalVotingPower / 8)) }
    | some val => { v with proposerPriority := val.proposerPriority }

def applyUpdates : List Validator → List Validator → List Validator
  | [], updates => updates
  | e :: existing, [] => e :: existing
  | e :: existing, u :: updates =>
    if e.address < u.address then e :: applyUpdates existing (u :: updates)
    else if e.address = u.address then u :: applyUpdates existing updates
    else u :: applyUpdates (e :: existing) updates
termination_by existing updates => existing.length + updates.length

def verifyRemovals (deletes : List Validator) (vals : ValidatorSet) : Except Fault Unit :=
  match deletes.find? fun v => (vals.getByAddress v.address).isNone with
  | some v => .error (.error (.notFound v.address))
  | none =>
    if deletes.length > vals.validators.length then .error (.panic "more deletes than validators")
    else .ok ()

/-- `applyRemovals`, where a missing validator ends the loop with an index out of range. -/
def applyRemovals : List Validator → List Validator → Except Fault (List Validator)
  | existing, [] => .ok existing
  | [], _ :: _ => .error (.panic "index out of range")
  | e :: existing, d :: deletes =>
    if e.address = d.address then applyRemovals existing deletes
    else do
      let merged ← applyRemovals existing (d :: deletes)
      return e :: merged

/-- `updateWithChangeSet` from where the changes are verified. -/
def applyChanges (updates deletes : List Validator)
    (updatedTotalVotingPower : Int) : Outcome Unit :=
  let updates := computeNewPriorities updates vals updatedTotalVotingPower
  match applyRemovals (applyUpdates vals.validators updates) deletes with
  | .error f => (vals, .error f)
  | .ok merged =>
    match updateTotalVotingPower { vals with validators := merged } with
    | (vals, .error e) => (vals, .error (.error e))
    | (vals, .ok _) =>
      match vals.total with
      | (vals, .error f) => (vals, .error f)
      | (vals, .ok power) =>
        match vals.rescalePriorities (int64 (priorityWindowSizeFactor * power)) with
        | .error f => (vals, .error f)
        | .ok vals =>
          match vals.shiftByAvgProposerPriority with
          | .error f => (vals, .error f)
          | .ok vals => (vals, .ok ())

def updateWithChangeSet (allowDeletes : Bool)
    (changes : List Validator) (vals : ValidatorSet) : Outcome Unit :=
  if changes.length < 1 then (vals, .ok ())
  else
    match processChanges sort changes with
    | .error e => (vals, .error (.error e))
    | .ok (updates, deletes) =>
      if !allowDeletes && decide (deletes.length ≠ 0) then
        (vals, .error (.error (.zeroPower deletes)))
      else
        match verifyRemovals deletes vals with
        | .error f => (vals, .error f)
        | .ok _ =>
          match verifyUpdates updates vals with
          | (vals, .error f) => (vals, .error f)
          | (vals, .ok (updatedTotalVotingPower, numNewValidators)) =>
            if numNewValidators = 0 ∧ vals.validators.length = deletes.length then
              (vals, .error (.error .emptySet))
            else vals.applyChanges updates deletes updatedTotalVotingPower

end ValidatorSet

end Heimdall

end Erigon
