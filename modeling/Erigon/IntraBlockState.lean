/-
The state of a block under execution: objects that are read from the database and
changed in memory, a journal that takes changes back, and, where transactions run
in parallel, the versioned reads and writes of the transaction.
-/
import Erigon.Account
import Erigon.Query

namespace Erigon

namespace IntraBlock

abbrev Address := BitVec 160

/-- A `common.Hash` where it names a storage slot. -/
abbrev StorageKey := BitVec 256

abbrev Uint256 := BitVec 256

def ripemd : Address := 3

/-- The root of the empty trie. -/
def emptyRoot : Hash :=
  ⟨[0x56, 0xe8, 0x1f, 0x17, 0x1b, 0xcc, 0x55, 0xa6, 0xff, 0x83, 0x45, 0xe6, 0x92, 0xc0, 0xf8,
    0x6e, 0x5b, 0x48, 0xe0, 0x1b, 0x99, 0x6c, 0xad, 0xc0, 0x01, 0x62, 0x2f, 0xb5, 0xe3, 0x63,
    0xb4, 0x21], rfl⟩

/-- `accounts.Account`. -/
structure AccountData extends Account where
  initialised : Bool
  root : Hash
  prevIncarnation : Word
deriving DecidableEq

namespace AccountData

/-- `accounts.Account{}`. -/
def zero : AccountData := ⟨⟨0, 0, 0, 0⟩, false, 0, 0⟩

/-- A copy made with `Copy`, which leaves out the previous incarnation. -/
def copy (image : AccountData) : AccountData := { image with prevIncarnation := 0 }

end AccountData

/-- `StateReader`: what the database has. -/
structure StateReader where
  readAccountData : Address → Except String (Option AccountData)
  readAccountStorage : Address → StorageKey → Except String (Option Uint256)
  readAccountCode : Address → Except String (Option Bytes)
  readAccountCodeSize : Address → Except String Nat

/-! ### State objects -/

abbrev Storage := StorageKey → Option Uint256

structure StateObject where
  data : AccountData
  original : AccountData
  code : Option Bytes
  originStorage : Storage
  blockOriginStorage : Storage
  dirtyStorage : Storage
  dirtyCode : Bool
  selfdestructed : Bool
  deleted : Bool
  newlyCreated : Bool
  createdContract : Bool

namespace StateObject

variable (so : StateObject)

def empty : Bool :=
  decide (so.data.nonce = 0 ∧ so.data.balance = 0 ∧ so.data.codeHash = emptyCodeHash)

def setBalance (amount : Uint256) : StateObject :=
  { so with data := { so.data with balance := amount, initialised := true } }

def setNonce (nonce : Word) : StateObject :=
  { so with data := { so.data with nonce := nonce } }

def setCode (codeHash : Hash) (code : Option Bytes) : StateObject :=
  { so with code := code, data := { so.data with codeHash := codeHash }, dirtyCode := true }

def setState (key : StorageKey) (value : Uint256) : StateObject :=
  { so with dirtyStorage := Function.update so.dirtyStorage key (some value) }

end StateObject

def newObject (data original : AccountData) : StateObject :=
  let data := data.copy
  let data := if data.initialised then data else { data with balance := 0, initialised := true }
  let data := if data.codeHash = 0 then { data with codeHash := emptyCodeHash } else data
  let data := if data.root = 0 then { data with root := emptyRoot } else data
  { data := data
    original := original.copy
    code := none
    originStorage := fun _ => none
    blockOriginStorage := fun _ => none
    dirtyStorage := fun _ => none
    dirtyCode := false
    selfdestructed := false
    deleted := false
    newlyCreated := false
    createdContract := false }

/-! ### Versions -/

/-- `AccountKey`: a path, with the slot for a path into the storage. -/
inductive AccountKey
  | address | balance | nonce | code | codeHash | codeSize | selfDestruct
  | state (key : StorageKey)
deriving DecidableEq

/-- The values that are read and written under the paths. -/
inductive Val
  | account (a : AccountData)
  | uint256 (v : Uint256)
  | uint64 (v : Word)
  | bytes (v : Option Bytes)
  | hash (v : Hash)
  | int (v : Nat)
  | bool (v : Bool)
deriving DecidableEq

namespace Val

def asAccount : Val → Option (Option AccountData)
  | .account a => some (some a)
  | _ => none

def asUint256 : Val → Option Uint256
  | .uint256 v => some v
  | _ => none

def asUint64 : Val → Option Word
  | .uint64 v => some v
  | _ => none

def asBytes : Val → Option (Option Bytes)
  | .bytes v => some v
  | _ => none

def asHash : Val → Option Hash
  | .hash v => some v
  | _ => none

def asInt : Val → Option Nat
  | .int v => some v
  | _ => none

def asBool : Val → Option Bool
  | .bool v => some v
  | _ => none

end Val

structure Version where
  txIndex : Int
  incarnation : Int
deriving DecidableEq

structure ReadResult where
  depIdx : Int
  incarnation : Int
  value : Option Val
deriving DecidableEq

inductive ReadStatus
  | done | dependency | none
deriving DecidableEq

namespace ReadResult

def status (res : ReadResult) : ReadStatus :=
  if res.depIdx ≠ -1 then if res.incarnation = -1 then .dependency else .done else .none

def version (res : ReadResult) : Version := ⟨res.depIdx, res.incarnation⟩

end ReadResult

inductive ReadSource
  | map | storage
deriving DecidableEq

structure VersionedRead where
  source : ReadSource
  version : Version
  val : Option Val
deriving DecidableEq

structure VersionedWrite where
  version : Version
  val : Val
deriving DecidableEq

abbrev Location := Address × AccountKey

/-! ### The state -/

structure BalanceIncrease where
  increase : Uint256
  transferred : Bool
  count : Nat
deriving DecidableEq

/-- The entries of the journal; those for the debugging storage are left out.  The
pointer of a transfer is the increase that the map has for the account. -/
inductive JournalEntry
  | createObjectChange (account : Address)
  | resetObjectChange (account : Address) (prev : StateObject)
  | selfdestructChange (account : Address) (prev : Bool) (prevbalance : Uint256)
  | balanceChange (account : Address) (prev : Uint256)
  | balanceIncrease (account : Address) (increase : Uint256)
  | balanceIncreaseTransfer (account : Address)
  | nonceChange (account : Address) (prev : Word)
  | storageChange (account : Address) (key : StorageKey) (prevalue : Uint256) (wasCommited : Bool)
  | codeChange (account : Address) (prevcode : Option Bytes) (prevhash : Hash)
  | refundChange (prev : Word)
  | addLogChange (txIndex : Nat)
  | touchChange (account : Address)
  | accessListAddAccountChange (address : Address)
  | accessListAddSlotChange (address : Address) (slot : StorageKey)
  | transientStorageChange (account : Address) (key : StorageKey) (prevalue : Uint256)

def JournalEntry.dirtied : JournalEntry → Option Address
  | .createObjectChange account | .selfdestructChange account _ _ | .balanceChange account _
  | .balanceIncrease account _ | .nonceChange account _ | .storageChange account _ _ _
  | .codeChange account _ _ | .touchChange account => some account
  | .resetObjectChange _ _ | .balanceIncreaseTransfer _ | .refundChange _ | .addLogChange _
  | .accessListAddAccountChange _ | .accessListAddSlotChange _ _
  | .transientStorageChange _ _ _ => none

/-- A log, with what the state sets of it. -/
structure Log where
  payload : Bytes
  txIndex : Nat
  index : Nat
deriving DecidableEq

/-- The state of `IntraBlockState`; `versioned` says whether there is a version map.
The journal and the revisions have the newest entry first; an address without dirty
entries has the count zero. -/
structure State where
  objects : Address → Option StateObject
  nilAccounts : Address → Bool
  refund : Word
  txIndex : Nat
  logs : List (List Log)
  logSize : Nat
  accessList : Address → Option (Finset StorageKey)
  transientStorage : Address → StorageKey → Uint256
  journal : List JournalEntry
  dirties : Address → Nat
  validRevisions : List (Nat × Nat)
  nextRevisionId : Nat
  balanceInc : Address → Option BalanceIncrease
  versioned : Bool
  versionedWrites : Address → AccountKey → Option VersionedWrite
  versionedReads : Address → AccountKey → Option VersionedRead
  incarnation : Int
  dep : Int

/-- `New` and `NewWithVersionMap`, for a transaction. -/
def State.new (versioned : Bool) (txIndex : Nat) : State where
  objects _ := none
  nilAccounts _ := false
  refund := 0
  txIndex := txIndex
  logs := []
  logSize := 0
  accessList _ := none
  transientStorage _ _ := 0
  journal := []
  dirties _ := 0
  validRevisions := []
  nextRevisionId := 0
  balanceInc _ := none
  versioned := versioned
  versionedWrites _ _ := none
  versionedReads _ _ := none
  incarnation := 0
  dep := -1

/-- A call on the state, which may look into the version map. -/
abbrev Call (A : Type) := Act Location ReadResult State A

open Act (get modify throw crash ask attempt orElse)

/-! ### Journal, objects, versions -/

variable (s : State) (addr : Address)

/-- One more dirty entry of an address. -/
def State.dirty : State :=
  { s with dirties := Function.update s.dirties addr (s.dirties addr + 1) }

/-- `journal.append`. -/
def State.append (entry : JournalEntry) : State :=
  let s := { s with journal := entry :: s.journal }
  match entry.dirtied with
  | some addr => s.dirty addr
  | none => s

def append (entry : JournalEntry) : Call Unit := modify fun s => s.append entry

def State.version : Version := ⟨s.txIndex, s.incarnation⟩

def State.setObject (object : Option StateObject) : State :=
  { s with objects := Function.update s.objects addr object }

variable (f : StateObject → StateObject)

/-- A change through the pointer to the object of an address. -/
def State.updateObject : State :=
  s.setObject addr ((s.objects addr).map f)

def updateObject : Call Unit :=
  modify fun s => s.updateObject addr f

/-- The object that a pointer was just taken of. -/
def object : Call StateObject := do
  match (← get).objects addr with
  | some so => pure so
  | none => crash "nil pointer dereference"

variable (key : AccountKey)

def State.setWrite (w : Option VersionedWrite) :
    State :=
  { s with versionedWrites :=
      Function.update s.versionedWrites addr (Function.update (s.versionedWrites addr) key w) }

def State.setRead (r : VersionedRead) : State :=
  { s with versionedReads :=
      Function.update s.versionedReads addr (Function.update (s.versionedReads addr) key (some r)) }

def versionWritten (val : Val) : Call Unit :=
  modify fun s => if s.versioned then s.setWrite addr key (some ⟨s.version, val⟩) else s

def versionRead (source : ReadSource) (val : Val) : Call Unit :=
  modify fun s => if s.versioned then s.setRead addr key ⟨source, s.version, some val⟩ else s

/-- `versionedWrite`: a write is seen while its address is dirty. -/
def State.versionedWrite : Option VersionedWrite :=
  if s.versioned ∧ s.dirties addr ≠ 0 then s.versionedWrites addr key else none

/-- `setStateObject`. -/
def State.setStateObject (object : StateObject) : State :=
  match s.balanceInc addr with
  | some bi =>
    if !bi.transferred && !s.versioned then
      let object := { object with
        data := { object.data with balance := object.data.balance + bi.increase } }
      let s := { s with
        balanceInc := Function.update s.balanceInc addr (some { bi with transferred := true }) }
      (s.append (.balanceIncreaseTransfer addr)).setObject addr (some object)
    else s.setObject addr (some object)
  | none => s.setObject addr (some object)

def createObject (previous : Option StateObject) : Call Unit := do
  let account := { AccountData.zero with root := emptyRoot }
  let original := match previous with
    | none => AccountData.zero
    | some prev => prev.original
  let newobj := { (newObject account original).setNonce 0 with newlyCreated := true }
  match previous with
  | none => append (.createObjectChange addr)
  | some prev => append (.resetObjectChange addr prev)
  modify fun s => s.setStateObject addr newobj
  let so ← object addr
  versionWritten addr .address (.account so.data)

/-- `v.(T)`. -/
def assertType {T : Type} (cast : Val → Option T) (val : Option Val) : Call T :=
  match val.bind cast with
  | some v => pure v
  | none => crash "interface conversion"

/-- `versionedRead` with a version map, up to the read from storage: `storage` is what is
done where neither the transaction nor the map has the value, and `copyV` stands for a
recorded read; both are missing where only the map is asked.  The second value is what
the read from storage says beside its value. -/
def versionedLookup {T : Type} (commited : Bool) (defaultV : T)
    (cast : Val → Option T) (copyV : Option (T → Val)) (storage : Call (T × Bool)) :
    Call (T × Bool) := do
  let s ← get
  if (s.objects addr).any StateObject.deleted then return (defaultV, false)
  if (← ask (addr, .selfDestruct)).status = .done then return (defaultV, false)
  match if commited then none else s.versionedWrite addr key with
  | some vw => return (← assertType cast (some vw.val), false)
  | none =>
    let res ← ask (addr, key)
    let pr := s.versionedReads addr key
    let found : VersionedRead := ⟨.map, res.version, none⟩
    match res.status with
    | .done =>
      match pr with
      | some pr =>
        if pr.version = res.version then return (← assertType cast pr.val, false)
        if res.depIdx > pr.version.txIndex ∨ res.incarnation > pr.version.incarnation then
          modify fun s => { s with dep := max s.dep res.depIdx }
          modify fun s => s.setRead addr key found
          crash "found dependency"
      | none => pure ()
      match res.value.bind cast with
      | none => throw "unexpected type"
      | some v =>
        match copyV with
        | none => return (v, false)
        | some toVal =>
          modify fun s => s.setRead addr key { found with val := some (toVal v) }
          return (v, false)
    | .dependency =>
      modify fun s => { s with dep := res.depIdx }
      modify fun s => s.setRead addr key found
      crash "found dependency"
    | .none =>
      match pr with
      | some pr =>
        if pr.version = res.version then return (← assertType cast pr.val, false)
      | none => pure ()
      match copyV with
      | none => return (defaultV, false)
      | some toVal =>
        -- an error of the read leaves the default and no record
        match ← attempt storage with
        | .error _ => return (defaultV, false)
        | .ok (v, b) =>
          modify fun s => s.setRead addr key ⟨.storage, res.version, some (toVal v)⟩
          return (v, b)

/-- `versionedRead` where only the version map is asked. -/
def versionedMapRead {T : Type} (defaultV : T)
    (cast : Val → Option T) : Call T := do
  return (← versionedLookup addr key false defaultV cast none (pure (defaultV, false))).1

section Reader

variable (reader : StateReader) (addr : Address)

def getStateObject : Call (Option StateObject) := do
  let s ← get
  match s.objects addr with
  | some so => return some so
  | none =>
    -- a balance increase that waits for the account makes the account
    let missing : Call (Option StateObject) := do
      match s.balanceInc addr with
      | some bi =>
        if !bi.transferred && !s.versioned then
          createObject addr none
          return (← get).objects addr
        else return none
      | none => return none
    if s.nilAccounts addr then missing
    else
      match reader.readAccountData addr with
      | .error e => throw e
      | .ok none =>
        if s.versioned then
          match ← versionedMapRead addr .address none Val.asAccount with
          | none => return none
          | some readAccount =>
            let gone : Call Unit := modify fun s => s.setStateObject addr
              { newObject .zero .zero with data := .zero, original := .zero, deleted := true }
            match ← attempt (versionedMapRead addr .selfDestruct false Val.asBool) with
            | .error e =>
              gone
              throw e
            | .ok true =>
              gone
              return none
            | .ok false => insertVersioned readAccount
        else
          modify fun s => { s with nilAccounts := Function.update s.nilAccounts addr true }
          missing
      | .ok (some readAccount) =>
        if s.versioned then insertVersioned readAccount
        else insert readAccount none
where
  insert (account : AccountData) (code : Option Bytes) : Call (Option StateObject) := do
    modify fun s => s.setStateObject addr { newObject account account with code := code }
    return (← get).objects addr
  -- the account as the version map has it
  insertVersioned (readAccount : AccountData) : Call (Option StateObject) := do
    let account := readAccount
    let balance ← orElse (versionedMapRead addr .balance account.balance Val.asUint256)
      account.balance
    let account := if balance ≠ account.balance then { account.copy with balance := balance }
      else account
    let nonce ← orElse (versionedMapRead addr .nonce 0 Val.asUint64) 0
    let account := if nonce.toNat > account.nonce.toNat then { account.copy with nonce := nonce }
      else account
    let codeHash ← orElse (versionedMapRead addr .codeHash 0 Val.asHash) 0
    let account := if codeHash ≠ 0 then { account.copy with codeHash := codeHash } else account
    let code ← orElse (versionedMapRead addr .code none Val.asBytes) none
    versionRead addr .address .storage (.account account)
    insert account code

/-- `versionedRead` with a read from the object of the address. -/
def versionedRead {T : Type} (key : AccountKey) (commited : Bool) (defaultV : T)
    (cast : Val → Option T) (toVal : T → Val)
    (readStorage : Option StateObject → Call (T × Bool)) : Call (T × Bool) := do
  let storage : Call (T × Bool) := do readStorage (← getStateObject reader addr)
  if (← get).versioned then
    versionedLookup addr key commited defaultV cast (some toVal) storage
  else storage

/-- `GetOrNewStateObject`. -/
def getOrNewStateObject : Call StateObject := do
  match ← getStateObject reader addr with
  | some so =>
    if so.deleted then createObject addr (some so)
  | none => createObject addr none
  object addr

/-! ### Reads of objects -/

/-- `stateObject.Code`. -/
def objectCode : Call (Option Bytes) := do
  let so ← object addr
  match so.code with
  | some code => return some code
  | none =>
    if so.data.codeHash = emptyCodeHash then return none
    else
      match reader.readAccountCode addr with
      | .error e => throw ("can't code: " ++ e)
      | .ok code =>
        updateObject addr fun so => { so with code := code }
        return code

variable (key : StorageKey)

/-- `stateObject.GetCommittedState`; an error of the reader is dropped by all its callers. -/
def objectCommittedState : Call Uint256 := do
  let so ← object addr
  match so.originStorage key with
  | some value => return value
  | none =>
    if so.createdContract then return 0
    else
      match reader.readAccountStorage addr key with
      | .error _ => return 0
      | .ok res =>
        let out := res.getD 0
        updateObject addr fun so => { so with
          originStorage := Function.update so.originStorage key (some out)
          blockOriginStorage := Function.update so.blockOriginStorage key (some out) }
        return out

/-- `stateObject.GetState`, and whether the value is the committed one. -/
def objectState : Call (Uint256 × Bool) := do
  let so ← object addr
  match so.dirtyStorage key with
  | some value => return (value, false)
  | none => return (← objectCommittedState reader addr key, true)

/-! ### Getters -/

/-- A live object, neither missing nor deleted. -/
def alive (so : Option StateObject) : Option StateObject :=
  so.filter fun so => !so.deleted

def exist : Call Bool := do
  return (alive (← getStateObject reader addr)).isSome

def isEmpty : Call Bool := do
  return (alive (← getStateObject reader addr)).all StateObject.empty

def getBalance : Call Uint256 :=
  (·.1) <$> versionedRead reader addr .balance false 0 Val.asUint256 .uint256 fun so =>
    pure ((alive so).elim 0 fun so => so.data.balance, false)

def getNonce : Call Word :=
  (·.1) <$> versionedRead reader addr .nonce false 0 Val.asUint64 .uint64 fun so =>
    pure ((alive so).elim 0 fun so => so.data.nonce, false)

def getCode : Call (Option Bytes) :=
  (·.1) <$> versionedRead reader addr .code false none Val.asBytes .bytes fun so => do
    if (alive so).isSome then return (← objectCode reader addr, false) else return (none, false)

def getCodeSize : Call Nat :=
  (·.1) <$> versionedRead reader addr .codeSize false 0 Val.asInt .int fun so => do
    match alive so with
    | none => return (0, false)
    | some so =>
      match so.code with
      | some code => return (code.length, false)
      | none =>
        if so.data.codeHash = emptyCodeHash then return (0, false)
        else
          match reader.readAccountCodeSize addr with
          | .error e => throw e
          | .ok size => return (size, false)

def getCodeHash : Call Hash :=
  (·.1) <$> versionedRead reader addr .codeHash false 0 Val.asHash .hash fun so =>
    pure ((alive so).elim 0 fun so => so.data.codeHash, false)

/-- The read from storage of `GetState` and `SetState`. -/
def readState (so : Option StateObject) :
    Call (Uint256 × Bool) := do
  if (alive so).isSome then objectState reader addr key else return (0, false)

def getState : Call Uint256 :=
  (·.1) <$> versionedRead reader addr (.state key) false 0 Val.asUint256 .uint256
    (readState reader addr key)

def getCommittedState : Call Uint256 :=
  (·.1) <$> versionedRead reader addr (.state key) true 0 Val.asUint256 .uint256 fun so => do
    if (alive so).isSome then return (← objectCommittedState reader addr key, false)
    else return (0, false)

def hasSelfdestructed : Call Bool :=
  (·.1) <$> versionedRead reader addr .selfDestruct false false Val.asBool .bool fun so =>
    pure ((alive so).any fun so => !so.createdContract && so.selfdestructed, false)

def getTransientState : Call Uint256 := do
  return (← get).transientStorage addr key

/-! ### Changes -/

variable (amount : Uint256)

/-- `stateObject.SetBalance` and the versioned write. -/
def writeBalance : Call Unit := do
  append (.balanceChange addr (← object addr).data.balance)
  updateObject addr fun so => so.setBalance amount
  versionWritten addr .balance (.uint256 amount)

def touch : Call Unit := do
  append (.touchChange addr)
  if addr = ripemd then modify fun s => s.dirty addr

def addBalance : Call Unit := do
  let s ← get
  if !s.versioned ∧ (s.objects addr).isNone ∧ addr = ripemd ∧ amount = 0 then
    append (.balanceIncrease addr amount)
    modify fun s =>
      let bi := (s.balanceInc addr).getD ⟨0, false, 0⟩
      let bi := { bi with increase := bi.increase + amount, count := bi.count + 1 }
      { s with balanceInc := Function.update s.balanceInc addr (some bi) }
  else
    let so ← getOrNewStateObject reader addr
    if amount = 0 then
      if so.empty then
        versionWritten addr .balance (.uint256 so.data.balance)
        touch addr
    else writeBalance addr (so.data.balance + amount)

def subBalance : Call Unit := do
  if amount ≠ 0 then
    let so ← getOrNewStateObject reader addr
    writeBalance addr (so.data.balance - amount)

def setBalance : Call Unit := do
  let _ ← getOrNewStateObject reader addr
  writeBalance addr amount

def setNonce (nonce : Word) : Call Unit := do
  let so ← getOrNewStateObject reader addr
  append (.nonceChange addr so.data.nonce)
  updateObject addr fun so => so.setNonce nonce
  versionWritten addr .nonce (.uint64 nonce)

/-- An error of the read of the code before is dropped, and the code not set. -/
def setCode (keccak : Bytes → Hash) (addr : Address) (code : Option Bytes) : Call Unit := do
  let so ← getOrNewStateObject reader addr
  let codeHash := keccak (code.getD [])
  match ← attempt (objectCode reader addr) with
  | .error _ => pure ()
  | .ok prevcode =>
    append (.codeChange addr prevcode so.data.codeHash)
    updateObject addr fun so => so.setCode codeHash code
  versionWritten addr .code (.bytes code)
  versionWritten addr .codeHash (.hash codeHash)
  versionWritten addr .codeSize (.int (code.getD []).length)

def setState (value : Uint256) : Call Unit := do
  let _ ← getOrNewStateObject reader addr
  let (prev, commited) ← orElse (versionedRead reader addr (.state key) false 0 Val.asUint256
    .uint256 (readState reader addr key)) (0, false)
  if prev ≠ value then
    append (.storageChange addr key prev commited)
    updateObject addr fun so => so.setState key value
    versionWritten addr (.state key) (.uint256 value)

def selfdestruct : Call Bool := do
  match alive (← getStateObject reader addr) with
  | none => return false
  | some so =>
    append (.selfdestructChange addr so.selfdestructed so.data.balance)
    updateObject addr fun so => { so with
      selfdestructed := true
      createdContract := false
      data := { so.data with balance := 0 } }
    versionWritten addr .selfDestruct (.bool true)
    versionWritten addr .balance (.uint256 0)
    return true

def createAccount (contractCreation : Bool) : Call Unit := do
  let previous ← getStateObject reader addr
  let prevInc : Word := match previous with
    | some so => if so.selfdestructed then so.data.incarnation else 0
    | none => 0
  let prevInc := match previous with
    | some so => if prevInc.toNat < so.data.prevIncarnation.toNat then so.data.prevIncarnation
        else prevInc
    | none => prevInc
  createObject addr previous
  updateObject addr fun so =>
    let so := match previous with
      | some prev => if prev.selfdestructed then so
          else { so with data := { so.data with balance := prev.data.balance } }
      | none => so
    let so := { so with data := { so.data with initialised := true, prevIncarnation := prevInc } }
    if contractCreation then
      { so with createdContract := true, data := { so.data with incarnation := prevInc + 1 } }
    else { so with selfdestructed := false }
  let so ← object addr
  versionRead addr .address .storage (.account so.data)
  versionRead addr .balance .storage (.uint256 so.data.balance)
  versionWritten addr .address (.account so.data)
  versionWritten addr .balance (.uint256 so.data.balance)

def State.setTransientState (s : State) (addr : Address) (key : StorageKey) (value : Uint256) :
    State :=
  let slots := Function.update (s.transientStorage addr) key value
  { s with transientStorage := Function.update s.transientStorage addr slots }

def setTransientState (value : Uint256) : Call Unit := do
  let prev ← getTransientState addr key
  if prev ≠ value then
    append (.transientStorageChange addr key prev)
    modify fun s => s.setTransientState addr key value

def addLog (payload : Bytes) : Call Unit := do
  append (.addLogChange (← get).txIndex)
  modify fun s =>
    let logs := s.logs ++ List.replicate (s.txIndex + 1 - s.logs.length) []
    { s with
      logs := logs.modify s.txIndex (· ++ [⟨payload, s.txIndex, s.logSize⟩])
      logSize := s.logSize + 1 }

def addRefund (gas : Word) : Call Unit := do
  append (.refundChange (← get).refund)
  modify fun s => { s with refund := s.refund + gas }

def subRefund (gas : Word) : Call Unit := do
  append (.refundChange (← get).refund)
  if gas.toNat > (← get).refund.toNat then throw "refund counter below zero"
  modify fun s => { s with refund := s.refund - gas }

def addAddressToAccessList : Call Unit := do
  if (← get).accessList addr = none then
    modify fun s => { s with accessList := Function.update s.accessList addr (some ∅) }
    append (.accessListAddAccountChange addr)

def addSlotToAccessList (slot : StorageKey) : Call Unit := do
  let slots := (← get).accessList addr
  if slot ∉ slots.getD ∅ then
    modify fun s => { s with
      accessList := Function.update s.accessList addr (some (insert slot (slots.getD ∅))) }
    if slots = none then append (.accessListAddAccountChange addr)
    append (.accessListAddSlotChange addr slot)

/-! ### Reverts -/

/-- A change of the versioned write of a path back to the value before: no write where
that is the original value, and otherwise the value before in the write that is there. -/
def State.restoreWrite (s : State) (addr : Address) (key : AccountKey) (original : Bool)
    (prev : Val) : State :=
  if !s.versioned then s
  else if original then s.setWrite addr key none
  else s.setWrite addr key ((s.versionedWrites addr key).map fun w => { w with val := prev })

/-- `revert` of an entry.  The deletions from the version map are left out: they are at
the index of the transaction, and its reads stop below it. -/
def revertEntry : JournalEntry → Call Unit
  | .createObjectChange account => modify fun s => s.setObject account none
  | .resetObjectChange account prev => modify fun s => s.setStateObject account prev
  | .selfdestructChange account prev prevbalance => do
    let _ ← getStateObject reader account
    updateObject account fun so =>
      { so with selfdestructed := prev }.setBalance prevbalance
    if (← get).versioned then
      let so ← object account
      -- the value that goes back into the balance is the flag
      modify fun s => s.restoreWrite account .balance (so.original.balance = prevbalance)
        (.bool prev)
      modify fun s => s.setWrite account .selfDestruct none
  | .balanceChange account prev => do
    let _ ← getStateObject reader account
    let so ← object account
    updateObject account fun so => so.setBalance prev
    modify fun s => s.restoreWrite account .balance (so.original.balance = prev) (.uint256 prev)
  | .balanceIncrease account increase => modify fun s =>
    match s.balanceInc account with
    | none => s
    | some bi =>
      let bi := { bi with increase := bi.increase - increase, count := bi.count - 1 }
      { s with balanceInc :=
          Function.update s.balanceInc account (if bi.count = 0 then none else some bi) }
  | .balanceIncreaseTransfer account => modify fun s =>
    let bi := (s.balanceInc account).map fun bi => { bi with transferred := false }
    { s with balanceInc := Function.update s.balanceInc account bi }
  | .nonceChange account prev => do
    let _ ← getStateObject reader account
    let so ← object account
    updateObject account fun so => so.setNonce prev
    modify fun s => s.restoreWrite account .nonce (so.original.nonce = prev) (.uint64 prev)
  | .storageChange account key prevalue wasCommited => do
    let _ ← getStateObject reader account
    modify fun s => s.restoreWrite account (.state key) wasCommited (.uint256 prevalue)
    let _ ← object account
    updateObject account fun so => so.setState key prevalue
  | .codeChange account prevcode prevhash => do
    let _ ← getStateObject reader account
    let so ← object account
    updateObject account fun so => so.setCode prevhash prevcode
    let original := decide (so.original.codeHash = prevhash)
    modify fun s => s.restoreWrite account .code original (.bytes prevcode)
    modify fun s => s.restoreWrite account .codeHash original (.hash prevhash)
  | .refundChange prev => modify fun s => { s with refund := prev }
  | .addLogChange txIndex => do
    let s ← get
    match s.logs.getD txIndex [] with
    | [] => crash "can't revert log index"
    | _ :: _ =>
      modify fun s =>
        let logs := s.logs.modify txIndex List.dropLast
        { s with
          logs := if logs.getD txIndex [] = [] then logs.dropLast else logs
          logSize := s.logSize - 1 }
  | .touchChange _ => pure ()
  | .accessListAddAccountChange address => do
    match (← get).accessList address with
    | none => crash "reverting address change, address not present in list"
    | some slots =>
      if slots ≠ ∅ then crash "reverting address change, address has slots"
      modify fun s => { s with accessList := Function.update s.accessList address none }
  | .accessListAddSlotChange address slot => do
    match (← get).accessList address with
    | none => crash "reverting slot change, address not present in list"
    | some slots =>
      modify fun s => { s with
        accessList := Function.update s.accessList address (some (slots.erase slot)) }
  | .transientStorageChange account key prevalue =>
    modify fun s => s.setTransientState account key prevalue

/-- The entry is off the journal and its dirty mark with it. -/
def State.dropEntry (s : State) (rest : List JournalEntry) (entry : JournalEntry) : State :=
  let s := { s with journal := rest }
  match entry.dirtied with
  | some addr => { s with dirties := Function.update s.dirties addr (s.dirties addr - 1) }
  | none => s

/-- `journal.revert`: entries from the end, down to a length.  An error that an entry
returns is dropped. -/
def revertJournal (snapshot : Nat) : List JournalEntry → Call Unit
  | [] => pure ()
  | entry :: rest => do
    if rest.length < snapshot then pure ()
    else
      orElse (revertEntry reader entry) ()
      modify fun s => s.dropEntry rest entry
      revertJournal snapshot rest

def snapshot : Call Nat := do
  let s ← get
  modify fun s => { s with
    nextRevisionId := s.nextRevisionId + 1
    validRevisions := (s.nextRevisionId, s.journal.length) :: s.validRevisions }
  return s.nextRevisionId

/-- `RevertToSnapshot`; the search among the ascending ids finds the revision itself. -/
def revertToSnapshot (revid : Nat) : Call Unit := do
  let s ← get
  match s.validRevisions.find? fun rev => rev.1 = revid with
  | none => crash "revision id cannot be reverted"
  | some rev =>
    revertJournal reader rev.2 s.journal
    modify fun s => { s with
      validRevisions := s.validRevisions.filter fun rev => rev.1 < revid }
    modify fun s => if s.versioned then
      { s with versionedWrites := fun addr => if s.dirties addr = 0 then fun _ => none
          else s.versionedWrites addr }
      else s

end Reader

end IntraBlock

end Erigon
