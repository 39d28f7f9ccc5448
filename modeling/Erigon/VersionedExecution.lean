/-
Transactions that run in parallel: what a run reads of the version map, what its
read set keeps of that, and what a validation of the read set against another map
says about a run on that map.
-/
import Erigon.IntraBlockState
import Erigon.SortedPairs

namespace Erigon

namespace IntraBlock

open Act (attempt)

/-! ### The version map -/

inductive CellFlag
  | done | estimate
deriving DecidableEq

structure WriteCell where
  flag : CellFlag
  incarnation : Int
  data : Option Val
deriving DecidableEq

/-- For every location the writes of the transactions, by their index. -/
abbrev VersionMap := Location → SortedPairs Int WriteCell

/-- `Read`: the last write before a transaction. -/
def VersionMap.read (vm : VersionMap) (txIdx : Int) (loc : Location) : ReadResult :=
  match (vm loc).floor (txIdx - 1) with
  | some (fk, fv) =>
    if fk ≠ -1 then
      match fv.flag with
      | .estimate => ⟨fk, -1, fv.data⟩
      | .done => ⟨fk, fv.incarnation, fv.data⟩
    else ⟨-1, -1, none⟩
  | none => ⟨-1, -1, none⟩

theorem VersionMap.read_of_status_none {vm : VersionMap} {txIdx : Int} {loc : Location}
    (h : (vm.read txIdx loc).status = .none) : vm.read txIdx loc = ⟨-1, -1, none⟩ := by
  unfold read at h ⊢
  split at h
  · split at h
    · rename_i fk fv _ hfk
      split at h <;> simp [ReadResult.status, hfk] at h
      split at h <;> simp at h
    · simp_all
  · simp_all

variable (reads : Address → AccountKey → Option VersionedRead)

/-- `ValidateVersion`, with a check that demands equal versions. -/
def validateVersion (vm : VersionMap)
    (txIdx : Int) : Prop :=
  ∀ addr key vr, reads addr key = some vr →
    let rr := vm.read txIdx (addr, key)
    match rr.status with
    | .done => vr.version = rr.version
    | .dependency => False
    | .none => vr.source = .storage

/-! ### Programs of calls -/

inductive Op
  | getBalance (addr : Address)
  | getNonce (addr : Address)
  | getCode (addr : Address)
  | getState (addr : Address) (key : StorageKey)
  | getCommittedState (addr : Address) (key : StorageKey)
  | exist (addr : Address)
  | addBalance (addr : Address) (amount : Uint256)
  | subBalance (addr : Address) (amount : Uint256)
  | setNonce (addr : Address) (nonce : Word)
  | setState (addr : Address) (key : StorageKey) (value : Uint256)
  | selfdestruct (addr : Address)
  | createAccount (addr : Address) (contractCreation : Bool)

/-- The call of an operation, and what it returns. -/
def Op.call (reader : StateReader) : Op → Call (Option Val)
  | .getBalance addr => (some ∘ .uint256) <$> IntraBlock.getBalance reader addr
  | .getNonce addr => (some ∘ .uint64) <$> IntraBlock.getNonce reader addr
  | .getCode addr => (some ∘ .bytes) <$> IntraBlock.getCode reader addr
  | .getState addr key => (some ∘ .uint256) <$> IntraBlock.getState reader addr key
  | .getCommittedState addr key =>
    (some ∘ .uint256) <$> IntraBlock.getCommittedState reader addr key
  | .exist addr => (some ∘ .bool) <$> IntraBlock.exist reader addr
  | .addBalance addr amount => (fun _ => none) <$> IntraBlock.addBalance reader addr amount
  | .subBalance addr amount => (fun _ => none) <$> IntraBlock.subBalance reader addr amount
  | .setNonce addr nonce => (fun _ => none) <$> IntraBlock.setNonce reader addr nonce
  | .setState addr key value => (fun _ => none) <$> IntraBlock.setState reader addr key value
  | .selfdestruct addr => (some ∘ .bool) <$> IntraBlock.selfdestruct reader addr
  | .createAccount addr contractCreation =>
    (fun _ => none) <$> IntraBlock.createAccount reader addr contractCreation

/-- Operations whose choice depends on what the earlier ones returned. -/
inductive Program
  | halt
  | step (op : Op) (next : Except String (Option Val) → Program)

/-- The results of a program; an error is a result, a panic ends the run. -/
def Program.results (reader : StateReader) : Program → Call (List (Except String (Option Val)))
  | .halt => pure []
  | .step op next => do
    let r ← attempt (op.call reader)
    return r :: (← (next r).results reader)

/-- The state of a transaction before it runs for the `incarnation`th time. -/
def fresh (txIndex : Nat) (incarnation : Int) : State :=
  { State.new true txIndex with incarnation := incarnation }

/-- A run of a transaction on a version map. -/
def execute (reader : StateReader) (vm : VersionMap) (txIndex : Nat) (incarnation : Int)
    (program : Program) : Result (List (Except String (Option Val))) × State :=
  Act.run (vm.read txIndex) (program.results reader) (fresh txIndex incarnation)

/-- The locations of the version map that a run looks at. -/
def lookups (reader : StateReader) (vm : VersionMap) (txIndex : Nat) (incarnation : Int)
    (program : Program) : List Location :=
  Act.asked (vm.read txIndex) (program.results reader) (fresh txIndex incarnation)

/-! ### Validated runs -/

/-- Equal versions carry equal values. -/
def VersionsAgree (vm vm' : VersionMap) (txIdx : Int) : Prop :=
  ∀ loc, (vm.read txIdx loc).status = .done →
    (vm'.read txIdx loc).version = (vm.read txIdx loc).version →
    (vm'.read txIdx loc).value = (vm.read txIdx loc).value

/-- The read set has a location as the map has it. -/
def Recorded (vm : VersionMap) (txIdx : Int)
    (loc : Location) : Prop :=
  ∃ vr, reads loc.1 loc.2 = some vr ∧
    match (vm.read txIdx loc).status with
    | .done => vr.source = .map ∧ vr.version = (vm.read txIdx loc).version
    | .dependency => False
    | .none => vr.source = .storage ∧ vr.version = ⟨-1, -1⟩

/-- A validated read set fixes what is recorded in it. -/
theorem Recorded.read_eq {reads : Address → AccountKey → Option VersionedRead}
    {vm vm' : VersionMap} {txIdx : Int} {loc : Location} (h : Recorded reads vm txIdx loc)
    (hvalid : validateVersion reads vm' txIdx) (hagree : VersionsAgree vm vm' txIdx) :
    vm'.read txIdx loc = vm.read txIdx loc := by
  obtain ⟨vr, hvr, hrecorded⟩ := h
  have hvalid := hvalid loc.1 loc.2 vr hvr
  cases hstatus : (vm.read txIdx loc).status with
  | dependency =>
    rw [hstatus] at hrecorded
    exact hrecorded.elim
  | done =>
    simp only [hstatus] at hrecorded
    cases hstatus' : (vm'.read txIdx loc).status with
    | dependency => simp [hstatus'] at hvalid
    | none => simp [hstatus', hrecorded.1] at hvalid
    | done =>
      simp only [hstatus'] at hvalid
      have hversion : (vm'.read txIdx loc).version = (vm.read txIdx loc).version :=
        hvalid.symm.trans hrecorded.2
      have hvalue := hagree loc hstatus hversion
      generalize vm'.read txIdx loc = r' at hversion hvalue ⊢
      generalize vm.read txIdx loc = r at hversion hvalue ⊢
      cases r'
      cases r
      simp_all [ReadResult.version]
  | none =>
    simp only [hstatus] at hrecorded
    cases hstatus' : (vm'.read txIdx loc).status with
    | dependency => simp [hstatus'] at hvalid
    | none =>
      rw [VersionMap.read_of_status_none hstatus, VersionMap.read_of_status_none hstatus']
    | done =>
      simp only [hstatus', hrecorded.2] at hvalid
      have hdep : (vm'.read txIdx loc).depIdx = -1 := by
        have := congrArg Version.txIndex hvalid
        simpa [ReadResult.version] using this.symm
      simp [ReadResult.status, hdep] at hstatus'

/-- A database without accounts. -/
def noAccounts : StateReader :=
  ⟨fun _ => .ok none, fun _ _ => .ok none, fun _ => .ok none, fun _ => .ok 0⟩

/-- A map in which nothing is written. -/
def blank : VersionMap := fun _ => ⟨[], .nil⟩

/-- A map in which the first transaction has written at one location. -/
def writtenOnce (at' : Location) (val : Val) : VersionMap := fun loc =>
  if loc = at' then ⟨[(0, ⟨.done, 0, some val⟩)], List.pairwise_singleton _ _⟩ else ⟨[], .nil⟩

theorem versionsAgree_blank (vm : VersionMap) (txIdx : Int) : VersionsAgree blank vm txIdx := by
  intro loc hdone
  cases hdone

/-- Whether an account exists is looked up, but not recorded. -/
def asksExistence : Program := .step (.exist 7) fun _ => .halt

end IntraBlock

end Erigon
