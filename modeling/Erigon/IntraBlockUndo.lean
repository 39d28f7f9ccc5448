/-
What a revert of a journal entry does to a state in which the entry can be
reverted: the objects it needs are there, and nothing is read on the way.
-/
import Erigon.IntraBlockState
import Erigon.UndoLog

namespace Erigon

open Act

namespace IntraBlock

open State

/-- Whether the account that an object was made from has a property. -/
def State.originally (s : State) (addr : Address) (p : AccountData → Bool) : Bool :=
  (s.objects addr).any fun so => p so.original

/-- Take a versioned write out. -/
def State.clearWrite (s : State) (addr : Address) (key : AccountKey) : State :=
  if s.versioned then s.setWrite addr key none else s

/-- The state after a log of a transaction is taken back. -/
def State.dropLog (s : State) (txIndex : Nat) : State :=
  let logs := s.logs.modify txIndex List.dropLast
  { s with
    logs := if logs.getD txIndex [] = [] then logs.dropLast else logs
    logSize := s.logSize - 1 }

/-- The revert of an entry, as a function of the state. -/
def undone : JournalEntry → State → State
  | .createObjectChange account, s => s.setObject account none
  | .resetObjectChange account prev, s => s.setStateObject account prev
  | .selfdestructChange account prev prevbalance, s =>
    ((s.updateObject account fun so =>
      { so with selfdestructed := prev }.setBalance prevbalance).restoreWrite account .balance
        (s.originally account fun a => a.balance = prevbalance) (.bool prev)).clearWrite
      account .selfDestruct
  | .balanceChange account prev, s =>
    (s.updateObject account fun so => so.setBalance prev).restoreWrite account .balance
      (s.originally account fun a => a.balance = prev) (.uint256 prev)
  | .balanceIncrease account increase, s =>
    match s.balanceInc account with
    | none => s
    | some bi =>
      let bi := { bi with increase := bi.increase - increase, count := bi.count - 1 }
      { s with balanceInc :=
          Function.update s.balanceInc account (if bi.count = 0 then none else some bi) }
  | .balanceIncreaseTransfer account, s =>
    let bi := (s.balanceInc account).map fun bi => { bi with transferred := false }
    { s with balanceInc := Function.update s.balanceInc account bi }
  | .nonceChange account prev, s =>
    (s.updateObject account fun so => so.setNonce prev).restoreWrite account .nonce
      (s.originally account fun a => a.nonce = prev) (.uint64 prev)
  | .storageChange account key prevalue wasCommited, s =>
    (s.restoreWrite account (.state key) wasCommited (.uint256 prevalue)).updateObject account
      fun so => so.setState key prevalue
  | .codeChange account prevcode prevhash, s =>
    let original := s.originally account fun a => a.codeHash = prevhash
    ((s.updateObject account fun so => so.setCode prevhash prevcode).restoreWrite account .code
      original (.bytes prevcode)).restoreWrite account .codeHash original (.hash prevhash)
  | .refundChange prev, s => { s with refund := prev }
  | .addLogChange txIndex, s => s.dropLog txIndex
  | .touchChange _, s => s
  | .accessListAddAccountChange address, s =>
    { s with accessList := Function.update s.accessList address none }
  | .accessListAddSlotChange address slot, s =>
    let slots := (s.accessList address).map fun slots => slots.erase slot
    { s with accessList := Function.update s.accessList address slots }
  | .transientStorageChange account key prevalue, s => s.setTransientState account key prevalue

/-- What an entry needs of the state to be reverted; a log is the last of its
transaction, with no logs of later ones. -/
def Ready : JournalEntry → State → Prop
  | .selfdestructChange account _ _, s | .balanceChange account _, s | .nonceChange account _, s
  | .codeChange account _ _, s => (s.objects account).isSome
  | .storageChange account key _ _, s =>
    ∃ so, s.objects account = some so ∧ (so.dirtyStorage key).isSome
  | .balanceIncrease _ increase, _ => increase = 0
  | .addLogChange txIndex, s =>
    s.logs.getD txIndex [] ≠ [] ∧ ∀ i, txIndex < i → s.logs.getD i [] = []
  | .accessListAddAccountChange address, s => s.accessList address = some ∅
  | .accessListAddSlotChange address _, s => (s.accessList address).isSome
  | .createObjectChange _, _ | .resetObjectChange _ _, _ | .balanceIncreaseTransfer _, _
  | .refundChange _, _ | .touchChange _, _ | .transientStorageChange _ _ _, _ => True

/-- An entry stays ready in a state that has the objects and their dirty slots, the same logs and
the same access list. -/
theorem Ready.mono {e : JournalEntry} {t s : State} (hready : Ready e s)
    (hpresent : ∀ addr, (s.objects addr).isSome → (t.objects addr).isSome)
    (hdirty : ∀ addr so key, s.objects addr = some so → (so.dirtyStorage key).isSome →
      ∃ so', t.objects addr = some so' ∧ (so'.dirtyStorage key).isSome)
    (hlogs : ∀ i, t.logs.getD i [] = s.logs.getD i []) (haccess : t.accessList = s.accessList) :
    Ready e t := by
  cases e with
  | selfdestructChange account prev prevbalance | balanceChange account prev
  | nonceChange account prev | codeChange account prevcode prevhash => exact hpresent account hready
  | storageChange account key prevalue wasCommited =>
    obtain ⟨so, hso, hslot⟩ := hready
    exact hdirty account so key hso hslot
  | balanceIncrease account increase => exact hready
  | addLogChange txIndex =>
    refine ⟨?_, fun i hi => ?_⟩
    · rw [hlogs]
      exact hready.1
    · rw [hlogs]
      exact hready.2 i hi
  | accessListAddAccountChange address => exact (congrFun haccess address).trans hready
  | accessListAddSlotChange address slot =>
    change (t.accessList address).isSome
    rw [haccess]
    exact hready
  | createObjectChange account => trivial
  | resetObjectChange account prev => trivial
  | balanceIncreaseTransfer account => trivial
  | refundChange prev => trivial
  | touchChange account => trivial
  | transientStorageChange account key prevalue => trivial

/-! ### Fields -/

section Fields

variable (s : State) (addr : Address)

@[simp] theorem setObject_objects (so : Option StateObject) :
    (s.setObject addr so).objects = Function.update s.objects addr so := rfl

variable (f : StateObject → StateObject)

@[simp] theorem updateObject_objects :
    (s.updateObject addr f).objects = Function.update s.objects addr ((s.objects addr).map f) := rfl

@[simp] theorem updateObject_versioned :
    (s.updateObject addr f).versioned = s.versioned := rfl

@[simp] theorem restoreWrite_objects (key : AccountKey) (original : Bool) (prev : Val) :
    (s.restoreWrite addr key original prev).objects = s.objects := by
  unfold restoreWrite
  split
  · rfl
  · split <;> rfl

@[simp] theorem restoreWrite_versioned (key : AccountKey) (original : Bool) (prev : Val) :
    (s.restoreWrite addr key original prev).versioned = s.versioned := by
  unfold restoreWrite
  split
  · rfl
  · split <;> rfl

end Fields

/-- The change back of an object, for the entries about one field of it. -/
def JournalEntry.restores : JournalEntry → Option (Address × (StateObject → StateObject))
  | .selfdestructChange account prev prevbalance =>
    some (account, fun so => { so with selfdestructed := prev }.setBalance prevbalance)
  | .balanceChange account prev => some (account, fun so => so.setBalance prev)
  | .nonceChange account prev => some (account, fun so => so.setNonce prev)
  | .storageChange account key prevalue _ => some (account, fun so => so.setState key prevalue)
  | .codeChange account prevcode prevhash => some (account, fun so => so.setCode prevhash prevcode)
  | _ => none

/-- Without a version map nothing else is changed. -/
theorem undone_of_restores {e : JournalEntry} {s : State} {addr : Address}
    {f : StateObject → StateObject} (hs : s.versioned = false) (he : e.restores = some (addr, f)) :
    undone e s = s.updateObject addr f := by
  cases e <;> cases he <;> simp [undone, restoreWrite, clearWrite, hs]

section Run

variable (reader : StateReader) (answer : Location → ReadResult)

theorem run_getStateObject_of_mem {s : State} {addr : Address} {so : StateObject}
    (hso : s.objects addr = some so) :
    run answer (getStateObject reader addr) s = (.ok (some so), s) := by
  rw [getStateObject, run_get_bind, hso]
  rfl

theorem run_object {s : State} {addr : Address} {so : StateObject}
    (hso : s.objects addr = some so) : run answer (object addr) s = (.ok so, s) := by
  rw [object, run_get_bind, hso]
  rfl

/-- A ready entry is reverted without a look at the database or the version map. -/
theorem run_revertEntry {e : JournalEntry} {s : State} (hready : Ready e s) :
    run answer (revertEntry reader e) s = (.ok (), undone e s) := by
  cases e with
  | createObjectChange account => rfl
  | resetObjectChange account prev => rfl
  | balanceIncrease account increase => rfl
  | balanceIncreaseTransfer account => rfl
  | refundChange prev => rfl
  | touchChange account => rfl
  | transientStorageChange account key prevalue => rfl
  | balanceChange account prev | nonceChange account prev | codeChange account prevcode prevhash =>
    obtain ⟨so, hso⟩ := Option.isSome_iff_exists.mp hready
    simp [revertEntry, run_bind, run_getStateObject_of_mem reader answer hso,
      run_object answer hso, updateObject, undone, originally, hso]
  | selfdestructChange account prev prevbalance =>
    obtain ⟨so, hso⟩ := Option.isSome_iff_exists.mp hready
    have hobject : (s.updateObject account fun so =>
        { so with selfdestructed := prev }.setBalance prevbalance).objects account =
        some ({ so with selfdestructed := prev }.setBalance prevbalance) := by simp [hso]
    cases hversioned : s.versioned with
    | false =>
      simp [revertEntry, run_bind, run_getStateObject_of_mem reader answer hso,
        updateObject, undone, hversioned, restoreWrite, clearWrite]
    | true =>
      simp [revertEntry, run_bind, run_getStateObject_of_mem reader answer hso, updateObject,
        undone, hversioned, run_object answer hobject, clearWrite, originally, hso]
      rfl
  | storageChange account key prevalue wasCommited =>
    obtain ⟨so, hso, -⟩ := hready
    have hobject : (s.restoreWrite account (.state key) wasCommited
        (.uint256 prevalue)).objects account = some so := by simp [hso]
    simp [revertEntry, run_bind, run_getStateObject_of_mem reader answer hso,
      run_object answer hobject, updateObject, undone]
  | addLogChange txIndex =>
    cases hlogs : s.logs.getD txIndex [] with
    | nil => exact absurd hlogs hready.1
    | cons log logs =>
      simp only [revertEntry, run_bind, run_get, hlogs]
      rfl
  | accessListAddAccountChange address =>
    have hlist : s.accessList address = some ∅ := hready
    simp [revertEntry, run_bind, hlist, undone]
  | accessListAddSlotChange address slot =>
    obtain ⟨slots, hslots⟩ := Option.isSome_iff_exists.mp hready
    simp [revertEntry, run_bind, hslots, undone]

end Run

/-- Undoing an entry, with the journal and the dirty marks. -/
def undoEntry (e : JournalEntry) (s : State) : State :=
  (undone e s).dropEntry s.journal.tail e

/-- The journal of a state. -/
def undoLog : UndoLog State JournalEntry where
  journal := State.journal
  Ready := Ready
  undo := undoEntry
  journal_undo e s := by
    unfold undoEntry State.dropEntry
    split <;> rfl

/-- The revert of the journal undoes the entries down to a length. -/
theorem run_revertJournal (reader : StateReader) (answer : Location → ReadResult)
    {es rest : List JournalEntry} {s : State} (hjournal : s.journal = es ++ rest)
    (hready : undoLog.AllReady es s) :
    run answer (revertJournal reader rest.length (es ++ rest)) s =
      (.ok (), undoLog.unwind es s) := by
  induction es generalizing s with
  | nil =>
    cases rest with
    | nil => rfl
    | cons e rest =>
      rw [List.nil_append, revertJournal, if_pos (by simp)]
      rfl
  | cons e es ih =>
    have htail : s.journal.tail = es ++ rest := by rw [hjournal]; rfl
    have hstep : run answer (orElse (revertEntry reader e) ()) s = (.ok (), undone e s) := by
      rw [run_orElse, run_revertEntry reader answer hready.1]
    have hnext : (undoEntry e s).journal = es ++ rest :=
      (undoLog.journal_undo e s).trans htail
    rw [List.cons_append, revertJournal, if_neg (by simp), run_bind_ok answer hstep,
      run_modify_bind]
    have hdrop : (undone e s).dropEntry (es ++ rest) e = undoEntry e s := by
      rw [undoEntry, htail]
    rw [hdrop]
    exact ih hnext hready.2

end IntraBlock

end Erigon
