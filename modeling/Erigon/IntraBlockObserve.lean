/-
What can be seen of a state: the values of the getters, the transient state, the
refund, the logs, the access list, and the calls of the writer that `FinalizeTx`
makes.  A revert gives all of it back but for the mark of a created contract.
-/
import Erigon.IntraBlockRevert

namespace Erigon

open Act

namespace IntraBlock

open Getter

/-! ### The end of a transaction -/

def systemAddress : Address := 0xfffffffffffffffffffffffffffffffffffffffe#160

/-- The rules of the chain that the end of a transaction depends on. -/
structure Rules where
  isSpuriousDragon : Bool
  isAura : Bool

/-- Calls of a `StateWriter`. -/
inductive WriterCall
  | deleteAccount (address : Address) (original : AccountData)
  | updateAccountCode (address : Address) (incarnation : Word) (codeHash : Hash) (code : Bytes)
  | createContract (address : Address)
  | writeAccountStorage (address : Address) (incarnation : Word) (key : StorageKey)
      (original value : Uint256)
  | updateAccountData (address : Address) (original account : AccountData)

def WriterCall.address : WriterCall → Address
  | .deleteAccount address _ | .updateAccountCode address _ _ _ | .createContract address
  | .writeAccountStorage address _ _ _ _ | .updateAccountData address _ _ => address

/-- Whether an account goes because it is empty. -/
def emptyRemoval (rules : Rules) (addr : Address) (so : StateObject) : Bool :=
  rules.isSpuriousDragon && so.empty && (!rules.isAura || addr != systemAddress)

/-- The calls that `updateAccount` makes about an address. -/
def updateAccount (rules : Rules) (addr : Address) (so : StateObject) (isDirty : Bool) :
    WriterCall → Prop :=
  let updated := isDirty && (so.createdContract || !so.selfdestructed) && !emptyRemoval rules addr so
  fun
  | .deleteAccount address original =>
    address = addr ∧ (so.selfdestructed || isDirty && emptyRemoval rules addr so) ∧
      original = so.original
  | .updateAccountCode address incarnation codeHash code =>
    address = addr ∧ updated ∧ so.code = some code ∧ so.dirtyCode ∧
      incarnation = so.data.incarnation ∧ codeHash = so.data.codeHash
  | .createContract address => address = addr ∧ updated ∧ so.createdContract
  | .writeAccountStorage address incarnation key original value =>
    address = addr ∧ updated ∧ so.dirtyStorage key = some value ∧
      incarnation = so.data.incarnation ∧ original = (so.blockOriginStorage key).getD 0
  | .updateAccountData address original account =>
    address = addr ∧ updated ∧ original = so.original ∧ account = so.data

instance (rules : Rules) (addr : Address) (so : StateObject) (isDirty : Bool) :
    DecidablePred (updateAccount rules addr so isDirty)
  | .deleteAccount _ _ => inferInstanceAs (Decidable (_ ∧ _ ∧ _))
  | .updateAccountCode _ _ _ _ => inferInstanceAs (Decidable (_ ∧ _ ∧ _ ∧ _ ∧ _ ∧ _))
  | .createContract _ => inferInstanceAs (Decidable (_ ∧ _ ∧ _))
  | .writeAccountStorage _ _ _ _ _ => inferInstanceAs (Decidable (_ ∧ _ ∧ _ ∧ _ ∧ _))
  | .updateAccountData _ _ _ => inferInstanceAs (Decidable (_ ∧ _ ∧ _ ∧ _))

section Reader

variable (reader : StateReader) (answer : Location → ReadResult) (s : State) (addr : Address)

/-- The state of an address after `FinalizeTx` has loaded the account that an increase
waits for. -/
def settle : State :=
  if (s.balanceInc addr).any (fun bi => !bi.transferred) then
    (Act.run answer (getStateObject reader addr) s).2
  else s

/-- The calls that `FinalizeTx` makes. -/
def finalizeTx (rules : Rules) (s : State) (call : WriterCall) : Prop :=
  ∃ so ∈ (settle reader answer s call.address).objects call.address,
    (settle reader answer s call.address).dirties call.address ≠ 0 ∧
    updateAccount rules call.address so true call

instance (rules : Rules) (s : State) (call : WriterCall) :
    Decidable (finalizeTx reader answer rules s call) :=
  inferInstanceAs (Decidable (∃ so ∈ _, _))

/-- A call that writes what an object has already. -/
def Rewrites : WriterCall → Prop
  | .updateAccountCode address _ _ code =>
    ∃ so, s.objects address = some so ∧ codeOf reader address so = .ok (some code)
  | .writeAccountStorage address _ key _ value =>
    ∃ so, s.objects address = some so ∧ stateOf reader address so key = value
  | _ => False

def getLogs (txIndex : Nat) : List Log := s.logs.getD txIndex []

def addressInAccessList : Bool := (s.accessList addr).isSome

def slotInAccessList (slot : StorageKey) : Bool × Bool :=
  ((s.accessList addr).isSome, decide (slot ∈ (s.accessList addr).getD ∅))

def Getter.address : Getter → Address
  | .exist addr | .isEmpty addr | .getBalance addr | .getNonce addr | .getCode addr
  | .getCodeSize addr | .getCodeHash addr | .getState addr _ | .getCommittedState addr _
  | .hasSelfdestructed addr => addr

/-- `t` looks like `s`, up to the RIPEMD address and to calls that write what is there. -/
structure Restored (rules : Rules) (t s : State) : Prop where
  getters : ∀ g : Getter, g.address ≠ ripemd →
    (Act.run answer (g.call reader) t).1 = (Act.run answer (g.call reader) s).1
  transientState : ∀ addr key, (Act.run answer (getTransientState addr key) t).1 =
    (Act.run answer (getTransientState addr key) s).1
  refund : t.refund = s.refund
  logs : ∀ txIndex, getLogs t txIndex = getLogs s txIndex
  addresses : ∀ addr, addressInAccessList t addr = addressInAccessList s addr
  slots : ∀ addr slot, slotInAccessList t addr slot = slotInAccessList s addr slot
  writes : ∀ call, call.address ≠ ripemd →
    (finalizeTx reader answer rules s call → finalizeTx reader answer rules t call) ∧
    (finalizeTx reader answer rules t call →
      finalizeTx reader answer rules s call ∨ Rewrites reader s call)

/-- What a revert does not give back does not show.  Where the mark of a created contract
is gone, the account is not written, or goes because it is empty, and nothing of it shows
in the values; and a code that was read on the way has the size that the database says. -/
def Unnoticed (rules : Rules) (t s : State) : Prop :=
  ∀ addr so so', addr ≠ ripemd → peek reader s addr = .ok (some so) →
    t.objects addr = some so' →
    (so.createdContract = true → so'.createdContract = false →
      (s.dirties addr ≠ 0 → emptyRemoval rules addr so = true) ∧
      (so.deleted = false → so.selfdestructed = false ∧
        ∀ key, so.originStorage key = none → storedValue reader addr key = 0)) ∧
    (so.deleted = false → so.code = none → ∀ code, so'.code = some code →
      reader.readAccountCodeSize addr = .ok code.length)

variable {reader}

/-! ### Values -/

variable {s t : State} {addr : Address}

section

variable (hs : Sound reader s) (haddr : addr ≠ ripemd)

include hs haddr

/-- `getStateObject` away from the RIPEMD address. -/
theorem fst_getStateObject :
    (run answer (getStateObject reader addr) s).1 = .ofExcept (peek reader s addr) := by
  have hinc : s.balanceInc addr = none := by
    cases hbi : s.balanceInc addr with
    | none => rfl
    | some bi => exact absurd (hs.increases addr bi hbi).1 haddr
  rw [getStateObject, run_get_bind]
  cases hobject : s.objects addr with
  | some so =>
    rw [peek_of_mem hobject]
    rfl
  | none =>
    simp only [peek, hobject, hinc, hs.unversioned]
    by_cases hnil : s.nilAccounts addr = true
    · rw [hs.nilAccounts addr hnil]
      simp only [hnil, if_true]
      rfl
    · simp only [hnil]
      rcases reader.readAccountData addr with e | (_ | account)
      · rfl
      · rfl
      · have hset (so : StateObject) : (s.setStateObject addr so).objects addr = some so := by
          simp [State.setStateObject, hinc]
        exact congrArg Result.ok (hset _)

/-- A read that looks an object up and goes on with it. -/
theorem fst_lookup {A : Type}
    {f : Option StateObject → Call A} {toVal : A → Val}
    {value : Option StateObject → Except String Val}
    (hf : ∀ found s', Sound reader s' → s'.objects addr = found →
      (run answer (f found) s').1.map toVal = .ofExcept (value found)) :
    (run answer (do f (← getStateObject reader addr)) s).1.map toVal =
      .ofExcept ((peek reader s addr).bind value) := by
  have hfst := fst_getStateObject answer hs haddr
  have hlands : Act.Lands (Step reader ⟨False, False⟩) False (Found reader addr) s _ :=
    moves_getStateObject addr answer s hs
  rw [run_bind]
  revert hfst hlands
  rcases run answer (getStateObject reader addr) s with ⟨r, s'⟩
  rintro (rfl : r = _) hlands
  cases hpeek : peek reader s addr with
  | error e => rfl
  | ok found =>
    rw [hpeek] at hlands
    exact hf found s' hlands.2.1 hlands.2.2.1

theorem fst_versionedRead {T : Type}
    {key : AccountKey} {commited : Bool} {defaultV : T} {cast : Val → Option T}
    {toVal toVal' : T → Val} {readStorage : Option StateObject → Call (T × Bool)}
    {value : Option StateObject → Except String Val}
    (hf : ∀ found s', Sound reader s' → s'.objects addr = found →
      (run answer (readStorage found) s').1.map (toVal ∘ Prod.fst) =
        .ofExcept (value found)) :
    (run answer (toVal <$> (·.1) <$> versionedRead reader addr key commited defaultV cast
      toVal' readStorage) s).1 = .ofExcept ((peek reader s addr).bind value) := by
  have hmap {A : Type} (r : Result (A × Bool)) (f : A → Val) :
      (r.map Prod.fst).map f = r.map (f ∘ Prod.fst) := by
    cases r <;> rfl
  rw [← fst_lookup answer hs haddr hf, run_map, run_map, hmap, versionedRead,
    run_get_bind, hs.unversioned]
  rfl

end

variable {so so' : StateObject}

theorem fst_objectCode (hso : s.objects addr = some so) :
    (run answer (objectCode reader addr) s).1 = .ofExcept (codeOf reader addr so) := by
  rw [objectCode, run_bind_ok answer (run_object answer hso), codeOf]
  cases so.code with
  | some code => rfl
  | none =>
    dsimp only
    split
    · rfl
    · cases reader.readAccountCode addr <;> rfl

theorem live_of_alive {found : Option StateObject} (hs : Sound reader s)
    (hfound : s.objects addr = found) (halive : alive found = some so) :
    Live reader addr so s := by
  obtain ⟨hso, hlive⟩ := Option.filter_eq_some_iff.mp halive
  exact ⟨hs, hfound.trans hso, by simpa using hlive⟩

/-- The code size of an object. -/
def sizeOf (reader : StateReader) (addr : Address) (so : StateObject) : Except String Nat :=
  match so.code with
  | some code => .ok code.length
  | none => if so.data.codeHash = emptyCodeHash then .ok 0 else reader.readAccountCodeSize addr

/-- The value of a getter for a live object. -/
def Getter.view (reader : StateReader) (so : StateObject) : Getter → Except String Val
  | .exist _ => .ok (.bool true)
  | .isEmpty _ => .ok (.bool so.empty)
  | .getBalance _ => .ok (.uint256 so.data.balance)
  | .getNonce _ => .ok (.uint64 so.data.nonce)
  | .getCode addr => (codeOf reader addr so).map .bytes
  | .getCodeSize addr => (sizeOf reader addr so).map .int
  | .getCodeHash _ => .ok (.hash so.data.codeHash)
  | .getState addr key => .ok (.uint256 (stateOf reader addr so key))
  | .getCommittedState addr key => .ok (.uint256 (committed reader addr so key))
  | .hasSelfdestructed _ => .ok (.bool (!so.createdContract && so.selfdestructed))

/-- The value of a getter where there is no live object. -/
def Getter.missing : Getter → Val
  | .exist _ | .hasSelfdestructed _ => .bool false
  | .isEmpty _ => .bool true
  | .getBalance _ | .getState _ _ | .getCommittedState _ _ => .uint256 0
  | .getNonce _ => .uint64 0
  | .getCode _ => .bytes none
  | .getCodeSize _ => .int 0
  | .getCodeHash _ => .hash 0

def Getter.value (reader : StateReader) (g : Getter) (found : Option StateObject) :
    Except String Val :=
  match alive found with
  | some so => g.view reader so
  | none => .ok g.missing

theorem run_getter (hs : Sound reader s) {g : Getter} (hg : g.address ≠ ripemd) :
    (run answer (g.call reader) s).1 =
      .ofExcept ((peek reader s g.address).bind (g.value reader)) := by
  cases g with
  | exist addr | isEmpty addr =>
    rw [call, run_map]
    refine fst_lookup answer hs hg fun found s' _ _ => ?_
    unfold value
    cases alive found <;> rfl
  | getBalance addr | getNonce addr | getCodeHash addr | hasSelfdestructed addr =>
    refine fst_versionedRead answer hs hg fun found s' _ _ => ?_
    unfold value
    cases alive found <;> rfl
  | getCodeSize addr =>
    refine fst_versionedRead answer hs hg fun found s' _ _ => ?_
    unfold value
    cases alive found with
    | none => rfl
    | some so =>
      simp only [view, sizeOf]
      cases so.code with
      | some code => rfl
      | none =>
        dsimp only
        split
        · rfl
        · cases reader.readAccountCodeSize addr <;> rfl
  | getCode addr =>
    refine fst_versionedRead answer hs hg fun found s' hs' hfound => ?_
    unfold value
    cases halive : alive found with
    | none => rfl
    | some so =>
      have hlive : Live reader addr so s' := live_of_alive hs' hfound halive
      have hcode : _ = Result.ofExcept (codeOf reader addr so) :=
        fst_objectCode answer hlive.2.1
      rw [if_pos (by rfl), run_bind]
      revert hcode
      rcases run answer (objectCode reader addr) s' with ⟨r, s''⟩
      rintro (rfl : r = _)
      simp only [view]
      cases codeOf reader addr so <;> rfl
  | getState addr key =>
    refine fst_versionedRead answer hs hg fun found s' hs' hfound => ?_
    unfold value
    cases halive : alive found with
    | none =>
      rw [readState, halive]
      rfl
    | some so =>
      have hlive : Live reader addr so s' := live_of_alive hs' hfound halive
      obtain ⟨commited, so', s'', hrun, (hstep : Step reader ⟨False, False⟩ _ _), -⟩ :=
        run_objectState answer hlive key
      rw [readState, if_pos (by rw [halive]; rfl), hrun]
      rfl
  | getCommittedState addr key =>
    refine fst_versionedRead answer hs hg fun found s' hs' hfound => ?_
    unfold value
    cases halive : alive found with
    | none => rfl
    | some so =>
      have hcare : (Care.mk False False).origins → so.dirtyStorage key = none := False.elim
      have hlive : Live reader addr so s' := live_of_alive hs' hfound halive
      obtain ⟨so', s'', hrun, -⟩ := run_objectCommittedState answer hlive hcare
      rw [if_pos (by rfl), run_bind_ok answer hrun]
      rfl

/-! ### Restored or not -/

variable {care : Care}

section

variable (hlike : LikeObject reader care addr so' so)
  (hidle : so.createdContract = true → so'.createdContract = false → ∀ key, so.originStorage key = none → storedValue reader addr key = 0)

include hlike hidle

theorem committed_like (key : StorageKey) :
    committed reader addr so' key = committed reader addr so key := by
  rcases hlike.committed_eq key with heq | ⟨horigin, hcreated, hlost, heq⟩
  · exact heq
  · rw [heq, hidle hcreated hlost key horigin]
    simp [committed, horigin, hcreated]

theorem stateOf_like (key : StorageKey) :
    stateOf reader addr so' key = stateOf reader addr so key := by
  unfold stateOf
  cases hdirty : so.dirtyStorage key with
  | some v =>
    rw [(hlike.dirty key v hdirty).1]
    rfl
  | none =>
    cases hdirty' : so'.dirtyStorage key with
    | none => exact committed_like hlike hidle key
    | some v =>
      rcases hlike.clean key v hdirty hdirty' with heq | ⟨horigin, hcreated, hlost, heq⟩
      · exact heq
      · rw [Option.getD_some, heq, hidle hcreated hlost key horigin]
        simp [committed, horigin, hcreated]

end

theorem sizeOf_like (hlike : LikeObject reader care addr so' so) :
    sizeOf reader addr so' = sizeOf reader addr so ↔
      (so.code = none → ∀ code, so'.code = some code →
        reader.readAccountCodeSize addr = .ok code.length) := by
  cases hcode : so.code with
  | some code => simp [sizeOf, hcode, hlike.cached code hcode]
  | none =>
    cases hcode' : so'.code with
    | none => simp [sizeOf, hcode, hcode', hlike.data]
    | some code =>
      have hhash : so.data.codeHash ≠ emptyCodeHash := by
        intro hempty
        have hcodes := hlike.code
        simp [codeOf, hcode, hcode', hempty] at hcodes
      simp [sizeOf, hcode, hcode', hhash, eq_comm]

/-- The getters do not see the mark of a created contract that is lost, nor code that is read. -/
def Unseen (reader : StateReader) (addr : Address) (so so' : StateObject) : Prop :=
  (so.createdContract = true → so'.createdContract = false → so.selfdestructed = false ∧
    ∀ key, so.originStorage key = none → storedValue reader addr key = 0) ∧
  (so.code = none → ∀ code, so'.code = some code →
    reader.readAccountCodeSize addr = .ok code.length)

/-- What the getters show of two objects that are alike. -/
theorem view_like (hlike : LikeObject reader care addr so' so) :
    (∀ g : Getter, g.address = addr → g.view reader so' = g.view reader so) ↔
      Unseen reader addr so so' := by
  constructor
  · intro hviews
    refine ⟨fun hcreated hlost => ⟨?_, fun key horigin => ?_⟩, (sizeOf_like hlike).mp ?_⟩
    · simpa [view, hcreated, hlost, hlike.selfdestructed] using
        hviews (.hasSelfdestructed addr) rfl
    · have hvalue : committed reader addr so' key = committed reader addr so key := by
        simpa [view] using hviews (.getCommittedState addr key) rfl
      rcases hlike.origin key with heq | ⟨-, heq, -⟩
      · simpa [committed, heq, horigin, hcreated, hlost] using hvalue
      · simpa [committed, heq, horigin, hcreated] using hvalue
    · have hsize := hviews (.getCodeSize addr) rfl
      simp only [view] at hsize
      revert hsize
      cases sizeOf reader addr so' <;> cases sizeOf reader addr so <;> simp [Except.map]
  · rintro ⟨hmark, hsize⟩ g rfl
    have hidle (hcreated : so.createdContract = true) (hlost : so'.createdContract = false) :=
      (hmark hcreated hlost).2
    cases g with
    | exist addr => rfl
    | isEmpty addr => simp [view, StateObject.empty, hlike.data]
    | getBalance addr => simp [view, hlike.data]
    | getNonce addr => simp [view, hlike.data]
    | getCode addr => exact congrArg (Except.map Val.bytes) hlike.code
    | getCodeSize addr => exact congrArg (Except.map Val.int) ((sizeOf_like hlike).mpr hsize)
    | getCodeHash addr => simp [view, hlike.data]
    | getState addr key =>
      have hstate : stateOf reader addr so' key = stateOf reader addr so key :=
        stateOf_like hlike hidle key
      simp [view, hstate]
    | getCommittedState addr key =>
      have hcommitted : committed reader addr so' key = committed reader addr so key :=
        committed_like hlike hidle key
      simp [view, hcommitted]
    | hasSelfdestructed addr =>
      cases hcreated : so.createdContract with
      | false =>
        have hcreated' : so'.createdContract = false := by
          rw [← Bool.not_eq_true]
          exact fun h => by simp [hlike.created h] at hcreated
        simp [view, hcreated, hcreated', hlike.selfdestructed]
      | true =>
        cases hlost : so'.createdContract with
        | true => simp [view, hcreated, hlost]
        | false =>
          simp [view, hcreated, hlost, hlike.selfdestructed, (hmark hcreated hlost).1]

theorem settle_eq (hs : Sound reader s) (haddr : addr ≠ ripemd) :
    settle reader answer s addr = s := by
  unfold settle
  cases hbi : s.balanceInc addr with
  | none => rfl
  | some bi => exact absurd (hs.increases addr bi hbi).1 haddr

variable {rules : Rules}

theorem finalizeTx_iff (hs : Sound reader s) {call : WriterCall} (hcall : call.address ≠ ripemd) :
    finalizeTx reader answer rules s call ↔ ∃ so, s.objects call.address = some so ∧
      s.dirties call.address ≠ 0 ∧ updateAccount rules call.address so true call := by
  rw [finalizeTx, settle_eq answer hs hcall]
  exact Iff.rfl

/-- The calls for two objects that are alike and dirty. -/
theorem updateAccount_like (hlike : LikeObject reader care addr so' so) (horigins : care.origins)
    (hso : s.objects addr = some so) :
    (∀ call, (updateAccount rules addr so true call → updateAccount rules addr so' true call) ∧
      (updateAccount rules addr so' true call → updateAccount rules addr so true call ∨
        Rewrites reader s call)) ↔
      (so.createdContract = true → so'.createdContract = false →
        emptyRemoval rules addr so = true) := by
  have hremoval : emptyRemoval rules addr so' = emptyRemoval rules addr so := by
    simp [emptyRemoval, StateObject.empty, hlike.data]
  constructor
  · intro hcalls hcreated hlost
    by_contra hkept
    have hcall : updateAccount rules addr so true (.createContract addr) :=
      ⟨rfl, by simp [hcreated, hkept], hcreated⟩
    have hcall' := ((hcalls (.createContract addr)).1 hcall).2.2
    rw [hlost] at hcall'
    cases hcall'
  · intro hmark call
    have hsame (h : updateAccount rules addr so' true call = updateAccount rules addr so true call) :
        (updateAccount rules addr so true call → updateAccount rules addr so' true call) ∧
          (updateAccount rules addr so' true call → updateAccount rules addr so true call ∨
            Rewrites reader s call) := by
      rw [h]
      exact ⟨id, Or.inl⟩
    by_cases hempty : emptyRemoval rules addr so = true
    · -- the account goes in both
      refine hsame ?_
      cases call <;>
        simp [updateAccount, hremoval, hempty, hlike.selfdestructed, hlike.original]
    · have hcreated : so'.createdContract = so.createdContract := by
        rw [Bool.eq_iff_iff]
        refine ⟨hlike.created, fun h => ?_⟩
        by_contra hlost
        exact hempty (hmark h (by simpa using hlost))
      cases call with
      | deleteAccount address original =>
        refine hsame ?_
        simp [updateAccount, hremoval, hlike.selfdestructed, hlike.original]
      | createContract address =>
        refine hsame ?_
        simp [updateAccount, hremoval, hlike.selfdestructed, hcreated]
      | updateAccountData address original account =>
        refine hsame ?_
        simp [updateAccount, hremoval, hlike.selfdestructed, hlike.original, hcreated, hlike.data]
      | updateAccountCode address incarnation codeHash code =>
        simp only [updateAccount, hremoval, hlike.selfdestructed, hcreated, hlike.data]
        constructor
        · rintro ⟨haddr, hupdated, hcode, hdirty, hrest⟩
          exact ⟨haddr, hupdated, hlike.cached code hcode, hlike.dirtyCode hdirty, hrest⟩
        · rintro ⟨rfl, -, hcode, -⟩
          refine Or.inr ⟨so, hso, ?_⟩
          rw [← hlike.code, codeOf, hcode]
      | writeAccountStorage address incarnation key original value =>
        simp only [updateAccount, hremoval, hlike.selfdestructed, hcreated, hlike.data]
        constructor
        · rintro ⟨haddr, hupdated, hdirty, hinc, horigin⟩
          obtain ⟨hdirty', hblock⟩ := hlike.dirty key value hdirty
          exact ⟨haddr, hupdated, hdirty', hinc, by rw [horigin, hblock horigins]⟩
        · rintro ⟨rfl, hupdated, hdirty', hinc, horigin⟩
          cases hdirty : so.dirtyStorage key with
          | some v =>
            obtain ⟨hsame, hblock⟩ := hlike.dirty key v hdirty
            rw [hsame] at hdirty'
            exact Or.inl ⟨rfl, hupdated, hdirty', hinc, by rw [horigin, hblock horigins]⟩
          | none =>
            refine Or.inr ⟨so, hso, ?_⟩
            rcases hlike.clean key value hdirty hdirty' with heq | ⟨-, htrue, hlost, -⟩
            · rw [stateOf, hdirty, heq]
              rfl
            · rw [hcreated, htrue] at hlost
              cases hlost

theorem value_of_live (hlive : so.deleted = false) (g : Getter) :
    g.value reader (some so) = g.view reader so := by
  have halive : alive (some so) = some so := by simp [alive, Option.filter, hlive]
  rw [value, halive]

theorem value_of_deleted (hdeleted : so.deleted = true) (g : Getter) :
    g.value reader (some so) = .ok g.missing := by
  have halive : alive (some so) = none := by simp [alive, Option.filter, hdeleted]
  rw [value, halive]

/-- The getters of an address show the same of two objects that are alike. -/
theorem value_like (hlike : LikeObject reader care addr so' so) :
    (∀ g : Getter, g.address = addr → g.value reader (some so') = g.value reader (some so)) ↔
      (so.deleted = false → Unseen reader addr so so') := by
  cases hdeleted : so.deleted with
  | true => simp [value_of_deleted, hdeleted, hlike.deleted]
  | false =>
    rw [← view_like hlike]
    simp [value_of_live, hdeleted, hlike.deleted]

theorem ofExcept_injective {A : Type} {x y : Except String A}
    (h : Result.ofExcept x = Result.ofExcept y) : x = y := by
  cases x <;> cases y <;> cases h <;> rfl

/-- The getters of an address, where `t` has an object. -/
theorem getters_like (ht : Sound reader t) (hs : Sound reader s) (haddr : addr ≠ ripemd)
    (hso : peek reader s addr = .ok (some so)) (hso' : t.objects addr = some so')
    (hlike : LikeObject reader care addr so' so) :
    (∀ g : Getter, g.address = addr →
      (run answer (g.call reader) t).1 = (run answer (g.call reader) s).1) ↔
      (so.deleted = false → Unseen reader addr so so') := by
  rw [← value_like hlike]
  refine forall_congr' fun g => forall_congr' fun hg => ?_
  subst hg
  rw [run_getter answer ht haddr, run_getter answer hs haddr, peek_of_mem hso', hso]
  exact ⟨ofExcept_injective, congrArg _⟩

/-- The calls about an address, where `s` has a dirty object. -/
theorem writes_like (ht : Sound reader t) (hs : Sound reader s) (haddr : addr ≠ ripemd)
    (hso : s.objects addr = some so) (hso' : t.objects addr = some so')
    (hlike : LikeObject reader care addr so' so) (horigins : care.origins)
    (hdirties : t.dirties addr = s.dirties addr) (hdirty : s.dirties addr ≠ 0) :
    (∀ call : WriterCall, call.address = addr →
      (finalizeTx reader answer rules s call → finalizeTx reader answer rules t call) ∧
      (finalizeTx reader answer rules t call →
        finalizeTx reader answer rules s call ∨ Rewrites reader s call)) ↔
      (so.createdContract = true → so'.createdContract = false →
        emptyRemoval rules addr so = true) := by
  rw [← updateAccount_like hlike horigins hso]
  refine forall_congr' fun call => ?_
  by_cases hcall : call.address = addr
  · subst hcall
    simp [finalizeTx_iff answer hs haddr, finalizeTx_iff answer ht haddr, hso, hso', hdirties,
      hdirty]
  · have hnot (so : StateObject) : ¬ updateAccount rules addr so true call := by
      cases call <;> exact fun h => hcall h.1
    simp [hcall, hnot]

/-- What is alike looks alike exactly if what is not given back goes unnoticed. -/
theorem restored_iff_of_like (hs : Sound reader s) (hlike : Like reader care t s)
    (horigins : care.origins) :
    Restored reader answer rules t s ↔ Unnoticed reader rules t s := by
  have ht := hlike.sound hs
  have hobject {addr : Address} {so so' : StateObject} (hso : peek reader s addr = .ok (some so))
      (hso' : t.objects addr = some so') : LikeObject reader care addr so' so := by
    have h := hlike.objects addr
    rw [hso, peek_of_mem hso'] at h
    exact h.likeObject
  constructor
  · intro h addr so so' haddr hso hso'
    have hgetters := (getters_like answer ht hs haddr hso hso' (hobject hso hso')).mp
      fun g hg => h.getters g (hg ▸ haddr)
    refine ⟨fun hcreated hlost => ⟨fun hdirty => ?_, fun hlive => (hgetters hlive).1 hcreated hlost⟩,
      fun hlive => (hgetters hlive).2⟩
    obtain ⟨so₁, hso₁⟩ := Option.isSome_iff_exists.mp (hs.dirtyObjects addr haddr hdirty)
    obtain rfl : so₁ = so := by
      rw [peek_of_mem hso₁] at hso
      cases hso
      rfl
    exact (writes_like answer ht hs haddr hso₁ hso' (hobject hso hso') horigins
      (hlike.dirties addr haddr) hdirty).mp (fun call hcall => h.writes call (hcall ▸ haddr))
      hcreated hlost
  · intro h
    refine ⟨fun g hg => ?_, fun addr key => ?_, hlike.refund, hlike.logs, fun addr => ?_,
      fun addr slot => ?_, fun call hcall => ?_⟩
    · cases hso' : t.objects g.address with
      | none =>
        have hnone : s.objects g.address = none := by
          by_contra hsome
          have hpresent := hlike.present g.address (Option.isSome_iff_ne_none.mpr hsome)
          simp [hso'] at hpresent
        have hpeek : peek reader t g.address = peek reader s g.address :=
          peek_congr (hso'.trans hnone.symm)
        rw [run_getter answer ht hg, run_getter answer hs hg, hpeek]
      | some so' =>
        obtain ⟨so, hso⟩ : ∃ so, peek reader s g.address = .ok (some so) := by
          have hpeek := hlike.objects g.address
          rw [peek_of_mem hso'] at hpeek
          revert hpeek
          generalize peek reader s g.address = found
          rintro ⟨⟩
          exact ⟨_, rfl⟩
        obtain ⟨hmark, hsize⟩ := h g.address so so' hg hso hso'
        exact (getters_like answer ht hs hg hso hso' (hobject hso hso')).mpr
          (fun hlive => ⟨fun hc hl => (hmark hc hl).2 hlive, hsize hlive⟩) g rfl
    · simp [getTransientState, run_bind, hlike.transientStorage]
    · simp [addressInAccessList, hlike.accessList]
    · simp [slotInAccessList, hlike.accessList]
    · have hdirties := hlike.dirties call.address hcall
      by_cases hdirty : s.dirties call.address = 0
      · simp [finalizeTx_iff answer hs hcall, finalizeTx_iff answer ht hcall, hdirties, hdirty]
      · obtain ⟨so, hso⟩ := Option.isSome_iff_exists.mp (hs.dirtyObjects call.address hcall hdirty)
        obtain ⟨so', hso', hlikeObject⟩ := hlike.object hso
        have hmark := (h call.address so so' hcall (peek_of_mem hso) hso').1
        exact (writes_like answer ht hs hcall hso hso' hlikeObject horigins hdirties hdirty).mpr
          (fun hc hl => (hmark hc hl).1 hdirty) call rfl

end Reader

/-! ### Snapshots -/

theorem start_new (reader : StateReader) (txIndex : Nat) : Start reader (State.new false txIndex) where
  unversioned := rfl
  nilAccounts _ h := by cases h
  increases _ _ h := by cases h
  initialised _ _ h := by cases h
  laterLogs _ _ := rfl
  dirtyObjects _ _ h := absurd rfl h
  journal := rfl
  validRevisions := rfl

/-- No accounts, but a value in every slot. -/
def staleStorage : StateReader :=
  ⟨fun _ => .ok none, fun _ _ => .ok (some 9), fun _ => .ok none, fun _ => .ok 0⟩

/-- A version map that is not looked at. -/
def unasked : Location → ReadResult := fun _ => ⟨-1, -1, none⟩

/-- The snapshot point of a transaction in which a contract is created. -/
def contractCreated : State :=
  (Act.run unasked (runAll staleStorage (fun _ => 0)
    [.change (.createAccount 7 true), .change (.setNonce 7 1)]) (State.new false 0)).2

/-- The same after a self-destruct and a revert. -/
def contractReverted : State :=
  (Act.run unasked (runAll staleStorage (fun _ => 0)
    [.change (.selfdestruct 7), .revertToSnapshot 0]) contractCreated.snapshot).2

end IntraBlock

end Erigon
