/-
Changes after a snapshot that a revert takes back with their versioned writes: on
addresses that were not dirty at the snapshot, and, where the write set is in step
with the object, on those that were.
-/
import Erigon.IntraBlockGetters

namespace Erigon

namespace IntraBlock

open Act (get modify attempt orElse Lands Agree Blind run_bind_ok run_get_bind run_modify_bind)

section Reader

variable (reader : StateReader) (answer : Location → ReadResult) (D : Address → Prop)

/-- A change that is taken back with its writes.  `D` are the addresses that were dirty. -/
def Change.Tame (s : State) : Change → Prop
  | .createAccount _ _ => False
  | .addBalance addr amount => ∃ so, s.objects addr = some so ∧ so.deleted = false ∧
      if amount = 0 then so.empty = true → addr ≠ ripemd ∧ ¬ D addr
      else D addr → InStep s addr .balance (fun a => .uint256 a.balance) so
  | .subBalance addr amount => amount ≠ 0 → ∃ so, s.objects addr = some so ∧ so.deleted = false ∧
      (D addr → InStep s addr .balance (fun a => .uint256 a.balance) so)
  | .setBalance addr _ => ∃ so, s.objects addr = some so ∧ so.deleted = false ∧
      (D addr → InStep s addr .balance (fun a => .uint256 a.balance) so)
  | .setNonce addr _ => ∃ so, s.objects addr = some so ∧ so.deleted = false ∧
      (D addr → InStep s addr .nonce (fun a => .uint64 a.nonce) so)
  | .setCode addr _ => ∃ so, s.objects addr = some so ∧ so.deleted = false ∧ ¬ D addr ∧
      (so.code = none → so.data.codeHash = emptyCodeHash)
  | .setState addr key _ => ∃ so, s.objects addr = some so ∧ so.deleted = false ∧
      (D addr → (∃ prev, s.written addr (.state key) = some (.uint256 prev)) ∧
        (answer (addr, .selfDestruct)).status ≠ .done)
  | .selfdestruct addr => ∃ so, s.objects addr = some so ∧
      (so.deleted = false → ¬ D addr ∧ so.createdContract = false)
  | .setTransientState _ _ _ | .addLog _ | .addRefund _ | .subRefund _
  | .addAddressToAccessList _ | .addSlotToAccessList _ _ => True

/-- A getter that leaves nothing behind, or reads a slot of an object that is there. -/
def Getter.Tame (s : State) (g : Getter) : Prop :=
  (Act.run answer (g.call reader) s).2 = s ∨
    ∃ addr key, (s.objects addr).isSome ∧ (g = .getState addr key ∨ g = .getCommittedState addr key)

/-- Calls that are tame, and snapshots and reverts to snapshots after the one with the
number `revid`. -/
def Command.Tame (revid : Nat) (s : State) : Command → Prop
  | .get g => g.Tame reader answer s
  | .change c => c.Tame answer D s
  | .snapshot => True
  | .revertToSnapshot id => revid < id

/-- A run of commands each of which is tame when it is its turn. -/
def TameRun (keccak : Bytes → Hash) (revid : Nat) : List Command → State → Prop
  | [], _ => True
  | command :: rest, s => command.Tame reader answer D revid s ∧
      TameRun keccak revid rest (Act.run answer (attempt (command.call reader keccak)) s).2

end Reader

section Moves

variable {reader : StateReader} {answer : Location → ReadResult} {D : Address → Prop} {s : State}

variable {addr : Address} {so : StateObject}

theorem run_getOrNewStateObject (hso : s.objects addr = some so) (hlive : so.deleted = false) :
    Act.run answer (getOrNewStateObject reader addr) s = (.ok so, s) := by
  rw [getOrNewStateObject, run_bind_ok answer (run_getStateObject_of_mem reader answer hso)]
  simp only [hlive]
  exact run_object answer hso

theorem run_versionWritten_versioned (hs : s.versioned = true) (addr : Address) (key : AccountKey)
    (val : Val) : Act.run answer (versionWritten addr key val) s =
      (.ok (), s.setWrite addr key (some ⟨s.version, val⟩)) := by
  simp [versionWritten, hs]

/-- A call that ends along a step. -/
def Tamed (D : Address → Prop) (answer : Location → ReadResult) {A : Type} (x : Call A)
    (s : State) : Prop :=
  Lands (WriteStep D) True (fun _ _ => True) s (Act.run answer x s)

theorem tamed_pure (hs : Versioned s) {A : Type} (a : A) : Tamed D answer (pure a : Call A) s :=
  ⟨WriteStep.refl hs, trivial⟩

theorem tamed_map {A B : Type} {x : Call A} (f : A → B) (hx : Tamed D answer x s) :
    Tamed D answer (f <$> x) s := by
  unfold Tamed at hx ⊢
  rw [Act.run_map]
  match Act.run answer x s, hx with
  | (.ok a, s'), hx => exact hx
  | (.error e, s'), hx => exact hx
  | (.panic e, s'), hx => exact hx

/-! ### Objects -/

section

variable (hs : Versioned s) (hso : s.objects addr = some so)

include hs hso

theorem tamed_writeBalance (amount : Uint256)
    (hD : D addr → InStep s addr .balance (fun a => .uint256 a.balance) so) :
    Tamed D answer (writeBalance addr amount) s := by
  rw [Tamed, writeBalance, run_bind_ok answer (run_object answer hso), append,
    run_modify_bind, updateObject, run_modify_bind]
  rw [run_versionWritten_versioned (by exact hs.versioned)]
  exact ⟨writeStep_balance hs hso amount _ hD, trivial⟩

theorem tamed_setNonce (hlive : so.deleted = false) (nonce : Word)
    (hD : D addr → InStep s addr .nonce (fun a => .uint64 a.nonce) so) :
    Tamed D answer (setNonce reader addr nonce) s := by
  rw [Tamed, setNonce, run_bind_ok answer (run_getOrNewStateObject hso hlive), append,
    run_modify_bind, updateObject, run_modify_bind]
  rw [run_versionWritten_versioned (by exact hs.versioned)]
  exact ⟨writeStep_nonce hs hso nonce _ hD, trivial⟩

theorem tamed_setBalance (hlive : so.deleted = false) (amount : Uint256)
    (hD : D addr → InStep s addr .balance (fun a => .uint256 a.balance) so) :
    Tamed D answer (setBalance reader addr amount) s := by
  rw [Tamed, setBalance, run_bind_ok answer (run_getOrNewStateObject hso hlive)]
  exact tamed_writeBalance hs hso amount hD

end

theorem tamed_subBalance (hs : Versioned s) {amount : Uint256}
    (htame : (Change.subBalance addr amount).Tame answer D s) :
    Tamed D answer (subBalance reader addr amount) s := by
  unfold subBalance
  split
  · rename_i hamount
    obtain ⟨so, hso, hlive, hD⟩ := htame hamount
    rw [Tamed, run_bind_ok answer (run_getOrNewStateObject hso hlive)]
    exact tamed_writeBalance hs hso _ hD
  · exact tamed_pure hs _

/-- A touch outside of `D`. -/
theorem tamed_touch (hs : Versioned s) (hripemd : addr ≠ ripemd) (hD : ¬ D addr)
    (w : VersionedWrite) :
    Lands (WriteStep D) True (fun _ _ => True) s
      (Act.run answer (touch addr) (s.setWrite addr .balance (some w))) := by
  rw [touch, if_neg hripemd]
  set t := s.setWrite addr .balance (some w) with ht
  have halike : Alike D (undoEntry (.touchChange addr) (t.append (.touchChange addr))) s := by
    have hback : undoEntry (.touchChange addr) (t.append (.touchChange addr)) = t :=
      dropEntry_append t (.touchChange addr)
    rw [hback]
    exact (WritesAt.setWrite s _ _).alike hs.versioned fun ha => absurd ha hD
  have hready : undoLog.Ready (.touchChange addr) (t.append (.touchChange addr)) := trivial
  have hstep : WriteStep D s (t.append (.touchChange addr)) :=
    ⟨hs.versioned, hs.laterLogs, .of_entry rfl hready halike, rfl, rfl⟩
  exact ⟨hstep, trivial⟩

theorem tamed_addBalance (hs : Versioned s) {amount : Uint256}
    (htame : (Change.addBalance addr amount).Tame answer D s) :
    Tamed D answer (addBalance reader addr amount) s := by
  obtain ⟨so, hso, hlive, hD⟩ := htame
  rw [Tamed, addBalance, run_get_bind, if_neg (by simp [hs.versioned]),
    run_bind_ok answer (run_getOrNewStateObject hso hlive)]
  by_cases hamount : amount = 0
  · rw [if_pos hamount] at hD ⊢
    split
    · rename_i hempty
      rw [run_bind_ok answer (run_versionWritten_versioned hs.versioned _ _ _)]
      exact tamed_touch hs (hD hempty).1 (hD hempty).2 _
    · exact tamed_pure hs _
  · rw [if_neg hamount] at hD ⊢
    exact tamed_writeBalance hs hso _ hD

theorem tamed_setCode (keccak : Bytes → Hash) (hs : Versioned s) {code : Option Bytes}
    (htame : (Change.setCode addr code).Tame answer D s) :
    Tamed D answer (setCode reader keccak addr code) s := by
  obtain ⟨so, hso, hlive, hD, hcode⟩ := htame
  have hread : Act.run answer (attempt (objectCode reader addr)) s = (.ok (.ok so.code), s) := by
    rw [Act.run_attempt, objectCode, run_bind_ok answer (run_object answer hso)]
    cases hread : so.code with
    | some code => rfl
    | none =>
      dsimp only
      rw [if_pos (hcode hread)]
      rfl
  rw [Tamed, setCode, run_bind_ok answer (run_getOrNewStateObject hso hlive)]
  dsimp only
  rw [run_bind_ok answer hread]
  dsimp only
  rw [append, run_modify_bind, updateObject, run_modify_bind]
  rw [run_bind_ok answer (run_versionWritten_versioned (by exact hs.versioned) _ _ _),
    run_bind_ok answer (run_versionWritten_versioned (by exact hs.versioned) _ _ _),
    run_versionWritten_versioned (by exact hs.versioned)]
  refine ⟨writeStep_outside hs hso rfl ?_ (((WritesAt.setWrite _ _ _).trans
    (WritesAt.setWrite _ _ _)).trans (WritesAt.setWrite _ _ _)) ?_ hD, trivial⟩
  · exact { AlikeObject.refl so with }
  · exact fun u hu => by simp [Ready, hu]

theorem tamed_selfdestruct (hs : Versioned s) (htame : (Change.selfdestruct addr).Tame answer D s) :
    Tamed D answer (selfdestruct reader addr) s := by
  obtain ⟨so, hso, hD⟩ := htame
  rw [Tamed, selfdestruct, run_bind_ok answer (run_getStateObject_of_mem reader answer hso)]
  cases hlive : so.deleted with
  | true =>
    have halive : alive (some so) = none := by simp [alive, Option.filter, hlive]
    rw [halive]
    exact tamed_pure hs _
  | false =>
    have halive : alive (some so) = some so := by simp [alive, Option.filter, hlive]
    obtain ⟨hout, hcreated⟩ := hD hlive
    rw [halive]
    dsimp only
    rw [append, run_modify_bind, updateObject, run_modify_bind]
    rw [run_bind_ok answer (run_versionWritten_versioned (by exact hs.versioned) _ _ _),
      run_bind_ok answer (run_versionWritten_versioned (by exact hs.versioned) _ _ _)]
    refine ⟨writeStep_outside hs hso rfl ?_ ((WritesAt.setWrite _ _ _).trans
      (WritesAt.setWrite _ _ _)) ?_ hout, trivial⟩
    · exact { AlikeObject.refl so with createdContract := hcreated.symm }
    · exact fun u hu => by simp [Ready, hu]

/-! ### Slots -/

/-- A state that a step leads to, with the object of an address. -/
def Within (D : Address → Prop) (addr : Address) (s₀ t s : State) : Prop :=
  t = s ∧ WriteStep D s₀ s ∧ (s.objects addr).isSome

theorem within_silent {s₀ t : State} (h : Within D addr s₀ t s) {f : State → State}
    (halike : Alike D (f s) s) (hjournal : (f s).journal = s.journal)
    (hvalid : (f s).validRevisions = s.validRevisions)
    (hnext : (f s).nextRevisionId = s.nextRevisionId) : Within D addr s₀ (f t) (f s) := by
  obtain ⟨rfl, hstep, hobject⟩ := h
  exact ⟨rfl, hstep.trans (writeStep_silent hstep.versionedState halike hjournal hvalid hnext),
    halike.isSome_object hobject⟩

variable (addr)

theorem looks_within (key : StorageKey) (s₀ : State) :
    Looks (Within D addr s₀) addr (.state key) where
  deleted h := by rw [h.1]
  own h := by rw [h.1]
  read h := by rw [h.1]
  dep {t s} h f :=
    within_silent (f := fun s => { s with dep := f s.dep }) h
      { Alike.refl h.2.1.versioned with } rfl rfl rfl
  setRead {t s} h r := by
    refine within_silent (f := fun s => s.setRead addr (.state key) r) h ?_ rfl rfl rfl
    refine { Alike.refl h.2.1.versioned with reads := fun a k hk => ?_ }
    by_cases ha : a = addr
    · simp [State.setRead, ha, hk key]
    · simp [State.setRead, ha]

theorem blind_object_within (s₀ : State) :
    Blind (Within D addr s₀) answer (object addr) := by
  rintro t s ⟨rfl, hstep, hobject⟩
  obtain ⟨so, hso⟩ := Option.isSome_iff_exists.mp hobject
  unfold Agree
  rw [run_object answer hso]
  exact ⟨.ok rfl, rfl, hstep, hobject⟩

section

variable (key : StorageKey) (s₀ : State)

include key s₀

theorem blind_objectCommittedState_within :
    Blind (Within D addr s₀) answer (objectCommittedState reader addr key) := by
  refine (blind_object_within addr s₀).bind fun so => ?_
  cases so.originStorage key with
  | some value => exact .pure value
  | none =>
    dsimp only
    split
    · exact .pure 0
    · cases reader.readAccountStorage addr key with
      | error e => exact .pure 0
      | ok res =>
        refine .bind (.modify fun h => ?_) fun _ => .pure _
        refine within_silent (f := fun s => s.updateObject addr fun so =>
          so.cacheOrigin key (res.getD 0)) h (Alike.cache h.2.1.versioned addr fun so => ?_)
          rfl rfl rfl
        exact { AlikeObject.refl so with }

theorem blind_objectState_within :
    Blind (Within D addr s₀) answer (objectState reader addr key) := by
  refine (blind_object_within addr s₀).bind fun so => ?_
  cases so.dirtyStorage key with
  | some value => exact .pure _
  | none => exact (blind_objectCommittedState_within addr key s₀).bind fun v => .pure _

/-- A read of a slot of an object that is there. -/
theorem blind_versionedRead_within
    (commited : Bool) {readStorage : Option StateObject → Call (Uint256 × Bool)}
    (hread : ∀ so, Blind (Within D addr s₀) answer (readStorage so)) :
    Blind (Within D addr s₀) answer (versionedRead reader addr (.state key) commited 0
      Val.asUint256 .uint256 readStorage) := by
  intro t s h
  refine .get ?_
  rw [if_pos (h.1 ▸ h.2.1.versioned), if_pos h.2.1.versioned]
  refine blind_versionedLookup (looks_within addr key s₀) _ _ _ _ ?_ _ _ h
  refine Blind.bind ?_ hread
  rintro t s ⟨rfl, hstep, hobject⟩
  obtain ⟨so, hso⟩ := Option.isSome_iff_exists.mp hobject
  unfold Agree
  rw [run_getStateObject_of_mem reader answer hso]
  exact ⟨.ok rfl, rfl, hstep, hobject⟩

theorem blind_readState_within
    (so : Option StateObject) : Blind (Within D addr s₀) answer (readState reader addr key so) := by
  unfold readState
  split
  · exact blind_objectState_within addr key s₀
  · exact .pure _

end

variable {addr}

/-- A call that stays within steps. -/
theorem lands_of_blind {A : Type} {x : Call A} (hx : Blind (Within D addr s) answer x)
    (hs : Versioned s) (hobject : (s.objects addr).isSome) :
    Lands (WriteStep D) True (fun _ s' => Versioned s' ∧ (s'.objects addr).isSome) s
      (Act.run answer x s) := by
  have hwithin := (hx s s ⟨rfl, .refl hs, hobject⟩).2
  match Act.run answer x s, hwithin with
  | (.ok a, s'), ⟨_, hstep, hobject⟩ => exact ⟨hstep, hstep.versionedState, hobject⟩
  | (.error e, s'), ⟨_, hstep, _⟩ => exact hstep
  | (.panic e, s'), _ => trivial

section

variable (hs : Versioned s)

include hs

theorem tamed_setState {key : StorageKey} {value : Uint256}
    (hdirty : D addr → s.dirties addr ≠ 0)
    (htame : (Change.setState addr key value).Tame answer D s) :
    Tamed D answer (setState reader addr key value) s := by
  obtain ⟨so, hso, hlive, hown⟩ := htame
  have hwrite (prev : Uint256) (commited : Bool) (s' : State) (hs' : Versioned s')
      (hobject : (s'.objects addr).isSome)
      (hD : D addr → s'.written addr (.state key) = some (.uint256 prev) ∧ commited = false) :
      Lands (WriteStep D) True (fun _ _ => True) s' (Act.run answer (do
        if prev ≠ value then
          append (.storageChange addr key prev commited)
          updateObject addr fun so => so.setState key value
          versionWritten addr (.state key) (.uint256 value)) s') := by
    split
    · obtain ⟨so', hso'⟩ := Option.isSome_iff_exists.mp hobject
      rw [append, run_modify_bind, updateObject, run_modify_bind,
        run_versionWritten_versioned (by exact hs'.versioned)]
      exact ⟨writeStep_state hs' hso' key prev value commited _ hD, trivial⟩
    · exact tamed_pure hs' _
  rw [Tamed, setState, run_bind_ok answer (run_getOrNewStateObject hso hlive)]
  by_cases hD : D addr
  · -- the write of the transaction is what the read sees
    obtain ⟨⟨prev, hprev⟩, hstatus⟩ := hown hD
    obtain ⟨w, hw, hval⟩ := Option.map_eq_some_iff.mp hprev
    have hsees : s.versionedWrite addr (.state key) = some w := by
      rw [State.versionedWrite, if_pos ⟨hs.versioned, hdirty hD⟩, hw]
    have hread : Act.run answer (orElse (versionedRead reader addr (.state key) false 0
        Val.asUint256 .uint256 (readState reader addr key)) (0, false)) s =
          (.ok (prev, false), s) := by
      have hlook : Act.run answer (versionedRead reader addr (.state key) false 0 Val.asUint256
          .uint256 (readState reader addr key)) s = (.ok (prev, false), s) := by
        simp [versionedRead, versionedLookup, Act.run_bind, hs.versioned, hso, hlive, hstatus,
          hsees, hval, assertType, Val.asUint256]
      rw [Act.run_orElse, hlook]
    rw [run_bind_ok answer hread]
    exact hwrite prev false s hs (by simp [hso]) fun _ => ⟨hprev, rfl⟩
  · have hread : Blind (Within D addr s) answer (orElse (versionedRead reader addr (.state key) false
        0 Val.asUint256 .uint256 (readState reader addr key)) (0, false)) :=
      (blind_versionedRead_within addr key s false (blind_readState_within addr key s)).orElse _
    refine Lands.bind (fun _ _ _ hst htu => hst.trans htu)
      (lands_of_blind hread hs (by simp [hso])) fun v s' hs' => ?_
    exact hwrite v.1 v.2 s' hs'.1 hs'.2 fun h => absurd h hD

/-! ### Refunds, logs, access lists -/

omit hs in
theorem entrySteps_writeStep : EntrySteps Versioned (WriteStep D) where
  refl := WriteStep.refl
  trans := WriteStep.trans
  holds := WriteStep.versionedState
  exact hs hsame hjournal hready hundo :=
    writeStep_exact hs (by rw [hsame]; exact { hs with }) hjournal hready hundo (by rw [hsame])
      (by rw [hsame])

theorem tamed_addLog (payload : Bytes) : Tamed D answer (addLog payload) s := by
  have halike : Alike D (undoEntry (.addLogChange s.txIndex) (s.addLog payload)) s :=
    { Alike.refl hs.versioned with logs := undoEntry_addLog_logs hs.laterLogs payload }
  have hstep : WriteStep D s (s.addLog payload) :=
    ⟨hs.versioned, addLog_laterLogs hs.laterLogs payload,
      .of_entry rfl (ready_addLog hs.laterLogs payload) halike, rfl, rfl⟩
  exact ⟨hstep, trivial⟩

end

theorem tamed_change (keccak : Bytes → Hash) (hs : Versioned s)
    (hdirty : ∀ addr, D addr → s.dirties addr ≠ 0) {c : Change} (htame : c.Tame answer D s) :
    Tamed D answer (c.call reader keccak) s := by
  have hentry {A : Type} {x : Call A}
      (hx : Act.Moves (WriteStep D) True Versioned x fun _ => Versioned) : Tamed D answer x s :=
    (hx answer s hs).imp fun _ _ _ => trivial
  cases c with
  | createAccount addr contractCreation => exact htame.elim
  | addBalance addr amount => exact tamed_addBalance hs htame
  | subBalance addr amount => exact tamed_subBalance hs htame
  | setBalance addr amount =>
    obtain ⟨so, hso, hlive, hD⟩ := htame
    exact tamed_setBalance hs hso hlive amount hD
  | setNonce addr nonce =>
    obtain ⟨so, hso, hlive, hD⟩ := htame
    exact tamed_setNonce hs hso hlive nonce hD
  | setCode addr code => exact tamed_setCode keccak hs htame
  | setState addr key value => exact tamed_setState hs (hdirty addr) htame
  | setTransientState addr key value => exact hentry (entrySteps_writeStep.moves_setTransientState addr key value)
  | selfdestruct addr =>
    exact tamed_map _ (tamed_selfdestruct hs htame)
  | addLog payload => exact tamed_addLog hs payload
  | addRefund gas => exact hentry (entrySteps_writeStep.moves_addRefund gas)
  | subRefund gas => exact hentry (entrySteps_writeStep.moves_subRefund gas)
  | addAddressToAccessList addr => exact hentry (entrySteps_writeStep.moves_addAddressToAccessList addr)
  | addSlotToAccessList addr slot => exact hentry (entrySteps_writeStep.moves_addSlotToAccessList addr slot)

theorem tamed_getter (hs : Versioned s) {g : Getter} (htame : g.Tame reader answer s) :
    Tamed D answer (g.call reader) s := by
  have hread {x : Call Val} {addr : Address} (hx : Blind (Within D addr s) answer x)
      (hobject : (s.objects addr).isSome) : Tamed D answer x s :=
    (lands_of_blind hx hs hobject).imp fun _ _ _ => trivial
  rcases htame with hsame | ⟨addr, key, hobject, rfl | rfl⟩
  · unfold Tamed
    match Act.run answer (g.call reader) s, hsame with
    | (.ok a, _), rfl => exact ⟨.refl hs, trivial⟩
    | (.error e, _), rfl => exact .refl hs
    | (.panic e, _), _ => trivial
  · refine hread (((blind_versionedRead_within addr key s false ?_).map _).map _) hobject
    exact blind_readState_within addr key s
  · refine hread (((blind_versionedRead_within addr key s true fun so => ?_).map _).map _) hobject
    split
    · exact (blind_objectCommittedState_within addr key s).bind fun v => .pure _
    · exact .pure _

end Moves

end IntraBlock

end Erigon
