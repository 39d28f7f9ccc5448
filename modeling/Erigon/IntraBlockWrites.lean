/-
The versioned writes of a transaction and the journal: what a revert does to them
at the addresses that were dirty before, and when it gives them back.
-/
import Erigon.IntraBlockRevert

namespace Erigon

namespace IntraBlock

open State

open Act (get modify attempt orElse Lands)

/-- The value of a versioned write. -/
def State.written (s : State) (addr : Address) (key : AccountKey) : Option Val :=
  (s.versionedWrites addr key).map VersionedWrite.val

theorem written_setWrite (s : State) (addr : Address) (key : AccountKey)
    (w : Option VersionedWrite) (a : Address) (k : AccountKey) :
    (s.setWrite addr key w).written a k =
      if a = addr ∧ k = key then w.map VersionedWrite.val else s.written a k := by
  unfold written setWrite
  by_cases ha : a = addr
  · subst ha
    by_cases hk : k = key <;> simp [hk]
  · simp [ha]

/-! ### States alike -/

/-- Objects with the same fields for the versioned getters; slots that are written stay
written. -/
structure AlikeObject (t s : StateObject) : Prop where
  nonce : t.data.nonce = s.data.nonce
  balance : t.data.balance = s.data.balance
  codeHash : t.data.codeHash = s.data.codeHash
  original : t.original = s.original
  code : t.code = s.code
  selfdestructed : t.selfdestructed = s.selfdestructed
  deleted : t.deleted = s.deleted
  createdContract : t.createdContract = s.createdContract
  dirtyStorage : ∀ key, (s.dirtyStorage key).isSome → (t.dirtyStorage key).isSome

/-- States that differ in what no versioned getter but that of the storage looks at, and
in the writes outside of `D`. -/
structure Alike (D : Address → Prop) (t s : State) : Prop where
  versioned : t.versioned = true ∧ s.versioned = true
  objects : ∀ addr, Option.Rel AlikeObject (t.objects addr) (s.objects addr)
  nilAccounts : t.nilAccounts = s.nilAccounts
  balanceInc : t.balanceInc = s.balanceInc
  txIndex : t.txIndex = s.txIndex
  incarnation : t.incarnation = s.incarnation
  dirties : t.dirties = s.dirties
  accessList : t.accessList = s.accessList
  logs : ∀ i, t.logs.getD i [] = s.logs.getD i []
  reads : ∀ addr key, (∀ slot, key ≠ .state slot) →
    t.versionedReads addr key = s.versionedReads addr key
  writes : ∀ addr key, D addr → t.written addr key = s.written addr key

theorem AlikeObject.refl (so : StateObject) : AlikeObject so so :=
  ⟨rfl, rfl, rfl, rfl, rfl, rfl, rfl, rfl, fun _ => id⟩

theorem AlikeObject.trans {t s u : StateObject} (hut : AlikeObject u t) (hts : AlikeObject t s) :
    AlikeObject u s :=
  ⟨hut.nonce.trans hts.nonce, hut.balance.trans hts.balance, hut.codeHash.trans hts.codeHash,
    hut.original.trans hts.original, hut.code.trans hts.code,
    hut.selfdestructed.trans hts.selfdestructed, hut.deleted.trans hts.deleted,
    hut.createdContract.trans hts.createdContract,
    fun key h => hut.dirtyStorage key (hts.dirtyStorage key h)⟩

theorem alikeOption_refl (x : Option StateObject) : Option.Rel AlikeObject x x := by
  cases x with
  | none => exact .none
  | some so => exact .some (.refl so)

variable {x y : Option StateObject}

theorem alikeOption_trans {z : Option StateObject} (hxy : Option.Rel AlikeObject x y)
    (hyz : Option.Rel AlikeObject y z) : Option.Rel AlikeObject x z := by
  cases hxy with
  | none => exact hyz
  | some hxy =>
    cases hyz with
    | some hyz => exact .some (hxy.trans hyz)

theorem alikeOption_map (hxy : Option.Rel AlikeObject x y) {f : StateObject → StateObject}
    (hf : ∀ x y, AlikeObject x y → AlikeObject (f x) (f y)) :
    Option.Rel AlikeObject (x.map f) (y.map f) := by
  cases hxy with
  | none => exact .none
  | some hxy => exact .some (hf _ _ hxy)

theorem alikeOption_any (hxy : Option.Rel AlikeObject x y) {p : StateObject → Bool}
    (hp : ∀ x y, AlikeObject x y → p x = p y) : x.any p = y.any p := by
  cases hxy with
  | none => rfl
  | some hxy => exact hp _ _ hxy

theorem setStateObject_versioned {s : State} (hs : s.versioned = true) (addr : Address)
    (so : StateObject) : s.setStateObject addr so = s.setObject addr (some so) := by
  unfold setStateObject
  cases s.balanceInc addr <;> simp [hs]

namespace Alike

variable {D : Address → Prop} {t s u : State}

theorem refl (hs : s.versioned = true) : Alike D s s :=
  ⟨⟨hs, hs⟩, fun _ => alikeOption_refl _, rfl, rfl, rfl, rfl, rfl, rfl, fun _ => rfl,
    fun _ _ _ => rfl, fun _ _ _ => rfl⟩

theorem trans (hut : Alike D u t) (hts : Alike D t s) : Alike D u s where
  versioned := ⟨hut.versioned.1, hts.versioned.2⟩
  objects addr := alikeOption_trans (hut.objects addr) (hts.objects addr)
  nilAccounts := hut.nilAccounts.trans hts.nilAccounts
  balanceInc := hut.balanceInc.trans hts.balanceInc
  txIndex := hut.txIndex.trans hts.txIndex
  incarnation := hut.incarnation.trans hts.incarnation
  dirties := hut.dirties.trans hts.dirties
  accessList := hut.accessList.trans hts.accessList
  logs i := (hut.logs i).trans (hts.logs i)
  reads addr key hkey := (hut.reads addr key hkey).trans (hts.reads addr key hkey)
  writes addr key h := (hut.writes addr key h).trans (hts.writes addr key h)

theorem object {addr : Address} {so : StateObject} (h : Alike D t s)
    (hso : s.objects addr = some so) :
    ∃ so', t.objects addr = some so' ∧ AlikeObject so' so := by
  have hlike := h.objects addr
  rw [hso] at hlike
  cases hobject : t.objects addr with
  | none =>
    rw [hobject] at hlike
    cases hlike
  | some so' =>
    rw [hobject] at hlike
    cases hlike with
    | some hlike => exact ⟨so', rfl, hlike⟩

theorem isSome_object (h : Alike D t s) {addr : Address} (hs : (s.objects addr).isSome) :
    (t.objects addr).isSome := by
  obtain ⟨so, hso⟩ := Option.isSome_iff_exists.mp hs
  obtain ⟨so', hso', -⟩ := h.object hso
  simp [hso']

theorem setObject (h : Alike D t s) (addr : Address) {x y : Option StateObject}
    (hxy : Option.Rel AlikeObject x y) : Alike D (t.setObject addr x) (s.setObject addr y) :=
  { h with
    objects := fun a => by
      by_cases ha : a = addr
      · subst ha
        simpa using hxy
      · simpa [ha] using h.objects a }

variable {f : StateObject → StateObject}

theorem updateObject (h : Alike D t s) (addr : Address)
    (hf : ∀ x y, AlikeObject x y → AlikeObject (f x) (f y)) :
    Alike D (t.updateObject addr f) (s.updateObject addr f) :=
  h.setObject addr (alikeOption_map (h.objects addr) hf)

/-- A change of what no getter but that of the storage looks at. -/
theorem cache (hs : s.versioned = true) (addr : Address) (hf : ∀ so, AlikeObject (f so) so) :
    Alike D (s.updateObject addr f) s := by
  have hrefl : Alike D s s := .refl hs
  refine { hrefl with objects := fun a => ?_ }
  by_cases ha : a = addr
  · subst ha
    cases hso : s.objects a with
    | none => simp [hso]
    | some so => simpa [hso] using Option.Rel.some (hf so)
  · simpa [ha] using hrefl.objects a

/-- The accounts that the objects were made from. -/
theorem originally (h : Alike D t s) (addr : Address) (p : AccountData → Bool) :
    t.originally addr p = s.originally addr p :=
  alikeOption_any (h.objects addr) fun _ _ hlike => by rw [hlike.original]

theorem dropEntry (h : Alike D t s) (rest rest' : List JournalEntry) (e : JournalEntry) :
    Alike D (t.dropEntry rest e) (s.dropEntry rest' e) := by
  unfold State.dropEntry
  cases e.dirtied with
  | none => exact { h with }
  | some addr => exact { h with dirties := by simp only [h.dirties] }

/-- The same write in both, or one that was changed in the same way. -/
theorem setWrite (h : Alike D t s) (addr : Address) (key : AccountKey)
    {x y : Option VersionedWrite}
    (hxy : D addr → x.map VersionedWrite.val = y.map VersionedWrite.val) :
    Alike D (t.setWrite addr key x) (s.setWrite addr key y) :=
  { h with
    writes := fun a k hD => by
      rw [written_setWrite, written_setWrite]
      split
      · rename_i heq
        exact hxy (heq.1 ▸ hD)
      · exact h.writes a k hD }

theorem restoreWrite (h : Alike D t s) (addr : Address) (key : AccountKey) (original : Bool)
    (prev : Val) :
    Alike D (t.restoreWrite addr key original prev) (s.restoreWrite addr key original prev) := by
  simp only [State.restoreWrite, h.versioned.1, h.versioned.2, Bool.not_true]
  cases original with
  | true => exact h.setWrite addr key fun _ => rfl
  | false =>
    refine h.setWrite addr key fun hD => ?_
    have hwritten := h.writes addr key hD
    unfold State.written at hwritten
    cases ht : t.versionedWrites addr key <;> cases hs : s.versionedWrites addr key <;>
      simp [ht, hs] at hwritten ⊢

theorem clearWrite (h : Alike D t s) (addr : Address) (key : AccountKey) :
    Alike D (t.clearWrite addr key) (s.clearWrite addr key) := by
  simp only [State.clearWrite, h.versioned.1, h.versioned.2, if_true]
  exact h.setWrite addr key fun _ => rfl

theorem setStateObject (h : Alike D t s) (addr : Address) (so : StateObject) :
    Alike D (t.setStateObject addr so) (s.setStateObject addr so) := by
  rw [setStateObject_versioned h.versioned.1, setStateObject_versioned h.versioned.2]
  exact h.setObject addr (.some (.refl so))

theorem ready {e : JournalEntry} (h : Alike D t s) (hready : Ready e s) : Ready e t := by
  refine hready.mono (fun _ => h.isSome_object) (fun addr so key hso hslot => ?_) h.logs
    h.accessList
  obtain ⟨so', hso', hlike⟩ := h.object hso
  exact ⟨so', hso', hlike.dirtyStorage key hslot⟩

theorem undone {e : JournalEntry} (h : Alike D t s) (hready : Ready e s) :
    Alike D (IntraBlock.undone e t) (IntraBlock.undone e s) := by
  cases e with
  | createObjectChange account => exact h.setObject account .none
  | resetObjectChange account prev => exact h.setStateObject account prev
  | selfdestructChange account prev prevbalance =>
    simp only [IntraBlock.undone, h.originally]
    refine ((h.updateObject account fun x y hlike => ?_).restoreWrite _ _ _ _).clearWrite _ _
    exact { hlike with balance := rfl, selfdestructed := rfl }
  | balanceChange account prev =>
    simp only [IntraBlock.undone, h.originally]
    refine (h.updateObject account fun x y hlike => ?_).restoreWrite _ _ _ _
    exact { hlike with balance := rfl }
  | nonceChange account prev =>
    simp only [IntraBlock.undone, h.originally]
    refine (h.updateObject account fun x y hlike => ?_).restoreWrite _ _ _ _
    exact { hlike with nonce := rfl }
  | storageChange account key prevalue wasCommited =>
    refine (h.restoreWrite _ _ _ _).updateObject account fun x y hlike => ?_
    refine { hlike with dirtyStorage := fun k hk => ?_ }
    by_cases heq : k = key
    · simp [StateObject.setState, heq]
    · simp only [StateObject.setState, Function.update_of_ne heq] at hk ⊢
      exact hlike.dirtyStorage k hk
  | codeChange account prevcode prevhash =>
    simp only [IntraBlock.undone, h.originally]
    refine ((h.updateObject account fun x y hlike => ?_).restoreWrite _ _ _ _).restoreWrite
      _ _ _ _
    exact { hlike with code := rfl, codeHash := rfl }
  | balanceIncrease account increase =>
    simp only [IntraBlock.undone, h.balanceInc]
    cases s.balanceInc account with
    | none => exact h
    | some bi => exact { h with balanceInc := rfl }
  | balanceIncreaseTransfer account =>
    exact { h with balanceInc := by simp only [IntraBlock.undone, h.balanceInc] }
  | addLogChange txIndex =>
    refine { h with logs := fun i => ?_ }
    rw [IntraBlock.undone, dropLog_logs (h.ready hready), IntraBlock.undone,
      dropLog_logs hready, h.logs]
  | accessListAddAccountChange address | accessListAddSlotChange address slot =>
    exact { h with accessList := by simp only [IntraBlock.undone, h.accessList] }
  | refundChange prev => exact { h with }
  | touchChange account => exact h
  | transientStorageChange account key prevalue => exact { h with }

end Alike

theorem undoLog_respects_alike (D : Address → Prop) : undoLog.Respects (Alike D) where
  trans := Alike.trans
  ready := Alike.ready
  undo h hready := Alike.dropEntry (h.undone hready) _ _ _

/-! ### Steps -/

/-- From `s` to `s'`: what is new on the journal takes `s'` back, writes in `D` included. -/
structure WriteStep (D : Address → Prop) (s s' : State) : Prop where
  versioned : s'.versioned = true
  laterLogs : ∀ i, s'.txIndex < i → s'.logs.getD i [] = []
  back : undoLog.TakesBack (Alike D) s s'
  validRevisions : s'.validRevisions = s.validRevisions
  nextRevisionId : s'.nextRevisionId = s.nextRevisionId

/-- A state with a version map within a transaction. -/
structure Versioned (s : State) : Prop where
  versioned : s.versioned = true
  laterLogs : ∀ i, s.txIndex < i → s.logs.getD i [] = []

section Steps

variable {D : Address → Prop} {s : State}

theorem WriteStep.refl (hs : Versioned s) : WriteStep D s s :=
  ⟨hs.versioned, hs.laterLogs, .refl (Alike.refl hs.versioned), rfl, rfl⟩

variable {s' t : State}

theorem WriteStep.versionedState (h : WriteStep D s s') : Versioned s' :=
  ⟨h.versioned, h.laterLogs⟩

theorem WriteStep.trans {u : State} (hst : WriteStep D s t) (htu : WriteStep D t u) :
    WriteStep D s u :=
  ⟨htu.versioned, htu.laterLogs, hst.back.trans (undoLog_respects_alike D) htu.back,
    htu.validRevisions.trans hst.validRevisions, htu.nextRevisionId.trans hst.nextRevisionId⟩

/-- `t` is `s` but for the writes of an address. -/
def WritesAt (addr : Address) (t s : State) : Prop :=
  t = { s with versionedWrites := t.versionedWrites } ∧
    ∀ a, a ≠ addr → t.versionedWrites a = s.versionedWrites a

namespace WritesAt

variable {addr : Address} {t u : State}

theorem refl (s : State) : WritesAt addr s s := ⟨rfl, fun _ _ => rfl⟩

theorem trans (hut : WritesAt addr u t) (hts : WritesAt addr t s) : WritesAt addr u s := by
  refine ⟨?_, fun a ha => (hut.2 a ha).trans (hts.2 a ha)⟩
  rw [hut.1, hts.1]

theorem setWrite (s : State) (key : AccountKey) (w : Option VersionedWrite) :
    WritesAt addr (s.setWrite addr key w) s :=
  ⟨rfl, fun a ha => by simp [State.setWrite, ha]⟩

theorem restoreWrite (s : State) (key : AccountKey) (original : Bool) (prev : Val) :
    WritesAt addr (s.restoreWrite addr key original prev) s := by
  unfold State.restoreWrite
  split
  · exact refl s
  · split
    · exact setWrite s key _
    · exact setWrite s key _

theorem clearWrite (s : State) (key : AccountKey) : WritesAt addr (s.clearWrite addr key) s := by
  unfold State.clearWrite
  split
  · exact setWrite s key _
  · exact refl s

section

variable (h : WritesAt addr t s)

include h

theorem updateObject (a : Address) (f : StateObject → StateObject) :
    WritesAt addr (t.updateObject a f) (s.updateObject a f) := by
  refine ⟨?_, h.2⟩
  rw [h.1]
  rfl

theorem dropEntry (rest : List JournalEntry) (e : JournalEntry) :
    WritesAt addr (t.dropEntry rest e) (s.dropEntry rest e) := by
  unfold State.dropEntry
  cases e.dirtied with
  | none =>
    refine ⟨?_, h.2⟩
    rw [h.1]
  | some a =>
    refine ⟨?_, h.2⟩
    rw [h.1]

theorem journal : t.journal = s.journal := by rw [h.1]

theorem objects : t.objects = s.objects := by rw [h.1]

theorem alike (hs : s.versioned = true)
    (hD : D addr → ∀ key, t.written addr key = s.written addr key) : Alike D t s := by
  have hwrites (a : Address) (key : AccountKey) (ha : D a) : t.written a key = s.written a key := by
    by_cases heq : a = addr
    · subst heq
      exact hD ha key
    · rw [written, written, h.2 a heq]
  have hrefl : Alike D s s := .refl hs
  obtain ⟨heq, -⟩ := h
  generalize t.versionedWrites = writes at heq
  subst heq
  exact { hrefl with writes := hwrites }

end

/-- The revert of an object is a change of the object and of the writes of its address. -/
theorem undone {e : JournalEntry} {g : StateObject → StateObject}
    (he : e.restores = some (addr, g)) (s : State) :
    WritesAt addr (IntraBlock.undone e s) (s.updateObject addr g) := by
  cases e with
  | selfdestructChange account prev prevbalance =>
    cases he
    exact (clearWrite _ _).trans (restoreWrite _ _ _ _)
  | balanceChange account prev =>
    cases he
    exact restoreWrite _ _ _ _
  | nonceChange account prev =>
    cases he
    exact restoreWrite _ _ _ _
  | storageChange account key prevalue wasCommited =>
    cases he
    exact (restoreWrite _ _ _ _).updateObject _ _
  | codeChange account prevcode prevhash =>
    cases he
    exact (restoreWrite _ _ _ _).trans (restoreWrite _ _ _ _)
  | _ => cases he

end WritesAt

theorem written_undoEntry (e : JournalEntry) (s : State) (addr : Address) (key : AccountKey) :
    (undoEntry e s).written addr key = (undone e s).written addr key := by
  unfold undoEntry dropEntry
  cases e.dirtied <;> rfl

theorem written_append (s : State) (e : JournalEntry) (addr : Address) (key : AccountKey) :
    (s.append e).written addr key = s.written addr key := by
  unfold State.append
  cases e.dirtied <;> rfl

variable {addr : Address}

/-- A write that is in step with what goes back comes back with it. -/
theorem written_restoreWrite (ht : t.versioned = true) {key : AccountKey} {original : Bool}
    {val prev : Val} (hval : t.written addr key = some val)
    (hother : ∀ k, k ≠ key → t.written addr k = s.written addr k)
    (hprev : s.written addr key = if original then none else some prev) (k : AccountKey) :
    (t.restoreWrite addr key original prev).written addr k = s.written addr k := by
  obtain ⟨w, hw, -⟩ := Option.map_eq_some_iff.mp hval
  simp only [restoreWrite, ht, Bool.not_true]
  by_cases hk : k = key
  · subst hk
    rw [hprev]
    cases original <;> simp [written_setWrite, hw]
  · cases original <;> simp [written_setWrite, hk, hother k hk]

variable {so : StateObject} {e : JournalEntry} {f g : StateObject → StateObject}

/-- A change of one object and the writes of its address, with an entry that changes the
object back; in `D` the writes come back too. -/
theorem writeStep_update (hs : Versioned s) (hso : s.objects addr = some so)
    (he : e.restores = some (addr, g)) (hlike : AlikeObject (g (f so)) so)
    (hs' : WritesAt addr s' ((s.append e).updateObject addr f)) (hready : Ready e s')
    (hD : D addr → ∀ key, (undone e s').written addr key = s.written addr key) :
    WriteStep D s s' := by
  have hupdate : (s.append e).updateObject addr f = (s.append e).setObject addr (some (f so)) := by
    simp [State.updateObject, hso]
  have hback : WritesAt addr (undoEntry e s') (s.setObject addr (some (g (f so)))) := by
    have hundone := (WritesAt.undone he s').trans (hs'.updateObject addr g)
    have hdrop := hundone.dropEntry s.journal e
    rw [hupdate, State.updateObject, setObject_setObject, dropEntry_setObject] at hdrop
    simp only [State.setObject, Function.update_self, Option.map_some, dropEntry_append] at hdrop
    rw [undoEntry, hs'.journal, hupdate]
    simpa [State.setObject] using hdrop
  have halike : Alike D (undoEntry e s') s := by
    refine (hback.alike hs.versioned fun ha key => ?_).trans ?_
    · rw [written_undoEntry]
      exact hD ha key
    · have hrefl : Alike D s s := .refl hs.versioned
      have hset := hrefl.setObject addr (.some hlike)
      rwa [setObject_self hso] at hset
  have hfields : s'.versioned = s.versioned ∧ s'.txIndex = s.txIndex ∧ s'.logs = s.logs ∧
      s'.validRevisions = s.validRevisions ∧ s'.nextRevisionId = s.nextRevisionId ∧
      s'.journal = e :: s.journal := by
    rw [hs'.1]
    unfold State.append
    cases e.dirtied <;> exact ⟨rfl, rfl, rfl, rfl, rfl, rfl⟩
  obtain ⟨hversioned, htxIndex, hlogs, hvalid, hnext, hjournal⟩ := hfields
  refine ⟨hversioned.trans hs.versioned, ?_, .of_entry hjournal hready halike, hvalid, hnext⟩
  rw [htxIndex, hlogs]
  exact hs.laterLogs

/-- Whether the write of a path is in step with the object: none where the value is the
original one, and otherwise one of the value. -/
def InStep (s : State) (addr : Address) (key : AccountKey) (field : AccountData → Val)
    (so : StateObject) : Prop :=
  s.written addr key = if field so.original = field so.data then none else some (field so.data)

section

variable (hs : Versioned s) (hso : s.objects addr = some so)

include hs hso

/-- A change of a field of the account with its write. -/
theorem writeStep_field {key : AccountKey}
    {field : AccountData → Val} (he : e.restores = some (addr, g))
    (hundone : ∀ u, undone e u = (u.updateObject addr g).restoreWrite addr key
      (u.originally addr fun a => field a = field so.data) (field so.data))
    (hlike : AlikeObject (g (f so)) so) (horiginal : (f so).original = so.original)
    (hready : ∀ u : State, u.objects addr = some (f so) → Ready e u) (w : VersionedWrite)
    (hD : D addr → InStep s addr key field so) :
    WriteStep D s (((s.append e).updateObject addr f).setWrite addr key (some w)) := by
  set s' := ((s.append e).updateObject addr f).setWrite addr key (some w) with hs'
  have hversioned : (s'.updateObject addr g).versioned = true := by
    rw [← hs.versioned, hs']
    unfold State.append
    cases e.dirtied <;> rfl
  have hobject : s'.objects addr = some (f so) := by
    simp [hs', State.setWrite, hso]
  have hwritten : (s'.updateObject addr g).written addr key = some w.val :=
    (written_setWrite _ _ _ _ _ _).trans (by simp)
  refine writeStep_update hs hso he hlike (WritesAt.setWrite _ _ _) (hready _ hobject) fun ha k => ?_
  rw [hundone, State.originally, hobject]
  refine written_restoreWrite hversioned hwritten (fun k hk => ?_) ?_ k
  · refine (written_setWrite _ _ _ _ _ _).trans ?_
    rw [if_neg (fun h => hk h.2)]
    exact written_append s e addr k
  · rw [hD ha]
    simp [horiginal]

theorem writeStep_nonce (nonce : Word)
    (w : VersionedWrite) (hD : D addr → InStep s addr .nonce (fun a => .uint64 a.nonce) so) :
    WriteStep D s (((s.append (.nonceChange addr so.data.nonce)).updateObject addr fun so =>
      so.setNonce nonce).setWrite addr .nonce (some w)) := by
  refine writeStep_field hs hso rfl (fun u => ?_) { AlikeObject.refl so with } rfl
    (fun u hu => by simp [Ready, hu]) w hD
  simp [undone, originally]

theorem writeStep_balance (amount : Uint256)
    (w : VersionedWrite) (hD : D addr → InStep s addr .balance (fun a => .uint256 a.balance) so) :
    WriteStep D s (((s.append (.balanceChange addr so.data.balance)).updateObject addr fun so =>
      so.setBalance amount).setWrite addr .balance (some w)) := by
  refine writeStep_field hs hso rfl (fun u => ?_) { AlikeObject.refl so with } rfl
    (fun u hu => by simp [Ready, hu]) w hD
  simp [undone, originally]

/-- A change of a slot with its write; in `D` the slot was written before. -/
theorem writeStep_state (key : StorageKey)
    (prev value : Uint256) (commited : Bool) (w : VersionedWrite)
    (hD : D addr → s.written addr (.state key) = some (.uint256 prev) ∧ commited = false) :
    WriteStep D s (((s.append (.storageChange addr key prev commited)).updateObject addr fun so =>
      so.setState key value).setWrite addr (.state key) (some w)) := by
  set e := JournalEntry.storageChange addr key prev commited with he
  set s' := ((s.append e).updateObject addr fun so => so.setState key value).setWrite addr
    (.state key) (some w) with hs'
  have hlike : AlikeObject ((so.setState key value).setState key prev) so := by
    refine { AlikeObject.refl so with dirtyStorage := fun k hk => ?_ }
    by_cases heq : k = key
    · simp [StateObject.setState, heq]
    · simpa [StateObject.setState, heq] using hk
  have hready : Ready e s' := by
    refine ⟨so.setState key value, ?_, by simp [StateObject.setState]⟩
    simp [hs', setWrite, hso]
  refine writeStep_update hs hso rfl hlike (WritesAt.setWrite _ _ _) hready fun ha k => ?_
  obtain ⟨hwritten, rfl⟩ := hD ha
  have hval : s'.written addr (.state key) = some w.val :=
    (written_setWrite _ _ _ _ _ _).trans (by simp)
  have hversioned : s'.versioned = true := hs.versioned
  refine written_restoreWrite hversioned hval (fun k hk => ?_) hwritten k
  refine (written_setWrite _ _ _ _ _ _).trans ?_
  rw [if_neg (fun h => hk h.2)]
  exact written_append s e addr k

/-- A change of an object outside of `D`. -/
theorem writeStep_outside (he : e.restores = some (addr, g)) (hlike : AlikeObject (g (f so)) so)
    (hs' : WritesAt addr s' ((s.append e).updateObject addr f))
    (hready : ∀ u : State, u.objects addr = some (f so) → Ready e u) (hD : ¬ D addr) :
    WriteStep D s s' := by
  refine writeStep_update hs hso he hlike hs' (hready s' ?_) fun ha => absurd ha hD
  rw [hs'.objects]
  simp [hso]

end

/-- A change without an entry, and with nothing to take back. -/
theorem writeStep_silent (hs : Versioned s) (halike : Alike D s' s)
    (hjournal : s'.journal = s.journal) (hvalid : s'.validRevisions = s.validRevisions)
    (hnext : s'.nextRevisionId = s.nextRevisionId) : WriteStep D s s' := by
  refine ⟨halike.versioned.1, fun i hi => ?_, .of_rel hjournal halike, hvalid, hnext⟩
  rw [halike.logs]
  exact hs.laterLogs i (halike.txIndex ▸ hi)

/-- A change that leaves objects and writes alone and that its entry takes back. -/
theorem writeStep_exact (hs : Versioned s) (hs' : Versioned s')
    (hjournal : s'.journal = e :: s.journal) (hready : Ready e s') (hundo : undoEntry e s' = s)
    (hvalid : s'.validRevisions = s.validRevisions) (hnext : s'.nextRevisionId = s.nextRevisionId) :
    WriteStep D s s' := by
  refine ⟨hs'.versioned, hs'.laterLogs, .of_entry hjournal hready ?_, hvalid, hnext⟩
  change Alike D (undoEntry e s') s
  rw [hundo]
  exact Alike.refl hs.versioned

end Steps

end IntraBlock

end Erigon
