/-
What the operations of a block without a version map put on the journal takes them
back, up to states that answer alike.
-/
import Erigon.IntraBlockLike

namespace Erigon

namespace IntraBlock

open Act (get modify throw attempt orElse Moves)

section Reader

variable (reader : StateReader)

/-- A state within a transaction. -/
structure Sound (s : State) : Prop extends Plain reader s where
  initialised : ∀ addr so, s.objects addr = some so → so.data.initialised = true
  laterLogs : ∀ i, s.txIndex < i → s.logs.getD i [] = []
  dirtyObjects : ∀ addr, addr ≠ ripemd → s.dirties addr ≠ 0 → (s.objects addr).isSome

/-- From `s` to `s'`: what is new on the journal takes `s'` back. -/
structure Step (care : Care) (s s' : State) : Prop where
  sound : Sound reader s'
  back : undoLog.TakesBack (Like reader care) s s'
  validRevisions : s'.validRevisions = s.validRevisions
  nextRevisionId : s'.nextRevisionId = s.nextRevisionId

variable {reader} {care : Care}

@[simp] theorem newObject_initialised (data original : AccountData) :
    (newObject data original).data.initialised = true := by
  unfold newObject
  dsimp only
  cases h : data.copy.initialised <;> split_ifs <;> simp_all

variable {s : State}

/-- A state like a sound one is sound. -/
theorem Like.sound {t : State} (h : Like reader care t s) (hs : Sound reader s) :
    Sound reader t where
  toPlain := h.left
  initialised addr so hso := by
    have hlike := h.objects addr
    rw [peek_of_mem hso] at hlike
    cases hy : peek reader s addr with
    | error e =>
      rw [hy] at hlike
      cases hlike
    | ok found =>
      rw [hy] at hlike
      cases hlike with
      | object hlike =>
        rw [hlike.data]
        unfold peek at hy
        cases hobject : s.objects addr with
        | some so' =>
          rw [hobject] at hy
          cases hy
          exact hs.initialised addr _ hobject
        | none =>
          rw [hobject] at hy
          match hread : reader.readAccountData addr with
          | .error e =>
            rw [hread] at hy
            cases hy
          | .ok none =>
            rw [hread] at hy
            cases hy
          | .ok (some account) =>
            rw [hread] at hy
            cases hy
            exact newObject_initialised account account
  laterLogs i hi := by
    rw [h.logs]
    exact hs.laterLogs i (h.txIndex ▸ hi)
  dirtyObjects addr haddr hdirty := by
    rw [h.dirties addr haddr] at hdirty
    exact h.present addr (hs.dirtyObjects addr haddr hdirty)

namespace Step

variable {s t u : State}

theorem refl (hs : Sound reader s) : Step reader care s s :=
  ⟨hs, .refl (Like.refl hs.toPlain), rfl, rfl⟩

theorem trans (hst : Step reader care s t) (htu : Step reader care t u) : Step reader care s u :=
  ⟨htu.sound, hst.back.trans undoLog_respects htu.back,
    htu.validRevisions.trans hst.validRevisions, htu.nextRevisionId.trans hst.nextRevisionId⟩

end Step

/-! ### Entries -/

@[simp] theorem append_journal (s : State) (e : JournalEntry) :
    (s.append e).journal = e :: s.journal := by
  unfold State.append
  cases e.dirtied <;> rfl

@[simp] theorem append_objects (s : State) (e : JournalEntry) :
    (s.append e).objects = s.objects := by
  unfold State.append
  cases e.dirtied <;> rfl

theorem dropEntry_setObject (s : State) (addr : Address) (x : Option StateObject)
    (rest : List JournalEntry) (e : JournalEntry) :
    (s.setObject addr x).dropEntry rest e = (s.dropEntry rest e).setObject addr x := by
  unfold State.dropEntry
  cases e.dirtied <;> rfl

theorem dropEntry_append (s : State) (e : JournalEntry) :
    (s.append e).dropEntry s.journal e = s := by
  unfold State.append State.dropEntry
  cases e.dirtied with
  | none => rfl
  | some addr => simp [State.dirty]

variable {addr : Address}

theorem setObject_self {x : Option StateObject} (hx : s.objects addr = x) :
    s.setObject addr x = s := by
  subst hx
  simp [State.setObject]

theorem setObject_setObject (s : State) (addr : Address) (x y : Option StateObject) :
    (s.setObject addr x).setObject addr y = s.setObject addr y := by
  simp [State.setObject]

variable {e : JournalEntry}

theorem append_dirties (hdirtied : ∀ a, e.dirtied = some a → a = addr) {a : Address} (ha : a ≠ addr) :
    (s.append e).dirties a = s.dirties a := by
  unfold State.append
  cases he : e.dirtied with
  | none => rfl
  | some b =>
    rw [hdirtied b he]
    simp [State.dirty, ha]

theorem plain_append (hs : Plain reader s) (e : JournalEntry) : Plain reader (s.append e) := by
  unfold State.append
  cases e.dirtied <;> exact { hs with }

variable {x so : StateObject}

/-- An entry and a new object at its address. -/
theorem step_object (hs : Sound reader s) (hdirtied : ∀ a, e.dirtied = some a → a = addr)
    (hinit : x.data.initialised = true) (hready : Ready e ((s.append e).setObject addr (some x)))
    (hlike : Like reader care (undoEntry e ((s.append e).setObject addr (some x))) s) :
    Step reader care s ((s.append e).setObject addr (some x)) where
  sound :=
    { plain_append hs.toPlain e with
      initialised := fun a so hso => by
        by_cases ha : a = addr
        · obtain rfl : x = so := by simpa [ha] using hso
          exact hinit
        · exact hs.initialised a so (by simpa [ha] using hso)
      laterLogs := by
        have hlogs : (s.append e).logs = s.logs ∧ (s.append e).txIndex = s.txIndex := by
          unfold State.append
          cases e.dirtied <;> exact ⟨rfl, rfl⟩
        change ∀ i, (s.append e).txIndex < i → (s.append e).logs.getD i [] = []
        rw [hlogs.1, hlogs.2]
        exact hs.laterLogs
      dirtyObjects := fun a hripemd hdirty => by
        by_cases ha : a = addr
        · simp [ha]
        · have hdirty' : s.dirties a ≠ 0 := append_dirties hdirtied ha ▸ hdirty
          simpa [ha] using hs.dirtyObjects a hripemd hdirty' }
  back := .of_entry (append_journal s e) hready hlike
  validRevisions := by
    unfold State.append
    cases e.dirtied <;> rfl
  nextRevisionId := by
    unfold State.append
    cases e.dirtied <;> rfl

/-- An object like the one that is there. -/
theorem like_setObject (hs : Plain reader s) (hso : s.objects addr = some so)
    (hlike : LikeObject reader care addr x so) :
    Like reader care (s.setObject addr (some x)) s := by
  have h := (Like.refl hs).setObject hlike
  rwa [setObject_self hso] at h

variable {f : StateObject → StateObject}

/-- A change of one object with an entry that changes it back. -/
theorem step_update (hs : Sound reader s) (hso : s.objects addr = some so)
    {g : StateObject → StateObject} (he : e.restores = some (addr, g))
    (hinit : (f so).data.initialised = true) (hready : Ready e ((s.append e).updateObject addr f))
    (hlike : LikeObject reader care addr (g (f so)) so) :
    Step reader care s ((s.append e).updateObject addr f) := by
  have hdirtied : e.dirtied = some addr := by
    cases e <;> cases he <;> rfl
  have hupdate : (s.append e).updateObject addr f = (s.append e).setObject addr (some (f so)) := by
    simp [State.updateObject, hso]
  rw [hupdate] at hready ⊢
  refine step_object hs (fun a ha => (Option.some.inj (hdirtied.symm.trans ha)).symm) hinit hready ?_
  have hplain : ((s.append e).setObject addr (some (f so))).versioned = false :=
    (plain_append hs.toPlain e).unversioned
  have hback : undoEntry e ((s.append e).setObject addr (some (f so))) =
      s.setObject addr (some (g (f so))) := by
    rw [undoEntry, undone_of_restores hplain he, State.updateObject, setObject_setObject,
      dropEntry_setObject]
    simp [State.setObject, dropEntry_append]
  rw [hback]
  exact like_setObject hs.toPlain hso hlike

/-- What is cached of an object is no change. -/
theorem step_cache (hs : Sound reader s) (hso : s.objects addr = some so)
    (hlike : LikeObject reader care addr (f so) so) :
    Step reader care s (s.updateObject addr f) := by
  have h : Like reader care (s.updateObject addr f) s := by
    rw [State.updateObject, hso]
    exact like_setObject hs.toPlain hso hlike
  exact ⟨h.sound hs, .of_rel rfl h, rfl, rfl⟩

/-- A change of the state that its entry takes back altogether. -/
theorem step_exact {s' : State} (hs : Sound reader s) (hs' : Sound reader s')
    (hjournal : s'.journal = e :: s.journal) (hready : Ready e s') (hundo : undoEntry e s' = s)
    (hrevisions : s'.validRevisions = s.validRevisions)
    (hnext : s'.nextRevisionId = s.nextRevisionId) : Step reader care s s' := by
  refine ⟨hs', .of_entry hjournal hready ?_, hrevisions, hnext⟩
  change Like reader care (undoEntry e s') s
  rw [hundo]
  exact Like.refl hs.toPlain

theorem step_transfer (hs : Sound reader s) (addr : Address) :
    Step reader care s (s.transfer addr) := by
  have hlike : Like reader care (s.transfer addr) s := (like_transfer hs.toPlain addr).1
  obtain heq | ⟨bi, hbi, heq⟩ := transfer_cases s addr
  · rw [heq]
    exact Step.refl hs
  · refine ⟨hlike.sound hs, ?_, by rw [heq], by rw [heq]⟩
    have hready (u : State) : undoLog.Ready (.balanceIncreaseTransfer addr) u := trivial
    refine .of_entry (by rw [heq]; rfl) (hready _) ?_
    have hundo : Like reader care (undoEntry (.balanceIncreaseTransfer addr) s) s :=
      (like_increases hs.toPlain _ (increases_untransferred hs.toPlain addr)).1
    exact (undoLog_respects.undo hlike (hready s)).trans hundo

theorem transfer_setObject (s : State) (addr : Address) (x : Option StateObject) :
    (s.setObject addr x).transfer addr = (s.transfer addr).setObject addr x := by
  unfold State.transfer
  cases hbi : s.balanceInc addr with
  | none => simp [State.setObject, hbi]
  | some bi =>
    by_cases htransferred : bi.transferred
    · simp [State.setObject, hbi, htransferred]
    · simp [State.setObject, hbi, htransferred, State.append, JournalEntry.dirtied]

/-! ### Objects -/

variable (previous : Option StateObject)

/-- The new object of `createObject`. -/
def created : StateObject :=
  let original := match previous with
    | none => AccountData.zero
    | some prev => prev.original
  { (newObject { AccountData.zero with root := emptyRoot } original).setNonce 0 with
    newlyCreated := true }

/-- The entry of `createObject`. -/
def creation (addr : Address) : Option StateObject → JournalEntry
  | none => .createObjectChange addr
  | some prev => .resetObjectChange addr prev

/-- A new object with its entry. -/
def State.created (s : State) (addr : Address) (previous : Option StateObject) (x : StateObject) :
    State :=
  ((s.append (creation addr previous)).setObject addr (some x)).transfer addr

section Run

variable (answer : Location → ReadResult)

theorem run_versionWritten {s : State} (hs : s.versioned = false) (addr : Address)
    (key : AccountKey) (val : Val) : Act.run answer (versionWritten addr key val) s = (.ok (), s) := by
  simp [versionWritten, hs]

theorem run_createObject {s : State} (hs : Plain reader s) (addr : Address)
    (previous : Option StateObject) :
    Act.run answer (createObject addr previous) s =
      (.ok (), s.created addr previous (created previous)) := by
  have hplain := plain_append hs (creation addr previous)
  have hset : (s.append (creation addr previous)).setStateObject addr (created previous) =
      s.created addr previous (created previous) := by
    rw [setStateObject_eq hplain, State.created, transfer_setObject]
  have hobject : (s.created addr previous (created previous)).objects addr =
      some (created previous) := by
    rw [State.created, transfer_setObject]
    simp
  have hversioned : (s.created addr previous (created previous)).versioned = false := by
    have hlike : Like reader ⟨True, True⟩ _ _ := (like_transfer hplain addr).1
    rw [State.created, transfer_setObject]
    exact hlike.left.unversioned
  have hmodify (s' : State) (hs' : s' = s.append (creation addr previous)) :
      Act.run answer (do
        modify fun s => s.setStateObject addr (created previous)
        let so ← object addr
        versionWritten addr .address (.account so.data)) s' =
      (.ok (), s.created addr previous (created previous)) := by
    rw [Act.run_modify_bind, hs', hset,
      Act.run_bind_ok answer (run_object answer hobject), run_versionWritten answer hversioned]
  cases previous with
  | none => exact hmodify _ rfl
  | some prev => exact hmodify _ rfl

end Run

/-- A creation is taken back. -/
theorem step_created (hs : Sound reader s) {previous : Option StateObject}
    (hprevious : s.objects addr = previous) (hinit : x.data.initialised = true) :
    Step reader care s (s.created addr previous x) := by
  have hdirtied (a : Address) (ha : (creation addr previous).dirtied = some a) : a = addr := by
    cases previous <;> cases ha
    rfl
  have hobject : Step reader care s
      ((s.append (creation addr previous)).setObject addr (some x)) := by
    have hready (u : State) : Ready (creation addr previous) u := by cases previous <;> trivial
    refine step_object hs hdirtied hinit (hready _) ?_
    set s' := (s.append (creation addr previous)).setObject addr (some x) with hs'
    have hback : (s'.setObject addr previous).dropEntry s'.journal.tail (creation addr previous) =
        s := by
      rw [hs', setObject_setObject, dropEntry_setObject]
      simp only [State.setObject, append_journal, List.tail_cons]
      rw [dropEntry_append]
      exact setObject_self hprevious
    cases previous with
    | none =>
      have hundo : undoEntry (creation addr none) s' = s := hback
      rw [hundo]
      exact Like.refl hs.toPlain
    | some prev =>
      have hplain : Plain reader s' := { plain_append hs.toPlain _ with }
      have hlike : Like reader care (undone (creation addr (some prev)) s')
          (s'.setObject addr (some prev)) := by
        rw [creation, undone, setStateObject_eq hplain]
        exact (like_transfer hplain addr).1.setObject (LikeObject.refl prev)
      have hdrop := hlike.dropEntry s'.journal.tail s'.journal.tail (creation addr (some prev))
      rwa [hback] at hdrop
  exact hobject.trans (step_transfer hobject.sound addr)

/-- What was just looked up is there; nothing is where the database has nothing either. -/
def Found (reader : StateReader) (addr : Address) (found : Option StateObject) (s : State) : Prop :=
  Sound reader s ∧ s.objects addr = found ∧
    (found = none → reader.readAccountData addr = .ok none)

theorem created_object (s : State) (addr : Address) (previous : Option StateObject)
    (x : StateObject) : (s.created addr previous x).objects addr = some x := by
  rw [State.created, transfer_setObject]
  simp

@[simp] theorem created_initialised :
    (created previous).data.initialised = true := newObject_initialised _ _

/-- The object of the account that the database has. -/
theorem step_insert (hs : Sound reader s) {account : AccountData} (hnone : s.objects addr = none)
    (hread : reader.readAccountData addr = .ok (some account)) :
    Step reader care s ((s.setObject addr (some (newObject account account))).transfer addr) := by
  have hlike : Like reader care (s.setObject addr (some (newObject account account))) s := by
    have hpeek : LikePeek reader care addr
        (peek reader (s.setObject addr (some (newObject account account))) addr)
        (peek reader (s.setObject addr none) addr) := by
      rw [peek_setObject]
      simp only [peek, setObject_objects, Function.update_self, hread]
      exact .object (LikeObject.refl _)
    have h := (Like.refl hs.toPlain).setPeek addr hpeek (fun h => by cases h)
    rwa [setObject_self hnone] at h
  have hset : Step reader care s (s.setObject addr (some (newObject account account))) :=
    ⟨hlike.sound hs, .of_rel rfl hlike, rfl, rfl⟩
  exact hset.trans (step_transfer hset.sound addr)

theorem moves_getStateObject (addr : Address) :
    Moves (Step reader care) False (Sound reader) (getStateObject reader addr)
      (Found reader addr) := by
  intro answer s hs
  rw [getStateObject, Act.run_get_bind]
  cases hobject : s.objects addr with
  | some so => exact ⟨Step.refl hs, hs, hobject, fun h => by cases h⟩
  | none =>
    extract_lets missing
    have hmissing (s' : State) (hstep : Step reader care s s') (hnone : s'.objects addr = none)
        (hread : reader.readAccountData addr = .ok none) :
        Act.Lands (Step reader care) False (Found reader addr) s
          (Act.run answer missing s') := by
      have hsame : Act.Lands (Step reader care) False (Found reader addr) s
          (.ok none, s') := ⟨hstep, hstep.sound, hnone, fun _ => hread⟩
      unfold missing
      cases s.balanceInc addr with
      | none => exact hsame
      | some bi =>
        dsimp only
        split
        · rw [Act.run_bind_ok answer (run_createObject answer hstep.sound.toPlain addr none)]
          have hcreated : Step reader care s' (s'.created addr none (created none)) :=
            step_created hstep.sound hnone (created_initialised none)
          have hobject := created_object s' addr none (created none)
          rw [Act.run_get_bind, hobject]
          exact ⟨hstep.trans hcreated, hcreated.sound, hobject, fun h => by cases h⟩
        · exact hsame
    by_cases hnil : s.nilAccounts addr = true
    · simp only [hnil, if_true]
      exact hmissing s (Step.refl hs) hobject (hs.nilAccounts addr hnil)
    · simp only [hnil, hs.unversioned]
      rcases hread : reader.readAccountData addr with e | (_ | account)
      · exact Step.refl hs
      · dsimp only
        rw [if_neg (by simp), if_neg (by simp), Act.run_modify_bind]
        refine hmissing _ ?_ hobject hread
        have hlike : Like reader care
            { s with nilAccounts := Function.update s.nilAccounts addr true } s := by
          refine { Like.refl hs.toPlain with left := { hs.toPlain with nilAccounts := ?_ } }
          intro a ha
          by_cases heq : a = addr
          · rwa [heq]
          · exact hs.nilAccounts a (by simpa [heq] using ha)
        exact ⟨hlike.sound hs, .of_rel rfl hlike, rfl, rfl⟩
      · dsimp only
        rw [if_neg (by simp), if_neg (by simp), getStateObject.insert,
          Act.run_modify_bind, setStateObject_eq hs.toPlain, ← transfer_setObject,
          Act.run_get_bind]
        have hstep : Step reader care s
            ((s.setObject addr (some (newObject account account))).transfer addr) :=
          step_insert hs hobject hread
        have hfound : ((s.setObject addr (some (newObject account account))).transfer
            addr).objects addr = some (newObject account account) := by
          rw [transfer_setObject]
          simp
        exact ⟨hstep, hstep.sound, rfl, fun h => absurd (hfound.symm.trans h) (by simp)⟩

end Reader

end IntraBlock

end Erigon
