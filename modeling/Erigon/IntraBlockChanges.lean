/-
The calls on a block without a version map, one by one: what each leaves on the
journal takes it back.
-/
import Erigon.IntraBlockMoves

namespace Erigon

open List Option

namespace IntraBlock

open StateObject

open Act (get modify throw attempt orElse Moves Lands run_bind_ok run_get_bind run_modify_bind)

section Reader

variable {reader : StateReader} {care : Care}

/-- A call from a state with `P`, with nothing to say about its value. -/
abbrev MovesFrom (reader : StateReader) (care : Care) (P : State → Prop) {A : Type}
    (x : Call A) : Prop :=
  Moves (Step reader care) False P x fun _ => Sound reader

abbrev Moving (reader : StateReader) (care : Care) {A : Type} (x : Call A) : Prop :=
  MovesFrom reader care (Sound reader) x

/-- An object that is there and not deleted. -/
def Live (reader : StateReader) (addr : Address) (so : StateObject) (s : State) : Prop :=
  Sound reader s ∧ s.objects addr = some so ∧ so.deleted = false

theorem bind_moves {A B : Type} {x : Call A} {f : A → Call B} {P : State → Prop}
    {post : A → State → Prop} {post' : B → State → Prop}
    (hx : Moves (Step reader care) False P x post)
    (hf : ∀ a, Moves (Step reader care) False (post a) (f a) post') :
    Moves (Step reader care) False P (x >>= f) post' :=
  hx.bind (fun _ _ _ hst htu => hst.trans htu) hf

theorem moves_pure {A : Type} (a : A) : Moving reader care (pure a : Call A) :=
  fun _ _ hs => ⟨Step.refl hs, hs⟩

theorem moves_map {A B : Type} {x : Call A} {P : State → Prop} (f : A → B)
    (hx : MovesFrom reader care P x) : MovesFrom reader care P (f <$> x) :=
  bind_moves hx fun a => moves_pure (f a)

variable {s : State}

theorem Step.lands {A : Type} {post : A → State → Prop} {t : State} {r : Result A × State}
    (hstep : Step reader care s t) (h : Lands (Step reader care) False post t r) :
    Lands (Step reader care) False post s r :=
  .after (fun _ _ _ hst htu => hst.trans htu) hstep h

variable (addr : Address)

theorem moves_createObject (previous : Option StateObject) :
    Moves (Step reader care) False (fun s => Sound reader s ∧ s.objects addr = previous)
      (createObject addr previous) fun _ s => Live reader addr (created previous) s := by
  rintro answer s ⟨hs, hprevious⟩
  rw [run_createObject answer hs.toPlain]
  have hstep : Step reader care s (s.created addr previous (created previous)) :=
    step_created hs hprevious (created_initialised previous)
  exact ⟨hstep, hstep.sound, created_object s addr previous _, rfl⟩

variable (so : StateObject)

theorem moves_object :
    Moves (Step reader care) False (Live reader addr so) (object addr) (Live reader addr) := by
  rintro answer s ⟨hs, hso, hlive⟩
  rw [run_object answer hso]
  exact ⟨Step.refl hs, hs, hso, hlive⟩

theorem moves_getOrNewStateObject :
    Moves (Step reader care) False (Sound reader) (getOrNewStateObject reader addr)
      (Live reader addr) := by
  refine bind_moves (moves_getStateObject addr) fun found => ?_
  cases found with
  | none =>
    refine bind_moves ?_ fun _ => moves_object addr (created none)
    exact fun answer s hs => moves_createObject addr none answer s ⟨hs.1, hs.2.1⟩
  | some so =>
    dsimp only
    split
    · refine bind_moves ?_ fun _ => moves_object addr (created (some so))
      exact fun answer s hs => moves_createObject addr (some so) answer s ⟨hs.1, hs.2.1⟩
    · rename_i hlive
      intro answer s hs
      exact moves_object addr so answer s ⟨hs.1, hs.2.1, by simpa using hlive⟩

/-! ### Getters -/

/-- The code is in the cache then. -/
theorem moves_objectCode :
    Moves (Step reader care) False (Live reader addr so) (objectCode reader addr)
      fun code => Live reader addr { so with code } := by
  rintro answer s ⟨hs, hso, hlive⟩
  rw [objectCode, run_bind_ok answer (run_object answer hso)]
  cases hcode : so.code with
  | some code =>
    have heq : { so with code := some code } = so := by rw [← hcode]
    exact ⟨Step.refl hs, hs, by rwa [heq], hlive⟩
  | none =>
    have heq : { so with code := none } = so := by rw [← hcode]
    dsimp only
    split
    · exact ⟨Step.refl hs, hs, by rwa [heq], hlive⟩
    · rename_i hhash
      cases hread : reader.readAccountCode addr with
      | error e => exact Step.refl hs
      | ok code =>
        have hlike : LikeObject reader care addr { so with code } so :=
          { LikeObject.refl so with
            code := by
              cases code <;> simp [codeOf, hcode, hhash, hread, Except.mapError]
            cached := fun c hc => by rw [hcode] at hc; cases hc }
        have hstep : Step reader care s
            (s.updateObject addr fun so => { so with code }) := step_cache hs hso hlike
        exact ⟨hstep, hstep.sound, by simp [hso], hlive⟩

/-- A value from the database in the caches. -/
def StateObject.cacheOrigin (key : StorageKey) (value : Uint256) : StateObject :=
  { so with
    originStorage := Function.update so.originStorage key (some value)
    blockOriginStorage := Function.update so.blockOriginStorage key (some value) }

variable {so : StateObject}

theorem like_cacheOrigin {key : StorageKey} {value : Uint256}
    (hvalue : storedValue reader addr key = value) (horigin : so.originStorage key = none)
    (hcreated : so.createdContract = false) (hcare : care.origins → so.dirtyStorage key = none) :
    LikeObject reader care addr (so.cacheOrigin key value) so := by
  have hrefl : LikeObject reader care addr so so := .refl so
  refine { hrefl with dirty := fun k v hv => ⟨hv, fun h => ?_⟩, origin := fun k => ?_ }
  · by_cases hk : k = key
    · rw [hk, hcare h] at hv
      cases hv
    · simp [cacheOrigin, hk]
  · by_cases hk : k = key
    · subst hk
      exact .inr ⟨horigin, by simp [cacheOrigin, hvalue], hcreated⟩
    · exact .inl (by simp [cacheOrigin, hk])

variable {addr : Address} (answer : Location → ReadResult)

/-- The committed value of a slot; it may be in the cache then. -/
theorem run_objectCommittedState (hlive : Live reader addr so s)
    {key : StorageKey} (hcare : care.origins → so.dirtyStorage key = none) :
    ∃ so' s', Act.run answer (objectCommittedState reader addr key) s =
        (.ok (committed reader addr so key), s') ∧
      Step reader care s s' ∧ Live reader addr so' s' ∧ so'.dirtyStorage = so.dirtyStorage ∧
      committed reader addr so' key = committed reader addr so key := by
  obtain ⟨hs, hso, hdeleted⟩ := hlive
  have hsame : Step reader care s s := .refl hs
  rw [objectCommittedState, run_bind_ok answer (run_object answer hso)]
  cases horigin : so.originStorage key with
  | some value =>
    refine ⟨so, s, ?_, hsame, ⟨hs, hso, hdeleted⟩, rfl, rfl⟩
    simp [committed, horigin]
  | none =>
    cases hcreated : so.createdContract with
    | true =>
      refine ⟨so, s, ?_, hsame, ⟨hs, hso, hdeleted⟩, rfl, rfl⟩
      simp [committed, horigin, hcreated]
    | false =>
      have hvalue : committed reader addr so key = storedValue reader addr key := by
        simp [committed, horigin, hcreated]
      cases hread : reader.readAccountStorage addr key with
      | error e =>
        refine ⟨so, s, ?_, hsame, ⟨hs, hso, hdeleted⟩, rfl, rfl⟩
        rw [hvalue, storedValue, hread]
        rfl
      | ok res =>
        have hout : storedValue reader addr key = res.getD 0 := by rw [storedValue, hread]
        have hstep : Step reader care s
            (s.updateObject addr fun so => so.cacheOrigin key (res.getD 0)) :=
          step_cache hs hso (like_cacheOrigin addr hout horigin hcreated hcare)
        refine ⟨so.cacheOrigin key (res.getD 0), _, ?_, hstep,
          ⟨hstep.sound, by simp [hso], hdeleted⟩, rfl, ?_⟩
        · rw [hvalue, hout]
          rfl
        · rw [hvalue, hout]
          simp [committed, cacheOrigin]

/-- The value of a slot. -/
def stateOf (reader : StateReader) (addr : Address) (so : StateObject) (key : StorageKey) :
    Uint256 :=
  (so.dirtyStorage key).getD (committed reader addr so key)

theorem run_objectState (hlive : Live reader addr so s)
    (key : StorageKey) :
    ∃ commited so' s', Act.run answer (objectState reader addr key) s =
        (.ok (stateOf reader addr so key, commited), s') ∧
      Step reader care s s' ∧ Live reader addr so' s' ∧
      stateOf reader addr so' key = stateOf reader addr so key := by
  rw [objectState, run_bind_ok answer (run_object answer hlive.2.1)]
  cases hdirty : so.dirtyStorage key with
  | some value =>
    refine ⟨false, so, s, ?_, Step.refl hlive.1, hlive, rfl⟩
    simp [stateOf, hdirty]
  | none =>
    obtain ⟨so', s', hrun, hstep, hlive', hsame, hcommitted⟩ :=
      run_objectCommittedState answer hlive (fun _ : care.origins => hdirty)
    refine ⟨true, so', s', ?_, hstep, hlive', ?_⟩
    · dsimp only
      rw [run_bind_ok answer hrun]
      simp [stateOf, hdirty]
    · simp [stateOf, hsame, hdirty, hcommitted]

theorem run_versionedRead_of_mem (hs : s.versioned = false)
    (hso : s.objects addr = some so) {T : Type} (key : AccountKey) (commited : Bool) (defaultV : T)
    (cast : Val → Option T) (toVal : T → Val) (readStorage : Option StateObject → Call (T × Bool)) :
    Act.run answer (versionedRead reader addr key commited defaultV cast toVal readStorage) s =
      Act.run answer (readStorage (some so)) s := by
  rw [versionedRead, run_get_bind, hs]
  exact run_bind_ok answer (run_getStateObject_of_mem reader answer hso) _

theorem moves_versionedRead {T : Type} {key : AccountKey} {commited : Bool} {defaultV : T}
    {cast : Val → Option T} {toVal : T → Val} {readStorage : Option StateObject → Call (T × Bool)}
    (hread : ∀ found, MovesFrom reader care (Found reader addr found) (readStorage found)) :
    Moving reader care ((·.1) <$>
      versionedRead reader addr key commited defaultV cast toVal readStorage) := by
  have hstorage : Moving reader care (do readStorage (← getStateObject reader addr)) :=
    bind_moves (moves_getStateObject addr) hread
  refine moves_map _ fun answer s hs => ?_
  rw [versionedRead, run_get_bind, hs.unversioned]
  exact hstorage answer s hs

/-- A live object, or a default. -/
theorem moves_alive {A : Type} {found : Option StateObject} {x y : Call A}
    (hx : ∀ so, MovesFrom reader care (Live reader addr so) x) (hy : Moving reader care y) :
    MovesFrom reader care (Found reader addr found)
      (if (alive found).isSome then x else y) := by
  intro answer s hs
  split
  · rename_i halive
    obtain ⟨so, hso⟩ := isSome_iff_exists.mp halive
    obtain ⟨hfound, hlive⟩ := filter_eq_some_iff.mp hso
    exact hx so answer s ⟨hs.1, hs.2.1.trans hfound, by simpa using hlive⟩
  · exact hy answer s hs.1

theorem moves_found {A : Type} {found : Option StateObject} (a : A) :
    MovesFrom reader care (Found reader addr found) (pure a) :=
  fun answer s hs => moves_pure a answer s hs.1

variable (addr)

theorem moves_exist : Moving reader care (exist reader addr) :=
  bind_moves (moves_getStateObject addr) fun _ => moves_found _

theorem moves_isEmpty : Moving reader care (isEmpty reader addr) :=
  bind_moves (moves_getStateObject addr) fun _ => moves_found _

theorem moves_getBalance : Moving reader care (getBalance reader addr) :=
  moves_versionedRead fun _ => moves_found _

theorem moves_getNonce : Moving reader care (getNonce reader addr) :=
  moves_versionedRead fun _ => moves_found _

theorem moves_getCodeHash : Moving reader care (getCodeHash reader addr) :=
  moves_versionedRead fun _ => moves_found _

theorem moves_hasSelfdestructed :
    Moving reader care (hasSelfdestructed reader addr) :=
  moves_versionedRead fun _ => moves_found _

theorem moves_getCode : Moving reader care (getCode reader addr) := by
  refine moves_versionedRead fun found => moves_alive (fun so => ?_) (moves_pure _)
  exact bind_moves (moves_objectCode addr so) fun code answer s hs => moves_pure _ answer s hs.1

theorem moves_getCodeSize : Moving reader care (getCodeSize reader addr) := by
  refine moves_versionedRead fun found answer s hs => ?_
  have hsame : Step reader care s s := .refl hs.1
  cases alive found with
  | none => exact ⟨hsame, hs.1⟩
  | some so =>
    dsimp only
    cases so.code with
    | some code => exact ⟨hsame, hs.1⟩
    | none =>
      dsimp only
      split
      · exact ⟨hsame, hs.1⟩
      · cases reader.readAccountCodeSize addr with
        | error e => exact hsame
        | ok size => exact ⟨hsame, hs.1⟩

theorem moves_readState (key : StorageKey) (found : Option StateObject) :
    MovesFrom reader care (Found reader addr found) (readState reader addr key found) := by
  refine moves_alive (fun so answer s hlive => ?_) (moves_pure _)
  obtain ⟨commited, so', s', hrun, hstep, -⟩ := run_objectState answer hlive key
  rw [hrun]
  exact ⟨hstep, hstep.sound⟩

theorem moves_getState (key : StorageKey) :
    Moving reader care (getState reader addr key) :=
  moves_versionedRead (moves_readState addr key)

/-- The read of the value before the transaction is one that may be noticed. -/
theorem moves_getCommittedState (hcare : ¬ care.origins) (addr : Address) (key : StorageKey) :
    Moving reader care (getCommittedState reader addr key) := by
  refine moves_versionedRead fun found => moves_alive (fun so answer s hlive => ?_) (moves_pure _)
  have hnot : care.origins → so.dirtyStorage key = none := fun h => absurd h hcare
  obtain ⟨so', s', hrun, hstep, -⟩ := run_objectCommittedState answer hlive hnot
  rw [run_bind_ok answer hrun]
  exact ⟨hstep, hstep.sound⟩

/-! ### Changes -/

theorem moves_versionWritten (key : AccountKey) (val : Val) :
    Moving reader care (versionWritten addr key val) := by
  intro answer s hs
  rw [run_versionWritten answer hs.unversioned]
  exact ⟨Step.refl hs, hs⟩

theorem moves_versionRead (key : AccountKey) (source : ReadSource) (val : Val) :
    Moving reader care (versionRead addr key source val) := by
  intro answer s hs
  have hrun : Act.run answer (versionRead addr key source val) s = (.ok (), s) := by
    simp [versionRead, hs.unversioned]
  rw [hrun]
  exact ⟨Step.refl hs, hs⟩

variable {addr}

/-- A change of the object of an address, with the entry for it. -/
theorem moves_update {e : JournalEntry} {f g : StateObject → StateObject}
    (he : e.restores = some (addr, g))
    (hinit : so.data.initialised = true → (f so).data.initialised = true)
    (hready : ∀ s, s.objects addr = some (f so) → Ready e s)
    (hlike : so.data.initialised = true → LikeObject reader care addr (g (f so)) so) {A : Type}
    {rest : Call A} (hrest : Moving reader care rest) :
    MovesFrom reader care (Live reader addr so) (do append e; updateObject addr f; rest) := by
  have hupdate : MovesFrom reader care (Live reader addr so)
      (do append e; updateObject addr f) := by
    rintro answer s ⟨hs, hso, -⟩
    have hinitialised := hs.initialised addr so hso
    have hstep : Step reader care s ((s.append e).updateObject addr f) :=
      step_update hs hso he (hinit hinitialised) (hready _ (by simp [hso])) (hlike hinitialised)
    exact ⟨hstep, hstep.sound⟩
  intro answer s hs
  have hall := bind_moves hupdate (fun _ => hrest) answer s hs
  exact hall

variable (addr) (amount : Uint256)

theorem moves_writeBalance (so : StateObject) :
    MovesFrom reader care (Live reader addr so) (writeBalance addr amount) := by
  intro answer s hs
  rw [writeBalance, run_bind_ok answer (run_object answer hs.2.1)]
  refine moves_update rfl (fun _ => rfl) (fun s hs => by simp [Ready, hs]) (fun hinit => ?_)
    (moves_versionWritten addr _ _) answer s hs
  have hback : (so.setBalance amount).setBalance so.data.balance = so := by
    simp [StateObject.setBalance, ← hinit]
  rw [hback]
  exact LikeObject.refl so

theorem moves_touch (so : StateObject) :
    MovesFrom reader care (Live reader addr so) (touch addr) := by
  rintro answer s ⟨hs, hso, -⟩
  have htouch : Step reader care s (s.append (.touchChange addr)) := by
    refine step_exact hs ?_ rfl trivial (dropEntry_append s (.touchChange addr)) rfl rfl
    refine { plain_append hs.toPlain _, hs with dirtyObjects := fun a ha hdirty => ?_ }
    by_cases heq : a = addr
    · simp [heq, hso]
    · refine hs.dirtyObjects a ha ?_
      have hdirtied (b : Address) (hb : (JournalEntry.touchChange addr).dirtied = some b) :
          b = addr := (some.inj hb).symm
      rwa [append_dirties hdirtied heq] at hdirty
  by_cases hripemd : addr = ripemd
  · subst hripemd
    have hlike : Like reader care
        (undoEntry (.touchChange ripemd) ((s.append (.touchChange ripemd)).dirty ripemd)) s := by
      refine { Like.refl hs.toPlain with left := { hs.toPlain with }, dirties := fun a ha => ?_ }
      simp [undoEntry, undone, State.dropEntry, JournalEntry.dirtied, State.append, State.dirty, ha]
    have hsound : Sound reader ((s.append (.touchChange ripemd)).dirty ripemd) := by
      refine { htouch.sound with dirtyObjects := fun a ha hdirty => ?_ }
      exact htouch.sound.dirtyObjects a ha (by simpa [State.dirty, ha] using hdirty)
    have hstep : Step reader care s ((s.append (.touchChange ripemd)).dirty ripemd) :=
      ⟨hsound, .of_entry rfl trivial hlike, rfl, rfl⟩
    exact ⟨hstep, hsound⟩
  · rw [touch, if_neg hripemd]
    exact ⟨htouch, htouch.sound⟩

theorem moves_addBalance :
    Moving reader care (addBalance reader addr amount) := by
  intro answer s hs
  rw [addBalance, run_get_bind]
  split
  · rename_i hcond
    obtain ⟨-, -, rfl, rfl⟩ := hcond
    set s' : State := { s.append (.balanceIncrease ripemd 0) with
      balanceInc := Function.update s.balanceInc ripemd (some
        { (s.balanceInc ripemd).getD ⟨0, false, 0⟩ with
          increase := ((s.balanceInc ripemd).getD ⟨0, false, 0⟩).increase + 0
          count := ((s.balanceInc ripemd).getD ⟨0, false, 0⟩).count + 1 }) } with hs'
    have hzero : ∀ a bi, s'.balanceInc a = some bi → a = ripemd ∧ bi.increase = 0 := by
      refine increases_update hs.toPlain fun bi hbi => ⟨rfl, ?_⟩
      obtain rfl := some.inj hbi
      cases hinc : s.balanceInc ripemd with
      | none => simp
      | some bi => simpa using (hs.increases ripemd bi hinc).2
    have hdirties (a : Address) (ha : a ≠ ripemd) : s'.dirties a = s.dirties a := by
      simp [hs', State.append, JournalEntry.dirtied, State.dirty, ha]
    have hplain : Plain reader s' := { hs.toPlain with increases := hzero }
    have hlike : Like reader care s' s :=
      { Like.refl hs.toPlain with left := hplain, dirties := hdirties }
    have hback : Like reader care (undoEntry (.balanceIncrease ripemd 0) s') s := by
      have hundone := (like_undone_increase hplain ripemd).1.trans hlike
      refine { hundone with left := { hundone.left with }, dirties := fun a ha => ?_ }
      simpa [undoEntry, State.dropEntry, JournalEntry.dirtied, ha] using hundone.dirties a ha
    have hstep : Step reader care s s' :=
      ⟨hlike.sound hs, .of_entry rfl rfl hback, rfl, rfl⟩
    exact ⟨hstep, hstep.sound⟩
  · refine bind_moves (moves_getOrNewStateObject addr) (fun so answer s hs => ?_) answer s hs
    split
    · split
      · rw [run_bind_ok answer (run_versionWritten answer hs.1.unversioned _ _ _)]
        exact moves_touch addr so answer s hs
      · exact moves_pure _ answer s hs.1
    · exact moves_writeBalance addr _ so answer s hs

theorem moves_subBalance :
    Moving reader care (subBalance reader addr amount) := by
  unfold subBalance
  split
  · exact bind_moves (moves_getOrNewStateObject addr) fun so => moves_writeBalance addr _ so
  · exact moves_pure _

theorem moves_setBalance :
    Moving reader care (setBalance reader addr amount) :=
  bind_moves (moves_getOrNewStateObject addr) fun so => moves_writeBalance addr amount so

theorem moves_setNonce (nonce : Word) :
    Moving reader care (setNonce reader addr nonce) := by
  refine bind_moves (moves_getOrNewStateObject addr) fun so => ?_
  exact moves_update rfl id (fun s hs => by simp [Ready, hs]) (fun _ => LikeObject.refl so)
    (moves_versionWritten addr _ _)

variable {addr}

theorem moves_setCode (keccak : Bytes → Hash) (addr : Address) (code : Option Bytes) :
    Moving reader care (setCode reader keccak addr code) := by
  have hwritten : Moving reader care (do
      versionWritten addr .code (.bytes code)
      versionWritten addr .codeHash (.hash (keccak (code.getD [])))
      versionWritten addr .codeSize (.int (code.getD []).length)) :=
    bind_moves (moves_versionWritten _ _ _) fun _ =>
      bind_moves (moves_versionWritten _ _ _) fun _ => moves_versionWritten _ _ _
  refine bind_moves (moves_getOrNewStateObject addr) fun so answer s hs => ?_
  have hcode : Lands (Step reader care) False _ s _ := moves_objectCode addr so answer s hs
  have hattempt := Act.run_attempt answer s (objectCode reader addr)
  match hrun : Act.run answer (objectCode reader addr) s, hcode with
  | (.error e, s'), hstep =>
    rw [hrun] at hattempt
    rw [run_bind_ok answer hattempt]
    exact hstep.lands (hwritten answer s' hstep.sound)
  | (.ok prevcode, s'), ⟨hstep, hpost⟩ =>
    rw [hrun] at hattempt
    rw [run_bind_ok answer hattempt]
    refine hstep.lands (moves_update rfl id (fun s hs => by simp [Ready, hs]) (fun _ => ?_)
      hwritten answer s' hpost)
    have hrefl : LikeObject reader care addr { so with code := prevcode } _ := .refl _
    exact { hrefl with dirtyCode := fun _ => rfl }

/-- A slot with its value written back. -/
theorem like_setState {key : StorageKey} {prev : Uint256}
    (hprev : stateOf reader addr so key = prev) (value : Uint256) :
    LikeObject reader care addr ((so.setState key value).setState key prev) so := by
  have hrefl : LikeObject reader care addr so so := .refl so
  refine { hrefl with dirty := fun k v hv => ⟨?_, fun _ => rfl⟩, clean := fun k v hnone hv => ?_ }
  · by_cases hk : k = key
    · subst hk
      rw [stateOf, hv] at hprev
      simpa [StateObject.setState] using hprev.symm
    · simpa [StateObject.setState, hk] using hv
  · by_cases hk : k = key
    · subst hk
      rw [stateOf, hnone] at hprev
      obtain rfl : prev = v := by simpa [StateObject.setState] using hv
      exact .inl hprev.symm
    · refine hrefl.clean k v hnone ?_
      simpa [StateObject.setState, hk] using hv

theorem moves_setState (addr : Address) (key : StorageKey) (value : Uint256) :
    Moving reader care (setState reader addr key value) := by
  refine bind_moves (moves_getOrNewStateObject addr) fun so answer s hs => ?_
  obtain ⟨commited, so', s', hrun, (hstep : Step reader care s s'), hlive', hvalue⟩ :=
    run_objectState answer hs key
  have hread : Act.run answer (orElse (versionedRead reader addr (.state key) false 0 Val.asUint256
      .uint256 (readState reader addr key)) (0, false)) s =
      (.ok (stateOf reader addr so key, commited), s') := by
    rw [Act.run_orElse, run_versionedRead_of_mem answer hs.1.unversioned hs.2.1, readState,
      if_pos (by simp [alive, hs.2.2]), hrun]
  rw [run_bind_ok answer hread]
  refine hstep.lands ?_
  dsimp only
  split
  · refine moves_update rfl id (fun u hu => ?_) (fun _ => like_setState hvalue value)
      (moves_versionWritten _ _ _) answer s' hlive'
    exact ⟨so'.setState key value, hu, by simp [StateObject.setState]⟩
  · exact moves_pure _ answer s' hlive'.1

/-- The mark of a created contract does not come back. -/
theorem moves_selfdestruct (hcare : ¬ care.marks) (addr : Address) :
    Moving reader care (selfdestruct reader addr) := by
  refine bind_moves (moves_getStateObject addr) fun found => ?_
  cases halive : alive found with
  | none => exact moves_found _
  | some so =>
    obtain ⟨hfound, hlive⟩ := filter_eq_some_iff.mp halive
    have hwritten : Moving reader care (do
        versionWritten addr .selfDestruct (.bool true)
        versionWritten addr .balance (.uint256 0)
        return true) :=
      bind_moves (moves_versionWritten _ _ _) fun _ =>
        bind_moves (moves_versionWritten _ _ _) fun _ => moves_pure true
    intro answer s hs
    refine moves_update rfl id (fun s hs => by simp [Ready, hs]) (fun hinit => ?_) hwritten
      answer s ⟨hs.1, hs.2.1.trans hfound, by simpa using hlive⟩
    have hrefl : LikeObject reader care addr so so := .refl so
    exact { hrefl with
      data := by simp [StateObject.setBalance, ← hinit]
      created := fun h => by cases h
      marks := fun h => absurd h hcare
      clean := fun key v hnone hsome => by
        cases hnone.symm.trans hsome
      origin := fun _ => .inl rfl }

theorem updateObject_created (s : State) (addr : Address) (previous : Option StateObject)
    (x : StateObject) (f : StateObject → StateObject) :
    (s.created addr previous x).updateObject addr f = s.created addr previous (f x) := by
  rw [State.updateObject, created_object, State.created, State.created, transfer_setObject,
    transfer_setObject, map_some, setObject_setObject]

theorem moves_createAccount (addr : Address) (contractCreation : Bool) :
    Moving reader care (createAccount reader addr contractCreation) := by
  refine bind_moves (moves_getStateObject addr) fun previous answer s hs => ?_
  dsimp only
  rw [run_bind_ok answer (run_createObject answer hs.1.toPlain addr previous)]
  rw [updateObject, run_modify_bind, updateObject_created]
  have hcreated (x : StateObject) (hx : x.data.initialised = true) :
      Lands (Step reader care) False (fun _ => Sound reader) s (Act.run answer (do
        let so ← object addr
        versionRead addr .address .storage (.account so.data)
        versionRead addr .balance .storage (.uint256 so.data.balance)
        versionWritten addr .address (.account so.data)
        versionWritten addr .balance (.uint256 so.data.balance))
        (s.created addr previous x)) := by
    have hstep : Step reader care s (s.created addr previous x) := step_created hs.1 hs.2.1 hx
    rw [run_bind_ok answer (run_object answer (created_object s addr previous x))]
    exact hstep.lands (bind_moves (moves_versionRead _ _ _ _) (fun _ =>
      bind_moves (moves_versionRead _ _ _ _) fun _ =>
      bind_moves (moves_versionWritten _ _ _) fun _ => moves_versionWritten _ _ _) answer _ hstep.sound)
  refine hcreated _ ?_
  cases contractCreation <;> rfl

theorem undoEntry_setTransientState (s : State) (addr : Address) (key : StorageKey)
    (value : Uint256) :
    undoEntry (.transientStorageChange addr key (s.transientStorage addr key))
      ((s.append (.transientStorageChange addr key (s.transientStorage addr key))).setTransientState
        addr key value) = s := by
  simp [undoEntry, undone, State.setTransientState, State.append, JournalEntry.dirtied,
    State.dropEntry]

theorem getD_modify_replicate {α : Type} (logs : List (List α)) (n : Nat) (f : List α → List α)
    (i : Nat) :
    ((logs ++ replicate (n + 1 - logs.length) []).modify n f).getD i [] =
      if i = n then f (logs.getD i []) else logs.getD i [] := by
  have hpadded (j : Nat) : (logs ++ replicate (n + 1 - logs.length) []).getD j [] =
      logs.getD j [] := by
    rw [getD_eq_getElem?_getD, getElem?_append, getD_eq_getElem?_getD]
    split
    · rfl
    · rename_i hj
      rw [getElem?_eq_none (Nat.le_of_not_lt hj), getElem?_replicate]
      split <;> rfl
  rw [← hpadded i, getD_eq_getElem?_getD, getElem?_modify, getD_eq_getElem?_getD]
  by_cases hi : i = n
  · subst hi
    have hlen : i < (logs ++ replicate (i + 1 - logs.length) []).length := by
      simp
      omega
    simp [getElem?_eq_getElem hlen]
  · simp [hi, Ne.symm hi]

/-- One more log of the transaction. -/
def State.addLog (s : State) (payload : Bytes) : State :=
  { s.append (.addLogChange s.txIndex) with
    logs := (s.logs ++ List.replicate (s.txIndex + 1 - s.logs.length) []).modify s.txIndex
      (· ++ [(⟨payload, s.txIndex, s.logSize⟩ : Log)])
    logSize := s.logSize + 1 }

section Logs

variable {s : State} (hlater : ∀ i, s.txIndex < i → s.logs.getD i [] = []) (payload : Bytes)

theorem addLog_logs (s : State) (i : Nat) : (s.addLog payload).logs.getD i [] =
    if i = s.txIndex then s.logs.getD i [] ++ [⟨payload, s.txIndex, s.logSize⟩]
    else s.logs.getD i [] :=
  getD_modify_replicate s.logs s.txIndex _ i

include hlater

theorem addLog_laterLogs (i : Nat) (hi : s.txIndex < i) : (s.addLog payload).logs.getD i [] = [] := by
  rw [addLog_logs, if_neg (by omega)]
  exact hlater i hi

theorem ready_addLog : Ready (.addLogChange s.txIndex) (s.addLog payload) := by
  refine ⟨?_, addLog_laterLogs hlater payload⟩
  rw [addLog_logs, if_pos rfl]
  simp

theorem undoEntry_addLog_logs (i : Nat) :
    (undoEntry (.addLogChange s.txIndex) (s.addLog payload)).logs.getD i [] = s.logs.getD i [] := by
  change ((s.addLog payload).dropLog s.txIndex).logs.getD i [] = _
  rw [dropLog_logs (ready_addLog hlater payload), addLog_logs]
  split
  · exact dropLast_concat
  · rfl

end Logs

theorem moves_addLog (payload : Bytes) : Moving reader care (addLog payload) := by
  intro answer s hs
  have hlike : Like reader care (undoEntry (.addLogChange s.txIndex) (s.addLog payload)) s :=
    { Like.refl hs.toPlain with
      left := { hs.toPlain with }
      logs := undoEntry_addLog_logs hs.laterLogs payload }
  have hsound : Sound reader (s.addLog payload) :=
    { hs with laterLogs := addLog_laterLogs hs.laterLogs payload }
  have hstep : Step reader care s (s.addLog payload) :=
    ⟨hsound, .of_entry rfl (ready_addLog hs.laterLogs payload) hlike, rfl, rfl⟩
  exact ⟨hstep, hsound⟩

/-- An address in the access list, with its entry. -/
def State.addAddress (s : State) (addr : Address) : State :=
  State.append { s with accessList := Function.update s.accessList addr (some ∅) }
    (.accessListAddAccountChange addr)

theorem ready_addAddress (s : State) (addr : Address) :
    Ready (.accessListAddAccountChange addr) (s.addAddress addr) := by
  simp [Ready, State.addAddress, State.append, JournalEntry.dirtied]

theorem undoEntry_addAddress (hnone : s.accessList addr = none) :
    undoEntry (.accessListAddAccountChange addr) (s.addAddress addr) = s := by
  simp [undoEntry, undone, State.addAddress, State.append, JournalEntry.dirtied, State.dropEntry,
    ← hnone]

/-- A slot in the access list, with its entry. -/
def State.addSlot (s : State) (addr : Address) (slots : Finset StorageKey) (slot : StorageKey) :
    State :=
  State.append
    { s with accessList := Function.update s.accessList addr (some (insert slot slots)) }
    (.accessListAddSlotChange addr slot)

theorem ready_addSlot (s : State) (addr : Address) (slots : Finset StorageKey) (slot : StorageKey) :
    Ready (.accessListAddSlotChange addr slot) (s.addSlot addr slots slot) := by
  simp [Ready, State.addSlot, State.append, JournalEntry.dirtied]

theorem undoEntry_addSlot {slots : Finset StorageKey} {slot : StorageKey}
    (hslots : s.accessList addr = some slots) (hnot : slot ∉ slots) :
    undoEntry (.accessListAddSlotChange addr slot) (s.addSlot addr slots slot) = s := by
  simp [undoEntry, undone, State.addSlot, State.append, JournalEntry.dirtied, State.dropEntry,
    Finset.erase_insert hnot, ← hslots]

/-- What an addition of a slot does: nothing, or an entry for the slot, after one for the
address where that is new. -/
theorem run_addSlotToAccessList (s : State) (addr : Address)
    (slot : StorageKey) :
    ∃ s', Act.run answer (addSlotToAccessList addr slot) s = (.ok (), s') ∧
      (s' = s ∨
        (∃ slots, s.accessList addr = some slots ∧ slot ∉ slots ∧ s' = s.addSlot addr slots slot) ∨
        (s.accessList addr = none ∧ (s.addAddress addr).accessList addr = some ∅ ∧
          s' = (s.addAddress addr).addSlot addr ∅ slot)) := by
  rw [addSlotToAccessList, run_get_bind]
  dsimp only
  split
  · rename_i hnot
    cases hslots : s.accessList addr with
    | some slots =>
      rw [hslots] at hnot
      exact ⟨_, rfl, .inr (.inl ⟨slots, rfl, hnot, rfl⟩)⟩
    | none =>
      refine ⟨_, rfl, .inr (.inr ⟨rfl, ?_, ?_⟩)⟩
      · simp [State.addAddress, State.append, JournalEntry.dirtied]
      · simp [State.addSlot, State.addAddress, State.append, JournalEntry.dirtied]
  · exact ⟨s, rfl, .inl rfl⟩

/-- What the changes of transient storage, refund and access list ask of steps between states
with `P`: a change that its entry takes back is a step. -/
structure EntrySteps (P : State → Prop) (R : State → State → Prop) : Prop where
  refl : ∀ {s}, P s → R s s
  trans : ∀ {s t u}, R s t → R t u → R s u
  holds : ∀ {s t}, R s t → P t
  exact : ∀ {e s s'}, P s → s' = { s with
      journal := s'.journal, refund := s'.refund
      transientStorage := s'.transientStorage, accessList := s'.accessList } →
    s'.journal = e :: s.journal → Ready e s' → undoEntry e s' = s → R s s'

theorem entrySteps_step : EntrySteps (Sound reader) (Step reader care) where
  refl := Step.refl
  trans := Step.trans
  holds := Step.sound
  exact hs hsame hjournal hready hundo :=
    step_exact hs (by rw [hsame]; exact { hs with }) hjournal hready hundo (by rw [hsame])
      (by rw [hsame])

namespace EntrySteps

variable {P : State → Prop} {R : State → State → Prop} (h : EntrySteps P R) {mayPanic : Prop}

include h

theorem moves_setTransientState (addr : Address) (key : StorageKey) (value : Uint256) :
    Moves R mayPanic P (setTransientState addr key value) fun _ => P := by
  intro answer s hs
  have hstep : R s ((s.append
      (.transientStorageChange addr key (s.transientStorage addr key))).setTransientState
        addr key value) :=
    h.exact hs rfl rfl trivial (undoEntry_setTransientState s addr key value)
  change Lands _ _ _ s (Act.run answer (if s.transientStorage addr key ≠ value then _ else _) s)
  split
  · exact ⟨hstep, h.holds hstep⟩
  · exact ⟨h.refl hs, hs⟩

theorem setRefund (hs : P s) (refund : Word) :
    R s { s.append (.refundChange s.refund) with refund := refund } :=
  h.exact hs rfl rfl trivial rfl

theorem moves_addRefund (gas : Word) : Moves R mayPanic P (addRefund gas) fun _ => P :=
  fun _ _ hs => ⟨h.setRefund hs _, h.holds (h.setRefund hs _)⟩

theorem moves_subRefund (gas : Word) : Moves R mayPanic P (subRefund gas) fun _ => P := by
  intro answer s hs
  change Lands _ _ _ s (Act.run answer (if gas.toNat > s.refund.toNat then _ else _)
    (s.append (.refundChange s.refund)))
  split
  · exact h.setRefund hs s.refund
  · exact ⟨h.setRefund hs _, h.holds (h.setRefund hs _)⟩

theorem addAddress (hs : P s) (hnone : s.accessList addr = none) : R s (s.addAddress addr) :=
  h.exact hs rfl rfl (ready_addAddress s addr) (undoEntry_addAddress hnone)

theorem addSlot (hs : P s) {slots : Finset StorageKey} {slot : StorageKey}
    (hslots : s.accessList addr = some slots) (hnot : slot ∉ slots) :
    R s (s.addSlot addr slots slot) :=
  h.exact hs rfl rfl (ready_addSlot s addr slots slot) (undoEntry_addSlot hslots hnot)

theorem moves_addAddressToAccessList (addr : Address) :
    Moves R mayPanic P (addAddressToAccessList addr) fun _ => P := by
  intro answer s hs
  rw [addAddressToAccessList, run_get_bind]
  split
  · rename_i hnone
    exact ⟨h.addAddress hs hnone, h.holds (h.addAddress hs hnone)⟩
  · exact ⟨h.refl hs, hs⟩

theorem moves_addSlotToAccessList (addr : Address) (slot : StorageKey) :
    Moves R mayPanic P (addSlotToAccessList addr slot) fun _ => P := by
  intro answer s hs
  obtain ⟨s', hrun, hcases⟩ := run_addSlotToAccessList answer s addr slot
  have hstep : R s s' := by
    rcases hcases with rfl | ⟨slots, hslots, hnot, rfl⟩ | ⟨hnone, hempty, rfl⟩
    · exact h.refl hs
    · exact h.addSlot hs hslots hnot
    · have hfirst := h.addAddress hs hnone
      exact h.trans hfirst (h.addSlot (h.holds hfirst) hempty (by simp))
  rw [hrun]
  exact ⟨hstep, h.holds hstep⟩

end EntrySteps

end Reader

end IntraBlock

end Erigon
