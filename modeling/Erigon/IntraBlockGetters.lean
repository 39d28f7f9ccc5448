/-
The versioned getters cannot tell states apart that are alike: neither what they
return nor what they read into the state.
-/
import Erigon.Agreement
import Erigon.IntraBlockWrites

namespace Erigon

namespace IntraBlock

open Act (get modify attempt orElse Agree Blind)

/-- States that are alike, with the writes of every dirty address among those that are. -/
structure Twin (D : Address → Prop) (t s : State) : Prop extends Alike D t s where
  dirty : ∀ addr, s.dirties addr ≠ 0 → D addr

section Twins

variable {D : Address → Prop} {t s : State}

theorem Twin.setRead (h : Twin D t s) (addr : Address) (key : AccountKey) (r : VersionedRead) :
    Twin D (t.setRead addr key r) (s.setRead addr key r) := by
  refine { h with reads := fun a k hk => ?_ }
  have hsame := h.reads a k hk
  unfold State.setRead
  by_cases ha : a = addr
  · subst ha
    by_cases hkey : k = key
    · simp [hkey]
    · simpa [hkey] using hsame
  · simpa [ha] using hsame

theorem Twin.updateObject (h : Twin D t s) (addr : Address) {f : StateObject → StateObject}
    (hf : ∀ x y, AlikeObject x y → AlikeObject (f x) (f y)) :
    Twin D (t.updateObject addr f) (s.updateObject addr f) :=
  { h.toAlike.updateObject addr hf with dirty := h.dirty }

theorem Twin.setStateObject (h : Twin D t s) (addr : Address) (so : StateObject) :
    Twin D (t.setStateObject addr so) (s.setStateObject addr so) := by
  refine { h.toAlike.setStateObject addr so with dirty := ?_ }
  rw [setStateObject_versioned h.versioned.2]
  exact h.dirty

/-- The write that a transaction sees of its own. -/
theorem Twin.versionedWrite (h : Twin D t s) (addr : Address) (key : AccountKey) :
    (t.versionedWrite addr key).map VersionedWrite.val =
      (s.versionedWrite addr key).map VersionedWrite.val := by
  unfold State.versionedWrite
  rw [h.versioned.1, h.versioned.2, h.dirties]
  by_cases hdirty : s.dirties addr = 0
  · simp [hdirty]
  · simpa [hdirty, State.written] using h.writes addr key (h.dirty addr hdirty)

end Twins

/-! ### Lookups -/

/-- What a relation has to say of states for a lookup to be the same in both. -/
structure Looks (Near : State → State → Prop) (addr : Address) (key : AccountKey) : Prop where
  deleted : ∀ {t s}, Near t s →
    (t.objects addr).any StateObject.deleted = (s.objects addr).any StateObject.deleted
  own : ∀ {t s}, Near t s → (t.versionedWrite addr key).map VersionedWrite.val =
    (s.versionedWrite addr key).map VersionedWrite.val
  read : ∀ {t s}, Near t s → t.versionedReads addr key = s.versionedReads addr key
  dep : ∀ {t s}, Near t s → ∀ f : Int → Int, Near { t with dep := f t.dep } { s with dep := f s.dep }
  setRead : ∀ {t s}, Near t s → ∀ r, Near (t.setRead addr key r) (s.setRead addr key r)

section Lookups

variable {Near : State → State → Prop} {answer : Location → ReadResult} {t s : State}

theorem blind_assertType {T : Type} (cast : Val → Option T) (val : Option Val) :
    Blind Near answer (assertType cast val) := by
  unfold assertType
  cases val.bind cast with
  | some v => exact .pure v
  | none => exact .crash _

section Lookup

variable {T : Type} {addr : Address} {key : AccountKey} (hlooks : Looks Near addr key)
  (copyV : Option (T → Val))

include hlooks

theorem blind_record (r : VersionedRead) (v : T × Bool) :
    Blind Near answer (do modify fun s => s.setRead addr key r; return v) :=
  .bind (.modify fun h => hlooks.setRead h r) fun _ => .pure v

/-- A value of the map. -/
theorem blind_lookupValue (cast : Val → Option T) (res : ReadResult) :
    Blind Near answer
      (match res.value.bind cast with
        | none => Act.throw "unexpected type"
        | some v =>
          match copyV with
          | none => pure (v, false)
          | some toVal => do
            modify fun s => s.setRead addr key ⟨.map, res.version, some (toVal v)⟩
            return (v, false)) := by
  cases res.value.bind cast with
  | none => exact .throw _
  | some v =>
    cases copyV with
    | none => exact .pure _
    | some toVal => exact blind_record hlooks _ _

/-- A value that neither the transaction nor the map has. -/
theorem blind_lookupStorage (defaultV : T) {storage : Call (T × Bool)}
    (hstorage : Blind Near answer storage) (res : ReadResult) :
    Blind Near answer
      (match copyV with
        | none => pure (defaultV, false)
        | some toVal => do
          match ← attempt storage with
          | .error _ => return (defaultV, false)
          | .ok (v, b) =>
            modify fun s => s.setRead addr key ⟨.storage, res.version, some (toVal v)⟩
            return (v, b)) := by
  cases copyV with
  | none => exact .pure _
  | some toVal =>
    refine hstorage.attempt.bind fun r => ?_
    cases r with
    | error e => exact .pure _
    | ok v => exact blind_record hlooks _ _

theorem blind_versionedLookup (commited : Bool) (defaultV : T) (cast : Val → Option T)
    {storage : Call (T × Bool)} (hstorage : Blind Near answer storage) :
    Blind Near answer (versionedLookup addr key commited defaultV cast copyV storage) := by
  intro t s h
  have hreturn (v : Option Val) : Blind Near answer (do return (← assertType cast v, false)) :=
    (blind_assertType cast v).bind fun a => .pure (a, false)
  unfold versionedLookup
  refine .get ?_
  rw [hlooks.deleted h, hlooks.read h]
  split
  · exact .pure h rfl
  refine .ask ?_
  split
  · exact .pure h rfl
  have hown : (if commited then none else t.versionedWrite addr key).map VersionedWrite.val =
      (if commited then none else s.versionedWrite addr key).map VersionedWrite.val := by
    cases commited with
    | true => rfl
    | false => exact hlooks.own h
  generalize (if commited then none else t.versionedWrite addr key) = vt at hown
  generalize (if commited then none else s.versionedWrite addr key) = vs at hown
  cases vt with
  | some wt =>
    cases vs with
    | none => cases hown
    | some ws =>
      have hval : wt.val = ws.val := by simpa using hown
      dsimp only
      rw [hval]
      exact hreturn _ _ _ h
  | none =>
    cases vs with
    | some ws => cases hown
    | none =>
      refine .ask ?_
      generalize answer (addr, key) = res
      dsimp only
      cases res.status with
      | done =>
        cases s.versionedReads addr key with
        | none => exact blind_lookupValue hlooks copyV cast res _ _ h
        | some pr =>
          dsimp only
          split
          · exact hreturn _ _ _ h
          · split
            · exact .bind_eq (.modify (hlooks.dep h fun d => max d res.depIdx)) fun _ t s h =>
                .bind_eq (.modify (hlooks.setRead h _)) fun _ t s h => ⟨.panic _, h⟩
            · exact blind_lookupValue hlooks copyV cast res _ _ h
      | dependency =>
        exact .bind_eq (.modify (hlooks.dep h fun _ => res.depIdx)) fun _ t s h =>
          .bind_eq (.modify (hlooks.setRead h _)) fun _ t s h => .crash h _
      | none =>
        cases s.versionedReads addr key with
        | none => exact blind_lookupStorage hlooks copyV defaultV hstorage res _ _ h
        | some pr =>
          dsimp only
          split
          · exact hreturn _ _ _ h
          · exact blind_lookupStorage hlooks copyV defaultV hstorage res _ _ h

omit hlooks in
theorem blind_versionedMapRead (hlooks : Looks Near addr key) (defaultV : T)
    (cast : Val → Option T) : Blind Near answer (versionedMapRead addr key defaultV cast) :=
  (blind_versionedLookup hlooks none false defaultV cast (.pure _)).bind fun v => .pure v.1

end Lookup

end Lookups

/-! ### Getters -/

section Getters

variable {D : Address → Prop} {reader : StateReader} {answer : Location → ReadResult} {t s : State}
  (addr : Address)

theorem looks_twin {key : AccountKey} (hkey : ∀ slot, key ≠ .state slot) :
    Looks (Twin D) addr key where
  deleted h := alikeOption_any (h.objects addr) fun _ _ hlike => hlike.deleted
  own h := h.versionedWrite addr key
  read h := h.reads addr key hkey
  dep h _ := { h with }
  setRead h r := h.setRead addr key r

theorem blind_versionRead (key : AccountKey) (source : ReadSource) (val : Val) :
    Blind (Twin D) answer (versionRead addr key source val) := by
  refine .modify fun {t s} h => ?_
  have hversion : t.version = s.version := by
    rw [State.version, State.version, h.txIndex, h.incarnation]
  rw [if_pos h.versioned.1, if_pos h.versioned.2, hversion]
  exact h.setRead _ _ _

theorem agree_insert (account : AccountData) (code : Option Bytes)
    (h : Twin D t s) : Agree (Twin D) (Option.Rel AlikeObject) answer
      (getStateObject.insert addr account code) t (getStateObject.insert addr account code) s := by
  refine .bind_eq (.modify (h.setStateObject addr _)) fun _ t s h => .get ?_
  exact .pure h (h.objects addr)

theorem agree_insertVersioned (account : AccountData) (h : Twin D t s) :
    Agree (Twin D) (Option.Rel AlikeObject) answer (getStateObject.insertVersioned addr account) t
      (getStateObject.insertVersioned addr account) s := by
  have hread {T : Type} {key : AccountKey} (hkey : ∀ slot, key ≠ .state slot) (defaultV : T)
      (cast : Val → Option T) :
      Blind (Twin D) answer (orElse (versionedMapRead addr key defaultV cast) defaultV) :=
    (blind_versionedMapRead (looks_twin addr hkey) defaultV cast).orElse defaultV
  refine (hread (by simp) _ _ _ _ h).bind_eq fun balance t s h => ?_
  refine (hread (by simp) _ _ _ _ h).bind_eq fun nonce t s h => ?_
  refine (hread (by simp) _ _ _ _ h).bind_eq fun codeHash t s h => ?_
  refine (hread (by simp) _ _ _ _ h).bind_eq fun code t s h => ?_
  refine (blind_versionRead _ _ _ _ _ _ h).bind_eq fun _ t s h => ?_
  exact agree_insert addr _ code h

theorem agree_getStateObject (h : Twin D t s) :
    Agree (Twin D) (Option.Rel AlikeObject) answer (getStateObject reader addr) t
      (getStateObject reader addr) s := by
  refine .get ?_
  have hobjects := h.objects addr
  rw [h.nilAccounts, h.balanceInc, h.versioned.1, h.versioned.2]
  generalize t.objects addr = x at hobjects
  generalize s.objects addr = y at hobjects
  cases hobjects with
  | some hlike => exact .pure h (.some hlike)
  | none =>
    have hgone : Blind (Twin D) answer (modify fun s => s.setStateObject addr
        { newObject .zero .zero with data := .zero, original := .zero, deleted := true }) :=
      .modify fun h => h.setStateObject addr _
    have hnone {t s : State} (h : Twin D t s) : Agree (Twin D) (Option.Rel AlikeObject) answer
        (pure none : Call (Option StateObject)) t (pure none) s := .pure h .none
    dsimp only
    split
    · cases s.balanceInc addr with
      | none => exact hnone h
      | some bi =>
        simp only [Bool.not_true, Bool.and_false, if_false, Bool.false_eq_true]
        exact hnone h
    · cases reader.readAccountData addr with
      | error e => exact .throw h e
      | ok found =>
        cases found with
        | some readAccount => exact agree_insertVersioned addr readAccount h
        | none =>
          refine (blind_versionedMapRead (looks_twin addr (by simp)) _ _ _ _ h).bind_eq
            fun account t s h => ?_
          cases account with
          | none => exact hnone h
          | some readAccount =>
            refine (blind_versionedMapRead (looks_twin addr (by simp)) _ _).attempt
              _ _ h |>.bind_eq fun gone t s h => ?_
            match gone with
            | .error e => exact (hgone _ _ h).bind_eq fun _ t s h => .throw h e
            | .ok true => exact (hgone _ _ h).bind_eq fun _ t s h => hnone h
            | .ok false => exact agree_insertVersioned addr readAccount h

section Read

variable {T : Type} {addr : Address} {key : AccountKey} (hkey : ∀ slot, key ≠ .state slot)
  (commited : Bool) (defaultV : T) (cast : Val → Option T) (toVal : T → Val)

include hkey

/-- A read from the object of an address, by way of the versions. -/
theorem blind_versionedRead {readStorage : Option StateObject → Call (T × Bool)}
    (hread : ∀ x y t s, Option.Rel AlikeObject x y → Twin D t s →
      Agree (Twin D) Eq answer (readStorage x) t (readStorage y) s) :
    Blind (Twin D) answer
      (versionedRead reader addr key commited defaultV cast toVal readStorage) := by
  intro t s h
  refine .get ?_
  rw [if_pos h.versioned.1, if_pos h.versioned.2]
  refine blind_versionedLookup (looks_twin addr hkey) _ _ _ _ ?_ _ _ h
  exact fun t s h => (agree_getStateObject addr h).bind fun x y t s hlike h => hread x y t s hlike h

/-- A value of a live object that the fields decide. -/
theorem blind_field {value : Option StateObject → T}
    (hvalue : ∀ x y, Option.Rel AlikeObject x y → value x = value y) :
    Blind (Twin D) answer ((·.1) <$> versionedRead reader addr key commited defaultV cast toVal
      fun so => pure (value so, false)) := by
  refine (blind_versionedRead hkey commited defaultV cast toVal fun x y t s hlike h => ?_).map _
  exact .pure h (by rw [hvalue x y hlike])

end Read

variable {x y : Option StateObject}

theorem alikeOption_alive (hxy : Option.Rel AlikeObject x y) :
    Option.Rel AlikeObject (alive x) (alive y) := by
  cases hxy with
  | none => exact .none
  | @some a b hlike =>
    rw [alive, alive, Option.filter, Option.filter, hlike.deleted]
    split
    · exact .some hlike
    · exact .none

theorem elim_alive {T : Type} (hxy : Option.Rel AlikeObject x y) (defaultV : T)
    {f : StateObject → T} (hf : ∀ a b, AlikeObject a b → f a = f b) :
    (alive x).elim defaultV f = (alive y).elim defaultV f := by
  have halive := alikeOption_alive hxy
  generalize alive x = x at halive ⊢
  generalize alive y = y at halive ⊢
  cases halive with
  | none => rfl
  | some hlike => exact hf _ _ hlike

section

variable (addr : Address)

theorem blind_getBalance : Blind (Twin D) answer (getBalance reader addr) :=
  blind_field (by simp) _ _ _ _ fun _ _ hxy => elim_alive hxy _ fun _ _ hlike => hlike.balance

theorem blind_getNonce : Blind (Twin D) answer (getNonce reader addr) :=
  blind_field (by simp) _ _ _ _ fun _ _ hxy => elim_alive hxy _ fun _ _ hlike => hlike.nonce

theorem blind_getCodeHash : Blind (Twin D) answer (getCodeHash reader addr) :=
  blind_field (by simp) _ _ _ _ fun _ _ hxy => elim_alive hxy _ fun _ _ hlike => hlike.codeHash

theorem blind_hasSelfdestructed : Blind (Twin D) answer (hasSelfdestructed reader addr) := by
  refine blind_field (by simp) _ _ _ _ fun _ _ hxy => ?_
  refine alikeOption_any (alikeOption_alive hxy) fun _ _ hlike => ?_
  rw [hlike.createdContract, hlike.selfdestructed]

theorem agree_object (h : Twin D t s) :
    Agree (Twin D) AlikeObject answer (object addr) t (object addr) s := by
  refine .get ?_
  have hobjects := h.objects addr
  generalize t.objects addr = x at hobjects
  generalize s.objects addr = y at hobjects
  cases hobjects with
  | none => exact .crash h _
  | some hlike => exact .pure h hlike

theorem blind_objectCode : Blind (Twin D) answer (objectCode reader addr) := by
  intro t s h
  refine (agree_object addr h).bind fun x y t s hlike h => ?_
  rw [hlike.code, hlike.codeHash]
  cases y.code with
  | some code => exact .pure h rfl
  | none =>
    dsimp only
    split
    · exact .pure h rfl
    · cases reader.readAccountCode addr with
      | error e => exact .throw h _
      | ok code =>
        refine .bind_eq (.modify (h.updateObject addr fun x y hlike => ?_)) fun _ t s h => .pure h rfl
        exact { hlike with code := rfl }

theorem blind_getCode : Blind (Twin D) answer (getCode reader addr) := by
  refine (blind_versionedRead (by simp) _ _ _ _ fun x y t s hxy h => ?_).map _
  have halive : (alive x).isSome = (alive y).isSome := by
    have hsome := alikeOption_any (p := fun _ => true) (alikeOption_alive hxy) fun _ _ _ => rfl
    simpa using hsome
  rw [halive]
  split
  · exact (blind_objectCode addr _ _ h).bind_eq fun code t s h => .pure h rfl
  · exact .pure h rfl

theorem blind_getCodeSize : Blind (Twin D) answer (getCodeSize reader addr) := by
  refine (blind_versionedRead (by simp) _ _ _ _ fun x y t s hxy h => ?_).map _
  have halive := alikeOption_alive hxy
  generalize alive x = x at halive
  generalize alive y = y at halive
  cases halive with
  | none => exact .pure h rfl
  | @some a b hlike =>
    dsimp only
    rw [hlike.code, hlike.codeHash]
    cases b.code with
    | some code => exact .pure h rfl
    | none =>
      dsimp only
      split
      · exact .pure h rfl
      · cases reader.readAccountCodeSize addr with
        | error e => exact .throw h e
        | ok size => exact .pure h rfl

end

end Getters

end IntraBlock

end Erigon
