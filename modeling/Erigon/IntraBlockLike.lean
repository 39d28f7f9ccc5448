/-
States of a block without a version map that answer alike: objects may be read or
not read yet, values may be cached, and a slot or the code may be written with the
value that it has.
-/
import Erigon.IntraBlockUndo

namespace Erigon

open List Option Function

namespace IntraBlock

section Reader

variable (reader : StateReader)

/-! ### Objects -/

variable (addr : Address)

/-- The value of a slot in the database. -/
def storedValue (key : StorageKey) : Uint256 :=
  match reader.readAccountStorage addr key with
  | .ok res => res.getD 0
  | .error _ => 0

/-- The committed value of a slot, cached or not. -/
def committed (so : StateObject) (key : StorageKey) : Uint256 :=
  (so.originStorage key).getD (if so.createdContract then 0 else storedValue reader addr key)

/-- The code of an object, read or not. -/
def codeOf (so : StateObject) : Except String (Option Bytes) :=
  match so.code with
  | some code => .ok (some code)
  | none =>
    if so.data.codeHash = emptyCodeHash then .ok none
    else (reader.readAccountCode addr).mapError ("can't code: " ++ ·)

/-- What two states have in common beyond their answers: the values at the start of the
block of the slots that are written, and the marks of created contracts. -/
structure Care where
  origins : Prop
  marks : Prop

/-- `t` answers like `s`.  It may have more in its caches, and writes of unchanged values;
and it may have lost the mark of a created contract. -/
structure LikeObject (care : Care) (addr : Address) (t s : StateObject) : Prop where
  data : t.data = s.data
  original : t.original = s.original
  selfdestructed : t.selfdestructed = s.selfdestructed
  deleted : t.deleted = s.deleted
  newlyCreated : t.newlyCreated = s.newlyCreated
  created : t.createdContract = true → s.createdContract = true
  marks : care.marks → s.createdContract = true → t.createdContract = true
  code : codeOf reader addr t = codeOf reader addr s
  cached : ∀ code, s.code = some code → t.code = some code
  dirtyCode : s.dirtyCode = true → t.dirtyCode = true
  dirty : ∀ key v, s.dirtyStorage key = some v →
    t.dirtyStorage key = some v ∧
      (care.origins → t.blockOriginStorage key = s.blockOriginStorage key)
  clean : ∀ key v, s.dirtyStorage key = none → t.dirtyStorage key = some v →
    v = committed reader addr s key ∨ s.originStorage key = none ∧ s.createdContract = true ∧
      t.createdContract = false ∧ v = storedValue reader addr key
  origin : ∀ key, t.originStorage key = s.originStorage key ∨
    s.originStorage key = none ∧ t.originStorage key = some (storedValue reader addr key) ∧
      t.createdContract = false

namespace LikeObject

variable {reader} {care : Care} {addr : Address} {t s u : StateObject}

theorem refl (s : StateObject) : LikeObject reader care addr s s where
  data := rfl
  original := rfl
  selfdestructed := rfl
  deleted := rfl
  newlyCreated := rfl
  created := id
  marks _ := id
  code := rfl
  cached _ := id
  dirtyCode := id
  dirty _ _ h := ⟨h, fun _ => rfl⟩
  clean key v hnone hsome := by
    rw [hnone] at hsome
    cases hsome
  origin _ := .inl rfl

/-- The committed values are the same, unless the mark of a contract was lost. -/
theorem committed_eq (h : LikeObject reader care addr t s) (key : StorageKey) :
    committed reader addr t key = committed reader addr s key ∨
      s.originStorage key = none ∧ s.createdContract = true ∧ t.createdContract = false ∧
        committed reader addr t key = storedValue reader addr key := by
  unfold committed
  cases ht : t.createdContract with
  | true =>
    have hs := h.created ht
    rcases h.origin key with horigin | ⟨-, -, hnot⟩
    · simp [horigin, hs]
    · rw [ht] at hnot
      cases hnot
  | false =>
    cases hs : s.createdContract with
    | false =>
      rcases h.origin key with horigin | ⟨hnone, hsome, -⟩
      · simp [horigin]
      · simp [hnone, hsome]
    | true =>
      rcases h.origin key with horigin | ⟨hnone, hsome, -⟩
      · rw [horigin]
        cases s.originStorage key with
        | some v => simp
        | none => simp
      · simp [hnone, hsome]

/-- What is no created contract is none in `t`. -/
theorem lost (h : LikeObject reader care addr t s) (hs : s.createdContract = false) :
    t.createdContract = false := by
  rw [← Bool.not_eq_true] at hs ⊢
  exact fun ht => hs (h.created ht)

theorem trans (htu : LikeObject reader care addr u t) (hst : LikeObject reader care addr t s) :
    LikeObject reader care addr u s where
  data := htu.data.trans hst.data
  original := htu.original.trans hst.original
  selfdestructed := htu.selfdestructed.trans hst.selfdestructed
  deleted := htu.deleted.trans hst.deleted
  newlyCreated := htu.newlyCreated.trans hst.newlyCreated
  created h := hst.created (htu.created h)
  marks hmarks h := htu.marks hmarks (hst.marks hmarks h)
  code := htu.code.trans hst.code
  cached code h := htu.cached code (hst.cached code h)
  dirtyCode h := htu.dirtyCode (hst.dirtyCode h)
  dirty key v h := by
    obtain ⟨hdirty, horigin⟩ := hst.dirty key v h
    obtain ⟨hdirty', horigin'⟩ := htu.dirty key v hdirty
    exact ⟨hdirty', fun hcare => (horigin' hcare).trans (horigin hcare)⟩
  clean key v hnone hsome := by
    cases ht : t.dirtyStorage key with
    | some w =>
      obtain ⟨hu, -⟩ := htu.dirty key w ht
      obtain rfl : v = w := some.inj (hsome.symm.trans hu)
      rcases hst.clean key v hnone ht with hv | ⟨horigin, hs, hcleared, hv⟩
      · exact .inl hv
      · exact .inr ⟨horigin, hs, htu.lost hcleared, hv⟩
    | none =>
      rcases htu.clean key v ht hsome with hv | ⟨hnone', htrue, hcleared, hv⟩
      · rcases hst.committed_eq key with heq | ⟨horigin, hs, hcleared, heq⟩
        · exact .inl (hv.trans heq)
        · exact .inr ⟨horigin, hs, htu.lost hcleared, hv.trans heq⟩
      · refine .inr ⟨?_, hst.created htrue, hcleared, hv⟩
        rcases hst.origin key with horigin | ⟨horigin, -⟩
        · rwa [← horigin]
        · exact horigin
  origin key := by
    rcases htu.origin key with hu | ⟨hnone, hsome, hcleared⟩
    · rcases hst.origin key with ht | ⟨hnone, hsome, hcleared⟩
      · exact .inl (hu.trans ht)
      · exact .inr ⟨hnone, hu.trans hsome, htu.lost hcleared⟩
    · rcases hst.origin key with ht | ⟨hnone', hsome', -⟩
      · exact .inr ⟨ht ▸ hnone, hsome, hcleared⟩
      · rw [hsome'] at hnone
        cases hnone

section

variable (h : LikeObject reader care addr t s)

include h

theorem setBalance (amount : Uint256) :
    LikeObject reader care addr (t.setBalance amount) (s.setBalance amount) :=
  { h with
    data := by simp [StateObject.setBalance, h.data]
    code := h.code }

theorem setNonce (nonce : Word) :
    LikeObject reader care addr (t.setNonce nonce) (s.setNonce nonce) :=
  { h with
    data := by simp [StateObject.setNonce, h.data]
    code := h.code }

theorem setCode (codeHash : Hash) (code : Option Bytes) :
    LikeObject reader care addr (t.setCode codeHash code) (s.setCode codeHash code) :=
  { h with
    data := by simp [StateObject.setCode, h.data]
    code := rfl
    cached := fun _ => id
    dirtyCode := id }

theorem setSelfdestructed (selfdestructed : Bool) :
    LikeObject reader care addr { t with selfdestructed } { s with selfdestructed } :=
  { h with selfdestructed := rfl, code := h.code }

/-- A write to a slot that is written already. -/
theorem setState {key : StorageKey}
    (hdirty : (s.dirtyStorage key).isSome) (value : Uint256) :
    LikeObject reader care addr (t.setState key value) (s.setState key value) := by
  refine { h with code := h.code, dirty := ?_, clean := ?_ }
  · intro k v hk
    by_cases heq : k = key
    · subst heq
      obtain ⟨w, hw⟩ := isSome_iff_exists.mp hdirty
      refine ⟨?_, (h.dirty k w hw).2⟩
      simpa [StateObject.setState] using hk
    · simp only [StateObject.setState, update_of_ne heq] at hk ⊢
      exact h.dirty k v hk
  · intro k v hk hv
    by_cases heq : k = key
    · simp [StateObject.setState, heq] at hk
    · simp only [StateObject.setState, update_of_ne heq] at hk hv
      exact h.clean k v hk hv

end

end LikeObject

/-! ### States -/

/-- What `getStateObject` finds at an address: the object, or the account of the database. -/
def peek (s : State) (addr : Address) : Except String (Option StateObject) :=
  match s.objects addr with
  | some so => .ok (some so)
  | none => (reader.readAccountData addr).map fun account => account.map fun a => newObject a a

/-- What is found at an address in `t` is like what is found in `s`. -/
inductive LikePeek (care : Care) (addr : Address) :
    Except String (Option StateObject) → Except String (Option StateObject) → Prop
  | object {t s : StateObject} (h : LikeObject reader care addr t s) :
      LikePeek care addr (.ok (some t)) (.ok (some s))
  | missing : LikePeek care addr (.ok none) (.ok none)
  | error (e : String) : LikePeek care addr (.error e) (.error e)

/-- A state without a version map; an increase that waits for its account is a touch of
the RIPEMD address. -/
structure Plain (s : State) : Prop where
  unversioned : s.versioned = false
  nilAccounts : ∀ addr, s.nilAccounts addr = true → reader.readAccountData addr = .ok none
  increases : ∀ addr bi, s.balanceInc addr = some bi → addr = ripemd ∧ bi.increase = 0

/-- `t` answers like `s`. -/
structure Like (care : Care) (t s : State) : Prop where
  left : Plain reader t
  right : Plain reader s
  objects : ∀ addr, LikePeek reader care addr (peek reader t addr) (peek reader s addr)
  present : ∀ addr, (s.objects addr).isSome → (t.objects addr).isSome
  dirties : ∀ addr, addr ≠ ripemd → t.dirties addr = s.dirties addr
  refund : t.refund = s.refund
  txIndex : t.txIndex = s.txIndex
  logSize : t.logSize = s.logSize
  logs : ∀ i, t.logs.getD i [] = s.logs.getD i []
  accessList : t.accessList = s.accessList
  transientStorage : t.transientStorage = s.transientStorage

variable {reader} {care : Care}

theorem LikePeek.refl (x : Except String (Option StateObject)) :
    LikePeek reader care addr x x := by
  match x with
  | .ok (some so) => exact .object (LikeObject.refl so)
  | .ok none => exact .missing
  | .error e => exact .error e

variable {addr : Address} {x y : Except String (Option StateObject)}

theorem LikePeek.trans {z : Except String (Option StateObject)}
    (hxy : LikePeek reader care addr x y) (hyz : LikePeek reader care addr y z) :
    LikePeek reader care addr x z := by
  cases hxy with
  | object hxy =>
    cases hyz with
    | object hyz => exact .object (hxy.trans hyz)
  | missing => exact hyz
  | error e => exact hyz

theorem LikePeek.mono {care' : Care} (h : LikePeek reader care addr x y)
    (horigins : care'.origins → care.origins) (hmarks : care'.marks → care.marks) :
    LikePeek reader care' addr x y := by
  cases h with
  | object h =>
    refine .object { h with marks := fun hm => h.marks (hmarks hm), dirty := fun key v hv => ?_ }
    obtain ⟨hdirty, horigin⟩ := h.dirty key v hv
    exact ⟨hdirty, fun ho => horigin (horigins ho)⟩
  | missing => exact .missing
  | error e => exact .error e

theorem LikePeek.likeObject {t s : StateObject}
    (h : LikePeek reader care addr (.ok (some t)) (.ok (some s))) :
    LikeObject reader care addr t s := by
  cases h with
  | object h => exact h

variable {s t : State}

theorem peek_of_mem {so : StateObject} (hso : s.objects addr = some so) :
    peek reader s addr = .ok (some so) := by
  simp [peek, hso]

theorem peek_setObject (s : State) (addr : Address) (so : StateObject) :
    peek reader (s.setObject addr (some so)) addr = .ok (some so) := by
  simp [peek]

theorem peek_congr (h : t.objects addr = s.objects addr) :
    peek reader t addr = peek reader s addr := by
  simp [peek, h]

namespace Like

variable {t s u : State}

theorem refl (hs : Plain reader s) : Like reader care s s where
  left := hs
  right := hs
  objects _ := LikePeek.refl _ _
  present _ := id
  dirties _ _ := rfl
  refund := rfl
  txIndex := rfl
  logSize := rfl
  logs _ := rfl
  accessList := rfl
  transientStorage := rfl

theorem trans (htu : Like reader care u t) (hst : Like reader care t s) :
    Like reader care u s where
  left := htu.left
  right := hst.right
  objects addr := (htu.objects addr).trans (hst.objects addr)
  present addr h := htu.present addr (hst.present addr h)
  dirties addr h := (htu.dirties addr h).trans (hst.dirties addr h)
  refund := htu.refund.trans hst.refund
  txIndex := htu.txIndex.trans hst.txIndex
  logSize := htu.logSize.trans hst.logSize
  logs i := (htu.logs i).trans (hst.logs i)
  accessList := htu.accessList.trans hst.accessList
  transientStorage := htu.transientStorage.trans hst.transientStorage

/-- To care less. -/
theorem mono {care' : Care} (h : Like reader care t s) (horigins : care'.origins → care.origins)
    (hmarks : care'.marks → care.marks) : Like reader care' t s :=
  { h with objects := fun addr => (h.objects addr).mono horigins hmarks }

variable {addr : Address}

section

variable (h : Like reader care t s)

include h

/-- An object of `s` has one like it in `t`. -/
theorem object {so : StateObject} (hso : s.objects addr = some so) :
    ∃ so', t.objects addr = some so' ∧ LikeObject reader care addr so' so := by
  obtain ⟨so', hso'⟩ := isSome_iff_exists.mp (h.present addr (by simp [hso]))
  have hlike := h.objects addr
  rw [peek_of_mem hso, peek_of_mem hso'] at hlike
  exact ⟨so', hso', hlike.likeObject⟩

theorem setPeek (addr : Address) {x y : Option StateObject}
    (hlike : LikePeek reader care addr (peek reader (t.setObject addr x) addr)
      (peek reader (s.setObject addr y) addr)) (hpresent : y.isSome → x.isSome) :
    Like reader care (t.setObject addr x) (s.setObject addr y) :=
  { h with
    left := { h.left with }
    right := { h.right with }
    objects := fun a => by
      by_cases ha : a = addr
      · rw [ha]
        exact hlike
      · have hleft : (t.setObject addr x).objects a = t.objects a := by simp [ha]
        have hright : (s.setObject addr y).objects a = s.objects a := by simp [ha]
        rw [peek_congr hleft, peek_congr hright]
        exact h.objects a
    present := fun a => by
      by_cases ha : a = addr
      · simpa [ha] using hpresent
      · simpa [ha] using h.present a }

theorem setObject {x y : StateObject}
    (hlike : LikeObject reader care addr x y) :
    Like reader care (t.setObject addr (some x)) (s.setObject addr (some y)) := by
  refine h.setPeek addr ?_ (fun _ => rfl)
  rw [peek_setObject, peek_setObject]
  exact .object hlike

theorem removeObject (addr : Address) :
    Like reader care (t.setObject addr none) (s.setObject addr none) := by
  have hpeek : peek reader (t.setObject addr none) addr = peek reader (s.setObject addr none) addr :=
    peek_congr (by simp)
  refine h.setPeek addr ?_ id
  rw [hpeek]
  exact LikePeek.refl _ _

theorem updateObject {f : StateObject → StateObject}
    (hpresent : (s.objects addr).isSome)
    (hf : ∀ x y, s.objects addr = some y → LikeObject reader care addr x y →
      LikeObject reader care addr (f x) (f y)) :
    Like reader care (t.updateObject addr f) (s.updateObject addr f) := by
  obtain ⟨y, hy⟩ := isSome_iff_exists.mp hpresent
  obtain ⟨x, hx, hlike⟩ := h.object hy
  rw [State.updateObject, State.updateObject, hx, hy]
  exact h.setObject (hf x y hy hlike)

theorem dropEntry (rest rest' : List JournalEntry)
    (e : JournalEntry) :
    Like reader care (t.dropEntry rest e) (s.dropEntry rest' e) := by
  unfold State.dropEntry
  cases e.dirtied with
  | none => exact { h with left := { h.left with }, right := { h.right with } }
  | some a =>
    refine { h with left := { h.left with }, right := { h.right with }, dirties := ?_ }
    intro addr haddr
    by_cases ha : addr = a
    · simp [ha, h.dirties a (ha ▸ haddr)]
    · simp [ha, h.dirties addr haddr]

end

end Like

/-! ### Increases -/

/-- An increase that waits for its account is in the balance. -/
def State.transfer (s : State) (addr : Address) : State :=
  match s.balanceInc addr with
  | some bi =>
    if bi.transferred then s
    else
      State.append { s with
        balanceInc := Function.update s.balanceInc addr (some { bi with transferred := true }) }
        (.balanceIncreaseTransfer addr)
  | none => s

theorem setStateObject_eq (hs : Plain reader s) (addr : Address) (so : StateObject) :
    s.setStateObject addr so = (s.transfer addr).setObject addr (some so) := by
  unfold State.setStateObject State.transfer
  cases hbi : s.balanceInc addr with
  | none => rfl
  | some bi =>
    have hzero := (hs.increases addr bi hbi).2
    by_cases htransferred : bi.transferred
    · simp [htransferred]
    · simp [htransferred, hs.unversioned, hzero]

theorem transfer_cases (s : State) (addr : Address) :
    s.transfer addr = s ∨ ∃ bi, s.balanceInc addr = some bi ∧ s.transfer addr = { s with
      journal := .balanceIncreaseTransfer addr :: s.journal
      balanceInc := update s.balanceInc addr (some { bi with transferred := true }) } := by
  unfold State.transfer
  cases s.balanceInc addr with
  | none => exact .inl rfl
  | some bi =>
    by_cases htransferred : bi.transferred
    · exact .inl (by simp [htransferred])
    · exact .inr ⟨bi, rfl, by simp [htransferred, State.append, JournalEntry.dirtied]⟩

/-- The journal, and increases of zero, make no difference. -/
theorem like_increases (hs : Plain reader s) (journal : List JournalEntry)
    {balanceInc : Address → Option BalanceIncrease}
    (hzero : ∀ addr bi, balanceInc addr = some bi → addr = ripemd ∧ bi.increase = 0) :
    Like reader care { s with journal, balanceInc } s ∧
      Like reader care s { s with journal, balanceInc } := by
  have hplain : Plain reader { s with journal, balanceInc } := { hs with increases := hzero }
  exact ⟨{ Like.refl hs with left := hplain }, { Like.refl hs with right := hplain }⟩

/-- A change of the increase of one address. -/
theorem increases_update (hs : Plain reader s) {x : Option BalanceIncrease}
    (hx : ∀ bi, x = some bi → addr = ripemd ∧ bi.increase = 0) (a : Address) (bi : BalanceIncrease)
    (hbi : update s.balanceInc addr x a = some bi) :
    a = ripemd ∧ bi.increase = 0 := by
  by_cases ha : a = addr
  · subst ha
    exact hx bi (by simpa using hbi)
  · exact hs.increases a bi (by simpa [ha] using hbi)

theorem increases_untransferred (hs : Plain reader s) (addr : Address) :
    ∀ a bi, update s.balanceInc addr
      ((s.balanceInc addr).map fun bi => { bi with transferred := false }) a = some bi →
      a = ripemd ∧ bi.increase = 0 := by
  refine increases_update hs fun bi' hbi' => ?_
  obtain ⟨bi, hbi, rfl⟩ := map_eq_some_iff.mp hbi'
  exact hs.increases addr bi hbi

theorem like_transfer (hs : Plain reader s) (addr : Address) :
    Like reader care (s.transfer addr) s ∧ Like reader care s (s.transfer addr) := by
  obtain heq | ⟨bi, hbi, heq⟩ := transfer_cases s addr
  · rw [heq]
    exact ⟨Like.refl hs, Like.refl hs⟩
  · rw [heq]
    refine like_increases hs _ (increases_update hs fun bi' hbi' => ?_)
    obtain rfl := some.inj hbi'
    exact hs.increases addr bi hbi

theorem Like.setStateObject (h : Like reader care t s) (addr : Address) (so : StateObject) :
    Like reader care (t.setStateObject addr so) (s.setStateObject addr so) := by
  rw [setStateObject_eq h.left, setStateObject_eq h.right]
  have hlike : Like reader care (t.transfer addr) (s.transfer addr) :=
    ((like_transfer h.left addr).1.trans h).trans (like_transfer h.right addr).2
  exact hlike.setObject (LikeObject.refl so)

/-! ### Undoing -/

/-- The logs without the last one of a transaction. -/
theorem dropLog_logs {txIndex : Nat} (hready : Ready (.addLogChange txIndex) s) (i : Nat) :
    (s.dropLog txIndex).logs.getD i [] =
      if i = txIndex then (s.logs.getD i []).dropLast else s.logs.getD i [] := by
  have hmodify (j : Nat) : (s.logs.modify txIndex dropLast).getD j [] =
      if j = txIndex then (s.logs.getD j []).dropLast else s.logs.getD j [] := by
    rw [getD_eq_getElem?_getD, getElem?_modify, getD_eq_getElem?_getD]
    by_cases hj : j = txIndex
    · cases s.logs[j]? <;> simp [hj]
    · simp [hj, Ne.symm hj]
  rw [State.dropLog, ← hmodify i]
  dsimp only
  split
  · rename_i hempty
    -- what is cut off at the end is empty
    rw [getD_eq_getElem?_getD, getElem?_dropLast]
    split
    · rw [getD_eq_getElem?_getD]
    · rename_i hlast
      rw [hmodify] at hempty ⊢
      rw [getD_none]
      by_cases hi : i = txIndex
      · rw [if_pos hi, hi]
        simpa using hempty.symm
      · rw [if_neg hi]
        rcases Nat.lt_or_ge txIndex i with hlt | hge
        · exact (hready.2 i hlt).symm
        · have hlen : s.logs.length ≤ txIndex := by
            simp only [length_modify] at hlast
            omega
          exact absurd (by simp [getD_eq_getElem?_getD, hlen]) hready.1
  · rfl

/-- An increase of zero taken back. -/
theorem like_undone_increase (hs : Plain reader s) (account : Address) :
    Like reader care (undone (.balanceIncrease account 0) s) s ∧
      Like reader care s (undone (.balanceIncrease account 0) s) := by
  cases hbi : s.balanceInc account with
  | none => simp [undone, hbi, Like.refl hs]
  | some bi =>
    simp only [undone, hbi]
    refine like_increases hs s.journal (increases_update hs fun bi' hbi' => ?_)
    split at hbi'
    · cases hbi'
    · obtain rfl := some.inj hbi'
      simpa using hs.increases account bi hbi

theorem Like.ready {e : JournalEntry} (h : Like reader care t s) (hready : Ready e s) :
    Ready e t := by
  refine hready.mono h.present (fun addr so key hso hslot => ?_) h.logs h.accessList
  obtain ⟨so', hso', hlike⟩ := h.object hso
  obtain ⟨v, hv⟩ := isSome_iff_exists.mp hslot
  exact ⟨so', hso', by simp [(hlike.dirty key v hv).1]⟩

theorem Like.undone {e : JournalEntry} (h : Like reader care t s) (hready : Ready e s) :
    Like reader care (IntraBlock.undone e t) (IntraBlock.undone e s) := by
  have ht := h.left.unversioned
  have hs := h.right.unversioned
  cases e with
  | createObjectChange account => exact h.removeObject account
  | resetObjectChange account prev => exact h.setStateObject account prev
  | selfdestructChange account prev prevbalance =>
    rw [undone_of_restores ht rfl, undone_of_restores hs rfl]
    exact h.updateObject hready fun x y _ hlike => (hlike.setSelfdestructed prev).setBalance _
  | balanceChange account prev =>
    rw [undone_of_restores ht rfl, undone_of_restores hs rfl]
    exact h.updateObject hready fun x y _ hlike => hlike.setBalance prev
  | nonceChange account prev =>
    rw [undone_of_restores ht rfl, undone_of_restores hs rfl]
    exact h.updateObject hready fun x y _ hlike => hlike.setNonce prev
  | codeChange account prevcode prevhash =>
    rw [undone_of_restores ht rfl, undone_of_restores hs rfl]
    exact h.updateObject hready fun x y _ hlike => hlike.setCode prevhash prevcode
  | storageChange account key prevalue wasCommited =>
    rw [undone_of_restores ht rfl, undone_of_restores hs rfl]
    obtain ⟨so, hso, hdirty⟩ := hready
    refine h.updateObject (by simp [hso]) fun x y hy hlike => hlike.setState ?_ prevalue
    rwa [← some.inj (hso.symm.trans hy)]
  | balanceIncrease account increase =>
    obtain rfl : increase = 0 := hready
    exact ((like_undone_increase h.left account).1.trans h).trans
      (like_undone_increase h.right account).2
  | balanceIncreaseTransfer account =>
    have hundone (u : State) (hu : Plain reader u) :
        Like reader care (IntraBlock.undone (.balanceIncreaseTransfer account) u) u ∧
          Like reader care u (IntraBlock.undone (.balanceIncreaseTransfer account) u) :=
      like_increases hu u.journal (increases_untransferred hu account)
    exact ((hundone t h.left).1.trans h).trans (hundone s h.right).2
  | refundChange prev =>
    exact { h with left := { h.left with }, right := { h.right with }, refund := rfl }
  | addLogChange txIndex =>
    refine { h with
      left := { h.left with }
      right := { h.right with }
      logs := ?_
      logSize := ?_ }
    · exact congrArg (· - 1) h.logSize
    · intro i
      rw [IntraBlock.undone, dropLog_logs (h.ready hready), IntraBlock.undone,
        dropLog_logs hready, h.logs]
  | touchChange account => exact h
  | accessListAddAccountChange address | accessListAddSlotChange address slot =>
    refine { h with left := { h.left with }, right := { h.right with }, accessList := ?_ }
    dsimp only [IntraBlock.undone]
    rw [h.accessList]
  | transientStorageChange account key prevalue =>
    refine { h with left := { h.left with }, right := { h.right with }, transientStorage := ?_ }
    dsimp only [IntraBlock.undone, State.setTransientState]
    rw [h.transientStorage]

theorem undoLog_respects : undoLog.Respects (Like reader care) where
  trans := Like.trans
  ready := Like.ready
  undo h hready := Like.dropEntry (h.undone hready) _ _ _

end Reader

end IntraBlock

end Erigon
