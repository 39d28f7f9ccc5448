/-
The updates that are collected for a commitment: one record of changed fields for
every touched key, kept in a tree by plain key, or only the touched keys
themselves, handed to a collector that sorts them by hashed key.
-/
import Erigon.Account
import Erigon.Etl
import Erigon.Loops
import Erigon.SortedPairs

namespace Erigon

open List Option

namespace Commitment

/-! ### Updates -/

abbrev UpdateFlags := BitVec 8

def codeUpdate : UpdateFlags := 1
def deleteUpdate : UpdateFlags := 2
def balanceUpdate : UpdateFlags := 4
def nonceUpdate : UpdateFlags := 8
def storageUpdate : UpdateFlags := 16

/-- `flags & flag != 0`. -/
def hasFlag (flags flag : UpdateFlags) : Bool := decide (flags &&& flag ≠ 0)

@[simp] theorem hasFlag_zero (flag : UpdateFlags) : hasFlag 0#8 flag = false := by simp [hasFlag]

@[simp] theorem hasFlag_or (flags more flag : UpdateFlags) :
    hasFlag (flags ||| more) flag = (hasFlag flags flag || hasFlag more flag) := by
  rw [hasFlag, BitVec.and_comm, BitVec.and_or_distrib_left]
  simp [hasFlag, BitVec.or_eq_zero_iff, BitVec.and_comm, imp_iff_not_or]

structure Update where
  codeHash : Hash
  storage : Hash
  storageLen : Nat
  flags : UpdateFlags
  balance : BitVec 256
  nonce : Word
deriving DecidableEq

namespace Update

/-- `new(Update)`. -/
def new : Update := ⟨0, 0, 0, 0, 0, 0⟩

variable (u : Update)

def deleted : Bool := hasFlag u.flags deleteUpdate

/-- `none` where `b.Storage[:b.StorageLen]` is out of range. -/
def merge (b : Update) : Option Update :=
  if b.flags = deleteUpdate then some { u with flags := deleteUpdate }
  else
    let u := if hasFlag b.flags balanceUpdate then
      { u with flags := u.flags ||| balanceUpdate, balance := b.balance } else u
    let u := if hasFlag b.flags nonceUpdate then
      { u with flags := u.flags ||| nonceUpdate, nonce := b.nonce } else u
    let u := if hasFlag b.flags codeUpdate then
      { u with flags := u.flags ||| codeUpdate, codeHash := u.codeHash.copy b.codeHash.1 } else u
    if hasFlag b.flags storageUpdate then
      if b.storageLen ≤ 32 then
        some { u with
          flags := u.flags ||| storageUpdate
          storage := u.storage.copy (b.storage.1.take b.storageLen)
          storageLen := b.storageLen }
      else none
    else some u

/-- What `TouchAccount` does with the account that it has read. -/
def setAccount (acc : Account) : Update :=
  let u := if u.nonce ≠ acc.nonce then
    { u with nonce := acc.nonce, flags := u.flags ||| nonceUpdate } else u
  let u := if u.balance ≠ acc.balance then
    { u with balance := acc.balance, flags := u.flags ||| balanceUpdate } else u
  if acc.codeHash ≠ u.codeHash then
    if acc.codeHash.1.length = 0 then { u with codeHash := emptyCodeHash }
    else { u with flags := u.flags ||| codeUpdate, codeHash := acc.codeHash }
  else u

/-- `none` where the account cannot be read. -/
def touchAccount (val : Bytes) : Option Update :=
  if val = [] then some { u with flags := deleteUpdate }
  else
    let u := if hasFlag u.flags deleteUpdate then { u with flags := 0 } else u
    (deserialiseV3 val).map u.setAccount

def touchStorage (val : Bytes) : Option Update :=
  let u := { u with storageLen := val.length }
  if val = [] then some { u with flags := deleteUpdate }
  else some { u with flags := u.flags ||| storageUpdate, storage := u.storage.copy val }

end Update

/-! ### The collection -/

inductive Mode
  | disabled | direct | update
deriving DecidableEq

structure KeyUpdate where
  hashedKey : Bytes
  update : Update

/-- The tree holds the updates by plain key; `keys` are the keys that the
collector has. -/
structure Updates where
  mode : Mode
  hasher : Bytes → Bytes
  keys : List Bytes
  etl : Etl.Collector
  tree : SortedPairs Bytes KeyUpdate

namespace Updates

/-- `NewUpdates`; the collectors of the single nibbles are not in use. -/
def new (mode : Mode) (hasher : Bytes → Bytes) (optimalSize : Int) : Updates where
  mode := mode
  hasher := hasher
  keys := []
  etl := .new .sortableSlice optimalSize
  tree := ⟨[], .nil⟩

def addKey (t : Updates) (key val : Bytes) (fn : Update → Bytes → Option Update) :
    Option Updates :=
  (fn .new val).map fun u => { t with tree := t.tree.insert key ⟨t.hasher key, u⟩ }

def touchPlainKey (t : Updates) (key val : Bytes) (fn : Update → Bytes → Option Update) :
    Option Updates :=
  match t.mode with
  | .update =>
    match t.tree.floor key with
    | some item =>
      if item.1 = key then
        (fn item.2.update val).map fun u =>
          { t with tree := t.tree.insert key { item.2 with update := u } }
      else t.addKey key val fn
    | none => t.addKey key val fn
  | .direct =>
    if key ∈ t.keys then some t
    else
      some { t with etl := t.etl.collect (t.hasher key) (some key), keys := key :: t.keys }
  | .disabled => some t

end Updates

/-- The two kinds of keys, by what is stored under them. -/
inductive KeyKind
  | account | storage
deriving DecidableEq

def KeyKind.touch : KeyKind → Update → Bytes → Option Update
  | .account => Update.touchAccount
  | .storage => Update.touchStorage

structure Touch where
  key : Bytes
  kind : KeyKind
  val : Bytes

namespace Updates

variable (t : Updates)

def touchAll (touches : List Touch) : Option Updates :=
  touches.foldlM (fun t x => t.touchPlainKey x.key x.val x.kind.touch) t

/-- The update that a touch of the key starts from. -/
def collected (key : Bytes) : Update :=
  ((t.tree.get key).map KeyUpdate.update).getD .new

/-- Keep an update of the key, under the hashed key that it was first touched with. -/
def setUpdate (key : Bytes) (u : Update) : Updates :=
  let hashedKey := ((t.tree.get key).map KeyUpdate.hashedKey).getD (t.hasher key)
  { t with tree := t.tree.insert key ⟨hashedKey, u⟩ }

theorem touchPlainKey_update {t : Updates} (hmode : t.mode = .update) (key val : Bytes)
    (fn : Update → Bytes → Option Update) :
    t.touchPlainKey key val fn = (fn (t.collected key) val).map (t.setUpdate key) := by
  obtain ⟨mode, hasher, keys, etl, tree⟩ := t
  cases hmode
  simp only [touchPlainKey, addKey, collected]
  cases hget : tree.get key with
  | some item =>
    have hset : setUpdate ⟨.update, hasher, keys, etl, tree⟩ key =
        fun u => ⟨.update, hasher, keys, etl, tree.insert key { item with update := u }⟩ := by
      funext u
      simp [setUpdate, hget]
    rw [hset, tree.floor_eq_some.mpr ⟨tree.get_eq_some.mp hget, le_rfl, fun _ _ hle => hle⟩]
    simp
  | none =>
    have hset : setUpdate ⟨.update, hasher, keys, etl, tree⟩ key =
        fun u => ⟨.update, hasher, keys, etl, tree.insert key ⟨hasher key, u⟩⟩ := by
      funext u
      simp [setUpdate, hget]
    rw [hset]
    split
    · rename_i item hfloor
      rw [if_neg]
      · rfl
      · rintro rfl
        rw [tree.get_eq_some.mpr (tree.floor_eq_some.mp hfloor).1] at hget
        cases hget
    · rfl

theorem collected_setUpdate (key l : Bytes) (u : Update) :
    (t.setUpdate key u).collected l = if l = key then u else t.collected l := by
  rw [collected, setUpdate, SortedPairs.get_insert]
  split
  · rfl
  · rfl

theorem touchAll_cons {t : Updates} (hmode : t.mode = .update) (x : Touch) (touches : List Touch) :
    t.touchAll (x :: touches) = (x.kind.touch (t.collected x.key) x.val).bind fun u =>
      (t.setUpdate x.key u).touchAll touches := by
  rw [touchAll, foldlM_cons, touchPlainKey_update hmode, bind_eq_bind, bind_map]
  rfl

/-- The update of a key is what its own touches make, whatever is touched between them. -/
theorem touchAll_collected {t t' : Updates} (hmode : t.mode = .update) {touches : List Touch}
    (hrun : t.touchAll touches = some t') (key : Bytes) :
    (withKey Touch.key key touches).foldlM (fun u x => x.kind.touch u x.val) (t.collected key) =
      some (t'.collected key) := by
  induction touches generalizing t with
  | nil =>
    cases hrun
    rfl
  | cons x touches ih =>
    rw [touchAll_cons hmode, bind_eq_some_iff] at hrun
    obtain ⟨u, hu, hrun⟩ := hrun
    have hrest := ih (t := t.setUpdate x.key u) hmode hrun
    rw [collected_setUpdate] at hrest
    by_cases hkey : x.key = key
    · subst hkey
      rw [if_pos rfl] at hrest
      rw [withKey_cons_self, foldlM_cons, hu]
      exact hrest
    · rw [if_neg (Ne.symm hkey)] at hrest
      rw [withKey_cons_ne hkey]
      exact hrest

/-- A touched key is in the tree. -/
theorem touchAll_get {t t' : Updates} (hmode : t.mode = .update) {touches : List Touch}
    (hrun : t.touchAll touches = some t') {key : Bytes}
    (hkey : (t.tree.get key).isSome ∨ key ∈ touches.map Touch.key) : (t'.tree.get key).isSome := by
  induction touches generalizing t with
  | nil =>
    cases hrun
    simpa using hkey
  | cons x touches ih =>
    rw [touchAll_cons hmode, bind_eq_some_iff] at hrun
    obtain ⟨u, -, hrun⟩ := hrun
    refine ih (t := t.setUpdate x.key u) hmode hrun ?_
    rw [setUpdate, SortedPairs.get_insert]
    by_cases hx : key = x.key
    · simp [hx]
    · simpa [hx] using hkey

end Updates

/-! ### What a collected update leaves under its key -/

inductive Value
  | absent
  | account (nonce : Word) (balance : BitVec 256) (codeHash : Hash)
  | storage (val : Bytes)
deriving DecidableEq

variable (kind : KeyKind) (val : Bytes)

/-- The value that a touch writes. -/
def KeyKind.written : Option Value :=
  if val = [] then some .absent
  else
    match kind with
    | .account => (deserialiseV3 val).map fun acc =>
      .account acc.nonce acc.balance acc.codeHash
    | .storage => some (.storage val)

def KeyKind.read : KeyKind → Update → Value
  | .account, u => .account u.nonce u.balance u.codeHash
  | .storage, u => .storage (u.storage.1.take u.storageLen)

/-- The value under a key once a collected update is merged onto what was stored. -/
def KeyKind.settle (stored u : Update) : Option Value :=
  if u.deleted then some .absent else (stored.merge u).map kind.read

namespace Update

section SetAccount

variable (u : Update) (acc : Account)

theorem hash_length_ne : acc.codeHash.1.length ≠ 0 := by
  rw [acc.codeHash.2]
  decide

@[simp] theorem setAccount_nonce : (u.setAccount acc).nonce = acc.nonce := by
  simp only [setAccount]
  split_ifs <;> simp_all

@[simp] theorem setAccount_balance : (u.setAccount acc).balance = acc.balance := by
  simp only [setAccount]
  split_ifs <;> simp_all

@[simp] theorem setAccount_codeHash : (u.setAccount acc).codeHash = acc.codeHash := by
  have := hash_length_ne acc
  simp only [setAccount]
  split_ifs <;> simp_all

/-- The fields that change are marked, beside those marked before. -/
theorem setAccount_flags : (u.setAccount acc).flags = u.flags |||
    (if u.nonce ≠ acc.nonce then nonceUpdate else 0) |||
    (if u.balance ≠ acc.balance then balanceUpdate else 0) |||
    (if u.codeHash ≠ acc.codeHash then codeUpdate else 0) := by
  have hlength := hash_length_ne acc
  simp only [setAccount]
  split_ifs <;> simp_all

/-- The flags of account fields are apart, and none of them deletes. -/
theorem accountFlags_apart :
    hasFlag nonceUpdate nonceUpdate = true ∧ hasFlag nonceUpdate balanceUpdate = false ∧
      hasFlag nonceUpdate codeUpdate = false ∧ hasFlag nonceUpdate deleteUpdate = false ∧
      hasFlag nonceUpdate storageUpdate = false ∧ hasFlag balanceUpdate nonceUpdate = false ∧
      hasFlag balanceUpdate balanceUpdate = true ∧ hasFlag balanceUpdate codeUpdate = false ∧
      hasFlag balanceUpdate deleteUpdate = false ∧
      hasFlag balanceUpdate storageUpdate = false ∧ hasFlag codeUpdate nonceUpdate = false ∧
      hasFlag codeUpdate balanceUpdate = false ∧ hasFlag codeUpdate codeUpdate = true ∧
      hasFlag codeUpdate deleteUpdate = false ∧ hasFlag codeUpdate storageUpdate = false := by
  decide

theorem setAccount_hasFlag (flag : UpdateFlags) :
    hasFlag (u.setAccount acc).flags flag = (hasFlag u.flags flag ||
      (decide (u.nonce ≠ acc.nonce) && hasFlag nonceUpdate flag) ||
      (decide (u.balance ≠ acc.balance) && hasFlag balanceUpdate flag) ||
      (decide (u.codeHash ≠ acc.codeHash) && hasFlag codeUpdate flag)) := by
  rw [setAccount_flags]
  split_ifs <;> simp_all

end SetAccount

/-- A merge takes the marked fields of an account and keeps the others. -/
theorem merge_account {u b : Update} (hdelete : hasFlag b.flags deleteUpdate = false)
    (hstorage : hasFlag b.flags storageUpdate = false) :
    (u.merge b).map KeyKind.account.read = some (.account
      (if hasFlag b.flags nonceUpdate then b.nonce else u.nonce)
      (if hasFlag b.flags balanceUpdate then b.balance else u.balance)
      (if hasFlag b.flags codeUpdate then b.codeHash else u.codeHash)) := by
  have hflags : b.flags ≠ deleteUpdate := by
    intro h
    rw [h] at hdelete
    exact absurd hdelete (by decide)
  rw [merge, if_neg hflags]
  simp only [hstorage, Bool.false_eq_true, if_false, map_some, KeyKind.read]
  split_ifs <;> simp [Hash.copy_hash]

end Update

/-! ### Accounts -/

section Accounts

variable {A F : Type} [DecidableEq F]

/-- The accounts written since the last deletion, of touches with the newest first. -/
def sinceDeletion : List (Option A) → List A
  | some a :: rest => a :: sinceDeletion rest
  | _ => []

/-- The last account written before the last deletion. -/
def beforeDeletion : List (Option A) → Option A
  | some _ :: rest => beforeDeletion rest
  | none :: rest => rest.findSome? id
  | [] => none

variable (field : A → F) (zero : F) (touches : List (Option A))

/-- Some account since the last deletion changed the field, from the zero of a
new update or from the value that was collected before the deletion. -/
def Marked : Prop :=
  ∃ a ∈ sinceDeletion touches, field a ≠ ((beforeDeletion touches).map field).getD zero

/-- The value of a field that an update holds: that of the last account, deleted or not. -/
def held : F :=
  ((touches.findSome? id).map field).getD zero

/-- With an account on top of others, the field is marked if it was, or if it differs
from the one held. -/
theorem marked_cons_cons (a b : A) (rest : List (Option A)) :
    Marked field zero (some a :: some b :: rest) ↔
      Marked field zero (some b :: rest) ∨ field b ≠ field a := by
  simp only [Marked, sinceDeletion, beforeDeletion, mem_cons, exists_eq_or_imp]
  generalize ((beforeDeletion rest).map field).getD zero = base
  constructor
  · rintro (ha | hb | hrest)
    · by_cases hb : field b = base
      · exact .inr fun h => ha (h.symm.trans hb)
      · exact .inl (.inl hb)
    · exact .inl (.inl hb)
    · exact .inl (.inr hrest)
  · rintro ((hb | hrest) | hne)
    · exact .inr (.inl hb)
    · exact .inr (.inr hrest)
    · by_cases ha : field a = base
      · exact .inr (.inl fun h => hne (h.trans ha.symm))
      · exact .inl ha

theorem marked_cons (a : A) (touches : List (Option A)) :
    Marked field zero (some a :: touches) ↔
      (touches.head? ≠ some none ∧ Marked field zero touches) ∨
        held field zero touches ≠ field a := by
  match touches with
  | [] => simp [Marked, sinceDeletion, beforeDeletion, held, eq_comm]
  | none :: rest => simp [Marked, sinceDeletion, beforeDeletion, held, eq_comm]
  | some b :: rest => simp [marked_cons_cons, held]

end Accounts

/-- What an update holds after account touches, newest first. -/
structure Collects (touches : List (Option Account)) (u : Update) : Prop where
  nonce : u.nonce = held Account.nonce 0 touches
  balance : u.balance = held Account.balance 0 touches
  codeHash : u.codeHash = held Account.codeHash 0 touches
  deleted : hasFlag u.flags deleteUpdate = true ↔ touches.head? = some none
  storage : hasFlag u.flags storageUpdate = false
  nonceMarked : touches.head? ≠ some none →
    (hasFlag u.flags nonceUpdate = true ↔ Marked Account.nonce 0 touches)
  balanceMarked : touches.head? ≠ some none →
    (hasFlag u.flags balanceUpdate = true ↔ Marked Account.balance 0 touches)
  codeMarked : touches.head? ≠ some none →
    (hasFlag u.flags codeUpdate = true ↔ Marked Account.codeHash 0 touches)

namespace Collects

theorem new : Collects [] Update.new := by
  constructor <;> simp [Update.new, held, Marked, sinceDeletion]

variable {touches : List (Option Account)} {u : Update}

theorem delete (h : Collects touches u) :
    Collects (none :: touches) { u with flags := deleteUpdate } where
  nonce := h.nonce
  balance := h.balance
  codeHash := h.codeHash
  deleted := by simp [hasFlag, deleteUpdate]
  storage := by simp [hasFlag, deleteUpdate, storageUpdate]
  nonceMarked := by simp
  balanceMarked := by simp
  codeMarked := by simp

/-- The flags that a touch of an account starts from. -/
theorem cleared_hasFlag (u : Update) (flag : UpdateFlags) :
    hasFlag (if hasFlag u.flags deleteUpdate then { u with flags := 0 } else u).flags flag =
      (!hasFlag u.flags deleteUpdate && hasFlag u.flags flag) := by
  cases hasFlag u.flags deleteUpdate with
  | true => simp
  | false => simp

/-- One field of an update under a touch of an account: `marked` is its flag. -/
theorem marked_touch {F : Type} [DecidableEq F] {field : Account → F} {zero : F}
    {deleted marked : Bool} (hdeleted : deleted = true ↔ touches.head? = some none)
    (hmarked : touches.head? ≠ some none → (marked = true ↔ Marked field zero touches))
    (acc : Account) :
    ((!deleted && marked) || decide (held field zero touches ≠ field acc)) = true ↔
      Marked field zero (some acc :: touches) := by
  rw [marked_cons, Bool.or_eq_true, Bool.and_eq_true, decide_eq_true_iff, Bool.not_eq_true',
    ← Bool.not_eq_true, hdeleted]
  by_cases hhead : touches.head? = some none
  · simp [hhead]
  · rw [hmarked hhead]

theorem set (h : Collects touches u) (acc : Account) :
    Collects (some acc :: touches)
      (Update.setAccount (if hasFlag u.flags deleteUpdate then { u with flags := 0 } else u)
        acc) := by
  have hcleared := cleared_hasFlag u
  have hapart := Update.accountFlags_apart
  generalize hnext : (if hasFlag u.flags deleteUpdate then { u with flags := 0 } else u) = next
    at hcleared
  have hheld : next.nonce = held Account.nonce 0 touches ∧
      next.balance = held Account.balance 0 touches ∧
      next.codeHash = held Account.codeHash 0 touches := by
    rw [← h.nonce, ← h.balance, ← h.codeHash, ← hnext]
    split <;> exact ⟨rfl, rfl, rfl⟩
  constructor
  · simp [held]
  · simp [held]
  · simp [held]
  · simp [Update.setAccount_hasFlag, hcleared, hapart]
  · simp [Update.setAccount_hasFlag, hcleared, hapart, h.storage]
  · intro _
    rw [← marked_touch h.deleted h.nonceMarked acc, Update.setAccount_hasFlag, hcleared, hheld.1]
    simp [hapart]
  · intro _
    rw [← marked_touch h.deleted h.balanceMarked acc, Update.setAccount_hasFlag, hcleared,
      hheld.2.1]
    simp [hapart]
  · intro _
    rw [← marked_touch h.deleted h.codeMarked acc, Update.setAccount_hasFlag, hcleared, hheld.2.2]
    simp [hapart]

end Collects

/-- What a touched value means for an account key: `none` for a deletion. -/
def readAccount : Option Account :=
  if val = [] then none else deserialiseV3 val

/-- The values that accounts are written with. -/
def IsAccountValue : Prop := val = [] ∨ ∃ acc, val = serialiseV3 acc

theorem IsAccountValue.deserialise {val : Bytes} (hval : IsAccountValue val) (hne : val ≠ []) :
    ∃ acc, deserialiseV3 val = some acc := by
  rcases hval with rfl | ⟨acc, rfl⟩
  · exact absurd rfl hne
  · exact ⟨acc.stored, deserialiseV3_serialiseV3 acc⟩

variable {u : Update}

theorem Collects.touch {touches : List (Option Account)} (h : Collects touches u) {val : Bytes}
    (hval : IsAccountValue val) :
    ∃ u', u.touchAccount val = some u' ∧ Collects (readAccount val :: touches) u' := by
  by_cases hempty : val = []
  · refine ⟨{ u with flags := deleteUpdate }, by rw [Update.touchAccount, if_pos hempty], ?_⟩
    rw [readAccount, if_pos hempty]
    exact h.delete
  · obtain ⟨acc, hacc⟩ := hval.deserialise hempty
    refine ⟨_, by rw [Update.touchAccount, if_neg hempty, hacc, map_some], ?_⟩
    rw [readAccount, if_neg hempty, hacc]
    exact h.set acc

theorem Collects.touches {touches : List (Option Account)} (h : Collects touches u)
    {vals : List Bytes} (hvals : ∀ val ∈ vals, IsAccountValue val) :
    ∃ u', vals.foldlM Update.touchAccount u = some u' ∧
      Collects ((vals.map readAccount).reverse ++ touches) u' := by
  have hrun := foldlM_of_step Update.touchAccount vals
    (fun i u => Collects (((vals.take i).map readAccount).reverse ++ touches) u) h fun i hi u hu => by
      rw [← take_append_getElem hi, map_append, reverse_append]
      exact hu.touch (hvals _ (getElem_mem hi))
  rwa [take_length] at hrun

/-- For each field of the last account: what is stored has it already, or the
field was marked. -/
def AccountSettles (stored : Update) (init : List Bytes) (last : Bytes) : Prop :=
  ∀ acc, readAccount last = some acc →
    let touches := ((init ++ [last]).map readAccount).reverse
    (stored.nonce = acc.nonce ∨ Marked Account.nonce 0 touches) ∧
      (stored.balance = acc.balance ∨ Marked Account.balance 0 touches) ∧
      (stored.codeHash = acc.codeHash ∨ Marked Account.codeHash 0 touches)

theorem Collects.settle_iff {stored : Update} {init : List Bytes} {last : Bytes}
    (hlast : IsAccountValue last) (h : Collects ((init ++ [last]).map readAccount).reverse u) :
    KeyKind.account.settle stored u = KeyKind.account.written last ↔
      AccountSettles stored init last := by
  have hhead : ((init ++ [last]).map readAccount).reverse.head? = some (readAccount last) := by
    simp
  by_cases hempty : last = []
  · have hread : readAccount last = none := if_pos hempty
    have hdeleted : u.deleted = true := h.deleted.mpr (hhead.trans (congrArg some hread))
    simp [KeyKind.settle, hdeleted, KeyKind.written, hempty, AccountSettles, readAccount]
  · obtain ⟨acc, hacc⟩ := hlast.deserialise hempty
    have hread : readAccount last = some acc := (if_neg hempty).trans hacc
    have halive : ((init ++ [last]).map readAccount).reverse.head? ≠ some none := by
      rw [hhead, hread]
      simp
    have hkept : hasFlag u.flags deleteUpdate = false := by
      rw [← Bool.not_eq_true, h.deleted]
      exact halive
    have hheld : ((init ++ [last]).map readAccount).reverse.findSome? id = some acc := by
      simp [hread]
    rw [KeyKind.settle, Update.deleted, hkept, if_neg Bool.false_ne_true,
      Update.merge_account hkept h.storage, KeyKind.written, if_neg hempty, hacc, h.nonce,
      h.balance, h.codeHash, held, held, held, hheld]
    simp only [map_some, getD_some, some.injEq, Value.account.injEq,
      AccountSettles, hread, forall_eq', ← h.nonceMarked halive, ← h.balanceMarked halive,
      ← h.codeMarked halive]
    have hfield {F : Type} (b : Bool) (x y : F) : (if b = true then x else y) = x ↔
        y = x ∨ b = true := by
      cases b with
      | true => simp
      | false => simp
    rw [hfield, hfield, hfield]

/-! ### Storage -/

/-- What an update holds after storage touches. -/
structure CollectsStorage (vals : List Bytes) (u : Update) : Prop where
  deleted : hasFlag u.flags deleteUpdate = true ↔ [] ∈ vals
  marked : ∀ val, vals.getLast? = some val → val ≠ [] → hasFlag u.flags storageUpdate = true
  storageLen : ∀ val, vals.getLast? = some val → u.storageLen = val.length
  storage : ∀ val, vals.getLast? = some val → val ≠ [] → val.length ≤ 32 →
    u.storage.1.take val.length = val

theorem CollectsStorage.touch {vals : List Bytes} (h : CollectsStorage vals u) (val : Bytes) :
    ∃ u', u.touchStorage val = some u' ∧ CollectsStorage (vals ++ [val]) u' := by
  by_cases hempty : val = []
  · refine ⟨_, by rw [Update.touchStorage, if_pos hempty], ?_⟩
    constructor <;> simp [hempty, hasFlag, deleteUpdate]
  · refine ⟨_, by rw [Update.touchStorage, if_neg hempty], ?_⟩
    constructor
    · have hapart : hasFlag storageUpdate deleteUpdate = false := by decide
      simp [hapart, h.deleted, Ne.symm hempty]
    · have hself : hasFlag storageUpdate storageUpdate = true := by decide
      simp [hself]
    · simp
    · simp only [getLast?_append, getLast?_singleton, some_or, some.injEq]
      rintro _ rfl - hlength
      exact Hash.take_copy _ hlength

theorem CollectsStorage.touches (vals : List Bytes) :
    ∃ u, vals.foldlM Update.touchStorage Update.new = some u ∧ CollectsStorage vals u := by
  have hnew : CollectsStorage [] Update.new := by constructor <;> simp [Update.new]
  have hrun := foldlM_of_step Update.touchStorage vals (fun i u => CollectsStorage (vals.take i) u)
    hnew fun i hi u hu => by
      rw [← take_append_getElem hi]
      exact hu.touch _
  rwa [take_length] at hrun

/-- A deletion before the last value is not forgotten, and a value is not longer
than a hash. -/
def StorageSettles (init : List Bytes) (last : Bytes) : Prop :=
  last ≠ [] → [] ∉ init ∧ last.length ≤ 32

theorem CollectsStorage.settle_iff {stored : Update} {init : List Bytes} {last : Bytes}
    (h : CollectsStorage (init ++ [last]) u) :
    KeyKind.storage.settle stored u = KeyKind.storage.written last ↔
      StorageSettles init last := by
  have hlast : (init ++ [last]).getLast? = some last := by simp
  by_cases hempty : last = []
  · have hdeleted : u.deleted = true := h.deleted.mpr (by simp [hempty])
    simp [KeyKind.settle, hdeleted, KeyKind.written, hempty, StorageSettles]
  rw [StorageSettles, KeyKind.settle, KeyKind.written, if_neg hempty]
  by_cases hinit : [] ∈ init
  · have hdeleted : u.deleted = true := h.deleted.mpr (by simp [hinit])
    simp [hdeleted, hinit, hempty]
  · have hkept : hasFlag u.flags deleteUpdate = false := by
      rw [← Bool.not_eq_true, h.deleted]
      simp [hinit, Ne.symm hempty]
    have hflags : u.flags ≠ deleteUpdate := by
      intro hflags
      rw [hflags] at hkept
      exact absurd hkept (by decide)
    rw [Update.deleted, hkept, if_neg Bool.false_ne_true, Update.merge, if_neg hflags]
    simp only [h.marked last hlast hempty, h.storageLen last hlast, if_true]
    by_cases hlength : last.length ≤ 32
    · rw [if_pos hlength, h.storage last hlast hempty hlength]
      simp [KeyKind.read, Hash.take_copy _ hlength, hinit, hlength]
    · simp [hlength, hempty]

/-! ### Collecting and merging -/

def Touch.Valid (x : Touch) : Prop := x.kind = .account → IsAccountValue x.val

def Settles : KeyKind → Update → List Bytes → Bytes → Prop
  | .account, stored, init, last => AccountSettles stored init last
  | .storage, _, init, last => StorageSettles init last

theorem KeyKind.settle_iff {init : List Bytes} {last : Bytes}
    (hvals : kind = .account → ∀ val ∈ init ++ [last], IsAccountValue val) :
    ∃ u, (init ++ [last]).foldlM kind.touch Update.new = some u ∧ ∀ stored,
      kind.settle stored u = kind.written last ↔ Settles kind stored init last := by
  cases kind with
  | account =>
    obtain ⟨u, hu, hcollects⟩ := Collects.new.touches (hvals rfl)
    rw [append_nil] at hcollects
    exact ⟨u, hu, fun _ => hcollects.settle_iff (hvals rfl last (by simp))⟩
  | storage =>
    obtain ⟨u, hu, hcollects⟩ := CollectsStorage.touches (init ++ [last])
    exact ⟨u, hu, fun _ => hcollects.settle_iff⟩

theorem KeyKind.touch_isSome {kind : KeyKind} {val : Bytes}
    (hval : kind = .account → IsAccountValue val) (u : Update) :
    ∃ u', kind.touch u val = some u' := by
  cases kind with
  | account =>
    by_cases hempty : val = []
    · exact ⟨_, if_pos hempty⟩
    · obtain ⟨acc, hacc⟩ := (hval rfl).deserialise hempty
      exact ⟨_, by rw [KeyKind.touch, Update.touchAccount, if_neg hempty, hacc, map_some]⟩
  | storage =>
    by_cases hempty : val = []
    · exact ⟨_, if_pos hempty⟩
    · exact ⟨_, if_neg hempty⟩

theorem Updates.touchAll_isSome {t : Updates} (hmode : t.mode = .update) {touches : List Touch}
    (hvalid : ∀ x ∈ touches, x.Valid) : ∃ t', t.touchAll touches = some t' := by
  induction touches generalizing t with
  | nil => exact ⟨t, rfl⟩
  | cons x touches ih =>
    rw [forall_mem_cons] at hvalid
    obtain ⟨u, hu⟩ := KeyKind.touch_isSome hvalid.1 (t.collected x.key)
    obtain ⟨t', ht'⟩ := ih (t := t.setUpdate x.key u) hmode hvalid.2
    exact ⟨t', by rwa [touchAll_cons hmode, hu]⟩

theorem foldlM_touch {kind : KeyKind} {touches : List Touch} (hkind : ∀ x ∈ touches, x.kind = kind)
    (u : Update) : touches.foldlM (fun u x => x.kind.touch u x.val) u =
      (touches.map Touch.val).foldlM kind.touch u := by
  induction touches generalizing u with
  | nil => rfl
  | cons x touches ih =>
    rw [forall_mem_cons] at hkind
    rw [map_cons, foldlM_cons, foldlM_cons, hkind.1]
    exact congrArg _ (funext fun u => ih hkind.2 u)

/-- Touches of any keys in update mode: merging what is collected for a key onto
what was stored gives the value of the last touch of the key exactly if no field
that it changes was left unmarked, or no deletion of a slot is left over. -/
theorem collected_settle_iff (hasher : Bytes → Bytes) (optimalSize : Int) (touches : List Touch)
    (hvalid : ∀ x ∈ touches, x.Valid) (key : Bytes) (kind : KeyKind)
    (hkind : ∀ x ∈ touches, x.key = key → x.kind = kind) (init : List Bytes) (last : Bytes)
    (hvals : (withKey Touch.key key touches).map Touch.val = init ++ [last]) (stored : Update) :
    ∃ t item, (Updates.new .update hasher optimalSize).touchAll touches = some t ∧
      t.tree.get key = some item ∧
      (kind.settle stored item.update = kind.written last ↔ Settles kind stored init last) := by
  obtain ⟨t, ht⟩ := Updates.touchAll_isSome (t := .new .update hasher optimalSize) rfl hvalid
  have hmem : key ∈ touches.map Touch.key := by
    have hlast : last ∈ (withKey Touch.key key touches).map Touch.val := by simp [hvals]
    obtain ⟨x, hx, -⟩ := mem_map.mp hlast
    exact mem_map.mpr ⟨x, mem_withKey.mp hx⟩
  obtain ⟨item, hitem⟩ := Option.isSome_iff_exists.mp
    (Updates.touchAll_get rfl ht (.inr hmem))
  have hsame : ∀ x ∈ withKey Touch.key key touches, x.kind = kind := by
    intro x hx
    obtain ⟨hx, hxkey⟩ := mem_withKey.mp hx
    exact hkind x hx hxkey
  have hall : kind = .account → ∀ val ∈ init ++ [last], IsAccountValue val := by
    rintro rfl val hval
    rw [← hvals] at hval
    obtain ⟨x, hx, rfl⟩ := mem_map.mp hval
    exact hvalid x (mem_withKey.mp hx).1 (hsame x hx)
  obtain ⟨u, hu, hiff⟩ := kind.settle_iff hall
  have hcollected := Updates.touchAll_collected rfl ht key
  have hend : t.collected key = item.update := by rw [Updates.collected, hitem]; rfl
  rw [foldlM_touch hsame, hvals, hend] at hcollected
  have heq : u = item.update := Option.some.inj (hu.symm.trans hcollected)
  exact ⟨t, item, ht, hitem, heq ▸ hiff stored⟩

/-- An account with a balance. -/
def funded : Update := ⟨emptyCodeHash, 0, 0, 0, 7, 1⟩

/-- The account after it has spent its balance. -/
def spent : Account := ⟨2, 0, emptyCodeHash, 0⟩

/-- A balance that is spent to zero is not marked: the stored one comes back. -/
theorem collected_settle_spent :
    ((Updates.new .update id 0).touchAll [⟨[1], .account, serialiseV3 spent⟩]).bind (fun t =>
      (t.tree.get [1]).bind fun item => KeyKind.account.settle funded item.update) =
      some (.account 2 7 emptyCodeHash) ∧
    KeyKind.account.written (serialiseV3 spent) = some (.account 2 0 emptyCodeHash) := by
  decide

/-- The account on the way to its last balance, with a slot touched in between. -/
def spending : List Touch :=
  [⟨[1], .account, serialiseV3 ⟨1, 5, emptyCodeHash, 0⟩⟩, ⟨[2], .storage, [9]⟩,
    ⟨[1], .account, serialiseV3 spent⟩]

/-- Touched on the way down, the balance is marked and the last account stays. -/
theorem collected_settle_spending :
    ∃ t item, (Updates.new .update id 0).touchAll spending = some t ∧
      t.tree.get [1] = some item ∧
      KeyKind.account.settle funded item.update =
        KeyKind.account.written (serialiseV3 spent) := by
  have hvalid : ∀ x ∈ spending, x.Valid := by
    simp only [spending, forall_mem_cons, not_mem_nil, false_imp_iff, implies_true, and_true]
    exact ⟨fun _ => .inr ⟨_, rfl⟩, fun h => (nomatch h), fun _ => .inr ⟨_, rfl⟩⟩
  obtain ⟨t, item, ht, hitem, hiff⟩ := collected_settle_iff id 0 spending hvalid [1] .account
    (by decide) [serialiseV3 ⟨1, 5, emptyCodeHash, 0⟩] (serialiseV3 spent) (by decide) funded
  refine ⟨t, item, ht, hitem, hiff.mpr ?_⟩
  have hread : readAccount (serialiseV3 spent) = some spent := by decide
  intro acc hacc
  obtain rfl : spent = acc := Option.some.inj (hread.symm.trans hacc)
  exact ⟨.inr ⟨spent, by decide, by decide⟩,
    Or.inr ⟨⟨1, 5, emptyCodeHash, 0⟩, by decide, by decide⟩, .inl rfl⟩

end Commitment

end Erigon
