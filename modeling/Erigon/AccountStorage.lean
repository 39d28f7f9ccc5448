/-
The two stored forms of accounts.  The newer one (`SerialiseV3`) has a length byte for every
field; the older one (`EncodeForStorage`) begins with a byte that says which fields there are,
and leaves out zero ones.  Both are written into buffers whose length is computed beforehand.
-/
import Erigon.Account
import Erigon.BufferCursor

namespace Erigon

/-- The bytes of a number without leading zeros. -/
def numberBytes (n : Nat) : Bytes := beBytes (byteLen n) n

/-- A length byte and the bytes, and the position behind them. -/
def putField (bytes buffer : Bytes) (pos : Nat) : Result (Bytes × Nat) := do
  let (buffer, pos) ← putNext [UInt8.ofNat bytes.length] buffer pos
  putNext bytes buffer pos

/-! ### The newer form -/

variable (a : Account)

def serialiseV3Len : Nat :=
  1 + (if a.nonce ≠ 0 then byteLen a.nonce.toNat else 0) +
    1 + (if a.balance ≠ 0 then byteLen a.balance.toNat else 0) +
    1 + (if a.isEmptyCodeHash then 0 else 32) +
    1 + (if a.incarnation ≠ 0 then byteLen a.incarnation.toNat else 0)

/-- A zero byte for what is empty. -/
def putUnless (empty : Bool) (bytes value : Bytes) (pos : Nat) : Result (Bytes × Nat) :=
  if empty then putNext [0] value pos else putField bytes value pos

def serialiseV3To (value : Bytes) : Result Bytes := do
  let (value, pos) ← putUnless (a.nonce == 0) (numberBytes a.nonce.toNat) value 0
  let (value, pos) ← putUnless (a.balance == 0) (numberBytes a.balance.toNat) value pos
  let (value, pos) ← putUnless a.isEmptyCodeHash a.codeHash.1 value pos
  let (value, _) ← putUnless (a.incarnation == 0) (numberBytes a.incarnation.toNat) value pos
  return value

/-! ### The older form -/

def encodingLengthForStorage : Nat :=
  1 + (if a.balance ≠ 0 then byteLen a.balance.toNat + 1 else 0) +
    (if a.nonce ≠ 0 then byteLen a.nonce.toNat + 1 else 0) +
    (if a.isEmptyCodeHash then 0 else 33) +
    (if a.incarnation ≠ 0 then byteLen a.incarnation.toNat + 1 else 0)

/-- Which fields there are. -/
def fieldBits (nonce balance incarnation codeHash : Bool) : UInt8 :=
  (if nonce then 1 else 0) ||| (if balance then 2 else 0) ||| (if incarnation then 4 else 0) |||
    (if codeHash then 8 else 0)

def fieldSet : UInt8 :=
  fieldBits (a.nonce != 0) (a.balance != 0) (a.incarnation != 0) (!a.isEmptyCodeHash)

variable (present : Bool)

/-- A field that is written if it is there. -/
def putWhen (put : Bytes → Nat → Result (Bytes × Nat)) (buffer : Bytes)
    (pos : Nat) : Result (Bytes × Nat) :=
  if present then put buffer pos else .ok (buffer, pos)

/-- The length byte of a hash, and its bytes as far as there is room. -/
def copyHash (hash : Hash) (buffer : Bytes) (pos : Nat) : Result (Bytes × Nat) := do
  let (buffer, pos) ← putNext [32] buffer pos
  copyNext hash.1 buffer pos

def encodeForStorage (buffer : Bytes) : Result Bytes := do
  let (buffer, pos) ← putWhen (a.nonce != 0) (putField (numberBytes a.nonce.toNat)) buffer 1
  let (buffer, pos) ←
    putWhen (a.balance != 0) (putField (numberBytes a.balance.toNat)) buffer pos
  let (buffer, pos) ←
    putWhen (a.incarnation != 0) (putField (numberBytes a.incarnation.toNat)) buffer pos
  let (buffer, _) ← putWhen (!a.isEmptyCodeHash) (copyHash a.codeHash) buffer pos
  putAt buffer 0 [fieldSet a]

/-- A field with its length byte, and the position behind it. -/
def readStored (malformed : String) (enc : Bytes) (pos : Nat) : Result (Bytes × Nat) :=
  match enc[pos]? with
  | none => .panic "index out of range"
  | some n =>
    if enc.length < pos + n.toNat + 1 then .error malformed
    else .ok ((enc.drop (pos + 1)).take n.toNat, pos + n.toNat + 1)

/-- The code hash: its length is looked at first. -/
def readCodeHash (enc : Bytes) (pos : Nat) : Result (Bytes × Nat) :=
  match enc[pos]? with
  | none => .panic "index out of range"
  | some n =>
    if n.toNat ≠ 32 then .error "codehash should be 32 bytes long"
    else readStored "malformed CBOR for Account.CodeHash" enc pos

/-- A field that is read if it is there. -/
def readWhen (read : Bytes → Nat → Result (Bytes × Nat)) (enc : Bytes)
    (pos : Nat) : Result (Option Bytes × Nat) :=
  if present then do
    let (bytes, pos) ← read enc pos
    return (some bytes, pos)
  else .ok (none, pos)

/-- The fields that are there.  The balance's error names the nonce. -/
def readFields (hasNonce hasBalance hasIncarnation hasCodeHash : Bool) (enc : Bytes) (pos : Nat) :
    Result Account := do
  let (nonce, pos) ← readWhen hasNonce (readStored "malformed CBOR for Account.Nonce") enc pos
  let (balance, pos) ←
    readWhen hasBalance (readStored "malformed CBOR for Account.Nonce") enc pos
  let (incarnation, pos) ←
    readWhen hasIncarnation (readStored "malformed CBOR for Account.Incarnation") enc pos
  let (codeHash, _) ← readWhen hasCodeHash readCodeHash enc pos
  return {
    nonce := (nonce.map bytesToUint64).getD 0
    balance := (balance.map fun b => BitVec.ofNat 256 (beNat b)).getD 0
    codeHash := (codeHash.map Account.reset.codeHash.copy).getD Account.reset.codeHash
    incarnation := (incarnation.map bytesToUint64).getD 0 }

def decodeForStorage (enc : Bytes) : Result Account :=
  match enc with
  | [] => .ok Account.reset
  | set :: _ =>
    readFields (decide (set &&& 1 > 0)) (decide (set &&& 2 > 0)) (decide (set &&& 4 > 0))
      (decide (set &&& 8 > 0)) enc 1

def convertV3toV2 (v : Bytes) : Result Bytes :=
  match deserialiseV3 v with
  | none => .error "ConvertV3toV2"
  | some a => encodeForStorage a (List.replicate (encodingLengthForStorage a) 0)

/-! ### What is written -/

theorem numberBytes_length (n : Nat) : (numberBytes n).length = byteLen n := beBytes_length _ _

theorem numberBytes_zero : numberBytes 0 = [] := rfl

theorem beNat_numberBytes (n : Nat) : beNat (numberBytes n) = n := beNat_field n

theorem puts_putField (bytes : Bytes) : Puts (putField bytes) (writeField bytes) :=
  (puts_putNext [UInt8.ofNat bytes.length]).andThen (puts_putNext bytes)

theorem puts_copyHash (hash : Hash) : Puts (copyHash hash) (writeField hash.1) := by
  have hbyte : UInt8.ofNat hash.1.length = 32 := by rw [hash.2]; rfl
  have hputs : Puts (copyHash hash) ([32] ++ hash.1) :=
    (puts_putNext [32]).andThen (puts_copyNext hash.1)
  rwa [← hbyte] at hputs

theorem puts_putUnless (empty : Bool) (bytes : Bytes) :
    Puts (putUnless empty bytes) (writeField (if empty then [] else bytes)) := by
  cases empty with
  | true => exact puts_putNext [0]
  | false => exact puts_putField bytes

/-- The bytes of a field, or none. -/
def fieldWhen (bytes : Bytes) : Bytes := if present then writeField bytes else []

theorem puts_putWhen {put : Bytes → Nat → Result (Bytes × Nat)} {bytes : Bytes}
    (hput : Puts put (writeField bytes)) : Puts (putWhen present put) (fieldWhen present bytes) := by
  cases present with
  | true => exact hput
  | false => exact Writes.done _

variable {w : Nat} (x : BitVec w)

/-- A zero number has no bytes. -/
theorem bytes_unless_zero :
    (if x == 0 then [] else numberBytes x.toNat) = numberBytes x.toNat := by
  by_cases hzero : x = 0
  · simp [hzero, numberBytes_zero]
  · rw [if_neg (by simpa using hzero)]

theorem byteLen_unless_zero :
    (if x ≠ 0 then byteLen x.toNat else 0) = (numberBytes x.toNat).length := by
  rw [numberBytes_length]
  by_cases hzero : x = 0
  · simp [hzero, byteLen]
  · rw [if_pos hzero]

theorem serialiseV3Len_eq : serialiseV3Len a = (serialiseV3 a).length := by
  have hhash : (if a.isEmptyCodeHash then 0 else 32) =
      (if a.isEmptyCodeHash then [] else a.codeHash.1).length := by
    split
    · rfl
    · exact a.codeHash.2.symm
  rw [serialiseV3Len, byteLen_unless_zero, byteLen_unless_zero, byteLen_unless_zero, hhash]
  simp only [serialiseV3, writeField, numberBytes, List.length_append, List.length_cons]
  omega

/-- The newer form fills a buffer of the announced length. -/
theorem serialiseV3To_eq {value : Bytes} (hlength : value.length = serialiseV3Len a) :
    serialiseV3To a value = .ok (serialiseV3 a) := by
  have hwrites := (puts_putUnless (a.nonce == 0) (numberBytes a.nonce.toNat)).andThen
    ((puts_putUnless (a.balance == 0) (numberBytes a.balance.toNat)).andThen
      ((puts_putUnless a.isEmptyCodeHash a.codeHash.1).andThen
        ((puts_putUnless (a.incarnation == 0) (numberBytes a.incarnation.toNat)).andThen
          (Writes.done fun buffer _ => Result.ok buffer))))
  simp only [bytes_unless_zero, List.append_nil, ← List.append_assoc] at hwrites
  exact hwrites.fill (hlength.trans (serialiseV3Len_eq a))

/-- The older form: which fields there are, and these. -/
def storageForm : Bytes :=
  fieldSet a :: (fieldWhen (a.nonce != 0) (numberBytes a.nonce.toNat) ++
    (fieldWhen (a.balance != 0) (numberBytes a.balance.toNat) ++
      (fieldWhen (a.incarnation != 0) (numberBytes a.incarnation.toNat) ++
        fieldWhen (!a.isEmptyCodeHash) a.codeHash.1)))

theorem length_fieldWhen_number :
    (fieldWhen (x != 0) (numberBytes x.toNat)).length =
      if x ≠ 0 then byteLen x.toNat + 1 else 0 := by
  by_cases hzero : x = 0#w
  · simp [fieldWhen, hzero]
  · simp [fieldWhen, hzero, writeField, numberBytes_length]

theorem encodingLengthForStorage_eq :
    encodingLengthForStorage a = (storageForm a).length := by
  have hhash : (fieldWhen (!a.isEmptyCodeHash) a.codeHash.1).length =
      if a.isEmptyCodeHash then 0 else 33 := by
    cases a.isEmptyCodeHash with
    | true => rfl
    | false => exact congrArg (· + 1) a.codeHash.2
  rw [encodingLengthForStorage, storageForm]
  simp only [List.length_cons, List.length_append, length_fieldWhen_number, hhash]
  omega

/-- The older form fills a buffer of the announced length, its first byte last. -/
theorem encodeForStorage_eq {buffer : Bytes}
    (hlength : buffer.length = encodingLengthForStorage a) :
    encodeForStorage a buffer = .ok (storageForm a) := by
  have hwrites :=
    (puts_putWhen (a.nonce != 0) (puts_putField (numberBytes a.nonce.toNat))).andThen
    ((puts_putWhen (a.balance != 0) (puts_putField (numberBytes a.balance.toNat))).andThen
      ((puts_putWhen (a.incarnation != 0)
          (puts_putField (numberBytes a.incarnation.toNat))).andThen
        ((puts_putWhen (!a.isEmptyCodeHash) (puts_copyHash a.codeHash)).andThen
          (Writes.done fun buffer _ => putAt buffer 0 [fieldSet a]))))
  rw [encodingLengthForStorage_eq] at hlength
  cases buffer with
  | nil => cases hlength
  | cons first rest =>
    have hrest : (storageForm a).tail.length = rest.length := (Nat.succ.inj hlength).symm
    have hwritten := hwrites [first] rest (by rw [List.append_nil]; exact hrest.le)
    rw [List.append_nil] at hwritten
    refine hwritten.trans ?_
    have hdrop : rest.drop (storageForm a).tail.length = [] :=
      List.drop_eq_nil_of_le hrest.ge
    refine (congrArg (fun tail => putAt ([first] ++ (storageForm a).tail ++ tail) 0
      [fieldSet a]) hdrop).trans ?_
    rw [List.append_nil]
    exact @putAt_append [] _ [fieldSet a] (Nat.le_add_left 1 _)

/-! ### What is read -/

theorem decide_fieldBits : ∀ n b i c : Bool, decide (fieldBits n b i c &&& 1 > 0) = n ∧
    decide (fieldBits n b i c &&& 2 > 0) = b ∧ decide (fieldBits n b i c &&& 4 > 0) = i ∧
    decide (fieldBits n b i c &&& 8 > 0) = c := by
  decide

theorem getElem?_writeField (front bytes back : Bytes) :
    (front ++ writeField bytes ++ back)[front.length]? = some (UInt8.ofNat bytes.length) := by
  rw [List.append_assoc, List.getElem?_append_right (Nat.le_refl _), Nat.sub_self]
  rfl

theorem gives_readStored {bytes : Bytes} (hlength : bytes.length < 256) (malformed : String) :
    Gives bytes (readStored malformed) (writeField bytes) := by
  intro front back hsize
  have hn : (UInt8.ofNat bytes.length).toNat = bytes.length := by
    rw [UInt8.toNat_ofNat']
    exact Nat.mod_eq_of_lt hlength
  have hdrop : (front ++ writeField bytes ++ back).drop (front.length + 1) = bytes ++ back := by
    rw [List.append_assoc, ← List.drop_drop, List.drop_left]
    rfl
  have hroom : ¬(front ++ writeField bytes ++ back).length < front.length + bytes.length + 1 := by
    simp only [writeField, List.length_append, List.length_cons]
    omega
  simp only [readStored, getElem?_writeField, hn, if_neg hroom, hdrop, List.take_left]
  simp only [writeField, List.length_append, List.length_cons, Nat.add_assoc]

theorem gives_readCodeHash (hash : Hash) : Gives hash.1 readCodeHash (writeField hash.1) := by
  intro front back hsize
  have hbyte : (UInt8.ofNat hash.1.length).toNat = 32 := by rw [hash.2]; rfl
  have hlength : hash.1.length < 256 := by rw [hash.2]; decide
  simp only [readCodeHash, getElem?_writeField, hbyte, ne_eq, not_true, if_false]
  exact gives_readStored hlength _ front back hsize

theorem gives_readWhen {read : Bytes → Nat → Result (Bytes × Nat)} {bytes : Bytes}
    (hread : Gives bytes read (writeField bytes)) :
    Gives (if present then some bytes else none) (readWhen present read)
      (fieldWhen present bytes) := by
  cases present with
  | true =>
    intro front back hsize
    have hgives := hread front back hsize
    simp only [readWhen, fieldWhen, if_true, hgives, Result.ok_bind]
    rfl
  | false => exact Reads.done _

theorem byteLen_toNat_le (hw : w ≤ 256) : byteLen x.toNat ≤ 32 :=
  byteLen_le (Nat.lt_of_lt_of_le x.isLt (Nat.pow_le_pow_right (by decide) hw))

theorem numberBytes_length_lt (hw : w ≤ 256) :
    (numberBytes x.toNat).length < 256 := by
  have hle := byteLen_toNat_le x hw
  rw [numberBytes_length]
  omega

/-- A word is read back from its bytes, and zero from none. -/
theorem getD_map_bytesToUint64 (x : Word) :
    ((if x != 0 then some (numberBytes x.toNat) else none).map bytesToUint64).getD 0 = x := by
  by_cases hzero : x = 0#64
  · simp [hzero]
  · simp [hzero, numberBytes, bytesToUint64_field]

theorem getD_map_balance (x : BitVec 256) :
    ((if x != 0 then some (numberBytes x.toNat) else none).map
      fun b => BitVec.ofNat 256 (beNat b)).getD 0 = x := by
  by_cases hzero : x = 0#256
  · simp [hzero]
  · simp [hzero, beNat_numberBytes]

theorem reads_readFields :
    Reads (fun _ => .ok a.stored)
      (readFields (a.nonce != 0) (a.balance != 0) (a.incarnation != 0) (!a.isEmptyCodeHash))
      (storageForm a).tail := by
  have hnonce := numberBytes_length_lt a.nonce (by decide)
  have hbalance := numberBytes_length_lt a.balance (Nat.le_refl _)
  have hincarnation := numberBytes_length_lt a.incarnation (by decide)
  refine (gives_readWhen _ (gives_readStored hnonce _)).andThen ?_
  refine (gives_readWhen _ (gives_readStored hbalance _)).andThen ?_
  refine (gives_readWhen _ (gives_readStored hincarnation _)).andThen ?_
  refine (gives_readWhen _ (gives_readCodeHash a.codeHash)).last fun enc pos => ?_
  simp only [getD_map_bytesToUint64, getD_map_balance, getD_map_codeHash]
  rfl

theorem storageForm_length_lt : (storageForm a).length < 2 ^ 63 := by
  have hnonce := byteLen_toNat_le a.nonce (by decide)
  have hbalance := byteLen_toNat_le a.balance (Nat.le_refl _)
  have hincarnation := byteLen_toNat_le a.incarnation (by decide)
  rw [← encodingLengthForStorage_eq, encodingLengthForStorage]
  split_ifs <;> omega

/-- The older form is read back. -/
theorem decodeForStorage_storageForm :
    decodeForStorage (storageForm a) = .ok a.stored := by
  have hread := reads_readFields a [fieldSet a] []
  rw [List.append_nil] at hread
  have hsize : (storageForm a).length < 2 ^ 63 := storageForm_length_lt a
  have hfields : decodeForStorage (storageForm a) =
      readFields (decide (fieldSet a &&& 1 > 0)) (decide (fieldSet a &&& 2 > 0))
        (decide (fieldSet a &&& 4 > 0)) (decide (fieldSet a &&& 8 > 0)) (storageForm a) 1 := rfl
  obtain ⟨hn, hb, hi, hc⟩ := decide_fieldBits (a.nonce != 0) (a.balance != 0)
    (a.incarnation != 0) (!a.isEmptyCodeHash)
  rw [hfields, fieldSet, hn, hb, hi, hc]
  exact hread hsize

/-! ### Round trips -/

theorem stored_stored : a.stored.stored = a.stored := by
  have hne : emptyCodeHash ≠ 0 := by decide
  by_cases hzero : a.codeHash = 0
  · simp [Account.stored, hzero, hne]
  · simp [Account.stored, hzero]

theorem convertV3toV2_serialiseV3 :
    convertV3toV2 (serialiseV3 a) = .ok (storageForm a.stored) := by
  simp only [convertV3toV2, deserialiseV3_serialiseV3]
  exact encodeForStorage_eq a.stored List.length_replicate

end Erigon
