/-
The form in which accounts are hashed: a list of the nonce, the balance, the storage root and the
code hash, each a byte string with its length.  `Account.EncodeForHashing` and the trie's
`cell.accountForHashing` write it, `Account.DecodeForHashing` reads it.

The reader trusts the lengths that the input announces.  Where it looks at more of the input than
there is, the model panics: so does the program if the input's capacity ends with it, and else it
reads what is behind it.
-/
import Erigon.AccountStorage
import Erigon.IntraBlockState

namespace Erigon

open List Result UInt8

/-- Nothing outside of what there is was looked at. -/
def Result.Returns {A : Type} (x : Result A) : Prop := ∀ text, x ≠ .panic text

namespace Result

variable {A B : Type}

theorem returns_ok (a : A) : (ok a).Returns := fun _ h => by cases h

theorem returns_error (text : String) : (error text : Result A).Returns := fun _ h => by
  cases h

theorem not_returns_panic (text : String) : ¬(panic text : Result A).Returns := fun h =>
  h text rfl

theorem returns_bind_iff {x : Result A} {f : A → Result B} :
    (x >>= f).Returns ↔ x.Returns ∧ ∀ a, x = .ok a → (f a).Returns := by
  cases x with
  | ok a =>
    refine ⟨fun h => ⟨returns_ok a, ?_⟩, fun h => h.2 a rfl⟩
    rintro b ⟨rfl⟩
    exact h
  | error text =>
    exact iff_of_true (returns_error text) ⟨returns_error text, fun a h => by cases h⟩
  | panic text => exact iff_of_false (not_returns_panic text) fun h => h.1 text rfl

end Result

/-- The fields of an account, or of a cell and its storage root, that are hashed. -/
structure HashedAccount where
  nonce : Word
  balance : BitVec 256
  root : Hash
  codeHash : Hash
deriving DecidableEq

namespace HashedAccount

/-! ### Writing -/

/-- `rlp.IntLenExcludingHead`, and the balance's bytes. -/
def intLenExcludingHead (i : Nat) : Nat := if i < 128 then 0 else byteLen i

def listPrefixLen (dataLen : Nat) : Nat := if 56 ≤ dataLen then 1 + byteLen dataLen else 1

variable (h : HashedAccount)

def encodingLengthForHashing : Nat :=
  let structLength :=
    intLenExcludingHead h.balance.toNat + intLenExcludingHead h.nonce.toNat + 2 + 66
  listPrefixLen structLength + structLength

def putListHead (structLength : Nat) (buffer : Bytes) (pos : Nat) : Result (Bytes × Nat) :=
  if structLength < 56 then putNext [UInt8.ofNat (192 + structLength)] buffer pos
  else
    putNext (UInt8.ofNat (247 + byteLen structLength) :: numberBytes structLength) buffer pos

/-- A small number is its own byte, another has its length before it. -/
def putNonce (nonce nonceBytes : Nat) (buffer : Bytes) (pos : Nat) : Result (Bytes × Nat) := do
  let buffer ← putAt buffer pos
    (if nonce < 128 ∧ nonce ≠ 0 then [UInt8.ofNat nonce]
    else UInt8.ofNat (128 + nonceBytes) :: beBytes nonceBytes nonce)
  return (buffer, pos + 1 + nonceBytes)

def putBalance (balance balanceBytes : Nat) (buffer : Bytes) (pos : Nat) :
    Result (Bytes × Nat) :=
  if balance < 128 ∧ balance ≠ 0 then putNext [UInt8.ofNat balance] buffer pos
  else do
    let (buffer, pos) ← putNext [UInt8.ofNat (128 + balanceBytes)] buffer pos
    putNext (beBytes balanceBytes balance) buffer pos

def putHash (hash : Hash) (buffer : Bytes) (pos : Nat) : Result (Bytes × Nat) := do
  let (buffer, pos) ← putNext [128 + 32] buffer pos
  copyNext hash.1 buffer pos

/-- What both writers do once they have counted the bytes of the nonce. -/
def putFields (nonceBytes : Nat) (buffer : Bytes) : Result (Bytes × Nat) := do
  let balanceBytes := intLenExcludingHead h.balance.toNat
  let (buffer, pos) ← putListHead (balanceBytes + nonceBytes + 2 + 66) buffer 0
  let (buffer, pos) ← putNonce h.nonce.toNat nonceBytes buffer pos
  let (buffer, pos) ← putBalance h.balance.toNat balanceBytes buffer pos
  let (buffer, pos) ← putHash h.root buffer pos
  putHash h.codeHash buffer pos

variable (buffer : Bytes)

def encodeForHashing : Result Bytes := do
  let (buffer, _) ← putFields h (intLenExcludingHead h.nonce.toNat) buffer
  return buffer

/-- The cell's writer, which gives the position behind what it wrote. -/
def accountForHashing : Result (Bytes × Nat) :=
  putFields h (if h.nonce.toNat < 128 ∧ h.nonce.toNat ≠ 0 then 0 else byteLen h.nonce.toNat) buffer

/-! ### Reading -/

/-- An `int` after it has gone out of its range. -/
def wrapInt (n : Int) : Int := (BitVec.ofInt 64 n).toInt

/-- A length given in `size` bytes. -/
def readLength (pos size : Nat) : Result Int :=
  if pos + size ≤ buffer.length then .ok (wrapInt (beNat ((buffer.drop pos).take size)))
  else .panic "index out of range"

/-- The length that is announced, whether for a list, and the position behind it. -/
def decodeLengthForHashing (pos : Nat) : Result (Int × Bool × Nat) :=
  match buffer[pos]? with
  | none => .panic "index out of range"
  | some b =>
    let firstByte := b.toNat
    if firstByte < 128 then .ok (0, false, pos)
    else if firstByte < 184 then .ok (firstByte - 128, false, pos + 1)
    else if firstByte < 192 then do
      let length ← readLength buffer (pos + 1) (firstByte - 183)
      return (length, false, pos + 1 + (firstByte - 183))
    else if firstByte < 248 then .ok (firstByte - 192, true, pos + 1)
    else do
      let length ← readLength buffer (pos + 1) (firstByte - 247)
      return (length, true, pos + 1 + (firstByte - 247))

/-- `enc[lo:hi]`. -/
def slice (enc : Bytes) (lo : Nat) (hi : Int) : Result Bytes :=
  if lo ≤ hi ∧ hi ≤ enc.length then .ok ((enc.drop lo).take (hi.toNat - lo))
  else .panic "slice bounds out of range"

/-- What the reader of a field knows: its name, whether it is a hash, and whether the error for
one that is cut short prints it, rather than its first byte. -/
structure Item where
  name : String
  isHash : Bool
  printed : Bool

def nonceItem : Item := ⟨"Nonce", false, true⟩

def balanceItem : Item := ⟨"Balance", false, false⟩

def rootItem : Item := ⟨"Root", true, false⟩

def codeHashItem : Item := ⟨"CodeHash", true, true⟩

def storageSizeItem : Item := ⟨"StorageSize", false, true⟩

variable (item : Item) (enc : Bytes)

/-- The bytes of a field and the position behind it. -/
def readItem (pos : Nat) : Result (Bytes × Nat) := do
  let (length, structure_, newPos) ← decodeLengthForHashing enc pos
  let stop := wrapInt (newPos + length)
  if structure_ then do
    let _ ← slice enc pos stop
    .error s!"encoding of Account.{item.name} should be byte array, got RLP struct"
  else if item.isHash ∧ length ≠ 32 then
    .error s!"encoding of Account.{item.name} should have size 32"
  else if stop > enc.length then do
    let _ ← slice enc pos (if item.printed then stop else pos + 1)
    .error s!"malformed RLP for Account.{item.name}"
  else if length = 0 ∧ newPos = pos then do
    let bytes ← slice enc newPos (newPos + 1)
    return (bytes, newPos + 1)
  else do
    let bytes ← slice enc newPos stop
    return (bytes, stop.toNat)

/-- A field, if the input has not ended. -/
def readNext (pos : Nat) : Result (Option Bytes × Nat) :=
  if pos < enc.length then do
    let (bytes, pos) ← readItem item enc pos
    return (some bytes, pos)
  else .ok (none, pos)

/-- The account of which nothing has been read. -/
def cleared : HashedAccount := ⟨0, 0, IntraBlock.emptyRoot, emptyCodeHash⟩

/-- The fields.  The last one is an old field that is read over. -/
def readAll (pos : Nat) : Result HashedAccount := do
  let (nonce, pos) ← readNext nonceItem enc pos
  let (balance, pos) ← readNext balanceItem enc pos
  let (root, pos) ← readNext rootItem enc pos
  let (codeHash, pos) ← readNext codeHashItem enc pos
  let _ ← readNext storageSizeItem enc pos
  return {
    nonce := (nonce.map fun b => BitVec.ofNat 64 (beNat b)).getD 0
    balance := (balance.map fun b => BitVec.ofNat 256 (beNat b)).getD 0
    root := (root.map cleared.root.copy).getD cleared.root
    codeHash := (codeHash.map cleared.codeHash.copy).getD cleared.codeHash }

def decodeForHashing : Result HashedAccount := do
  let (length, structure_, pos) ← decodeLengthForHashing enc 0
  if wrapInt (pos + length) ≠ enc.length then .error "malformed RLP for Account"
  else if !structure_ then .error "encoding of Account should be RLP struct, got byte array"
  else if length = 0 then .ok cleared
  else readAll enc pos

/-! ### What is written -/

/-- A number with its length. -/
def rlpNumber (n : Nat) : Bytes :=
  if n < 128 ∧ n ≠ 0 then [UInt8.ofNat n] else UInt8.ofNat (128 + byteLen n) :: numberBytes n

/-- The fields one behind another. -/
def payload : Bytes :=
  rlpNumber h.nonce.toNat ++ (rlpNumber h.balance.toNat ++
    ((160 :: h.root.1) ++ (160 :: h.codeHash.1)))

def rlp : Bytes :=
  UInt8.ofNat (247 + byteLen h.payload.length) :: numberBytes h.payload.length ++ h.payload

variable {n : Nat}

theorem intLenExcludingHead_of_small (hn : n < 128 ∧ n ≠ 0) :
    intLenExcludingHead n = 0 := if_pos hn.1

theorem intLenExcludingHead_of_not_small (hn : ¬(n < 128 ∧ n ≠ 0)) :
    intLenExcludingHead n = byteLen n := by
  by_cases hlt : n < 128
  · have hzero : n = 0 := by omega
    rw [hzero]
    rfl
  · exact if_neg hlt

theorem rlpNumber_length (n : Nat) : (rlpNumber n).length = 1 + intLenExcludingHead n := by
  rw [rlpNumber]
  split
  · rename_i hn
    rw [intLenExcludingHead_of_small hn]
    rfl
  · rename_i hn
    rw [intLenExcludingHead_of_not_small hn, length_cons, numberBytes_length]
    omega

theorem puts_putNonce (n : Nat) : Puts (putNonce n (intLenExcludingHead n)) (rlpNumber n) := by
  intro front old hle
  have hlength := rlpNumber_length n
  have hbytes : (if n < 128 ∧ n ≠ 0 then [ofNat n] else
      ofNat (128 + intLenExcludingHead n) :: beBytes (intLenExcludingHead n) n) =
      rlpNumber n := by
    rw [rlpNumber]
    split
    · rfl
    · rename_i hn
      rw [intLenExcludingHead_of_not_small hn, numberBytes]
  rw [putNonce, hbytes, putAt_append hle, ok_bind, length_append, hlength, ← Nat.add_assoc]
  rfl

theorem puts_putBalance (n : Nat) : Puts (putBalance n (intLenExcludingHead n)) (rlpNumber n) := by
  rw [rlpNumber]
  by_cases hn : n < 128 ∧ n ≠ 0
  · have hwriter : putBalance n (intLenExcludingHead n) = putNext [ofNat n] := by
      funext buffer pos
      rw [putBalance, if_pos hn]
    rw [if_pos hn, hwriter]
    exact puts_putNext _
  · have hwriter : putBalance n (intLenExcludingHead n) = fun buffer pos =>
        putNext [ofNat (128 + byteLen n)] buffer pos >>= fun at_ =>
          putNext (numberBytes n) at_.1 at_.2 := by
      funext buffer pos
      rw [putBalance, if_neg hn, intLenExcludingHead_of_not_small hn]
      rfl
    rw [if_neg hn, hwriter]
    exact (puts_putNext [ofNat (128 + byteLen n)]).andThen (puts_putNext (numberBytes n))

theorem puts_putHash (hash : Hash) : Puts (putHash hash) (160 :: hash.1) :=
  (puts_putNext [128 + 32]).andThen (puts_copyNext hash.1)

theorem payload_length :
    h.payload.length =
      intLenExcludingHead h.balance.toNat + intLenExcludingHead h.nonce.toNat + 2 + 66 := by
  simp only [payload, length_append, length_cons, rlpNumber_length, h.root.2, h.codeHash.2]
  omega

theorem puts_putListHead :
    Puts (putListHead h.payload.length)
      (ofNat (247 + byteLen h.payload.length) :: numberBytes h.payload.length) := by
  have hwriter : putListHead h.payload.length = putNext
      (ofNat (247 + byteLen h.payload.length) :: numberBytes h.payload.length) := by
    funext buffer pos
    rw [putListHead, if_neg (by rw [payload_length]; omega)]
  rw [hwriter]
  exact puts_putNext _

variable {buffer enc : Bytes}

/-- Both writers put the same bytes at the beginning of the buffer. -/
theorem puts_putFields (hle : h.rlp.length ≤ buffer.length) :
    putFields h (intLenExcludingHead h.nonce.toNat) buffer =
      .ok (h.rlp ++ buffer.drop h.rlp.length, h.rlp.length) := by
  have hputs := (puts_putListHead h).andThen ((puts_putNonce h.nonce.toNat).andThen
    ((puts_putBalance h.balance.toNat).andThen
      ((puts_putHash h.root).andThen (puts_putHash h.codeHash))))
  simp only [putFields, ← payload_length]
  exact hputs [] buffer hle

theorem accountForHashing_eq (buffer : Bytes) :
    accountForHashing h buffer = putFields h (intLenExcludingHead h.nonce.toNat) buffer := by
  rw [accountForHashing]
  split
  · rename_i hn
    rw [intLenExcludingHead_of_small hn]
  · rename_i hn
    rw [intLenExcludingHead_of_not_small hn]

theorem encodingLengthForHashing_eq :
    h.encodingLengthForHashing = h.rlp.length := by
  have hlarge : 56 ≤ h.payload.length := by
    rw [payload_length]
    omega
  rw [encodingLengthForHashing, ← payload_length, listPrefixLen, if_pos hlarge]
  simp only [rlp, length_cons, length_append, numberBytes_length]
  omega

theorem encodeForHashing_eq
    (hlength : buffer.length = h.encodingLengthForHashing) :
    h.encodeForHashing buffer = .ok h.rlp := by
  rw [encodingLengthForHashing_eq] at hlength
  rw [encodeForHashing, puts_putFields h hlength.ge, ok_bind, ← hlength, drop_length,
    append_nil]
  rfl

/-! ### What is read back -/

theorem wrapInt_of_lt (hn : n < 2 ^ 63) : wrapInt n = n := by
  rw [wrapInt, BitVec.toInt_ofInt]
  exact Int.bmod_eq_of_le (by omega) (by omega)

theorem getElem?_front (front rest : Bytes) (b : UInt8) :
    (front ++ b :: rest)[front.length]? = some b := by
  rw [getElem?_append_right (Nat.le_refl _), Nat.sub_self]
  rfl

theorem slice_append (front piece back : Bytes) :
    slice (front ++ piece ++ back) front.length (front ++ piece).length = .ok piece := by
  rw [slice, if_pos (by simp only [length_append]; omega), Int.toNat_natCast, append_assoc,
    drop_left, length_append, Nat.add_sub_cancel_left, take_left]

/-- A string of fewer than 56 bytes behind its length. -/
theorem decodeLength_short {bytes : Bytes} (hlength : bytes.length < 56) (front back : Bytes) :
    decodeLengthForHashing (front ++ (ofNat (128 + bytes.length) :: bytes) ++ back)
      front.length = .ok (bytes.length, false, front.length + 1) := by
  have hbyte : (ofNat (128 + bytes.length)).toNat = 128 + bytes.length := by
    rw [toNat_ofNat']
    omega
  rw [decodeLengthForHashing, append_assoc, cons_append, getElem?_front]
  simp only [hbyte]
  rw [if_neg (by omega), if_pos (by omega)]
  simp

theorem gives_readItem_short {item : Item} {bytes : Bytes} (hlength : bytes.length < 56)
    (hhash : item.isHash → bytes.length = 32) :
    Gives bytes (readItem item) (ofNat (128 + bytes.length) :: bytes) := by
  intro front back hsize
  have hstop : wrapInt ((front.length + 1 : Nat) + (bytes.length : Int)) =
      (front.length + 1 + bytes.length : Nat) := by
    refine wrapInt_of_lt ?_
    simp only [length_append, length_cons] at hsize
    omega
  have hslice : slice (front ++ (ofNat (128 + bytes.length) :: bytes) ++ back)
      (front.length + 1) (front.length + 1 + bytes.length : Nat) = .ok bytes := by
    have happend := slice_append (front ++ [ofNat (128 + bytes.length)]) bytes back
    rw [append_assoc front, singleton_append] at happend
    rw [Nat.add_assoc, Nat.add_comm 1]
    simpa only [length_append, length_cons, length_nil] using happend
  have hinside : ¬((front.length + 1 + bytes.length : Nat) : Int) >
      (front ++ (ofNat (128 + bytes.length) :: bytes) ++ back).length := by
    simp only [length_append, length_cons]
    omega
  simp only [readItem, decodeLength_short hlength front back, ok_bind, hstop,
    Bool.false_eq_true, if_false]
  have hsized : ¬(item.isHash ∧ (bytes.length : Int) ≠ 32) := fun hwrong =>
    hwrong.2 (congrArg Nat.cast (hhash hwrong.1))
  rw [if_neg hsized, if_neg hinside, if_neg (by omega), hslice, ok_bind, Int.toNat_natCast,
    length_append, length_cons, Nat.add_assoc, Nat.add_comm 1]
  rfl

theorem byteLen_byte (hn : n < 256) (hne : n ≠ 0) : byteLen n = 1 := by
  have hle : n.size ≤ 8 := Nat.size_le.mpr hn
  have hpos : 0 < n.size := Nat.size_pos.mpr (Nat.pos_of_ne_zero hne)
  rw [byteLen]
  omega

theorem numberBytes_byte (hn : n < 256) (hne : n ≠ 0) : numberBytes n = [ofNat n] := by
  rw [numberBytes, byteLen_byte hn hne]
  rfl

theorem decodeLength_small {b : UInt8} (hb : b.toNat < 128) (front back : Bytes) :
    decodeLengthForHashing (front ++ [b] ++ back) front.length = .ok (0, false, front.length) := by
  rw [decodeLengthForHashing, append_assoc, singleton_append, getElem?_front]
  simp only [if_pos hb]

/-- A small byte is read as it is. -/
theorem gives_readItem_small {item : Item} (hhash : item.isHash = false) {b : UInt8}
    (hb : b.toNat < 128) : Gives [b] (readItem item) [b] := by
  intro front back hsize
  have hstop : wrapInt ((front.length : Nat) + 0) = front.length := by
    rw [Int.add_zero]
    refine wrapInt_of_lt ?_
    simp only [length_append] at hsize
    omega
  have hinside : ¬((front.length : Int) > (front ++ [b] ++ back).length) := by
    simp only [length_append]
    omega
  have hslice : slice (front ++ [b] ++ back) front.length (front.length + 1) = .ok [b] := by
    have happend := slice_append front [b] back
    rwa [length_append, length_singleton, Nat.cast_add, Nat.cast_one] at happend
  rw [length_append, length_singleton]
  simp only [readItem, decodeLength_small hb, ok_bind, hstop, hhash, Bool.false_eq_true,
    if_false, false_and, if_neg hinside, and_self, if_true]
  rw [hslice]
  rfl

theorem gives_readItem_number {item : Item} (hhash : item.isHash = false) (hn : byteLen n ≤ 32) :
    Gives (numberBytes n) (readItem item) (rlpNumber n) := by
  rw [rlpNumber]
  by_cases hsmall : n < 128 ∧ n ≠ 0
  · have hb : (ofNat n).toNat < 128 := by
      rw [toNat_ofNat']
      omega
    rw [if_pos hsmall, numberBytes_byte (by omega) hsmall.2]
    exact gives_readItem_small hhash hb
  · have hlength : (numberBytes n).length < 56 := by
      rw [numberBytes_length]
      omega
    have hgives : Gives (numberBytes n) (readItem item) _ :=
      gives_readItem_short hlength (by simp [hhash])
    rw [numberBytes_length] at hgives
    rwa [if_neg hsmall]

/-- Where there is a field, it is read. -/
theorem gives_readNext {item : Item} {bytes piece : Bytes} (hpos : 0 < piece.length)
    (hread : Gives bytes (readItem item) piece) :
    Gives (some bytes) (readNext item) piece := by
  intro front back hsize
  have hlt : front.length < (front ++ piece ++ back).length := by
    simp only [length_append]
    omega
  rw [readNext, if_pos hlt, hread front back hsize, ok_bind]
  rfl

theorem gives_readNext_number (hhash : item.isHash = false) (hn : byteLen n ≤ 32) :
    Gives (some (numberBytes n)) (readNext item) (rlpNumber n) := by
  refine gives_readNext ?_ (gives_readItem_number hhash hn)
  rw [rlpNumber_length]
  omega

theorem gives_readNext_hash (hash : Hash) :
    Gives (some hash.1) (readNext item) (160 :: hash.1) := by
  have hshort : hash.1.length < 56 := by
    rw [hash.2]
    decide
  have hgives : Gives hash.1 (readItem item) _ := gives_readItem_short hshort fun _ => hash.2
  rw [hash.2] at hgives
  exact gives_readNext (Nat.succ_pos _) hgives

/-- Nothing is read behind the end. -/
theorem readNext_end (enc : Bytes) :
    readNext item enc enc.length = .ok (none, enc.length) := if_neg (Nat.lt_irrefl _)

theorem readAll_payload (front : Bytes)
    (hsize : (front ++ h.payload).length < 2 ^ 63) :
    readAll (front ++ h.payload) front.length = .ok h := by
  have hnonce := gives_readNext_number nonceItem rfl (byteLen_toNat_le h.nonce (by decide)) front
    (rlpNumber h.balance.toNat ++ ((160 :: h.root.1) ++ (160 :: h.codeHash.1)))
  have hbalance := gives_readNext_number balanceItem rfl
    (byteLen_toNat_le h.balance (Nat.le_refl _)) (front ++ rlpNumber h.nonce.toNat)
    ((160 :: h.root.1) ++ (160 :: h.codeHash.1))
  have hroot := gives_readNext_hash rootItem h.root
    (front ++ rlpNumber h.nonce.toNat ++ rlpNumber h.balance.toNat) (160 :: h.codeHash.1)
  have hcode := gives_readNext_hash codeHashItem h.codeHash
    (front ++ rlpNumber h.nonce.toNat ++ rlpNumber h.balance.toNat ++ (160 :: h.root.1)) []
  rw [payload] at hsize ⊢
  simp only [append_assoc, append_nil] at hnonce hbalance hroot hcode
  simp only [readAll, hnonce hsize, hbalance hsize, hroot hsize, hcode hsize, ok_bind,
    readNext_end, Option.map_some, Option.getD_some, beNat_numberBytes, BitVec.ofNat_toNat,
    BitVec.setWidth_eq, Hash.copy_hash]
  rfl

theorem intLenExcludingHead_le {w : Nat} (x : BitVec w) (hw : w ≤ 256) :
    intLenExcludingHead x.toNat ≤ 32 := by
  have hle := byteLen_toNat_le x hw
  rw [intLenExcludingHead]
  split <;> omega

/-- The head of the list is two bytes long. -/
theorem rlp_eq :
    h.rlp = 248 :: ofNat h.payload.length :: h.payload ∧ h.payload.length < 256 := by
  have hnonce := intLenExcludingHead_le h.nonce (by decide)
  have hbalance := intLenExcludingHead_le h.balance (Nat.le_refl _)
  have hlength := payload_length h
  have hlt : h.payload.length < 256 := by omega
  have hne : h.payload.length ≠ 0 := by omega
  refine ⟨?_, hlt⟩
  rw [rlp, byteLen_byte hlt hne, numberBytes_byte hlt hne]
  rfl

theorem decodeForHashing_rlp : decodeForHashing h.rlp = .ok h := by
  obtain ⟨hrlp, hlt⟩ := rlp_eq h
  have hlength : h.rlp.length = 2 + h.payload.length := by
    rw [hrlp, length_cons, length_cons]
    omega
  have hne : (h.payload.length : Int) ≠ 0 := by
    have := payload_length h
    omega
  have hbyte : (ofNat h.payload.length).toNat = h.payload.length := by
    rw [toNat_ofNat']
    exact Nat.mod_eq_of_lt hlt
  have hread : readLength h.rlp 1 1 = .ok (h.payload.length : Int) := by
    have hbytes : beNat ((h.rlp.drop 1).take 1) = h.payload.length := by
      rw [hrlp]
      simp [beNat, hbyte]
    rw [readLength, if_pos (by omega), hbytes, wrapInt_of_lt (by omega)]
  have hdecode : decodeLengthForHashing h.rlp 0 = .ok (h.payload.length, true, 2) := by
    have hfirst : h.rlp[0]? = some 248 := by
      rw [hrlp]
      rfl
    simp only [decodeLengthForHashing, hfirst]
    refine (congrArg (· >>= fun length => ok (length, true, 2)) hread).trans ?_
    rfl
  have hwhole : wrapInt ((2 : Nat) + h.payload.length) = h.rlp.length := by
    rw [hlength, ← Nat.cast_add]
    exact wrapInt_of_lt (by omega)
  have hfields : readAll h.rlp 2 = .ok h := by
    have hall := readAll_payload h [248, ofNat h.payload.length]
    rw [cons_append, cons_append, nil_append, ← hrlp] at hall
    exact hall (by omega)
  simp only [decodeForHashing, hdecode, ok_bind, hwhole, ne_eq, not_true, if_false,
    Bool.not_true, Bool.false_eq_true, hne, hfields]

/-! ### What is not there -/

/-- The bytes of a length, if the first of them is `b`. -/
def headLength (b : UInt8) : Nat :=
  if b.toNat < 128 then 0
  else if b.toNat < 184 then 1
  else if b.toNat < 192 then 1 + (b.toNat - 183)
  else if b.toNat < 248 then 1
  else 1 + (b.toNat - 247)

/-- There is a length at the position, and all its bytes are there. -/
def HeadInside (enc : Bytes) (pos : Nat) : Prop :=
  ∃ b, enc[pos]? = some b ∧ pos + headLength b ≤ enc.length

/-- All that is looked at of a field is there: a list that stands in its place, and a string
unless its error leaves it out.  The end of a string is not before its beginning, as it would be
for a length that is no `int`. -/
def ItemInside (enc : Bytes) (pos : Nat) : Prop :=
  HeadInside enc pos ∧ ∀ length structure_ newPos,
    decodeLengthForHashing enc pos = .ok (length, structure_, newPos) →
      let stop := wrapInt (newPos + length)
      if structure_ then pos ≤ stop ∧ stop ≤ enc.length
      else if item.isHash ∧ length ≠ 32 then True
      else if stop > enc.length then item.printed = false
      else (length = 0 ∧ newPos = pos) ∨ newPos ≤ stop

/-- So it is for every field that is come to. -/
def ItemsInside : List Item → Bytes → Nat → Prop
  | [], _, _ => True
  | item :: items, enc, pos =>
    pos < enc.length → ItemInside item enc pos ∧
      ∀ bytes next, readItem item enc pos = .ok (bytes, next) → ItemsInside items enc next

theorem readLength_returns_iff {pos size : Nat} :
    (readLength buffer pos size).Returns ↔ pos + size ≤ buffer.length := by
  rw [readLength]
  split
  · rename_i hle
    exact iff_of_true (returns_ok _) hle
  · rename_i hle
    exact iff_of_false (not_returns_panic _) hle

theorem slice_returns_iff {lo : Nat} {hi : Int} :
    (slice enc lo hi).Returns ↔ lo ≤ hi ∧ hi ≤ enc.length := by
  rw [slice]
  split
  · rename_i hin
    exact iff_of_true (returns_ok _) hin
  · rename_i hin
    exact iff_of_false (not_returns_panic _) hin

theorem decodeLength_returns_iff {pos : Nat} :
    (decodeLengthForHashing enc pos).Returns ↔ HeadInside enc pos := by
  rw [decodeLengthForHashing, HeadInside]
  cases hbyte : enc[pos]? with
  | none =>
    refine iff_of_false (not_returns_panic _) ?_
    rintro ⟨b, hb, -⟩
    cases hb
  | some b =>
    have hlt : pos < enc.length := (List.getElem?_eq_some_iff.mp hbyte).1
    have hinside : (∃ b', some b = some b' ∧ pos + headLength b' ≤ enc.length) ↔
        pos + headLength b ≤ enc.length := by simp
    rw [hinside, headLength]
    simp only
    split_ifs with h1 h2 h3 h4
    · exact iff_of_true (returns_ok _) (by omega)
    · exact iff_of_true (returns_ok _) (by omega)
    · rw [returns_bind_iff, readLength_returns_iff, ← Nat.add_assoc]
      exact and_iff_left fun _ _ => returns_ok _
    · exact iff_of_true (returns_ok _) (by omega)
    · rw [returns_bind_iff, readLength_returns_iff, ← Nat.add_assoc]
      exact and_iff_left fun _ _ => returns_ok _

theorem HeadInside.lt {pos : Nat} (hhead : HeadInside enc pos) : pos < enc.length := by
  obtain ⟨b, hb, -⟩ := hhead
  exact (List.getElem?_eq_some_iff.mp hb).1

theorem readItem_returns_iff {item : Item} {pos : Nat} :
    (readItem item enc pos).Returns ↔ ItemInside item enc pos := by
  rw [readItem, returns_bind_iff, decodeLength_returns_iff, ItemInside]
  refine and_congr_right fun hhead => ?_
  have hlt := hhead.lt
  rw [Prod.forall]
  refine forall_congr' fun length => ?_
  rw [Prod.forall]
  refine forall_congr' fun structure_ => forall_congr' fun newPos => imp_congr_right fun _ => ?_
  simp only
  split_ifs with hlist hsized hpast hprinted hsmall
  · rw [returns_bind_iff, slice_returns_iff]
    exact and_iff_left fun _ _ => returns_error _
  · exact iff_of_true (returns_error _) trivial
  · refine iff_of_false (fun hreturns => ?_) (by simp [hprinted])
    have hin := slice_returns_iff.mp (returns_bind_iff.mp hreturns).1
    omega
  · refine iff_of_true (returns_bind_iff.mpr ⟨slice_returns_iff.mpr ?_, ?_⟩)
      (by simpa using hprinted)
    · omega
    · exact fun _ _ => returns_error _
  · refine iff_of_true (returns_bind_iff.mpr ⟨slice_returns_iff.mpr ?_, ?_⟩) (.inl hsmall)
    · omega
    · exact fun _ _ => returns_ok _
  · rw [returns_bind_iff, slice_returns_iff, or_iff_right hsmall]
    refine (and_iff_left fun _ _ => returns_ok _).trans (and_iff_left ?_)
    omega

theorem itemsInside_of_end {pos : Nat} (hend : ¬pos < enc.length) (items : List Item) :
    ItemsInside items enc pos := by
  cases items with
  | nil => trivial
  | cons item items => exact fun hlt => absurd hlt hend

/-- One field and those behind it. -/
theorem readNext_bind_returns_iff {A : Type} {item : Item} {items : List Item}
    {next : Option Bytes × Nat → Result A}
    (hnext : ∀ got pos, (next (got, pos)).Returns ↔ ItemsInside items enc pos) (pos : Nat) :
    (readNext item enc pos >>= next).Returns ↔ ItemsInside (item :: items) enc pos := by
  rw [readNext, ItemsInside]
  split
  · rename_i hlt
    rw [forall_prop_of_true hlt, ← readItem_returns_iff]
    cases hread : readItem item enc pos with
    | ok got =>
      have hall : (∀ bytes stop, ok got = .ok (bytes, stop) →
          ItemsInside items enc stop) ↔ ItemsInside items enc got.2 := by
        refine ⟨fun h => h got.1 got.2 rfl, ?_⟩
        rintro h bytes stop ⟨rfl⟩
        exact h
      rw [hall]
      exact (hnext (some got.1) got.2).trans (and_iff_right (returns_ok got)).symm
    | error text =>
      exact iff_of_true (returns_error text)
        ⟨returns_error text, fun _ _ h => by cases h⟩
    | panic text =>
      exact iff_of_false (not_returns_panic text) fun h => h.1 text rfl
  · rename_i hend
    rw [ok_bind, hnext]
    exact iff_of_true (itemsInside_of_end hend items) fun hlt => absurd hlt hend

def items : List Item := [nonceItem, balanceItem, rootItem, codeHashItem, storageSizeItem]

theorem readAll_returns_iff (enc : Bytes) (pos : Nat) :
    (readAll enc pos).Returns ↔ ItemsInside items enc pos := by
  refine readNext_bind_returns_iff (fun nonce pos => ?_) pos
  refine readNext_bind_returns_iff (fun balance pos => ?_) pos
  refine readNext_bind_returns_iff (fun root pos => ?_) pos
  refine readNext_bind_returns_iff (fun codeHash pos => ?_) pos
  refine readNext_bind_returns_iff (fun storageSize pos => ?_) pos
  exact iff_of_true (returns_ok _) trivial

/-- Exactly the inputs of which the reader looks at nothing that is not there. -/
theorem decodeForHashing_returns_iff (enc : Bytes) :
    (decodeForHashing enc).Returns ↔
      HeadInside enc 0 ∧ ∀ length pos, decodeLengthForHashing enc 0 = .ok (length, true, pos) →
        wrapInt (pos + length) = enc.length → length ≠ 0 → ItemsInside items enc pos := by
  rw [decodeForHashing, Result.returns_bind_iff, decodeLength_returns_iff]
  refine and_congr_right fun _ => ⟨fun h length pos hdecode hwhole hne => ?_, ?_⟩
  · have hreturns := h _ hdecode
    simp only [hwhole, hne, ne_eq, not_true, if_false, Bool.not_true, Bool.false_eq_true]
      at hreturns
    exact (readAll_returns_iff enc pos).mp hreturns
  · rintro h ⟨length, structure_, pos⟩ hdecode
    simp only
    split_ifs with hwhole hlist hzero
    · exact Result.returns_error _
    · exact Result.returns_error _
    · exact Result.returns_ok _
    · have htrue : structure_ = true := by simpa using hlist
      subst htrue
      exact (readAll_returns_iff enc pos).mpr (h length pos hdecode (not_not.mp hwhole) hzero)

/-- A nonce that announces 55 bytes of which there is one: the error prints them all. -/
theorem not_returns_cut_nonce : ¬(decodeForHashing [0xc2, 0xb7, 0x00]).Returns := by
  have hpanic : decodeForHashing [0xc2, 0xb7, 0x00] = .panic "slice bounds out of range" := by
    decide
  rw [hpanic]
  exact Result.not_returns_panic _

/-- All forms of an account are read back, a zero code hash as that of the empty code, from
buffers of the announced lengths; the cell writes the form that is hashed as the account does. -/
theorem account_read_back (a : Account) (root : Hash) :
    (∀ value : Bytes, value.length = serialiseV3Len a →
      ∃ enc, serialiseV3To a value = .ok enc ∧ enc.length = value.length ∧
        deserialiseV3 enc = some a.stored) ∧
    (∀ buffer : Bytes, buffer.length = encodingLengthForStorage a →
      ∃ enc, encodeForStorage a buffer = .ok enc ∧ enc.length = buffer.length ∧
        decodeForStorage enc = .ok a.stored) ∧
    (∃ enc, convertV3toV2 (serialiseV3 a) = .ok enc ∧ decodeForStorage enc = .ok a.stored) ∧
    let hashed : HashedAccount := ⟨a.nonce, a.balance, root, a.codeHash⟩
    ∀ buffer : Bytes, buffer.length = hashed.encodingLengthForHashing →
      ∃ enc, hashed.encodeForHashing buffer = .ok enc ∧ enc.length = buffer.length ∧
        decodeForHashing enc = .ok hashed ∧
        ∀ cell : Bytes, enc.length ≤ cell.length →
          hashed.accountForHashing cell = .ok (enc ++ cell.drop enc.length, enc.length) := by
  refine ⟨fun value hvalue => ?_, fun buffer hbuffer => ?_, ?_, ?_⟩
  · exact ⟨serialiseV3 a, serialiseV3To_eq a hvalue, (hvalue.trans (serialiseV3Len_eq a)).symm,
      deserialiseV3_serialiseV3 a⟩
  · exact ⟨storageForm a, encodeForStorage_eq a hbuffer,
      (hbuffer.trans (encodingLengthForStorage_eq a)).symm, decodeForStorage_storageForm a⟩
  · refine ⟨storageForm a.stored, convertV3toV2_serialiseV3 a, ?_⟩
    rw [decodeForStorage_storageForm, stored_stored]
  · intro hashed buffer hbuffer
    refine ⟨hashed.rlp, encodeForHashing_eq hashed hbuffer,
      (hbuffer.trans (encodingLengthForHashing_eq hashed)).symm, decodeForHashing_rlp hashed, ?_⟩
    intro cell hcell
    rw [accountForHashing_eq]
    exact puts_putFields hashed hcell

end HashedAccount

end Erigon
