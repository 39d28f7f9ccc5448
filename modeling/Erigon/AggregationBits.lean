/-
Aggregation bits: a bit list ends with its highest set bit, wherever the bytes below it end.
Two lists merge over the bytes of the first, and an attestation reads its attesters from the
committees it names, one after another.
-/
import Mathlib.Data.Nat.Bitwise
import Erigon.ByteCodec
import Erigon.Query

namespace Erigon

open List

/-- The bytes, the cap and the stored length, which `Bits` does not look at. -/
structure BitList where
  u : Bytes
  c : Nat
  l : Nat
deriving DecidableEq

namespace BitList

def newBitList (l c : Nat) : BitList := ⟨List.replicate (l + 32) 0, c, l⟩

def bitlistFromBytes (xs : Bytes) (c : Nat) : BitList := ⟨xs, c, xs.length⟩

variable (b : BitList)

def copy : BitList := { newBitList b.l b.c with u := b.u }

def set (index : Nat) (v : UInt8) : BitList := { b with u := b.u.set index v }

/-- `bits.Len8`. -/
def len8 (x : UInt8) : Nat := if x = 0 then 0 else x.toNat.log2 + 1

/-- The loop from the last byte to the first that is not zero. -/
def bits : Nat :=
  match b.u.reverse.dropWhile (· == 0) with
  | [] => 0
  | last :: before => 8 * before.length + len8 last - 1

/-- The bit of the bytes, past the highest one too. -/
def bitOf (u : Bytes) (i : Nat) : Bool := (u.getD (i / 8) 0).toNat.testBit (i % 8)

def getBitAt (i : Nat) : Bool := if b.bits ≤ i then false else bitOf b.u i

/-- `ret.u[i] |= unionFrom.u[i]` for each byte of `unionFrom`. -/
def orBytes : Bytes → Bytes → Result Bytes
  | ret, [] => .ok ret
  | [], _ :: _ => .panic "index out of range"
  | r :: ret, x :: unionFrom => (orBytes ret unionFrom).map ((r ||| x) :: ·)

def merge (other : BitList) : Result BitList :=
  if b.bits ≠ other.bits then .error "bitlist union: different length"
  else (orBytes other.copy.u b.u).map fun u => { other.copy with u := u }

/-- A list with a sentinel has its highest set bit at `bits`. -/
theorem bits_highest (h : ∃ x ∈ b.u, x ≠ 0) :
    bitOf b.u b.bits = true ∧ ∀ i, b.bits < i → bitOf b.u i = false := by
  obtain ⟨u, c, l⟩ := b
  induction u using List.reverseRecOn with
  | nil => simp at h
  | append_singleton u x ih =>
    by_cases hx : x = 0
    · -- A zero byte at the end changes neither the highest bit nor any other.
      subst hx
      have hbits : bits ⟨u ++ [0], c, l⟩ = bits ⟨u, c, l⟩ := by simp [bits]
      have hbit : bitOf (u ++ [0]) = bitOf u := by
        funext i
        rcases Nat.lt_or_ge (i / 8) u.length with hi | hi
        · rw [bitOf, getD_append _ _ _ _ hi, bitOf]
        · rw [bitOf, getD_append_right _ _ _ _ hi, bitOf, getD_eq_default _ _ hi]
          cases i / 8 - u.length <;> rfl
      rw [hbits, hbit]
      exact ih (by simpa using h)
    · have hne : x.toNat ≠ 0 := fun h0 => hx (UInt8.toNat_inj.mp h0)
      have hlog : x.toNat.log2 < 8 := (Nat.log2_lt hne).mpr x.toNat_lt
      have hbits : bits ⟨u ++ [x], c, l⟩ = 8 * u.length + x.toNat.log2 := by
        simp [bits, len8, hx]
      rw [hbits]
      refine ⟨?_, fun i hi => ?_⟩
      · rw [bitOf, show (8 * u.length + x.toNat.log2) / 8 = u.length by omega,
          show (8 * u.length + x.toNat.log2) % 8 = x.toNat.log2 by omega,
          getD_append_right _ _ _ _ le_rfl, Nat.sub_self]
        exact Nat.testBit_log2 hne
      · rw [bitOf, getD_append_right _ _ _ _ (by omega)]
        rcases hk : i / 8 - u.length with _ | k
        · exact Nat.testBit_lt_two_pow ((Nat.log2_lt hne).mp (by omega))
        · exact Nat.zero_testBit _

theorem bits_eq_of_highest {b : BitList} {n : Nat} (hn : bitOf b.u n = true)
    (hlast : ∀ i, n < i → bitOf b.u i = false) : b.bits = n := by
  have hsome : ∃ x ∈ b.u, x ≠ 0 := by
    by_contra hzero
    push Not at hzero
    have hget : b.u.getD (n / 8) 0 = 0 := by
      rcases Nat.lt_or_ge (n / 8) b.u.length with hlt | hge
      · rw [getD_eq_getElem _ _ hlt]
        exact hzero _ (getElem_mem hlt)
      · exact getD_eq_default _ _ hge
    rw [bitOf, hget] at hn
    exact absurd hn (by simp)
  obtain ⟨htop, habove⟩ := bits_highest b hsome
  rcases Nat.lt_trichotomy b.bits n with hlt | heq | hgt
  · exact absurd hn (by simp [habove n hlt])
  · exact heq
  · exact absurd htop (by simp [hlast _ hgt])

theorem orBytes_panic {ret unionFrom : Bytes} (h : ret.length < unionFrom.length) :
    orBytes ret unionFrom = .panic "index out of range" := by
  induction unionFrom generalizing ret with
  | nil => simp at h
  | cons x unionFrom ih =>
    cases ret with
    | nil => rfl
    | cons r ret => rw [orBytes, ih (Nat.lt_of_succ_lt_succ h), Result.map]

theorem orBytes_ok {ret unionFrom : Bytes} (h : unionFrom.length ≤ ret.length) :
    ∃ u, orBytes ret unionFrom = .ok u ∧
      ∀ k, u.getD k 0 = ret.getD k 0 ||| unionFrom.getD k 0 := by
  induction unionFrom generalizing ret with
  | nil => exact ⟨ret, by rw [orBytes], fun k => by simp⟩
  | cons x unionFrom ih =>
    cases ret with
    | nil => simp at h
    | cons r ret =>
      obtain ⟨u, hu, hor⟩ := ih (Nat.le_of_succ_le_succ h)
      refine ⟨(r ||| x) :: u, by rw [orBytes, hu, Result.map], fun k => ?_⟩
      cases k with
      | zero => rfl
      | succ k => exact hor k

/-- The list that a merge is to return. -/
def Union (other ret : BitList) : Prop :=
  ret.bits = b.bits ∧ ∀ i, ret.getBitAt i = (b.getBitAt i || other.getBitAt i)

/-- Two lists of equally many bits are merged exactly when the first has no more bytes. -/
theorem merge_union_iff (b other : BitList) (hb : ∃ x ∈ b.u, x ≠ 0) (hother : ∃ x ∈ other.u, x ≠ 0)
    (hbits : b.bits = other.bits) :
    (∃ ret, b.merge other = .ok ret ∧ Union b other ret) ↔ b.u.length ≤ other.u.length := by
  refine ⟨fun ⟨ret, hret, _⟩ => ?_, fun hlen => ?_⟩
  · by_contra hlen
    rw [merge, if_neg (not_not.mpr hbits), copy, orBytes_panic (Nat.lt_of_not_le hlen)] at hret
    exact nomatch hret
  · obtain ⟨u, hu, hor⟩ := orBytes_ok hlen
    have hbit : ∀ i, bitOf u i = (bitOf other.u i || bitOf b.u i) := fun i => by
      rw [bitOf, hor, UInt8.toNat_or, Nat.testBit_or, bitOf, bitOf]
    obtain ⟨htop, habove⟩ := bits_highest b hb
    have hret : bits { other.copy with u := u } = b.bits := by
      refine bits_eq_of_highest ?_ fun i hi => ?_
      · rw [hbit, htop, Bool.or_true]
      · rw [hbit, habove i hi, (bits_highest other hother).2 i (hbits ▸ hi), Bool.or_false]
    refine ⟨{ other.copy with u := u }, ?_, hret, fun i => ?_⟩
    · rw [merge, if_neg (not_not.mpr hbits), copy, hu, Result.map]
    · rw [getBitAt, hret, getBitAt, getBitAt, ← hbits, hbit]
      split
      · rfl
      · exact Bool.or_comm ..

/-- Eight bits from a byte string, and the same bits with 33 bytes below them. -/
theorem merge_union_iff_bytes :
    ∃ ret, (bitlistFromBytes [5, 1] 8).merge ((newBitList 1 8).set 1 1) = .ok ret ∧
      Union (bitlistFromBytes [5, 1] 8) ((newBitList 1 8).set 1 1) ret :=
  (merge_union_iff _ _ ⟨5, by decide, by decide⟩ ⟨1, by decide, by decide⟩ (by decide)).mpr
    (by decide)

/-- The other way round the loop runs past the copy. -/
theorem merge_longer_panics :
    ((newBitList 1 8).set 1 1).bits = (bitlistFromBytes [5, 1] 8).bits ∧
      ((newBitList 1 8).set 1 1).merge (bitlistFromBytes [5, 1] 8) =
        .panic "index out of range" := by
  decide

end BitList

/-- `BitVector`, of the committees an attestation is for. -/
structure BitVector where
  bitLen : Nat
  container : Bytes

def BitVector.getBitAt (b : BitVector) (i : Nat) : Bool :=
  if b.bitLen ≤ i then false else BitList.bitOf b.container i

def BitVector.getOnIndices (b : BitVector) : List Nat :=
  (List.range b.bitLen).filter b.getBitAt

/-- `solid.Attestation`, with the fields of its data that are read here. -/
structure Attestation where
  slot : Nat
  committeeIndex : Nat
  aggregationBits : BitList
  committeeBits : BitVector

namespace Attestation

/-- The errors, with the values their texts print. -/
inductive AttestingError
  | committee (reason : String)
  | invalidAggregationBits (aggBitsSize expect : Nat)
  | committeeTooBig
  | aggregationBitsTooSmall (slot committeeIndex aggrBitsLen committeeSize : Nat)
deriving DecidableEq

/-- `utils.GetBitlistLength`, of the last byte only. -/
def getBitlistLength (b : Bytes) : Nat :=
  match b.getLast? with
  | none => 0
  | some last => if BitList.len8 last = 0 then 0 else 8 * (b.length - 1) + BitList.len8 last - 1

/-- The loop over one committee up to the Deneb version. -/
def denebMembers (aggregationBits : Bytes) : Nat → List Nat → Except AttestingError (List Nat)
  | _, [] => .ok []
  | i, member :: committee =>
    if aggregationBits.length ≤ i / 8 then .error .committeeTooBig
    else do
      let attesters ← denebMembers aggregationBits (i + 1) committee
      .ok (if BitList.bitOf aggregationBits i then member :: attesters else attesters)

/-- The loop over one committee from the Electra version on. -/
def electraMembers (bits : BitList) (offset : Nat) (tooSmall : AttestingError) :
    Nat → List Nat → Except AttestingError (List Nat)
  | _, [] => .ok []
  | i, member :: committee =>
    if bits.bits ≤ i then .error tooSmall
    else do
      let attesters ← electraMembers bits offset tooSmall (i + 1) committee
      .ok (if bits.getBitAt (offset + i) then member :: attesters else attesters)

section Committees

variable (getBeaconCommitee : Nat → Nat → Except AttestingError (List Nat))

def electraCommittees (slot : Nat) (bits : BitList) :
    Nat → List Nat → Except AttestingError (List Nat)
  | _, [] => .ok []
  | offset, committeeIndex :: indices => do
    let committee ← getBeaconCommitee slot committeeIndex
    let tooSmall := .aggregationBitsTooSmall slot committeeIndex bits.bits committee.length
    let attesters ← electraMembers bits offset tooSmall 0 committee
    let others ← electraCommittees slot bits (offset + committee.length) indices
    .ok (attesters ++ others)

/-- `CachingBeaconState.GetAttestingIndicies`, of a state given by its committees and by the
slots of versions up to Deneb. -/
def getAttestingIndicies (upToDeneb : Nat → Bool) (attestation : Attestation)
    (checkBitsLength : Bool) : Except AttestingError (List Nat) :=
  if upToDeneb attestation.slot then do
    let bits := attestation.aggregationBits
    let aggregationBits := bits.u.take bits.l
    let committee ← getBeaconCommitee attestation.slot attestation.committeeIndex
    if checkBitsLength ∧ getBitlistLength aggregationBits ≠ committee.length then
      .error (.invalidAggregationBits (getBitlistLength aggregationBits) committee.length)
    else denebMembers aggregationBits 0 committee
  else
    electraCommittees getBeaconCommitee attestation.slot attestation.aggregationBits 0
      attestation.committeeBits.getOnIndices

variable (bits : BitList) (offset : Nat)

/-- The members at the set positions, the first of them at `offset`. -/
def membersAt (members : List Nat) : List Nat :=
  ((members.zipIdx offset).filter fun e => bits.getBitAt e.2).map Prod.fst

theorem membersAt_cons (member : Nat) (members : List Nat) :
    membersAt bits offset (member :: members) =
      if bits.getBitAt offset then member :: membersAt bits (offset + 1) members
      else membersAt bits (offset + 1) members := by
  rw [membersAt, zipIdx_cons, filter_cons]
  split <;> rfl

theorem electraMembers_eq (tooSmall : AttestingError)
    (committee : List Nat) (i : Nat) (hi : i ≤ bits.bits) :
    electraMembers bits offset tooSmall i committee =
      if i + committee.length ≤ bits.bits then .ok (membersAt bits (offset + i) committee)
      else .error tooSmall := by
  induction committee generalizing i with
  | nil => simp [electraMembers, membersAt, hi]
  | cons member committee ih =>
    rw [electraMembers, length_cons, ← Nat.add_assoc, Nat.add_right_comm]
    by_cases hend : bits.bits ≤ i
    · rw [if_pos hend, if_neg (by omega)]
    · rw [if_neg hend, ih (i + 1) (by omega), membersAt_cons]
      split <;> rfl

/-- A run over the committees fails exactly when one of them alone has more members than there
are bits. -/
theorem electraCommittees_eq (slot : Nat) (bits : BitList) (offset : Nat) {indices : List Nat}
    {committees : List (List Nat)}
    (h : List.Forall₂ (fun i c => getBeaconCommitee slot i = .ok c) indices committees) :
    if ∀ c ∈ committees, c.length ≤ bits.bits then
      electraCommittees getBeaconCommitee slot bits offset indices =
        .ok (membersAt bits offset committees.flatten)
    else ∃ e, electraCommittees getBeaconCommitee slot bits offset indices = .error e := by
  induction h generalizing offset with
  | nil => simp [electraCommittees, membersAt]
  | @cons index committee indices committees hcommittee _ ih =>
    have hrun := ih (offset + committee.length)
    simp only [electraCommittees, bind, Except.bind, hcommittee, Nat.zero_add, Nat.add_zero,
      electraMembers_eq _ _ _ _ _ (Nat.zero_le _), forall_mem_cons]
    by_cases hlen : committee.length ≤ bits.bits
    · by_cases hall : ∀ c ∈ committees, c.length ≤ bits.bits
      · rw [if_pos hall] at hrun
        rw [if_pos ⟨hlen, hall⟩]
        simp only [if_pos hlen, hrun, flatten_cons, membersAt, zipIdx_append,
          filter_append, map_append]
      · rw [if_neg hall] at hrun
        obtain ⟨e, he⟩ := hrun
        rw [if_neg fun h => hall h.2]
        simp only [if_pos hlen, he]
        exact ⟨e, rfl⟩
    · rw [if_neg fun h => hlen h.1]
      simp only [if_neg hlen]
      exact ⟨_, rfl⟩

/-- What the attesters of committees are to be. -/
def AttestersOf (committees : List (List Nat))
    (returned : Except AttestingError (List Nat)) : Prop :=
  if bits.bits < (committees.map List.length).sum then ∃ e, returned = .error e
  else returned = .ok (membersAt bits 0 committees.flatten)

/-- Bits for fewer than all members are refused exactly when one committee alone has more. -/
theorem getAttestingIndicies_iff (upToDeneb : Nat → Bool) (attestation : Attestation)
    (checkBitsLength : Bool) (committees : List (List Nat))
    (helectra : upToDeneb attestation.slot = false)
    (h : List.Forall₂ (fun i c => getBeaconCommitee attestation.slot i = .ok c)
      attestation.committeeBits.getOnIndices committees) :
    AttestersOf attestation.aggregationBits committees
        (getAttestingIndicies getBeaconCommitee upToDeneb attestation checkBitsLength) ↔
      (committees.map List.length).sum ≤ attestation.aggregationBits.bits ∨
        ∃ c ∈ committees, attestation.aggregationBits.bits < c.length := by
  have hrun := electraCommittees_eq getBeaconCommitee attestation.slot
    attestation.aggregationBits 0 h
  rw [AttestersOf, getAttestingIndicies, helectra, if_neg Bool.false_ne_true]
  by_cases hall : ∀ c ∈ committees, c.length ≤ attestation.aggregationBits.bits
  · rw [if_pos hall] at hrun
    rw [hrun]
    by_cases hsum : attestation.aggregationBits.bits < (committees.map List.length).sum
    · simpa [hsum] using hall
    · simp [hsum, Nat.le_of_not_lt hsum]
  · rw [if_neg hall] at hrun
    obtain ⟨c, hc, hlong⟩ : ∃ c ∈ committees, attestation.aggregationBits.bits < c.length := by
      simpa using hall
    have hsum : attestation.aggregationBits.bits < (committees.map List.length).sum :=
      hlong.trans_le (single_le_sum (fun _ _ => Nat.zero_le _) _ (mem_map_of_mem hc))
    rw [if_pos hsum]
    exact ⟨fun _ => .inr ⟨c, hc, hlong⟩, fun _ => hrun⟩

end Committees

/-- Two committees of two members, all of them attesting with four bits. -/
theorem getAttestingIndicies_two :
    AttestersOf ⟨[0x1F], 64, 1⟩ [[3, 4], [5, 6]]
      (getAttestingIndicies (fun _ i => .ok (if i = 0 then [3, 4] else [5, 6])) (fun _ => false)
        ⟨8, 0, ⟨[0x1F], 64, 1⟩, ⟨2, [3]⟩⟩ true) :=
  (getAttestingIndicies_iff _ _ ⟨8, 0, ⟨[0x1F], 64, 1⟩, ⟨2, [3]⟩⟩ _ [[3, 4], [5, 6]] rfl
    (.cons rfl (.cons rfl .nil))).mpr (by decide)

/-- Three bits for the same four members are taken. -/
theorem getAttestingIndicies_short :
    (⟨[0x0F], 64, 1⟩ : BitList).bits = 3 ∧
      getAttestingIndicies (fun _ i => .ok (if i = 0 then [3, 4] else [5, 6])) (fun _ => false)
        ⟨8, 0, ⟨[0x0F], 64, 1⟩, ⟨2, [3]⟩⟩ true = .ok [3, 4, 5] := by
  decide

end Attestation

end Erigon
