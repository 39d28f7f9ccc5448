/-
The index over the keys of a data file: offsets of the keys, cached keys to narrow a
search, and a scan of the file at its end.  What a search finds is there.
-/
import Erigon.ByteOrder

namespace Erigon

/-- A data file as a reader sees it: `next` decodes the word at an offset, which the flag
says to be a value or a key, and gives the offset behind it; it is `none` where the
decoder panics. -/
structure DataFile where
  size : Nat
  dataLen : Nat
  next : Bool → Nat → Option (Bytes × Nat)
  dataLen_le : dataLen ≤ size
  size_lt : size < 2 ^ 63

/-- How a search may fail: `ErrBtIndexLookupBounds`, another error, or a panic. -/
inductive BtFault
  | lookupBounds | notFound | panic
deriving DecidableEq

namespace DataFile

variable (data : DataFile) (offset : Nat)

/-- `HasNext` at an offset. -/
def hasNext : Bool := decide (offset < data.dataLen)

/-- A key that a reader finds at an offset. -/
def HasKey (key : Bytes) : Prop :=
  data.hasNext offset = true ∧ ∃ behind, data.next false offset = some (key, behind)

/-- The read of the value of a key that was found. -/
def valueAt : Except BtFault Bytes :=
  if data.hasNext offset then
    match data.next true offset with
    | none => .error .panic
    | some (v, _) => .ok v
  else .error .notFound

end DataFile

structure Node where
  key : Bytes
  di : Nat

/-- `BtIndex` with its tree, for a file: the offsets are those of the keys, which are
followed by their values and those by the next key. -/
structure BtIndex (data : DataFile) where
  offt : List Nat
  mx : List Node
  nodes : ∀ n ∈ mx, n.di < offt.length
  pairs : ∀ i offset, offt[i]? = some offset → ∃ k p v q,
    data.next false offset = some (k, p) ∧ data.next true p = some (v, q) ∧
    data.hasNext offset = true ∧ data.hasNext p = true ∧
    ∀ following, offt[i + 1]? = some following → q = following

namespace BtIndex

/-- `DefaultBtreeStartSkip`. -/
def startSkip : Nat := 4

section Search

variable {data : DataFile} (b : BtIndex data) (key : Bytes)

/-- The reading part of `keyCmp`: the key with a number, and the offset behind it. -/
def keyAt (di : Nat) : Except BtFault (Bytes × Nat) :=
  match b.offt[di]? with
  | none => .error .lookupBounds
  | some offset =>
    if data.hasNext offset then
      match data.next false offset with
      | none => .error .panic
      | some found => .ok found
    else .error .notFound

/-- `BpsTree.bs`: the numbers among which the key is, from the cached keys. -/
def bsLoop : Nat → Nat → Nat → Nat → Nat → Nat × Nat
  | 0, _, _, dl, dr => (dl, dr)
  | fuel + 1, l, r, dl, dr =>
    if l < r then
      let m := (l + r) / 2
      match b.mx[m]? with
      | none => (dl, dr)
      | some n =>
        if n.key = key then (n.di, n.di)
        else if key < n.key then bsLoop fuel l m dl n.di
        else bsLoop fuel (m + 1) r (if n.di < dr then n.di + 1 else n.di) dr
    else (dl, dr)

def bs : Nat × Nat := b.bsLoop key b.mx.length 0 b.mx.length 0 b.offt.length

/-- The end of `BpsTree.Get`, where one number is left. -/
def getLast (l : Nat) : Except BtFault (Option Nat) := do
  let (k, p) ← b.keyAt l
  if k = key then
    let _ ← data.valueAt p
    return b.offt[l]?
  else return none

/-- The loop of `BpsTree.Get`; `offset` is zero until the scan begins, and `pos` is where
the reader is in the scan. -/
def getLoop : Nat → Nat → Nat → Nat → Nat → Except BtFault (Option Nat)
  | 0, l, _, _, _ => b.getLast key l
  | fuel + 1, l, r, offset, pos =>
    if l < r then
      if r - l ≤ startSkip then
        let start := if offset = 0 then b.offt.getD l 0 else offset
        let pos := if offset = 0 then b.offt.getD l 0 else pos
        match data.next false pos with
        | none => .error .panic
        | some (v, p) =>
          if v = key then
            match data.next true p with
            | none => .error .panic
            | some _ => .ok b.offt[l]?
          else if key < v then .ok none
          else
            match data.next true p with
            | none => .error .panic
            | some (_, q) => getLoop fuel (l + 1) r start q
      else
        let m := (l + r) / 2
        match b.keyAt m with
        | .error e => .error e
        | .ok (k, p) =>
          if k = key then (data.valueAt p).map fun _ => b.offt[m]?
          else if key < k then getLoop fuel l m offset pos
          else getLoop fuel (m + 1) r offset pos
    else b.getLast key l

/-- `BtIndex.Get`: the offset of a key, if it is found.  No file has an empty key. -/
def get : Except BtFault (Option Nat) :=
  if b.offt = [] ∨ key = [] then .ok none
  else
    let (l, r) := b.bs key
    match b.getLoop key (r - l) l r 0 0 with
    | .error .lookupBounds => .ok none
    | result => result

end Search

/-! ### What is found -/

/-- A search that does not panic and finds nothing but the key. -/
def Sound (data : DataFile) (key : Bytes) (result : Except BtFault (Option Nat)) : Prop :=
  match result with
  | .error e => e ≠ .panic
  | .ok none => True
  | .ok (some offset) => data.HasKey offset key

section Found

variable {data : DataFile} {b : BtIndex data} {key : Bytes}

theorem keyAt_ne_panic (l : Nat) : b.keyAt l ≠ .error .panic := by
  unfold keyAt
  cases hoffset : b.offt[l]? with
  | none => simp
  | some offset =>
    obtain ⟨k, p, -, -, hnext, -⟩ := b.pairs l offset hoffset
    dsimp only
    rw [hnext]
    split <;> simp

variable {l p fuel r : Nat}

theorem keyAt_ok {k : Bytes} (h : b.keyAt l = .ok (k, p)) :
    ∃ offset, b.offt[l]? = some offset ∧ data.HasKey offset k ∧
      ∃ v q, data.next true p = some (v, q) := by
  unfold keyAt at h
  cases hoffset : b.offt[l]? with
  | none => simp [hoffset] at h
  | some offset =>
    obtain ⟨k', p', v, q, hkey, hvalue, hhas, -⟩ := b.pairs l offset hoffset
    simp only [hoffset, hhas, hkey, if_true, Except.ok.injEq, Prod.mk.injEq] at h
    obtain ⟨rfl, rfl⟩ := h
    exact ⟨offset, rfl, ⟨hhas, p', hkey⟩, v, q, hvalue⟩

/-- A key that was read and is the one looked for. -/
theorem found_sound (h : b.keyAt l = .ok (key, p)) :
    Sound data key ((data.valueAt p).map fun _ => b.offt[l]?) := by
  obtain ⟨offset, hoffset, hkey, v, q, hvalue⟩ := keyAt_ok h
  unfold DataFile.valueAt
  rw [hvalue]
  split
  · rw [hoffset]
    exact hkey
  · simp [Sound, Except.map]

theorem sound_of_fault {e : BtFault} (h : b.keyAt l = .error e) : Sound data key (.error e) := by
  rintro rfl
  exact b.keyAt_ne_panic l h

theorem getLast_sound (l : Nat) : Sound data key (b.getLast key l) := by
  unfold getLast
  cases hat : b.keyAt l with
  | error e => exact sound_of_fault hat
  | ok found =>
    obtain ⟨k, p⟩ := found
    change Sound data key (if k = key then _ else _)
    split
    · rename_i hk
      subst hk
      exact found_sound hat
    · trivial

/-- Before the scan the reader is nowhere; in the scan it stands before the key with the
number `l`. -/
theorem getLoop_sound {offset pos : Nat} (hr : r ≤ b.offt.length)
    (hpos : l < r → offset = 0 ∨ (b.offt[l]? = some pos ∧ r - l ≤ startSkip)) :
    Sound data key (b.getLoop key fuel l r offset pos) := by
  induction fuel generalizing l r offset pos with
  | zero => exact getLast_sound l
  | succ fuel ih =>
    rw [getLoop]
    split
    · rename_i hlt
      split
      · rename_i hscan
        dsimp only
        have hat : b.offt[l]? = some (if offset = 0 then b.offt.getD l 0 else pos) := by
          rcases hpos hlt with hzero | ⟨hpos, -⟩
          · simp [hzero, List.getElem?_eq_getElem (show l < b.offt.length by omega)]
          · by_cases hzero : offset = 0
            · simp [hzero, hpos]
            · simp [hzero, hpos]
        generalize (if offset = 0 then b.offt.getD l 0 else pos) = at' at hat ⊢
        obtain ⟨v, p, w, q, hkey, hvalue, hhas, -, hfollowing⟩ := b.pairs l at' hat
        simp only [hkey, hvalue]
        split
        · rename_i hv
          subst hv
          rw [hat]
          exact ⟨hhas, p, hkey⟩
        · split
          · trivial
          · refine ih hr fun h => .inr ⟨?_, by omega⟩
            have hnext := List.getElem?_eq_getElem (show l + 1 < b.offt.length by omega)
            rw [hnext, hfollowing _ hnext]
      · have hzero : offset = 0 := (hpos hlt).resolve_right fun h => by omega
        cases hat : b.keyAt ((l + r) / 2) with
        | error e =>
          simp only [hat]
          exact sound_of_fault hat
        | ok found =>
          obtain ⟨k, p⟩ := found
          simp only [hat]
          split
          · rename_i hk
            subst hk
            exact found_sound hat
          · split
            · exact ih (by omega) fun _ => .inl hzero
            · exact ih hr fun _ => .inl hzero
    · exact getLast_sound l

theorem bsLoop_le {dl dr : Nat} (hdr : dr ≤ b.offt.length) :
    (b.bsLoop key fuel l r dl dr).2 ≤ b.offt.length := by
  induction fuel generalizing l r dl dr with
  | zero => exact hdr
  | succ fuel ih =>
    rw [bsLoop]
    split
    · dsimp only
      cases hn : b.mx[(l + r) / 2]? with
      | none => exact hdr
      | some n =>
        have hdi := Nat.le_of_lt (b.nodes n (List.mem_of_getElem? hn))
        dsimp only
        split
        · exact hdi
        · split
          · exact ih hdi
          · exact ih hdr
    · exact hdr

theorem get_sound (b : BtIndex data) (key : Bytes) : Sound data key (b.get key) := by
  unfold get
  split
  · trivial
  · have hloop : Sound data key (b.getLoop key ((b.bs key).2 - (b.bs key).1) (b.bs key).1
        (b.bs key).2 0 0) :=
      getLoop_sound (bsLoop_le (Nat.le_refl _)) fun _ => .inl rfl
    dsimp only
    split
    · trivial
    · exact hloop

end Found

end BtIndex

end Erigon
