/-
The searches of a B-tree index: the keys in memory narrow the numbers among which a key is, then
numbers are halved, and the last few are scanned.

`Get` finds what is there.  `Seek` takes bounds that meet to mean that the key was found in
memory.  They also meet where it falls between two neighbouring keys that are both in memory, or
behind a last key that is; if the lower of them was looked at last, the cursor stays at it.
-/
import Erigon.BpsNodes
import Erigon.OrderedLists

namespace Erigon

open List BtIndex Option

/-- Where `Seek` ends. -/
structure Cursor where
  d : Nat
  key : Bytes
  value : Bytes
deriving DecidableEq

namespace BtIndex

/-- An error about the bounds is none to the callers. -/
def boundsAsNone {A : Type} : Except BtFault (Option A) → Except BtFault (Option A)
  | .error .lookupBounds => .ok none
  | result => result

section Search

variable {data : DataFile} (b : BtIndex data) (key : Bytes)

/-- `BpsTree.bs` with the node that it looked at last. -/
def bsNodeLoop : Nat → Nat → Nat → Option Node → Nat → Nat → Option Node × Nat × Nat
  | 0, _, _, n, dl, dr => (n, dl, dr)
  | fuel + 1, l, r, n, dl, dr =>
    if l < r then
      let m := (l + r) / 2
      match b.mx[m]? with
      | none => (n, dl, dr)
      | some n =>
        if n.key = key then (some n, n.di, n.di)
        else if key < n.key then bsNodeLoop fuel l m (some n) dl n.di
        else bsNodeLoop fuel (m + 1) r (some n) (if n.di < dr then n.di + 1 else n.di) dr
    else (n, dl, dr)

def bsNode : Option Node × Nat × Nat :=
  b.bsNodeLoop key b.mx.length 0 b.mx.length none 0 b.offt.length

/-- `Cursor.readKV` for the key with a number. -/
def readKV (d : Nat) : Except BtFault (Bytes × Bytes) := do
  let (k, p) ← b.keyAt d
  let v ← data.valueAt p
  return (k, v)

/-- `Cursor.Reset` whose error is not looked at. -/
def reset (cur : Cursor) (di : Nat) : Except BtFault Cursor :=
  match b.readKV di with
  | .ok (k, v) => .ok ⟨di, k, v⟩
  | .error .panic => .error .panic
  | .error _ => .ok { cur with d := di }

/-- `Cursor.Next` whose outcome is not looked at. -/
def next (cur : Cursor) : Except BtFault Cursor :=
  if cur.d + 1 = b.offt.length then .ok cur else b.reset cur (cur.d + 1)

/-- The end of `BpsTree.Seek`. -/
def seekLast (m : Nat) : Except BtFault (Option Cursor) := do
  let (k, v) ← b.readKV m
  return if k < key then none else some ⟨m, k, v⟩

/-- The loop of `BpsTree.Seek`.  The number of the cursor is zero until the scan begins. -/
def seekLoop : Nat → Nat → Nat → Cursor → Except BtFault (Option Cursor)
  | 0, l, _, _ => b.seekLast key l
  | fuel + 1, l, r, cur =>
    if l < r then
      if r - l ≤ startSkip then
        match if cur.d = 0 then b.reset cur l else b.next cur with
        | .error e => .error e
        | .ok cur => if cur.key < key then seekLoop fuel (l + 1) r cur else .ok (some cur)
      else
        let m := (l + r) / 2
        match b.keyAt m with
        | .error e => .error e
        | .ok (k, _) =>
          if k = key then b.seekLast key m
          else if key < k then seekLoop fuel l m { cur with key := k }
          else seekLoop fuel (m + 1) r { cur with key := k }
    else b.seekLast key l

/-- `BpsTree.Seek`. -/
def seekTree : Except BtFault (Option Cursor) :=
  let cur : Cursor := ⟨0, [], []⟩
  if key = [] then (b.reset cur 0).map some
  else
    match b.bsNode key with
    | (n, l, r) =>
      if l = r then
        match n with
        | none => .error .panic
        | some n => (b.reset cur n.di).map some
      else b.seekLoop key (r - l) l r cur

/-- `BtIndex.Seek`. -/
def seek : Except BtFault (Option Cursor) :=
  if b.offt = [] then .ok none else boundsAsNone (b.seekTree key)

/-- The end of `BpsTree.Get`, with the value. -/
def getEntryLast (l : Nat) : Except BtFault (Option (Bytes × Nat)) := do
  let (k, p) ← b.keyAt l
  if k = key then
    let v ← data.valueAt p
    return some (v, b.offt.getD l 0)
  else return none

/-- The loop of `BpsTree.Get`, with the value; `pos` is where the reader is in the scan. -/
def getEntryLoop : Nat → Nat → Nat → Nat → Nat → Except BtFault (Option (Bytes × Nat))
  | 0, l, _, _, _ => b.getEntryLast key l
  | fuel + 1, l, r, offset, pos =>
    if l < r then
      if r - l ≤ startSkip then
        let start := if offset = 0 then b.offt.getD l 0 else offset
        let pos := if offset = 0 then b.offt.getD l 0 else pos
        match data.next false pos with
        | none => .error .panic
        | some (k, p) =>
          if k = key then
            match data.next true p with
            | none => .error .panic
            | some (v, _) => .ok (some (v, b.offt.getD l 0))
          else if key < k then .ok none
          else
            match data.next true p with
            | none => .error .panic
            | some (_, q) => getEntryLoop fuel (l + 1) r start q
      else
        let m := (l + r) / 2
        match b.keyAt m with
        | .error e => .error e
        | .ok (k, p) =>
          if k = key then (data.valueAt p).map fun v => some (v, b.offt.getD m 0)
          else if key < k then getEntryLoop fuel l m offset pos
          else getEntryLoop fuel (m + 1) r offset pos
    else b.getEntryLast key l

/-- `BtIndex.Get`: the value of a key and the key's offset. -/
def getEntry : Except BtFault (Option (Bytes × Nat)) :=
  if b.offt = [] ∨ key = [] then .ok none
  else
    let (l, r) := b.bs key
    boundsAsNone (b.getEntryLoop key (r - l) l r 0 0)

/-- The bounds meet although the node looked at last is that of a lower key. -/
def EndsBelow : Prop :=
  ∃ n, b.bsNode key = (some n, n.di + 1, n.di + 1) ∧ n.key < key

theorem bsNodeLoop_snd (fuel l r : Nat) (n : Option Node) (dl dr : Nat) :
    (b.bsNodeLoop key fuel l r n dl dr).2 = b.bsLoop key fuel l r dl dr := by
  induction fuel generalizing l r n dl dr with
  | zero => rfl
  | succ fuel ih =>
    rw [bsNodeLoop, bsLoop]
    split
    · dsimp only
      cases b.mx[(l + r) / 2]? with
      | none => rfl
      | some n =>
        dsimp only
        split
        · rfl
        · split
          · exact ih ..
          · exact ih ..
    · rfl

theorem bsNode_snd : (b.bsNode key).2 = b.bs key := b.bsNodeLoop_snd key _ _ _ _ _ _

end Search

end BtIndex

/-! ### The pre-search -/

namespace KvFile

variable {f : KvFile} {mx : List Node} {hmx : ∀ n ∈ mx, n.di < f.offt.length} {x : Bytes}

theorem keys_ascending (f : KvFile) : f.keys.Pairwise (· < ·) :=
  pairwise_map.mpr f.ascending

theorem rankOf_le_offt (f : KvFile) (x : Bytes) : rankOf f.keys x ≤ f.offt.length := by
  rw [f.offt_length, ← f.keys_length]
  exact (takeWhile_sublist _).length_le

/-- Bounds about the place of a key, with the node that was looked at last: one of the bounds is
next to it. -/
structure Between (f : KvFile) (x : Bytes) (n : Option Node) (dl dr : Nat) : Prop where
  lower : dl ≤ rankOf f.keys x
  upper : rankOf f.keys x ≤ dr
  inside : dr ≤ f.offt.length
  start : n = none → dl = 0 ∧ dr = f.offt.length
  last : ∀ node, n = some node → f.keys[node.di]? = some node.key ∧
    (node.key < x ∧ dl = node.di + 1 ∨ x < node.key ∧ dr = node.di)

theorem Between.initial (f : KvFile) (x : Bytes) : Between f x none 0 f.offt.length :=
  ⟨Nat.zero_le _, f.rankOf_le_offt x, Nat.le_refl _, fun _ => ⟨rfl, rfl⟩, fun _ h => by cases h⟩

variable {n : Option Node} {dl dr fuel l r i : Nat}

/-- A node of a lower key. -/
theorem Between.right {node : Node} (h : Between f x n dl dr)
    (hnode : f.keys[node.di]? = some node.key) (hlt : node.key < x) :
    Between f x (some node) (if node.di < dr then node.di + 1 else node.di) dr := by
  have hrank : node.di < rankOf f.keys x := (lt_rankOf_iff f.keys_ascending hnode).mpr hlt
  rw [if_pos (Nat.lt_of_lt_of_le hrank h.upper)]
  refine ⟨hrank, h.upper, h.inside, by simp, ?_⟩
  rintro node' ⟨rfl⟩
  exact ⟨hnode, .inl ⟨hlt, rfl⟩⟩

/-- A node of a higher key. -/
theorem Between.left {node : Node} (h : Between f x n dl dr)
    (hnode : f.keys[node.di]? = some node.key) (hlt : x < node.key) :
    Between f x (some node) dl node.di := by
  have hrank : ¬node.di < rankOf f.keys x := fun hbelow =>
    lt_asymm hlt ((lt_rankOf_iff f.keys_ascending hnode).mp hbelow)
  refine ⟨h.lower, Nat.le_of_not_lt hrank, (f.lt_of_keys hnode).le, by simp, ?_⟩
  rintro node' ⟨rfl⟩
  exact ⟨hnode, .inr ⟨hlt, rfl⟩⟩

/-- The key is found in memory, or it lies between the bounds. -/
theorem bsNodeLoop_spec (hkeyed : Keyed f.keys mx) (h : Between f x n dl dr) :
    (∃ node, (f.index mx hmx).bsNodeLoop x fuel l r n dl dr = (some node, node.di, node.di) ∧
      f.keys[node.di]? = some x ∧ node.key = x) ∨
    ∃ n' dl' dr', (f.index mx hmx).bsNodeLoop x fuel l r n dl dr = (n', dl', dr') ∧
      Between f x n' dl' dr' := by
  induction fuel generalizing l r n dl dr with
  | zero => exact .inr ⟨n, dl, dr, rfl, h⟩
  | succ fuel ih =>
    rw [bsNodeLoop]
    split
    · dsimp only
      cases hm : (f.index mx hmx).mx[(l + r) / 2]? with
      | none => exact .inr ⟨n, dl, dr, rfl, h⟩
      | some node =>
        have hnode : f.keys[node.di]? = some node.key :=
          hkeyed node (mem_of_getElem? hm)
        dsimp only
        split
        · rename_i hkey
          exact .inl ⟨node, rfl, hkey ▸ hnode, hkey⟩
        · rename_i hne
          split
          · rename_i hlt
            exact ih (h.left hnode hlt)
          · rename_i hlt
            exact ih (h.right hnode (lt_of_le_of_ne (not_lt.mp hlt) hne))
    · exact .inr ⟨n, dl, dr, rfl, h⟩

theorem bsNode_spec (hkeyed : Keyed f.keys mx) (x : Bytes) :
    (∃ node, (f.index mx hmx).bsNode x = (some node, node.di, node.di) ∧
      f.keys[node.di]? = some x ∧ node.key = x) ∨
    ∃ n dl dr, (f.index mx hmx).bsNode x = (n, dl, dr) ∧ Between f x n dl dr :=
  bsNodeLoop_spec hkeyed (Between.initial f x)

/-! ### Seeking -/

variable {k v : Bytes}

theorem exists_entry_of_keys (hk : f.keys[i]? = some k) : ∃ v, f.entries[i]? = some (k, v) := by
  rw [keys, List.getElem?_map, map_eq_some_iff] at hk
  obtain ⟨⟨k', v⟩, hentry, rfl⟩ := hk
  exact ⟨v, hentry⟩

section Entry

variable (h : f.entries[i]? = some (k, v))

include h

theorem lt_of_entry : i < f.offt.length := f.lt_of_keys (f.getElem?_keys h)

/-- The place of a key is behind the lower ones. -/
theorem lt_rank_iff : i < rankOf f.keys x ↔ k < x :=
  lt_rankOf_iff f.keys_ascending (f.getElem?_keys h)

theorem rank_of_entry : rankOf f.keys k = i :=
  rankOf_eq_of_getElem? f.keys_ascending (f.getElem?_keys h)

theorem readKV_index : (f.index mx hmx).readKV i = .ok (k, v) := by
  obtain ⟨k', v', p, hentry, hkey, hvalue⟩ := f.keyAt_index (lt_of_entry h)
  rw [h, some.injEq, Prod.mk.injEq] at hentry
  obtain ⟨rfl, rfl⟩ := hentry
  rw [readKV, hkey]
  exact congrArg (Except.map fun v => (k, v)) hvalue

theorem reset_index {cur : Cursor} : (f.index mx hmx).reset cur i = .ok ⟨i, k, v⟩ := by
  rw [reset, readKV_index h]

theorem le_of_rank_le (hi : rankOf f.keys x ≤ i) : x ≤ k :=
  not_lt.mp fun hlt => Nat.not_lt.mpr hi ((lt_rank_iff h).mpr hlt)

/-- A key that is read above the one sought bounds its place. -/
theorem rank_le_of_lt (hlt : x < k) : rankOf f.keys x ≤ i :=
  Nat.not_lt.mp fun hbelow => lt_asymm hlt ((lt_rank_iff h).mp hbelow)

/-- A key that is read below the one sought is before its place. -/
theorem lt_rank_of_ne (hnot : ¬x < k) (hne : k ≠ x) : i < rankOf f.keys x :=
  (lt_rank_iff h).mpr (lt_of_le_of_ne (not_lt.mp hnot) hne)

end Entry

theorem keyAt_of_le (hi : f.offt.length ≤ i) : (f.index mx hmx).keyAt i = .error .lookupBounds := by
  have hnone : (f.index mx hmx).offt[i]? = none := getElem?_eq_none hi
  rw [keyAt, hnone]

/-- The cursor at a number, as the search finds it. -/
def cursorAt (f : KvFile) (i : Nat) : Except BtFault (Option Cursor) :=
  match f.entries[i]? with
  | none => .error .lookupBounds
  | some (k, v) => .ok (some ⟨i, k, v⟩)

theorem cursorAt_of_entry (h : f.entries[i]? = some (k, v)) :
    f.cursorAt i = .ok (some ⟨i, k, v⟩) := by rw [cursorAt, h]

theorem cursorAt_of_le (hi : f.offt.length ≤ i) : f.cursorAt i = .error .lookupBounds := by
  rw [cursorAt, getElem?_eq_none (le_of_eq_of_le f.offt_length.symm hi)]

theorem readKV_of_le (hi : f.offt.length ≤ i) :
    (f.index mx hmx).readKV i = .error .lookupBounds := by
  rw [readKV, keyAt_of_le hi]
  rfl

/-- A key that is not below the one that is sought. -/
theorem seekLast_index (hentry : f.entries[i]? = some (k, v)) (hle : x ≤ k) :
    (f.index mx hmx).seekLast x i = f.cursorAt i := by
  rw [seekLast, readKV_index hentry, cursorAt_of_entry hentry]
  exact congrArg Except.ok (if_neg (not_lt.mpr hle))

/-- At the place of the key the search ends there. -/
theorem seekLast_rank :
    (f.index mx hmx).seekLast x (rankOf f.keys x) = f.cursorAt (rankOf f.keys x) := by
  by_cases hi : rankOf f.keys x < f.offt.length
  · obtain ⟨k, v, offset, p, q, hentry, -⟩ := f.exists_entry hi
    exact seekLast_index hentry (le_of_rank_le hentry (Nat.le_refl _))
  · rw [seekLast, readKV_of_le (Nat.le_of_not_lt hi), cursorAt_of_le (Nat.le_of_not_lt hi)]
    rfl

/-- In the scan the cursor comes to the number `l`. -/
theorem scan_index {cur : Cursor} (hentry : f.entries[l]? = some (k, v))
    (hcur : cur.d = 0 ∨ cur.d + 1 = l) :
    (if cur.d = 0 then (f.index mx hmx).reset cur l else (f.index mx hmx).next cur) =
      .ok ⟨l, k, v⟩ := by
  split
  · exact reset_index hentry
  · rename_i hne
    have hd : cur.d + 1 = l := hcur.resolve_left hne
    have hmore : ¬cur.d + 1 = (f.index mx hmx).offt.length := by
      rw [hd]
      exact Nat.ne_of_lt (lt_of_entry hentry)
    rw [BtIndex.next, if_neg hmore, hd]
    exact reset_index hentry

/-- The search goes to the place of the key. -/
theorem seekLoop_spec {cur : Cursor} (hfuel : r - l ≤ fuel) (hl : l ≤ rankOf f.keys x)
    (hr : rankOf f.keys x ≤ r) (hin : r ≤ f.offt.length)
    (hcur : cur.d = 0 ∨ (cur.d + 1 = l ∧ r - l ≤ startSkip)) :
    (f.index mx hmx).seekLoop x fuel l r cur = f.cursorAt (rankOf f.keys x) := by
  induction fuel generalizing l r cur with
  | zero =>
    have hrank : l = rankOf f.keys x := by omega
    rw [seekLoop, hrank, seekLast_rank]
  | succ fuel ih =>
    rw [seekLoop]
    split
    · rename_i hlt
      split
      · rename_i hscan
        obtain ⟨k, v, offset, p, q, hentry, -⟩ := f.exists_entry (Nat.lt_of_lt_of_le hlt hin)
        rw [scan_index hentry (hcur.imp_right And.left)]
        dsimp only
        split
        · rename_i hk
          have hbelow := (lt_rank_iff hentry).mpr hk
          exact ih (by omega) hbelow hr hin (.inr ⟨rfl, by omega⟩)
        · rename_i hk
          have hnot : ¬l < rankOf f.keys x := fun hbelow => hk ((lt_rank_iff hentry).mp hbelow)
          have hrank : rankOf f.keys x = l := by omega
          rw [hrank, cursorAt_of_entry hentry]
      · rename_i hwide
        have hzero : cur.d = 0 := hcur.resolve_right fun h => hwide h.2
        have hm : (l + r) / 2 < f.offt.length := by omega
        obtain ⟨k, v, p, hentry, hkey, -⟩ := f.keyAt_index hm
        dsimp only
        rw [hkey]
        dsimp only
        split
        · rename_i hk
          subst hk
          rw [seekLast_index hentry le_rfl, rank_of_entry hentry]
        · rename_i hne
          split
          · rename_i hk
            have hrank := rank_le_of_lt hentry hk
            exact ih (by omega) hl (by omega) (by omega) (.inl hzero)
          · rename_i hk
            have hbelow := lt_rank_of_ne hentry hk hne
            exact ih (by omega) hbelow hr hin (.inl hzero)
    · have hrank : l = rankOf f.keys x := by omega
      rw [hrank, seekLast_rank]

/-- The cursor is at the least key that is not below the one sought; there is none if all keys
are. -/
def SeeksLeast (f : KvFile) (x : Bytes) : Except BtFault (Option Cursor) → Prop
  | .ok (some cur) => f.entries[cur.d]? = some (cur.key, cur.value) ∧ x ≤ cur.key ∧
      ∀ e ∈ f.entries, x ≤ e.1 → cur.key ≤ e.1
  | .ok none => ∀ e ∈ f.entries, e.1 < x
  | .error _ => False

theorem key_le_of_rank (hentry : f.entries[i]? = some (k, v)) (hi : i = rankOf f.keys x)
    {e : Bytes × Bytes} (he : e ∈ f.entries) (hle : x ≤ e.1) :
    k ≤ e.1 := by
  obtain ⟨j, hj⟩ := List.getElem?_of_mem he
  have hplace : ¬j < i := fun hlt => not_lt.mpr hle ((lt_rank_iff hj).mp (hi ▸ hlt))
  by_contra hlt
  exact hplace (rank_of_entry hentry ▸ (lt_rank_iff hj).mpr (not_le.mp hlt))

/-- The cursor at the place of the key. -/
theorem seeksLeast_rank (hentry : f.entries[rankOf f.keys x]? = some (k, v)) :
    SeeksLeast f x (.ok (some ⟨rankOf f.keys x, k, v⟩)) :=
  ⟨hentry, le_of_rank_le hentry (Nat.le_refl _), fun _ he hle => key_le_of_rank hentry rfl he hle⟩

theorem seeksLeast_none (h : f.offt.length ≤ rankOf f.keys x) : SeeksLeast f x (.ok none) := by
  intro e he
  obtain ⟨j, hj⟩ := List.getElem?_of_mem he
  exact (lt_rank_iff hj).mp (Nat.lt_of_lt_of_le (lt_of_entry hj) h)

/-- What `BtIndex.Seek` makes of the cursor at the place of the key. -/
theorem seeksLeast_cursorAt : SeeksLeast f x (boundsAsNone (f.cursorAt (rankOf f.keys x))) := by
  by_cases hi : rankOf f.keys x < f.offt.length
  · obtain ⟨k, v, offset, p, q, hentry, -⟩ := f.exists_entry hi
    rw [cursorAt_of_entry hentry]
    exact seeksLeast_rank hentry
  · rw [cursorAt_of_le (Nat.le_of_not_lt hi)]
    exact seeksLeast_none (Nat.le_of_not_lt hi)

theorem seek_of_ne (hn : f.offt ≠ []) :
    (f.index mx hmx).seek x = boundsAsNone ((f.index mx hmx).seekTree x) := if_neg hn

theorem seek_of_reset {n : Node} (hn : f.offt ≠ []) (hx : x ≠ [])
    (hbs : (f.index mx hmx).bsNode x = (some n, l, l)) (hentry : f.entries[n.di]? = some (k, v)) :
    (f.index mx hmx).seek x = .ok (some ⟨n.di, k, v⟩) := by
  have htree : (f.index mx hmx).seekTree x = .ok (some ⟨n.di, k, v⟩) := by
    simp only [seekTree, if_neg hx, hbs, if_true, reset_index hentry]
    rfl
  rw [seek_of_ne hn, htree]
  rfl

/-- The cursor is right unless the bounds meet at a node of a lower key. -/
theorem seek_index_iff (hkeyed : Keyed f.keys mx) (hx : x ≠ []) :
    SeeksLeast f x ((f.index mx hmx).seek x) ↔ ¬(f.index mx hmx).EndsBelow x := by
  by_cases hempty : f.offt = []
  · have hnone : (f.index mx hmx).seek x = .ok none := if_pos hempty
    have hno (n : Node) (hn : f.keys[n.di]? = some n.key) : False := by
      have hlt := f.lt_of_keys hn
      rw [hempty] at hlt
      exact Nat.not_lt_zero _ hlt
    rw [hnone]
    refine iff_of_true (seeksLeast_none (by rw [hempty]; exact Nat.zero_le _)) ?_
    rintro ⟨n', hbs', -⟩
    rcases bsNode_spec hkeyed x with ⟨n, hbs, hfound, hkey⟩ | ⟨n, dl, dr, hbs, hbetween⟩
    · exact hno n (hkey ▸ hfound)
    · rw [hbs, Prod.mk.injEq] at hbs'
      exact hno n' (hbetween.last n' hbs'.1).1
  · rcases bsNode_spec hkeyed x with ⟨n, hbs, hfound, hkey⟩ | ⟨n, dl, dr, hbs, hbetween⟩
    · -- The key is in memory.
      obtain ⟨v, hentry⟩ := exists_entry_of_keys hfound
      have hrank : rankOf f.keys x = n.di := rank_of_entry hentry
      rw [seek_of_reset hempty hx hbs hentry]
      refine iff_of_true ?_ ?_
      · rw [← hrank] at hentry ⊢
        exact seeksLeast_rank hentry
      · rintro ⟨n', hbs', hlt⟩
        rw [hbs, Prod.mk.injEq, some.injEq] at hbs'
        rw [← hbs'.1, hkey] at hlt
        exact lt_irrefl x hlt
    · by_cases hmeet : dl = dr
      · subst hmeet
        have hrank : rankOf f.keys x = dl := le_antisymm hbetween.upper hbetween.lower
        cases n with
        | none =>
          obtain ⟨hzero, hall⟩ := hbetween.start rfl
          exact absurd (eq_nil_of_length_eq_zero (hall.symm.trans hzero)) hempty
        | some n =>
          obtain ⟨hn, hside⟩ := hbetween.last n rfl
          obtain ⟨v, hentry⟩ := exists_entry_of_keys hn
          rw [seek_of_reset hempty hx hbs hentry]
          rcases hside with ⟨hlt, hdl⟩ | ⟨hlt, hdr⟩
          · -- The lower node was looked at last.
            refine iff_of_false (fun hleast => not_le.mpr hlt hleast.2.1) ?_
            exact not_not.mpr ⟨n, by rw [hbs, hdl], hlt⟩
          · refine iff_of_true ?_ ?_
            · rw [← hdr, ← hrank] at hentry
              rw [← hdr, ← hrank]
              exact seeksLeast_rank hentry
            · rintro ⟨n', hbs', hlt'⟩
              rw [hbs, Prod.mk.injEq, some.injEq] at hbs'
              rw [← hbs'.1] at hlt'
              exact lt_asymm hlt hlt'
      · have hloop : (f.index mx hmx).seekTree x = f.cursorAt (rankOf f.keys x) := by
          simp only [seekTree, if_neg hx, hbs, if_neg hmeet]
          exact seekLoop_spec (Nat.le_refl _) hbetween.lower hbetween.upper hbetween.inside
            (.inl rfl)
        refine iff_of_true ?_ ?_
        · rw [seek_of_ne hempty, hloop]
          exact seeksLeast_cursorAt
        · rintro ⟨n', hbs', -⟩
          rw [hbs, Prod.mk.injEq, Prod.mk.injEq] at hbs'
          exact hmeet (hbs'.2.1.trans hbs'.2.2.symm)

/-- A file of one key. -/
def single (k v : Bytes) (hk : k ≠ []) : KvFile where
  data :=
    { size := 2
      dataLen := 2
      next := fun _ offset =>
        if offset = 0 then some (k, 1) else if offset = 1 then some (v, 2) else none
      dataLen_le := Nat.le_refl 2
      size_lt := by decide }
  entries := [(k, v)]
  offt := [0]
  offt_length := rfl
  length_lt := Nat.one_lt_two_pow (by decide)
  reads := by
    intro i offset k' v' hoffset hentry
    cases i with
    | zero =>
      obtain rfl : 0 = offset := by simpa using hoffset
      obtain ⟨rfl, rfl⟩ : k = k' ∧ v = v' := by simpa using hentry
      exact ⟨1, 2, rfl, rfl, rfl, rfl, by simp⟩
    | succ i => simp at hoffset
  key_ne_nil := by simpa using hk
  ascending := pairwise_singleton _ _

def oneKey : KvFile := single [1] [7] (by decide)

/-- The index that keeps the key. -/
def oneKeyIndex : BtIndex oneKey.data := oneKey.index [⟨[1], 0⟩] (by decide)

/-- What a search of the tree may answer: the value and the offset of the key, or nothing, also
as an error about the bounds, where there is no such key. -/
def Answers (f : KvFile) (x : Bytes) : Except BtFault (Option (Bytes × Nat)) → Prop
  | .ok (some (v, offset)) => ∃ i : Nat, f.entries[i]? = some (x, v) ∧ f.offt[i]? = some offset
  | .ok none => x ∉ f.keys
  | .error e => e = .lookupBounds ∧ x ∉ f.keys

theorem not_mem_keys_of_ne (hentry : f.entries[rankOf f.keys x]? = some (k, v)) (hne : k ≠ x) :
    x ∉ f.keys := by
  intro hmem
  obtain ⟨i, hi⟩ := List.getElem?_of_mem hmem
  have hkey := f.getElem?_keys hentry
  rw [rankOf_eq_of_getElem? f.keys_ascending hi, hi] at hkey
  exact hne (some.inj hkey).symm

theorem not_mem_keys_of_end (hend : f.offt.length ≤ rankOf f.keys x) : x ∉ f.keys := by
  intro hmem
  obtain ⟨i, hi⟩ := List.getElem?_of_mem hmem
  have hlt := f.lt_of_keys hi
  rw [rankOf_eq_of_getElem? f.keys_ascending hi] at hend
  omega

/-- The key was read, with its value behind it. -/
theorem answers_found (hentry : f.entries[i]? = some (x, v)) :
    Answers f x (.ok (some (v, f.offt.getD i 0))) := by
  refine ⟨i, hentry, ?_⟩
  simp [lt_of_entry hentry]

theorem getEntryLast_answers : Answers f x ((f.index mx hmx).getEntryLast x (rankOf f.keys x)) := by
  rw [getEntryLast]
  by_cases hi : rankOf f.keys x < f.offt.length
  · obtain ⟨k, v, p, hentry, hkey, hvalue⟩ := f.keyAt_index hi
    rw [hkey]
    by_cases hk : k = x
    · subst hk
      have hread : (f.data.valueAt p >>= fun v =>
          (pure (some (v, f.offt.getD (rankOf f.keys k) 0)) : Except BtFault _)) =
          .ok (some (v, f.offt.getD (rankOf f.keys k) 0)) := by rw [hvalue]; rfl
      exact Eq.subst (motive := Answers f k) (Eq.trans hread.symm (if_pos rfl).symm)
        (answers_found hentry)
    · exact Eq.subst (motive := Answers f x) (if_neg hk).symm
        (show Answers f x (.ok none) from not_mem_keys_of_ne hentry hk)
  · rw [keyAt_of_le (Nat.le_of_not_lt hi)]
    exact ⟨rfl, not_mem_keys_of_end (Nat.le_of_not_lt hi)⟩

/-- In the scan the reader stands before the key with the number `l`. -/
theorem getEntryLoop_answers {offset pos : Nat} (hfuel : r - l ≤ fuel) (hl : l ≤ rankOf f.keys x)
    (hr : rankOf f.keys x ≤ r) (hin : r ≤ f.offt.length)
    (hpos : l < r → offset = 0 ∨ (f.offt[l]? = some pos ∧ r - l ≤ startSkip)) :
    Answers f x ((f.index mx hmx).getEntryLoop x fuel l r offset pos) := by
  induction fuel generalizing l r offset pos with
  | zero =>
    have hrank : l = rankOf f.keys x := by omega
    rw [getEntryLoop, hrank]
    exact getEntryLast_answers
  | succ fuel ih =>
    rw [getEntryLoop]
    split
    · rename_i hlt
      split
      · rename_i hscan
        obtain ⟨k, v, start, p, q, hentry, hoffset, hkey, hvalue, -, -, hfollowing⟩ :=
          f.exists_entry (Nat.lt_of_lt_of_le hlt hin)
        have hread : (if offset = 0 then (f.index mx hmx).offt.getD l 0 else pos) = start := by
          split
          · exact (congrArg (Option.getD · 0) hoffset : f.offt[l]?.getD 0 = start)
          · rename_i hne
            have hat := ((hpos hlt).resolve_left hne).1
            exact Option.some.inj (hat.symm.trans hoffset)
        dsimp only
        rw [hread, hkey]
        dsimp only
        split
        · rename_i hk
          subst hk
          rw [hvalue]
          exact answers_found hentry
        · rename_i hne
          split
          · rename_i hk
            have hrank : l = rankOf f.keys x := Nat.le_antisymm hl (rank_le_of_lt hentry hk)
            exact not_mem_keys_of_ne (hrank ▸ hentry) hne
          · rename_i hk
            have hbelow := lt_rank_of_ne hentry hk hne
            rw [hvalue]
            refine ih (by omega) hbelow hr hin fun hmore => .inr ⟨?_, by omega⟩
            have hnext := getElem?_eq_getElem (Nat.lt_of_lt_of_le hmore hin)
            rw [hnext, hfollowing _ hnext]
      · rename_i hwide
        have hzero : offset = 0 := (hpos hlt).resolve_right fun h => hwide h.2
        have hm : (l + r) / 2 < f.offt.length := by omega
        obtain ⟨k, v, p, hentry, hkey, hvalue⟩ := f.keyAt_index hm
        dsimp only
        rw [hkey]
        dsimp only
        split
        · rename_i hk
          subst hk
          rw [hvalue]
          exact answers_found hentry
        · rename_i hne
          split
          · rename_i hk
            have hrank := rank_le_of_lt hentry hk
            exact ih (by omega) hl (by omega) (by omega) fun _ => .inl hzero
          · rename_i hk
            have hbelow := lt_rank_of_ne hentry hk hne
            exact ih (by omega) hbelow hr hin fun _ => .inl hzero
    · have hrank : l = rankOf f.keys x := by omega
      rw [hrank]
      exact getEntryLast_answers

/-- The bounds are about the place of the key, also where it was found in memory. -/
theorem bs_bounds (hkeyed : Keyed f.keys mx) (x : Bytes) :
    ((f.index mx hmx).bs x).1 ≤ rankOf f.keys x ∧ rankOf f.keys x ≤ ((f.index mx hmx).bs x).2 ∧
      ((f.index mx hmx).bs x).2 ≤ f.offt.length := by
  rw [← bsNode_snd]
  rcases bsNode_spec hkeyed x with ⟨n, hbs, hfound, -⟩ | ⟨n, dl, dr, hbs, hbetween⟩
  · rw [hbs, rankOf_eq_of_getElem? f.keys_ascending hfound]
    exact ⟨Nat.le_refl _, Nat.le_refl _, (f.lt_of_keys hfound).le⟩
  · rw [hbs]
    exact ⟨hbetween.lower, hbetween.upper, hbetween.inside⟩

/-- The answer that the caller gets. -/
theorem Answers.settled {result : Except BtFault (Option (Bytes × Nat))} (h : Answers f x result) :
    ∃ answer, boundsAsNone result = .ok answer ∧ Answers f x (.ok answer) := by
  cases result with
  | ok answer => exact ⟨answer, rfl, h⟩
  | error e =>
    obtain ⟨rfl, hnot⟩ := h
    exact ⟨none, rfl, hnot⟩

theorem getEntry_index (hkeyed : Keyed f.keys mx) (hx : x ≠ []) :
    ∃ answer, (f.index mx hmx).getEntry x = .ok answer ∧ Answers f x (.ok answer) := by
  by_cases hempty : f.offt = []
  · refine ⟨none, if_pos (.inl hempty), not_mem_keys_of_end ?_⟩
    rw [hempty]
    exact Nat.zero_le _
  · obtain ⟨hl, hr, hin⟩ : ((f.index mx hmx).bs x).1 ≤ _ ∧ _ := bs_bounds hkeyed x
    have hloop : Answers f x ((f.index mx hmx).getEntryLoop x _ _ _ 0 0) :=
      getEntryLoop_answers (Nat.le_refl _) hl hr hin fun _ => .inl rfl
    have hget : (f.index mx hmx).getEntry x = _ := if_neg (not_or.mpr ⟨hempty, hx⟩)
    rw [hget]
    exact hloop.settled

end KvFile

end Erigon
