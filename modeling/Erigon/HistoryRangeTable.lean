/-
State patches, and the stream over the table of a history: it is the patch of the
changes the table holds.  The table is walked by subtrees, so no key may begin
another one; where the number of a transaction is a part of the key, the start of
the range is compared with what follows the beginning of a key.
-/
import Erigon.HistoryRange

namespace Erigon

open List

/-- The values that keys had before transactions that changed them. -/
abbrev History := Bytes → Nat → Option Bytes

/-- The numbers from `fromTxNum` on and before `toTxNum`. -/
def txRange (fromTxNum toTxNum : Int) : Set Nat :=
  {n | (0 ≤ fromTxNum → fromTxNum ≤ n) ∧ (0 ≤ toTxNum → n < toTxNum)}

/-- The transactions of a set that changed a key. -/
def changesIn (h : History) (txNums : Set Nat) (k : Bytes) : Set Nat :=
  {n | n ∈ txNums ∧ (h k n).isSome}

/-- Each key that changed, once and in ascending order, with its value before the
first change. -/
structure UnwindPatch (h : History) (txNums : Set Nat) (items : List (Bytes × Bytes)) : Prop where
  ascending : items.Pairwise fun a b => a.1 < b.1
  mem_iff : ∀ k v, (k, v) ∈ items ↔ ∃ n, IsLeast (changesIn h txNums k) n ∧ h k n = some v

/-- No key begins another one. -/
def KeysApart (h : History) : Prop :=
  ∀ k l m n, (h k m).isSome → (h l n).isSome → k <+: l → l = k

/-- All numbers are those of an `int`. -/
def TxNumsFit (h : History) : Prop := ∀ k n, (h k n).isSome → n < 2 ^ 63

section Ranges

variable {h : History} {fromTxNum toTxNum : Int} {k : Bytes} {n : Nat}

theorem mem_txRange : n ∈ txRange fromTxNum toTxNum ↔
    fromTxNum.toNat ≤ n ∧ (0 ≤ toTxNum → n < toTxNum) := by
  refine and_congr_left fun _ => ?_
  omega

/-- The first change in a range is the first one from its beginning on, if it
comes before the end. -/
theorem isLeast_txRange_inter {T : Set Nat} :
    IsLeast (changesIn h (txRange fromTxNum toTxNum ∩ T) k) n ↔
      IsLeast (changesIn h (Set.Ici fromTxNum.toNat ∩ T) k) n ∧ (0 ≤ toTxNum → n < toTxNum) := by
  constructor
  · rintro ⟨⟨⟨hn, hT⟩, hsome⟩, hleast⟩
    rw [mem_txRange] at hn
    refine ⟨⟨⟨⟨hn.1, hT⟩, hsome⟩, fun m hm => ?_⟩, hn.2⟩
    by_contra hlt
    have hto : 0 ≤ toTxNum → (m : Int) < toTxNum := fun hto => by
      have := hn.2 hto
      omega
    exact hlt (hleast ⟨⟨mem_txRange.mpr ⟨hm.1.1, hto⟩, hm.1.2⟩, hm.2⟩)
  · rintro ⟨⟨⟨⟨hn, hT⟩, hsome⟩, hleast⟩, hto⟩
    exact ⟨⟨⟨mem_txRange.mpr ⟨hn, hto⟩, hT⟩, hsome⟩,
      fun m hm => hleast ⟨⟨(mem_txRange.mp hm.1.1).1, hm.1.2⟩, hm.2⟩⟩

theorem isLeast_txRange : IsLeast (changesIn h (txRange fromTxNum toTxNum) k) n ↔
    IsLeast (changesIn h (Set.Ici fromTxNum.toNat) k) n ∧ (0 ≤ toTxNum → n < toTxNum) := by
  have hinter : IsLeast (changesIn h (txRange fromTxNum toTxNum ∩ Set.univ) k) n ↔ _ :=
    isLeast_txRange_inter
  rwa [Set.inter_univ, Set.inter_univ] at hinter

theorem startTxKey_eq (fromTxNum : Int) : startTxKey fromTxNum = beBytes 8 fromTxNum.toNat := by
  rw [startTxKey]
  split
  · rfl
  · next hneg => rw [Int.toNat_of_nonpos (by omega)]

end Ranges

/-- Keys of eight bytes are ordered as their numbers, whatever follows. -/
theorem beBytes_le_append_iff {m n : Nat} (hm : m < 2 ^ 64) (hn : n < 2 ^ 64) (v : Bytes) :
    beBytes 8 m ≤ beBytes 8 n ++ v ↔ m ≤ n := by
  rw [le_append_iff (by simp), beBytes_le_iff hm hn]

/-! ### Tables with small values -/

namespace HistoryChangesIterDB

/-- The table has the changes of a history. -/
def HoldsSmall (t : DupTable Bytes Bytes) (h : History) : Prop :=
  ∀ k d, (k, d) ∈ t.entries ↔ ∃ n v, h k n = some v ∧ d = beBytes 8 n ++ v

section Small

variable (startTxKey : Bytes) (endTxNum : Int) (t : DupTable Bytes Bytes)

/-- What is reported for a key. -/
def smallReport (k : Bytes) : Option Bytes :=
  (t.seekBothRange k startTxKey).bind fun v =>
    if endTxNum < 0 ∨ toInt (beNat (v.take 8)) < endTxNum then some (v.drop 8) else none

abbrev smallKeys : List Bytes := t.keysIn fun _ => True

variable {startTxKey endTxNum t}

/-- The loop goes from a key to the first report. -/
theorem smallVals_eq (hfree : ∀ e ∈ t.entries, ∀ f ∈ t.entries, e.1 <+: f.1 → f.1 = e.1)
    {keys : List Bytes} (hkeys : keys <:+ smallKeys t) {fuel : Nat} (hfuel : keys.length < fuel) :
    smallVals startTxKey endTxNum t fuel keys.head? =
      (reports (smallReport startTxKey endTxNum t) keys).head? := by
  induction keys generalizing fuel with
  | nil =>
    cases fuel with
    | zero => rfl
    | succ fuel => rfl
  | cons k keys ih =>
    obtain ⟨fuel, rfl⟩ := Nat.exists_eq_succ_of_ne_zero (Nat.ne_zero_of_lt hfuel)
    have hrest := ih ((suffix_cons k keys).trans hkeys) (Nat.lt_of_succ_lt_succ hfuel)
    have hnext := DupTable.nextNoDup_fst (fun _ _ => trivial) hkeys
    have hk : ∀ e ∈ t.entries, k <+: e.1 → e.1 = k := by
      obtain ⟨⟨v, hv⟩, -⟩ := DupTable.mem_keysIn.mp (hkeys.subset mem_cons_self)
      exact hfree (k, v) hv
    rw [head?_cons, smallVals]
    cases hseek : t.seekBothRange k startTxKey with
    | none =>
      have hreport : smallReport startTxKey endTxNum t k = none := by
        rw [smallReport, hseek]
        rfl
      rw [reports_cons_none hreport]
      cases hsub : nextSubtree k with
      | none =>
        rw [DupTable.nextNoDup_eq_none hk hsub] at hnext
        rw [head?_eq_none_iff.mp hnext.symm]
        rfl
      | some q =>
        dsimp only
        rw [DupTable.seek_nextSubtree hk hsub, hnext, hrest]
    | some v =>
      dsimp only
      by_cases hend : endTxNum < 0 ∨ toInt (beNat (v.take 8)) < endTxNum
      · have hreport : smallReport startTxKey endTxNum t k = some (v.drop 8) := by
          rw [smallReport, hseek, Option.bind_some, if_pos hend]
        rw [if_pos hend, reports_cons_some hreport]
        rfl
      · have hreport : smallReport startTxKey endTxNum t k = none := by
          rw [smallReport, hseek, Option.bind_some, if_neg hend]
        rw [if_neg hend, reports_cons_none hreport, hnext, hrest]

variable {h : History} {fromTxNum toTxNum : Int}

theorem seekBothRange_iff (hholds : HoldsSmall t h) (hfit : TxNumsFit h) {s : Nat}
    (hs : s < 2 ^ 64) {k d : Bytes} : t.seekBothRange k (beBytes 8 s) = some d ↔
      ∃ n v, IsLeast (changesIn h (Set.Ici s) k) n ∧ h k n = some v ∧ d = beBytes 8 n ++ v := by
  have hlt : ∀ {m v}, h k m = some v → m < 2 ^ 64 := by
    intro m v hv
    have := hfit k m (by simp [hv])
    omega
  rw [DupTable.seekBothRange_eq_some]
  constructor
  · rintro ⟨⟨hmem, hle⟩, hleast⟩
    obtain ⟨n, v, hv, rfl⟩ := (hholds k d).mp hmem
    rw [beBytes_le_append_iff hs (hlt hv)] at hle
    refine ⟨n, v, ⟨⟨hle, by simp [hv]⟩, fun m hm => ?_⟩, hv, rfl⟩
    obtain ⟨w, hw⟩ := Option.isSome_iff_exists.mp hm.2
    have hdle := hleast _ ((hholds k _).mpr ⟨m, w, hw, rfl⟩)
      ((beBytes_le_append_iff hs (hlt hw) w).mpr hm.1)
    rw [← beBytes_le_append_iff (hlt hv) (hlt hw) w]
    exact (le_of_isPrefix (prefix_append _ v)).trans hdle
  · rintro ⟨n, v, ⟨⟨hle, -⟩, hleast⟩, hv, rfl⟩
    refine ⟨⟨(hholds k _).mpr ⟨n, v, hv, rfl⟩, (beBytes_le_append_iff hs (hlt hv) v).mpr hle⟩, ?_⟩
    intro d' hd' hle'
    obtain ⟨m, w, hw, rfl⟩ := (hholds k d').mp hd'
    rw [beBytes_le_append_iff hs (hlt hw)] at hle'
    rcases (hleast ⟨hle', by simp [hw]⟩ : n ≤ m).eq_or_lt with rfl | hnm
    · rw [hv, Option.some.injEq] at hw
      rw [hw]
    · have hbytes : beBytes 8 n < beBytes 8 m := (beBytes_lt_iff (hlt hv) (hlt hw)).mpr hnm
      exact (append_lt_append hbytes (fun hpre => hbytes.ne (hpre.eq_of_length (by simp))) v w).le

theorem smallReport_iff (hholds : HoldsSmall t h) (hfit : TxNumsFit h)
    (hfrom : fromTxNum < 2 ^ 63) {k v : Bytes} :
    smallReport (Erigon.startTxKey fromTxNum) toTxNum t k = some v ↔
      ∃ n, IsLeast (changesIn h (txRange fromTxNum toTxNum) k) n ∧ h k n = some v := by
  have hs : fromTxNum.toNat < 2 ^ 64 := by omega
  have hdecode : ∀ {n w}, h k n = some w → (toTxNum < 0 ∨
      toInt (beNat ((beBytes 8 n ++ w).take 8)) < toTxNum ↔ (0 ≤ toTxNum → n < toTxNum)) := by
    intro n w hw
    have hn := hfit k n (by simp [hw])
    rw [take_append_of_le_length (by simp), take_of_length_le (by simp), beNat_beBytes,
      Nat.mod_eq_of_lt (show n < 256 ^ 8 by omega), toInt_eq hn]
    omega
  rw [startTxKey_eq, smallReport, Option.bind_eq_some_iff]
  simp only [seekBothRange_iff hholds hfit hs, isLeast_txRange]
  constructor
  · rintro ⟨d, ⟨n, w, hleast, hw, rfl⟩, hif⟩
    rw [Option.ite_none_right_eq_some, hdecode hw, Option.some.injEq,
      drop_append_of_le_length (by simp), drop_of_length_le (by simp)] at hif
    exact ⟨n, ⟨hleast, hif.1⟩, hif.2 ▸ hw⟩
  · rintro ⟨n, ⟨hleast, hto⟩, hv⟩
    refine ⟨_, ⟨n, v, hleast, hv, rfl⟩, ?_⟩
    rw [if_pos ((hdecode hv).mpr hto), drop_append_of_le_length (by simp),
      drop_of_length_le (by simp)]
    rfl

end Small

/-! ### Tables with large values -/

def HoldsLarge (t : SortedPairs Bytes Bytes) (h : History) : Prop :=
  ∀ raw v, (raw, v) ∈ t.pairs ↔ ∃ k n, h k n = some v ∧ raw = k ++ beBytes 8 n

theorem keyOf_append (k : Bytes) {b : Bytes} (hb : b.length = 8) : keyOf (k ++ b) = k := by
  rw [keyOf, length_append, hb, Nat.add_sub_cancel, take_left']
  rfl

theorem txNumOf_append (k : Bytes) {n : Nat} (hn : n < 2 ^ 64) :
    txNumOf (k ++ beBytes 8 n) = n := by
  rw [txNumOf, length_append, beBytes_length, Nat.add_sub_cancel, drop_left' rfl, beNat_beBytes]
  exact Nat.mod_eq_of_lt hn

section Large

variable (startTxKey : Bytes) (endTxNum : Int) (t : SortedPairs Bytes Bytes)

/-- The keys of the table, each once and in ascending order. -/
def largeKeys : List Bytes := sortKeys (t.pairs.map fun a => keyOf a.1)

def largeReport (k : Bytes) : Option Bytes :=
  match t.seek (k ++ startTxKey) with
  | [] => none
  | (raw, v) :: _ =>
    if keyOf raw = k ∧ (0 ≤ endTxNum → toInt (txNumOf raw) < endTxNum) then some v else none

variable {startTxKey endTxNum t} {h : History}

theorem largeKeys_sorted : (largeKeys t).Pairwise (· < ·) := sortKeys_sorted _

variable {k b : Bytes}

theorem mem_largeKeys (hholds : HoldsLarge t h) : k ∈ largeKeys t ↔ ∃ n, (h k n).isSome := by
  rw [largeKeys, sortKeys, Finset.mem_sort, mem_toFinset, mem_map]
  constructor
  · rintro ⟨⟨raw, v⟩, hmem, rfl⟩
    obtain ⟨k, n, hv, rfl⟩ := (hholds raw v).mp hmem
    exact ⟨n, by rw [keyOf_append k (by simp), hv]; rfl⟩
  · rintro ⟨n, hsome⟩
    obtain ⟨v, hv⟩ := Option.isSome_iff_exists.mp hsome
    exact ⟨_, (hholds _ v).mpr ⟨k, n, hv, rfl⟩, keyOf_append k (by simp)⟩

theorem largeKeys_length_le : (largeKeys t).length ≤ t.pairs.length := by
  rw [largeKeys, sortKeys, Finset.length_sort]
  exact (toFinset_card_le _).trans (length_map _).le

/-- The order of the table is that of the keys, then that of the numbers. -/
theorem raw_le_iff (hapart : KeysApart h) (hfit : TxNumsFit h) {l : Bytes} {m n : Nat}
    (hk : (h k m).isSome) (hl : (h l n).isSome) :
    k ++ beBytes 8 m ≤ l ++ beBytes 8 n ↔ k < l ∨ k = l ∧ m ≤ n := by
  have hm := hfit k m hk
  have hn := hfit l n hl
  rcases lt_trichotomy k l with hlt | rfl | hlt
  · simp only [hlt, true_or, iff_true]
    exact (append_lt_append hlt (fun hpre => hlt.ne' (hapart k l m n hk hl hpre)) _ _).le
  · rw [append_le_append_iff, beBytes_le_iff (show m < 256 ^ 8 by omega)
      (show n < 256 ^ 8 by omega)]
    simp
  · have hraw : l ++ beBytes 8 n < k ++ beBytes 8 m :=
      append_lt_append hlt (fun hpre => hlt.ne' (hapart l k n m hl hk hpre)) _ _
    simp [hraw.not_ge, hlt.not_gt, hlt.ne']

variable {fromTxNum toTxNum : Int}

/-- What a walk over the table begins with. -/
theorem seek_eq_cons (hholds : HoldsLarge t h) {a : Bytes × Bytes} {rest : List (Bytes × Bytes)}
    (hseek : t.seek b = a :: rest) :
    ∃ k n, h k n = some a.2 ∧ a.1 = k ++ beBytes 8 n ∧ b ≤ k ++ beBytes 8 n ∧
      ∀ l m, (h l m).isSome → b ≤ l ++ beBytes 8 m → k ++ beBytes 8 n ≤ l ++ beBytes 8 m := by
  obtain ⟨hmem, hle, hleast⟩ := t.seek_eq_cons hseek
  obtain ⟨k, n, hv, hraw⟩ := (hholds a.1 a.2).mp hmem
  rw [hraw] at hle
  refine ⟨k, n, hv, hraw, hle, fun l m hsome hle' => ?_⟩
  obtain ⟨w, hw⟩ := Option.isSome_iff_exists.mp hsome
  exact hraw ▸ hleast _ ((hholds _ w).mpr ⟨l, m, hw, rfl⟩) hle'

theorem lt_of_seek_eq_nil (hholds : HoldsLarge t h) (hseek : t.seek b = []) {n : Nat}
    (hsome : (h k n).isSome) : k ++ beBytes 8 n < b := by
  obtain ⟨v, hv⟩ := Option.isSome_iff_exists.mp hsome
  exact t.seek_eq_nil hseek ((hholds _ v).mpr ⟨k, n, hv, rfl⟩)

/-- The report of a key is its first change in the range. -/
theorem largeReport_iff (hholds : HoldsLarge t h) (hapart : KeysApart h) (hfit : TxNumsFit h)
    (hfrom : fromTxNum < 2 ^ 63) {v : Bytes} :
    largeReport (Erigon.startTxKey fromTxNum) toTxNum t k = some v ↔
      ∃ n, IsLeast (changesIn h (txRange fromTxNum toTxNum) k) n ∧ h k n = some v := by
  have hs : fromTxNum.toNat < 256 ^ 8 := by omega
  have hle : ∀ {n}, (h k n).isSome →
      (k ++ beBytes 8 fromTxNum.toNat ≤ k ++ beBytes 8 n ↔ fromTxNum.toNat ≤ n) := by
    intro n hsome
    have := hfit k n hsome
    rw [append_le_append_iff, beBytes_le_iff hs (show n < 256 ^ 8 by omega)]
  rw [startTxKey_eq, largeReport]
  cases hseek : t.seek (k ++ beBytes 8 fromTxNum.toNat) with
  | nil =>
    refine iff_of_false (by simp) ?_
    rintro ⟨n, ⟨⟨hn, hsome⟩, -⟩, -⟩
    exact not_le.mpr (lt_of_seek_eq_nil hholds hseek hsome)
      ((hle hsome).mpr (mem_txRange.mp hn).1)
  | cons a rest =>
    obtain ⟨l, m, hm, hraw, hbound, hleast⟩ := seek_eq_cons hholds hseek
    have hmsome : (h l m).isSome := by simp [hm]
    have hmlt := hfit l m hmsome
    obtain ⟨raw, w⟩ := a
    dsimp only at hraw hm ⊢
    rw [hraw, keyOf_append l (by simp), txNumOf_append l (by omega), toInt_eq hmlt,
      Option.ite_none_right_eq_some, Option.some.injEq]
    simp only [isLeast_txRange]
    constructor
    · rintro ⟨⟨rfl, hto⟩, rfl⟩
      refine ⟨m, ⟨⟨⟨(hle hmsome).mp hbound, hmsome⟩, fun n hn => ?_⟩, hto⟩, hm⟩
      have hraw' := hleast l n hn.2 ((hle hn.2).mpr hn.1)
      rw [raw_le_iff hapart hfit hmsome hn.2] at hraw'
      simpa using hraw'
    · rintro ⟨n, ⟨⟨⟨hn, hnsome⟩, hnleast⟩, hto⟩, hv⟩
      have hraw' := hleast k n hnsome ((hle hnsome).mpr hn)
      rw [raw_le_iff hapart hfit hmsome hnsome] at hraw'
      have hkl : k ≤ l := le_of_append_le_append hbound fun hpre =>
        (hapart l k m n hmsome hnsome hpre).symm
      rcases hraw' with hlt | ⟨rfl, hmn⟩
      · exact absurd hlt hkl.not_gt
      · have hnm := hnleast ⟨(hle hmsome).mp hbound, hmsome⟩
        obtain rfl : m = n := le_antisymm hmn hnm
        rw [hm, Option.some.injEq] at hv
        exact ⟨⟨rfl, hto⟩, hv⟩

/-- The start of the range, put behind the beginning of a key, does not come after a
change of the key in the range. -/
def Aligned (h : History) (fromTxNum toTxNum : Int) : Prop :=
  ∀ k n r, (h k n).isSome → n ∈ txRange fromTxNum toTxNum → r <:+ k →
    Erigon.startTxKey fromTxNum ≤ r ++ beBytes 8 n

/-- No change of the range is passed over. -/
theorem append_le_of_aligned (halign : Aligned h fromTxNum toTxNum) {q : Bytes} {n : Nat}
    (hqk : q ≤ k) (hsome : (h k n).isSome) (hn : n ∈ txRange fromTxNum toTxNum) :
    q ++ Erigon.startTxKey fromTxNum ≤ k ++ beBytes 8 n := by
  by_cases hpre : q <+: k
  · obtain ⟨r, rfl⟩ := hpre
    rw [append_assoc, append_le_append_iff]
    exact halign _ n r hsome hn (suffix_append q r)
  · have hne : q ≠ k := fun heq => hpre (heq ▸ prefix_rfl)
    exact (append_lt_append (lt_of_le_of_ne hqk hne) hpre _ _).le

theorem startTxKey_length : (Erigon.startTxKey fromTxNum).length = 8 := by
  rw [startTxKey_eq, beBytes_length]

section Walk

variable (hholds : HoldsLarge t h) (hapart : KeysApart h) (hfit : TxNumsFit h)

variable {k : Bytes}

include hholds hapart

theorem largeKeys_apart {l : Bytes} (hk : k ∈ largeKeys t) (hl : l ∈ largeKeys t) (hpre : k <+: l) :
    l = k := by
  obtain ⟨m, hm⟩ := (mem_largeKeys hholds).mp hk
  obtain ⟨n, hn⟩ := (mem_largeKeys hholds).mp hl
  exact hapart k l m n hm hn hpre

/-- The keys from the next subtree on are those behind the key. -/
theorem listFrom_nextSubtree {q : Bytes} (hk : k ∈ largeKeys t) (hnext : nextSubtree k = some q) :
    listFrom (largeKeys t) q = listBehind (largeKeys t) k := by
  refine filter_congr fun l hl => decide_eq_decide.mpr ?_
  rw [le_iff_of_nextSubtree hnext]
  exact ⟨And.left, fun hlt => ⟨hlt, fun hpre => hlt.ne' (largeKeys_apart hholds hapart hk hl hpre)⟩⟩

theorem listBehind_of_nextSubtree_none (hk : k ∈ largeKeys t) (hnext : nextSubtree k = none) :
    listBehind (largeKeys t) k = [] := by
  refine listBehind_eq_nil fun l hl hlt => ?_
  exact hlt.ne' (largeKeys_apart hholds hapart hk hl (isPrefix_of_nextSubtree_none hnext hlt.le))

/-- No key begins the one a walk goes to. -/
def Reaches (t : SortedPairs Bytes Bytes) (q : Bytes) : Prop :=
  ∀ k ∈ largeKeys t, k <+: q → k = q

theorem reaches_key (hk : k ∈ largeKeys t) : Reaches t k := fun _ hl hpre =>
  (largeKeys_apart hholds hapart hl hk hpre).symm

theorem reaches_nextSubtree {q : Bytes} (hk : k ∈ largeKeys t) (hnext : nextSubtree k = some q) :
    Reaches t q := by
  intro l hl hpre
  by_contra hne
  obtain ⟨hlk, hne'⟩ := isPrefix_of_isPrefix_nextSubtree hnext hpre hne
  exact hne' (largeKeys_apart hholds hapart hl hk hlk).symm

include hfit

/-- The loop goes from a key, or from where one could be, to the first report. -/
theorem largeVals_eq (hfrom : fromTxNum < 2 ^ 63) (halign : Aligned h fromTxNum toTxNum)
    {last : Option (Bytes × Bytes)} {fuel : Nat} {q : Bytes} (hq : Reaches t q)
    (hlast : ∀ a ∈ last, a.1 < q)
    (hfuel : 2 * (listFrom (largeKeys t) q).length + (if q ∈ largeKeys t then 0 else 1) < fuel) :
    largeVals (Erigon.startTxKey fromTxNum) toTxNum t last fuel
        (q ++ Erigon.startTxKey fromTxNum) =
      (reports (largeReport (Erigon.startTxKey fromTxNum) toTxNum t)
        (listFrom (largeKeys t) q)).head? := by
  set report := largeReport (Erigon.startTxKey fromTxNum) toTxNum t with hdef
  have hreport : ∀ {k v}, report k = some v →
      ∃ n, (h k n).isSome ∧ n ∈ txRange fromTxNum toTxNum := by
    intro k v hv
    obtain ⟨n, ⟨⟨hn, hsome⟩, -⟩, -⟩ := (largeReport_iff hholds hapart hfit hfrom).mp hv
    exact ⟨n, hsome, hn⟩
  induction fuel generalizing q with
  | zero => cases hfuel
  | succ fuel ih =>
    rw [largeVals]
    cases hseek : t.seek (q ++ Erigon.startTxKey fromTxNum) with
    | nil =>
      have hnil : reports report (listFrom (largeKeys t) q) = [] := by
        rw [eq_nil_iff_forall_not_mem]
        rintro ⟨k, v⟩ hkv
        obtain ⟨hk, hv⟩ := mem_reports.mp hkv
        obtain ⟨n, hsome, hn⟩ := hreport hv
        exact not_le.mpr (lt_of_seek_eq_nil hholds hseek hsome)
          (append_le_of_aligned halign (mem_listFrom.mp hk).2 hsome hn)
      rw [hnil]
      rfl
    | cons a rest =>
      obtain ⟨raw, v⟩ := a
      obtain ⟨k, m, hm, rfl, hbound, hleast⟩ := seek_eq_cons hholds hseek
      have hmsome : (h k m).isSome := by simp [hm]
      have hmlt := hfit k m hmsome
      have hk : k ∈ largeKeys t := (mem_largeKeys hholds).mpr ⟨m, hmsome⟩
      have hqk : q ≤ k := le_of_append_le_append hbound (hq k hk)
      -- What is reported does not come before what was found.
      have hfound : ∀ {l w}, q ≤ l → report l = some w →
          ∃ n ∈ txRange fromTxNum toTxNum, k < l ∨ k = l ∧ m ≤ n := by
        intro l w hql hw
        obtain ⟨n, hsome, hn⟩ := hreport hw
        refine ⟨n, hn, (raw_le_iff hapart hfit hmsome hsome).mp ?_⟩
        exact hleast l n hsome (append_le_of_aligned halign hql hsome hn)
      have hskip : reports report (listFrom (largeKeys t) q) =
          reports report (listFrom (largeKeys t) k) := by
        refine reports_listFrom hqk fun l _ hql hlk => ?_
        by_contra hne
        obtain ⟨w, hw⟩ := Option.ne_none_iff_exists'.mp hne
        obtain ⟨n, -, hlt | ⟨heq, -⟩⟩ := hfound hql hw
        · exact hlt.not_gt hlk
        · exact hlk.ne' heq
      have hcons := listFrom_eq_cons largeKeys_sorted hk
      have hlength := congrArg List.length hcons
      rw [length_cons] at hlength
      have hle := length_listFrom_le hqk (largeKeys t)
      dsimp only
      rw [keyOf_append k (by simp), txNumOf_append k (by omega), toInt_eq hmlt, hskip]
      by_cases hend : 0 ≤ toTxNum ∧ toTxNum ≤ m
      · have hnone : report k = none := by
          by_contra hne
          obtain ⟨w, hw⟩ := Option.ne_none_iff_exists'.mp hne
          obtain ⟨n, hn, hlt | ⟨-, hmn⟩⟩ := hfound hqk hw
          · exact lt_irrefl k hlt
          · have := (mem_txRange.mp hn).2 hend.1
            omega
        rw [if_pos hend, hcons, reports_cons_none hnone]
        cases hnext : nextSubtree k with
        | none =>
          rw [listBehind_of_nextSubtree_none hholds hapart hk hnext]
          rfl
        | some q' =>
          have hbehind := listFrom_nextSubtree hholds hapart hk hnext
          rw [← hbehind]
          refine ih (reaches_nextSubtree hholds hapart hk hnext) (fun a ha => ?_) ?_
          · exact (hlast a ha).trans_le (hqk.trans (lt_of_nextSubtree hnext).le)
          · rw [hbehind]
            split at hfuel <;> split <;> omega
      · have hfresh : last ≠ some (k, v) := fun heq => (hlast _ heq).not_ge hqk
        rw [if_neg hend, if_neg hfresh]
        dsimp only
        rw [keyOf_append q startTxKey_length, keyOf_append k (by simp)]
        by_cases hqk' : q = k
        · subst hqk'
          have hsome : report q = some v := by
            rw [hdef, largeReport, hseek]
            dsimp only
            rw [keyOf_append q (by simp), txNumOf_append q (by omega), toInt_eq hmlt]
            exact if_pos ⟨rfl, fun hto => by omega⟩
          rw [if_neg (not_not.mpr rfl), hcons, reports_cons_some hsome]
          rfl
        · rw [if_pos hqk']
          have hlt := lt_of_le_of_ne hqk hqk'
          refine ih (reaches_key hholds hapart hk) (fun a ha => (hlast a ha).trans hlt) ?_
          rw [if_pos hk]
          split at hfuel
          · next hmem =>
            have hq' := congrArg List.length (listFrom_eq_cons largeKeys_sorted hmem)
            have := length_listFrom_le_behind hlt (largeKeys t)
            rw [length_cons] at hq'
            omega
          · omega

end Walk

end Large

/-! ### The stream over the table -/

/-- The table has the changes of a history. -/
def Holds (h : History) : HistoryValues → Prop
  | .small t => HoldsSmall t h
  | .large t => HoldsLarge t h

section Stream

variable {h : History} {fromTxNum toTxNum : Int} {values : HistoryValues} {limit : Int}

/-- A stream that reports the first changes of keys yields a patch. -/
theorem yields_patch {keys : List Bytes} {report : Bytes → Option Bytes}
    (hsorted : keys.Pairwise (· < ·))
    (hreport : ∀ k v, report k = some v ↔
      ∃ n, IsLeast (changesIn h (txRange fromTxNum toTxNum) k) n ∧ h k n = some v)
    (hkeys : ∀ k v, report k = some v → k ∈ keys)
    (hopen : openAdvance (Erigon.startTxKey fromTxNum) toTxNum values =
      (reports report keys).head?)
    (hadvance : ∀ front k back v, keys = front ++ k :: back → report k = some v →
      advance (Erigon.startTxKey fromTxNum) toTxNum (k, v) values = (reports report back).head?)
    (hlimit : limit < 0) :
    ∃ items, Yields next ⟨values, Erigon.startTxKey fromTxNum, toTxNum,
        ⟨openAdvance (Erigon.startTxKey fromTxNum) toTxNum values, limit⟩⟩ items ∧
      UnwindPatch h (txRange fromTxNum toTxNum) items := by
  have hyields := Ahead.yields_reports
    (fun last => advance (Erigon.startTxKey fromTxNum) toTxNum last values)
    (fun _ _ => rfl) hadvance hlimit
  refine ⟨reports report keys, ?_, reports_sorted hsorted, fun k v => ?_⟩
  · rw [hopen]
    exact hyields.within (f := mk values _ _) fun _ => rfl
  · rw [mem_reports, ← hreport]
    exact and_iff_right_of_imp (hkeys k v)

section Small

variable {t : DupTable Bytes Bytes}
  (hfree : ∀ e ∈ t.entries, ∀ f ∈ t.entries, e.1 <+: f.1 → f.1 = e.1) (startTxKey : Bytes)

include hfree

theorem openAdvance_small (endTxNum : Int) :
    openAdvance startTxKey endTxNum (.small t) =
      (reports (smallReport startTxKey endTxNum t) (smallKeys t)).head? := by
  have hlength : (smallKeys t).length ≤ t.entries.length := t.keysIn_length_le fun _ => True
  rw [openAdvance, DupTable.head?_fst]
  exact smallVals_eq hfree suffix_rfl (by omega)

theorem advance_small (endTxNum : Int) {front back : List Bytes}
    {k : Bytes} (hkeys : smallKeys t = front ++ k :: back) (v : Bytes) :
    advance startTxKey endTxNum (k, v) (.small t) =
      (reports (smallReport startTxKey endTxNum t) back).head? := by
  have hlength : (smallKeys t).length ≤ t.entries.length := t.keysIn_length_le fun _ => True
  have hsuffix : k :: back <:+ smallKeys t := ⟨front, hkeys.symm⟩
  have hshorter := hsuffix.length_le
  rw [length_cons] at hshorter
  rw [advance, DupTable.nextNoDup_fst (fun _ _ => trivial) hsuffix]
  exact smallVals_eq hfree ((suffix_cons k back).trans hsuffix) (by omega)

end Small

section Large

variable {t : SortedPairs Bytes Bytes} (hholds : HoldsLarge t h) (hapart : KeysApart h)
  (hfit : TxNumsFit h) (hfrom : fromTxNum < 2 ^ 63) (halign : Aligned h fromTxNum toTxNum)

include hholds hapart hfit

/-- The table begins with a change of the least key. -/
theorem listFrom_head {a : Bytes × Bytes} {rest : List (Bytes × Bytes)}
    (hpairs : t.pairs = a :: rest) :
    ∃ k n, a.1 = k ++ beBytes 8 n ∧ k ∈ largeKeys t ∧
      listFrom (largeKeys t) k = largeKeys t := by
  obtain ⟨k, n, hv, hraw⟩ := (hholds a.1 a.2).mp (by simp [hpairs])
  refine ⟨k, n, hraw, (mem_largeKeys hholds).mpr ⟨n, by simp [hv]⟩, ?_⟩
  refine filter_eq_self.mpr fun l hl => decide_eq_true ?_
  obtain ⟨m, hm⟩ := (mem_largeKeys hholds).mp hl
  obtain ⟨w, hw⟩ := Option.isSome_iff_exists.mp hm
  have hsorted := t.sorted
  have hmem := (hholds _ w).mpr ⟨l, m, hw, rfl⟩
  rw [hpairs] at hsorted hmem
  have hle : k ++ beBytes 8 n ≤ l ++ beBytes 8 m := by
    rcases mem_cons.mp hmem with heq | hmem
    · rw [← hraw, ← heq]
    · exact hraw ▸ (rel_of_pairwise_cons hsorted hmem).le
  rcases (raw_le_iff hapart hfit (by simp [hv]) hm).mp hle with hlt | ⟨heq, -⟩
  · exact hlt.le
  · exact heq.le

include hfrom halign

theorem openAdvance_large :
    openAdvance (Erigon.startTxKey fromTxNum) toTxNum (.large t) =
      (reports (largeReport (Erigon.startTxKey fromTxNum) toTxNum t) (largeKeys t)).head? := by
  have hlength : (largeKeys t).length ≤ t.pairs.length := largeKeys_length_le
  rw [openAdvance]
  cases hpairs : t.pairs with
  | nil => simp [largeKeys, sortKeys, hpairs, reports]
  | cons a rest =>
    obtain ⟨k, n, hraw, hk, hfirst⟩ := listFrom_head hholds hapart hfit hpairs
    have hfuel : 2 * (listFrom (largeKeys t) k).length + (if k ∈ largeKeys t then 0 else 1) <
        2 * t.pairs.length + 2 := by
      rw [hfirst]
      split <;> omega
    rw [head?_cons]
    dsimp only
    rw [hraw, keyOf_append k (by simp), ← hpairs,
      largeVals_eq hholds hapart hfit hfrom halign (reaches_key hholds hapart hk) (by simp) hfuel,
      hfirst]

theorem advance_large {front back : List Bytes} {k : Bytes}
    (hkeys : largeKeys t = front ++ k :: back) (v : Bytes) :
    advance (Erigon.startTxKey fromTxNum) toTxNum (k, v) (.large t) =
      (reports (largeReport (Erigon.startTxKey fromTxNum) toTxNum t) back).head? := by
  have hk : k ∈ largeKeys t := by simp [hkeys]
  have hback : listBehind (largeKeys t) k = back := by
    have hsorted : (largeKeys t).Pairwise (· < ·) := largeKeys_sorted
    rw [hkeys] at hsorted ⊢
    exact listBehind_append hsorted
  rw [advance]
  cases hnext : nextSubtree k with
  | none =>
    rw [← hback, listBehind_of_nextSubtree_none hholds hapart hk hnext]
    rfl
  | some q =>
    dsimp only
    rw [← hback, ← listFrom_nextSubtree hholds hapart hk hnext]
    refine largeVals_eq hholds hapart hfit hfrom halign
      (reaches_nextSubtree hholds hapart hk hnext) (fun a ha => ?_) ?_
    · cases ha
      exact lt_of_nextSubtree hnext
    · have hlength : (largeKeys t).length ≤ t.pairs.length := largeKeys_length_le
      have hle : (listFrom (largeKeys t) q).length ≤ (largeKeys t).length :=
        length_filter_le _ _
      split <;> omega

end Large

/-- The stream over the table is the patch of what the table holds. -/
theorem yields_recent (hholds : Holds h values) (hapart : KeysApart h) (hfit : TxNumsFit h)
    (hfrom : fromTxNum < 2 ^ 63)
    (halign : ∀ t, values = .large t → Aligned h fromTxNum toTxNum) (hlimit : limit < 0) :
    ∃ items, Yields next ⟨values, Erigon.startTxKey fromTxNum, toTxNum,
        ⟨openAdvance (Erigon.startTxKey fromTxNum) toTxNum values, limit⟩⟩ items ∧
      UnwindPatch h (txRange fromTxNum toTxNum) items := by
  cases values with
  | small t =>
    have hfree : ∀ e ∈ t.entries, ∀ f ∈ t.entries, e.1 <+: f.1 → f.1 = e.1 := by
      intro e he f hf hpre
      obtain ⟨m, v, hv, -⟩ := (hholds e.1 e.2).mp he
      obtain ⟨n, w, hw, -⟩ := (hholds f.1 f.2).mp hf
      exact hapart e.1 f.1 m n (by simp [hv]) (by simp [hw]) hpre
    refine yields_patch (t.keysIn_sorted fun _ => True)
      (fun k v => smallReport_iff hholds hfit hfrom) (fun k v hv => ?_)
      (openAdvance_small hfree _ _)
      (fun front k back v hkeys _ => advance_small hfree _ _ hkeys v) hlimit
    obtain ⟨n, -, hv⟩ := (smallReport_iff hholds hfit hfrom).mp hv
    exact DupTable.mem_keysIn.mpr ⟨⟨_, (hholds k _).mpr ⟨n, v, hv, rfl⟩⟩, trivial⟩
  | large t =>
    refine yields_patch largeKeys_sorted
      (fun k v => largeReport_iff hholds hapart hfit hfrom) (fun k v hv => ?_)
      (openAdvance_large hholds hapart hfit hfrom (halign t rfl))
      (fun front k back v hkeys _ =>
        advance_large hholds hapart hfit hfrom (halign t rfl) hkeys v) hlimit
    obtain ⟨n, -, hv⟩ := (largeReport_iff hholds hapart hfit hfrom).mp hv
    exact (mem_largeKeys hholds).mpr ⟨n, by simp [hv]⟩

end Stream

end HistoryChangesIterDB

end Erigon
