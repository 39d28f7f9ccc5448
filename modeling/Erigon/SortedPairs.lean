/-
Maps kept as pairs in ascending order of their keys, and walks over the keys
that begin with a given byte string: these stand next to each other, behind the
keys that are less than it.
-/
import Erigon.ByteOrder
import Erigon.StableSort

namespace Erigon

open List

universe u v

/-- Pairs with ascending keys. -/
structure SortedPairs (K : Type u) (V : Type v) [LinearOrder K] where
  pairs : List (K × V)
  sorted : pairs.Pairwise fun a b => a.1 < b.1

namespace SortedPairs

variable {K : Type u} {V : Type v} [LinearOrder K] (m : SortedPairs K V)

def get (k : K) : Option V := (m.pairs.find? fun a => decide (a.1 = k)).map Prod.snd

/-- The pairs from the first key on that is not less than `k`. -/
def seek (k : K) : List (K × V) := m.pairs.dropWhile fun a => decide (a.1 < k)

variable {k : K}

theorem get_eq_some {v : V} : m.get k = some v ↔ (k, v) ∈ m.pairs := by
  rw [get, Option.map_eq_some_iff]
  constructor
  · rintro ⟨a, hfind, rfl⟩
    have hk : a.1 = k := by simpa using find?_some hfind
    exact hk ▸ mem_of_find?_eq_some hfind
  · intro hmem
    cases hfind : m.pairs.find? fun a => decide (a.1 = k) with
    | none =>
      rw [find?_eq_none] at hfind
      exact absurd (decide_eq_true rfl) (hfind _ hmem)
    | some a =>
      have hk : a.1 = k := by simpa using find?_some hfind
      have hnodup : (m.pairs.map Prod.fst).Nodup := pairwise_map.mpr (m.sorted.imp ne_of_lt)
      have heq : a = (k, v) :=
        inj_on_of_nodup_map hnodup (mem_of_find?_eq_some hfind) hmem hk
      exact ⟨a, rfl, congrArg Prod.snd heq⟩

/-- A map has one pair for a key. -/
theorem withKey_pairs (k : K) :
    withKey Prod.fst k m.pairs = (m.get k).toList.map fun v => (k, v) := by
  rw [withKey, get]
  cases hfind : m.pairs.find? fun a => decide (a.1 = k) with
  | none =>
    rw [filter_eq_nil_iff.mpr (find?_eq_none.mp hfind)]
    rfl
  | some a =>
    have hk : a.1 = k := by simpa using find?_some hfind
    rw [filter_eq_cons_of_find? (fun a => lt_irrefl a.1) m.sorted hfind, filter_eq_nil_iff.mpr]
    · simp [← hk]
    · intro b _ hb
      rw [Bool.and_eq_true, decide_eq_true_iff, decide_eq_true_iff] at hb
      exact hb.2.ne (hk.trans hb.1.symm)

theorem seek_eq_filter (k : K) : m.seek k = m.pairs.filter fun a => decide (k ≤ a.1) := by
  rw [← dropWhile_not_eq_filter (m.sorted.imp fun hlt hle => ?_), seek]
  · simp only [← decide_not, not_le]
  · rw [decide_eq_true_iff] at hle ⊢
    exact hle.trans hlt.le

variable {a : K × V}

theorem seek_eq_nil (hseek : m.seek k = []) (ha : a ∈ m.pairs) : a.1 < k := by
  rw [seek_eq_filter, filter_eq_nil_iff] at hseek
  simpa using hseek a ha

/-- The walk begins at the least key that is not below `k`. -/
theorem seek_eq_cons {rest : List (K × V)} (hseek : m.seek k = a :: rest) :
    a ∈ m.pairs ∧ k ≤ a.1 ∧ ∀ b ∈ m.pairs, k ≤ b.1 → a.1 ≤ b.1 := by
  rw [seek_eq_filter] at hseek
  have ha := mem_filter.mp (hseek ▸ mem_cons_self :
    a ∈ m.pairs.filter fun a => decide (k ≤ a.1))
  refine ⟨ha.1, of_decide_eq_true ha.2, fun b hb hle => ?_⟩
  have hsorted := m.sorted.filter fun a => decide (k ≤ a.1)
  have hmem : b ∈ m.pairs.filter fun a => decide (k ≤ a.1) :=
    mem_filter.mpr ⟨hb, decide_eq_true hle⟩
  rw [hseek] at hsorted hmem
  exact le_of_mem_cons (hsorted.imp le_of_lt) hmem

/-- What holds of pairs as they stand holds of pairs with keys in that order. -/
theorem rel_of_lt {R : K × V → K × V → Prop} (hR : m.pairs.Pairwise R) {b : K × V}
    (ha : a ∈ m.pairs) (hb : b ∈ m.pairs) (hlt : a.1 < b.1) : R a b := by
  obtain ⟨front, back, hpairs⟩ := append_of_mem ha
  have hsorted := m.sorted
  rw [hpairs, pairwise_append, pairwise_cons] at hR hsorted
  rw [hpairs, mem_append, mem_cons] at hb
  rcases hb with hb | rfl | hb
  · exact absurd hlt (hsorted.2.2 b hb a mem_cons_self).not_gt
  · exact absurd hlt (lt_irrefl _)
  · exact hR.2.1.1 b hb

/-- The pair with the greatest key up to `k`. -/
def floor (k : K) : Option (K × V) := (m.pairs.filter fun a => decide (a.1 ≤ k)).getLast?

/-- Put `v` under `k`, in the place of what is there. -/
def insert (k : K) (v : V) : SortedPairs K V where
  pairs := (m.pairs.filter fun a => decide (a.1 < k)) ++
    (k, v) :: m.pairs.filter fun a => decide (k < a.1)
  sorted := by
    rw [pairwise_append, pairwise_cons]
    refine ⟨m.sorted.filter _, ⟨?_, m.sorted.filter _⟩, ?_⟩
    · intro b hb
      simpa using (mem_filter.mp hb).2
    · intro a ha b hb
      have hak : a.1 < k := by simpa using (mem_filter.mp ha).2
      rcases mem_cons.mp hb with rfl | hb
      · exact hak
      · have hkb : k < b.1 := by simpa using (mem_filter.mp hb).2
        exact hak.trans hkb

theorem mem_insert {v : V} : a ∈ (m.insert k v).pairs ↔ a = (k, v) ∨ a ∈ m.pairs ∧ a.1 ≠ k := by
  simp only [insert, mem_append, mem_cons, mem_filter, decide_eq_true_iff, ← lt_or_lt_iff_ne]
  tauto

theorem get_insert (k l : K) (v : V) :
    (m.insert k v).get l = if l = k then some v else m.get l := by
  apply Option.ext
  intro w
  rw [get_eq_some, mem_insert]
  by_cases hl : l = k
  · simp [hl, eq_comm]
  · simp [hl, get_eq_some]

theorem eq_of_mem_iff {l l' : List (K × V)} (hl : l.Pairwise fun a b => a.1 < b.1)
    (hl' : l'.Pairwise fun a b => a.1 < b.1) (h : ∀ a, a ∈ l ↔ a ∈ l') : l = l' := by
  have : Std.Irrefl fun a b : K × V => a.1 < b.1 := ⟨fun a => lt_irrefl a.1⟩
  have : Std.Antisymm fun a b : K × V => a.1 < b.1 := ⟨fun a b hab hba => absurd hba hab.not_gt⟩
  exact List.Pairwise.eq_of_mem_iff hl hl' h

section

variable {m} {m' : SortedPairs K V}

theorem ext_get (h : ∀ k, m.get k = m'.get k) : m = m' := by
  have hpairs : m.pairs = m'.pairs := eq_of_mem_iff m.sorted m'.sorted fun a => by
    rw [← m.get_eq_some, h, m'.get_eq_some]
  obtain ⟨pairs, sorted⟩ := m
  subst hpairs
  rfl

/-- Only the pairs up to a key matter to what is found below it. -/
theorem floor_congr (h : ∀ j ≤ k, m.get j = m'.get j) : m.floor k = m'.floor k := by
  rw [floor, floor, eq_of_mem_iff (m.sorted.filter _) (m'.sorted.filter _) fun a => ?_]
  simp only [mem_filter, decide_eq_true_iff]
  refine and_congr_left fun hle => ?_
  rw [← m.get_eq_some, ← m'.get_eq_some, h a.1 hle]

end

def empty : SortedPairs K V := ⟨[], List.Pairwise.nil⟩

/-- Take away what is under `k`. -/
def erase (k : K) : SortedPairs K V :=
  ⟨m.pairs.filter fun a => decide (a.1 ≠ k), m.sorted.filter _⟩

theorem get_empty (k : K) : (empty : SortedPairs K V).get k = none := rfl

theorem get_erase (k l : K) : (m.erase k).get l = if l = k then none else m.get l := by
  apply Option.ext
  intro w
  rw [get_eq_some, erase, mem_filter, decide_eq_true_iff]
  by_cases hl : l = k
  · simp [hl]
  · simp [hl, get_eq_some]

theorem floor_eq_none : m.floor k = none ↔ ∀ a ∈ m.pairs, k < a.1 := by
  rw [floor, getLast?_eq_none_iff, filter_eq_nil_iff]
  simp only [decide_eq_true_eq, not_le]

theorem floor_eq_some :
    m.floor k = some a ↔ a ∈ m.pairs ∧ a.1 ≤ k ∧ ∀ b ∈ m.pairs, b.1 ≤ k → b.1 ≤ a.1 := by
  have hgreatest : ∀ {a}, m.floor k = some a →
      a ∈ m.pairs ∧ a.1 ≤ k ∧ ∀ b ∈ m.pairs, b.1 ≤ k → b.1 ≤ a.1 := by
    intro a hlast
    obtain ⟨ha, hle⟩ := mem_filter.mp (mem_of_getLast? hlast)
    have hsorted := (m.sorted.filter fun a => decide (a.1 ≤ k)).imp le_of_lt
    exact ⟨ha, of_decide_eq_true hle, fun b hb hbk =>
      le_of_getLast? hsorted hlast b (mem_filter.mpr ⟨hb, decide_eq_true hbk⟩)⟩
  refine ⟨hgreatest, ?_⟩
  rintro ⟨ha, hle, habove⟩
  cases hlast : m.floor k with
  | none => exact absurd (m.floor_eq_none.mp hlast a ha) hle.not_gt
  | some b =>
    obtain ⟨hb, hbk, hb'⟩ := hgreatest hlast
    have hkey := (habove b hb hbk).antisymm (hb' a ha hle)
    have hvalue := m.get_eq_some.mpr hb
    rw [hkey, m.get_eq_some.mpr ha, Option.some.injEq] at hvalue
    rw [Prod.ext hkey hvalue.symm]

end SortedPairs

/-! ### Keys with a common beginning -/

theorem le_of_isPrefix {a b : Bytes} (h : a <+: b) : a ≤ b := by
  obtain ⟨c, rfl⟩ := h
  induction a with
  | nil => exact nil_le_bytes c
  | cons x a ih => exact not_lt.mp fun hlt => not_lt.mpr ih (by simpa using hlt)

/-- Between a byte string and a key that begins with it all keys do. -/
theorem isPrefix_of_le {pre a b : Bytes} (hpre : pre ≤ a) (hab : a ≤ b) (hb : pre <+: b) :
    pre <+: a := by
  induction pre generalizing a b with
  | nil => exact nil_prefix
  | cons x pre ih =>
    obtain ⟨c, rfl⟩ := hb
    cases a with
    | nil => exact absurd (nil_lt_cons x pre) (not_lt.mpr hpre)
    | cons y a =>
      rw [← not_lt, cons_append, cons_lt_cons_iff, not_or] at hab
      rw [← not_lt, cons_lt_cons_iff, not_or] at hpre
      obtain rfl : y = x := le_antisymm (not_lt.mp hab.1) (not_lt.mp hpre.1)
      rw [cons_prefix_cons]
      exact ⟨rfl, ih (not_lt.mp fun h => hpre.2 ⟨rfl, h⟩)
        (not_lt.mp fun h => hab.2 ⟨rfl, h⟩) (prefix_append pre c)⟩

section Walk

variable {A : Type u} {key : A → Bytes} {pre : Bytes} {l : List A}

theorem takeWhile_isPrefixOf (hl : l.Pairwise fun a b => key a < key b)
    (hfrom : ∀ a ∈ l, pre ≤ key a) :
    l.takeWhile (fun a => pre.isPrefixOf (key a)) =
      l.filter fun a => pre.isPrefixOf (key a) := by
  refine takeWhile_eq_filter (hl.imp_of_mem fun ha _ hlt hpre => ?_)
  rw [List.isPrefixOf_iff_prefix] at hpre ⊢
  exact isPrefix_of_le (hfrom _ ha) hlt.le hpre

/-- From the byte string on, the keys that begin with it come first. -/
theorem SortedPairs.takeWhile_seek {V : Type v} (m : SortedPairs Bytes V) (pre : Bytes) :
    (m.seek pre).takeWhile (fun a => pre.isPrefixOf a.1) =
      m.pairs.filter fun a => pre.isPrefixOf a.1 := by
  rw [m.seek_eq_filter, takeWhile_isPrefixOf (m.sorted.filter _)
    (fun a ha => by simpa using (mem_filter.mp ha).2), filter_filter]
  refine filter_congr fun a _ => ?_
  cases hpre : pre.isPrefixOf a.1 with
  | false => rfl
  | true => simpa using le_of_isPrefix (List.isPrefixOf_iff_prefix.mp hpre)

end Walk

end Erigon
