/-
Stable sorting by a key.  A sorted list that keeps, for every key, the items of
that key in their old order is determined by this; so the results of sorting
and of merging can be compared through what they do to a single key.
-/
import Mathlib.Data.List.Sort
import Erigon.OrderedLists

namespace Erigon

open List

universe u v

variable {A : Type u} {K : Type v} [LinearOrder K] (key : A → K)

/-- The items with a given key. -/
def withKey (k : K) (xs : List A) : List A :=
  xs.filter fun a => decide (key a = k)

section WithKey

variable {key : A → K} {k : K}

@[simp] theorem withKey_nil : withKey key k [] = [] := rfl

variable {xs : List A}

theorem withKey_cons_self {a : A} :
    withKey key (key a) (a :: xs) = a :: withKey key (key a) xs := by
  simp [withKey]

theorem withKey_cons_ne {a : A} (hne : key a ≠ k) : withKey key k (a :: xs) = withKey key k xs := by
  simp [withKey, hne]

@[simp] theorem withKey_append (xs ys : List A) :
    withKey key k (xs ++ ys) = withKey key k xs ++ withKey key k ys :=
  filter_append ..

theorem withKey_map {B : Type*} (f : B → A) (bs : List B) :
    withKey key k (bs.map f) = (withKey (key ∘ f) k bs).map f :=
  filter_map

/-- A test that the items of the key pass. -/
theorem withKey_filter {q : A → Bool} (hq : ∀ a, key a = k → q a = true) (xs : List A) :
    withKey key k (xs.filter q) = withKey key k xs := by
  rw [withKey, filter_filter]
  refine filter_congr fun a _ => ?_
  by_cases ha : key a = k
  · simp [ha, hq a ha]
  · simp [ha]

theorem mem_withKey {a : A} : a ∈ withKey key k xs ↔ a ∈ xs ∧ key a = k := by
  rw [withKey, mem_filter, decide_eq_true_iff]

theorem withKey_eq_nil (hne : ∀ a ∈ xs, key a ≠ k) : withKey key k xs = [] :=
  filter_eq_nil_iff.mpr fun a ha => by simpa using hne a ha

end WithKey

/-- `ys` is sorted and has the items of every key as `xs` has them. -/
structure StableSorted (key : A → K) (xs ys : List A) : Prop where
  sorted : ys.Pairwise fun a b => key a ≤ key b
  keeps : ∀ k, withKey key k ys = withKey key k xs

namespace StableSorted

variable {key : A → K} {xs ys zs : List A}

theorem mem_iff (h : StableSorted key xs ys) {a : A} : a ∈ ys ↔ a ∈ xs := by
  have hkeeps := congrArg (a ∈ ·) (h.keeps (key a))
  simpa [mem_withKey] using hkeeps

theorem trans (hxy : StableSorted key xs ys) (hyz : StableSorted key ys zs) :
    StableSorted key xs zs :=
  ⟨hyz.sorted, fun k => (hyz.keeps k).trans (hxy.keeps k)⟩

/-- A list has only one stable sorting. -/
theorem unique (hy : StableSorted key xs ys) (hz : StableSorted key xs zs) : ys = zs := by
  have hsame : ∀ k, withKey key k ys = withKey key k zs := fun k =>
    (hy.keeps k).trans (hz.keeps k).symm
  replace hy := hy.sorted
  replace hz := hz.sorted
  induction ys generalizing zs with
  | nil =>
    cases zs with
    | nil => rfl
    | cons z zs => exact absurd (hsame (key z)) (by simp [withKey_cons_self])
  | cons y ys ih =>
    cases zs with
    | nil => exact absurd (hsame (key y)) (by simp [withKey_cons_self])
    | cons z zs =>
      have hmem : ∀ a, a ∈ y :: ys ↔ a ∈ z :: zs := by
        intro a
        simpa [mem_withKey] using congrArg (a ∈ ·) (hsame (key a))
      have hyz : key y ≤ key z := le_of_mem_cons hy ((hmem z).mpr mem_cons_self)
      have hzy : key z ≤ key y := le_of_mem_cons hz ((hmem y).mp mem_cons_self)
      have hkey : key z = key y := le_antisymm hzy hyz
      have hheads := hsame (key y)
      rw [withKey_cons_self, ← hkey, withKey_cons_self, List.cons.injEq] at hheads
      rw [← hheads.1]
      refine congrArg (y :: ·) (ih (fun k => ?_) hy.of_cons hz.of_cons)
      by_cases hk : key y = k
      · rw [← hk, ← hkey]
        exact hheads.2
      · have := hsame k
        rwa [withKey_cons_ne hk, withKey_cons_ne (hkey ▸ hk)] at this

end StableSorted

/-- The stable sorting of a list. -/
def stableSort (xs : List A) : List A :=
  xs.insertionSort fun a b => key a ≤ key b

theorem stableSort_perm (xs : List A) : (stableSort key xs).Perm xs :=
  perm_insertionSort _ xs

instance keyLeTotal (key : A → K) : Std.Total fun a b : A => key a ≤ key b :=
  ⟨fun a b => le_total (key a) (key b)⟩

instance keyLeTrans (key : A → K) : IsTrans A fun a b : A => key a ≤ key b :=
  ⟨fun _ _ _ => le_trans⟩

theorem stableSorted_stableSort (xs : List A) :
    StableSorted key xs (stableSort key xs) := by
  refine ⟨pairwise_insertionSort _ xs, fun k => ?_⟩
  have hpairwise : (withKey key k xs).Pairwise fun a b => key a ≤ key b := by
    refine pairwise_of_forall_mem_list fun a ha b hb => ?_
    rw [(mem_withKey.mp ha).2, (mem_withKey.mp hb).2]
  -- The items of one key are a sorted part of the list, so the sorting keeps them in order.
  have hsub := (sublist_insertionSort hpairwise filter_sublist).filter
    fun a => decide (key a = k)
  rw [withKey, filter_filter] at hsub
  simp only [Bool.and_self] at hsub
  refine (hsub.eq_of_length ?_).symm
  exact ((stableSort_perm key xs).filter _).length_eq.symm

theorem StableSorted.eq_stableSort {key : A → K} {xs ys : List A}
    (h : StableSorted key xs ys) : ys = stableSort key xs :=
  h.unique (stableSorted_stableSort key xs)

end Erigon
