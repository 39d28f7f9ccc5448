/-
Maximal elements by one scan.  A list is walked in an order in which nothing is
inside something that comes earlier; every item first removes, from the end of
what is kept, whatever is inside it.  The kept items are the maximal ones.
-/
import Mathlib.Data.List.DropRight
import Erigon.OrderedLists

namespace Erigon

open List

universe u

variable {A : Type u}

/-- Dropping from the end removes every hit when a hit is followed by hits only. -/
theorem rdropWhile_eq_filter (p : A → Bool) (l : List A)
    (hclosed : l.Pairwise fun a b => p a = true → p b = true) :
    l.rdropWhile p = l.filter fun a => !p a := by
  have hreverse : l.reverse.Pairwise fun a b => (!p a) = true → (!p b) = true :=
    pairwise_reverse.mpr (hclosed.imp fun hab hb => by
      rw [Bool.not_eq_true'] at hb ⊢
      exact Bool.eq_false_of_not_eq_true (mt hab (Bool.not_eq_true _ ▸ hb)))
  have hdrop := dropWhile_not_eq_filter hreverse
  simp only [Bool.not_not] at hdrop
  rw [rdropWhile, hdrop, filter_reverse, reverse_reverse]

/-- Keep `item` and drop what is inside it from the end. -/
def pushMaximal (inside : A → A → Bool) (kept : List A) (item : A) : List A :=
  kept.rdropWhile (fun a => inside a item) ++ [item]

/-- What the order of the walk must give. -/
structure ScanOrder (inside : A → A → Bool) (before : A → A → Prop) : Prop where
  irrefl : ∀ a, inside a a = false
  back : ∀ {a b}, before a b → inside b a = false
  next : ∀ {a b c}, before a b → inside a b = false → inside a c = true →
    before b c → inside b c = true
  trans : ∀ {a b c}, inside a b = true → inside b c = true → inside a c = true

section Scan

variable {inside : A → A → Bool} {before : A → A → Prop} (h : ScanOrder inside before)

include h

/-- The scan keeps the items that are inside no item. -/
theorem foldl_pushMaximal (items : List A) (hordered : items.Pairwise before) :
    items.foldl (pushMaximal inside) [] =
      items.filter fun a => items.all fun b => !inside a b := by
  induction items using List.reverseRecOn with
  | nil => rfl
  | append_singleton items item ih =>
    rw [pairwise_append] at hordered
    obtain ⟨hitems, -, hitem⟩ := hordered
    replace hitem : ∀ a ∈ items, before a item := fun a ha =>
      hitem a ha item (mem_singleton_self item)
    rw [foldl_concat, ih hitems, pushMaximal, rdropWhile_eq_filter, filter_filter, filter_append]
    · congr 1
      · simp [Bool.and_comm]
      · have hlast : items.all (fun b => !inside item b) = true :=
          all_eq_true.mpr fun b hb => by rw [h.back (hitem b hb)]; rfl
        simp [hlast, h.irrefl]
    · -- A kept item is inside `item` only together with the kept ones behind it.
      rw [pairwise_filter]
      refine hitems.imp_of_mem fun {a b} ha hb hab hmaxa _ hin => ?_
      have hfree : inside a b = false := by
        simpa using all_eq_true.mp hmaxa b hb
      exact h.next hab hfree hin (hitem b hb)

/-- Every item is kept or inside a kept one. -/
theorem exists_kept_of_mem (items : List A) (hordered : items.Pairwise before) {a : A} (ha : a ∈ items) :
    ∃ kept ∈ items.foldl (pushMaximal inside) [], kept = a ∨ inside a kept = true := by
  induction items using List.reverseRecOn with
  | nil => cases ha
  | append_singleton items item ih =>
    have hpush := foldl_pushMaximal h (items ++ [item]) hordered
    rw [pairwise_append] at hordered
    have hitems := foldl_pushMaximal h items hordered.1
    rw [foldl_concat] at hpush ⊢
    have hlast : item ∈ pushMaximal inside (items.foldl (pushMaximal inside) []) item := by
      simp [pushMaximal]
    rcases mem_append.mp ha with ha | ha
    · obtain ⟨kept, hkept, hcover⟩ := ih hordered.1 ha
      cases hin : inside kept item with
      | true =>
        refine ⟨item, hlast, .inr ?_⟩
        rcases hcover with rfl | hcover
        · exact hin
        · exact h.trans hcover hin
      | false =>
        refine ⟨kept, ?_, hcover⟩
        rw [hitems, mem_filter] at hkept
        rw [hpush, mem_filter]
        exact ⟨mem_append_left _ hkept.1, by simpa [hin] using hkept.2⟩
    · exact ⟨item, hlast, .inl (mem_singleton.mp ha).symm⟩

end Scan

/-- Of ranges in the order of their ends, and of one end the shorter first, the scan keeps those
inside no other; every range has its numbers in a kept one. -/
theorem foldl_pushMaximal_ranges (lo hi : A → Nat) (inside : A → A → Bool)
    (hinside : ∀ a b, inside a b = true ↔
      (lo b ≤ lo a ∧ hi a ≤ hi b) ∧ (lo b ≠ lo a ∨ hi a ≠ hi b))
    {items : List A}
    (hordered : items.Pairwise fun a b => hi a < hi b ∨ hi a = hi b ∧ lo b < lo a) :
    (items.foldl (pushMaximal inside) [] =
        items.filter fun a => items.all fun b => !inside a b) ∧
      ∀ a ∈ items, ∃ kept ∈ items.foldl (pushMaximal inside) [], lo kept ≤ lo a ∧ hi a ≤ hi kept := by
  have h : ScanOrder inside fun a b => hi a < hi b ∨ hi a = hi b ∧ lo b < lo a := by
    refine ⟨fun a => ?_, fun hless => ?_, fun hab hfree hac hbc => ?_, fun hab hbc => ?_⟩
    · rw [← Bool.not_eq_true, hinside]
      omega
    · rw [← Bool.not_eq_true, hinside]
      omega
    · rw [← Bool.not_eq_true, hinside] at hfree
      rw [hinside] at hac ⊢
      omega
    · rw [hinside] at hab hbc ⊢
      omega
  refine ⟨foldl_pushMaximal h items hordered, fun a ha => ?_⟩
  obtain ⟨kept, hkept, hcover⟩ := exists_kept_of_mem h items hordered ha
  refine ⟨kept, hkept, ?_⟩
  rcases hcover with rfl | hcover
  · exact ⟨Nat.le_refl _, Nat.le_refl _⟩
  · exact ((hinside a kept).mp hcover).1

end Erigon
