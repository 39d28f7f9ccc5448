/-
Binary heaps in arrays, as `container/heap` of the Go library keeps them: the
children of position `i` are `2 * i + 1` and `2 * i + 2`, and no element is less
than its parent.  The loops carry a bound on their passes; `push`, `pop` and
`fix` give them one that is never reached.
-/
import Mathlib.Data.List.Perm.Basic

namespace Erigon

open Array

universe u

namespace BinaryHeap

variable {A : Type u} (less : A → A → Bool) (h : Array A)

/-- `Less(i, j)` on positions. -/
def lessAt (i j : Nat) : Bool :=
  match h[i]?, h[j]? with
  | some a, some b => less a b
  | _, _ => false

def up : Nat → Array A → Nat → Array A
  | 0, h, _ => h
  | fuel + 1, h, j =>
    if (j - 1) / 2 = j ∨ lessAt less h j ((j - 1) / 2) = false then h
    else up fuel (h.swapIfInBounds ((j - 1) / 2) j) ((j - 1) / 2)

/-- The smaller child of `i` among the first `n`, when there is one. -/
def smallerChild (i n : Nat) : Nat :=
  let j1 := 2 * i + 1
  if j1 + 1 < n ∧ lessAt less h (j1 + 1) j1 = true then j1 + 1 else j1

/-- The array and the position at which the element came to rest. -/
def down : Nat → Array A → Nat → Nat → Array A × Nat
  | 0, h, i, _ => (h, i)
  | fuel + 1, h, i, n =>
    if n ≤ 2 * i + 1 then (h, i)
    else if lessAt less h (smallerChild less h i n) i = false then (h, i)
    else
      down fuel (h.swapIfInBounds i (smallerChild less h i n)) (smallerChild less h i n) n

def push (x : A) : Array A :=
  up less (h.size + 1) (h.push x) h.size

/-- The least element and the heap without it. -/
def pop : Option (A × Array A) :=
  let n := h.size - 1
  let sunk := (down less n (h.swapIfInBounds 0 n) 0 n).1
  sunk.back?.map fun x => (x, sunk.pop)

/-! ### Positions -/

section Positions

variable {less}

variable {h : Array A} {i j n : Nat}

theorem lessAt_eq (hi : i < h.size) (hj : j < h.size) : lessAt less h i j = less h[i] h[j] := by
  simp [lessAt, hi, hj]

/-- Where the element at a position was before an exchange. -/
def swapIdx (i j k : Nat) : Nat := if k = i then j else if k = j then i else k

theorem getElem?_swapIfInBounds (hi : i < h.size) (hj : j < h.size) (k : Nat) :
    (h.swapIfInBounds i j)[k]? = h[swapIdx i j k]? := by
  unfold swapIdx
  by_cases hk : k < h.size
  · rw [getElem?_eq_getElem (by simpa using hk), getElem_swapIfInBounds]
    grind
  · rw [getElem?_eq_none (by simpa using hk)]
    grind

theorem lessAt_swap (hi : i < h.size) (hj : j < h.size) (a b : Nat) :
    lessAt less (h.swapIfInBounds i j) a b =
      lessAt less h (swapIdx i j a) (swapIdx i j b) := by
  rw [lessAt, lessAt, getElem?_swapIfInBounds hi hj, getElem?_swapIfInBounds hi hj]

variable (less) in
theorem smallerChild_bounds (h : Array A) (hchild : 2 * i + 1 < n) :
    smallerChild less h i n < n ∧ (smallerChild less h i n - 1) / 2 = i ∧
      0 < smallerChild less h i n := by
  unfold smallerChild
  dsimp only
  split <;> omega

theorem swapIfInBounds_perm (h : Array A) (i j : Nat) :
    (h.swapIfInBounds i j).toList.Perm h.toList := by
  rw [← perm_iff_toList_perm]
  unfold swapIfInBounds
  split
  · split
    · exact swap_perm _ _
    · exact .refl _
  · exact .refl _

variable (fuel : Nat)

theorem up_perm (h : Array A) (j : Nat) : (up less fuel h j).toList.Perm h.toList := by
  induction fuel generalizing h j with
  | zero => exact .refl _
  | succ fuel ih =>
    rw [up]
    split
    · exact .refl _
    · exact (ih _ _).trans (swapIfInBounds_perm h _ _)

theorem down_perm (h : Array A) (i n : Nat) :
    (down less fuel h i n).1.toList.Perm h.toList := by
  induction fuel generalizing h i with
  | zero => exact .refl _
  | succ fuel ih =>
    rw [down]
    split
    · exact .refl _
    · split
      · exact .refl _
      · exact (ih _ _).trans (swapIfInBounds_perm h _ _)

theorem down_size (h : Array A) (i n : Nat) :
    (down less fuel h i n).1.size = h.size := by
  simpa using (down_perm fuel h i n).length_eq

/-- Sinking within the first `n` positions leaves the others alone. -/
theorem down_getElem? (hi : i < n) (hn : n ≤ h.size) {k : Nat} (hk : n ≤ k) :
    (down less fuel h i n).1[k]? = h[k]? := by
  induction fuel generalizing h i with
  | zero => rfl
  | succ fuel ih =>
    rw [down]
    split
    · rfl
    · split
      · rfl
      · rename_i hchild _
        have hchosen := smallerChild_bounds less h (Nat.lt_of_not_le hchild)
        rw [ih hchosen.1 (by simpa using hn), getElem?_swapIfInBounds (by omega) (by omega),
          swapIdx, if_neg (by omega), if_neg (by omega)]

theorem push_perm (h : Array A) (x : A) : (push less h x).toList.Perm (x :: h.toList) := by
  refine (up_perm _ _ _).trans ?_
  rw [toList_push]
  exact List.perm_append_singleton x h.toList

end Positions

/-! ### Order -/

/-- No element of the first `n` is less than its parent. -/
def Ordered (n : Nat) (h : Array A) : Prop :=
  ∀ c, 0 < c → c < n → lessAt less h c ((c - 1) / 2) = false

/-- What `up` needs: only the element at `j` may be less than its parent. -/
structure UpOrder (n : Nat) (h : Array A) (j : Nat) : Prop where
  other : ∀ c, 0 < c → c < n → c ≠ j → lessAt less h c ((c - 1) / 2) = false
  grand : ∀ c, 0 < c → c < n → (c - 1) / 2 = j → 0 < j →
    lessAt less h c ((j - 1) / 2) = false

/-- What `down` needs: only the children of `i` may be less than their parent. -/
structure DownOrder (n : Nat) (h : Array A) (i : Nat) : Prop where
  other : ∀ c, 0 < c → c < n → (c - 1) / 2 ≠ i → lessAt less h c ((c - 1) / 2) = false
  grand : ∀ c, 0 < c → c < n → (c - 1) / 2 = i → 0 < i →
    lessAt less h c ((i - 1) / 2) = false

section Order

variable {less}
  (hasymm : ∀ a b, less a b = true → less b a = false)
  (htrans : ∀ a b c, less b a = false → less c b = false → less c a = false)

variable {h : Array A} {i j n fuel : Nat}

include hasymm

theorem lessAt_asymm (hless : lessAt less h i j = true) : lessAt less h j i = false := by
  unfold lessAt at hless ⊢
  split at hless
  · rename_i a b ha hb
    rw [ha, hb]
    exact hasymm a b hless
  · cases hless

theorem lessAt_irrefl (h : Array A) (i : Nat) : lessAt less h i i = false := by
  by_contra hself
  exact hself (lessAt_asymm hasymm (Bool.not_eq_false _ ▸ hself))

theorem smallerChild_least (h : Array A) (i n : Nat) : ∀ c, 0 < c → c < n → (c - 1) / 2 = i →
    lessAt less h c (smallerChild less h i n) = false := by
  intro c hc hcn hparent
  unfold smallerChild
  dsimp only
  rcases show c = 2 * i + 1 ∨ c = 2 * i + 1 + 1 by omega with rfl | rfl
  · split
    · rename_i hright
      exact lessAt_asymm hasymm hright.2
    · exact lessAt_irrefl hasymm h _
  · split
    · exact lessAt_irrefl hasymm h _
    · rename_i hleft
      rw [not_and, Bool.not_eq_true] at hleft
      exact hleft hcn

theorem DownOrder.move (horder : DownOrder less n h i) (hn : n ≤ h.size) (hi : i < n) (hj : j < n)
    (hchild : (j - 1) / 2 = i) (hpos : 0 < j)
    (hsmaller : ∀ c, 0 < c → c < n → (c - 1) / 2 = i → lessAt less h c j = false)
    (hless : lessAt less h j i = true) : DownOrder less n (h.swapIfInBounds i j) j := by
  have hback := lessAt_asymm hasymm hless
  have hij : i ≠ j := by omega
  constructor
  · intro c hc hcn hcp
    rw [lessAt_swap (by omega) (by omega)]
    by_cases hcj : c = j
    · rw [hcj, hchild]
      simpa [swapIdx, hij, Ne.symm hij] using hback
    · by_cases hci : c = i
      · rw [hci]
        simpa [swapIdx, show (i - 1) / 2 ≠ i by omega, show (i - 1) / 2 ≠ j by omega] using
          horder.grand j hpos hj hchild (by omega)
      · rw [show swapIdx i j c = c by rw [swapIdx, if_neg hci, if_neg hcj]]
        by_cases hparent : (c - 1) / 2 = i
        · rw [swapIdx, if_pos hparent]
          exact hsmaller c hc hcn hparent
        · rw [swapIdx, if_neg hparent, if_neg hcp]
          exact horder.other c hc hcn hparent
  · intro c hc hcn hparent _
    rw [lessAt_swap (by omega) (by omega), hchild,
      show swapIdx i j c = c by rw [swapIdx, if_neg (by omega), if_neg (by omega)],
      swapIdx, if_pos rfl]
    have := horder.other c hc hcn (by omega)
    rwa [hparent] at this

include htrans

omit hasymm in
theorem lessAt_trans {k : Nat} (hj : j < h.size) (hij : lessAt less h j i = false)
    (hjk : lessAt less h k j = false) :
    lessAt less h k i = false := by
  have hjsome := getElem?_eq_getElem hj
  unfold lessAt at hij hjk ⊢
  rw [hjsome] at hij hjk
  cases hi : h[i]? with
  | none => cases h[k]? <;> rfl
  | some a =>
    cases hk : h[k]? with
    | none => rfl
    | some c =>
      rw [hi] at hij
      rw [hk] at hjk
      exact htrans a h[j] c hij hjk

theorem UpOrder.move (horder : UpOrder less n h j) (hn : n ≤ h.size) (hj : j < n) (hpos : 0 < j)
    (hless : lessAt less h j ((j - 1) / 2) = true) :
    UpOrder less n (h.swapIfInBounds ((j - 1) / 2) j) ((j - 1) / 2) := by
  have hback := lessAt_asymm hasymm hless
  have hp : (j - 1) / 2 < h.size := by omega
  constructor
  · intro c hc hcn hcp
    rw [lessAt_swap hp (by omega)]
    by_cases hcj : c = j
    · -- the old parent, now below the element
      rw [hcj]
      simpa [swapIdx, show j ≠ (j - 1) / 2 by omega] using hback
    · have hcfix : swapIdx ((j - 1) / 2) j c = c := by
        rw [swapIdx, if_neg hcp, if_neg hcj]
      rw [hcfix]
      have hkeep := horder.other c hc hcn hcj
      unfold swapIdx
      split
      · rename_i hparent
        rw [hparent] at hkeep
        exact lessAt_trans htrans hp hback hkeep
      · split
        · rename_i hparent
          exact horder.grand c hc hcn hparent hpos
        · exact hkeep
  · intro c hc hcn hparent hppos
    rw [lessAt_swap hp (by omega)]
    have hgrand : swapIdx ((j - 1) / 2) j (((j - 1) / 2 - 1) / 2) = ((j - 1) / 2 - 1) / 2 := by
      rw [swapIdx, if_neg (by omega), if_neg (by omega)]
    have hup := horder.other ((j - 1) / 2) hppos (by omega) (by omega)
    rw [hgrand]
    by_cases hcj : c = j
    · rw [hcj]
      simpa [swapIdx, show j ≠ (j - 1) / 2 by omega] using hup
    · rw [swapIdx, if_neg (by omega), if_neg hcj]
      have hkeep := horder.other c hc hcn hcj
      rw [hparent] at hkeep
      exact lessAt_trans htrans hp hup hkeep

theorem up_ordered (horder : UpOrder less n h j) (hn : n ≤ h.size) (hj : j < n) (hfuel : j < fuel) :
    Ordered less n (up less fuel h j) := by
  induction fuel generalizing h j with
  | zero => omega
  | succ fuel ih =>
    rw [up]
    split
    · rename_i hstop
      intro c hc hcn
      by_cases hcj : c = j
      · rcases hstop with hroot | hstop
        · omega
        · rw [hcj]
          exact hstop
      · exact horder.other c hc hcn hcj
    · rename_i hmove
      rw [not_or, Bool.not_eq_false] at hmove
      exact ih (horder.move hasymm htrans hn hj (by omega) hmove.2) (by simpa using hn)
        (by omega) (by omega)

theorem down_ordered (horder : DownOrder less n h i) (hn : n ≤ h.size) (hi : i < n)
    (hfuel : n ≤ i + fuel) :
    Ordered less n (down less fuel h i n).1 := by
  induction fuel generalizing h i with
  | zero => omega
  | succ fuel ih =>
    rw [down]
    split
    · rename_i hleaf
      exact fun c hc hcn => horder.other c hc hcn (by omega)
    · rename_i hchild
      obtain ⟨hjn, hparent, hpos⟩ := smallerChild_bounds less h (Nat.lt_of_not_le hchild)
      have hsmaller := smallerChild_least hasymm h i n
      split
      · rename_i hstop
        intro c hc hcn
        by_cases hparent : (c - 1) / 2 = i
        · rw [hparent]
          exact lessAt_trans htrans (Nat.lt_of_lt_of_le hjn hn) hstop
            (hsmaller c hc hcn hparent)
        · exact horder.other c hc hcn hparent
      · rename_i hmove
        rw [Bool.not_eq_false] at hmove
        exact ih (horder.move hasymm hn hi hjn hparent hpos hsmaller hmove)
          (by simpa using hn) hjn (by omega)

/-- Nothing is less than the root. -/
theorem Ordered.root (horder : Ordered less n h) (hn : n ≤ h.size) :
    ∀ c, c < n → lessAt less h c 0 = false := by
  intro c
  induction c using Nat.strongRecOn with
  | ind c ih =>
    intro hcn
    rcases Nat.eq_zero_or_pos c with rfl | hc
    · exact lessAt_irrefl hasymm h 0
    · exact lessAt_trans htrans (show (c - 1) / 2 < h.size by omega)
        (ih ((c - 1) / 2) (by omega) (by omega)) (horder c hc hcn)

/-! ### Operations -/

theorem push_ordered (horder : Ordered less h.size h) (x : A) :
    Ordered less (push less h x).size (push less h x) := by
  have hperm : (push less h x).toList.Perm (x :: h.toList) := push_perm h x
  have hsize : (push less h x).size = h.size + 1 := by
    simpa using hperm.length_eq
  have hold : ∀ i j, i < h.size → j < h.size →
      lessAt less (h.push x) i j = lessAt less h i j := by
    intro i j hi hj
    rw [lessAt, lessAt, getElem?_push_lt hi, getElem?_push_lt hj,
      getElem?_eq_getElem hi, getElem?_eq_getElem hj]
  rw [hsize]
  refine up_ordered hasymm htrans ⟨fun c hc hcn hne => ?_, fun c hc hcn hparent _ => ?_⟩
    (by simp) (by omega) (by omega)
  · rw [hold c _ (by omega) (by omega)]
    exact horder c hc (by omega)
  · omega

theorem foldl_push_ordered (xs : List A) (horder : Ordered less h.size h) :
    Ordered less (xs.foldl (push less) h).size (xs.foldl (push less) h) ∧
      (xs.foldl (push less) h).toList.Perm (xs ++ h.toList) := by
  induction xs generalizing h with
  | nil => exact ⟨horder, List.Perm.refl _⟩
  | cons x xs ih =>
    obtain ⟨horder', hperm⟩ := ih (push_ordered hasymm htrans horder x)
    exact ⟨horder', hperm.trans (((push_perm h x).append_left xs).trans List.perm_middle)⟩

/-- `pop` takes the root, which is a least element. -/
theorem pop_spec (horder : Ordered less h.size h) (hne : 0 < h.size) :
    ∃ x rest, pop less h = some (x, rest) ∧ h[0]? = some x ∧ Ordered less rest.size rest ∧
      h.toList.Perm (x :: rest.toList) ∧ ∀ y ∈ h.toList, less y x = false := by
  obtain ⟨n, hn⟩ : ∃ n, h.size = n + 1 := ⟨h.size - 1, by omega⟩
  have hswap : DownOrder less n (h.swapIfInBounds 0 n) 0 := by
    refine ⟨fun c hc hcn hparent => ?_, fun c _ _ _ hzero => absurd hzero (Nat.lt_irrefl 0)⟩
    rw [lessAt_swap (by omega) (by omega), swapIdx, if_neg (by omega), if_neg (by omega),
      swapIdx, if_neg hparent, if_neg (by omega)]
    exact horder c hc (by omega)
  generalize hsunk : (down less n (h.swapIfInBounds 0 n) 0 n).1 = sunk
  have hsize : sunk.size = n + 1 := by
    rw [← hsunk, down_size, size_swapIfInBounds, hn]
  have hperm : sunk.toList.Perm h.toList := by
    rw [← hsunk]
    exact (down_perm _ _ _ _).trans (swapIfInBounds_perm h 0 n)
  -- The last position holds the old root, and the others are in order.
  have hlast : sunk[n]? = h[0]? ∧ Ordered less n sunk := by
    rcases Nat.eq_zero_or_pos n with rfl | hpos
    · refine ⟨?_, fun c _ hc => absurd hc (Nat.not_lt_zero c)⟩
      rw [← hsunk, down, getElem?_swapIfInBounds hne hne]
      rfl
    · rw [← hsunk]
      constructor
      · rw [down_getElem? n hpos (by rw [size_swapIfInBounds]; omega) (Nat.le_refl n),
          getElem?_swapIfInBounds (by omega) (by omega), swapIdx, if_neg (by omega), if_pos rfl]
      · exact down_ordered hasymm htrans hswap (by rw [size_swapIfInBounds]; omega) hpos (by omega)
  have hback : sunk.back? = some h[0] := by
    rw [back?, hsize, Nat.add_sub_cancel, hlast.1, getElem?_eq_getElem hne]
  have hsplit : sunk.toList = sunk.pop.toList ++ [h[0]] := by
    rw [back?_eq_getElem?, getElem?_toList.symm] at hback
    rw [toList_pop]
    exact (List.dropLast_append_getLast? _ (by
      rw [List.getLast?_eq_getElem?]
      simpa using hback)).symm
  refine ⟨h[0], sunk.pop, ?_, getElem?_eq_getElem hne, ?_, ?_, ?_⟩
  · rw [pop, hn, Nat.add_sub_cancel, hsunk, hback]
    rfl
  · have hpop : ∀ i, i < n → sunk.pop[i]? = sunk[i]? := by
      intro i hi
      rw [getElem?_pop, if_pos (by omega)]
    intro c hc hcn
    rw [size_pop, hsize, Nat.add_sub_cancel] at hcn
    rw [lessAt, hpop c hcn, hpop _ (by omega)]
    exact hlast.2 c hc hcn
  · refine hperm.symm.trans ?_
    rw [hsplit]
    exact List.perm_append_singleton _ _
  · intro y hy
    obtain ⟨c, hc, rfl⟩ := List.getElem_of_mem hy
    have hroot := horder.root hasymm htrans (Nat.le_refl _) c (by simpa using hc)
    rw [lessAt_eq (by simpa using hc) hne] at hroot
    simpa using hroot

end Order

end BinaryHeap

end Erigon
