/-
Sums over the nodes below each node of a forest that is given by parent pointers.  The walks
from a set of starting nodes add up what is assigned to the nodes; a node that one walk has
counted is set to zero for the next.
-/
import Mathlib.Algebra.BigOperators.Group.Finset.Piecewise

namespace Erigon

open List

namespace ParentWalk

universe u v

variable {V : Type u} [DecidableEq V] {M : Type v} [AddCommMonoid M]

/-- The nodes from `a` on, before `stop` and up to a node without a parent. -/
def path (parent : V → Option V) (stop : V) : Nat → V → List V
  | 0, _ => []
  | fuel + 1, a =>
    if a = stop then []
    else
      a :: match parent a with
        | none => []
        | some p => path parent stop fuel p

/-- Along a list of nodes, add up what they hold, set them to zero and add the sums so far to
their totals. -/
def account : List V → M → (V → M) × (V → M) → (V → M) × (V → M)
  | [], _, s => s
  | a :: rest, acc, (held, totals) =>
    account rest (acc + held a)
      (Function.update held a 0, Function.update totals a (totals a + (acc + held a)))

section Walk

variable {parent : V → Option V} (stop : V) {rank : V → Nat}

variable {a p b x : V}

theorem path_congr (hrank : ∀ a p, parent a = some p → rank p < rank a) {f g : Nat}
    (hf : rank a < f) (hg : rank a < g) : path parent stop f a = path parent stop g a := by
  induction f generalizing a g with
  | zero => omega
  | succ f ih =>
    obtain ⟨g, rfl⟩ : ∃ k, g = k + 1 := ⟨g - 1, by omega⟩
    rw [path, path]
    cases hparent : parent a with
    | none => rfl
    | some p =>
      have hp := hrank a p hparent
      simp only [ih (a := p) (g := g) (by omega) (by omega)]

/-- The walk of a node, with the fuel that its rank asks for. -/
def walk (parent : V → Option V) (stop : V) (rank : V → Nat) (a : V) : List V :=
  path parent stop (rank a + 1) a

theorem walk_stop : walk parent stop rank stop = [] := by
  rw [walk, path, if_pos rfl]

theorem walk_root (ha : a ≠ stop) (hparent : parent a = none) : walk parent stop rank a = [a] := by
  rw [walk, path, if_neg ha, hparent]

theorem walk_step (hrank : ∀ a p, parent a = some p → rank p < rank a) (ha : a ≠ stop)
    (hparent : parent a = some p) :
    walk parent stop rank a = a :: walk parent stop rank p := by
  rw [walk, path, if_neg ha, hparent]
  dsimp only
  rw [walk, path_congr stop hrank (hrank a p hparent) (Nat.lt_succ_self _)]

/-- Induction along the parents. -/
theorem walk_induction (hrank : ∀ a p, parent a = some p → rank p < rank a)
    {motive : V → Prop} (hstop : motive stop)
    (hroot : ∀ a, a ≠ stop → parent a = none → motive a)
    (hstep : ∀ a p, a ≠ stop → parent a = some p → motive p → motive a) (a : V) : motive a := by
  induction hn : rank a using Nat.strong_induction_on generalizing a with
  | _ n ih =>
    by_cases ha : a = stop
    · exact ha ▸ hstop
    · cases hparent : parent a with
      | none => exact hroot a ha hparent
      | some p => exact hstep a p ha hparent (ih (rank p) (hn ▸ hrank a p hparent) p rfl)

variable {stop} (hrank : ∀ a p, parent a = some p → rank p < rank a)

include hrank

theorem rank_le_of_mem_walk (hb : b ∈ walk parent stop rank a) : rank b ≤ rank a := by
  induction a using walk_induction stop hrank with
  | hstop => rw [walk_stop] at hb; cases hb
  | hroot a ha hparent =>
    rw [walk_root stop ha hparent, mem_singleton] at hb
    exact hb ▸ le_rfl
  | hstep a p ha hparent ih =>
    rw [walk_step stop hrank ha hparent, mem_cons] at hb
    rcases hb with rfl | hb
    · exact le_rfl
    · exact (ih hb).trans (hrank a p hparent).le

theorem walk_subset {c : V} (hb : b ∈ walk parent stop rank a) (hc : c ∈ walk parent stop rank b) :
    c ∈ walk parent stop rank a := by
  induction a using walk_induction stop hrank with
  | hstop => rw [walk_stop] at hb; cases hb
  | hroot a ha hparent =>
    have hba : b = a := by simpa [walk_root stop ha hparent] using hb
    exact hba ▸ hc
  | hstep a p ha hparent ih =>
    rw [walk_step stop hrank ha hparent, mem_cons] at hb
    rcases hb with rfl | hb
    · exact hc
    · rw [walk_step stop hrank ha hparent]
      exact mem_cons_of_mem a (ih hb)

/-- No walk comes back to a node. -/
theorem not_mem_walk_parent (hparent : parent a = some p) (hx : x ∈ walk parent stop rank p) :
    a ∉ walk parent stop rank x := by
  intro ha
  have hle := rank_le_of_mem_walk hrank (walk_subset hrank hx ha)
  exact absurd (hrank a p hparent) (by omega)

/-- The part of a set of nodes from which a walk leads to `b`. -/
def toward (parent : V → Option V) (stop : V) (rank : V → Nat) (seen : Finset V) (b : V) :
    Finset V :=
  seen.filter fun x => b ∈ walk parent stop rank x

omit hrank in
theorem mem_toward {seen : Finset V} :
    x ∈ toward parent stop rank seen b ↔ x ∈ seen ∧ b ∈ walk parent stop rank x :=
  Finset.mem_filter

theorem toward_walk_self (ha : a ≠ stop) (hparent : parent a = some p) :
    toward parent stop rank (walk parent stop rank a).toFinset a = {a} := by
  ext x
  rw [mem_toward, mem_toFinset, Finset.mem_singleton, walk_step stop hrank ha hparent, mem_cons]
  constructor
  · rintro ⟨rfl | hx, hax⟩
    · rfl
    · exact absurd hax (not_mem_walk_parent hrank hparent hx)
  · rintro rfl
    exact ⟨.inl rfl, by rw [walk_step stop hrank ha hparent]; exact mem_cons_self⟩

theorem toward_walk_insert (ha : a ≠ stop) (hparent : parent a = some p)
    (hb : b ∈ walk parent stop rank p) :
    toward parent stop rank (walk parent stop rank a).toFinset b =
      insert a (toward parent stop rank (walk parent stop rank p).toFinset b) := by
  ext x
  rw [Finset.mem_insert, mem_toward, mem_toward, mem_toFinset, mem_toFinset,
    walk_step stop hrank ha hparent, mem_cons]
  constructor
  · rintro ⟨rfl | hx, hbx⟩
    · exact .inl rfl
    · exact .inr ⟨hx, hbx⟩
  · rintro (rfl | ⟨hx, hbx⟩)
    · exact ⟨.inl rfl, by rw [walk_step stop hrank ha hparent]; exact mem_cons_of_mem _ hb⟩
    · exact ⟨.inr hx, hbx⟩

omit hrank in
theorem account_held (l : List V) (acc : M) (s : (V → M) × (V → M)) (x : V) :
    (account l acc s).1 x = if x ∈ l then 0 else s.1 x := by
  induction l generalizing acc s with
  | nil => simp [account]
  | cons a rest ih =>
    obtain ⟨held, totals⟩ := s
    rw [account, ih]
    by_cases hx : x ∈ rest
    · rw [if_pos hx, if_pos (mem_cons_of_mem a hx)]
    · by_cases hxa : x = a
      · simp [hxa]
      · simp [hx, hxa]

/-- A walk adds to a node on it what it has found up to there. -/
theorem account_totals (a : V) (acc : M) (held totals : V → M) (b : V) :
    (account (walk parent stop rank a) acc (held, totals)).2 b =
      totals b + if b ∈ walk parent stop rank a then
        acc + ∑ x ∈ toward parent stop rank (walk parent stop rank a).toFinset b, held x
      else 0 := by
  induction a using walk_induction stop hrank generalizing acc held totals with
  | hstop => simp [walk_stop, account]
  | hroot a ha hparent =>
    rw [walk_root stop ha hparent, account, account]
    by_cases hb : b = a
    · subst hb
      have hself : toward parent stop rank {b} b = {b} := by
        ext x
        rw [mem_toward]
        simp only [Finset.mem_singleton, and_iff_left_iff_imp]
        rintro rfl
        simp [walk_root stop ha hparent]
      simp [hself]
    · simp [hb]
  | hstep a p ha hparent ih =>
    have hap : a ∉ walk parent stop rank p := fun h =>
      not_mem_walk_parent hrank hparent h
        (by rw [walk_step stop hrank ha hparent]; exact mem_cons_self)
    by_cases hba : b = a
    · subst hba
      rw [toward_walk_self hrank ha hparent, Finset.sum_singleton,
        walk_step stop hrank ha hparent, account, ih, if_neg hap, if_pos mem_cons_self]
      simp
    · rw [walk_step stop hrank ha hparent, account, ih, Function.update_of_ne hba]
      by_cases hb : b ∈ walk parent stop rank p
      · rw [if_pos hb, if_pos (mem_cons_of_mem a hb), ← walk_step stop hrank ha hparent,
          toward_walk_insert hrank ha hparent hb, Finset.sum_insert, add_assoc acc]
        · refine congrArg _ (congrArg _ (congrArg _ (Finset.sum_congr rfl fun x hx => ?_)))
          have hxa : x ≠ a := by
            rintro rfl
            exact hap (mem_toFinset.mp (mem_toward.mp hx).1)
          rw [Function.update_of_ne hxa]
        · intro hmem
          exact hap (mem_toFinset.mp (mem_toward.mp hmem).1)
      · rw [if_neg hb, if_neg]
        rw [mem_cons, not_or]
        exact ⟨hba, hb⟩

/-- What the walks have done when they have met the nodes `seen`: those hold nothing any more,
and each node has the sum of what was held by the nodes whose walks lead to it. -/
structure Counted (parent : V → Option V) (stop : V) (rank : V → Nat) (held : V → M)
    (seen : Finset V) (s : (V → M) × (V → M)) : Prop where
  closed : ∀ x ∈ seen, ∀ y ∈ walk parent stop rank x, y ∈ seen
  left : ∀ x, s.1 x = if x ∈ seen then 0 else held x
  totals : ∀ b, s.2 b = ∑ x ∈ toward parent stop rank seen b, held x

omit hrank in
theorem Counted.start (held : V → M) :
    Counted parent stop rank held ∅ (held, fun _ => 0) where
  closed := by simp
  left := by simp
  totals := by simp [toward]

theorem Counted.account {held : V → M} {seen : Finset V} {s : (V → M) × (V → M)}
    (h : Counted parent stop rank held seen s) (a : V) :
    Counted parent stop rank held (seen ∪ (walk parent stop rank a).toFinset)
      (account (walk parent stop rank a) 0 s) where
  closed := by
    intro x hx y hy
    rw [Finset.mem_union, mem_toFinset] at hx ⊢
    rcases hx with hx | hx
    · exact .inl (h.closed x hx y hy)
    · exact .inr (walk_subset hrank hx hy)
  left := by
    intro x
    rw [account_held, h.left]
    by_cases hx : x ∈ walk parent stop rank a <;> by_cases hseen : x ∈ seen <;> simp [hx, hseen]
  totals := by
    intro b
    rw [account_totals hrank a 0 s.1 s.2 b, h.totals]
    have hnew : (if b ∈ walk parent stop rank a then
        0 + ∑ x ∈ toward parent stop rank (walk parent stop rank a).toFinset b, s.1 x else 0) =
        ∑ x ∈ toward parent stop rank ((walk parent stop rank a).toFinset \ seen) b, held x := by
      split
      · rw [zero_add, Finset.sum_congr rfl fun x _ => h.left x, Finset.sum_ite,
          Finset.sum_const_zero, zero_add]
        refine Finset.sum_congr ?_ fun _ _ => rfl
        ext x
        simp only [Finset.mem_filter, mem_toward, Finset.mem_sdiff]
        tauto
      · rename_i hb
        rw [Finset.sum_eq_zero]
        intro x hx
        obtain ⟨hx, hbx⟩ := mem_toward.mp hx
        exact absurd (walk_subset hrank (mem_toFinset.mp (Finset.mem_sdiff.mp hx).1) hbx) hb
    rw [hnew, ← Finset.sum_union]
    · refine Finset.sum_congr ?_ fun _ _ => rfl
      ext x
      simp only [Finset.mem_union, mem_toward, Finset.mem_sdiff]
      tauto
    · rw [Finset.disjoint_left]
      intro x hx hx'
      exact (Finset.mem_sdiff.mp (mem_toward.mp hx').1).2 (mem_toward.mp hx).1

/-- The nodes that the walks from some nodes meet. -/
def met (parent : V → Option V) (stop : V) (rank : V → Nat) (starts : Finset V) : Finset V :=
  starts.biUnion fun a => (walk parent stop rank a).toFinset

omit hrank in
theorem mem_met {starts : Finset V} :
    x ∈ met parent stop rank starts ↔ ∃ a ∈ starts, x ∈ walk parent stop rank a := by
  simp [met]

/-- The walks from a list of nodes, whatever its order. -/
theorem counted_foldl (held : V → M) (starts : List V) :
    Counted parent stop rank held (met parent stop rank starts.toFinset)
      (starts.foldl (fun s a => account (walk parent stop rank a) 0 s) (held, fun _ => 0)) := by
  induction starts using List.reverseRecOn with
  | nil => exact Counted.start held
  | append_singleton starts a ih =>
    have hmet : met parent stop rank (starts ++ [a]).toFinset =
        met parent stop rank starts.toFinset ∪ (walk parent stop rank a).toFinset := by
      rw [met, toFinset_append, Finset.union_biUnion]
      simp [met]
    rw [foldl_append, hmet]
    exact ih.account hrank a

end Walk

end ParentWalk

end Erigon
