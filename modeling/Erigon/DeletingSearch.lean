/-
A table of nodes under keys, and a search that deletes every node it comes to: what is left
are the nodes that no path from the start leads to.
-/
import Mathlib.Tactic

namespace Erigon

open List

universe u v

open Relation

/-- A path either keeps away from a vertex, or does so behind its last visit there. -/
theorem ReflTransGen.avoid {V : Type u} {r : V → V → Prop} {a x : V} (h : ReflTransGen r a x)
    (q : V) :
    ReflTransGen (fun b c => b ≠ q ∧ r b c) a x ∨
      ∃ c, r q c ∧ ReflTransGen (fun b c => b ≠ q ∧ r b c) c x := by
  induction h using ReflTransGen.head_induction_on with
  | refl => exact .inl .refl
  | @head b c hstep _ ih =>
    rcases ih with havoid | hlast
    · by_cases hb : b = q
      · subst hb
        exact .inr ⟨c, hstep, havoid⟩
      · exact .inl (.head ⟨hb, hstep⟩ havoid)
    · exact .inr hlast

namespace KeyedTable

variable {K : Type u} {N : Type v} [DecidableEq K] (t : List (K × N))

/-- The node under a key. -/
def load (k : K) : Option N := (t.find? fun e => decide (e.1 = k)).map Prod.snd

def delete (k : K) : List (K × N) := t.filter fun e => decide (e.1 ≠ k)

/-- Delete the nodes of a queue and, in their turn, those that they lead to. -/
def sweep (next : N → List K) : Nat → List K → List (K × N) → List (K × N)
  | 0, _, t => t
  | _ + 1, [], t => t
  | fuel + 1, k :: queue, t =>
    match load t k with
    | some node => sweep next fuel (queue ++ next node) (delete t k)
    | none => sweep next fuel queue t

/-- A node leads to a key. -/
def Link (next : N → List K) (t : List (K × N)) (a b : K) : Prop :=
  ∃ node, load t a = some node ∧ b ∈ next node

/-- A path from the queue leads to a key. -/
def Swept (next : N → List K) (t : List (K × N)) (queue : List K) (k : K) : Prop :=
  ∃ a ∈ queue, ReflTransGen (Link next t) a k

variable {t : List (K × N)}

theorem load_eq_none {k : K} : load t k = none ↔ ∀ e ∈ t, e.1 ≠ k := by
  simp [load, find?_eq_none]

theorem mem_of_load {k : K} {node : N} (h : load t k = some node) : (k, node) ∈ t := by
  obtain ⟨⟨k', node'⟩, hfind, rfl⟩ := Option.map_eq_some_iff.mp h
  obtain rfl : k' = k := by simpa using find?_some hfind
  exact mem_of_find?_eq_some hfind

variable (t)

theorem load_filter (keep : K → Bool) (k : K) :
    load (t.filter fun e => keep e.1) k = if keep k then load t k else none := by
  split
  · rename_i hk
    rw [load, load, find?_filter]
    refine congrArg (Option.map Prod.snd) (find?_congr fun e _ => ?_)
    by_cases he : e.1 = k
    · simp [he, hk]
    · simp [he]
  · rename_i hk
    rw [load_eq_none]
    rintro e he rfl
    exact hk (mem_filter.mp he).2

theorem load_delete (k l : K) :
    load (delete t k) l = if l = k then none else load t l := by
  rw [delete, load_filter t (fun l => decide (l ≠ k)) l]
  by_cases hl : l = k <;> simp [hl]

/-- Put a node under a key, in the place of the one that is there. -/
def store (k : K) (node : N) : List (K × N) := (k, node) :: delete t k

theorem load_store (k l : K) (node : N) :
    load (store t k node) l = if l = k then some node else load t l := by
  by_cases hl : l = k
  · simp [store, load, hl]
  · rw [if_neg hl, store, load, find?_cons_of_neg (by simpa using Ne.symm hl)]
    change load (delete t k) l = load t l
    rw [load_delete, if_neg hl]

variable {t}

variable {next : N → List K}

theorem link_delete (t : List (K × N)) (k : K) :
    Link next (delete t k) = fun a b => a ≠ k ∧ Link next t a b := by
  funext a b
  rw [Link, load_delete]
  by_cases ha : a = k
  · simp [ha]
  · simp [ha, Link]

variable {queue : List K}

/-- A node that is deleted leaves what its own links lead to. -/
theorem swept_cons_of_some {k : K} {node : N} (hload : load t k = some node) {x : K} (hx : x ≠ k) :
    Swept next t (k :: queue) x ↔ Swept next (delete t k) (queue ++ next node) x := by
  rw [Swept, Swept, link_delete]
  constructor
  · rintro ⟨a, ha, hpath⟩
    rcases ReflTransGen.avoid hpath k with havoid | ⟨c, ⟨node', hload', hc⟩, hrest⟩
    · rcases mem_cons.mp ha with rfl | ha
      · rcases ReflTransGen.cases_head havoid with rfl | ⟨c, ⟨hne, -⟩, -⟩
        · exact absurd rfl hx
        · exact absurd rfl hne
      · exact ⟨a, mem_append_left _ ha, havoid⟩
    · obtain rfl := Option.some.inj (hload.symm.trans hload')
      exact ⟨c, mem_append_right _ hc, hrest⟩
  · rintro ⟨a, ha, hpath⟩
    have hpath' : ReflTransGen (Link next t) a x := hpath.lift id fun b c h => h.2
    rcases mem_append.mp ha with ha | ha
    · exact ⟨a, mem_cons_of_mem k ha, hpath'⟩
    · exact ⟨k, mem_cons_self, .head ⟨node, hload, ha⟩ hpath'⟩

theorem swept_cons_of_none {k : K} (hload : load t k = none) {x : K} (hx : x ≠ k) :
    Swept next t (k :: queue) x ↔ Swept next t queue x := by
  constructor
  · rintro ⟨a, ha, hpath⟩
    rcases mem_cons.mp ha with rfl | ha
    · rcases ReflTransGen.cases_head hpath with rfl | ⟨c, ⟨node, hnode, -⟩, -⟩
      · exact absurd rfl hx
      · cases hload.symm.trans hnode
    · exact ⟨a, ha, hpath⟩
  · rintro ⟨a, ha, hpath⟩
    exact ⟨a, mem_cons_of_mem k ha, hpath⟩

/-- How many steps a search takes at most. -/
def work (next : N → List K) (queue : List K) (t : List (K × N)) : Nat :=
  queue.length + (t.map fun e => (next e.2).length).sum

theorem work_delete {k : K} {node : N} (hload : load t k = some node) :
    work next (queue ++ next node) (delete t k) < work next (k :: queue) t := by
  obtain ⟨⟨k', node'⟩, hfind, rfl⟩ := Option.map_eq_some_iff.mp hload
  have hk : k' = k := by simpa using find?_some hfind
  subst hk
  have hsum : (next node').length + ((delete t k').map fun e => (next e.2).length).sum ≤
      (t.map fun e => (next e.2).length).sum := by
    obtain ⟨front, back, rfl⟩ := append_of_mem (mem_of_find?_eq_some hfind)
    have hfront := ((filter_sublist (p := fun e => decide (e.1 ≠ k'))
      (l := front)).map fun e => (next e.2).length).sum_le_sum (fun _ _ => Nat.zero_le _)
    have hback := ((filter_sublist (p := fun e => decide (e.1 ≠ k'))
      (l := back)).map fun e => (next e.2).length).sum_le_sum (fun _ _ => Nat.zero_le _)
    simp only [delete, filter_append, filter_cons, map_append, sum_append, map_cons, sum_cons,
      ne_eq, not_true_eq_false, decide_false, Bool.false_eq_true, if_false] at hfront hback ⊢
    omega
  simp only [work, length_append, length_cons]
  omega

open Classical in
/-- A search with enough fuel leaves what no path leads to. -/
theorem sweep_eq {fuel : Nat} (hfuel : work next queue t ≤ fuel) :
    sweep next fuel queue t = t.filter fun e => decide (¬ Swept next t queue e.1) := by
  induction fuel generalizing queue t with
  | zero =>
    have hqueue : queue = [] := by
      rw [work] at hfuel
      exact length_eq_zero_iff.mp (by omega)
    subst hqueue
    exact (filter_eq_self.mpr fun e _ => by simp [Swept]).symm
  | succ fuel ih =>
    cases queue with
    | nil => exact (filter_eq_self.mpr fun e _ => by simp [Swept]).symm
    | cons k queue =>
      rw [sweep]
      cases hload : load t k with
      | some node =>
        have hwork : work next (queue ++ next node) (delete t k) <
            work next (k :: queue) t := work_delete hload
        dsimp only
        rw [ih (by omega), delete, filter_filter]
        refine filter_congr fun e _ => ?_
        by_cases hk : e.1 = k
        · have hswept : Swept next t (k :: queue) e.1 := ⟨k, mem_cons_self, hk ▸ .refl⟩
          simp [hk, hk ▸ hswept]
        · have hiff : Swept next t (k :: queue) e.1 ↔
              Swept next (delete t k) (queue ++ next node) e.1 := swept_cons_of_some hload hk
          rw [delete] at hiff
          simp [hk, hiff]
      | none =>
        dsimp only
        rw [ih (by simp only [work, length_cons] at hfuel ⊢; omega)]
        refine filter_congr fun e he => ?_
        rw [swept_cons_of_none hload (load_eq_none.mp hload e he)]

end KeyedTable

end Erigon
