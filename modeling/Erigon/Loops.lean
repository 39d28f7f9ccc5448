/-
Loops over index ranges in the option monad, and binary search with a
predicate that may itself fail.
-/
import Mathlib.Tactic

namespace Erigon

open List

/-- Run rule for a loop over a slice: every pass establishes the invariant for the next
index or ends the loop, and `stop` holds then. -/
theorem foldlM_cases {σ α : Type} (step : σ → α → Option σ) (xs : List α)
    {initial : σ} (inv : Nat → σ → Prop) {stop : Prop} (hinitial : inv 0 initial)
    (hstep : ∀ i (hi : i < xs.length) s, inv i s →
      (∃ s', step s xs[i] = some s' ∧ inv (i + 1) s') ∨ step s xs[i] = none ∧ stop) :
    (∃ s, xs.foldlM step initial = some s ∧ inv xs.length s) ∨
      xs.foldlM step initial = none ∧ stop := by
  induction xs generalizing initial inv with
  | nil => exact .inl ⟨initial, rfl, hinitial⟩
  | cons x xs ih =>
    rw [foldlM_cons]
    rcases hstep 0 (Nat.zero_lt_succ _) initial hinitial with ⟨s, hs, hinv⟩ | ⟨hs, hstop⟩
    · rw [show step initial x = some s from hs]
      exact ih (fun i => inv (i + 1)) hinv fun i hi => hstep (i + 1) (Nat.succ_lt_succ hi)
    · exact .inr ⟨by rw [show step initial x = none from hs]; rfl, hstop⟩

/-- The rule for a loop that does not end early. -/
theorem foldlM_of_step {σ α : Type} (step : σ → α → Option σ) (xs : List α)
    {initial : σ} (inv : Nat → σ → Prop) (hinitial : inv 0 initial)
    (hstep : ∀ i (hi : i < xs.length) s, inv i s →
      ∃ s', step s xs[i] = some s' ∧ inv (i + 1) s') :
    ∃ s, xs.foldlM step initial = some s ∧ inv xs.length s :=
  (foldlM_cases step xs inv hinitial fun i hi s hs => .inl (hstep i hi s hs)).resolve_right And.right

/-- The rule for a counted loop. -/
theorem foldlM_range_cases {σ : Type} (step : σ → Nat → Option σ) (n : Nat)
    {initial : σ} (inv : Nat → σ → Prop) {stop : Prop} (hinitial : inv 0 initial)
    (hstep : ∀ i < n, ∀ s, inv i s →
      (∃ s', step s i = some s' ∧ inv (i + 1) s') ∨ step s i = none ∧ stop) :
    (∃ s, (range n).foldlM step initial = some s ∧ inv n s) ∨
      (range n).foldlM step initial = none ∧ stop := by
  have hrun := foldlM_cases step (range n) inv hinitial (by
    intro i hi s hs
    rw [getElem_range]
    exact hstep i (by simpa using hi) s hs)
  simpa using hrun

/-- The interval loop of `sort.Search`; `fuel` bounds the interval length. -/
def searchLoop (accept : Nat → Option Bool) : Nat → Nat → Nat → Option Nat
  | 0, i, _ => some i
  | fuel + 1, i, j =>
    if i < j then
      let h := (i + j) / 2
      (accept h).bind fun accepted =>
        if accepted then searchLoop accept fuel i h
        else searchLoop accept fuel (h + 1) j
    else some i

/-- `sort.Search`: the least index in `[0, n)` that `accept` accepts, or `n`. -/
def sortSearch (n : Nat) (accept : Nat → Option Bool) : Option Nat :=
  searchLoop accept n 0 n

theorem holds_of_le {holds : Nat → Prop} {i j a b : Nat}
    (hmono : ∀ k, i ≤ k → k + 1 < j → holds k → holds (k + 1))
    (ha : holds a) (hia : i ≤ a) (hab : a ≤ b) (hbj : b < j) : holds b := by
  induction b, hab using Nat.le_induction with
  | base => exact ha
  | succ b hab ih => exact hmono b (by omega) hbj (ih (by omega))

theorem searchLoop_spec {accept : Nat → Option Bool} {holds : Nat → Prop}
    [DecidablePred holds] {fuel i j : Nat}
    (haccept : ∀ k, i ≤ k → k < j → accept k = some (decide (holds k)))
    (hmono : ∀ k, i ≤ k → k + 1 < j → holds k → holds (k + 1))
    (hle : i ≤ j) (hfuel : j - i ≤ fuel) :
    ∃ r, searchLoop accept fuel i j = some r ∧ i ≤ r ∧ r ≤ j ∧
      (∀ k, i ≤ k → k < r → ¬ holds k) ∧ (∀ k, r ≤ k → k < j → holds k) := by
  induction fuel generalizing i j with
  | zero =>
    have heq : i = j := by omega
    subst heq
    exact ⟨i, rfl, hle, Nat.le_refl i, fun k h1 h2 => by omega,
      fun k h1 h2 => by omega⟩
  | succ fuel ih =>
    by_cases hlt : i < j
    · have hlow : i ≤ (i + j) / 2 := by omega
      have hhigh : (i + j) / 2 < j := by omega
      rw [searchLoop, if_pos hlt]
      simp only [haccept _ hlow hhigh, Option.bind_some]
      by_cases hholds : holds ((i + j) / 2)
      · obtain ⟨r, hrun, hir, hrh, hbelow, habove⟩ :=
          ih (i := i) (j := (i + j) / 2)
            (fun k h1 h2 => haccept k h1 (by omega))
            (fun k h1 h2 => hmono k h1 (by omega)) hlow (by omega)
        refine ⟨r, by simpa [hholds] using hrun, hir, by omega, hbelow, ?_⟩
        intro k hk hkj
        by_cases hkh : k < (i + j) / 2
        · exact habove k hk hkh
        · exact holds_of_le hmono hholds hlow (by omega) hkj
      · obtain ⟨r, hrun, hir, hrj, hbelow, habove⟩ :=
          ih (i := (i + j) / 2 + 1) (j := j)
            (fun k h1 h2 => haccept k (by omega) h2)
            (fun k h1 h2 => hmono k (by omega) h2) (by omega) (by omega)
        refine ⟨r, by simpa [hholds] using hrun, by omega, hrj, ?_, habove⟩
        intro k hik hkr hk
        by_cases hkh : k ≤ (i + j) / 2
        · exact hholds (holds_of_le hmono hk hik hkh hhigh)
        · exact hbelow k (by omega) hkr hk
    · have heq : i = j := by omega
      subst heq
      exact ⟨i, by simp [searchLoop], hle, Nat.le_refl i,
        fun k h1 h2 => by omega, fun k h1 h2 => by omega⟩

/-- On an upward closed predicate `sort.Search` finds the boundary. -/
theorem sortSearch_spec (n : Nat) (accept : Nat → Option Bool) (holds : Nat → Prop)
    [DecidablePred holds]
    (haccept : ∀ k < n, accept k = some (decide (holds k)))
    (hmono : ∀ k, k + 1 < n → holds k → holds (k + 1)) :
    ∃ r, sortSearch n accept = some r ∧ r ≤ n ∧ (∀ k < r, ¬ holds k) ∧
      (∀ k, r ≤ k → k < n → holds k) := by
  obtain ⟨r, hrun, -, hrn, hbelow, habove⟩ := searchLoop_spec (i := 0) (j := n)
    (fun k _ hk => haccept k hk) (fun k _ hk => hmono k hk) (Nat.zero_le n)
    (Nat.le_refl (n - 0))
  exact ⟨r, hrun, hrn, fun k hk => hbelow k (Nat.zero_le k) hk, habove⟩

/-- Looking behind a rejected front finds what looking from the start finds. -/
theorem find?_drop {α : Type} {xs : List α} {accept : α → Bool} {r : Nat}
    (hreject : ∀ k (hk : k < xs.length), k < r → accept xs[k] = false) :
    (xs.drop r).find? accept = xs.find? accept := by
  have hfront : (xs.take r).find? accept = none := by
    rw [find?_eq_none]
    intro x hx
    obtain ⟨k, hk, rfl⟩ := getElem_of_mem hx
    have hkr : k < r ∧ k < xs.length := by simpa using hk
    rw [getElem_take, hreject k hkr.2 hkr.1]
    exact Bool.false_ne_true
  conv_rhs => rw [← take_append_drop r xs]
  rw [find?_append, hfront, Option.none_or]

end Erigon
