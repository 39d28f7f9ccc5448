/-
A cache in front of lookups: a map from hashes to entries, which a call reads and fills and from
which entries may be dropped after any call.
-/
import Mathlib.Logic.Function.Basic

namespace Erigon

namespace EvictingCache

variable {H I C A K : Type}

/-- Calls one after the other, each followed by evictions: the entry that each one met, the call
and its answer. -/
def run (place : C → H) (step : (H → Option I) → C → A × (H → Option I))
    (cache : H → Option I) : List (C × (H → Bool)) → List (Option I × C × A)
  | [] => []
  | (c, evicted) :: calls =>
    (cache (place c), c, (step cache c).1) ::
      run place step (fun h => if evicted h then none else (step cache c).2 h) calls

/-- The entries under the hashes of some keys are good for these keys. -/
def Keeps (hash : K → H) (keys : List K) (good : K → I → Prop) (cache : H → Option I) : Prop :=
  ∀ k ∈ keys, ∀ i, cache (hash k) = some i → good k i

variable {hash : K → H} {keys : List K} {good : K → I → Prop} {cache : H → Option I}

theorem keeps_empty : Keeps hash keys good fun _ => none := fun _ _ _ h => nomatch h

theorem Keeps.update [DecidableEq H] (h : Keeps hash keys good cache)
    (hdistinct : ∀ k ∈ keys, ∀ l ∈ keys, hash k = hash l → k = l) {k : K} (hk : k ∈ keys) {i : I}
    (hi : good k i) : Keeps hash keys good (Function.update cache (hash k) (some i)) := by
  intro l hl j hj
  by_cases hsame : hash l = hash k
  · rw [hsame, Function.update_self, Option.some.injEq] at hj
    rwa [hdistinct l hl k hk hsame, ← hj]
  · rw [Function.update_of_ne hsame] at hj
    exact h l hl j hj

/-- What every call does from a cache with good entries, the calls of a run do. -/
theorem Keeps.run {place : C → H} {step : (H → Option I) → C → A × (H → Option I)}
    {P : Option I → C → A → Prop} {calls : List (C × (H → Bool))}
    (hstep : ∀ cache, Keeps hash keys good cache → ∀ c ∈ calls,
      Keeps hash keys good (step cache c.1).2 ∧ P (cache (place c.1)) c.1 (step cache c.1).1)
    (h : Keeps hash keys good cache) :
    ∀ a ∈ EvictingCache.run place step cache calls, P a.1 a.2.1 a.2.2 := by
  induction calls generalizing cache with
  | nil => simp [EvictingCache.run]
  | cons c calls ih =>
    obtain ⟨hnext, hanswer⟩ := hstep cache h c List.mem_cons_self
    intro a ha
    rw [EvictingCache.run, List.mem_cons] at ha
    rcases ha with rfl | ha
    · exact hanswer
    · refine ih (fun cache hcache d hd => hstep cache hcache d (List.mem_cons_of_mem c hd))
        (fun k hk i hi => ?_) a ha
      split at hi
      · cases hi
      · exact hnext k hk i hi

end EvictingCache

end Erigon
