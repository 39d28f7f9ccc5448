/-
Streams out of a heap of cursors.  Taking the least cursor and putting its
successor back, again and again, yields a merge of what the cursors stand before;
taking whole runs of one group yields the merge group by group.  Of a sequence in
the order of a key, `firstPerKey` keeps the first item of each key that is
accepted.
-/
import Erigon.KWayMerge

namespace Erigon

open List

universe u v w x

/-! ### The first accepted item of each key -/

section FirstPerKey

variable {T : Type u} {K : Type v} {U : Type w} [LinearOrder K] (key : T → K)
  (accept : T → Option U)

/-- `last` is the key that was accepted last. -/
def firstPerKey : Option K → List T → List (K × U)
  | _, [] => []
  | last, t :: ts =>
    if some (key t) = last then firstPerKey last ts
    else
      match accept t with
      | none => firstPerKey last ts
      | some u => (key t, u) :: firstPerKey (some (key t)) ts

variable {key accept} {ts : List T} {last : Option K}

section

theorem accepted_le {t : T} (hts : (t :: ts).Pairwise fun a b => key a ≤ key b) :
    ∀ k ∈ some (key t), ∀ s ∈ ts, k ≤ key s := by
  rintro _ ⟨⟩ s hs
  exact rel_of_pairwise_cons hts hs

variable (hts : ts.Pairwise fun a b => key a ≤ key b) (hlast : ∀ k ∈ last, ∀ t ∈ ts, k ≤ key t)

include hts hlast

/-- Each key once, and only keys above the one accepted last. -/
theorem firstPerKey_sorted : (firstPerKey key accept last ts).Pairwise (fun a b => a.1 < b.1) ∧
      ∀ k ∈ last, ∀ a ∈ firstPerKey key accept last ts, k < a.1 := by
  fun_induction firstPerKey key accept last ts with
  | case1 => simp
  | case2 t ts ih | case3 last t ts hne hnone ih =>
    exact ih hts.of_cons fun k hk s hs => hlast k hk s (.tail _ hs)
  | case4 last t ts hne u hsome ih =>
    obtain ⟨hsorted, habove⟩ := ih hts.of_cons (accepted_le hts)
    refine ⟨.cons (habove _ rfl) hsorted, fun k hk a ha => ?_⟩
    have hlt : k < key t := by
      refine lt_of_le_of_ne (hlast k hk t mem_cons_self) fun heq => hne ?_
      rw [← heq, Option.mem_def.mp hk]
    rcases mem_cons.mp ha with rfl | ha
    · exact hlt
    · exact hlt.trans (habove _ rfl a ha)

theorem mem_firstPerKey {k : K} {u : U} :
    (k, u) ∈ firstPerKey key accept last ts ↔
      last ≠ some k ∧ (withKey key k ts).findSome? accept = some u := by
  fun_induction firstPerKey key accept last ts with
  | case1 => simp
  | case2 t ts ih =>
    rw [ih hts.of_cons fun k hk s hs => hlast k hk s (.tail _ hs)]
    refine and_congr_right fun hne => ?_
    rw [withKey_cons_ne fun hkey => hne (congrArg some hkey)]
  | case3 last t ts hne hnone ih =>
    rw [ih hts.of_cons fun k hk s hs => hlast k hk s (.tail _ hs)]
    refine and_congr_right fun _ => ?_
    by_cases hkey : key t = k
    · subst hkey
      rw [withKey_cons_self, findSome?_cons_of_isNone]
      simp [hnone]
    · rw [withKey_cons_ne hkey]
  | case4 last t ts hne u' hsome ih =>
    rw [mem_cons, ih hts.of_cons (accepted_le hts)]
    by_cases hkey : key t = k
    · subst hkey
      rw [withKey_cons_self, findSome?_cons_of_isSome (by simp [hsome]), hsome]
      simp [Ne.symm hne, eq_comm]
    · -- A key below that of `t` does not come any more.
      have hnotlast : (withKey key k ts).findSome? accept = some u → last ≠ some k := by
        rintro hfind rfl
        obtain ⟨s, hs, -⟩ := exists_of_findSome?_eq_some hfind
        obtain ⟨hmem, hsk⟩ := mem_withKey.mp hs
        have hkt : k ≤ key t := hlast k rfl t mem_cons_self
        exact hkey (le_antisymm (hsk ▸ accepted_le hts _ rfl s hmem) hkt)
      rw [withKey_cons_ne hkey]
      constructor
      · rintro (heq | ⟨-, hfind⟩)
        · exact absurd (congrArg Prod.fst heq).symm hkey
        · exact ⟨hnotlast hfind, hfind⟩
      · rintro ⟨-, hfind⟩
        exact .inr ⟨fun heq => hkey (Option.some.inj heq), hfind⟩

end

end FirstPerKey

/-! ### Popping cursors -/

section Pop

variable {A : Type u} {K : Type v} {P : Type w} [LinearOrder K] [LinearOrder P] {C : Type x}

/-- The least cursor, and the heap with its successor in its place. -/
def popNext (less : C → C → Bool) (next : C → Option C) (h : Array C) : Option (C × Array C) :=
  (BinaryHeap.pop less h).map fun r => (r.1, (next r.1).elim r.2 (BinaryHeap.push less r.2))

variable {less : C → C → Bool} {rank : C → K ×ₗ P}
  (hless : ∀ c d, less c d = decide (rank c < rank d)) {key : A → K}
  {shows : C → P × List A → Prop} {head : C → A} {next : C → Option C}

include hless in
theorem popNext_yields (hadv : Advances key rank shows head next) {h : Array C}
    (horder : BinaryHeap.Ordered less h.size h) {streams : List (P × List A)}
    (hshows : List.Forall₂ shows h.toList streams) :
    ∃ cs, Yields (popNext less next) h cs ∧ Merges key streams (cs.map head) ∧
      cs.length = pending streams := by
  obtain ⟨n, hn⟩ : ∃ n, n = pending streams := ⟨_, rfl⟩
  induction n generalizing h streams with
  | zero =>
    obtain ⟨rfl, rfl⟩ := eq_nil_of_pending hless hadv.exists_cons horder hshows hn.ge
    exact ⟨[], .done rfl, .nil, rfl⟩
  | succ n ih =>
    rcases pop_cases hless hadv.exists_cons horder hshows with
      ⟨rfl, rfl⟩ | ⟨-, c, rest, p, a, as, hpop, -, hc, hback⟩
    · cases hn
    · obtain ⟨as', heq, -, hnext⟩ := hadv.step c p _ hc
      cases heq
      obtain ⟨streams', horder', hshows', hpending, hmerge⟩ := hback _ hnext
      obtain ⟨cs, hyields, hmerges, hlength⟩ := ih horder' hshows' (by omega)
      refine ⟨c :: cs, .step (by rw [popNext, hpop]; rfl) hyields, hmerge _ hmerges, ?_⟩
      rw [length_cons, hlength, hpending]

end Pop

end Erigon
