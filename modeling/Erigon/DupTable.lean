/-
Tables with several sorted values a key, and cursors on them.  A cursor is known
by the entry it stands at, so that it can go on after this entry was deleted.
Walking over the keys or over the values of a key visits each once, in order.
-/
import Mathlib.Data.Finset.Sort
import Mathlib.Data.Prod.Lex
import Erigon.OrderedLists

namespace Erigon

open List

universe u v

/-- The entries in order, key by key and within a key by value. -/
structure DupTable (K : Type u) (V : Type v) [LinearOrder K] [LinearOrder V] where
  entries : List (K × V)
  sorted : entries.Pairwise fun e f => toLex e < toLex f

namespace DupTable

variable {K : Type u} {V : Type v} [LinearOrder K] [LinearOrder V] (t : DupTable K V)

/-- The first entry of the first key that is not below `k`. -/
def seek (k : K) : Option (K × V) :=
  t.entries.find? fun e => decide (k ≤ e.1)

/-- The first entry of the next key. -/
def nextNoDup (k : K) : Option (K × V) :=
  t.entries.find? fun e => decide (k < e.1)

/-- The next value of the same key. -/
def nextDup (cur : K × V) : Option (K × V) :=
  t.entries.find? fun e => decide (e.1 = cur.1 ∧ cur.2 < e.2)

/-- The entries that pass a test. -/
def keep (q : K × V → Bool) : DupTable K V :=
  ⟨t.entries.filter q, t.sorted.filter q⟩

/-- Delete a key with all its values. -/
def delete (k : K) : DupTable K V := t.keep fun e => decide (e.1 ≠ k)

/-- Delete one entry, if it is there. -/
def deleteExact (e : K × V) : DupTable K V := t.keep fun f => decide (f ≠ e)

theorem keep_keep (q r : K × V → Bool) :
    (t.keep q).keep r = t.keep fun e => r e && q e := by
  simp only [keep, filter_filter]

theorem keep_congr {q r : K × V → Bool}
    (h : ∀ e ∈ t.entries, q e = r e) : t.keep q = t.keep r := by
  simp only [keep, filter_congr h]

theorem keep_true {q : K × V → Bool} (h : ∀ e ∈ t.entries, q e = true) :
    t.keep q = t := by
  obtain ⟨entries, sorted⟩ := t
  simp only [keep, mk.injEq]
  exact filter_eq_self.mpr h

variable {t : DupTable K V} {e f : K × V}

theorem mem_keep {q : K × V → Bool} : e ∈ (t.keep q).entries ↔ e ∈ t.entries ∧ q e = true :=
  mem_filter

theorem mem_delete {k : K} : e ∈ (t.delete k).entries ↔ e ∈ t.entries ∧ e.1 ≠ k := by
  rw [delete, mem_keep, decide_eq_true_iff]

theorem mem_deleteExact : f ∈ (t.deleteExact e).entries ↔ f ∈ t.entries ∧ f ≠ e := by
  rw [deleteExact, mem_keep, decide_eq_true_iff]

theorem ext_mem {t' : DupTable K V} (h : ∀ e, e ∈ t.entries ↔ e ∈ t'.entries) : t = t' := by
  have : Std.Irrefl fun a b : K × V => toLex a < toLex b := ⟨fun a => lt_irrefl (toLex a)⟩
  have : Std.Antisymm fun a b : K × V => toLex a < toLex b :=
    ⟨fun a b hab hba => absurd hba hab.not_gt⟩
  have hentries : t.entries = t'.entries := List.Pairwise.eq_of_mem_iff t.sorted t'.sorted h
  obtain ⟨entries, sorted⟩ := t
  subst hentries
  rfl

def empty : DupTable K V := ⟨[], List.Pairwise.nil⟩

/-- Put an entry, unless it is there. -/
def insert (t : DupTable K V) (e : K × V) : DupTable K V where
  entries := (t.entries.filter fun f => decide (toLex f < toLex e)) ++
    e :: t.entries.filter fun f => decide (toLex e < toLex f)
  sorted := by
    rw [pairwise_append, pairwise_cons]
    refine ⟨t.sorted.filter _, ⟨?_, t.sorted.filter _⟩, ?_⟩
    · intro f hf
      exact of_decide_eq_true (mem_filter.mp hf).2
    · intro f hf g hg
      have hfe : toLex f < toLex e := of_decide_eq_true (mem_filter.mp hf).2
      rcases mem_cons.mp hg with rfl | hg
      · exact hfe
      · exact hfe.trans (of_decide_eq_true (mem_filter.mp hg).2)

theorem mem_insert : f ∈ (t.insert e).entries ↔ f = e ∨ f ∈ t.entries := by
  simp only [insert, mem_append, mem_cons, mem_filter, decide_eq_true_iff]
  rcases lt_trichotomy (toLex f) (toLex e) with hlt | heq | hlt
  · have hne : f ≠ e := fun h => hlt.ne (congrArg toLex h)
    simp [hlt, hne, hlt.not_gt]
  · simp [toLex_inj.mp heq]
  · have hne : f ≠ e := fun h => hlt.ne' (congrArg toLex h)
    simp [hlt, hne, hlt.not_gt]

/-- The values of a key. -/
def dups (t : DupTable K V) (k : K) : List V :=
  (t.entries.filter fun e => decide (e.1 = k)).map Prod.snd

theorem mem_dups {k : K} {v : V} : v ∈ t.dups k ↔ (k, v) ∈ t.entries := by
  simp [dups]

theorem dups_sorted (t : DupTable K V) (k : K) : (t.dups k).Pairwise (· < ·) := by
  rw [dups, pairwise_map]
  refine (t.sorted.filter _).imp_of_mem fun {e f} he hf hlt => ?_
  have hek := (mem_filter.mp he).2
  have hfk := (mem_filter.mp hf).2
  rw [decide_eq_true_iff] at hek hfk
  rcases Prod.Lex.toLex_lt_toLex.mp hlt with hlt | ⟨-, hlt⟩
  · exact absurd (hek.trans hfk.symm) hlt.ne
  · exact hlt

/-- The first value of a key that is not below `v`. -/
def seekBothRange (t : DupTable K V) (k : K) (v : V) : Option V :=
  (t.dups k).find? fun d => decide (v ≤ d)

theorem seekBothRange_eq_some {k : K} {v d : V} :
    t.seekBothRange k v = some d ↔
      ((k, d) ∈ t.entries ∧ v ≤ d) ∧ ∀ d', (k, d') ∈ t.entries → v ≤ d' → d ≤ d' := by
  rw [seekBothRange, find?_le_eq_some (t.dups_sorted k)]
  simp only [mem_dups]

/-- The keys that satisfy a condition, each once, in ascending order. -/
def keysIn (t : DupTable K V) (p : K → Prop) [DecidablePred p] : List K :=
  ((t.entries.map Prod.fst).toFinset.filter p).sort

section Walk

variable {t : DupTable K V} {e : K × V} {p : K → Prop} [DecidablePred p]

/-- What passes a test is its first entry and the entries of the test behind it. -/
theorem filter_eq_cons {q : K × V → Bool} (hfind : t.entries.find? q = some e) :
    t.entries.filter q = e :: t.entries.filter fun f => q f && decide (toLex e < toLex f) :=
  filter_eq_cons_of_find? (R := fun a b : K × V => toLex a < toLex b)
    (fun a => lt_irrefl (toLex a)) t.sorted hfind

/-- The walk stops at the first entry of a key. -/
theorem le_of_find? (hfind : t.entries.find? (fun e => decide (p e.1)) = some e)
    {f : K × V} (hf : f ∈ t.entries) (hpf : p f.1) : toLex e ≤ toLex f := by
  have hfmem : f ∈ t.entries.filter fun e => decide (p e.1) :=
    mem_filter.mpr ⟨hf, decide_eq_true hpf⟩
  rw [filter_eq_cons hfind] at hfmem
  rcases mem_cons.mp hfmem with rfl | hfmem
  · exact le_rfl
  · have hlt := (mem_filter.mp hfmem).2
    rw [Bool.and_eq_true, decide_eq_true_iff, decide_eq_true_iff] at hlt
    exact hlt.2.le

variable {k : K}

theorem mem_keysIn : k ∈ t.keysIn p ↔ (∃ v, (k, v) ∈ t.entries) ∧ p k := by
  simp [keysIn]

theorem keysIn_sorted (t : DupTable K V) (p : K → Prop) [DecidablePred p] :
    (t.keysIn p).Pairwise (· < ·) :=
  (Finset.sortedLT_sort _).pairwise

theorem keysIn_length_le (t : DupTable K V) (p : K → Prop) [DecidablePred p] :
    (t.keysIn p).length ≤ t.entries.length := by
  rw [keysIn, Finset.length_sort]
  calc _ ≤ (t.entries.map Prod.fst).toFinset.card := Finset.card_filter_le _ _
    _ ≤ (t.entries.map Prod.fst).length := toFinset_card_le _
    _ = t.entries.length := length_map _

/-- A list of keys is known by its order and its members. -/
theorem eq_keysIn {l : List K} (hl : l.Pairwise (· < ·))
    (hmem : ∀ k, k ∈ l ↔ (∃ v, (k, v) ∈ t.entries) ∧ p k) : l = t.keysIn p :=
  List.Pairwise.eq_of_mem_iff hl (keysIn_sorted t p) fun k => (hmem k).trans mem_keysIn.symm

theorem keysIn_eq_nil (hfind : t.entries.find? (fun e => decide (p e.1)) = none) :
    t.keysIn p = [] := by
  rw [find?_eq_none] at hfind
  rw [eq_nil_iff_forall_not_mem]
  intro k hk
  obtain ⟨⟨v, hmem⟩, hp⟩ := mem_keysIn.mp hk
  exact hfind _ hmem (decide_eq_true hp)

section

variable (hup : ∀ {a b}, p a → a < b → p b)

include hup

/-- A walk has before it the keys from its first key on. -/
theorem find?_iff (hfind : t.entries.find? (fun e => decide (p e.1)) = some e) {f : K × V}
    (hf : f ∈ t.entries) : p f.1 ↔ e.1 ≤ f.1 := by
  have hp : p e.1 := by simpa using find?_some hfind
  constructor
  · exact fun hpf => Prod.Lex.monotone_fst _ _ (le_of_find? hfind hf hpf)
  · intro hle
    rcases hle.eq_or_lt with heq | hlt
    · exact heq ▸ hp
    · exact hup hp hlt

/-- The first key of a walk, and the keys after it. -/
theorem keysIn_eq_cons (hfind : t.entries.find? (fun e => decide (p e.1)) = some e) :
    t.keysIn p = e.1 :: t.keysIn fun k => e.1 < k := by
  have hmem := mem_of_find?_eq_some hfind
  refine (eq_keysIn (.cons (fun k hk => (mem_keysIn.mp hk).2) (keysIn_sorted t _))
    fun k => ?_).symm
  rw [mem_cons, mem_keysIn]
  constructor
  · rintro (rfl | ⟨⟨v, hv⟩, hlt⟩)
    · exact ⟨⟨e.2, hmem⟩, (find?_iff hup hfind hmem).mpr le_rfl⟩
    · exact ⟨⟨v, hv⟩, (find?_iff hup hfind hv).mpr hlt.le⟩
  · rintro ⟨⟨v, hv⟩, hp⟩
    rcases ((find?_iff hup hfind hv).mp hp).eq_or_lt with heq | hlt
    · exact .inl heq.symm
    · exact .inr ⟨⟨v, hv⟩, hlt⟩

/-- The key a walk begins at. -/
theorem find?_fst :
    (t.entries.find? fun e => decide (p e.1)).map Prod.fst = (t.keysIn p).head? := by
  cases hfind : t.entries.find? fun e => decide (p e.1) with
  | none =>
    rw [keysIn_eq_nil hfind]
    rfl
  | some e =>
    rw [keysIn_eq_cons hup hfind]
    rfl

/-- Behind a key of a walk come the greater keys. -/
theorem keysIn_behind {rest : List K}
    (hkeys : k :: rest <:+ t.keysIn p) : (t.keysIn fun l => k < l) = rest := by
  obtain ⟨front, hkeys⟩ := hkeys
  have hsorted := keysIn_sorted t p
  rw [← hkeys, pairwise_append, pairwise_cons] at hsorted
  have hmem : ∀ l, l ∈ front ++ k :: rest ↔ (∃ v, (l, v) ∈ t.entries) ∧ p l := fun l =>
    hkeys ▸ mem_keysIn
  refine (eq_keysIn hsorted.2.1.2 fun l => ⟨fun hl => ?_, fun ⟨hl, hlt⟩ => ?_⟩).symm
  · exact ⟨((hmem l).mp (by simp [hl])).1, hsorted.2.1.1 l hl⟩
  · have hk := ((hmem k).mp (by simp)).2
    have hl' := (hmem l).mpr ⟨hl, hup hk hlt⟩
    rw [mem_append, mem_cons] at hl'
    rcases hl' with hfront | rfl | hrest
    · exact absurd (hsorted.2.2 l hfront k mem_cons_self) hlt.not_gt
    · exact absurd hlt (lt_irrefl _)
    · exact hrest

theorem nextNoDup_fst {rest : List K}
    (hkeys : k :: rest <:+ t.keysIn p) : (t.nextNoDup k).map Prod.fst = rest.head? := by
  rw [nextNoDup, find?_fst fun hlt hlt' => hlt.trans hlt', keysIn_behind hup hkeys]

end

theorem head?_fst : t.entries.head?.map Prod.fst = (t.keysIn fun _ => True).head? := by
  rw [← find?_fst fun _ _ => trivial, find?_eq_head? fun _ _ => decide_eq_true trivial]

/-- The first entry of a key. -/
def first (t : DupTable K V) (k : K) : Option (K × V) :=
  t.entries.find? fun e => decide (e.1 = k)

theorem first_fst (hfirst : t.first k = some e) : e.1 = k := by
  simpa using find?_some hfirst

/-- A walk over the keys stops at first entries. -/
theorem first_of_find? (hfind : t.entries.find? (fun e => decide (p e.1)) = some e) :
    t.first e.1 = some e := by
  have hmem := mem_of_find?_eq_some hfind
  have hp : p e.1 := by simpa using find?_some hfind
  cases hsame : t.first e.1 with
  | none =>
    rw [first, find?_eq_none] at hsame
    exact absurd (decide_eq_true rfl) (hsame e hmem)
  | some f =>
    have hef := le_of_find? hfind (mem_of_find?_eq_some hsame) (first_fst hsame ▸ hp)
    have hfe : toLex f ≤ toLex e := le_of_find? (p := fun k => k = e.1) hsame hmem rfl
    exact congrArg some (toLex.injective (le_antisymm hfe hef))

/-- The first entries of the keys that satisfy a condition. -/
def firstsIn (t : DupTable K V) (p : K → Prop) [DecidablePred p] : List (K × V) :=
  (t.keysIn p).filterMap t.first

theorem mem_firstsIn : e ∈ t.firstsIn p ↔ p e.1 ∧ t.first e.1 = some e := by
  rw [firstsIn, mem_filterMap]
  constructor
  · rintro ⟨k, hk, hfirst⟩
    obtain rfl := first_fst hfirst
    exact ⟨(mem_keysIn.mp hk).2, hfirst⟩
  · rintro ⟨hp, hfirst⟩
    exact ⟨e.1, mem_keysIn.mpr ⟨⟨e.2, mem_of_find?_eq_some hfirst⟩, hp⟩, hfirst⟩

theorem firstsIn_sorted (t : DupTable K V) (p : K → Prop) [DecidablePred p] :
    (t.firstsIn p).Pairwise fun e f => e.1 < f.1 := by
  refine List.Pairwise.filterMap t.first (fun k l hlt e he f hf => ?_) (t.keysIn_sorted p)
  rw [first_fst he, first_fst hf]
  exact hlt

theorem firstsIn_eq_nil (hfind : t.entries.find? (fun e => decide (p e.1)) = none) :
    t.firstsIn p = [] := by
  rw [firstsIn, keysIn_eq_nil hfind, filterMap_nil]

theorem firstsIn_eq_cons (hup : ∀ {a b}, p a → a < b → p b)
    (hfind : t.entries.find? (fun e => decide (p e.1)) = some e) :
    t.firstsIn p = e :: t.firstsIn fun k => e.1 < k := by
  rw [firstsIn, keysIn_eq_cons hup hfind, filterMap_cons_some (first_of_find? hfind), firstsIn]

/-- The first entries from a key on. -/
def firstsFrom (t : DupTable K V) (k : K) : List (K × V) := t.firstsIn (k ≤ ·)

/-- The first entries behind a key. -/
def firstsAfter (t : DupTable K V) (k : K) : List (K × V) := t.firstsIn (k < ·)

theorem mem_firstsFrom : e ∈ t.firstsFrom k ↔ k ≤ e.1 ∧ t.first e.1 = some e :=
  mem_firstsIn

theorem mem_firstsAfter : e ∈ t.firstsAfter k ↔ k < e.1 ∧ t.first e.1 = some e :=
  mem_firstsIn

theorem firstsFrom_eq_cons (hseek : t.seek k = some e) : t.firstsFrom k = e :: t.firstsAfter e.1 :=
  firstsIn_eq_cons (fun hle hlt => (hle.trans_lt hlt).le) hseek

theorem firstsAfter_eq_nil (hnext : t.nextNoDup k = none) : t.firstsAfter k = [] :=
  firstsIn_eq_nil hnext

theorem firstsAfter_eq_cons (hnext : t.nextNoDup k = some e) :
    t.firstsAfter k = e :: t.firstsAfter e.1 :=
  firstsIn_eq_cons lt_trans hnext

theorem lt_of_nextNoDup (hnext : t.nextNoDup k = some e) : k < e.1 := by
  simpa using find?_some hnext

end Walk

/-- The values of a key behind a value. -/
def dupsAbove (t : DupTable K V) (cur : K × V) : List V :=
  (t.entries.filter fun e => decide (e.1 = cur.1 ∧ cur.2 < e.2)).map Prod.snd

section Dups

variable {t : DupTable K V} {cur e : K × V}

theorem dupsAbove_eq_nil (hnext : t.nextDup cur = none) : t.dupsAbove cur = [] := by
  rw [nextDup, find?_eq_none] at hnext
  rw [dupsAbove, map_eq_nil_iff, filter_eq_nil_iff]
  exact hnext

theorem nextDup_spec (hnext : t.nextDup cur = some e) : e.1 = cur.1 ∧ cur.2 < e.2 := by
  have := find?_some hnext
  rwa [decide_eq_true_iff] at this

/-- What passes a test for one key is its first value and the values behind it. -/
theorem values_eq_cons {q : K × V → Bool} (hfind : t.entries.find? q = some e)
    (hkey : ∀ f, q f = true → f.1 = e.1) (hmore : ∀ f, f.1 = e.1 → e.2 < f.2 → q f = true) :
    (t.entries.filter q).map Prod.snd = e.2 :: t.dupsAbove e := by
  rw [filter_eq_cons hfind, map_cons, dupsAbove]
  refine congrArg (e.2 :: List.map Prod.snd ·) (filter_congr fun f _ => ?_)
  rw [Bool.eq_iff_iff, Bool.and_eq_true, decide_eq_true_iff, decide_eq_true_iff,
    Prod.Lex.toLex_lt_toLex]
  constructor
  · rintro ⟨hf, hlt | ⟨-, hlt⟩⟩
    · exact absurd (hkey f hf) hlt.ne'
    · exact ⟨hkey f hf, hlt⟩
  · rintro ⟨hf, hlt⟩
    exact ⟨hmore f hf hlt, .inr ⟨hf.symm, hlt⟩⟩

theorem dupsAbove_eq_cons (hnext : t.nextDup cur = some e) :
    t.dupsAbove cur = e.2 :: t.dupsAbove e := by
  obtain ⟨hkey, hlt⟩ := nextDup_spec hnext
  refine values_eq_cons hnext (fun f hf => ?_) fun f hf hlt' => ?_
  · exact (of_decide_eq_true hf).1.trans hkey.symm
  · exact decide_eq_true ⟨hf.trans hkey, hlt.trans hlt'⟩

/-- The walk over the keys stops before the values of a key. -/
theorem dups_eq_cons {p : K → Prop} [DecidablePred p]
    (hfind : t.entries.find? (fun e => decide (p e.1)) = some e) :
    t.dups e.1 = e.2 :: t.dupsAbove e :=
  values_eq_cons (first_of_find? hfind) (fun _ => of_decide_eq_true) fun _ hf _ =>
    decide_eq_true hf

end Dups

end DupTable

end Erigon
