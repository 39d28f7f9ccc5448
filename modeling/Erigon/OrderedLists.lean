/-
Lists in an order, and the tests that change once along them: what passes such a
test stands together, so that a walk to the first element that fails finds it all.
-/
import Mathlib.Data.List.Basic
import Mathlib.Data.List.Find
import Mathlib.Data.List.TakeWhile

namespace Erigon

open List

universe u v w

variable {A : Type u} {l : List A}

/-- In an ordered list what passes a test is the first that does and the later
ones. -/
theorem filter_eq_cons_of_find? {R : A → A → Prop} [DecidableRel R] (hirrefl : ∀ a, ¬R a a)
    (hl : l.Pairwise R) {q : A → Bool} {e : A} (hfind : l.find? q = some e) :
    l.filter q = e :: l.filter fun x => q x && decide (R e x) := by
  induction l with
  | nil => cases hfind
  | cons a l ih =>
    rw [pairwise_cons] at hl
    cases hq : q a with
    | true =>
      rw [find?_cons_of_pos hq, Option.some.injEq] at hfind
      subst hfind
      rw [filter_cons_of_pos hq, filter_cons_of_neg (by simp [hirrefl])]
      refine congrArg _ (filter_congr fun x hx => ?_)
      simp [hl.1 x hx]
    | false =>
      rw [find?_cons_of_neg (by simp [hq])] at hfind
      rw [filter_cons_of_neg (by simp [hq]), filter_cons_of_neg (by simp [hq])]
      exact ih hl.2 hfind

section Ends

variable {B : Type v} [Preorder B] {f : A → B}

/-- In a list that is ordered by `f` nothing is below the first element. -/
theorem le_of_mem_cons {a b : A} (hl : (a :: l).Pairwise fun a b => f a ≤ f b)
    (hb : b ∈ a :: l) : f a ≤ f b := by
  rcases mem_cons.mp hb with rfl | hb
  · exact le_rfl
  · exact rel_of_pairwise_cons hl hb

/-- And nothing is above the last. -/
theorem le_of_getLast? {last : A}
    (hl : l.Pairwise fun a b => f a ≤ f b) (hlast : l.getLast? = some last) :
    ∀ a ∈ l, f a ≤ f last := by
  obtain ⟨front, rfl⟩ := getLast?_eq_some_iff.mp hlast
  intro a ha
  rcases mem_append.mp ha with hfront | hlast
  · exact (pairwise_append.mp hl).2.2 a hfront last mem_cons_self
  · rw [mem_singleton.mp hlast]

end Ends

variable {p : A → Bool}

/-- Where nothing passes behind an element that fails, what passes comes first. -/
theorem takeWhile_eq_filter (hp : l.Pairwise fun a b => p b = true → p a = true) :
    l.takeWhile p = l.filter p := by
  induction l with
  | nil => rfl
  | cons a l ih =>
    rw [pairwise_cons] at hp
    cases ha : p a with
    | true => simp [ha, ih hp.2]
    | false =>
      rw [takeWhile_cons_of_neg (by simp [ha]), eq_comm, filter_eq_nil_iff, forall_mem_cons]
      refine ⟨by simp [ha], fun b hb hpb => ?_⟩
      rw [hp.1 b hb hpb] at ha
      cases ha

/-- Where all passes behind an element that does, what passes comes last. -/
theorem dropWhile_not_eq_filter (hp : l.Pairwise fun a b => p a = true → p b = true) :
    (l.dropWhile fun a => !p a) = l.filter p := by
  induction l with
  | nil => rfl
  | cons a l ih =>
    rw [pairwise_cons] at hp
    cases ha : p a with
    | false => simp [ha, ih hp.2]
    | true =>
      rw [dropWhile_cons_of_neg (by simp [ha]), eq_comm, filter_eq_self, forall_mem_cons]
      exact ⟨ha, fun b hb => hp.1 b hb ha⟩

/-- A stretch of an ordered list is what its two bounds leave. -/
theorem takeWhile_dropWhile_eq_filter {reached within : A → Bool}
    (hreached : l.Pairwise fun a b => reached a = true → reached b = true)
    (hwithin : l.Pairwise fun a b => within b = true → within a = true) :
    (l.dropWhile fun a => !reached a).takeWhile within =
      l.filter fun a => reached a && within a := by
  rw [dropWhile_not_eq_filter hreached, takeWhile_eq_filter (hwithin.filter _), filter_filter]
  exact filter_congr fun a _ => Bool.and_comm _ _

/-- In ascending order the elements below a bound come first. -/
theorem takeWhile_lt_eq_filter [LinearOrder A] (hl : l.Pairwise (· < ·)) (b : A) :
    l.takeWhile (fun a => decide (a < b)) = l.filter fun a => decide (a < b) := by
  refine takeWhile_eq_filter (hl.imp fun hlt hb => ?_)
  rw [decide_eq_true_iff] at hb ⊢
  exact hlt.trans hb

section From

variable [LinearOrder A]

def listFrom (l : List A) (a : A) : List A := l.filter fun b => decide (a ≤ b)

def listBehind (l : List A) (a : A) : List A := l.filter fun b => decide (a < b)

variable {a b : A}

theorem mem_listFrom : b ∈ listFrom l a ↔ b ∈ l ∧ a ≤ b := by
  rw [listFrom, mem_filter, decide_eq_true_iff]

theorem length_listFrom_le (hab : a ≤ b) (l : List A) :
    (listFrom l b).length ≤ (listFrom l a).length := by
  refine (monotone_filter_right l fun c hc => ?_).length_le
  exact decide_eq_true (hab.trans (of_decide_eq_true hc))

theorem length_listFrom_le_behind (hab : a < b) (l : List A) :
    (listFrom l b).length ≤ (listBehind l a).length := by
  refine (monotone_filter_right l fun c hc => ?_).length_le
  exact decide_eq_true (hab.trans_le (of_decide_eq_true hc))

theorem listBehind_eq_nil (h : ∀ b ∈ l, ¬a < b) : listBehind l a = [] :=
  filter_eq_nil_iff.mpr fun b hb => by simpa using h b hb

theorem listBehind_append {front back : List A} (hl : (front ++ a :: back).Pairwise (· < ·)) :
    listBehind (front ++ a :: back) a = back := by
  rw [pairwise_append, pairwise_cons] at hl
  have hfront : listBehind front a = [] :=
    listBehind_eq_nil fun b hb => (hl.2.2 b hb a mem_cons_self).not_gt
  rw [listBehind] at hfront ⊢
  rw [filter_append, hfront, filter_cons_of_neg (by simp), nil_append, filter_eq_self]
  exact fun b hb => decide_eq_true (hl.2.1.1 b hb)

/-- In an ordered list the first element that is not below a bound is the least. -/
theorem find?_le_least (hl : l.Pairwise (· ≤ ·))
    (hfind : l.find? (fun c => decide (a ≤ c)) = some b) :
    (b ∈ l ∧ a ≤ b) ∧ ∀ c ∈ l, a ≤ c → b ≤ c := by
  obtain ⟨hle, front, back, rfl, hfront⟩ := find?_eq_some_iff_append.mp hfind
  rw [pairwise_append, pairwise_cons] at hl
  refine ⟨⟨by simp, of_decide_eq_true hle⟩, fun c hc hle' => ?_⟩
  rw [mem_append, mem_cons] at hc
  rcases hc with hmem | rfl | hmem
  · exact absurd hle' (by simpa using hfront c hmem)
  · exact le_rfl
  · exact hl.2.1.1 c hmem

/-- In an ascending list it is the only one. -/
theorem find?_le_eq_some (hl : l.Pairwise (· < ·)) :
    l.find? (fun c => decide (a ≤ c)) = some b ↔
      (b ∈ l ∧ a ≤ b) ∧ ∀ c ∈ l, a ≤ c → b ≤ c := by
  constructor
  · exact find?_le_least (hl.imp le_of_lt)
  · rintro ⟨⟨hmem, hle⟩, hleast⟩
    rw [find?_eq_some_iff_append, decide_eq_true_iff]
    obtain ⟨front, back, rfl⟩ := append_of_mem hmem
    rw [pairwise_append] at hl
    refine ⟨hle, front, back, rfl, fun c hc => ?_⟩
    have hnot : ¬a ≤ c := fun hle' =>
      (hleast c (by simp [hc]) hle').not_gt (hl.2.2 c hc b mem_cons_self)
    simpa using hnot

/-- From an element of an ascending list on. -/
theorem listFrom_eq_cons (hl : l.Pairwise (· < ·)) (ha : a ∈ l) :
    listFrom l a = a :: listBehind l a := by
  obtain ⟨front, back, rfl⟩ := append_of_mem ha
  rw [listBehind_append hl]
  rw [pairwise_append, pairwise_cons] at hl
  have hfront : (front.filter fun b => decide (a ≤ b)) = [] :=
    filter_eq_nil_iff.mpr fun b hb => by simpa using hl.2.2 b hb a mem_cons_self
  rw [listFrom, filter_append, hfront, filter_cons_of_pos (by simp), nil_append, filter_eq_self.mpr]
  exact fun b hb => decide_eq_true (hl.2.1.1 b hb).le

end From

theorem find?_eq_head? (hp : ∀ a ∈ l, p a = true) : l.find? p = l.head? := by
  cases l with
  | nil => rfl
  | cons a l => exact find?_cons_of_pos (hp a mem_cons_self)

/-- Behind an element of an ordered list comes the next one. -/
theorem find?_behind {R : A → A → Prop} (hasymm : ∀ a b, R a b → ¬R b a)
    {front back : List A} {v : A} (hordered : (front ++ v :: back).Pairwise R)
    {after : A → Bool} (hafter : ∀ d, after d = true ↔ R v d) :
    (front ++ v :: back).find? after = back.head? := by
  rw [pairwise_append, pairwise_cons] at hordered
  have hfront : front.find? after = none := by
    rw [find?_eq_none]
    intro a ha
    rw [hafter]
    exact hasymm a v (hordered.2.2 a ha v mem_cons_self)
  have hself : ¬after v = true := fun h => hasymm v v ((hafter v).mp h) ((hafter v).mp h)
  rw [find?_append, hfront, Option.none_or, find?_cons_of_neg hself]
  exact find?_eq_head? fun b hb => (hafter b).mpr (hordered.2.1.1 b hb)

theorem findSome?_flatMap {B : Type v} {C : Type w} (f : A → List B) (g : B → Option C) :
    (l.flatMap f).findSome? g = l.findSome? fun a => (f a).findSome? g := by
  induction l with
  | nil => rfl
  | cons a l ih =>
    rw [flatMap_cons, findSome?_append, ih, findSome?_cons]
    cases (f a).findSome? g <;> rfl

section Rank

variable [LinearOrder A]

/-- How many elements of an ascending list are below another one. -/
def rankOf (l : List A) (a : A) : Nat := (l.takeWhile fun b => decide (b < a)).length

theorem lt_rankOf_iff (hl : l.Pairwise (· < ·)) {a b : A} {i : Nat} (hb : l[i]? = some b) :
    i < rankOf l a ↔ b < a := by
  induction l generalizing i with
  | nil => simp at hb
  | cons c l ih =>
    obtain ⟨hc, hrest⟩ := pairwise_cons.mp hl
    by_cases hlt : c < a
    · have hrank : rankOf (c :: l) a = rankOf l a + 1 := by
        rw [rankOf, takeWhile_cons_of_pos (by simpa using hlt), length_cons, rankOf]
      cases i with
      | zero =>
        obtain rfl : c = b := by simpa using hb
        simp [hrank, hlt]
      | succ i =>
        rw [hrank, Nat.succ_lt_succ_iff]
        exact ih hrest (by simpa using hb)
    · have hrank : rankOf (c :: l) a = 0 := by
        rw [rankOf, takeWhile_cons_of_neg (by simpa using hlt), length_nil]
      have hle : c ≤ b := by
        rcases mem_cons.mp (mem_of_getElem? hb) with rfl | hmem
        · exact le_rfl
        · exact (hc b hmem).le
      rw [hrank]
      exact iff_of_false (Nat.not_lt_zero i) (not_lt.mpr ((not_lt.mp hlt).trans hle))

/-- An element's rank is its place. -/
theorem rankOf_eq_of_getElem? (hl : l.Pairwise (· < ·)) {a : A} {i : Nat} (ha : l[i]? = some a) :
    rankOf l a = i := by
  have hnot : ¬i < rankOf l a := fun hlt => lt_irrefl a ((lt_rankOf_iff hl ha).mp hlt)
  refine le_antisymm (not_lt.mp hnot) (not_lt.mp fun hlt => ?_)
  obtain ⟨hi, hget⟩ := List.getElem?_eq_some_iff.mp ha
  have hr : rankOf l a < l.length := hlt.trans hi
  have hbelow : l[rankOf l a] < a :=
    lt_of_lt_of_eq (List.pairwise_iff_getElem.mp hl _ _ hr hi hlt) hget
  exact lt_irrefl _ ((lt_rankOf_iff hl (getElem?_eq_getElem hr)).mpr hbelow)

end Rank

end Erigon
