/-
Streams: `next` returns an item with the stream behind it, and nothing at the
end.  `Yields` lists what a consumer gets.  A stream may go from key to key and
report those that have a value.  The union of two streams in one order has each
key once, with the item of the first stream where both have one.
-/
import Erigon.OrderedLists

namespace Erigon

open List

universe u v w x

variable {X : Type u} {Y : Type v} {T : Type w}

/-- The items of a stream from a state on. -/
inductive Yields (next : X → Option (T × X)) : X → List T → Prop
  | done {s} : next s = none → Yields next s []
  | step {s a s' items} : next s = some (a, s') → Yields next s' items →
      Yields next s (a :: items)

section

variable {next : X → Option (T × X)} {s : X} {items : List T} (h : Yields next s items)

include h

theorem Yields.eq_nil (hnext : next s = none) : items = [] := by
  cases h with
  | done => rfl
  | step hstep _ =>
    rw [hnext] at hstep
    cases hstep

theorem Yields.eq_cons {s' : X} {a : T} (hnext : next s = some (a, s')) :
    ∃ rest, items = a :: rest ∧ Yields next s' rest := by
  cases h with
  | done hdone =>
    rw [hnext] at hdone
    cases hdone
  | step hstep hrest =>
    rw [hnext] at hstep
    cases hstep
    exact ⟨_, rfl, hrest⟩

theorem Yields.unique {items' : List T} (h' : Yields next s items') : items = items' := by
  induction h generalizing items' with
  | done hdone => exact (h'.eq_nil hdone).symm
  | step hstep _ ih =>
    obtain ⟨rest, rfl, hrest⟩ := h'.eq_cons hstep
    rw [ih hrest]

end

/-- A stream that wraps another one and applies a function to each item. -/
theorem Yields.wrap {nextX : X → Option (T × X)} {U : Type x} {nextY : Y → Option (U × Y)}
    {f : X → Y} {g : T → U}
    (hwrap : ∀ s, nextY (f s) = (nextX s).map fun r => (g r.1, f r.2)) {s : X} {items : List T}
    (h : Yields nextX s items) : Yields nextY (f s) (items.map g) := by
  induction h with
  | done hdone => exact .done (by rw [hwrap, hdone]; rfl)
  | step hstep _ ih => exact .step (by rw [hwrap, hstep]; rfl) ih

theorem Yields.within {nextX : X → Option (T × X)} {nextY : Y → Option (T × Y)} {f : X → Y}
    (hwrap : ∀ s, nextY (f s) = (nextX s).map fun r => (r.1, f r.2)) {s : X} {items : List T}
    (h : Yields nextX s items) : Yields nextY (f s) items := by
  simpa using Yields.wrap (g := id) hwrap h

/-! ### Streams over keys -/

/-- A stream that keeps its next item and finds the one behind it from there, as
long as it is within bounds. -/
structure Ahead (T : Type u) where
  ready : Option T
  limit : Int

def Ahead.next (within : T → Bool) (after : T → Option T) (s : Ahead T) :
    Option (T × Ahead T) :=
  match s.ready with
  | none => none
  | some a => if s.limit ≠ 0 ∧ within a then some (a, ⟨after a, s.limit - 1⟩) else none

section Reports

variable {K : Type u} {V : Type v}

/-- The keys that have something to report. -/
def reports (report : K → Option V) (keys : List K) : List (K × V) :=
  keys.filterMap fun k => (report k).map fun v => (k, v)

variable {report : K → Option V}

theorem reports_cons_some {k : K} {v : V} (hk : report k = some v) (keys : List K) :
    reports report (k :: keys) = (k, v) :: reports report keys :=
  filterMap_cons_some (by rw [hk]; rfl)

theorem reports_cons_none {k : K} (hk : report k = none) (keys : List K) :
    reports report (k :: keys) = reports report keys :=
  filterMap_cons_none (by rw [hk]; rfl)

theorem mem_reports {keys : List K} {k : K} {v : V} :
    (k, v) ∈ reports report keys ↔ k ∈ keys ∧ report k = some v := by
  rw [reports, mem_filterMap]
  constructor
  · rintro ⟨k', hk', hv⟩
    rw [Option.map_eq_some_iff] at hv
    obtain ⟨v', hreport, heq⟩ := hv
    cases heq
    exact ⟨hk', hreport⟩
  · rintro ⟨hk, hreport⟩
    exact ⟨k, hk, by rw [hreport]; rfl⟩

theorem reports_sorted [LinearOrder K] {keys : List K} (hkeys : keys.Pairwise (· < ·)) :
    (reports report keys).Pairwise fun a b => a.1 < b.1 := by
  refine List.Pairwise.filterMap _ (fun k l hlt a ha b hb => ?_) hkeys
  rw [Option.map_eq_some_iff] at ha hb
  obtain ⟨v, -, rfl⟩ := ha
  obtain ⟨w, -, rfl⟩ := hb
  exact hlt

/-- Keys without a report make no difference. -/
theorem reports_listFrom [LinearOrder K] {keys : List K} {k l : K} (hkl : k ≤ l)
    (hnone : ∀ i ∈ keys, k ≤ i → i < l → report i = none) :
    reports report (listFrom keys k) = reports report (listFrom keys l) := by
  rw [reports, reports, listFrom, listFrom, filterMap_filter, filterMap_filter]
  refine filterMap_congr fun i hi => ?_
  by_cases hli : l ≤ i
  · simp [hli, hkl.trans hli]
  · by_cases hki : k ≤ i
    · simp [hki, hli, hnone i hi hki (not_le.mp hli)]
    · simp [hki, hli]

/-- A stream that goes from the report of a key to the first one behind it, and wraps each. -/
theorem Ahead.yields_wrapped (wrap : K × V → T) {within : T → Bool} {after : T → Option T}
    {keys : List K} (hwithin : ∀ a ∈ reports report keys, within (wrap a) = true)
    (hafter : ∀ front k back v, keys = front ++ k :: back → report k = some v →
      after (wrap (k, v)) = (reports report back).head?.map wrap) {limit : Int}
    (hlimit : limit < 0) :
    Yields (Ahead.next within after) ⟨(reports report keys).head?.map wrap, limit⟩
      ((reports report keys).map wrap) := by
  induction keys generalizing limit with
  | nil => exact .done rfl
  | cons k keys ih =>
    have hafter' : ∀ front l back v, keys = front ++ l :: back → report l = some v →
        after (wrap (l, v)) = (reports report back).head?.map wrap := by
      intro front l back v hkeys
      exact hafter (k :: front) l back v (by rw [hkeys]; rfl)
    cases hk : report k with
    | none =>
      rw [reports_cons_none hk] at hwithin ⊢
      exact ih hwithin hafter' hlimit
    | some v =>
      rw [reports_cons_some hk] at hwithin ⊢
      rw [forall_mem_cons] at hwithin
      refine .step ?_ (ih hwithin.2 hafter' (show limit - 1 < 0 by omega))
      rw [← hafter [] k keys v rfl hk]
      simp [Ahead.next, Int.ne_of_lt hlimit, hwithin.1]

/-- A stream that goes from the report of a key to the first one behind it. -/
theorem Ahead.yields_reports {within : K × V → Bool} (after : K × V → Option (K × V))
    {keys : List K} (hwithin : ∀ a ∈ reports report keys, within a = true)
    (hafter : ∀ front k back v, keys = front ++ k :: back → report k = some v →
      after (k, v) = (reports report back).head?) {limit : Int} (hlimit : limit < 0) :
    Yields (Ahead.next within after) ⟨(reports report keys).head?, limit⟩
      (reports report keys) := by
  have hyields := Ahead.yields_wrapped id hwithin
    (fun front k back v hkeys hv => by rw [Option.map_id]; exact hafter front k back v hkeys hv)
    hlimit
  rwa [Option.map_id, map_id] at hyields

end Reports

/-! ### Unions -/

/-- Both streams with the item each has ready; a negative limit is none. -/
structure Union (X : Type u) (Y : Type v) (T : Type w) where
  x : X
  y : Y
  xNext : Option T
  yNext : Option T
  limit : Int

namespace Union

variable {K : Type x} [LinearOrder K] (nextX : X → Option (T × X)) (nextY : Y → Option (T × Y))
  (key : T → K) (m : Union X Y T)

def advanceX : Union X Y T :=
  match nextX m.x with
  | some (a, x) => { m with x := x, xNext := some a }
  | none => { m with xNext := none }

def advanceY : Union X Y T :=
  match nextY m.y with
  | some (b, y) => { m with y := y, yNext := some b }
  | none => { m with yNext := none }

def start (x : X) (y : Y) (limit : Int) : Union X Y T :=
  advanceY nextY (advanceX nextX ⟨x, y, none, none, limit⟩)

def next : Option (T × Union X Y T) :=
  if m.limit = 0 then none
  else
    let m' := { m with limit := m.limit - 1 }
    match m.xNext, m.yNext with
    | some a, some b =>
      if key a < key b then some (a, advanceX nextX m')
      else if key a = key b then some (a, advanceY nextY (advanceX nextX m'))
      else some (b, advanceY nextY m')
    | some a, none => some (a, advanceX nextX m')
    | none, some b => some (b, advanceY nextY m')
    | none, none => none

/-- What the union of two lists has. -/
def items : List T → List T → List T
  | [], bs => bs
  | as, [] => as
  | a :: as, b :: bs =>
    if key a < key b then a :: items as (b :: bs)
    else if key a = key b then a :: items as bs
    else b :: items (a :: as) bs
  termination_by as bs => as.length + bs.length

variable {nextX nextY key}

theorem items_nil_right (as : List T) : items key as [] = as := by
  cases as <;> simp [items]

section Runs

variable {x : X} {y : Y} {as bs : List T} {limit : Int}

theorem advanceX_eq (hx : Yields nextX x as) (y : Y) (xNext yNext : Option T) (limit : Int) :
    ∃ x', advanceX nextX ⟨x, y, xNext, yNext, limit⟩ = ⟨x', y, as.head?, yNext, limit⟩ ∧
      Yields nextX x' as.tail := by
  cases hx with
  | done hdone => exact ⟨x, by simp [advanceX, hdone], .done hdone⟩
  | step hstep hrest => exact ⟨_, by simp [advanceX, hstep], hrest⟩

theorem advanceY_eq (hy : Yields nextY y bs) (x : X) (xNext yNext : Option T) (limit : Int) :
    ∃ y', advanceY nextY ⟨x, y, xNext, yNext, limit⟩ = ⟨x, y', xNext, bs.head?, limit⟩ ∧
      Yields nextY y' bs.tail := by
  cases hy with
  | done hdone => exact ⟨y, by simp [advanceY, hdone], .done hdone⟩
  | step hstep hrest => exact ⟨_, by simp [advanceY, hstep], hrest⟩

/-- When the first stream has ended the second one is left. -/
theorem yields_right (hy : Yields nextY y bs.tail) (hlimit : limit < 0) :
    Yields (next nextX nextY key) ⟨x, y, none, bs.head?, limit⟩ bs := by
  induction bs generalizing y limit with
  | nil => exact .done (by simp [next])
  | cons b bs ih =>
    obtain ⟨y', hadv, hrest⟩ := advanceY_eq hy x none (some b) (limit - 1)
    refine .step ?_ (ih hrest (show limit - 1 < 0 by omega))
    simp [next, Int.ne_of_lt hlimit, hadv]

theorem yields_left (hx : Yields nextX x as.tail) (hlimit : limit < 0) :
    Yields (next nextX nextY key) ⟨x, y, as.head?, none, limit⟩ as := by
  induction as generalizing x limit with
  | nil => exact .done (by simp [next])
  | cons a as ih =>
    obtain ⟨x', hadv, hrest⟩ := advanceX_eq hx y (some a) none (limit - 1)
    refine .step ?_ (ih hrest (show limit - 1 < 0 by omega))
    simp [next, Int.ne_of_lt hlimit, hadv]

/-- A union that has its heads ready yields the union of the lists. -/
theorem yields_items (hx : Yields nextX x as.tail) (hy : Yields nextY y bs.tail)
    (hlimit : limit < 0) :
    Yields (next nextX nextY key) ⟨x, y, as.head?, bs.head?, limit⟩ (items key as bs) := by
  have hless : ∀ {l : Int}, l < 0 → l - 1 < 0 := by omega
  -- One pass for each item, by the recursion of `items`.
  fun_induction items key as bs generalizing x y limit with
  | case1 bs => exact yields_right hy hlimit
  | case2 as => exact yields_left hx hlimit
  | case3 a as b bs hlt ih =>
    obtain ⟨x', hadv, hrest⟩ := advanceX_eq hx y (some a) (some b) (limit - 1)
    refine .step ?_ (ih hrest hy (hless hlimit))
    simp [next, Int.ne_of_lt hlimit, hlt, hadv]
  | case4 a as b bs hlt heq ih =>
    obtain ⟨x', hadv, hrest⟩ := advanceX_eq hx y (some a) (some b) (limit - 1)
    obtain ⟨y', hadv', hrest'⟩ := advanceY_eq hy x' as.head? (some b) (limit - 1)
    refine .step ?_ (ih hrest hrest' (hless hlimit))
    simp [next, Int.ne_of_lt hlimit, heq, hadv, hadv']
  | case5 a as b bs hlt heq ih =>
    obtain ⟨y', hadv, hrest⟩ := advanceY_eq hy x (some a) (some b) (limit - 1)
    refine .step ?_ (ih hx hrest (hless hlimit))
    simp [next, Int.ne_of_lt hlimit, hlt, heq, hadv]

theorem yields_start (hx : Yields nextX x as) (hy : Yields nextY y bs) (hlimit : limit < 0) :
    Yields (next nextX nextY key) (start nextX nextY x y limit) (items key as bs) := by
  obtain ⟨x', hadv, hrest⟩ := advanceX_eq hx y none none limit
  obtain ⟨y', hadv', hrest'⟩ := advanceY_eq hy x' as.head? none limit
  rw [start, hadv, hadv']
  exact yields_items hrest hrest' hlimit

end Runs

section Items

variable {as bs : List T}

theorem mem_of_mem_items {c : T} (hc : c ∈ items key as bs) : c ∈ as ∨ c ∈ bs := by
  fun_induction items key as bs with
  | case1 bs => exact .inr hc
  | case2 as => exact .inl hc
  | case3 a as b bs hlt ih => grind
  | case4 a as b bs hlt heq ih => grind
  | case5 a as b bs hlt heq ih => grind

section

variable (has : as.Pairwise fun a b => key a < key b) (hbs : bs.Pairwise fun a b => key a < key b)

include has hbs

theorem items_sorted : (items key as bs).Pairwise fun a b => key a < key b := by
  fun_induction items key as bs with
  | case1 bs => exact hbs
  | case2 as => exact has
  | case3 a as b bs hlt ih =>
    rw [pairwise_cons] at has
    refine .cons (fun c hc => ?_) (ih has.2 hbs)
    rcases mem_of_mem_items hc with hc | hc
    · exact has.1 c hc
    · rcases mem_cons.mp hc with rfl | hc
      · exact hlt
      · exact hlt.trans (rel_of_pairwise_cons hbs hc)
  | case4 a as b bs hlt heq ih =>
    rw [pairwise_cons] at has hbs
    refine .cons (fun c hc => ?_) (ih has.2 hbs.2)
    rcases mem_of_mem_items hc with hc | hc
    · exact has.1 c hc
    · exact heq ▸ hbs.1 c hc
  | case5 a as b bs hlt heq ih =>
    rw [pairwise_cons] at hbs
    have hgt : key b < key a := lt_of_le_of_ne (not_lt.mp hlt) (Ne.symm heq)
    refine .cons (fun c hc => ?_) (ih has hbs.2)
    rcases mem_of_mem_items hc with hc | hc
    · rcases mem_cons.mp hc with rfl | hc
      · exact hgt
      · exact hgt.trans (rel_of_pairwise_cons has hc)
    · exact hbs.1 c hc

/-- The first stream has precedence. -/
theorem mem_items {c : T} : c ∈ items key as bs ↔ c ∈ as ∨ c ∈ bs ∧ ∀ a ∈ as, key a ≠ key c := by
  fun_induction items key as bs with
  | case1 bs => simp
  | case2 as => simp
  | case3 a as b bs hlt ih =>
    have ha : ∀ c ∈ b :: bs, key a ≠ key c := by
      rw [forall_mem_cons]
      exact ⟨hlt.ne, fun c hc => (hlt.trans (rel_of_pairwise_cons hbs hc)).ne⟩
    have hmem : c ∈ a :: as ↔ c = a ∨ c ∈ as := mem_cons
    rw [mem_cons, ih has.of_cons hbs, hmem, or_assoc, forall_mem_cons]
    refine or_congr_right (or_congr_right (and_congr_right fun hc => ?_))
    exact (and_iff_right (ha c hc)).symm
  | case4 a as b bs hlt heq ih =>
    have ha : ∀ c ∈ bs, key a ≠ key c := fun c hc =>
      heq ▸ (rel_of_pairwise_cons hbs hc).ne
    have hmem : c ∈ a :: as ↔ c = a ∨ c ∈ as := mem_cons
    rw [mem_cons, ih has.of_cons hbs.of_cons, hmem, or_assoc, forall_mem_cons, mem_cons]
    refine or_congr_right (or_congr_right ⟨fun hc => ?_, fun hc => ?_⟩)
    · exact ⟨.inr hc.1, ha c hc.1, hc.2⟩
    · rcases hc.1 with rfl | hbc
      · exact absurd heq hc.2.1
      · exact ⟨hbc, hc.2.2⟩
  | case5 a as b bs hlt heq ih =>
    have hgt : key b < key a := lt_of_le_of_ne (not_lt.mp hlt) (Ne.symm heq)
    have hb : ∀ a' ∈ a :: as, key a' ≠ key b := by
      rw [forall_mem_cons]
      exact ⟨heq, fun a' ha' => (hgt.trans (rel_of_pairwise_cons has ha')).ne'⟩
    rw [mem_cons, ih has hbs.of_cons, mem_cons (b := b)]
    constructor
    · rintro (rfl | hc | ⟨hc, hne⟩)
      · exact .inr ⟨.inl rfl, hb⟩
      · exact .inl hc
      · exact .inr ⟨.inr hc, hne⟩
    · rintro (hc | ⟨rfl | hc, hne⟩)
      · exact .inr (.inl hc)
      · exact .inl rfl
      · exact .inr (.inr ⟨hc, hne⟩)

end

end Items

end Union

end Erigon
