/-
Union and intersection of streams that can fail.  Both look one item ahead on each side; an error
met on the way is kept, and from then on it is all that a consumer gets.
-/
import Erigon.ByteOrder
import Erigon.Streams

namespace Erigon

open List

variable {S T E : Type}

/-- `HasNext` and `Next` of a stream in one: `none` stands for a `HasNext` that says no. -/
abbrev Source (S T E : Type) := S → Option (Except E T × S)

/-- The items of a stream and the error they end with, if one does. -/
inductive Emits (read : Source S T E) : S → List T → Option E → Prop
  | done {s} : read s = none → Emits read s [] none
  | fails {s s' e} : read s = some (.error e, s') → Emits read s [] (some e)
  | step {s a s' items err} : read s = some (.ok a, s') → Emits read s' items err →
      Emits read s (a :: items) err

variable (read : Source S T E)

/-- A stream gives a list and ends, or a beginning of it and then an error. -/
def Delivers (s : S) (items : List T) (ends : Prop) (errors : E → Prop) :
    Prop :=
  (ends ∧ Emits read s items none) ∨
    ∃ given e, given <+: items ∧ errors e ∧ Emits read s given (some e)

/-- An error of one of two streams. -/
def Errors (ex ey : Option E) (e : E) : Prop := ex = some e ∨ ey = some e

section Delivers

variable {read : Source S T E} {s s' : S} {items : List T} {ends : Prop} {errors : E → Prop}

theorem Delivers.step {a : T} (hread : read s = some (.ok a, s'))
    (h : Delivers read s' items ends errors) : Delivers read s (a :: items) ends errors := by
  rcases h with ⟨hends, hemits⟩ | ⟨given, e, hbegin, he, hemits⟩
  · exact .inl ⟨hends, .step hread hemits⟩
  · exact .inr ⟨a :: given, e, (prefix_cons_inj a).mpr hbegin, he, .step hread hemits⟩

theorem Delivers.fails {e : E} (hread : read s = some (.error e, s')) (he : errors e) :
    Delivers read s items ends errors :=
  .inr ⟨[], e, nil_prefix, he, .fails hread⟩

theorem Emits.delivers {err : Option E} (h : Emits read s items err) (hends : err = none → ends)
    (herrors : ∀ e, err = some e → errors e) : Delivers read s items ends errors := by
  cases err with
  | none => exact .inl ⟨hends rfl, h⟩
  | some e => exact .inr ⟨items, e, prefix_rfl, herrors e rfl, h⟩

variable {R : Type} {readR : Source R T E} {f : S → R}
  (hwrap : ∀ s, readR (f s) = (read s).map fun r => (r.1, f r.2))

include hwrap

theorem Emits.wrap {err : Option E} (h : Emits read s items err) : Emits readR (f s) items err := by
  induction h with
  | done hdone => exact .done (by rw [hwrap, hdone]; rfl)
  | fails hfails => exact .fails (by rw [hwrap, hfails]; rfl)
  | step hstep _ ih => exact .step (by rw [hwrap, hstep]; rfl) ih

theorem Delivers.wrap (h : Delivers read s items ends errors) :
    Delivers readR (f s) items ends errors :=
  h.imp (.imp_right fun hemits => hemits.wrap hwrap) fun ⟨given, e, hbegin, he, hemits⟩ =>
    ⟨given, e, hbegin, he, hemits.wrap hwrap⟩

end Delivers

/-! ### Two streams side by side -/

/-- A stream with the item that was read from it, if it had one. -/
structure Peek (S T : Type) where
  stream : S
  head : Option T

def Peek.advance (p : Peek S T) : Except E (Peek S T) :=
  match read p.stream with
  | none => .ok { p with head := none }
  | some (.ok a, s) => .ok ⟨s, some a⟩
  | some (.error e, _) => .error e

/-- The state of `UnionUno`, `Intersected` and `UnionKVIter`.  Both streams have the type of the
interface, which stands for all that implement it. -/
structure Merge (S T E : Type) where
  x : Peek S T
  y : Peek S T
  err : Option E
  limit : Int

namespace Merge

variable (read : Source S T E)

def advanceX (m : Merge S T E) : Merge S T E :=
  if m.err.isSome then m
  else match m.x.advance read with
    | .ok p => { m with x := p }
    | .error e => { m with err := some e }

def advanceY (m : Merge S T E) : Merge S T E :=
  if m.err.isSome then m
  else match m.y.advance read with
    | .ok p => { m with y := p }
    | .error e => { m with err := some e }

def start (x y : S) (limit : Int) : Merge S T E :=
  (advanceX read ⟨⟨x, none⟩, ⟨y, none⟩, none, limit⟩).advanceY read

variable (order : T → T → Ordering)

/-- `Next` of `UnionUno` and of `UnionKVIter`. -/
def unionNext : Source (Merge S T E) T E := fun m =>
  match m.err with
  | some e => some (.error e, m)
  | none =>
    if m.limit = 0 then none
    else
      let m' := { m with limit := m.limit - 1 }
      match m.x.head, m.y.head with
      | some a, some b =>
        match order a b with
        | .lt => some (.ok a, m'.advanceX read)
        | .eq => some (.ok a, (m'.advanceX read).advanceY read)
        | .gt => some (.ok b, m'.advanceY read)
      | some a, none => some (.ok a, m'.advanceX read)
      | none, some b => some (.ok b, m'.advanceY read)
      | none, none => none

/-- The loop of `Intersected.advance`. -/
def skip : Nat → Merge S T E → Merge S T E
  | 0, m => m
  | fuel + 1, m =>
    match m.err, m.x.head, m.y.head with
    | none, some a, some b =>
      match order a b with
      | .eq => m
      | .lt => skip fuel (m.advanceX read)
      | .gt => skip fuel (m.advanceY read)
    | _, _, _ => { m with x := { m.x with head := none } }

/-- `Next` of `Intersected`. -/
def intersectNext (fuel : Nat) : Source (Merge S T E) T E := fun m =>
  match m.err with
  | some e => some (.error e, m)
  | none =>
    if m.limit = 0 then none
    else match m.x.head, m.y.head with
      | some a, some _ =>
        let m' := { m with limit := m.limit - 1 }
        some (.ok a, skip read order fuel ((m'.advanceX read).advanceY read))
      | _, _ => none

end Merge

/-- The stream that a constructor returns. -/
inductive Merged (S T E : Type)
  | empty
  | one (s : S)
  | both (m : Merge S T E)

namespace Merged

open Merge (start skip)

variable (read : Source S T E)

def next (nextBoth : Source (Merge S T E) T E) : Source (Merged S T E) T E
  | .empty => none
  | .one s => (read s).map fun r => (r.1, .one r.2)
  | .both m => (nextBoth m).map fun r => (r.1, .both r.2)

/-- `stream.Union`; `none` is a nil stream. -/
def union (limit : Int) : Option S → Option S → Merged S T E
  | none, none => .empty
  | none, some y => .one y
  | some x, none => .one x
  | some x, some y =>
    if (read x).isNone then .one y
    else if (read y).isNone then .one x
    else .both (start read x y limit)

/-- `stream.UnionKV`. -/
def unionKV (limit : Int) : Option S → Option S → Merged S T E
  | none, none => .empty
  | none, some y => .one y
  | some x, none => .one x
  | some x, some y => .both (start read x y limit)

/-- `stream.Intersect`. -/
def intersect (order : T → T → Ordering) (fuel : Nat) (limit : Int) :
    Option S → Option S → Merged S T E
  | some x, some y =>
    if (read x).isNone ∨ (read y).isNone then .empty
    else .both (skip read order fuel (start read x y limit))
  | _, _ => .empty

end Merged

/-- How `UnionUno` and `Intersected` compare in their direction. -/
def streamOrder [LinearOrder T] (asc : Bool) (a b : T) : Ordering :=
  if (asc && decide (a < b)) || (!asc && decide (b < a)) then .lt else if a = b then .eq else .gt

/-- `bytes.Compare`. -/
def bytesCompare (a b : Bytes) : Ordering := streamOrder true a b

/-! ### One step -/

/-- A peeked stream is at the beginning of a list. -/
def Peek.Shows (p : Peek S T) (items : List T) (err : Option E) : Prop :=
  p.head = items.head? ∧ Emits read p.stream items.tail err ∧ (items = [] → err = none)

variable {read : Source S T E}

theorem Peek.advance_cases {p : Peek S T} {items : List T} {err : Option E}
    (h : Emits read p.stream items err) :
    (∃ q, p.advance read = .ok q ∧ q.Shows read items err) ∨
      ∃ e, err = some e ∧ p.advance read = .error e := by
  rw [advance]
  cases h with
  | done hdone =>
    rw [hdone]
    exact .inl ⟨_, rfl, rfl, .done hdone, fun _ => rfl⟩
  | fails hfails =>
    rw [hfails]
    exact .inr ⟨_, rfl, rfl⟩
  | step hstep hrest =>
    rw [hstep]
    exact .inl ⟨_, rfl, rfl, hrest, fun hnil => nomatch hnil⟩

namespace Merge

variable {order : T → T → Ordering} {p q : Peek S T} {limit : Int} {as bs : List T}
  {ex ey : Option E} {P : Merge S T E → Prop}

theorem advanceX_ind (hx : Emits read p.stream as ex)
    (hfails : ∀ m e, m.err = some e → Errors ex ey e → P m)
    (h : ∀ p', p'.Shows read as ex → P ⟨p', q, none, limit⟩) :
    P (advanceX read ⟨p, q, none, limit⟩) := by
  rcases Peek.advance_cases hx with ⟨p', hadvance, hshows⟩ | ⟨e, he, hadvance⟩
  · simpa [advanceX, hadvance] using h p' hshows
  · simpa [advanceX, hadvance] using hfails ⟨p, q, some e, limit⟩ e rfl (.inl he)

theorem advanceY_ind (hy : Emits read q.stream bs ey)
    (hfails : ∀ m e, m.err = some e → Errors ex ey e → P m)
    (h : ∀ q', q'.Shows read bs ey → P ⟨p, q', none, limit⟩) :
    P (advanceY read ⟨p, q, none, limit⟩) := by
  rcases Peek.advance_cases hy with ⟨q', hadvance, hshows⟩ | ⟨e, he, hadvance⟩
  · simpa [advanceY, hadvance] using h q' hshows
  · simpa [advanceY, hadvance] using hfails ⟨p, q, some e, limit⟩ e rfl (.inr he)

theorem advance_ind (hx : Emits read p.stream as ex) (hy : Emits read q.stream bs ey)
    (hfails : ∀ m e, m.err = some e → Errors ex ey e → P m)
    (h : ∀ p' q', p'.Shows read as ex → q'.Shows read bs ey → P ⟨p', q', none, limit⟩) :
    P ((advanceX read ⟨p, q, none, limit⟩).advanceY read) := by
  have hfailsX : ∀ (m : Merge S T E) e, m.err = some e → Errors ex ey e →
      P (m.advanceY read) := by
    intro m e he herrors
    simpa [advanceY, he] using hfails m e he herrors
  exact advanceX_ind (P := fun m => P (m.advanceY read)) hx hfailsX fun p' hp =>
    advanceY_ind hy hfails fun q' hq => h p' q' hp hq

variable {m : Merge S T E}

theorem unionNext_err {e : E} (he : m.err = some e) :
    m.unionNext read order = some (.error e, m) := by
  rw [unionNext, he]

theorem intersectNext_err {fuel : Nat} {e : E} (he : m.err = some e) :
    m.intersectNext read order fuel = some (.error e, m) := by
  rw [intersectNext, he]

/-! ### Whole runs -/

/-- A union that has its heads ready delivers the union of the lists. -/
theorem union_delivers {K : Type} [LinearOrder K] {key : T → K}
    (horder : ∀ a b, order a b = cmp (key a) (key b)) (as bs : List T) (p q : Peek S T)
    (limit : Int) (hx : p.Shows read as ex) (hy : q.Shows read bs ey) (hlimit : limit < 0) :
    Delivers (unionNext read order) ⟨p, q, none, limit⟩ (Union.items key as bs)
      (ex = none ∧ ey = none) (Errors ex ey) := by
  have hfails : ∀ items, ∀ (m : Merge S T E) e, m.err = some e → Errors ex ey e →
      Delivers (unionNext read order) m items (ex = none ∧ ey = none) (Errors ex ey) :=
    fun items m e he herrors => .fails (unionNext_err he) herrors
  have hless : limit - 1 < 0 := by omega
  have hnext := unionNext.eq_def read order ⟨p, q, none, limit⟩
  simp only [hx.1, hy.1, hlimit.ne, if_false] at hnext
  match as, bs with
  | [], [] =>
    rw [Union.items]
    exact .inl ⟨⟨hx.2.2 rfl, hy.2.2 rfl⟩, .done hnext⟩
  | [], b :: bs =>
    have hrest : Union.items key [] (b :: bs) = b :: Union.items key [] bs := by
      simp only [Union.items]
    rw [hrest]
    exact .step hnext (advanceY_ind hy.2.1 (hfails _) fun q' hq =>
      union_delivers horder [] bs p q' _ hx hq hless)
  | a :: as, [] =>
    have hrest : Union.items key (a :: as) [] = a :: Union.items key as [] := by
      simp only [Union.items_nil_right]
    rw [hrest]
    exact .step hnext (advanceX_ind hx.2.1 (hfails _) fun p' hp =>
      union_delivers horder as [] p' q _ hp hy hless)
  | a :: as, b :: bs =>
    rw [Union.items]
    simp only [head?_cons] at hnext
    rw [horder] at hnext
    rcases lt_trichotomy (key a) (key b) with hlt | heq | hgt
    · rw [if_pos hlt]
      rw [(cmp_eq_lt_iff _ _).mpr hlt] at hnext
      exact .step hnext (advanceX_ind hx.2.1 (hfails _) fun p' hp =>
        union_delivers horder as (b :: bs) p' q _ hp hy hless)
    · rw [if_neg heq.not_lt, if_pos heq]
      rw [(cmp_eq_eq_iff _ _).mpr heq] at hnext
      exact .step hnext (advance_ind hx.2.1 hy.2.1 (hfails _) fun p' q' hp hq =>
        union_delivers horder as bs p' q' _ hp hq hless)
    · rw [if_neg hgt.not_gt, if_neg hgt.ne']
      rw [(cmp_eq_gt_iff _ _).mpr hgt] at hnext
      exact .step hnext (advanceY_ind hy.2.1 (hfails _) fun q' hq =>
        union_delivers horder (a :: as) bs p q' _ hx hq hless)
termination_by as.length + bs.length

theorem skip_err {e : E} (he : m.err = some e) (n : Nat) : (skip read order n m).err = some e := by
  cases n with
  | zero => exact he
  | succ n => simp [skip, he]

theorem skip_ended {fuel n : Nat} (h : p.head = none ∨ q.head = none) :
    Emits (intersectNext read order fuel) (skip read order (n + 1) ⟨p, q, none, limit⟩) []
      none := by
  have hskip : skip read order (n + 1) ⟨p, q, none, limit⟩ =
      ⟨{ p with head := none }, q, none, limit⟩ := by
    rw [skip]
    rcases h with h | h
    · simp [h]
    · cases hp : p.head <;> simp [h]
  rw [hskip]
  exact .done (by simp [intersectNext])

/-- From any heads the loop goes to the next common item or to the end of one stream. -/
theorem skip_delivers [DecidableEq T] {K : Type} [LinearOrder K] {key : T → K}
    (hkey : Function.Injective key) (horder : ∀ a b, order a b = cmp (key a) (key b))
    {fuel n : Nat} (has : as.Pairwise fun a b => key a < key b)
    (hbs : bs.Pairwise fun a b => key a < key b) (hn : as.length + bs.length < n)
    (hfuel : as.length + bs.length < fuel) (hx : p.Shows read as ex) (hy : q.Shows read bs ey)
    (hlimit : limit < 0) :
    Delivers (intersectNext read order fuel) (skip read order n ⟨p, q, none, limit⟩)
      (as.filter (· ∈ bs)) (ex = none ∨ ey = none) (Errors ex ey) := by
  have hfails : ∀ n items, ∀ (m : Merge S T E) e, m.err = some e → Errors ex ey e →
      Delivers (intersectNext read order fuel) (skip read order n m) items
        (ex = none ∨ ey = none) (Errors ex ey) :=
    fun n items m e he herrors => .fails (intersectNext_err (skip_err he n)) herrors
  induction hsize : as.length + bs.length using Nat.strong_induction_on
    generalizing as bs n p q limit with | _ size ih
  obtain ⟨n, rfl⟩ := Nat.exists_eq_add_one_of_ne_zero (Nat.ne_zero_of_lt hn)
  cases as with
  | nil => exact .inl ⟨.inl (hx.2.2 rfl), skip_ended (.inl hx.1)⟩
  | cons a as =>
    cases bs with
    | nil =>
      rw [filter_eq_nil_iff.mpr (by simp)]
      exact .inl ⟨.inr (hy.2.2 rfl), skip_ended (.inr hy.1)⟩
    | cons b bs =>
      have hskip := skip.eq_2 read order ⟨p, q, none, limit⟩ n
      simp only [hx.1, hy.1, head?_cons] at hskip
      rw [horder] at hskip
      simp only [length_cons] at hn hfuel hsize
      have has' := pairwise_cons.mp has
      have hbs' := pairwise_cons.mp hbs
      rcases lt_trichotomy (key a) (key b) with hlt | heq | hgt
      · have hnot : a ∉ b :: bs := by
          intro hmem
          rcases mem_cons.mp hmem with rfl | hmem
          · exact lt_irrefl _ hlt
          · exact lt_asymm hlt (hbs'.1 a hmem)
        rw [(cmp_eq_lt_iff _ _).mpr hlt] at hskip
        rw [hskip, filter_cons_of_neg (by simpa using hnot)]
        exact advanceX_ind (P := fun m => Delivers _ (skip read order n m) _ _ _)
          hx.2.1 (hfails n _) fun p' hp => ih (as.length + (b :: bs).length)
            (by simp; omega) has'.2 hbs (by simp; omega) (by simp; omega) hp hy hlimit rfl
      · obtain rfl := hkey heq
        have hrest : as.filter (· ∈ a :: bs) = as.filter (· ∈ bs) := by
          refine filter_congr fun c hc => ?_
          have hne : c ≠ a := ne_of_apply_ne key (has'.1 c hc).ne'
          simp [hne]
        have hnext := intersectNext.eq_def read order fuel ⟨p, q, none, limit⟩
        simp only [hx.1, hy.1, hlimit.ne, if_false, head?_cons] at hnext
        rw [(cmp_eq_eq_iff _ _).mpr rfl] at hskip
        rw [hskip, filter_cons_of_pos (by simp), hrest]
        exact .step hnext (advance_ind
          (P := fun m => Delivers _ (skip read order fuel m) _ _ _) hx.2.1 hy.2.1
          (hfails fuel _) fun p' q' hp hq => ih _ (by omega) has'.2 hbs'.2 (by omega)
            (by omega) hp hq (by omega) rfl)
      · have hrest : (a :: as).filter (· ∈ b :: bs) = (a :: as).filter (· ∈ bs) := by
          refine filter_congr fun c hc => ?_
          have hne : c ≠ b := by
            rintro rfl
            rcases mem_cons.mp hc with rfl | hc
            · exact lt_irrefl _ hgt
            · exact lt_asymm hgt (has'.1 c hc)
          simp [hne]
        rw [(cmp_eq_gt_iff _ _).mpr hgt] at hskip
        rw [hskip, hrest]
        exact advanceY_ind (P := fun m => Delivers _ (skip read order n m) _ _ _)
          hy.2.1 (hfails n _) fun q' hq => ih ((a :: as).length + bs.length)
            (by simp; omega) has hbs'.2 (by simp; omega) (by simp; omega) hx hq hlimit rfl

end Merge

/-! ### The streams that are returned -/

/-- A nil stream gives nothing. -/
def Input (read : Source S T E) (items : List T) (err : Option E) : Option S → Prop
  | none => items = [] ∧ err = none
  | some s => Emits read s items err

namespace Merged

open Merge

variable {order : T → T → Ordering} {K : Type} [LinearOrder K] {key : T → K} {limit : Int}
  {x y : Option S} {as bs : List T} {ex ey : Option E}

theorem eq_nil_of_emits {s : S} {items : List T} {err : Option E} (h : Emits read s items err)
    (hread : (read s).isNone) : items = [] ∧ err = none := by
  cases h with
  | done => exact ⟨rfl, rfl⟩
  | fails hfails => simp [hfails] at hread
  | step hstep _ => simp [hstep] at hread

theorem emits_one {s : S} {items : List T} {err : Option E} (h : Emits read s items err)
    (nextBoth : Source (Merge S T E) T E) : Emits (next read nextBoth) (.one s) items err :=
  Emits.wrap (f := Merged.one) (fun _ => rfl) h

/-- One input alone. -/
theorem one_delivers {s : S} (nextBoth : Source (Merge S T E) T E)
    (h : (bs = [] ∧ ey = none) ∧ Emits read s as ex ∨ (as = [] ∧ ex = none) ∧ Emits read s bs ey) :
    Delivers (next read nextBoth) (.one s) (Union.items key as bs) (ex = none ∧ ey = none)
      (Errors ex ey) := by
  rcases h with ⟨⟨rfl, rfl⟩, hemits⟩ | ⟨⟨rfl, rfl⟩, hemits⟩
  · rw [Union.items_nil_right]
    exact (emits_one hemits nextBoth).delivers (fun h => ⟨h, rfl⟩) fun e he => .inl he
  · rw [Union.items]
    exact (emits_one hemits nextBoth).delivers (fun h => ⟨rfl, h⟩) fun e he => .inr he

section

variable (horder : ∀ a b, order a b = cmp (key a) (key b))

include horder

theorem start_delivers {x y : S}
    (hx : Emits read x as ex) (hy : Emits read y bs ey) (hlimit : limit < 0) :
    Delivers (next read (unionNext read order)) (.both (start read x y limit))
      (Union.items key as bs) (ex = none ∧ ey = none) (Errors ex ey) := by
  refine Delivers.wrap (fun _ => rfl) (advance_ind (P := fun m => Delivers _ m _ _ _)
    (by exact hx) (by exact hy) ?_ fun p q hp hq => ?_)
  · exact fun m e he herrors => .fails (unionNext_err he) herrors
  · exact union_delivers horder as bs p q limit hp hq hlimit

theorem unionKV_delivers (hx : Input read as ex x) (hy : Input read bs ey y) (hlimit : limit < 0) :
    Delivers (next read (unionNext read order)) (unionKV read limit x y)
      (Union.items key as bs) (ex = none ∧ ey = none) (Errors ex ey) := by
  match x, y with
  | none, none =>
    obtain ⟨⟨rfl, rfl⟩, rfl, rfl⟩ := And.intro hx hy
    rw [Union.items]
    exact .inl ⟨⟨rfl, rfl⟩, .done rfl⟩
  | none, some y => exact one_delivers _ (.inr ⟨hx, hy⟩)
  | some x, none => exact one_delivers _ (.inl ⟨hy, hx⟩)
  | some x, some y => exact start_delivers horder hx hy hlimit

theorem union_delivers (hx : Input read as ex x) (hy : Input read bs ey y) (hlimit : limit < 0) :
    Delivers (next read (unionNext read order)) (union read limit x y)
      (Union.items key as bs) (ex = none ∧ ey = none) (Errors ex ey) := by
  match x, y with
  | none, none | none, some y | some x, none => exact unionKV_delivers horder hx hy hlimit
  | some x, some y =>
    rw [union]
    split
    · next hnone => exact one_delivers _ (.inr ⟨eq_nil_of_emits hx hnone, hy⟩)
    · split
      · next hnone => exact one_delivers _ (.inl ⟨eq_nil_of_emits hy hnone, hx⟩)
      · exact start_delivers horder hx hy hlimit

end

theorem intersect_delivers [DecidableEq T] (hkey : Function.Injective key)
    (horder : ∀ a b, order a b = cmp (key a) (key b)) {fuel : Nat}
    (has : as.Pairwise fun a b => key a < key b) (hbs : bs.Pairwise fun a b => key a < key b)
    (hfuel : as.length + bs.length < fuel) (hx : Input read as ex x) (hy : Input read bs ey y)
    (hlimit : limit < 0) :
    Delivers (next read (intersectNext read order fuel)) (intersect read order fuel limit x y)
      (as.filter (· ∈ bs)) (ex = none ∨ ey = none) (Errors ex ey) := by
  have hempty : (as = [] ∧ ex = none) ∨ (bs = [] ∧ ey = none) →
      Delivers (next read (intersectNext read order fuel)) .empty (as.filter (· ∈ bs))
        (ex = none ∨ ey = none) (Errors ex ey) := by
    rintro (⟨rfl, rfl⟩ | ⟨rfl, rfl⟩)
    · exact .inl ⟨.inl rfl, .done rfl⟩
    · rw [filter_eq_nil_iff.mpr (by simp)]
      exact .inl ⟨.inr rfl, .done rfl⟩
  match x, y with
  | none, y => exact hempty (.inl hx)
  | some x, none => exact hempty (.inr hy)
  | some x, some y =>
    rw [intersect]
    split
    · next hnone => exact hempty (hnone.imp (eq_nil_of_emits hx) (eq_nil_of_emits hy))
    · refine Delivers.wrap (fun _ => rfl) (advance_ind
        (P := fun m => Delivers _ (skip read order fuel m) _ _ _) (by exact hx) (by exact hy)
        ?_ fun p q hp hq => skip_delivers hkey horder has hbs hfuel hfuel hp hq hlimit)
      exact fun m e he herrors => .fails (intersectNext_err (skip_err he fuel)) herrors

end Merged

theorem streamOrder_asc [LinearOrder T] (a b : T) : streamOrder true a b = cmp a b := by
  rw [streamOrder, cmp, cmpUsing]
  rcases lt_trichotomy a b with h | rfl | h
  · simp [h]
  · simp
  · simp [h, h.not_gt, h.ne']

theorem streamOrder_desc [LinearOrder T] (a b : T) :
    streamOrder false a b = cmp (OrderDual.toDual a) (OrderDual.toDual b) := by
  rw [streamOrder, cmp_toDual, cmp, cmpUsing]
  rcases lt_trichotomy a b with h | rfl | h
  · simp [h, h.not_gt, h.ne]
  · simp
  · simp [h]

/-- What a stream delivers, as a set in an order. -/
def DeliversSet (read : Source S T E) (s : S) (before : T → T → Prop) (holds : T → Prop)
    (ends : Prop) (errors : E → Prop) : Prop :=
  ∃ items, items.Pairwise before ∧ (∀ c, c ∈ items ↔ holds c) ∧ Delivers read s items ends errors

open Merged Merge

/-- Either direction is the order of some keys. -/
theorem exists_key [LinearOrder T] (asc : Bool) :
    ∃ (K : Type) (_ : LinearOrder K) (key : T → K), Function.Injective key ∧
      ∀ a b, streamOrder asc a b = cmp (key a) (key b) := by
  cases asc with
  | true => exact ⟨T, inferInstance, id, Function.injective_id, streamOrder_asc⟩
  | false =>
    exact ⟨Tᵒᵈ, inferInstance, OrderDual.toDual, OrderDual.toDual.injective, streamOrder_desc⟩

/-- Union and intersection of streams in one direction, and union of streams of pairs by key; and
an error that is read is kept, and is then all that `Next` gives. -/
theorem merged_streams :
    (∀ (S T E : Type) [LinearOrder T] (asc : Bool) (read : Source S T E) (x y : Option S)
      (as bs : List T) (ex ey : Option E) (limit : Int) (fuel : Nat), Input read as ex x →
      Input read bs ey y → as.Pairwise (fun a b => streamOrder asc a b = .lt) →
      bs.Pairwise (fun a b => streamOrder asc a b = .lt) → limit < 0 →
      as.length + bs.length < fuel →
      DeliversSet (next read (unionNext read (streamOrder asc))) (union read limit x y)
        (fun a b => streamOrder asc a b = .lt) (fun c => c ∈ as ∨ c ∈ bs)
        (ex = none ∧ ey = none) (Errors ex ey) ∧
      DeliversSet (next read (intersectNext read (streamOrder asc) fuel))
        (intersect read (streamOrder asc) fuel limit x y)
        (fun a b => streamOrder asc a b = .lt) (fun c => c ∈ as ∧ c ∈ bs)
        (ex = none ∨ ey = none) (Errors ex ey)) ∧
    (∀ (S E : Type) (read : Source S (Bytes × Bytes) E) (x y : Option S)
      (as bs : List (Bytes × Bytes)) (ex ey : Option E) (limit : Int), Input read as ex x →
      Input read bs ey y → as.Pairwise (fun a b => a.1 < b.1) →
      bs.Pairwise (fun a b => a.1 < b.1) → limit < 0 →
      DeliversSet (next read (unionNext read fun a b => bytesCompare a.1 b.1))
        (unionKV read limit x y) (fun a b => a.1 < b.1)
        (fun c => c ∈ as ∨ c ∈ bs ∧ ∀ a ∈ as, a.1 ≠ c.1) (ex = none ∧ ey = none) (Errors ex ey)) ∧
    ∀ (S T E : Type) (read : Source S T E) (order : T → T → Ordering) (fuel : Nat)
      (m : Merge S T E) (e : E),
      (m.err = some e → m.unionNext read order = some (.error e, m) ∧
        m.intersectNext read order fuel = some (.error e, m) ∧
        (m.advanceX read).err = some e ∧ (m.advanceY read).err = some e ∧
        (m.skip read order fuel).err = some e) ∧
      (∀ x, m.err = none → read m.x.stream = some (.error e, x) →
        (m.advanceX read).err = some e) ∧
      ∀ y, m.err = none → read m.y.stream = some (.error e, y) →
        (m.advanceY read).err = some e := by
  refine ⟨?_, ?_, fun S T E read order fuel m e => ⟨fun he => ?_, ?_, ?_⟩⟩
  · intro S T E _ asc read x y as bs ex ey limit fuel hx hy has hbs hlimit hfuel
    obtain ⟨K, _, key, hkey, horder⟩ := exists_key (T := T) asc
    have hlt : ∀ a b, streamOrder asc a b = .lt ↔ key a < key b := fun a b => by
      rw [horder, cmp_eq_lt_iff]
    simp only [hlt] at has hbs ⊢
    refine ⟨⟨Union.items key as bs, Union.items_sorted has hbs, fun c => ?_,
      union_delivers horder hx hy hlimit⟩, ⟨as.filter (· ∈ bs), has.filter _, fun c => by simp,
      intersect_delivers hkey horder has hbs hfuel hx hy hlimit⟩⟩
    rw [Union.mem_items has hbs]
    constructor
    · exact Or.imp_right And.left
    · rintro (hc | hc)
      · exact .inl hc
      · by_cases hmem : c ∈ as
        · exact .inl hmem
        · exact .inr ⟨hc, fun a ha heq => hmem (hkey heq ▸ ha)⟩
  · intro S E read x y as bs ex ey limit hx hy has hbs hlimit
    exact ⟨Union.items Prod.fst as bs, Union.items_sorted has hbs,
      fun c => Union.mem_items has hbs,
      unionKV_delivers (fun _ _ => streamOrder_asc _ _) hx hy hlimit⟩
  · exact ⟨unionNext_err he, intersectNext_err he, by simp [advanceX, he], by simp [advanceY, he],
      skip_err he fuel⟩
  · exact fun x hnone hread => by simp [advanceX, Peek.advance, hnone, hread]
  · exact fun y hnone hread => by simp [advanceY, Peek.advance, hnone, hread]

/-- A stream over a list. -/
def listNext : Source (List T) T E
  | [] => none
  | a :: as => some (.ok a, as)

theorem emits_listNext (as : List T) : Emits (E := E) listNext as as none := by
  induction as with
  | nil => exact .done rfl
  | cons a as ih => exact .step rfl ih

theorem merged_streams_descending :
    DeliversSet (next listNext (unionNext listNext (streamOrder false)))
      (union (E := String) listNext (-1) (some [3, 1]) (some [3, 2]))
      (fun a b => streamOrder false a b = .lt) (fun c : Nat => c ∈ [3, 1] ∨ c ∈ [3, 2])
      ((none : Option String) = none ∧ (none : Option String) = none)
      (Errors none none) :=
  (merged_streams.1 _ _ _ false listNext (some [3, 1]) (some [3, 2]) [3, 1] [3, 2] none none (-1)
    5 (emits_listNext _) (emits_listNext _) (by decide) (by decide) (by decide) (by decide)).1

end Erigon
