/-
Merging sorted streams with a heap of cursors.  `Merges` says what comes out:
always the least head, and of several with one key that of the first stream in
the order of priority.  Every loop over a heap that takes the least cursor and
puts back its successor produces such a sequence.
-/
import Mathlib.Algebra.Ring.Nat
import Mathlib.Data.List.Chain
import Mathlib.Data.Prod.Lex
import Erigon.BinaryHeap
import Erigon.StableSort
import Erigon.Streams

namespace Erigon

open List BinaryHeap

universe u v w x

variable {A : Type u} {K : Type v} {P : Type w} [LinearOrder K] [LinearOrder P]

/-- The items of the streams in the order in which they are taken. -/
inductive Merges (key : A → K) : List (P × List A) → List A → Prop
  | nil : Merges key [] []
  | skip {p rest out} : Merges key rest out → Merges key ((p, []) :: rest) out
  | take {p a as rest out} :
      (∀ q b bs, (q, b :: bs) ∈ rest → toLex (key a, p) ≤ toLex (key b, q)) →
      Merges key ((p, as) :: rest) out → Merges key ((p, a :: as) :: rest) (a :: out)
  | perm {streams streams' out} : streams.Perm streams' → Merges key streams out →
      Merges key streams' out

namespace Merges

variable {key : A → K} {streams : List (P × List A)} {out : List A}

theorem mem_iff (h : Merges key streams out) (a : A) : a ∈ out ↔ ∃ s ∈ streams, a ∈ s.2 := by
  induction h with
  | nil => simp
  | skip _ ih => simp [ih]
  | take _ _ ih => simp [ih, or_assoc]
  | perm hperm _ ih =>
    rw [ih]
    exact exists_congr fun s => and_congr_left fun _ => hperm.mem_iff

section

variable (h : Merges key streams out)
  (hsorted : ∀ s ∈ streams, s.2.Pairwise fun a b => key a ≤ key b)

include h hsorted

/-- Streams that are sorted are merged to a sorted sequence. -/
theorem sorted : out.Pairwise fun a b => key a ≤ key b := by
  induction h with
  | nil => exact .nil
  | skip _ ih => exact ih fun s hs => hsorted s (mem_cons_of_mem _ hs)
  | @take p a as rest out hleast hrest ih =>
    rw [forall_mem_cons] at hsorted
    refine .cons (fun b hb => ?_) (ih ?_)
    · rcases (hrest.mem_iff b).mp hb with ⟨s, hs, hbs⟩
      rcases mem_cons.mp hs with rfl | hs
      · exact rel_of_pairwise_cons hsorted.1 hbs
      · obtain ⟨q, items⟩ := s
        cases items with
        | nil => cases hbs
        | cons c cs =>
          have hhead : key a ≤ key c := Prod.Lex.monotone_fst _ _ (hleast q c cs hs)
          exact hhead.trans (le_of_mem_cons (hsorted.2 _ hs) hbs)
    · rw [forall_mem_cons]
      exact ⟨hsorted.1.of_cons, hsorted.2⟩
  | perm hperm _ ih => exact ih fun s hs => hsorted s (hperm.mem_iff.mp hs)

/-- The items of one key come stream by stream, in the order of priority. -/
theorem withKey_eq {ordered : List (P × List A)} (hperm : ordered.Perm streams)
    (hordered : ordered.Pairwise fun s t => s.1 < t.1) (k : K) :
    withKey key k out = ordered.flatMap fun s => withKey key k s.2 := by
  induction h generalizing ordered with
  | nil => simp [hperm.eq_nil]
  | @skip p rest out _ ih =>
    have hmem : (p, []) ∈ ordered := hperm.mem_iff.mpr mem_cons_self
    obtain ⟨front, back, rfl⟩ := append_of_mem hmem
    have hrest : (front ++ back).Perm rest :=
      (perm_middle.symm.trans hperm).cons_inv
    have hback := hordered.sublist ((sublist_cons_self (p, []) back).append_left front)
    rw [ih (fun s hs => hsorted s (mem_cons_of_mem _ hs)) hrest hback]
    simp
  | @take p a as rest out hleast hrest ih =>
    rw [forall_mem_cons] at hsorted
    have hmem : (p, a :: as) ∈ ordered := hperm.mem_iff.mpr mem_cons_self
    obtain ⟨front, back, rfl⟩ := append_of_mem hmem
    have hback : (front ++ back).Perm rest :=
      (perm_middle.symm.trans hperm).cons_inv
    have hnext : withKey key k out =
        (front ++ (p, as) :: back).flatMap fun s => withKey key k s.2 := by
      refine ih (forall_mem_cons.mpr ⟨hsorted.1.of_cons, hsorted.2⟩)
        (perm_middle.trans (hback.cons _)) ?_
      rw [pairwise_append, pairwise_cons] at hordered ⊢
      simpa using hordered
    by_cases hk : key a = k
    · -- Streams of higher priority have no item with the key of `a`.
      have hfront : (front.flatMap fun s => withKey key k s.2) = [] := by
        refine flatMap_eq_nil_iff.mpr fun s hs => withKey_eq_nil fun b hb => ?_
        have hlt : s.1 < p := (pairwise_append.mp hordered).2.2 s hs _
          mem_cons_self
        have hsrest : s ∈ rest := hback.mem_iff.mp (mem_append_left _ hs)
        obtain ⟨q, items⟩ := s
        cases items with
        | nil => cases hb
        | cons c cs =>
          have hlex := Prod.Lex.toLex_le_toLex.mp (hleast q c cs hsrest)
          have hhead : key a < key c := by
            rcases hlex with hlt' | ⟨-, hle⟩
            · exact hlt'
            · exact absurd hlt (not_lt.mpr hle)
          rw [← hk]
          exact (hhead.trans_le (le_of_mem_cons (hsorted.2 _ hsrest) hb)).ne'
      subst hk
      rw [withKey_cons_self, hnext, flatMap_append, flatMap_append, hfront]
      simp [withKey_cons_self]
    · rw [withKey_cons_ne hk, hnext]
      simp [withKey_cons_ne hk]
  | perm hswap _ ih =>
    exact ih (fun s hs => hsorted s (hswap.mem_iff.mp hs)) (hperm.trans hswap.symm) hordered

/-- Merging sorted streams sorts their concatenation. -/
theorem stableSorted (hordered : streams.Pairwise fun s t => s.1 < t.1) :
    StableSorted key (streams.flatMap Prod.snd) out := by
  refine ⟨h.sorted hsorted, fun k => ?_⟩
  rw [h.withKey_eq hsorted (List.Perm.refl _) hordered, withKey, filter_flatMap]
  rfl

end

end Merges

/-! ### The loop -/

section Loop

variable {C : Type x} {S E : Type*}

/-- Take the least cursor, use it, and put its successor back if it has one. -/
def popLoop (less : C → C → Bool) (body : S → C → Except E (S × Option C)) :
    Nat → Array C → S → Except E S
  | 0, _, s => .ok s
  | fuel + 1, h, s =>
    match BinaryHeap.pop less h with
    | none => .ok s
    | some (c, rest) =>
      match body s c with
      | .error e => .error e
      | .ok (s', none) => popLoop less body fuel rest s'
      | .ok (s', some c') => popLoop less body fuel (BinaryHeap.push less rest c') s'

variable {less : C → C → Bool} {rank : C → K ×ₗ P}
  (hless : ∀ c d, less c d = decide (rank c < rank d))

include hless in
theorem rank_asymm (c d : C) (h : less c d = true) : less d c = false := by
  rw [hless, decide_eq_true_iff] at h
  rw [hless, decide_eq_false_iff_not]
  exact h.asymm

include hless in
theorem rank_trans (a b c : C) (hab : less b a = false) (hbc : less c b = false) :
    less c a = false := by
  rw [hless, decide_eq_false_iff_not, not_lt] at hab hbc ⊢
  exact hab.trans hbc

theorem exists_of_forall₂ {B : Type*} {R : C → B → Prop} {cs : List C} {bs : List B}
    (h : List.Forall₂ R cs bs) {b : B} (hb : b ∈ bs) : ∃ c ∈ cs, R c b := by
  induction h with
  | nil => cases hb
  | cons hrel _ ih =>
    rcases mem_cons.mp hb with rfl | hb
    · exact ⟨_, mem_cons_self, hrel⟩
    · obtain ⟨c, hc, hrel'⟩ := ih hb
      exact ⟨c, mem_cons_of_mem _ hc, hrel'⟩

/-- A cursor stands before an item of its stream; the body consumes the item and
returns a cursor for the rest, if there is any. -/
structure Steps (key : A → K) (rank : C → K ×ₗ P) (shows : C → P × List A → Prop)
    (body : S → C → Except E (S × Option C)) (consume : S → A → Except E S) : Prop where
  step : ∀ c p items, shows c (p, items) → ∃ a as, items = a :: as ∧
    rank c = toLex (key a, p) ∧
    ((as = [] ∧ ∀ s, body s c = (consume s a).map fun s' => (s', none)) ∨
      ∃ c', (∀ s, body s c = (consume s a).map fun s' => (s', some c')) ∧ shows c' (p, as))

variable {body : S → C → Except E (S × Option C)}

/-- One pass of the loop, when the body consumes an item. -/
theorem popLoop_succ {consume : S → A → Except E S} {h rest : Array C} {c : C}
    (hpop : pop less h = some (c, rest)) {a : A} {next : Option C}
    (hbody : ∀ s, body s c = (consume s a).map fun s' => (s', next)) (fuel : Nat) (s : S) :
    popLoop less body (fuel + 1) h s = (consume s a).bind fun s' =>
      popLoop less body fuel (next.elim rest (push less rest)) s' := by
  rw [popLoop, hpop]
  dsimp only
  rw [hbody s]
  cases consume s a with
  | error e => rfl
  | ok s' => cases next <;> rfl

section Heap

variable {key : A → K} {shows : C → P × List A → Prop} {h : Array C}
  {streams : List (P × List A)}

/-- The items before the cursors. -/
def pending (streams : List (P × List A)) : Nat := (streams.map fun s => s.2.length).sum

omit [LinearOrder P] in
@[simp] theorem pending_cons (p : P) (items : List A) (rest : List (P × List A)) :
    pending ((p, items) :: rest) = items.length + pending rest := rfl

omit [LinearOrder P] in
theorem pending_perm {streams' : List (P × List A)} (hperm : streams.Perm streams') :
    pending streams = pending streams' :=
  List.Perm.sum_nat (hperm.map fun s : P × List A => s.2.length)

section

variable (hhead : ∀ c p items, shows c (p, items) →
    ∃ a as, items = a :: as ∧ rank c = toLex (key a, p))
  (horder : Ordered less h.size h) (hshows : List.Forall₂ shows h.toList streams)

include hless hhead horder hshows

/-- Either nothing is left, or the cursor taken from the heap stands before an item that may come
next, and the merge goes on when its successor, if it has one, is put back. -/
theorem pop_cases : (h = #[] ∧ streams = []) ∨
    0 < pending streams ∧ ∃ c rest p a as, pop less h = some (c, rest) ∧ h[0]? = some c ∧
      shows c (p, a :: as) ∧
      ∀ next : Option C, ((as = [] ∧ next = none) ∨ ∃ c', next = some c' ∧ shows c' (p, as)) →
        ∃ streams', Ordered less (next.elim rest (push less rest)).size
            (next.elim rest (push less rest)) ∧
          List.Forall₂ shows (next.elim rest (push less rest)).toList streams' ∧
          pending streams = pending streams' + 1 ∧
          ∀ out, Merges key streams' out → Merges key streams (a :: out) := by
  rcases Nat.eq_zero_or_pos h.size with hempty | hpos
  · obtain rfl : h = #[] := Array.eq_empty_of_size_eq_zero hempty
    exact .inl ⟨rfl, List.forall₂_nil_left_iff.mp hshows⟩
  obtain ⟨c, rest, hpop, hroot, hrest, hperm, hleast⟩ :=
    pop_spec (rank_asymm hless) (rank_trans hless) horder hpos
  obtain ⟨streams', hshows', hperm'⟩ := perm_comp_forall₂ hperm.symm hshows
  cases hshows' with
  | @cons _ stream _ others hc hothers =>
    obtain ⟨p, items⟩ := stream
    obtain ⟨a, as, rfl, hrank⟩ := hhead c p items hc
    have hfirst : ∀ q b bs, (q, b :: bs) ∈ others → toLex (key a, p) ≤ toLex (key b, q) := by
      intro q b bs hmem
      obtain ⟨d, hd, hshow⟩ := exists_of_forall₂ hothers hmem
      obtain ⟨b', bs', heq, hrank'⟩ := hhead d q _ hshow
      have hnot := hleast d (hperm.mem_iff.mpr (mem_cons_of_mem c hd))
      rw [hless, decide_eq_false_iff_not, not_lt, hrank, hrank'] at hnot
      cases heq
      exact hnot
    have hsum := pending_perm hperm'
    rw [pending_cons, length_cons] at hsum
    refine .inr ⟨by omega, c, rest, p, a, as, hpop, hroot, hc, ?_⟩
    rintro next (⟨rfl, rfl⟩ | ⟨c', rfl, hc'⟩)
    · refine ⟨others, hrest, hothers, ?_, fun out hout => .perm hperm' (.take hfirst hout.skip)⟩
      rw [← hsum, length_nil, Nat.zero_add, Nat.add_comm]
    · obtain ⟨between, hbetween, hback⟩ := perm_comp_forall₂
        (push_perm rest c') (List.Forall₂.cons hc' hothers)
      refine ⟨between, push_ordered (rank_asymm hless) (rank_trans hless) hrest c', hbetween, ?_,
        fun out hout => .perm hperm' (.take hfirst (.perm hback hout))⟩
      rw [pending_perm hback, pending_cons, ← hsum, Nat.add_right_comm]

/-- Without items there are no cursors. -/
theorem eq_nil_of_pending (hzero : pending streams ≤ 0) : h = #[] ∧ streams = [] := by
  rcases pop_cases hless hhead horder hshows with hnil | ⟨hpos, -⟩
  · exact hnil
  · omega

end

end Heap

include hless in
/-- The loop consumes a merge of the streams. -/
theorem popLoop_merges {key : A → K} {shows : C → P × List A → Prop} {consume : S → A → Except E S}
    (hsteps : Steps key rank shows body consume) {fuel : Nat} {h : Array C}
    (horder : Ordered less h.size h) {streams : List (P × List A)}
    (hshows : List.Forall₂ shows h.toList streams)
    (hfuel : (streams.map fun s => s.2.length).sum ≤ fuel) :
    ∃ out, Merges key streams out ∧
      ∀ s, popLoop less body fuel h s = out.foldlM consume s := by
  have hhead : ∀ c p items, shows c (p, items) →
      ∃ a as, items = a :: as ∧ rank c = toLex (key a, p) := by
    intro c p items hc
    obtain ⟨a, as, hitems, hrank, -⟩ := hsteps.step c p items hc
    exact ⟨a, as, hitems, hrank⟩
  change pending streams ≤ fuel at hfuel
  induction fuel generalizing h streams with
  | zero =>
    obtain ⟨rfl, rfl⟩ := eq_nil_of_pending hless hhead horder hshows hfuel
    exact ⟨[], .nil, fun _ => rfl⟩
  | succ fuel ih =>
    rcases pop_cases hless hhead horder hshows with
      ⟨rfl, rfl⟩ | ⟨-, c, rest, p, a, as, hpop, -, hc, hback⟩
    · exact ⟨[], .nil, fun _ => rfl⟩
    · obtain ⟨a', as', heq, -, hbody⟩ := hsteps.step c p _ hc
      cases heq
      -- Both ways of going on put back what the body returns.
      obtain ⟨next, hbody, hnext⟩ : ∃ next,
          (∀ s, body s c = (consume s a).map fun s' => (s', next)) ∧
          ((as = [] ∧ next = none) ∨ ∃ c', next = some c' ∧ shows c' (p, as)) := by
        rcases hbody with ⟨hnil, hbody⟩ | ⟨c', hbody, hc'⟩
        · exact ⟨none, hbody, .inl ⟨hnil, rfl⟩⟩
        · exact ⟨some c', hbody, .inr ⟨c', rfl, hc'⟩⟩
      obtain ⟨streams', horder', hshows', hpending, hmerge⟩ := hback next hnext
      obtain ⟨out, hmerges, hrun⟩ := ih horder' hshows' (by omega)
      refine ⟨a :: out, hmerge out hmerges, fun s => ?_⟩
      rw [popLoop_succ hpop hbody, foldlM_cons]
      exact bind_congr hrun

/-! ### Loops over runs -/

/-- Take cursors off the heap as long as the least one belongs to the run, and
put their successors back. -/
def popRun (less : C → C → Bool) (same : C → Bool) (next : C → Option C) :
    Nat → Array C → List C × Array C
  | 0, h => ([], h)
  | fuel + 1, h =>
    match h[0]? with
    | none => ([], h)
    | some top =>
      if same top then
        match BinaryHeap.pop less h with
        | none => ([], h)
        | some (c, rest) =>
          let tail := popRun less same next fuel
            ((next c).elim rest (BinaryHeap.push less rest))
          (c :: tail.1, tail.2)
      else ([], h)

/-- Use the heap run by run; a run has the cursors that belong to the least one. -/
def runLoop (less : C → C → Bool) (same : C → C → Bool) (next : C → Option C)
    (body : S → List C → Except E S) : Nat → Array C → S → Except E S
  | 0, _, s => .ok s
  | fuel + 1, h, s =>
    match h[0]? with
    | none => .ok s
    | some top =>
      let run := popRun less (same top) next (fuel + 1) h
      (body s run.1).bind (runLoop less same next body fuel run.2)

/-- The stream of the runs. -/
def runNext (less : C → C → Bool) (same : C → C → Bool) (next : C → Option C) :
    Nat × Array C → Option (List C × (Nat × Array C))
  | (0, _) => none
  | (fuel + 1, h) =>
    match h[0]? with
    | none => none
    | some top =>
      let run := popRun less (same top) next (fuel + 1) h
      some (run.1, fuel, run.2)

/-- The loop uses the runs of the stream. -/
theorem runLoop_eq_foldlM {less : C → C → Bool} {same : C → C → Bool} {next : C → Option C}
    {fuel : Nat} {h : Array C} {runs : List (List C)}
    (hyields : Yields (runNext less same next) (fuel, h) runs)
    (body : S → List C → Except E S) (s : S) :
    runLoop less same next body fuel h s = runs.foldlM body s := by
  induction fuel generalizing h runs s with
  | zero =>
    rw [hyields.eq_nil rfl]
    rfl
  | succ fuel ih =>
    cases htop : h[0]? with
    | none =>
      rw [hyields.eq_nil (by simp [runNext, htop])]
      simp [runLoop, htop]
      rfl
    | some top =>
      obtain ⟨rest, rfl, hrest⟩ := hyields.eq_cons (by simp only [runNext, htop]; rfl)
      rw [runLoop, htop, foldlM_cons]
      exact bind_congr fun s' => ih hrest s'

/-- Cursors stand before the items of their streams and are advanced by `next`. -/
structure Advances (key : A → K) (rank : C → K ×ₗ P) (shows : C → P × List A → Prop)
    (head : C → A) (next : C → Option C) : Prop where
  step : ∀ c p items, shows c (p, items) → ∃ as, items = head c :: as ∧
    rank c = toLex (key (head c), p) ∧
    ((as = [] ∧ next c = none) ∨ ∃ c', next c = some c' ∧ shows c' (p, as))

section Runs

variable {key : A → K} {shows : C → P × List A → Prop} {head : C → A} {next : C → Option C}

omit [LinearOrder K] [LinearOrder P] in
theorem Advances.exists_cons (hadv : Advances key rank shows head next) (c : C) (p : P)
    (items : List A) (hc : shows c (p, items)) :
    ∃ a as, items = a :: as ∧ rank c = toLex (key a, p) := by
  obtain ⟨as, hitems, hrank, -⟩ := hadv.step c p items hc
  exact ⟨head c, as, hitems, hrank⟩

/-- What a run leaves in the heap, and how the merge of the rest goes on. -/
structure RunTaken (less : C → C → Bool) (key : A → K) (shows : C → P × List A → Prop)
    (head : C → A) (same : C → Bool) (h : Array C) (streams : List (P × List A))
    (run : List C × Array C) (streams' : List (P × List A)) : Prop where
  ordered : BinaryHeap.Ordered less run.2.size run.2
  shown : List.Forall₂ shows run.2.toList streams'
  merges : ∀ out, Merges key streams' out → Merges key streams (run.1.map head ++ out)
  same_of_mem : ∀ c ∈ run.1, same c = true
  root : ∀ top, run.2[0]? = some top → same top = false
  head_eq : ∀ top, h[0]? = some top → same top = true → ∃ cs, run.1 = top :: cs
  pending_eq : pending streams = run.1.length + pending streams'

variable {fuel : Nat}

section

variable (hadv : Advances key rank shows head next)

include hless hadv

theorem popRun_taken (same : C → Bool) {h : Array C}
    (horder : Ordered less h.size h) {streams : List (P × List A)}
    (hshows : List.Forall₂ shows h.toList streams) (hfuel : pending streams ≤ fuel) :
    ∃ streams', RunTaken less key shows head same h streams
      (popRun less same next fuel h) streams' := by
  induction fuel generalizing h streams with
  | zero =>
    obtain ⟨rfl, rfl⟩ := eq_nil_of_pending hless hadv.exists_cons horder hshows hfuel
    exact ⟨[], horder, hshows, fun out hout => hout, by simp [popRun], by simp [popRun],
      by simp, rfl⟩
  | succ fuel ih =>
    rcases pop_cases hless hadv.exists_cons horder hshows with
      ⟨rfl, rfl⟩ | ⟨-, c, rest, p, a, as, hpop, hroot, hc, hback⟩
    · exact ⟨[], horder, hshows, fun out hout => hout, by simp [popRun],
        by simp [popRun], by simp, by simp [popRun]⟩
    · cases hsame : same c with
      | false =>
        have hrun : popRun less same next (fuel + 1) h = ([], h) := by
          simp [popRun, hroot, hsame]
        rw [hrun]
        refine ⟨streams, horder, hshows, fun out hout => hout, by simp, ?_, ?_, by simp⟩
        · intro top htop
          rw [hroot, Option.some.injEq] at htop
          exact htop ▸ hsame
        · intro top htop hsame'
          rw [hroot, Option.some.injEq] at htop
          rw [← htop, hsame] at hsame'
          cases hsame'
      | true =>
        obtain ⟨as', heq, -, hnext⟩ := hadv.step c p _ hc
        cases heq
        obtain ⟨between, horder', hshows', hpending, hmerge⟩ := hback _ hnext
        obtain ⟨streams', htail⟩ := ih horder' hshows' (by omega)
        refine ⟨streams', ?_⟩
        have hrun : popRun less same next (fuel + 1) h =
            (c :: (popRun less same next fuel
              ((next c).elim rest (push less rest))).1,
            (popRun less same next fuel
              ((next c).elim rest (push less rest))).2) := by
          simp [popRun, hroot, hsame, hpop]
        rw [hrun]
        refine ⟨htail.ordered, htail.shown, fun out hout => ?_, ?_, htail.root, ?_, ?_⟩
        · exact hmerge _ (htail.merges out hout)
        · exact forall_mem_cons.mpr ⟨hsame, htail.same_of_mem⟩
        · intro top htop _
          rw [hroot, Option.some.injEq] at htop
          exact ⟨_, congrArg (· :: _) htop⟩
        · have := htail.pending_eq
          rw [length_cons]
          omega

end

variable {G : Type*} [LinearOrder G] {group : A → G}

/-- Runs of one group each, the groups ascending. -/
structure Runs (group : A → G) (runs : List (List A)) : Prop where
  cons : ∀ run ∈ runs, ∃ a as, run = a :: as ∧ ∀ b ∈ as, group b = group a
  ascending : runs.Pairwise fun r r' => ∀ a ∈ r, ∀ b ∈ r', group a < group b

/-- In a sorted sequence that is cut where the group changes no group comes back. -/
theorem Runs.of_sorted {runs : List (List A)}
    (hcons : ∀ run ∈ runs, ∃ a as, run = a :: as ∧ ∀ b ∈ as, group b = group a)
    (hsorted : runs.flatten.Pairwise fun a b => group a ≤ group b)
    (hchange : runs.IsChain fun r r' => ∀ a ∈ r.head?, ∀ b ∈ r'.head?, group b ≠ group a) :
    Runs group runs := by
  refine ⟨hcons, ?_⟩
  induction runs with
  | nil => exact .nil
  | cons run runs ih =>
    rw [forall_mem_cons] at hcons
    rw [flatten_cons, pairwise_append] at hsorted
    refine .cons (fun run' hrun' a ha b hb => ?_)
      (ih hcons.2 hsorted.2.1 hchange.tail)
    have hbmem : b ∈ runs.flatten := mem_flatten_of_mem hrun' hb
    cases runs with
    | nil => cases hrun'
    | cons first others =>
      obtain ⟨c, cs, rfl, hcs⟩ := hcons.2 first mem_cons_self
      obtain ⟨d, ds, rfl, hds⟩ := hcons.1
      have hca : group c ≠ group a := by
        rcases mem_cons.mp ha with rfl | ha
        · exact hchange.rel _ rfl _ rfl
        · rw [hds a ha]
          exact hchange.rel _ rfl _ rfl
      have hac : group a ≤ group c := hsorted.2.2 a ha c (by simp)
      have hcb : group c ≤ group b := by
        rw [flatten_cons, cons_append] at hbmem hsorted
        exact le_of_mem_cons hsorted.2.1 hbmem
      exact (lt_of_le_of_ne hac hca.symm).trans_le hcb

/-- A merge of the streams cut where the group changes. -/
structure CutsMerge (key : A → K) (group : A → G) (streams : List (P × List A))
    (runs : List (List A)) : Prop where
  merges : Merges key streams runs.flatten
  cons : ∀ run ∈ runs, ∃ a as, run = a :: as ∧ ∀ b ∈ as, group b = group a
  change : runs.IsChain fun r r' => ∀ a ∈ r.head?, ∀ b ∈ r'.head?, group b ≠ group a

section

variable {same : C → C → Bool} (hadv : Advances key rank shows head next)
  (hsame : ∀ c d, same c d = true ↔ group (head d) = group (head c))

include hless hadv hsame

omit [LinearOrder G] in
/-- The stream of runs is a merge of the streams group by group. -/
theorem runNext_yields {h : Array C}
    (horder : Ordered less h.size h) {streams : List (P × List A)}
    (hshows : List.Forall₂ shows h.toList streams) (hfuel : pending streams ≤ fuel) :
    ∃ runs : List (List C), Yields (runNext less same next) (fuel, h) runs ∧
      CutsMerge key group streams (runs.map (List.map head)) ∧
      ∀ run ∈ runs.head?, ∃ top, h[0]? = some top ∧ run.head? = some top := by
  induction fuel generalizing h streams with
  | zero =>
    obtain ⟨rfl, rfl⟩ := eq_nil_of_pending hless hadv.exists_cons horder hshows hfuel
    exact ⟨[], .done rfl, ⟨.nil, by simp, .nil⟩, by simp⟩
  | succ fuel ih =>
    rcases pop_cases hless hadv.exists_cons horder hshows with
      ⟨rfl, rfl⟩ | ⟨-, top, -, -, -, -, -, htop, -⟩
    · exact ⟨[], .done rfl, ⟨.nil, by simp, .nil⟩, by simp⟩
    · obtain ⟨streams', htaken⟩ :=
        popRun_taken hless hadv (same top) horder hshows hfuel
      obtain ⟨cs, hcs⟩ := htaken.head_eq _ htop ((hsame _ _).mpr rfl)
      have hpending := htaken.pending_eq
      rw [hcs, length_cons] at hpending
      obtain ⟨runs, hyields, hcuts, hfirst⟩ := ih htaken.ordered htaken.shown (by omega)
      have hmem := htaken.same_of_mem
      have hall := htaken.merges _ hcuts.merges
      rw [hcs] at hmem hall
      refine ⟨(top :: cs) :: runs, .step ?_ hyields, ⟨hall, ?_, ?_⟩, ?_⟩
      · simp only [runNext, htop, hcs]
      · refine forall_mem_cons.mpr ⟨⟨head top, cs.map head, rfl, fun b hb => ?_⟩, hcuts.cons⟩
        obtain ⟨c, hc, rfl⟩ := mem_map.mp hb
        exact (hsame _ _).mp (hmem c (mem_cons_of_mem _ hc))
      · -- The next run begins at the root that ended this one.
        refine isChain_cons.mpr ⟨fun run hrun a ha b hb => ?_, hcuts.change⟩
        rw [head?_map, Option.mem_map] at hrun
        obtain ⟨run', hrun', rfl⟩ := hrun
        obtain ⟨top, hroot, hhead⟩ := hfirst run' hrun'
        have hdiff := htaken.root top hroot
        rw [Bool.eq_false_iff, ne_eq, hsame] at hdiff
        rw [map_cons, head?_cons, Option.mem_some_iff] at ha
        rw [head?_map, hhead, Option.map_some, Option.mem_some_iff] at hb
        exact ha ▸ hb ▸ hdiff
      · intro run hrun
        rw [head?_cons, Option.mem_some_iff] at hrun
        exact ⟨_, htop, hrun ▸ rfl⟩

variable {cs : List C} {streams : List (P × List A)} (hshows : List.Forall₂ shows cs streams)
  (hfuel : pending streams ≤ fuel)
  (hsorted : ∀ s ∈ streams, s.2.Pairwise fun a b => key a ≤ key b)
  (hmono : ∀ a b, key a ≤ key b → group a ≤ group b)

include hshows hfuel hsorted hmono

/-- Over sorted streams each group has one run, in ascending order. -/
theorem runNext_runs :
    ∃ runs : List (List C), Yields (runNext less same next)
        (fuel, cs.foldl (push less) #[]) runs ∧
      Merges key streams (runs.map (List.map head)).flatten ∧
      Runs group (runs.map (List.map head)) := by
  obtain ⟨horder, hperm⟩ := foldl_push_ordered (rank_asymm hless)
    (rank_trans hless) cs (h := #[]) fun c _ hc => absurd hc (Nat.not_lt_zero c)
  rw [append_nil] at hperm
  obtain ⟨streams', hshows', hperm'⟩ := perm_comp_forall₂ hperm hshows
  obtain ⟨runs, hyields, hcuts, -⟩ :=
    runNext_yields hless hadv hsame horder hshows' (pending_perm hperm' ▸ hfuel)
  have hall := Merges.perm hperm' hcuts.merges
  exact ⟨runs, hyields, hall,
    .of_sorted hcuts.cons ((hall.sorted hsorted).imp (hmono _ _)) hcuts.change⟩

/-- Over sorted streams each group is used once, in ascending order. -/
theorem runLoop_runs {body : S → List C → Except E S} {use : S → List A → Except E S}
    (hbody : ∀ s cs, body s cs = use s (cs.map head)) :
    ∃ runs : List (List A), Merges key streams runs.flatten ∧ Runs group runs ∧
      ∀ s, runLoop less same next body fuel (cs.foldl (push less) #[]) s =
        runs.foldlM use s := by
  obtain ⟨runs, hyields, hmerges, hruns⟩ :=
    runNext_runs hless hadv hsame hshows hfuel hsorted hmono
  refine ⟨runs.map (List.map head), hmerges, hruns, fun s => ?_⟩
  rw [runLoop_eq_foldlM hyields, foldlM_map]
  exact congrArg (fun f => runs.foldlM f s) (funext₂ hbody)

end

/-- A run has all items of its group, the least first. -/
theorem Runs.le_of_mem {runs : List (List A)} (hruns : Runs group runs)
    (hsorted : runs.flatten.Pairwise fun a b => key a ≤ key b) {a : A} {as : List A}
    (hrun : a :: as ∈ runs) {b : A} (hb : b ∈ runs.flatten) (hgroup : group b = group a) :
    key a ≤ key b := by
  obtain ⟨run, hmem, hbrun⟩ := mem_flatten.mp hb
  have hsame : run = a :: as := by
    by_contra hne
    obtain ⟨i, hi, rfl⟩ := getElem_of_mem hmem
    obtain ⟨j, hj, heq⟩ := getElem_of_mem hrun
    have hpair := pairwise_iff_getElem.mp hruns.ascending
    rcases Nat.lt_trichotomy i j with hlt | rfl | hlt
    · exact (hpair i j hi hj hlt b hbrun a (heq ▸ mem_cons_self)).ne hgroup
    · exact hne heq
    · exact (hpair j i hj hi hlt a (heq ▸ mem_cons_self) b hbrun).ne' hgroup
  subst hsame
  exact le_of_mem_cons (List.Pairwise.sublist (sublist_flatten_of_mem hrun) hsorted) hbrun

end Runs

end Loop

end Erigon
