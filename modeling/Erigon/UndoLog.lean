/-
States with a journal: every entry can be undone, the newest first, up to a
relation that says when a state is as good as another.  What a call adds to the
journal takes its changes back; so does what a sequence of calls adds, with
returns to earlier states among them.
-/
import Mathlib.Data.List.Pairwise
import Erigon.Query

namespace Erigon

open List

/-- A journal, newest entry first, and what undoing an entry does.  An entry is
undone where it is ready, and is off the journal then. -/
structure UndoLog (S E : Type) where
  journal : S → List E
  Ready : E → S → Prop
  undo : E → S → S
  journal_undo : ∀ e s, journal (undo e s) = (journal s).tail

namespace UndoLog

variable {S E : Type} (log : UndoLog S E)

/-- Undo entries in turn. -/
def unwind (es : List E) (s : S) : S := es.foldl (fun s e => log.undo e s) s

/-- Every entry is ready when its turn comes. -/
def AllReady : List E → S → Prop
  | [], _ => True
  | e :: es, s => log.Ready e s ∧ AllReady es (log.undo e s)

theorem unwind_append (es fs : List E) (s : S) :
    log.unwind (es ++ fs) s = log.unwind fs (log.unwind es s) :=
  foldl_append

variable {es : List E}

theorem allReady_append {fs : List E} {s : S} :
    log.AllReady (es ++ fs) s ↔ log.AllReady es s ∧ log.AllReady fs (log.unwind es s) := by
  induction es generalizing s with
  | nil => simp [AllReady, unwind]
  | cons e es ih =>
    rw [cons_append, AllReady, AllReady, ih, and_assoc]
    rfl

theorem journal_unwind {rest : List E} {s : S} (hs : log.journal s = es ++ rest) :
    log.journal (log.unwind es s) = rest := by
  induction es generalizing s with
  | nil => exact hs
  | cons e es ih =>
    refine ih (s := log.undo e s) ?_
    rw [log.journal_undo, hs]
    rfl

/-- A relation between states that undoing respects: the first as good as the second. -/
structure Respects (R : S → S → Prop) : Prop where
  trans : ∀ {s t u}, R s t → R t u → R s u
  ready : ∀ {e t s}, R t s → log.Ready e s → log.Ready e t
  undo : ∀ {e t s}, R t s → log.Ready e s → R (log.undo e t) (log.undo e s)

variable {log} {R : S → S → Prop}

theorem Respects.unwind (h : log.Respects R) {t s : S} (hR : R t s) (hready : log.AllReady es s) :
    log.AllReady es t ∧ R (log.unwind es t) (log.unwind es s) := by
  induction es generalizing t s with
  | nil => exact ⟨trivial, hR⟩
  | cons e es ih =>
    obtain ⟨hall, hrel⟩ := ih (h.undo hR hready.1) hready.2
    exact ⟨⟨h.ready hR hready.1, hall⟩, hrel⟩

variable (log R)

/-- What `s'` has on its journal beyond that of `s` takes it back to `s`. -/
def TakesBack (s s' : S) : Prop :=
  ∃ es, log.journal s' = es ++ log.journal s ∧ log.AllReady es s' ∧ R (log.unwind es s') s

variable {log R}

theorem TakesBack.refl {s : S} (hs : R s s) : log.TakesBack R s s := ⟨[], rfl, trivial, hs⟩

theorem TakesBack.trans (h : log.Respects R) {s t u : S} (hst : log.TakesBack R s t)
    (htu : log.TakesBack R t u) : log.TakesBack R s u := by
  obtain ⟨es, hes, hready, hrel⟩ := hst
  obtain ⟨fs, hfs, hready', hrel'⟩ := htu
  obtain ⟨hall, hback⟩ := h.unwind hrel' hready
  refine ⟨fs ++ es, ?_, log.allReady_append.mpr ⟨hready', hall⟩, ?_⟩
  · rw [hfs, hes, append_assoc]
  · rw [log.unwind_append]
    exact h.trans hback hrel

/-- A change that leaves the journal alone. -/
theorem TakesBack.of_rel {s s' : S} (hjournal : log.journal s' = log.journal s) (hrel : R s' s) :
    log.TakesBack R s s' := ⟨[], hjournal, trivial, hrel⟩

/-- A change with one entry. -/
theorem TakesBack.of_entry {s s' : S} {e : E} (hjournal : log.journal s' = e :: log.journal s)
    (hready : log.Ready e s') (hrel : R (log.undo e s') s) : log.TakesBack R s s' :=
  ⟨[e], hjournal, ⟨hready, trivial⟩, hrel⟩

theorem TakesBack.length_le {s s' : S} (h : log.TakesBack R s s') :
    (log.journal s).length ≤ (log.journal s').length := by
  obtain ⟨es, hes, -⟩ := h
  rw [hes, length_append]
  exact Nat.le_add_left _ _

theorem TakesBack.mono {R' : S → S → Prop} (himp : ∀ t s, R t s → R' t s) {s s' : S}
    (h : log.TakesBack R s s') : log.TakesBack R' s s' := by
  obtain ⟨es, hes, hready, hrel⟩ := h
  exact ⟨es, hes, hready, himp _ _ hrel⟩

/-- Undoing the entries since `g` leaves a state that can still be taken back to
everything before `g`. -/
theorem TakesBack.unwind {g h s : S} (hs : log.journal s = es ++ log.journal g)
    (hle : (log.journal h).length ≤ (log.journal g).length) (hback : log.TakesBack R h s) :
    log.TakesBack R h (log.unwind es s) := by
  obtain ⟨gs, hgs, hready, hrel⟩ := hback
  obtain ⟨fs, hfs⟩ : log.journal h <:+ log.journal g :=
    suffix_of_suffix_length_le ⟨gs, hgs.symm⟩ ⟨es, hs.symm⟩ hle
  have hsplit : gs = es ++ fs := by
    have heq : gs ++ log.journal h = (es ++ fs) ++ log.journal h := by
      rw [← hgs, hs, ← hfs, append_assoc]
    exact append_cancel_right heq
  rw [hsplit, log.allReady_append] at hready
  rw [hsplit, log.unwind_append] at hrel
  exact ⟨fs, (log.journal_unwind hs).trans hfs.symm, hready.2, hrel⟩

/-! ### Revisions -/

variable (log)

/-- Revisions of a state, newest first, each with the length that the journal had.  Every
one stands for a state that `s` can be taken back to, up to the relation for its number. -/
structure Tracked (R : Nat → S → S → Prop) (Stands : Nat → S → Prop) (next : Nat)
    (revisions : List (Nat × Nat)) (s : S) : Prop where
  ordered : revisions.Pairwise fun newer older => older.1 < newer.1 ∧ older.2 ≤ newer.2
  earlier : ∀ rev ∈ revisions, rev.1 < next
  stands : ∀ rev ∈ revisions, ∃ g, Stands rev.1 g ∧ (log.journal g).length = rev.2 ∧
    log.TakesBack (R rev.1) g s

variable {log} {R : Nat → S → S → Prop} {Stands : Nat → S → Prop} {next : Nat}
  {revisions : List (Nat × Nat)} {s s' : S}

theorem Tracked.mono {R' : Nat → S → S → Prop} {Stands' : Nat → S → Prop}
    (h : log.Tracked R Stands next revisions s)
    (hR : ∀ id, id < next → ∀ t s, R id t s → R' id t s)
    (hStands : ∀ id, id < next → ∀ g, Stands id g → Stands' id g) :
    log.Tracked R' Stands' next revisions s :=
  { h with
    stands := fun rev hrev => by
      obtain ⟨g, hg, hlen, hback⟩ := h.stands rev hrev
      have hlt := h.earlier rev hrev
      exact ⟨g, hStands rev.1 hlt g hg, hlen, hback.mono (hR rev.1 hlt)⟩ }

/-- What can be taken back keeps the revisions. -/
theorem Tracked.step (hR : ∀ id, log.Respects (R id))
    (h : log.Tracked R Stands next revisions s) (hstep : ∀ id, log.TakesBack (R id) s s') :
    log.Tracked R Stands next revisions s' :=
  { h with
    stands := fun rev hrev => by
      obtain ⟨g, hg, hlen, hback⟩ := h.stands rev hrev
      exact ⟨g, hg, hlen, hback.trans (hR rev.1) (hstep rev.1)⟩ }

section

variable (h : log.Tracked R Stands next revisions s)

include h

/-- A new revision stands for the state itself. -/
theorem Tracked.snapshot (hs : Stands next s)
    (hrefl : R next s s) :
    log.Tracked R Stands (next + 1) ((next, (log.journal s).length) :: revisions) s where
  ordered := by
    refine List.Pairwise.cons (fun rev hrev => ⟨h.earlier rev hrev, ?_⟩) h.ordered
    obtain ⟨g, -, hlen, hback⟩ := h.stands rev hrev
    rw [← hlen]
    exact hback.length_le
  earlier := by
    refine forall_mem_cons.mpr ⟨Nat.lt_succ_self next, fun rev hrev => ?_⟩
    exact Nat.lt_succ_of_lt (h.earlier rev hrev)
  stands := forall_mem_cons.mpr ⟨⟨s, hs, rfl, .refl hrefl⟩, h.stands⟩

theorem Tracked.length_le {older newer : Nat × Nat}
    (hold : older ∈ revisions) (hnew : newer ∈ revisions) (hlt : older.1 < newer.1) :
    older.2 ≤ newer.2 := by
  have hpairs : revisions.Pairwise fun a b => a.1 < b.1 → a.2 ≤ b.2 :=
    h.ordered.imp fun hab hba => absurd hba (Nat.lt_asymm hab.1)
  have hflip : revisions.Pairwise (flip fun a b => a.1 < b.1 → a.2 ≤ b.2) :=
    h.ordered.imp fun hab _ => hab.2
  exact hpairs.forall_of_forall_of_flip (fun _ _ _ => Nat.le_refl _) hflip hold hnew hlt

/-- Undoing down to a revision gives back what it stands for, and keeps the older ones. -/
theorem Tracked.revert {rev : Nat × Nat}
    (hrev : rev ∈ revisions) :
    ∃ g es, Stands rev.1 g ∧ (log.journal g).length = rev.2 ∧
      log.journal s = es ++ log.journal g ∧ log.AllReady es s ∧ R rev.1 (log.unwind es s) g ∧
      log.Tracked R Stands next (revisions.filter fun older => older.1 < rev.1)
        (log.unwind es s) := by
  obtain ⟨g, hg, hlen, es, hes, hready, hrel⟩ := h.stands rev hrev
  refine ⟨g, es, hg, hlen, hes, hready, hrel, ?_⟩
  refine ⟨h.ordered.filter _, fun older hold => ?_, fun older hold => ?_⟩
  · exact h.earlier older (mem_filter.mp hold).1
  · obtain ⟨hold, hlt⟩ := mem_filter.mp hold
    obtain ⟨g', hg', hlen', hback'⟩ := h.stands older hold
    have hle : older.2 ≤ rev.2 := h.length_le hold hrev (by simpa using hlt)
    refine ⟨g', hg', hlen', hback'.unwind hes ?_⟩
    rwa [hlen', hlen]

end

end UndoLog

/-! ### Calls -/

namespace Act

variable {Q R S A B : Type}

/-- How a call from `s` may end: along `Step`, with `post` of its value and the state that
it leaves, and with a panic only if `mayPanic`. -/
def Lands (Step : S → S → Prop) (mayPanic : Prop) (post : A → S → Prop) (s : S) :
    Result A × S → Prop
  | (.ok a, s') => Step s s' ∧ post a s'
  | (.error _, s') => Step s s'
  | (.panic _, _) => mayPanic

/-- How a call ends from every state with `P`. -/
def Moves (Step : S → S → Prop) (mayPanic : Prop) (P : S → Prop) (x : Act Q R S A)
    (post : A → S → Prop) : Prop :=
  ∀ answer s, P s → Lands Step mayPanic post s (run answer x s)

variable {Step : S → S → Prop} {mayPanic : Prop} {P : S → Prop} {post : A → S → Prop}

theorem Lands.after (htrans : ∀ s t u, Step s t → Step t u → Step s u) {s t : S}
    {r : Result A × S} (hstep : Step s t) (h : Lands Step mayPanic post t r) :
    Lands Step mayPanic post s r := by
  match r, h with
  | (.error e, u), h => exact htrans _ _ _ hstep h
  | (.panic e, u), h => exact h
  | (.ok a, u), h => exact ⟨htrans _ _ _ hstep h.1, h.2⟩

theorem Lands.bind (htrans : ∀ s t u, Step s t → Step t u → Step s u) {answer : Q → R} {s : S}
    {x : Act Q R S A} {f : A → Act Q R S B} {post' : B → S → Prop}
    (hx : Lands Step mayPanic post s (run answer x s))
    (hf : ∀ a s', post a s' → Lands Step mayPanic post' s' (run answer (f a) s')) :
    Lands Step mayPanic post' s (run answer (x >>= f) s) := by
  rw [run_bind]
  match run answer x s, hx with
  | (.error e, s'), hx => exact hx
  | (.panic e, s'), hx => exact hx
  | (.ok a, s'), ⟨hstep, hpost⟩ => exact .after htrans hstep (hf a s' hpost)

theorem Lands.imp {post' : A → S → Prop} {s : S} {r : Result A × S}
    (h : Lands Step mayPanic post s r) (himp : ∀ a s, post a s → post' a s) :
    Lands Step mayPanic post' s r := by
  match r, h with
  | (.error e, s'), h => exact h
  | (.panic e, s'), h => exact h
  | (.ok a, s'), h => exact ⟨h.1, himp a s' h.2⟩

theorem Moves.bind (htrans : ∀ s t u, Step s t → Step t u → Step s u) {x : Act Q R S A}
    {f : A → Act Q R S B} {post' : B → S → Prop} (hx : Moves Step mayPanic P x post)
    (hf : ∀ a, Moves Step mayPanic (post a) (f a) post') :
    Moves Step mayPanic P (x >>= f) post' := fun answer s hs =>
  .bind htrans (hx answer s hs) fun a s' hpost => hf a answer s' hpost

end Act

end Erigon
