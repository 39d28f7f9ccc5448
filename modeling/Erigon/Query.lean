/-
Programs over a state that consult an oracle.  A run follows the answers; what it
asked on the way is all that it depends on.
-/
import Mathlib.Data.List.Basic

namespace Erigon

universe u

/-- A computation that asks questions and goes on with the answers. -/
inductive Query (Q R : Type) (A : Type u) : Type u
  | pure (a : A)
  | ask (q : Q) (next : R → Query Q R A)

namespace Query

variable {Q R : Type} {A B : Type u}

def bind : Query Q R A → (A → Query Q R B) → Query Q R B
  | .pure a, f => f a
  | .ask q next, f => .ask q fun r => (next r).bind f

def run (answer : Q → R) : Query Q R A → A
  | .pure a => a
  | .ask q next => (next (answer q)).run answer

/-- The questions of a run, in order. -/
def asked (answer : Q → R) : Query Q R A → List Q
  | .pure _ => []
  | .ask q next => q :: (next (answer q)).asked answer

theorem run_bind (answer : Q → R) (x : Query Q R A) (f : A → Query Q R B) :
    (x.bind f).run answer = (f (x.run answer)).run answer := by
  induction x with
  | pure a => rfl
  | ask q next ih => exact ih (answer q)

/-- Answers that agree on the questions of a run give the same run. -/
theorem run_congr {answer answer' : Q → R} (x : Query Q R A)
    (hagree : ∀ q ∈ x.asked answer, answer' q = answer q) :
    x.run answer' = x.run answer ∧ x.asked answer' = x.asked answer := by
  induction x with
  | pure a => exact ⟨rfl, rfl⟩
  | ask q next ih =>
    rw [asked, List.forall_mem_cons] at hagree
    obtain ⟨hrun, hasked⟩ := ih (answer q) hagree.2
    rw [run, run, asked, asked, hagree.1]
    exact ⟨hrun, congrArg (q :: ·) hasked⟩

end Query

/-- How a call ends: with a value, with an error, or not at all. -/
inductive Result (A : Type u)
  | ok (a : A)
  | error (e : String)
  | panic (e : String)
deriving DecidableEq

def Result.ofExcept {A : Type u} : Except String A → Result A
  | .ok a => .ok a
  | .error e => .error e

def Result.map {A B : Type u} (f : A → B) : Result A → Result B
  | .ok a => .ok (f a)
  | .error e => .error e
  | .panic e => .panic e

def Result.bind {A B : Type u} : Result A → (A → Result B) → Result B
  | .ok a, f => f a
  | .error e, _ => .error e
  | .panic e, _ => .panic e

instance : Monad Result where
  pure := .ok
  bind := .bind

@[simp] theorem Result.ok_bind {A B : Type u} (a : A) (f : A → Result B) :
    (Result.ok a >>= f) = f a := rfl

/-- What a call that ends well has gone through. -/
theorem Result.bind_eq_ok {A B : Type u} {x : Result A} {f : A → Result B} {b : B} :
    (x >>= f) = .ok b ↔ ∃ a, x = .ok a ∧ f a = .ok b := by
  constructor
  · intro hbind
    cases x with
    | ok a => exact ⟨a, rfl, hbind⟩
    | error e => cases hbind
    | panic e => cases hbind
  · rintro ⟨a, rfl, hf⟩
    exact hf

/-- A call: it may change the state `S`, however it ends. -/
def Act (Q R : Type) (S A : Type u) : Type u := S → Query Q R (Result A × S)

namespace Act

variable {Q R : Type} {S A B : Type u}

def done (a : A) : Act Q R S A := fun s => .pure (.ok a, s)

def andThen (x : Act Q R S A) (f : A → Act Q R S B) : Act Q R S B := fun s =>
  (x s).bind fun r =>
    match r with
    | (.ok a, s') => f a s'
    | (.error e, s') => .pure (.error e, s')
    | (.panic e, s') => .pure (.panic e, s')

instance : Monad (Act Q R S) where
  pure := done
  bind := andThen

def get : Act Q R S S := fun s => .pure (.ok s, s)

def modify (f : S → S) : Act Q R S PUnit := fun s => .pure (.ok ⟨⟩, f s)

def throw (e : String) : Act Q R S A := fun s => .pure (.error e, s)

def crash (e : String) : Act Q R S A := fun s => .pure (.panic e, s)

def ask {S : Type} (q : Q) : Act Q R S R := fun s => .ask q fun r => .pure (.ok r, s)

/-- A call with its error as a value. -/
def attempt {S A : Type} (x : Act Q R S A) : Act Q R S (Except String A) := fun s =>
  (x s).bind fun r =>
    match r with
    | (.ok a, s') => .pure (.ok (.ok a), s')
    | (.error e, s') => .pure (.ok (.error e), s')
    | (.panic e, s') => .pure (.panic e, s')

/-- The value of a call, or what to take when it ends with an error. -/
def orElse {S A : Type} (x : Act Q R S A) (a : A) : Act Q R S A := do
  match ← attempt x with
  | .ok v => pure v
  | .error _ => pure a

/-- The end of a call and the state that it leaves. -/
def run (answer : Q → R) (x : Act Q R S A) (s : S) : Result A × S := (x s).run answer

/-- The questions of a call. -/
def asked (answer : Q → R) (x : Act Q R S A) (s : S) : List Q := (x s).asked answer

section Run

variable (answer : Q → R) (s : S)

@[simp] theorem run_pure (a : A) : run answer (pure a : Act Q R S A) s = (.ok a, s) := rfl

@[simp] theorem run_get : run answer (get : Act Q R S S) s = (.ok s, s) := rfl

@[simp] theorem run_modify (f : S → S) : run answer (modify f : Act Q R S PUnit) s = (.ok ⟨⟩, f s) :=
  rfl

@[simp] theorem run_crash (e : String) : run answer (crash e : Act Q R S A) s = (.panic e, s) := rfl

@[simp] theorem run_ask {S : Type} (s : S) (q : Q) :
    run answer (ask q : Act Q R S R) s = (.ok (answer q), s) := rfl

theorem run_bind (x : Act Q R S A) (f : A → Act Q R S B) :
    run answer (x >>= f) s =
      match run answer x s with
      | (.ok a, s') => run answer (f a) s'
      | (.error e, s') => (.error e, s')
      | (.panic e, s') => (.panic e, s') := by
  rw [show (x >>= f : Act Q R S B) = andThen x f from rfl, run, andThen, Query.run_bind, run]
  split <;> simp_all [run, Query.run]

theorem run_bind_ok {x : Act Q R S A} {a : A} {s s' : S} (hx : run answer x s = (.ok a, s'))
    (f : A → Act Q R S B) : run answer (x >>= f) s = run answer (f a) s' := by
  rw [run_bind, hx]

theorem run_get_bind (f : S → Act Q R S B) : run answer (get >>= f) s = run answer (f s) s :=
  run_bind_ok answer (run_get answer s) f

theorem run_modify_bind (f : S → S) (g : PUnit → Act Q R S B) :
    run answer (modify f >>= g) s = run answer (g ⟨⟩) (f s) :=
  run_bind_ok answer (run_modify answer s f) g

theorem run_map (f : A → B) (x : Act Q R S A) :
    run answer (f <$> x) s = ((run answer x s).1.map f, (run answer x s).2) := by
  rw [show (f <$> x : Act Q R S B) = x >>= fun a => pure (f a) from rfl, run_bind]
  rcases run answer x s with ⟨r, s'⟩
  cases r <;> rfl

theorem run_attempt {S A : Type} (s : S) (x : Act Q R S A) :
    run answer (attempt x) s =
      match run answer x s with
      | (.ok a, s') => (.ok (.ok a), s')
      | (.error e, s') => (.ok (.error e), s')
      | (.panic e, s') => (.panic e, s') := by
  rw [run, attempt, Query.run_bind, run]
  split <;> simp_all [Query.run]

theorem run_orElse {S A : Type} (s : S) (x : Act Q R S A) (a : A) :
    run answer (orElse x a) s =
      match run answer x s with
      | (.ok v, s') => (.ok v, s')
      | (.error _, s') => (.ok a, s')
      | (.panic e, s') => (.panic e, s') := by
  rw [orElse, run_bind, run_attempt]
  rcases run answer x s with ⟨r, s'⟩
  cases r <;> rfl

end Run

/-- Answers that agree on the questions of a call give the same call. -/
theorem run_congr {answer answer' : Q → R} {x : Act Q R S A} {s : S}
    (hagree : ∀ q ∈ asked answer x s, answer' q = answer q) :
    run answer' x s = run answer x s ∧ asked answer' x s = asked answer x s :=
  Query.run_congr (x s) hagree

end Act

end Erigon
