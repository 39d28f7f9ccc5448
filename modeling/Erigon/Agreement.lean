/-
Two runs side by side: calls that end alike, with related values, from related
states.
-/
import Erigon.Query

namespace Erigon

/-- Ends of calls that differ in the value at most. -/
inductive Result.Rel {A B : Type} (V : A → B → Prop) : Result A → Result B → Prop
  | ok {a : A} {b : B} (h : V a b) : Rel V (.ok a) (.ok b)
  | error (e : String) : Rel V (.error e) (.error e)
  | panic (e : String) : Rel V (.panic e) (.panic e)

theorem Result.Rel.eq {A : Type} {x y : Result A} (h : Result.Rel Eq x y) : x = y := by
  cases h with
  | ok h => rw [h]
  | error e => rfl
  | panic e => rfl

namespace Act

variable {Q R S A A' B B' : Type} (Near : S → S → Prop)

/-- The calls `x` from `t` and `y` from `s` end alike, in related states. -/
def Agree (V : A → A' → Prop) (answer : Q → R) (x : Act Q R S A) (t : S)
    (y : Act Q R S A') (s : S) : Prop :=
  Result.Rel V (run answer x t).1 (run answer y s).1 ∧ Near (run answer x t).2 (run answer y s).2

/-- A call that cannot tell related states apart. -/
def Blind (answer : Q → R) (x : Act Q R S A) : Prop :=
  ∀ t s, Near t s → Agree Near Eq answer x t x s

namespace Agree

variable {Near : S → S → Prop} {V : A → A' → Prop} {W : B → B' → Prop} {answer : Q → R} {t s : S}

theorem pure (hnear : Near t s) {a : A} {a' : A'} (h : V a a') :
    Agree Near V answer (pure a : Act Q R S A) t (pure a' : Act Q R S A') s :=
  ⟨.ok h, hnear⟩

theorem throw (hnear : Near t s) (e : String) : Agree Near V answer (throw e) t (throw e) s :=
  ⟨.error e, hnear⟩

theorem crash (hnear : Near t s) (e : String) : Agree Near V answer (crash e) t (crash e) s :=
  ⟨.panic e, hnear⟩

theorem modify {f g : S → S} (h : Near (f t) (g s)) :
    Agree Near Eq answer (modify f) t (modify g) s :=
  ⟨.ok rfl, h⟩

variable {x y : Act Q R S A}

theorem bind {y : Act Q R S A'} {f : A → Act Q R S B} {g : A' → Act Q R S B'}
    (h : Agree Near V answer x t y s)
    (hnext : ∀ a a' t s, V a a' → Near t s → Agree Near W answer (f a) t (g a') s) :
    Agree Near W answer (x >>= f) t (y >>= g) s := by
  unfold Agree at h ⊢
  rw [run_bind, run_bind]
  match run answer x t, run answer y s, h with
  | (.ok a, t'), (.ok a', s'), ⟨.ok hvalue, hnear⟩ => exact hnext a a' t' s' hvalue hnear
  | (.error e, t'), (.error _, s'), ⟨.error _, hnear⟩ => exact ⟨.error e, hnear⟩
  | (.panic e, t'), (.panic _, s'), ⟨.panic _, hnear⟩ => exact ⟨.panic e, hnear⟩

/-- The same call on both sides, and a value that is the same. -/
theorem bind_eq {f : A → Act Q R S B} {g : A → Act Q R S B'} (h : Agree Near Eq answer x t y s)
    (hnext : ∀ a t s, Near t s → Agree Near W answer (f a) t (g a) s) :
    Agree Near W answer (x >>= f) t (y >>= g) s := by
  refine h.bind fun a a' t s heq hnear => ?_
  subst heq
  exact hnext a t s hnear

theorem map {y : Act Q R S A'} {f : A → B} {g : A' → B'} (h : Agree Near V answer x t y s)
    (hfg : ∀ a a', V a a' → W (f a) (g a')) :
    Agree Near W answer (f <$> x) t (g <$> y) s :=
  h.bind fun a a' _ _ hvalue hnear => .pure hnear (hfg a a' hvalue)

theorem get {f : S → Act Q R S B} {g : S → Act Q R S B'}
    (h : Agree Near W answer (f t) t (g s) s) :
    Agree Near W answer (get >>= f) t (get >>= g) s := h

theorem ask {q : Q} {f : R → Act Q R S B} {g : R → Act Q R S B'}
    (h : Agree Near W answer (f (answer q)) t (g (answer q)) s) :
    Agree Near W answer (ask q >>= f) t (ask q >>= g) s := h

theorem attempt (h : Agree Near Eq answer x t y s) :
    Agree Near Eq answer (attempt x) t (attempt y) s := by
  unfold Agree at h ⊢
  rw [run_attempt, run_attempt]
  match run answer x t, run answer y s, h with
  | (.ok a, t'), (.ok a', s'), ⟨.ok hvalue, hnear⟩ => exact ⟨.ok (congrArg _ hvalue), hnear⟩
  | (.error e, t'), (.error _, s'), ⟨.error _, hnear⟩ => exact ⟨.ok rfl, hnear⟩
  | (.panic e, t'), (.panic _, s'), ⟨.panic _, hnear⟩ => exact ⟨.panic e, hnear⟩

theorem orElse (h : Agree Near Eq answer x t y s) (a : A) :
    Agree Near Eq answer (orElse x a) t (orElse y a) s := by
  refine h.attempt.bind_eq fun r t s hnear => ?_
  cases r with
  | ok v => exact .pure hnear rfl
  | error e => exact .pure hnear rfl

end Agree

namespace Blind

variable {Near : S → S → Prop} {answer : Q → R}

theorem pure (a : A) : Blind Near answer (Pure.pure a : Act Q R S A) := fun _ _ h => .pure h rfl

theorem throw (e : String) : Blind Near answer (Act.throw e : Act Q R S A) :=
  fun _ _ h => .throw h e

theorem crash (e : String) : Blind Near answer (Act.crash e : Act Q R S A) :=
  fun _ _ h => .crash h e

theorem modify {f : S → S} (hf : ∀ {t s}, Near t s → Near (f t) (f s)) :
    Blind Near answer (Act.modify f) := fun _ _ h => .modify (hf h)

variable {x : Act Q R S A}

section

variable (hx : Blind Near answer x)

include hx

theorem bind {f : A → Act Q R S B} (hf : ∀ a, Blind Near answer (f a)) :
    Blind Near answer (x >>= f) :=
  fun _ _ h => (hx _ _ h).bind_eq fun a _ _ h => hf a _ _ h

theorem map (f : A → B) : Blind Near answer (f <$> x) :=
  fun _ _ h => (hx _ _ h).map fun _ _ heq => congrArg f heq

theorem attempt : Blind Near answer (attempt x) :=
  fun _ _ h => (hx _ _ h).attempt

theorem orElse (a : A) : Blind Near answer (orElse x a) :=
  fun _ _ h => (hx _ _ h).orElse a

end

end Blind

end Act

end Erigon
