import Mathlib.Logic.Basic

/-!
# Outcomes of computations that may fail

Where a computation returns, its result has a property, and where it fails, the error is one of
those that are allowed. Two computations agree where the first does not fail with a given error.
-/
namespace W16.Outcomes

variable {ε α β : Type} {allowed : ε → Prop} {x : Except ε α} {P Q : α → Prop}

def Outcome (allowed : ε → Prop) (P : α → Prop) : Except ε α → Prop
  | .ok a => P a
  | .error e => allowed e

theorem Outcome.mono (h : Outcome allowed P x) (hPQ : ∀ a, P a → Q a) : Outcome allowed Q x := by
  cases x with
  | ok a => exact hPQ a h
  | error e => exact h

theorem Outcome.bind {R : β → Prop} {f : α → Except ε β} (h : Outcome allowed P x)
    (hf : ∀ a, P a → Outcome allowed R (f a)) : Outcome allowed R (x >>= f) := by
  cases x with
  | ok a => exact hf a h
  | error e => exact h

/-- A loop over a list keeps an invariant of the elements that are left. -/
theorem Outcome.foldlM {σ : Type} {I : List α → σ → Prop} {f : σ → α → Except ε σ}
    (hf : ∀ a rest s, I (a :: rest) s → Outcome allowed (I rest) (f s a)) (l : List α) {s : σ}
    (h : I l s) : Outcome allowed (I []) (l.foldlM f s) := by
  induction l generalizing s with
  | nil => exact h
  | cons a l ih =>
    exact (hf a l s h).bind fun t ht => ih ht

/-- The second computation does the same, unless the first one fails with the error. -/
def Agrees (e : ε) (x y : Except ε α) : Prop := x = .error e ∨ y = x

theorem Agrees.refl {e : ε} (x : Except ε α) : Agrees e x x := .inr rfl

theorem Agrees.bind {e : ε} {y : Except ε α} {f g : α → Except ε β} (h : Agrees e x y)
    (hf : ∀ a, Agrees e (f a) (g a)) : Agrees e (x >>= f) (y >>= g) := by
  rcases h with rfl | rfl
  · exact .inl rfl
  · cases y with
    | ok a => exact hf a
    | error e' => exact .inr rfl

theorem Agrees.ite {e : ε} {c : Prop} [Decidable c] {x' y y' : Except ε α} (h : Agrees e x y)
    (h' : Agrees e x' y') : Agrees e (if c then x else x') (if c then y else y') := by
  split
  · exact h
  · exact h'

theorem Agrees.foldlM {e : ε} {σ : Type} {f g : σ → α → Except ε σ}
    (hf : ∀ s a, Agrees e (f s a) (g s a)) (l : List α) (s : σ) :
    Agrees e (l.foldlM f s) (l.foldlM g s) := by
  induction l generalizing s with
  | nil => exact .refl _
  | cons a l ih =>
    exact (hf s a).bind ih

theorem Outcome.of_ok {a : α} (h : Outcome allowed P x) (hx : x = .ok a) : P a := by
  rw [hx] at h
  exact h

end W16.Outcomes
