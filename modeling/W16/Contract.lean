import Mathlib.Logic.Basic

/-!
# Contracts of computations that can fail

A computation in `Except` meets a contract when its result satisfies the postcondition
and any fault it raises satisfies the fault condition.
-/
namespace W16

variable {ε α β : Type} {x : Except ε α} {f : α → Except ε β}
variable {P P' : α → Prop} {Q : β → Prop} {E E' : ε → Prop}

def Meets (x : Except ε α) (P : α → Prop) (E : ε → Prop) : Prop :=
  match x with
  | .ok a => P a
  | .error e => E e

namespace Meets

theorem ok {a : α} (h : P a) : Meets (.ok a) P E := h

theorem pure {a : α} (h : P a) : Meets (Pure.pure a) P E := h

theorem bind (hx : Meets x P E') (hE : ∀ e, E' e → E e) (hf : ∀ a, P a → Meets (f a) Q E) :
    Meets (x >>= f) Q E := by
  cases x with
  | ok a => exact hf a hx
  | error e => exact hE e hx

theorem mono (hx : Meets x P E) (hP : ∀ a, P a → P' a) (hE : ∀ e, E e → E' e) : Meets x P' E' := by
  cases x with
  | ok a => exact hP a hx
  | error e => exact hE e hx

theorem of_ok {a : α} (hx : Meets x P E) (h : x = .ok a) : P a := by
  subst h
  exact hx

/-- Without the possibility of a fault there is a result. -/
theorem exists_ok (hx : Meets x P E) (h : ∀ e, ¬ E e) : ∃ a, x = .ok a ∧ P a := by
  cases x with
  | ok a => exact ⟨a, rfl, hx⟩
  | error e => exact absurd hx (h e)

end Meets

end W16
