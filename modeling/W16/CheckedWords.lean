import Mathlib.Data.Nat.Bitwise
import W16.Contract

/-!
# Checked machine words

Operations on 64-bit words that stop where C++ leaves the result open or where it wraps around.
A shift to the left drops the bits that leave the word.
-/
namespace W16.CheckedWords

inductive Fault where
  | shift
  | wrap
  | assertion
  | digit
  | index
  | endless
  deriving DecidableEq, Repr

abbrev Checked := Except Fault

/-- Nothing is checked in vain: the computation has a result with the property. -/
def Safe {α : Type} (x : Checked α) (P : α → Prop) : Prop := Meets x P fun _ => False

def shiftAmount (amount : Int) : Checked Nat :=
  if 0 ≤ amount ∧ amount ≤ 63 then .ok amount.toNat else .error .shift

def shr (x : Nat) (amount : Int) : Checked Nat := do
  let s ← shiftAmount amount
  return x >>> s

def shl (x : Nat) (amount : Int) : Checked Nat := do
  let s ← shiftAmount amount
  return (x <<< s) % 2 ^ 64

def word (x : Nat) : Checked Nat := if x < 2 ^ 64 then .ok x else .error .wrap

def mul (x y : Nat) : Checked Nat := word (x * y)

def add (x y : Nat) : Checked Nat := word (x + y)

def sub (x y : Nat) : Checked Nat := if y ≤ x then .ok (x - y) else .error .wrap

def assert (p : Prop) [Decidable p] : Checked Unit := if p then .ok () else .error .assertion

namespace Safe

variable {α β : Type} {x : Checked α} {f : α → Checked β} {P P' : α → Prop} {Q : β → Prop}

theorem ok {a : α} (h : P a) : Safe (.ok a) P := h

theorem bind (hx : Safe x P) (hf : ∀ a, P a → Safe (f a) Q) : Safe (x >>= f) Q :=
  Meets.bind hx (fun _ => id) hf

theorem mono (hx : Safe x P) (hP : ∀ a, P a → P' a) : Safe x P' := Meets.mono hx hP fun _ => id

theorem exists_ok (hx : Safe x P) : ∃ a, x = .ok a ∧ P a := Meets.exists_ok hx fun _ => id

/-- A computation goes on with a result that is known. -/
theorem step {a : α} (hx : x = .ok a) (hf : Safe (f a) Q) : Safe (x >>= f) Q := by
  subst hx
  exact hf

end Safe

variable {x y s : Nat}

theorem shiftAmount_eq (h : s ≤ 63) : shiftAmount s = .ok s := if_pos (by omega)

theorem shr_eq (h : s ≤ 63) : shr x s = .ok (x / 2 ^ s) := by
  rw [shr, shiftAmount_eq h, ← Nat.shiftRight_eq_div_pow]
  rfl

theorem shl_eq (h : s ≤ 63) : shl x s = .ok (x * 2 ^ s % 2 ^ 64) := by
  rw [shl, shiftAmount_eq h, ← Nat.shiftLeft_eq]
  rfl

/-- No bit leaves the word. -/
theorem shl_eq_mul (h : s ≤ 63) (hlt : x * 2 ^ s < 2 ^ 64) : shl x s = .ok (x * 2 ^ s) := by
  rw [shl_eq h, Nat.mod_eq_of_lt hlt]

theorem mul_eq (h : x * y < 2 ^ 64) : mul x y = .ok (x * y) := if_pos h

theorem add_eq (h : x + y < 2 ^ 64) : add x y = .ok (x + y) := if_pos h

theorem sub_eq (h : y ≤ x) : sub x y = .ok (x - y) := if_pos h

theorem assert_eq {p : Prop} [Decidable p] (hp : p) : assert p = .ok () := if_pos hp

end W16.CheckedWords
