import Mathlib.Logic.Basic
import Mathlib.Tactic.SplitIfs

/-!
# Positions on a circle

The positions below `n`, where the first one follows the last. `dist n a b` is the number
of steps from `a` to `b`; the positions from `a` up to `b` are those nearer to `a` than `b`.
-/
namespace W16.Circle

def next (n a : Nat) : Nat := if a + 1 = n then 0 else a + 1

def dist (n a b : Nat) : Nat := if a ≤ b then b - a else b + n - a

variable {n a b c : Nat}

theorem next_lt (ha : a < n) : next n a < n := by
  unfold next
  split <;> omega

theorem dist_lt (ha : a < n) (hb : b < n) : dist n a b < n := by
  unfold dist
  split <;> omega

@[simp] theorem dist_self (n a : Nat) : dist n a a = 0 := by simp [dist]

theorem dist_eq_zero (ha : a < n) : dist n a b = 0 ↔ a = b := by
  unfold dist
  split <;> omega

theorem dist_injective (ha : a < n) (hb : b < n) (hc : c < n) (h : dist n a b = dist n a c) : b = c := by
  unfold dist at h
  split at h <;> split at h <;> omega

/-- One step further on. -/
theorem dist_next (ha : a < n) (hne : next n b ≠ a) : dist n a (next n b) = dist n a b + 1 := by
  grind [next, dist]

/-- One step nearer. -/
theorem dist_next_left (ha : a < n) (hb : b < n) (hne : a ≠ b) : dist n (next n a) b + 1 = dist n a b := by
  unfold dist next
  split_ifs <;> omega

/-- From `a` over `b` and `c` to `d`. -/
theorem dist_lt_of_between {d : Nat} (ha : a < n) (hb : b < n) (hc : c < n) (hd : d < n)
    (habd : dist n a b < dist n a d) (hbcd : dist n b c < dist n b d) : dist n a c < dist n a d := by
  unfold dist at *
  split_ifs at * <;> omega

/-- Among the positions with a property one is the nearest. -/
theorem exists_nearest (a : Nat) {P : Nat → Prop} (h : ∃ b < n, P b) :
    ∃ b < n, P b ∧ ∀ c < n, dist n a c < dist n a b → ¬P c := by
  obtain ⟨b, hb, hP⟩ := h
  induction hd : dist n a b using Nat.strongRecOn generalizing b with
  | ind d ih =>
    grind

end W16.Circle
