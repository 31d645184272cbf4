import Mathlib.Algebra.BigOperators.Group.Finset.Basic

/-!
# Sums over the threads

A step of one thread changes a sum of local quantities by what that thread
contributes.
-/
namespace W16.ThreadSum

open Finset

variable {τ ρ M : Type*} [Fintype τ] [DecidableEq τ]

/-- Only thread `a` moves: the old sum with its new part is the new sum with its
old part. -/
theorem sum_local [AddCommMonoid M] {g g' : τ → ρ} {a : τ} (f : ρ → M) (h : ∀ b, b ≠ a → g' b = g b) :
    (∑ b, f (g' b)) + f (g a) = (∑ b, f (g b)) + f (g' a) := by
  have hold := add_sum_erase univ (fun b => f (g b)) (mem_univ a)
  have hnew := add_sum_erase univ (fun b => f (g' b)) (mem_univ a)
  have hrest : ∑ b ∈ univ.erase a, f (g' b) = ∑ b ∈ univ.erase a, f (g b) := by
    simp_all [sum_congr]
  rw [← hold, ← hnew, hrest]
  ac_rfl

/-- A conservation law is kept by a step of `a` that keeps it locally. -/
theorem sum_balance [AddCancelCommMonoid M] {g g' : τ → ρ} {a : τ} (f : ρ → M) {p p' q q' : M}
    (h : ∀ b, b ≠ a → g' b = g b) (hlocal : p' + f (g' a) + q = p + f (g a) + q')
    (hold : p + ∑ b, f (g b) = q) : p' + ∑ b, f (g' b) = q' := by
  apply add_right_cancel (b := f (g a) + q)
  calc p' + (∑ b, f (g' b)) + (f (g a) + q) = p' + ((∑ b, f (g' b)) + f (g a)) + q := by ac_rfl
    _ = p' + ((∑ b, f (g b)) + f (g' a)) + q := by rw [sum_local f h]
    _ = (∑ b, f (g b)) + (p' + f (g' a) + q) := by ac_rfl
    _ = (p + ∑ b, f (g b)) + (f (g a) + q') := by rw [hlocal]; ac_rfl
    _ = q' + (f (g a) + q) := by rw [hold]; ac_rfl

end W16.ThreadSum
