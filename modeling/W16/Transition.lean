import Mathlib.Data.List.Basic

/-!
# Runs of a partial step function

A concurrent component is given as a step function from a state and an action
to the next state, with `none` for a disabled action. An action names the
thread that moves, so a list of actions is a schedule and every interleaving
is one of them. A guard is a condition on the state before a step and the
action taken; the states reached under a guard are those of the runs whose
steps all meet it.
-/
namespace W16.Transition

variable {σ α : Type*}

/-- Execute a schedule. A disabled action disables the rest of the schedule. -/
def run (step : σ → α → Option σ) : σ → List α → Option σ
  | s, [] => some s
  | s, a :: tail => (step s a).bind fun t => run step t tail

/-- States reached from `s₀` by runs whose steps all meet the guard `p`. -/
inductive Reach (step : σ → α → Option σ) (p : σ → α → Prop) (s₀ : σ) : σ → Prop
  | refl : Reach step p s₀ s₀
  | tail {s t : σ} {a : α} : Reach step p s₀ s → p s a → step s a = some t → Reach step p s₀ t

/-- The guard that every step meets. -/
def unguarded : σ → α → Prop := fun _ _ => True

instance (s : σ) (a : α) : Decidable (unguarded s a) := isTrue trivial

/-- The step function with the actions outside the guard disabled. -/
def restrict (step : σ → α → Option σ) (p : σ → α → Prop) [∀ s a, Decidable (p s a)] : σ → α → Option σ :=
  fun s a => if p s a then step s a else none

variable {p : σ → α → Prop} {step : σ → α → Option σ}

/-- A predicate that holds at the start and is kept by every guarded step holds
in every state reached. -/
theorem Reach.invariant {s₀ s : σ} {I : σ → Prop} (h : Reach step p s₀ s) (hinit : I s₀)
    (hstep : ∀ s a t, I s → p s a → step s a = some t → I t) : I s := by
  induction h with
  | refl => exact hinit
  | tail _ hp ht ih => exact hstep _ _ _ ih hp ht

theorem Reach.head {s₀ s₁ s : σ} {a : α}
    (hp : p s₀ a) (ht : step s₀ a = some s₁) (h : Reach step p s₁ s) : Reach step p s₀ s := by
  induction h with
  | refl => exact .tail .refl hp ht
  | tail _ hq hu ih => exact .tail ih hq hu

/-- Executing a schedule under a decidable guard exhibits a guarded run. -/
theorem reach_of_run [∀ s a, Decidable (p s a)]
    (schedule : List α) {s₀ s : σ} (h : run (restrict step p) s₀ schedule = some s) :
    Reach step p s₀ s := by
  induction schedule generalizing s₀ with
  | nil =>
    cases h
    exact .refl
  | cons a tail ih =>
    simp only [run, restrict, Option.bind_eq_some_iff] at h
    obtain ⟨t, ht, hrest⟩ := h
    by_cases hp : p s₀ a
    · rw [if_pos hp] at ht
      exact .head hp ht (ih hrest)
    · rw [if_neg hp] at ht
      cases ht

/-- A schedule whose last state passes a test reaches such a state. -/
theorem exists_reach_of_run (step : σ → α → Option σ) (p : σ → α → Prop)
    [∀ s a, Decidable (p s a)] (s₀ : σ) (schedule : List α) (q : σ → Bool)
    (h : (run (restrict step p) s₀ schedule).any q = true) : ∃ s, Reach step p s₀ s ∧ q s = true := by
  cases hs : run (restrict step p) s₀ schedule with
  | none => simp [hs] at h
  | some s => exact ⟨s, reach_of_run schedule hs, by simpa [hs] using h⟩

end W16.Transition
