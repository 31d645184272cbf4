import Mathlib.Logic.Function.Basic
import Mathlib.Data.List.Basic

/-!
# Logs of loads and stores

A log records the accesses of a program to a keyed store of records: every load
with the value it returned and every store with the value it wrote. Executing a
log on a store performs its writes; the store explains the log when each load
returns the recorded value along the way. A log looks only at its own keys, so
two stores that agree there explain the same logs.
-/
namespace W16.History

variable {κ φ ν : Type*}

abbrev Store (κ φ ν : Type*) := κ → φ → ν

inductive Access (κ φ ν : Type*) where
  | load (k : κ) (f : φ) (v : ν)
  | store (k : κ) (f : φ) (v : ν)
  deriving DecidableEq, Repr

def Access.key : Access κ φ ν → κ
  | .load k _ _ | .store k _ _ => k

variable [DecidableEq κ] [DecidableEq φ]

def write (h : Store κ φ ν) (k : κ) (f : φ) (v : ν) : Store κ φ ν :=
  Function.update h k (Function.update (h k) f v)

def Access.apply (h : Store κ φ ν) : Access κ φ ν → Store κ φ ν
  | .load _ _ _ => h
  | .store k f v => write h k f v

def Access.Holds (h : Store κ φ ν) : Access κ φ ν → Prop
  | .load k f v => h k f = v
  | .store _ _ _ => True

/-- The store after the writes of a log. -/
def execute (h : Store κ φ ν) (log : List (Access κ φ ν)) : Store κ φ ν :=
  log.foldl Access.apply h

/-- Every load of the log returns the recorded value when the log is executed. -/
def Explains (h : Store κ φ ν) : List (Access κ φ ν) → Prop
  | [] => True
  | x :: tail => x.Holds h ∧ Explains (x.apply h) tail

/-- Executing the logs one after another from `h₀` explains all of them and ends
in `h`. -/
def Serial (h₀ : Store κ φ ν) (logs : List (List (Access κ φ ν))) (h : Store κ φ ν) : Prop :=
  Explains h₀ logs.flatten ∧ execute h₀ logs.flatten = h

theorem execute_append (h : Store κ φ ν) (l m : List (Access κ φ ν)) :
    execute h (l ++ m) = execute (execute h l) m := List.foldl_append

theorem explains_append (h : Store κ φ ν) (l m : List (Access κ φ ν)) :
    Explains h (l ++ m) ↔ Explains h l ∧ Explains (execute h l) m := by
  induction l generalizing h with
  | nil => simp [Explains, execute]
  | cons x l ih => simp [Explains, execute, ih, and_assoc]

theorem serial_nil (h : Store κ φ ν) : Serial h [] h := ⟨trivial, rfl⟩

variable {h h' : Store κ φ ν} {log : List (Access κ φ ν)}

/-- One more log, explained by the store that the others left. -/
theorem Serial.snoc {h₀ : Store κ φ ν} {logs : List (List (Access κ φ ν))} (hs : Serial h₀ logs h) (hlog : Explains h log) : Serial h₀ (logs ++ [log]) (execute h log) := by
  simp_all [Serial, explains_append, execute_append]

theorem Access.apply_of_ne (h : Store κ φ ν) (x : Access κ φ ν) {k : κ} (hk : x.key ≠ k) :
    x.apply h k = h k := by
  cases x with
  | load => rfl
  | store k' f v => exact Function.update_of_ne (Ne.symm hk) _ _

theorem Access.apply_congr (x : Access κ φ ν) {k : κ} (hk : h k = h' k) : x.apply h k = x.apply h' k := by
  cases x with
  | load => exact hk
  | store k' f v =>
    by_cases he : k = k'
    · subst he
      simp [Access.apply, write, hk]
    · simpa [Access.apply, write, he] using hk

/-- A log changes only its own keys. -/
theorem execute_of_not_mem (h : Store κ φ ν) {k : κ} (hk : ∀ x ∈ log, x.key ≠ k) : execute h log k = h k := by
  induction log generalizing h with
  | nil => rfl
  | cons x log ih =>
    have hlog : execute (x.apply h) log k = x.apply h k := ih _ fun y hy => hk y (.tail x hy)
    exact hlog.trans (x.apply_of_ne h (hk x (.head log)))

theorem execute_congr (log : List (Access κ φ ν)) {k : κ} (hk : h k = h' k) :
    execute h log k = execute h' log k := by
  induction log generalizing h h' with
  | nil => exact hk
  | cons x log ih => exact ih (x.apply_congr hk)

/-- Stores that agree on the keys of a log explain it alike. -/
theorem Explains.congr (hlog : Explains h log) (hk : ∀ x ∈ log, h' x.key = h x.key) : Explains h' log := by
  induction log generalizing h h' with
  | nil => trivial
  | cons x log ih =>
    obtain ⟨hx, hrest⟩ := hlog
    refine ⟨?_, ih hrest fun y hy => x.apply_congr (hk y (.tail x hy))⟩
    have hkey := hk x (.head log)
    cases x with
    | load k f v => exact (congrFun hkey f).trans hx
    | store => trivial

end W16.History
