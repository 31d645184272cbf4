import Mathlib.Data.List.Basic

/-!
# Recursive mutexes

A mutex is free, or held by one thread with a number of further nested locks.
Locking succeeds for the holder and, on a free mutex, for everyone. Unlocking
undoes one lock of the holder and has no effect for any other thread.
-/
namespace W16.RecursiveMutex

variable {τ : Type*}

/-- `none` is free; `some (t, n)` is held by `t` with `n + 1` nested locks. -/
abbrev Mutex (τ : Type*) := Option (τ × Nat)

def Owned (m : Mutex τ) (t : τ) : Prop := ∃ n, m = some (t, n)

variable {m m' : Mutex τ} {t : τ} {f g : τ → Prop}

theorem Owned.unique {u : τ} (ht : Owned m t) (hu : Owned m u) : t = u := by
  obtain ⟨n, hn⟩ := ht
  obtain ⟨k, hk⟩ := hu
  rw [hn] at hk
  cases hk
  rfl

variable [DecidableEq τ]

def lock (t : τ) : Mutex τ → Option (Mutex τ)
  | none => some (some (t, 0))
  | some (u, n) => if u = t then some (some (u, n + 1)) else none

def unlock (t : τ) : Mutex τ → Mutex τ
  | none => none
  | some (u, 0) => if u = t then none else some (u, 0)
  | some (u, n + 1) => if u = t then some (u, n) else some (u, n + 1)

@[simp] theorem unlock_last (t : τ) : unlock t (some (t, 0)) = none := by simp [unlock]

@[simp] theorem unlock_other {u : τ} (n : Nat) (h : u ≠ t) : unlock t (some (u, n)) = some (u, n) := by
  cases n <;> simp [unlock, h]

/-- A successful lock leaves the mutex with the locking thread. -/
theorem lock_owned (h : lock t m = some m') : Owned m' t := by
  cases m with
  | none => cases h; exact ⟨0, rfl⟩
  | some p =>
    obtain ⟨u, n⟩ := p
    simp only [lock] at h
    split at h
    · rename_i hu
      cases h
      exact ⟨n + 1, by rw [hu]⟩
    · cases h

/-- Neither a lock nor an unlock by another thread takes a mutex from its holder. -/
theorem Owned.lock {u : τ} (hu : Owned m u) (h : lock t m = some m') : Owned m' u := by
  obtain ⟨n, rfl⟩ := hu
  simp only [RecursiveMutex.lock] at h
  split at h
  · cases h
    exact ⟨n + 1, rfl⟩
  · cases h

theorem Owned.unlock {u : τ} (hu : Owned m u) (hne : u ≠ t) : Owned (unlock t m) u := by
  obtain ⟨n, rfl⟩ := hu
  rw [unlock_other n hne]
  exact ⟨n, rfl⟩

/-- A thread that cannot lock finds the mutex with another thread. -/
theorem lock_blocked (h : lock t m = none) : ∃ u, u ≠ t ∧ Owned m u := by
  cases m with
  | none => cases h
  | some p =>
    obtain ⟨u, n⟩ := p
    simp only [lock] at h
    split at h
    · cases h
    · rename_i hu
      exact ⟨u, hu, n, rfl⟩

/-- The mutex is held, once, by the thread that satisfies `f`, and is free if
none does. -/
structure Tracks (m : Mutex τ) (f : τ → Prop) : Prop where
  held : ∀ t, f t → m = some (t, 0)
  holder : ∀ t n, m = some (t, n) → f t

omit [DecidableEq τ] in
theorem Tracks.congr (h : Tracks m f) (hg : ∀ t, g t ↔ f t) : Tracks m g :=
  ⟨fun t ht => h.held t ((hg t).mp ht), fun t n ht => (hg t).mpr (h.holder t n ht)⟩

omit [DecidableEq τ] in
theorem Tracks.unique (h : Tracks m f) {u : τ} (ht : f t) (hu : f u) : t = u := by
  have := (h.held t ht).symm.trans (h.held u hu)
  simpa using this

theorem Tracks.lock {a : τ} (h : Tracks m f) (ha : ¬ f a)
    (hl : lock a m = some m') (hga : g a) (hg : ∀ t, t ≠ a → (g t ↔ f t)) : Tracks m' g := by
  cases m with
  | none =>
    cases hl
    constructor
    · intro t ht
      by_cases he : t = a
      · rw [he]
      · cases h.held t ((hg t he).mp ht)
    · intro t n ht
      cases ht
      exact hga
  | some p =>
    obtain ⟨u, n⟩ := p
    simp only [RecursiveMutex.lock] at hl
    split at hl
    · rename_i hu
      exact (ha (hu ▸ h.holder u n rfl)).elim
    · cases hl

theorem Tracks.unlock {a : τ} (h : Tracks m f) (ha : f a)
    (hga : ¬ g a) (hg : ∀ t, t ≠ a → (g t ↔ f t)) : Tracks (unlock a m) g := by
  rw [h.held a ha, unlock_last]
  constructor
  · intro t ht
    have he : t ≠ a := fun he => hga (he ▸ ht)
    exact (he (h.unique ((hg t he).mp ht) ha)).elim
  · intro t n ht
    cases ht

/-- A step of `a` that leaves the mutex alone, locks it or unlocks it, and moves
`a` into or out of the tracked places accordingly. -/
theorem Tracks.step {a : τ} (h : Tracks m f) (hg : ∀ t, t ≠ a → (g t ↔ f t))
    (ha : (m' = m ∧ (g a ↔ f a)) ∨ (RecursiveMutex.lock a m = some m' ∧ ¬ f a ∧ g a) ∨
      (m' = RecursiveMutex.unlock a m ∧ f a ∧ ¬ g a)) : Tracks m' g := by
  rcases ha with ⟨rfl, hga⟩ | ⟨hl, hfa, hga⟩ | ⟨rfl, hfa, hga⟩
  · refine h.congr fun t => ?_
    grind
  · exact h.lock hfa hl hga hg
  · exact h.unlock hfa hga hg

/-- A thread waits only for the holder. -/
theorem Tracks.blocked {a : τ} (h : Tracks m f) (hl : RecursiveMutex.lock a m = none) : ∃ t, t ≠ a ∧ f t := by
  obtain ⟨t, hne, n, hn⟩ := lock_blocked hl
  exact ⟨t, hne, h.holder t n hn⟩

end W16.RecursiveMutex
