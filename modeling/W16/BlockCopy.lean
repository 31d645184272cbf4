import Mathlib.Logic.Function.Basic
import Mathlib.Data.List.Basic

/-!
# Copying blocks of words

A memory is a function from word addresses to words. Copying a block word by word to
a disjoint place, and a sequence of such copies whose blocks do not disturb each
other, have the effect of reading every source before anything is written.
-/
namespace W16.BlockCopy

variable {ω : Type*}

abbrev Memory (ω : Type*) := Nat → ω

def copyWords (mem : Memory ω) (dst src : Nat) : Nat → Memory ω
  | 0 => mem
  | n + 1 => Function.update (copyWords mem dst src n) (dst + n) (copyWords mem dst src n (src + n))

/-- The blocks of `n` words at `a` and of `k` words at `b` have no word in common. -/
def Apart (a n b k : Nat) : Prop := a + n ≤ b ∨ b + k ≤ a

/-- Copying writes nothing outside the destination. -/
theorem copyWords_frame (mem : Memory ω) (dst src n : Nat) {a : Nat} (ha : a < dst ∨ dst + n ≤ a) :
    copyWords mem dst src n a = mem a := by
  induction n with
  | zero => rfl
  | succ n ih =>
    have hne : a ≠ dst + n := by omega
    rw [copyWords, Function.update_of_ne hne]
    exact ih (by omega)

theorem copyWords_block (mem : Memory ω) {dst src n : Nat} (h : Apart dst n src n) {i : Nat}
    (hi : i < n) : copyWords mem dst src n (dst + i) = mem (src + i) := by
  induction n with
  | zero => exact absurd hi (Nat.not_lt_zero i)
  | succ n ih =>
    unfold Apart at h ih
    by_cases he : i = n
    · subst he
      rw [copyWords, Function.update_self]
      exact copyWords_frame mem dst src i (by omega)
    · have hne : dst + i ≠ dst + n := by omega
      rw [copyWords, Function.update_of_ne hne]
      exact ih (by omega) (by omega)

/-- The copy of `n` words from `src` to `dst`. -/
structure Copy where
  dst : Nat
  src : Nat
  size : Nat
  deriving DecidableEq, Repr

/-- Perform the copies in order. -/
def copyAll (mem : Memory ω) (copies : List Copy) : Memory ω :=
  copies.foldl (fun mem c => copyWords mem c.dst c.src c.size) mem

/-- No copy writes where a later one writes or reads, nor over its own source. -/
structure Undisturbed (copies : List Copy) : Prop where
  self : ∀ c ∈ copies, Apart c.dst c.size c.src c.size
  later : copies.Pairwise fun c d => Apart c.dst c.size d.dst d.size ∧ Apart c.dst c.size d.src d.size

theorem Undisturbed.tail {c : Copy} {copies : List Copy} (h : Undisturbed (c :: copies)) : Undisturbed copies :=
  ⟨fun d hd => h.self d (.tail c hd), (List.pairwise_cons.mp h.later).2⟩

/-- A word that no copy writes is kept. -/
theorem copyAll_frame (mem : Memory ω) (copies : List Copy) {a : Nat}
    (ha : ∀ c ∈ copies, a < c.dst ∨ c.dst + c.size ≤ a) : copyAll mem copies a = mem a := by
  induction copies generalizing mem with
  | nil => rfl
  | cons c copies ih =>
    simp_all [copyAll, copyWords_frame]

/-- Undisturbed copies leave in every destination what its source had at the start. -/
theorem copyAll_block (mem : Memory ω) {copies : List Copy} (h : Undisturbed copies) {c : Copy}
    (hc : c ∈ copies) {i : Nat} (hi : i < c.size) :
    copyAll mem copies (c.dst + i) = mem (c.src + i) := by
  induction copies generalizing mem with
  | nil => cases hc
  | cons d copies ih =>
    have hlater := (List.pairwise_cons.mp h.later).1
    rcases List.mem_cons.mp hc with rfl | hc
    · -- The head has written its destination, and the others leave it alone.
      have hframe : copyAll (copyWords mem c.dst c.src c.size) copies (c.dst + i) =
          copyWords mem c.dst c.src c.size (c.dst + i) := by
        grind [copyAll_frame, Apart]
      exact hframe.trans (copyWords_block mem (h.self c (.head copies)) hi)
    · have hrest : copyAll (copyWords mem d.dst d.src d.size) copies (c.dst + i) =
          copyWords mem d.dst d.src d.size (c.src + i) := ih _ h.tail hc
      refine hrest.trans (copyWords_frame mem _ _ _ ?_)
      grind [Apart]

end W16.BlockCopy
