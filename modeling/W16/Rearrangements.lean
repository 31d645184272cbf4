import Mathlib.Logic.Equiv.Basic
import Mathlib.Data.List.Perm.Basic
import Mathlib.Data.List.Nodup
import Mathlib.Order.Interval.Set.Basic

/-!
# Rearrangements in a window

A function is a rearrangement of another one in a window when it is the other one after a
permutation of the indices that moves only those in the window.
-/
namespace W16.Rearrangements

variable {ι α : Type} {w w' : Set ι} {a b c : ι → α} {i j : ι}

def Rearranged (w : Set ι) (a b : ι → α) : Prop :=
  ∃ π : Equiv.Perm ι, (∀ i, i ∉ w → π i = i) ∧ b = a ∘ π

namespace Rearranged

theorem refl (w : Set ι) (a : ι → α) : Rearranged w a a := ⟨Equiv.refl ι, by simp, rfl⟩

theorem trans (hab : Rearranged w a b) (hbc : Rearranged w b c) : Rearranged w a c := by
  obtain ⟨π, hπ, rfl⟩ := hab
  obtain ⟨ρ, hρ, rfl⟩ := hbc
  refine ⟨ρ.trans π, fun i hi => ?_, rfl⟩
  simp [hρ i hi, hπ i hi]

theorem mono (h : Rearranged w a b) (hw : w ⊆ w') : Rearranged w' a b := by
  obtain ⟨π, hπ, rfl⟩ := h
  exact ⟨π, fun i hi => hπ i fun h => hi (hw h), rfl⟩

theorem outside (h : Rearranged w a b) (hi : i ∉ w) : b i = a i := by
  obtain ⟨π, hπ, rfl⟩ := h
  simp [hπ i hi]

theorem forall_mem {P : α → Prop} (h : Rearranged w a b) (ha : ∀ i ∈ w, P (a i)) : ∀ i ∈ w, P (b i) := by
  obtain ⟨π, hπ, rfl⟩ := h
  intro i hi
  apply ha
  by_contra hout
  have hfix : π i = i := π.injective (hπ _ hout)
  apply hout
  rw [hfix]
  exact hi

/-- The values in the window are the same, as often as before. -/
theorem perm (h : Rearranged w a b) {l : List ι} (hl : l.Nodup) (hw : ∀ i, i ∈ l ↔ i ∈ w) :
    (l.map b).Perm (l.map a) := by
  obtain ⟨π, hπ, rfl⟩ := h
  have himage : (l.map π).Perm l := by
    rw [List.perm_ext_iff_of_nodup (hl.map π.injective) hl]
    intro i
    rw [List.mem_map]
    constructor
    · rintro ⟨j, hj, rfl⟩
      by_contra hout
      have hfix := π.injective (hπ _ fun h => hout ((hw _).2 h))
      exact hout (hfix.symm ▸ hj)
    · intro hi
      refine ⟨π.symm i, ?_, by simp⟩
      grind
  rw [← List.map_map]
  exact himage.map a

variable [DecidableEq ι]

theorem swap (a : ι → α) (hi : i ∈ w) (hj : j ∈ w) : Rearranged w a (a ∘ Equiv.swap i j) := by
  refine ⟨Equiv.swap i j, fun k hk => ?_, rfl⟩
  grind

end Rearranged

section Updates

variable [DecidableEq ι] {x y : α}

theorem update_update_eq_swap (a : ι → α) (i j : ι) :
    Function.update (Function.update a i (a j)) j (a i) = a ∘ Equiv.swap i j := by
  grind

/-- The element that an index waits for comes to another index, whose element comes here. -/
theorem Rearranged.move (h : Rearranged w a (Function.update b i x)) (hi : i ∈ w) (hj : j ∈ w)
    (hij : j ≠ i) : Rearranged w a (Function.update (Function.update b i (b j)) j x) := by
  have hswap := h.trans (Rearranged.swap _ hi hj)
  rw [← update_update_eq_swap] at hswap
  simpa [hij] using hswap

/-- Two elements are written to each other's index. -/
theorem Rearranged.exchange (hij : i ≠ j) (hi : i ∈ w) (hj : j ∈ w)
    (h : Rearranged w a (Function.update (Function.update b i x) j y)) :
    Rearranged w a (Function.update (Function.update b i y) j x) := by
  have hswap := h.trans (Rearranged.swap _ hi hj)
  rw [← update_update_eq_swap, Function.update_comm hij.symm] at hswap
  simpa [hij, hij.symm, Function.update_comm hij] using hswap

end Updates

section Sorted

variable [LinearOrder ι]

/-- The values in the window are in order. -/
def SortedOn (le : α → α → Prop) (w : Set ι) (a : ι → α) : Prop :=
  ∀ i ∈ w, ∀ j ∈ w, i < j → le (a i) (a j)

end Sorted

end W16.Rearrangements
