import Mathlib.Data.List.Perm.Subperm
import Mathlib.Data.List.Range

/-!
# Lists linked through an array

Several lists share one array. Each element has the index of the next element of its list.
-/
namespace W16.IndexedLists

open List

variable {α : Type} (next : α → Option Nat)

/-- The list with these indices starts here. -/
def Linked (elements : List α) : Option Nat → List Nat → Prop
  | start, [] => start = none
  | start, i :: indices =>
    start = some i ∧ ∃ e, elements[i]? = some e ∧ Linked elements (next e) indices

variable {next} {elements elements' : List α} {start : Option Nat} {indices : List Nat} {i : Nat} {e : α}

@[simp] theorem linked_nil : Linked next elements start [] ↔ start = none := Iff.rfl

@[simp] theorem linked_cons : Linked next elements start (i :: indices) ↔
    start = some i ∧ ∃ e, elements[i]? = some e ∧ Linked next elements (next e) indices := Iff.rfl

theorem Linked.start_eq (h : Linked next elements start indices) : start = indices.head? := by
  cases indices with
  | nil => exact h
  | cons i indices => exact h.1

/-- The elements of other lists do not matter. -/
theorem Linked.frame (hsame : ∀ i ∈ indices, elements'[i]? = elements[i]?)
    (h : Linked next elements start indices) : Linked next elements' start indices := by
  induction indices generalizing start with
  | nil => exact h
  | cons i indices ih =>
    obtain ⟨hstart, e, he, h⟩ := h
    simp_all

theorem Linked.lt_length (h : Linked next elements start indices) : ∀ i ∈ indices, i < elements.length := by
  induction indices generalizing start with
  | nil => exact fun _ hi => absurd hi not_mem_nil
  | cons i indices ih =>
    obtain ⟨-, e, he, h⟩ := h
    grind

theorem Linked.append (added : List α) (h : Linked next elements start indices) :
    Linked next (elements ++ added) start indices :=
  h.frame fun i hi => List.getElem?_append_left (h.lt_length i hi)

/-- An element becomes the head of a list. -/
theorem Linked.push (hi : i < elements.length) (hnot : i ∉ indices) (he : next e = start)
    (h : Linked next elements start indices) :
    Linked next (elements.set i e) (some i) (i :: indices) := by
  refine ⟨rfl, e, List.getElem?_set_self hi, ?_⟩
  rw [he]
  apply h.frame
  grind

/-- The element before it goes on to what is behind the one taken out. -/
theorem Linked.unlink {pre post : List Nat} {j : Nat} {e' : α} (he : elements[i]? = some e)
    (he' : next e' = next e) (hnodup : (pre ++ j :: i :: post).Nodup)
    (h : Linked next elements start (pre ++ j :: i :: post)) :
    Linked next (elements.set j e') start (pre ++ j :: post) := by
  induction pre generalizing start with
  | nil =>
    obtain ⟨hstart, a, ha, -, b, hb, h⟩ := h
    have hsame : b = e := Option.some.inj (hb.symm.trans he)
    have hnot : j ∉ post := fun hj => (nodup_cons.1 hnodup).1 (mem_cons_of_mem i hj)
    rw [hstart]
    exact h.push (List.getElem?_eq_some_iff.1 ha).1 hnot (he'.trans (hsame ▸ rfl))
  | cons k pre ih =>
    obtain ⟨hstart, a, ha, h⟩ := h
    obtain ⟨hk, hnodup⟩ := nodup_cons.1 hnodup
    have hne : j ≠ k := by
      grind
    simp_all

theorem Linked.length_le (h : Linked next elements start indices) (hnodup : indices.Nodup) :
    indices.length ≤ elements.length := by
  have hsub : indices ⊆ List.range elements.length :=
    fun i hi => mem_range.2 (h.lt_length i hi)
  have hle := (subperm_of_subset hnodup hsub).length_le
  rwa [length_range] at hle

theorem count_range (i n : Nat) : (List.range n).count i = if i < n then 1 else 0 := by
  rw [nodup_range.count]
  simp only [mem_range]

/-- The lists have each index once. -/
theorem perm_range_iff {n : Nat} :
    indices.Perm (List.range n) ↔ ∀ i, indices.count i = if i < n then 1 else 0 := by
  rw [perm_iff_count]
  simp only [count_range]

end W16.IndexedLists
