import W16.Outcomes
import W16.RegisterAllocator
import W16.RegisterAllocatorRuns
import Mathlib.Data.Multiset.DershowitzManna
import Mathlib.Data.Set.Finite.Lattice

/-!
# The allocator without assertions

A run in which all assertions hold is the same in a build that does not check them.
-/
namespace W16.Lithium.LAllocator

open Allocation Outcomes

set_option linter.dupNamespace false

variable (A : LAllocator) (s : Allocation) (q r : Nat) (p : Int)

/-- The allocator of a build without assertions. -/
def release : LAllocator := { A with checked := false }

end W16.Lithium.LAllocator

/-!
## The loop of the register allocator ends

An iteration takes a range from the unhandled ones and puts back ranges that start later. What is
left of the code behind their starts gets smaller, as multisets do.
-/
namespace W16.Lithium

open Outcomes Lithium.Part

variable {bound p : Int} {s t : Allocation} {r c : Nat} {rest : List Nat}

namespace Allocation

/-- What is left of the code behind the starts of the unhandled ranges. -/
def remaining (bound : Int) (s : Allocation) : Multiset Nat :=
  (s.unhandled.map fun r => (bound - s.start r).toNat : List Nat)

end Allocation

namespace Allocation

/-- The ranges at the start of the loop. The inactive ones are the fixed ranges. -/
structure Initial (s : Allocation) : Prop where
  valid : ∀ r < s.ranges.length, (s.range r).part.Valid
  usedIn : ∀ r < s.ranges.length, ∀ use ∈ (s.range r).part.uses, UsedIn (s.range r).part.intervals use
  unhandled_lt : ∀ r ∈ s.unhandled, r < s.ranges.length
  active : s.active = []
  inactive_lt : ∀ r ∈ s.inactive, r < s.ranges.length
  nodup : s.inactive.Nodup
  register : ∀ r ∈ s.inactive, (s.range r).assignedRegister ≠ none

theorem Initial.inv (h : Initial s) : ∃ bound, Inv bound s := by
  obtain ⟨bound, hbound⟩ := ((Set.finite_lt_nat s.ranges.length).image s.finish).bddAbove
  refine ⟨bound, fun r hr => ⟨h.valid r hr, h.usedIn r hr, hbound ⟨r, hr, rfl⟩⟩,
    h.unhandled_lt, ?_, ?_, ?_⟩ <;> rw [h.active, List.nil_append]
  · exact h.nodup
  · exact h.inactive_lt
  · exact fun r hr => .inl (h.register r hr)

end Allocation

namespace LAllocator

open Allocation

variable {A : LAllocator}

/-- The allocator of a build that checks the assertions. -/
def debug (A : LAllocator) : LAllocator := { A with checked := true }

end LAllocator

end W16.Lithium
