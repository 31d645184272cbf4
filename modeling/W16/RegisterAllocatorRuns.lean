import W16.RegisterAllocatorLists

/-!
# An iteration of the register allocator

The range gets a free register, or one that is taken from other ranges, or it is spilled. In each
case the ranges that are put back to the unhandled ones start behind its start.
-/
namespace W16.Lithium

open LifetimePosition Outcomes Lithium.Part List

set_option linter.dupNamespace false

variable {bound p : Int} {s t u : Allocation} {q r c : Nat}

namespace LAllocator

open Allocation

variable {A : LAllocator}

/-- The range is in no list, and the ranges that are go on behind the position. -/
structure Clear (bound p : Int) (c : Nat) (s : Allocation) : Prop extends Ready bound p c [] s where
  not_mem : c ∉ s.active ++ s.inactive

theorem Clear.step (h : Clear bound p c s) (hstep : Step bound p (fun x => x = c) s t) : Clear bound p c t where
  toReady := h.toReady.step hstep fun r hr heq => h.not_mem (heq ▸ hr)
  not_mem := by
    rw [hstep.active, hstep.inactive]
    exact h.not_mem

end LAllocator

namespace Allocation

/-- What holds between two iterations. -/
structure Inv (bound : Int) (s : Allocation) : Prop where
  good : AllGood bound s
  unhandled_lt : ∀ r ∈ s.unhandled, r < s.ranges.length
  nodup : (s.active ++ s.inactive).Nodup
  lt : ∀ r ∈ s.active ++ s.inactive, r < s.ranges.length
  occupied : ∀ r ∈ s.active ++ s.inactive, s.Occupied r

theorem Later.unhandled_lt (h : Later bound p s t) (hs : ∀ r ∈ s.unhandled, r < s.ranges.length) :
    ∀ r ∈ t.unhandled, r < t.ranges.length := by
  obtain ⟨added, hperm, hadded⟩ := h.unhandled
  intro r hr
  rcases mem_append.1 (hperm.subset hr) with hr | hr
  · exact (hs r hr).trans_le h.length_le
  · exact (hadded r hr).1

theorem Inv.step {touched : Nat → Prop} (h : Inv bound s) (hstep : Step bound p touched s t) : Inv bound t where
  good := hstep.good
  unhandled_lt := hstep.unhandled_lt h.unhandled_lt
  nodup := by
    rw [hstep.active, hstep.inactive]
    exact h.nodup
  lt r hr := by
    rw [hstep.active, hstep.inactive] at hr
    exact (h.lt r hr).trans_le hstep.length_le
  occupied r hr := by
    rw [hstep.active, hstep.inactive] at hr
    exact hstep.occupied r (h.lt r hr) (h.occupied r hr)

theorem Ready.inv {pending : List Nat} (h : Ready bound p c pending t)
    (hlt : ∀ r ∈ t.unhandled, r < t.ranges.length) : Inv bound t :=
  ⟨h.good, hlt, h.nodup, h.lt, h.occupied⟩

end Allocation

namespace LAllocator

open Allocation

variable {A : LAllocator}

end LAllocator

end W16.Lithium
