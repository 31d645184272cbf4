import W16.RegisterAllocatorSteps

/-!
# The lists of ranges while a range is handled

Until the range at the position is allocated, the active and inactive ranges are brought up to
date: those that are left go on behind the position.
-/
namespace W16.Lithium

open LifetimePosition Outcomes Lithium.Part List

set_option linter.dupNamespace false

variable {bound p : Int} {s t u : Allocation} {q r c : Nat} {pending : List Nat}

namespace Allocation

/-- The same ranges in other lists. -/
structure Relisted (s t : Allocation) : Prop where
  ranges : t.ranges = s.ranges
  unhandled : t.unhandled = s.unhandled

theorem Relisted.range (h : Relisted s t) (r : Nat) : t.range r = s.range r := by
  rw [Allocation.range, h.ranges, Allocation.range]

theorem Relisted.later (h : Relisted s t) (hgood : AllGood bound s) : Later bound p s t := by
  refine .of_unhandled (fun r hr => ?_) (congrArg List.length h.ranges).ge (fun r _ => ?_)
    (fun r _ hold => ?_) h.unhandled
  · rw [h.range]
    exact hgood r (h.ranges ▸ hr)
  · rw [Allocation.start, h.range, Allocation.start]
  · rw [Occupied, h.range]
    exact hold

/-- The lists while the range `c` at the position is handled. The active and inactive ranges
other than the pending ones go on behind the position. -/
structure Ready (bound p : Int) (c : Nat) (pending : List Nat) (s : Allocation) : Prop where
  good : AllGood bound s
  current_lt : c < s.ranges.length
  current_start : s.start c = p
  nodup : (s.active ++ s.inactive).Nodup
  lt : ∀ r ∈ s.active ++ s.inactive, r < s.ranges.length
  occupied : ∀ r ∈ s.active ++ s.inactive, s.Occupied r
  ends : ∀ r ∈ s.active ++ s.inactive, r ∉ pending → p < s.finish r

theorem Ready.step {touched : Nat → Prop} (h : Ready bound p c pending s)
    (hstep : Step bound p touched s t) (hnot : ∀ r ∈ s.active ++ s.inactive, ¬touched r) :
    Ready bound p c pending t where
  good := hstep.good
  current_lt := h.current_lt.trans_le hstep.length_le
  current_start := (hstep.start c h.current_lt).trans h.current_start
  nodup := by
    rw [hstep.active, hstep.inactive]
    exact h.nodup
  lt r hr := by
    rw [hstep.active, hstep.inactive] at hr
    exact (h.lt r hr).trans_le hstep.length_le
  occupied r hr := by
    rw [hstep.active, hstep.inactive] at hr
    exact hstep.occupied r (h.lt r hr) (h.occupied r hr)
  ends r hr hpend := by
    rw [hstep.active, hstep.inactive] at hr
    rw [hstep.finish r (h.lt r hr) (hnot r hr)]
    exact h.ends r hr hpend

theorem Ready.quiet (h : Ready bound p c pending s) (hstep : Step bound p (fun _ => False) s t) :
    Ready bound p c pending t := h.step hstep fun _ _ => id

/-- A range has been touched, and the lists no longer have it. -/
theorem Ready.removed {pending' : List Nat} {touched : Nat → Prop} (h : Ready bound p c pending s)
    (hstep : Step bound p touched s t) (hlists : Relisted t u)
    (hnodup : (u.active ++ u.inactive).Nodup)
    (hsub : ∀ q ∈ u.active ++ u.inactive, q ∈ s.active ++ s.inactive ∧ ¬touched q)
    (hends : ∀ q ∈ u.active ++ u.inactive, q ∉ pending' → q ∈ pending → p < s.finish q) :
    Ready bound p c pending' u where
  good := (hlists.later (p := p) hstep.good).good
  current_lt := hlists.ranges ▸ h.current_lt.trans_le hstep.length_le
  current_start := by
    rw [Allocation.start, hlists.range]
    exact (hstep.start c h.current_lt).trans h.current_start
  nodup := hnodup
  lt q hq := hlists.ranges ▸ (h.lt q (hsub q hq).1).trans_le hstep.length_le
  occupied q hq := by
    have hmem := (hsub q hq).1
    rw [Occupied, hlists.range]
    exact hstep.occupied q (h.lt q hmem) (h.occupied q hmem)
  ends q hq hpend := by
    obtain ⟨hmem, hnot⟩ := hsub q hq
    rw [Allocation.finish, hlists.range]
    refine lt_of_lt_of_eq ?_ (hstep.finish q (h.lt q hmem) hnot).symm
    by_cases hold : q ∈ pending
    · exact hends q hq hpend hold
    · exact h.ends q hmem hold

end Allocation

section Lists

variable {a b : List Nat}

end Lists

namespace LAllocator

open Allocation

variable {A : LAllocator} {touched : Nat → Prop} {pending' : List Nat}

end LAllocator

end W16.Lithium
