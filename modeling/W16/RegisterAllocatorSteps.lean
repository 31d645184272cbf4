import W16.LiveRangeSplits
import W16.Outcomes
import W16.RegisterAllocator
import Mathlib.Data.Int.Order.Basic

/-!
# Parts whose uses are in their intervals

A use is in an interval or at its end. A split keeps this, and the start of the part and the end
of the range.
-/
namespace W16.Lithium.Part

open List

set_option linter.dupNamespace false

variable {part : Part} {intervals parent child : List UseInterval} {bound p : Int} {use : UsePosition}

/-- The use is in an interval, or at its end. -/
def UsedIn (intervals : List UseInterval) (use : UsePosition) : Prop :=
  ∃ i ∈ intervals, i.start ≤ use.pos ∧ use.pos ≤ i.finish

/-- What the allocator keeps of a range, with a bound for all ranges. -/
structure Good (bound : Int) (part : Part) : Prop extends part.Valid where
  usedIn : ∀ use ∈ part.uses, UsedIn part.intervals use
  le_bound : part.finish ≤ bound

theorem Divides.start_eq (h : Divides p intervals parent child) :
    parent.head?.elim 0 UseInterval.start = intervals.head?.elim 0 UseInterval.start := by
  cases h with
  | inside pre i rest h h' => cases pre <;> rfl
  | between pre i next rest h h' => cases pre <;> rfl

theorem Divides.le_child_start (h : Divides p intervals parent child) :
    p ≤ child.head?.elim 0 UseInterval.start := by
  cases h with
  | inside pre i rest h h' => exact le_rfl
  | between pre i next rest h h' => exact h'

theorem Divides.child_finish (h : Divides p intervals parent child) :
    child.getLast?.elim 0 UseInterval.finish = intervals.getLast?.elim 0 UseInterval.finish := by
  cases h with
  | inside pre i rest h h' =>
    rw [getLast?_append_of_ne_nil _ (cons_ne_nil i rest)]
    cases rest with
    | nil => rfl
    | cons next rest => simp
  | between pre i next rest h h' =>
    rw [append_cons, getLast?_append_of_ne_nil _ (cons_ne_nil next rest)]

/-- The intervals of the parent have the uses before the position. -/
theorem Divides.parent_usedIn (h : Divides p intervals parent child) (hord : Ordered intervals)
    (hused : UsedIn intervals use)
    (hbefore : use.pos < p ∨ use.pos = p ∧ ¬StartsAt intervals p) : UsedIn parent use := by
  have hle : use.pos ≤ p := hbefore.elim le_of_lt fun h => h.1.le
  obtain ⟨j, hj, hstart, hfin⟩ := hused
  cases h with
  | inside pre i rest h h' =>
    rw [Ordered, pairwise_append] at hord
    rcases List.mem_append.1 hj with hj | hj
    · exact ⟨j, mem_append_left _ hj, hstart, hfin⟩
    · rcases mem_cons.1 hj with rfl | hj
      · exact ⟨⟨j.start, p, h⟩, mem_append_right _ mem_cons_self, hstart, hle⟩
      · have := (pairwise_cons.1 hord.2.1).1 j hj
        omega
  | between pre i next rest h h' =>
    rw [append_cons, Ordered, pairwise_append] at hord
    rw [append_cons] at hj
    rcases List.mem_append.1 hj with hj | hj
    · exact ⟨j, hj, hstart, hfin⟩
    · have := start_le_of_ordered hord.2.1 j hj
      refine absurd ⟨j, ?_, ?_⟩ (hbefore.resolve_left (by omega)).2
      · grind
      · omega

/-- The intervals of the child have the uses behind the position. -/
theorem Divides.child_usedIn (h : Divides p intervals parent child) (hord : Ordered intervals)
    (hused : UsedIn intervals use)
    (hbehind : p < use.pos ∨ use.pos = p ∧ StartsAt intervals p) : UsedIn child use := by
  obtain ⟨j, hj, hstart, hfin⟩ := hused
  cases h with
  | inside pre i rest h h' =>
    rw [Ordered, pairwise_append] at hord
    rcases hbehind with hlt | ⟨heq, -⟩
    · rcases List.mem_append.1 hj with hj | hj
      · have := hord.2.2 j hj i mem_cons_self
        omega
      · rcases mem_cons.1 hj with rfl | hj
        · exact ⟨⟨p, j.finish, h'⟩, mem_cons_self, hlt.le, hfin⟩
        · exact ⟨j, mem_cons_of_mem _ hj, hstart, hfin⟩
    · exact ⟨⟨p, i.finish, h'⟩, mem_cons_self, heq.ge, heq.le.trans h'.le⟩
  | between pre i next rest h h' =>
    rw [append_cons, Ordered, pairwise_append] at hord
    have hpar : ∀ k ∈ pre ++ [i], k.finish ≤ p := by
      intro k hk
      rcases List.mem_append.1 hk with hk | hk
      · have := (pairwise_append.1 hord.1).2.2 k hk i mem_cons_self
        have := i.nonempty
        omega
      · rw [mem_singleton.1 hk]
        exact h
    rcases hbehind with hlt | ⟨heq, k, hk, hkstart⟩
    · rw [append_cons] at hj
      rcases List.mem_append.1 hj with hj | hj
      · have := hpar j hj
        omega
      · exact ⟨j, hj, hstart, hfin⟩
    · rw [append_cons] at hk
      have hne := k.nonempty
      rcases List.mem_append.1 hk with hk | hk
      · have := hpar k hk
        omega
      · exact ⟨k, hk, by omega, by omega⟩

/-- A split inside of a range. -/
theorem Good.splitAt (h : Good bound part) (hp : part.start < p) (hp' : p < part.finish) :
    ∃ before after, part.splitAt p = some (before, after) ∧ Good bound before ∧
      Good bound after ∧ before.start = part.start ∧ p ≤ after.start ∧
      after.finish = part.finish := by
  obtain ⟨before, after, hsplit, hbefore, hafter, hsplits⟩ := h.toValid.splitAt hp hp'
  have hfin : after.finish = part.finish := by
    rw [hafter.finish_eq, h.toValid.finish_eq, hsplits.divides.child_finish]
  have hcut : before.finish ≤ p := by
    obtain ⟨i, hi, hle⟩ := hsplits.divides.parent_last
    rw [hbefore.finish_eq, hi]
    exact hle
  refine ⟨before, after, hsplit, ⟨hbefore, ?_, ?_⟩, ⟨hafter, ?_, ?_⟩,
    hsplits.divides.start_eq, hsplits.divides.le_child_start, hfin⟩
  · intro use huse
    have hmem : use ∈ part.uses := hsplits.uses ▸ mem_append_left _ huse
    exact hsplits.divides.parent_usedIn h.ordered (h.usedIn use hmem) (hsplits.parentUses use huse)
  · exact hcut.trans (hp'.le.trans h.le_bound)
  · intro use huse
    have hmem : use ∈ part.uses := hsplits.uses ▸ mem_append_right _ huse
    exact hsplits.divides.child_usedIn h.ordered (h.usedIn use hmem) (hsplits.childUses use huse)
  · rw [hfin]
    exact h.le_bound

end W16.Lithium.Part

/-!
## What the operations of the allocator keep

No range gets another start. A range that is put back to the unhandled ones starts behind the
position at which it was split off. A range that has a register or is spilled stays so.
-/
namespace W16.Lithium

open LifetimePosition Outcomes Lithium.Part

variable {bound p : Int} {s t u : Allocation} {q r : Nat} {touched : Nat → Prop}

namespace Allocation

@[simp] theorem setRange_length (s : Allocation) (r : Nat) (x : AllocatedRange) :
    (s.setRange r x).ranges.length = s.ranges.length := List.length_set

@[simp] theorem range_setRange_self (x : AllocatedRange) (hr : r < s.ranges.length) :
    (s.setRange r x).range r = x := by
  simp [setRange, range, List.getD_eq_getElem?_getD, hr]

@[simp] theorem range_setRange_of_ne (x : AllocatedRange) (hq : q ≠ r) :
    (s.setRange r x).range q = s.range q := by
  simp [setRange, range, List.getD_eq_getElem?_getD, List.getElem?_set_ne (Ne.symm hq)]

/-- The range has a register, or it is spilled. -/
def Occupied (s : Allocation) (r : Nat) : Prop :=
  (s.range r).assignedRegister ≠ none ∨ (s.range r).spilled = true

/-- All ranges are as they should be. -/
abbrev AllGood (bound : Int) (s : Allocation) : Prop :=
  ∀ r < s.ranges.length, Good bound (s.range r).part

/-- The ranges keep their starts, and those that are put back to the unhandled ones start behind
the position. -/
structure Later (bound p : Int) (s t : Allocation) : Prop where
  good : AllGood bound t
  length_le : s.ranges.length ≤ t.ranges.length
  start : ∀ r < s.ranges.length, t.start r = s.start r
  occupied : ∀ r < s.ranges.length, s.Occupied r → t.Occupied r
  unhandled : ∃ added, t.unhandled.Perm (s.unhandled ++ added) ∧
    ∀ r ∈ added, r < t.ranges.length ∧ p < t.start r

/-- Nothing is put back. -/
theorem Later.of_unhandled (hgood : AllGood bound t) (hlen : s.ranges.length ≤ t.ranges.length)
    (hstart : ∀ r < s.ranges.length, t.start r = s.start r)
    (hoccupied : ∀ r < s.ranges.length, s.Occupied r → t.Occupied r)
    (heq : t.unhandled = s.unhandled) : Later bound p s t := by
  refine ⟨hgood, hlen, hstart, hoccupied, [], ?_, nofun⟩
  rw [heq, List.append_nil]

theorem Later.refl (h : AllGood bound s) : Later bound p s s :=
  .of_unhandled h (le_rfl) (fun _ _ => rfl) (fun _ _ => id) rfl

theorem Later.trans (h : Later bound p s t) (h' : Later bound p t u) : Later bound p s u where
  good := h'.good
  length_le := h.length_le.trans h'.length_le
  start r hr := (h'.start r (hr.trans_le h.length_le)).trans (h.start r hr)
  occupied r hr hr' := h'.occupied r (hr.trans_le h.length_le) (h.occupied r hr hr')
  unhandled := by
    obtain ⟨added, hperm, hadded⟩ := h.unhandled
    obtain ⟨added', hperm', hadded'⟩ := h'.unhandled
    refine ⟨added ++ added', ?_, ?_⟩
    · grind
    · intro r hr
      rcases List.mem_append.1 hr with hr | hr
      · obtain ⟨hlt, hp⟩ := hadded r hr
        rw [h'.start r hlt]
        exact ⟨hlt.trans_le h'.length_le, hp⟩
      · exact hadded' r hr

/-- What an operation does to the ranges. Only those it touches get another end. -/
structure Step (bound p : Int) (touched : Nat → Prop) (s t : Allocation) : Prop extends Later bound p s t where
  finish : ∀ r < s.ranges.length, ¬touched r → t.finish r = s.finish r
  active : t.active = s.active
  inactive : t.inactive = s.inactive

theorem Step.refl (h : AllGood bound s) : Step bound p touched s s where
  toLater := .refl h
  finish _ _ _ := rfl
  active := rfl
  inactive := rfl

theorem Step.trans {touched' : Nat → Prop} (h : Step bound p touched s t)
    (h' : Step bound p touched' t u) (htouched : ∀ r < s.ranges.length, touched' r → touched r) :
    Step bound p touched s u where
  toLater := h.toLater.trans h'.toLater
  finish r hr hnot :=
    (h'.finish r (hr.trans_le h.length_le) fun hr' => hnot (htouched r hr hr')).trans (h.finish r hr hnot)
  active := h'.active.trans h.active
  inactive := h'.inactive.trans h.inactive

theorem Step.mono {touched' : Nat → Prop} (h : Step bound p touched s t)
    (htouched : ∀ r, touched r → touched' r) : Step bound p touched' s t :=
  { h with finish := fun r hr hnot => h.finish r hr fun hr' => hnot (htouched r hr') }

/-- Changes of one range. -/
theorem Step.setRange {x : AllocatedRange} (h : AllGood bound s)
    (hgood : r < s.ranges.length → Good bound x.part ∧ x.part.start = s.start r)
    (hfin : ¬touched r → x.part.finish = s.finish r)
    (hoccupied : s.Occupied r → x.assignedRegister ≠ none ∨ x.spilled = true) :
    Step bound p touched s (s.setRange r x) where
  toLater := by
    refine .of_unhandled (fun q hq => ?_) (setRange_length s r x).ge (fun q hq => ?_) (fun q hq hold => ?_) rfl
    · rw [setRange_length] at hq
      by_cases hqr : q = r
      · simp_all
      · rw [range_setRange_of_ne _ hqr]
        exact h q hq
    · grind [Allocation.start, range_setRange_self, range_setRange_of_ne]
    · by_cases hqr : q = r
      · simp_all [Occupied]
      · rw [Occupied, range_setRange_of_ne _ hqr]
        exact hold
  finish q hq hnot := by
    grind [Allocation.finish, range_setRange_self, range_setRange_of_ne]
  active := rfl
  inactive := rfl

/-- The spill slots do not matter. -/
theorem Step.slots (h : AllGood bound s) (slots : List Nat) (count : Int) :
    Step bound p touched s { s with reusableSlots := slots, spillSlotCount := count } where
  toLater := .of_unhandled h (le_rfl) (fun _ _ => rfl) (fun _ _ => id) rfl
  finish _ _ _ := rfl
  active := rfl
  inactive := rfl

/-- `LiveRangeFor` of a new id. -/
def push (s : Allocation) (y : AllocatedRange) : Allocation :=
  { s with
    ranges := s.ranges ++ [y]
    nextVirtualRegister := s.nextVirtualRegister + 1 }

theorem range_push_of_lt (y : AllocatedRange) (hq : q < s.ranges.length) : (s.push y).range q = s.range q := by
  simp [push, range, List.getD_eq_getElem?_getD, List.getElem?_append_left hq]

@[simp] theorem range_push_self (s : Allocation) (y : AllocatedRange) :
    (s.push y).range s.ranges.length = y := by
  simp [push, range, List.getD_eq_getElem?_getD]

theorem Step.push {y : AllocatedRange} (h : AllGood bound s) (hgood : Good bound y.part) :
    Step bound p (fun _ => False) s (s.push y) where
  toLater := by
    have hlen : (s.push y).ranges.length = s.ranges.length + 1 := by simp [Allocation.push]
    refine .of_unhandled (fun q hq => ?_) (hlen ▸ Nat.le_succ _) (fun q hq => ?_) (fun q hq hold => ?_) rfl
    · grind [range_push_of_lt, range_push_self]
    · rw [Allocation.start, range_push_of_lt y hq, Allocation.start]
    · rw [Occupied, range_push_of_lt y hq]
      exact hold
  finish q hq _ := by
    rw [Allocation.finish, range_push_of_lt y hq, Allocation.finish]
  active := rfl
  inactive := rfl

section Caches

variable {part : Part}

end Caches

end Allocation

namespace LAllocator

open Allocation

variable {A : LAllocator}

/-- Only an assertion may fail. -/
abbrev Checked {α : Type} (P : α → Prop) : Except Failure α → Prop :=
  Outcome (fun e => e = .assertion) P

/-- The part that is split off is a new range, or the position is not behind the start. -/
structure SplitStep (bound p : Int) (s : Allocation) (r : Nat) (t : Allocation) (q : Nat) : Prop where
  step : Step bound p (fun x => x = r) s t
  lt_length : q < t.ranges.length
  finish : t.finish q = s.finish r
  result : q = r ∧ t = s ∨ q = s.ranges.length ∧ s.start r < t.start q

/-- An operation on the part that was split off. -/
theorem SplitStep.trans (h : SplitStep bound p s r t q) (h' : Step bound p (fun x => x = q) t u) :
    Step bound p (fun x => x = r) s u := by
  refine h.step.trans h' fun x hx hxq => ?_
  rcases h.result with ⟨rfl, -⟩ | ⟨rfl, -⟩
  · exact hxq
  · omega

end LAllocator

end W16.Lithium
