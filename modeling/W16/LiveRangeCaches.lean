import W16.LiveRange
import Mathlib.Data.List.Infix

/-!
# The caches of a live range

The cache only leaves out what cannot matter: an interval before `current_interval_` ends before
the position that is looked for.
-/
namespace W16.Lithium

open List

/-- The intervals have the position. -/
def Covered (intervals : List UseInterval) (x : Int) : Prop :=
  ∃ interval ∈ intervals, interval.contains x = true

/-- The answer is the first position of the kind, or `Invalid` when there is none. -/
def IsFirst (kind : Int → Prop) (answer : Int) : Prop :=
  (answer = LifetimePosition.invalid ∧ ∀ x, ¬kind x) ∨ (0 ≤ answer ∧ kind answer ∧ ∀ x, kind x → answer ≤ x)

abbrev Ordered (intervals : List UseInterval) : Prop :=
  intervals.Pairwise fun a b => a.finish ≤ b.start

variable {intervals : List UseInterval} {interval : UseInterval} {x p : Int}

@[simp] theorem not_covered_nil : ¬Covered [] x := fun ⟨_, h, _⟩ => absurd h not_mem_nil

@[simp] theorem covered_cons : Covered (interval :: intervals) x ↔
    (interval.start ≤ x ∧ x < interval.finish) ∨ Covered intervals x := by
  simp [Covered, LiveRange.contains_iff]

@[simp] theorem covered_append {others : List UseInterval} :
    Covered (intervals ++ others) x ↔ Covered intervals x ∨ Covered others x := by
  simp only [Covered, mem_append, or_and_right, exists_or]

theorem Covered.start_le {start : Int} (h : Covered intervals x)
    (hstart : ∀ i ∈ intervals, start ≤ i.start) : start ≤ x := by
  obtain ⟨i, hi, hcont⟩ := h
  grind [LiveRange.contains_iff]

theorem Covered.lt_finish {finish : Int} (h : Covered intervals x)
    (hfin : ∀ i ∈ intervals, i.finish ≤ finish) : x < finish := by
  obtain ⟨i, hi, hcont⟩ := h
  grind [LiveRange.contains_iff]

theorem IsFirst.unique {kind : Int → Prop} {a b : Int} (ha : IsFirst kind a) (hb : IsFirst kind b) : a = b := by
  rcases ha with ⟨ha, hnone⟩ | ⟨-, ha, hmin⟩
  · rcases hb with ⟨hb, -⟩ | ⟨-, hb, -⟩
    · rw [ha, hb]
    · exact absurd hb (hnone b)
  · rcases hb with ⟨-, hnone⟩ | ⟨-, hb, hmin'⟩
    · exact absurd ha (hnone a)
    grind

theorem IsFirst.congr {kind kind' : Int → Prop} {a : Int} (h : IsFirst kind a)
    (hiff : ∀ x, kind x ↔ kind' x) : IsFirst kind' a := by
  have heq : kind = kind' := funext fun x => propext (hiff x)
  exact heq ▸ h

namespace Part

/-- What the allocator keeps of a range. -/
structure Valid (part : Part) : Prop where
  nonempty : part.intervals ≠ []
  ordered : Ordered part.intervals
  nonneg : ∀ i ∈ part.intervals, 0 ≤ i.start
  last : part.last = part.intervals.getLast?
  current : part.current <:+ part.intervals
  uses : part.uses.Pairwise fun a b => a.pos ≤ b.pos
  lastProcessedUse : part.lastProcessedUse <:+ part.uses

variable {part : Part}

theorem Valid.finish_eq (h : part.Valid) : part.finish = part.intervals.getLast?.elim 0 UseInterval.finish := by
  rw [finish, h.last]

theorem Valid.search_suffix (h : part.Valid) :
    (part.firstSearchIntervalForPosition p).1 <:+ part.intervals := by
  have hcur := h.current
  rw [firstSearchIntervalForPosition]
  grind

theorem Valid.search_current (h : part.Valid) :
    (part.firstSearchIntervalForPosition p).2 <:+ part.intervals := by
  have hcur := h.current
  rw [firstSearchIntervalForPosition]
  grind

theorem advance_suffix {current toStartOf : List UseInterval} {butNotPast : Int}
    (h : current <:+ intervals) (h' : toStartOf <:+ intervals) :
    advanceLastProcessedMarker current toStartOf butNotPast <:+ intervals := by
  cases toStartOf with
  | nil => exact h
  | cons interval rest =>
    rw [advanceLastProcessedMarker]
    grind

theorem coversFrom_suffix {search current : List UseInterval} (h : search <:+ intervals)
    (h' : current <:+ intervals) : (coversFrom p search current).2 <:+ intervals := by
  induction search generalizing current with
  | nil => exact h'
  | cons interval rest ih =>
    rw [coversFrom]
    have hadvanced : advanceLastProcessedMarker current (interval :: rest) p <:+ intervals :=
      advance_suffix h' h
    split
    · exact hadvanced
    · split
      · exact hadvanced
      · exact ih ((suffix_cons interval rest).trans h) hadvanced

theorem Valid.bounds (h : part.Valid) (hcov : Covered part.intervals x) : part.start ≤ x ∧ x < part.finish := by
  constructor
  · apply hcov.start_le
    intro i hi
    have hfirst : (⟨part.intervals, false, none, false, h.ordered⟩ : LiveRange).start ≤ i.start :=
      LiveRange.start_le h.ordered hi
    exact hfirst
  · apply hcov.lt_finish
    intro i hi
    rw [h.finish_eq]
    exact LiveRange.le_finish_of_mem h.ordered hi

theorem Valid.covers (h : part.Valid) (p : Int) : (part.covers p).2.Valid := by
  rw [Part.covers]
  split
  · exact { h with current := coversFrom_suffix h.search_suffix h.search_current }
  · exact h

theorem start_le_of_ordered {first : UseInterval} {rest : List UseInterval}
    (h : Ordered (first :: rest)) : ∀ i ∈ first :: rest, first.start ≤ i.start := by
  intro i hi
  rcases mem_cons.1 hi with rfl | hi
  · exact Int.le_refl _
  · have := (pairwise_cons.1 h).1 i hi
    have := first.nonempty
    omega

theorem firstIntersectionFrom_suffix {finish otherFinish butNotPast : Int}
    (as bs current : List UseInterval) (has : as <:+ intervals) (hcur : current <:+ intervals) :
    (firstIntersectionFrom finish otherFinish butNotPast as bs current).2 <:+ intervals := by
  induction as, bs, current using firstIntersectionFrom.induct finish otherFinish butNotPast with
  | case1 bs current =>
    rw [firstIntersectionFrom]
    exact hcur
  | case2 a as current =>
    rw [firstIntersectionFrom]
    exact hcur
  | case3 a as b bs current hbehind =>
    unfold firstIntersectionFrom
    rw [if_pos hbehind]
    exact hcur
  | case4 a as b bs current hnot hbehind =>
    unfold firstIntersectionFrom
    grind
  | case5 a as b bs current hnot hnot' hvalid =>
    unfold firstIntersectionFrom
    grind
  | case6 a b bs current hnot hnot' hinval hlt =>
    unfold firstIntersectionFrom
    grind
  | case7 a b bs current hnot hnot' hinval hlt next rest hbehind =>
    unfold firstIntersectionFrom
    grind
  | case8 a b bs current hnot hnot' hinval hlt next rest hnot'' ih =>
    unfold firstIntersectionFrom
    rw [if_neg hnot, if_neg hnot', if_neg hinval, if_pos hlt]
    simp only [hnot'', if_false]
    grind [suffix_cons, advance_suffix]
  | case9 a as b bs current hnot hnot' hinval hnlt ih =>
    unfold firstIntersectionFrom
    rw [if_neg hnot, if_neg hnot', if_neg hinval, if_neg hnlt]
    exact ih has hcur

theorem Valid.firstIntersection (h : part.Valid) (other : LiveRange) :
    (part.firstIntersection other).2.Valid := by
  rw [Part.firstIntersection]
  split
  · exact h
  · exact { h with
      current := firstIntersectionFrom_suffix _ _ _ h.search_suffix h.search_current }

theorem Valid.nextUsePosition (h : part.Valid) (start : Int) : (part.nextUsePosition start).2.Valid := by
  have hlast := h.lastProcessedUse
  have hdrop := dropWhile_suffix (l := if part.lastProcessedUse = [] then part.uses
    else part.lastProcessedUse) fun use => decide (use.pos < start)
  refine { h with lastProcessedUse := hdrop.trans ?_ }
  split
  · exact suffix_rfl
  · exact hlast

end Part

end W16.Lithium
