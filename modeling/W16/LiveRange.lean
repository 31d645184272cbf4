import Mathlib.Data.List.Basic
import Mathlib.Data.List.Pairwise

/-!
# Live ranges

The live range of a virtual register is a list of use intervals over lifetime
positions, two to an instruction. After splitting, a top-level range is followed
by its children, each with a register of its own or spilled to the slot they all
share.
-/
namespace W16.Lithium

open List

namespace LifetimePosition

def kStep : Int := 2

def fromInstructionIndex (index : Int) : Int := index * kStep

def instructionIndex (value : Int) : Int := value / kStep

def isInstructionStart (value : Int) : Bool := value % kStep == 0

def instructionStart (value : Int) : Int := value - value % kStep

def instructionEnd (value : Int) : Int := instructionStart value + kStep / 2

def nextInstruction (value : Int) : Int := instructionStart value + kStep

def prevInstruction (value : Int) : Int := instructionStart value - kStep

end LifetimePosition

open LifetimePosition

/-- `LOperand`, with the index of a fixed kind. -/
inductive LOperand where
  | unallocated
  | constantOperand (index : Int)
  | stackSlot (index : Int)
  | doubleStackSlot (index : Int)
  | register (index : Int)
  | doubleRegister (index : Int)
  | argument
  deriving DecidableEq, Repr

/-- Representation of the non-empty interval `[start, end[`. -/
structure UseInterval where
  start : Int
  finish : Int
  nonempty : start < finish
  deriving DecidableEq, Repr

def UseInterval.contains (interval : UseInterval) (point : Int) : Bool :=
  interval.start ≤ point && point < interval.finish

/-- One part of a range, with its intervals in order. -/
structure LiveRange where
  intervals : List UseInterval
  spilled : Bool
  assignedRegister : Option Int
  isDouble : Bool
  sorted : intervals.Pairwise fun a b => a.finish ≤ b.start
  deriving DecidableEq, Repr

namespace LiveRange

variable (range : LiveRange) (position : Int)

def isEmpty : Bool := range.intervals.isEmpty

/-- `Start()`, which asserts that the range is not empty. -/
def start : Int := range.intervals.head?.elim 0 UseInterval.start

/-- `End()`, which asserts that the range is not empty. -/
def finish : Int := range.intervals.getLast?.elim 0 UseInterval.finish

def canCover : Bool :=
  !range.isEmpty && range.start ≤ position && position < range.finish

/-- The search loop of `Covers`. -/
def search : List UseInterval → Bool
  | [] => false
  | interval :: rest =>
    if interval.contains position then true
    else if interval.start > position then false
    else search rest

/-- `Covers`. The source starts the search at a cached interval, which is
transparent by `covers_iff`. -/
def covers : Bool := range.canCover position && search position range.intervals

variable {range position}

variable {intervals : List UseInterval} {i : UseInterval}

theorem contains_iff {interval : UseInterval} :
    interval.contains position = true ↔ interval.start ≤ position ∧ position < interval.finish := by
  simp [UseInterval.contains]

theorem start_le (hsort : range.intervals.Pairwise fun a b => a.finish ≤ b.start) (hi : i ∈ range.intervals) : range.start ≤ i.start := by
  unfold start
  cases hints : range.intervals with
  | nil => simp [hints] at hi
  | cons interval rest =>
    rw [hints] at hi hsort
    rcases mem_cons.1 hi with rfl | hi
    · exact Int.le_refl _
    · have hlater := (pairwise_cons.1 hsort).1 i hi
      have hnonempty := interval.nonempty
      grind

theorem le_finish_of_mem (hsort : intervals.Pairwise fun a b => a.finish ≤ b.start)
    (hi : i ∈ intervals) : i.finish ≤ intervals.getLast?.elim 0 UseInterval.finish := by
  induction intervals generalizing i with
  | nil => exact absurd hi not_mem_nil
  | cons interval rest ih =>
    obtain ⟨hhead, htail⟩ := pairwise_cons.1 hsort
    cases rest with
    | nil => simp [mem_singleton.1 hi]
    | cons next rest =>
      rw [getLast?_cons_cons]
      rcases mem_cons.1 hi with rfl | hi
      · have hnext := hhead next mem_cons_self
        have hlast := ih htail mem_cons_self
        have hnonempty := next.nonempty
        omega
      · exact ih htail hi

end LiveRange

/-- A top-level range and its children. `SplitAt` puts a child behind the range it
is split from. -/
structure TopLevel where
  id : Nat
  range : LiveRange
  children : List LiveRange
  /-- `spill_operand_`, if it is allocated. -/
  spillOperand : Option LOperand
  spillStartIndex : Int
  ordered : (range :: children).Pairwise fun a b => a.finish ≤ b.start
  nonempty : ∀ child ∈ children, child.isEmpty = false
  split : children ≠ [] → range.isEmpty = false
  deriving DecidableEq, Repr

namespace TopLevel

variable (t : TopLevel)

/-- The range and its children along `next()`. -/
def chain : List LiveRange := t.range :: t.children

/-- `CreateAssignedOperand` of a part of the range. -/
def createAssignedOperand (part : LiveRange) : LOperand :=
  match part.assignedRegister with
  | some reg => if part.isDouble then .doubleRegister reg else .register reg
  | none => if part.spilled then t.spillOperand.getD .unallocated else .unallocated

variable {t}

end TopLevel

end W16.Lithium

/-!
## Splitting live ranges

A range with its use positions and its two caches. A pointer to an interval or to a use is the
rest of its list from there on, and `[]` is `NULL`. An operation fails where an assertion does not
hold or `NULL` is dereferenced.
-/
namespace W16.Lithium

/-- `LifetimePosition::Invalid()`. -/
def LifetimePosition.invalid : Int := -1

structure UsePosition where
  pos : Int
  requiresReg : Bool
  registerBeneficial : Bool
  deriving DecidableEq, Repr

namespace UseInterval

/-- `SplitAt`, which asserts that both parts have a position. -/
def splitAt (interval : UseInterval) (pos : Int) : Option (UseInterval × UseInterval) :=
  if h : interval.start < pos ∧ pos < interval.finish then
    some (⟨interval.start, pos, h.1⟩, ⟨pos, interval.finish, h.2⟩)
  else none

/-- `Intersect`, where the other interval does not start before this one. -/
def intersectOrdered (interval other : UseInterval) : Int :=
  if other.start < interval.finish then other.start else LifetimePosition.invalid

def intersect (interval other : UseInterval) : Int :=
  if other.start < interval.start then other.intersectOrdered interval
  else interval.intersectOrdered other

end UseInterval

/-- What splitting a range reads and writes. `last` is `last_interval_`. -/
structure Part where
  intervals : List UseInterval
  last : Option UseInterval
  uses : List UsePosition
  current : List UseInterval
  lastProcessedUse : List UsePosition
  deriving DecidableEq, Repr

namespace Part

variable (part : Part)

def start : Int := part.intervals.head?.elim 0 UseInterval.start

def finish : Int := part.last.elim 0 UseInterval.finish

/-- The interval to start a search at, and `current_interval_` after it. -/
def firstSearchIntervalForPosition (position : Int) : List UseInterval × List UseInterval :=
  match part.current with
  | [] => (part.intervals, [])
  | cached :: rest =>
    if cached.start > position then (part.intervals, []) else (cached :: rest, cached :: rest)

/-- `current_interval_` after `AdvanceLastProcessedMarker`. -/
def advanceLastProcessedMarker (current toStartOf : List UseInterval) (butNotPast : Int) : List UseInterval :=
  match toStartOf with
  | [] => current
  | interval :: _ =>
    if interval.start > butNotPast then current
    else if interval.start > current.head?.elim LifetimePosition.invalid UseInterval.start then
      toStartOf
    else current

def canCover (position : Int) : Bool :=
  !part.intervals.isEmpty && part.start ≤ position && position < part.finish

/-- The loop of `Covers`. -/
def coversFrom (position : Int) : List UseInterval → List UseInterval → Bool × List UseInterval
  | [], current => (false, current)
  | interval :: rest, current =>
    let advanced := advanceLastProcessedMarker current (interval :: rest) position
    if interval.contains position then (true, advanced)
    else if interval.start > position then (false, advanced)
    else coversFrom position rest advanced

def covers (position : Int) : Bool × Part :=
  if part.canCover position then
    let (startSearch, current) := part.firstSearchIntervalForPosition position
    let (answer, current) := coversFrom position startSearch current
    (answer, { part with current := current })
  else (false, part)

/-- The loop of `FirstIntersection`, with the ends of the two ranges. -/
def firstIntersectionFrom (finish otherFinish butNotPast : Int) :
    List UseInterval → List UseInterval → List UseInterval → Int × List UseInterval
  | [], _, current => (LifetimePosition.invalid, current)
  | _ :: _, [], current => (LifetimePosition.invalid, current)
  | a :: as, b :: bs, current =>
    if a.start > otherFinish then (LifetimePosition.invalid, current)
    else if b.start > finish then (LifetimePosition.invalid, current)
    else if a.intersect b ≠ LifetimePosition.invalid then (a.intersect b, current)
    else if a.start < b.start then
      match as with
      | [] => (LifetimePosition.invalid, current)
      | next :: rest =>
        if next.start > otherFinish then (LifetimePosition.invalid, current)
        else
          firstIntersectionFrom finish otherFinish butNotPast (next :: rest) (b :: bs)
            (advanceLastProcessedMarker current (next :: rest) butNotPast)
    else firstIntersectionFrom finish otherFinish butNotPast (a :: as) bs current
  termination_by as bs => as.length + bs.length

def firstIntersection (other : LiveRange) : Int × Part :=
  match other.intervals with
  | [] => (LifetimePosition.invalid, part)
  | b :: bs =>
    let (a, current) := part.firstSearchIntervalForPosition b.start
    let (answer, current) :=
      firstIntersectionFrom part.finish other.finish b.start a (b :: bs) current
    (answer, { part with current := current })

/-- The use, with those behind it, and the range with its new `last_processed_use_`. -/
def nextUsePosition (start : Int) : List UsePosition × Part :=
  let from_ := if part.lastProcessedUse = [] then part.uses else part.lastProcessedUse
  let usePos := from_.dropWhile fun use => use.pos < start
  (usePos, { part with lastProcessedUse := usePos })

def nextUsePositionRegisterIsBeneficial (start : Int) : List UsePosition × Part :=
  let (usePos, part) := part.nextUsePosition start
  (usePos.dropWhile fun use => !use.registerBeneficial, part)

def nextRegisterPosition (start : Int) : List UsePosition × Part :=
  let (usePos, part) := part.nextUsePosition start
  (usePos.dropWhile fun use => !use.requiresReg, part)

/-- Where the intervals of a range are cut. -/
structure Cut where
  /-- The last interval before the cut, and those behind it, before they are cut. -/
  at_ : List UseInterval
  before : UseInterval
  after : List UseInterval
  splitAtStart : Bool

/-- The loop of `SplitAt`. -/
def cut (position : Int) : List UseInterval → Option Cut
  | [] => none
  | current :: rest =>
    if current.contains position then
      (current.splitAt position).map fun (before, after) =>
        ⟨current :: rest, before, after :: rest, false⟩
    else
      match rest with
      | [] => none
      | next :: _ =>
        if next.start ≥ position then some ⟨current :: rest, current, rest, next.start = position⟩
        else cut position rest

/-- Where the loop of `SplitAt` starts. -/
def cutStart (position : Int) : List UseInterval :=
  let current := (part.firstSearchIntervalForPosition position).1
  if current.head?.map UseInterval.start = some position then part.intervals else current

/-- `SplitAt`: the range before the position, and its new child. -/
def splitAt (position : Int) : Option (Part × Part) :=
  if part.intervals ≠ [] ∧ part.start < position then
    (cut position (part.cutStart position)).map fun c =>
      let isBefore := fun use : UsePosition =>
        if c.splitAtStart then decide (use.pos < position) else decide (use.pos ≤ position)
      ({ intervals := part.intervals.take (part.intervals.length - c.at_.length) ++ [c.before]
         last := some c.before
         uses := part.uses.takeWhile isBefore
         current := []
         lastProcessedUse := [] },
       { intervals := c.after
         last := if part.last = c.at_.head? then c.after.head? else part.last
         uses := part.uses.dropWhile isBefore
         current := []
         lastProcessedUse := [] })
  else none

end Part

end W16.Lithium
