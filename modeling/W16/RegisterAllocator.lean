import Mathlib.Logic.Function.Basic
import W16.LiveRange

/-!
# The loop of the register allocator

`AllocateRegisters` takes the ranges in the order of their starts. A range gets a register that is
free, or one that is taken from other ranges, or it is spilled; what is split off of a range is
handled later. An assertion that does not hold stops the allocator when assertions are checked.
-/
namespace W16.Lithium

open LifetimePosition

set_option linter.dupNamespace false

/-- An assertion does not hold, or `NULL` is dereferenced. -/
inductive Failure where
  | assertion
  | null
  deriving DecidableEq, Repr

/-- A `LiveRange`, with pointers to other ranges. -/
structure AllocatedRange where
  id : Int
  part : Part
  spilled : Bool
  assignedRegister : Option Nat
  parent : Option Nat
  next : Option Nat
  /-- `spill_operand_`, if it is allocated. -/
  spillOperand : Option LOperand
  deriving DecidableEq, Repr

instance : Inhabited AllocatedRange := ⟨⟨0, ⟨[], none, [], [], []⟩, false, none, none, none, none⟩⟩

def AllocatedRange.isFixed (range : AllocatedRange) : Bool := range.id < 0

def LOperand.index : LOperand → Int
  | .constantOperand index => index
  | .stackSlot index => index
  | .doubleStackSlot index => index
  | .register index => index
  | .doubleRegister index => index
  | _ => 0

/-- The ranges that exist, and what the loop changes. The last one of `unhandled_live_ranges_` is
the head. -/
structure Allocation where
  ranges : List AllocatedRange
  unhandled : List Nat
  active : List Nat
  inactive : List Nat
  reusableSlots : List Nat
  nextVirtualRegister : Int
  spillSlotCount : Int
  deriving DecidableEq, Repr

/-- The blocks of the code, by their ids. A loop header comes before the blocks of its loop. -/
structure Chunk where
  getBlock : Int → Nat
  parentLoopHeader : Nat → Option Nat
  isLoopHeader : Nat → Bool
  firstInstructionIndex : Nat → Int
  isGapAt : Int → Bool
  isControl : Int → Bool
  parent_lt : ∀ {b h}, parentLoopHeader b = some h → h < b
  parent_first : ∀ {b h}, parentLoopHeader b = some h → firstInstructionIndex h ≤ firstInstructionIndex b
  getBlock_first : ∀ {pos}, 0 ≤ pos → firstInstructionIndex (getBlock pos) ≤ instructionIndex pos

/-- What the loop only reads. `hinted` is `FirstPosWithHint`, with the register of the hint;
hints are operands of other ranges. -/
structure LAllocator extends Chunk where
  checked : Bool
  numRegisters : Nat
  isDouble : Bool
  nextSpillIndex : Int → Int × Int
  hinted : Allocation → Nat → Option (Int × Option Nat)

namespace Allocation

variable (s : Allocation) (r : Nat)

def range : AllocatedRange := s.ranges.getD r default

def setRange (range : AllocatedRange) : Allocation := { s with ranges := s.ranges.set r range }

def setPart (part : Part) : Allocation := s.setRange r { s.range r with part := part }

def start : Int := (s.range r).part.start

def finish : Int := (s.range r).part.finish

def topLevel : Nat := (s.range r).parent.getD r

def covers (position : Int) : Bool × Allocation :=
  let (answer, part) := (s.range r).part.covers position
  (answer, s.setPart r part)

/-- `FirstIntersection` with another range. -/
def firstIntersection (other : Nat) : Int × Allocation :=
  let part := (s.range r).part
  match (s.range other).part.intervals with
  | [] => (LifetimePosition.invalid, s)
  | b :: bs =>
    let (a, current) := part.firstSearchIntervalForPosition b.start
    let (answer, current) :=
      Part.firstIntersectionFrom part.finish (s.finish other) b.start a (b :: bs) current
    (answer, s.setPart r { part with current := current })

def nextUsePositionRegisterIsBeneficial (start : Int) : Option Int × Allocation :=
  let (uses, part) := (s.range r).part.nextUsePositionRegisterIsBeneficial start
  (uses.head?.map UsePosition.pos, s.setPart r part)

def nextRegisterPosition (start : Int) : Option Int × Allocation :=
  let (uses, part) := (s.range r).part.nextRegisterPosition start
  (uses.head?.map UsePosition.pos, s.setPart r part)

def canBeSpilled (pos : Int) : Bool × Allocation :=
  if pos ≤ s.start r ∧ (s.range r).assignedRegister ≠ none then (false, s)
  else
    match s.nextRegisterPosition r pos with
    | (none, s) => (true, s)
    | (some use, s) => (use > nextInstruction pos, s)

/-- Starts that do not get smaller, from the last range of the list to the first. -/
def isSorted : List Int → Bool
  | a :: b :: rest => a ≤ b && isSorted (b :: rest)
  | _ => true

def unhandledIsSorted : Bool := isSorted (s.unhandled.map s.start)

def freeSpillSlot : Allocation :=
  if (s.range r).next ≠ none then s
  else
    match (s.range (s.topLevel r)).spillOperand with
    | none => s
    | some operand =>
      if 0 ≤ operand.index then { s with reusableSlots := s.reusableSlots ++ [r] } else s

def tryReuseSpillSlot : Option (LOperand × Allocation) :=
  match s.reusableSlots with
  | [] => none
  | first :: rest =>
    if s.finish first > s.start (s.topLevel r) then none
    else
      some (((s.range (s.topLevel first)).spillOperand).getD .unallocated, { s with reusableSlots := rest })

end Allocation

namespace LAllocator

open Allocation

variable (A : LAllocator)

def assert (condition : Bool) : Except Failure Unit :=
  if A.checked && !condition then .error .assertion else .ok ()

def shouldBeAllocatedBefore (s : Allocation) (r other : Nat) : Bool :=
  if s.start r = s.start other then
    match A.hinted s r with
    | none => false
    | some (pos, _) => (s.range other).part.uses.head?.elim true fun use => pos < use.pos
  else s.start r < s.start other

def insertUnhandled (before : Nat → Bool) (r : Nat) : List Nat → List Nat
  | [] => [r]
  | current :: rest =>
    if before current then r :: current :: rest else current :: insertUnhandled before r rest

def addToUnhandledSorted (s : Allocation) (r : Nat) : Except Failure Allocation :=
  if (s.range r).part.intervals = [] then .ok s
  else do
    A.assert ((s.range r).assignedRegister = none && !(s.range r).spilled)
    let s := { s with
      unhandled := insertUnhandled (A.shouldBeAllocatedBefore s r) r s.unhandled }
    A.assert s.unhandledIsSorted
    .ok s

/-- `GetNextSpillSlot`. -/
def getNextSpillSlot (s : Allocation) : LOperand × Allocation :=
  let (index, count) := A.nextSpillIndex s.spillSlotCount
  (if A.isDouble then .doubleStackSlot index else .stackSlot index, { s with spillSlotCount := count })

/-- The part of `Spill` that gives the top-level range a spill operand. -/
def allocateSpillOperand (s : Allocation) (r : Nat) : Allocation :=
  let first := s.topLevel r
  if (s.range first).spillOperand ≠ none then s
  else
    let (operand, s) := (s.tryReuseSpillSlot r).getD (A.getNextSpillSlot s)
    s.setRange first { s.range first with spillOperand := some operand }

def spill (s : Allocation) (r : Nat) : Except Failure Allocation := do
  A.assert !(s.range r).spilled
  let s := A.allocateSpillOperand s r
  .ok (s.setRange r { s.range r with spilled := true, assignedRegister := none })

/-- `SplitAt` of the allocator; the result is a new range, or the whole range. -/
def splitAt (s : Allocation) (r : Nat) (pos : Int) : Except Failure (Allocation × Nat) := do
  A.assert !(s.range r).isFixed
  if pos ≤ s.start r then .ok (s, r)
  else do
    A.assert (isInstructionStart pos || !A.isControl (instructionIndex pos))
    match (s.range r).part.splitAt pos with
    | none => .error .null
    | some (part, child) =>
      let range := s.range r
      let result : AllocatedRange :=
        { id := s.nextVirtualRegister, part := child, spilled := false, assignedRegister := none
          parent := some (range.parent.getD r), next := range.next, spillOperand := none }
      .ok ({ s with
        ranges := s.ranges.set r { range with part := part, next := some s.ranges.length } ++ [result]
        nextVirtualRegister := s.nextVirtualRegister + 1 }, s.ranges.length)

/-- The loop of `FindOptimalSplitPos`. The ids of the headers get smaller. -/
def outermostLoop (startBlock : Nat) : Nat → Nat → Nat
  | 0, block => block
  | bound + 1, block =>
    match A.parentLoopHeader block with
    | none => block
    | some header => if header > startBlock then outermostLoop startBlock bound header else block

def findOptimalSplitPos (start finish : Int) : Except Failure Int := do
  A.assert (instructionIndex start ≤ instructionIndex finish)
  let startBlock := A.getBlock start
  let endBlock := A.getBlock finish
  let block := A.outermostLoop startBlock endBlock endBlock
  if instructionIndex start = instructionIndex finish then .ok finish
  else if endBlock = startBlock then .ok finish
  else if block = endBlock ∧ A.isLoopHeader endBlock = false then .ok finish
  else .ok (fromInstructionIndex (A.firstInstructionIndex block))

def splitBetween (s : Allocation) (r : Nat) (start finish : Int) : Except Failure (Allocation × Nat) := do
  A.assert !(s.range r).isFixed
  let splitPos ← A.findOptimalSplitPos start finish
  A.assert (splitPos ≥ start)
  A.splitAt s r splitPos

def spillAfter (s : Allocation) (r : Nat) (pos : Int) : Except Failure Allocation := do
  let (s, secondPart) ← A.splitAt s r pos
  A.spill s secondPart

def spillBetween (s : Allocation) (r : Nat) (start finish : Int) : Except Failure Allocation := do
  A.assert (start < finish)
  let (s, secondPart) ← A.splitAt s r start
  if s.start secondPart < finish then do
    let (s, thirdPart) ← A.splitBetween s secondPart (instructionEnd (s.start secondPart))
      (instructionEnd (prevInstruction finish))
    A.assert (thirdPart ≠ secondPart)
    let s ← A.spill s secondPart
    A.addToUnhandledSorted s thirdPart
  else A.addToUnhandledSorted s secondPart

def activeToHandled (s : Allocation) (r : Nat) : Except Failure Allocation := do
  A.assert (s.active.contains r)
  .ok ({ s with active := s.active.erase r }.freeSpillSlot r)

def activeToInactive (s : Allocation) (r : Nat) : Except Failure Allocation := do
  A.assert (s.active.contains r)
  .ok { s with active := s.active.erase r, inactive := s.inactive ++ [r] }

def inactiveToHandled (s : Allocation) (r : Nat) : Except Failure Allocation := do
  A.assert (s.inactive.contains r)
  .ok ({ s with inactive := s.inactive.erase r }.freeSpillSlot r)

def inactiveToActive (s : Allocation) (r : Nat) : Except Failure Allocation := do
  A.assert (s.inactive.contains r)
  .ok { s with inactive := s.inactive.erase r, active := s.active ++ [r] }

def setAssignedRegister (s : Allocation) (r reg : Nat) : Except Failure Allocation := do
  A.assert ((s.range r).assignedRegister = none && !(s.range r).spilled)
  .ok (s.setRange r { s.range r with assignedRegister := some reg })

/-- `LifetimePosition::MaxPosition()`. -/
def maxPosition : Int := 2147483647

/-- The register with the largest position, the first one of them. -/
def longest (position : Nat → Int) : Nat :=
  (List.range' 1 (A.numRegisters - 1)).foldl (fun reg i => if position i > position reg then i else reg) 0

/-- Set the position of the register of a range. -/
def setPosition (position : Nat → Int) (range : AllocatedRange) (value : Int) : Nat → Int :=
  range.assignedRegister.elim position fun reg => Function.update position reg value

/-- The position of the register of a range. -/
def positionOf (position : Nat → Int) (range : AllocatedRange) : Int :=
  range.assignedRegister.elim maxPosition position

/-- The second loop of `TryAllocateFreeReg`. -/
def freeUntilInactive (current : Nat) (acc : (Nat → Int) × Allocation) (r : Nat) :
    Except Failure ((Nat → Int) × Allocation) := do
  let (freeUntil, s) := acc
  A.assert (s.finish r > s.start current)
  let (nextIntersection, s) := s.firstIntersection r current
  if nextIntersection = LifetimePosition.invalid then .ok (freeUntil, s)
  else
    .ok (setPosition freeUntil (s.range r) (min (positionOf freeUntil (s.range r)) nextIntersection), s)

def tryAllocateFreeReg (s : Allocation) (current : Nat) : Except Failure (Allocation × Bool) := do
  let freeUntil := s.active.foldl (fun freeUntil r => setPosition freeUntil (s.range r) 0)
    fun _ => maxPosition
  let (freeUntil, s) ← s.inactive.foldlM (A.freeUntilInactive current) (freeUntil, s)
  let preferred := (A.hinted s current).elim none Prod.snd
  if preferred.elim false (fun reg => freeUntil reg ≥ s.finish current) then do
    let s ← A.setAssignedRegister s current (preferred.getD 0)
    .ok (s, true)
  else
    let reg := A.longest freeUntil
    let pos := freeUntil reg
    if pos ≤ s.start current then .ok (s, false)
    else do
      let s ←
        if pos < s.finish current then do
          let (s, tail) ← A.splitAt s current pos
          A.addToUnhandledSorted s tail
        else .ok s
      A.assert (pos ≥ s.finish current)
      let s ← A.setAssignedRegister s current reg
      .ok (s, true)

/-- `use_pos` and `block_pos`. -/
structure RegisterPositions where
  use : Nat → Int
  block : Nat → Int

/-- The first loop of `AllocateBlockedReg`. -/
def blockActive (current : Nat) (acc : RegisterPositions × Allocation) (r : Nat) :
    RegisterPositions × Allocation :=
  let (positions, s) := acc
  let (spillable, s) :=
    if (s.range r).isFixed then (false, s) else s.canBeSpilled r (s.start current)
  if spillable then
    let (nextUse, s) := s.nextUsePositionRegisterIsBeneficial r (s.start current)
    ({ positions with
      use := setPosition positions.use (s.range r) (nextUse.getD (s.finish r)) }, s)
  else
    ({ use := setPosition positions.use (s.range r) 0
       block := setPosition positions.block (s.range r) 0 }, s)

/-- The second loop of `AllocateBlockedReg`. -/
def blockInactive (current : Nat) (acc : RegisterPositions × Allocation) (r : Nat) :
    Except Failure (RegisterPositions × Allocation) := do
  let (positions, s) := acc
  A.assert (s.finish r > s.start current)
  let (nextIntersection, s) := s.firstIntersection r current
  let range := s.range r
  if nextIntersection = LifetimePosition.invalid then .ok (positions, s)
  else if range.isFixed then
    let block := setPosition positions.block range
      (min (positionOf positions.block range) nextIntersection)
    .ok ({ use := setPosition positions.use range
             (min (positionOf block range) (positionOf positions.use range))
           block := block }, s)
  else
    .ok ({ positions with
      use := setPosition positions.use range (min (positionOf positions.use range) nextIntersection) }, s)

/-- The first loop of `SplitAndSpillIntersecting`. -/
def splitAndSpillActive (reg : Nat) (splitPos : Int) (s : Allocation) (r : Nat) : Except Failure Allocation :=
  if (s.range r).assignedRegister = some reg then do
    let (nextPos, s) := s.nextRegisterPosition r splitPos
    let s ←
      match nextPos with
      | none => A.spillAfter s r splitPos
      | some pos => A.spillBetween s r splitPos pos
    A.activeToHandled s r
  else .ok s

/-- The second loop of `SplitAndSpillIntersecting`. -/
def splitAndSpillInactive (current reg : Nat) (splitPos : Int) (s : Allocation) (r : Nat) :
    Except Failure Allocation := do
  A.assert (s.finish r > splitPos)
  if (s.range r).assignedRegister = some reg ∧ (s.range r).isFixed = false then
    let (nextIntersection, s) := s.firstIntersection r current
    if nextIntersection = LifetimePosition.invalid then .ok s
    else do
      let (nextPos, s) := s.nextRegisterPosition r splitPos
      let s ←
        match nextPos with
        | none => A.spillAfter s r splitPos
        | some pos => A.spillBetween s r splitPos (min nextIntersection pos)
      A.inactiveToHandled s r
  else .ok s

def splitAndSpillIntersecting (s : Allocation) (current reg : Nat) : Except Failure Allocation := do
  let splitPos := s.start current
  let s ← s.active.foldlM (A.splitAndSpillActive reg splitPos) s
  s.inactive.foldlM (A.splitAndSpillInactive current reg splitPos) s

def allocateBlockedReg (s : Allocation) (current : Nat) : Except Failure Allocation :=
  match s.nextRegisterPosition current (s.start current) with
  | (none, s) => A.spill s current
  | (some registerUse, s) => do
    let (positions, s) := s.active.foldl (blockActive current)
      (⟨fun _ => maxPosition, fun _ => maxPosition⟩, s)
    let (positions, s) ← s.inactive.foldlM (A.blockInactive current) (positions, s)
    let reg := A.longest positions.use
    if positions.use reg < registerUse then do
      A.assert (s.start current < registerUse)
      A.spillBetween s current (s.start current) registerUse
    else do
      let s ←
        if positions.block reg < s.finish current then do
          let (s, tail) ← A.splitBetween s current (s.start current)
            (instructionStart (positions.block reg))
          A.addToUnhandledSorted s tail
        else .ok s
      A.assert (positions.block reg ≥ s.finish current)
      let s ← A.setAssignedRegister s current reg
      A.splitAndSpillIntersecting s current reg

def updateActive (position : Int) (s : Allocation) (r : Nat) : Except Failure Allocation :=
  if s.finish r ≤ position then A.activeToHandled s r
  else
    match s.covers r position with
    | (true, s) => .ok s
    | (false, s) => A.activeToInactive s r

def updateInactive (position : Int) (s : Allocation) (r : Nat) : Except Failure Allocation :=
  if s.finish r ≤ position then A.inactiveToHandled s r
  else
    match s.covers r position with
    | (true, s) => A.inactiveToActive s r
    | (false, s) => .ok s

/-- The part of an iteration that gives the range a register, or spills it. -/
def allocate (s : Allocation) (current : Nat) : Except Failure Allocation := do
  let position := s.start current
  let s ← s.active.foldlM (A.updateActive position) s
  let s ← s.inactive.foldlM (A.updateInactive position) s
  A.assert ((s.range current).assignedRegister = none && !(s.range current).spilled)
  let (s, result) ← A.tryAllocateFreeReg s current
  let s ← if result then .ok s else A.allocateBlockedReg s current
  if (s.range current).assignedRegister ≠ none then
    .ok { s with active := s.active ++ [current] }
  else .ok s

end LAllocator

end W16.Lithium
