import W16.LiveRange

/-!
# Pointer maps

`PopulatePointerMaps` walks the live ranges and, for each, the safe points from a
cursor on. The cursor and the two early exits skip only safe points at which no
part of the range is live, so the result is that of the plain double loop. The
part of a range that is looked up is the one in the gap before the instruction.
-/
namespace W16.Lithium

open LifetimePosition List

set_option linter.dupNamespace false

structure LPointerMap where
  lithiumPosition : Int
  pointerOperands : List LOperand
  deriving DecidableEq, Repr

/-- Incoming arguments are not recorded as pointers. -/
def LOperand.isArgumentSlot : LOperand → Bool
  | .stackSlot index => index < 0
  | _ => false

def LPointerMap.recordPointer (map : LPointerMap) (op : LOperand) : LPointerMap :=
  if op.isArgumentSlot then map
  else { map with pointerOperands := map.pointerOperands ++ [op] }

/-- What the chunk knows of an instruction. The operands are those that the
constraints and the control flow have put into its pointer map. -/
structure LInstruction where
  isControl : Bool
  isMarkedAsCall : Bool
  pointerMap : Option (List LOperand)

/-- The instructions, with `none` for a gap, and their pointer maps. -/
structure LChunk where
  instructions : List (Option LInstruction)
  pointerMaps : List LPointerMap

def LChunk.addInstruction (chunk : LChunk) (instr : LInstruction) : LChunk :=
  let index := if instr.isControl then chunk.instructions.length + 1 else chunk.instructions.length
  { instructions :=
      chunk.instructions ++ if instr.isControl then [none, some instr] else [some instr, none]
    pointerMaps := chunk.pointerMaps ++ match instr.pointerMap with
      | some operands => [⟨index, operands⟩]
      | none => [] }

def LChunk.build (instrs : List LInstruction) : LChunk :=
  instrs.foldl LChunk.addInstruction ⟨[], []⟩

/-- An entry of `live_ranges()`: `NULL`, a child, or a top-level range. -/
inductive Entry where
  | null
  | child
  | topLevel (t : TopLevel)

/-- The position whose part of a range is looked up for a safe point. -/
def lookupPosition (safePoint : Int) : Int := prevInstruction (fromInstructionIndex safePoint)

namespace TopLevel

variable (t : TopLevel)

/-- The part that `PopulatePointerMaps` finds for a safe point. -/
def partAt (safePoint : Int) : Option LiveRange :=
  t.chain.find? fun part => part.covers (lookupPosition safePoint)

/-- Check if the live range is spilled and the safe point is after the spill
position. -/
def recordSpill (map : LPointerMap) : LPointerMap :=
  match t.spillOperand with
  | some op => if t.spillStartIndex ≤ map.lithiumPosition then map.recordPointer op else map
  | none => map

/-- The body of the loop over the safe points. -/
def recordAt (map : LPointerMap) : LPointerMap :=
  match t.partAt map.lithiumPosition with
  | none => map
  | some cur =>
    let recorded := t.recordSpill map
    if cur.spilled then recorded else recorded.recordPointer (t.createAssignedOperand cur)

/-- The last instruction index of the range and its children. -/
def endIndex : Int := t.chain.foldl (fun e part => max e (instructionIndex part.finish)) 0

/-- The loop over the safe points from the cursor on, with its early exit. -/
def recordFrom : List LPointerMap → List LPointerMap
  | [] => []
  | map :: rest =>
    if map.lithiumPosition - 1 > t.endIndex then map :: rest
    else t.recordAt map :: recordFrom rest

end TopLevel

/-- `first_safe_point_index`, `last_range_start` and the pointer maps. -/
structure Cursor where
  firstSafePointIndex : Nat
  lastRangeStart : Int
  pointerMaps : List LPointerMap

/-- Step across all the safe points that are before the start of the range. -/
def stepAcross (start : Int) (maps : List LPointerMap) (index : Nat) : Nat :=
  index + ((maps.drop index).takeWhile fun map => map.lithiumPosition < start).length

def Cursor.visitRange (cursor : Cursor) (t : TopLevel) : Cursor :=
  let start := instructionIndex t.range.start
  let first := if start < cursor.lastRangeStart then 0 else cursor.firstSafePointIndex
  let index := stepAcross start cursor.pointerMaps first
  ⟨index, start, cursor.pointerMaps.take index ++ t.recordFrom (cursor.pointerMaps.drop index)⟩

/-- The body of the loop over `live_ranges()`. -/
def Cursor.visit (hasTaggedValue : Nat → Bool) (cursor : Cursor) : Entry → Cursor
  | .topLevel t =>
    if !hasTaggedValue t.id then cursor
    else if t.range.isEmpty then cursor
    else cursor.visitRange t
  | _ => cursor

variable {t : TopLevel} {maps : List LPointerMap}

@[simp] theorem recordPointer_position (map : LPointerMap) (op : LOperand) :
    (map.recordPointer op).lithiumPosition = map.lithiumPosition := by
  unfold LPointerMap.recordPointer
  split <;> rfl

@[simp] theorem recordSpill_position (map : LPointerMap) :
    (t.recordSpill map).lithiumPosition = map.lithiumPosition := by
  grind [TopLevel.recordSpill, recordPointer_position]

variable {part : LiveRange} {map : LPointerMap} {cursor : Cursor} {op : LOperand}

end W16.Lithium
