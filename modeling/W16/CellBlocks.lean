import Mathlib.Logic.Function.Basic
import Mathlib.Data.List.Basic

/-!
# The blocks of a `CellMap`

`CellMap` as it lies in memory: chained blocks of cell pairs, a pointer to the pointer to
the last block, and an index that nothing initialises before the first block. Four methods
walk over the blocks; the walk is one definition that each of them applies to its own body.
A read of the index before it is written, or a chain that does not end, is a fault.
-/
namespace W16.CellBlocks

open Function

variable {α : Type}

structure CellPair (α : Type) where
  from_ : α
  to_ : α
  deriving DecidableEq, Repr

def blockSize : Nat := 100

structure Block (α : Type) where
  cells : Nat → CellPair α
  next : Option Nat

/-- A `Block**`: the address of `first_block_`, or of the `next_` of a block. -/
inductive Link where
  | first
  | next (block : Nat)
  deriving DecidableEq, Repr

/-- A pair of a block. Its handle location is the address of the pair's `to_`. -/
structure Cell where
  block : Nat
  index : Nat
  deriving DecidableEq, Repr

/-- `memory` holds the blocks at their addresses, `allocated` lists those that `malloc` returned. -/
structure CellMap (α : Type) where
  memory : Nat → Block α
  allocated : List Nat
  firstBlock : Option Nat
  lastBlockAddress : Link
  index : Option Nat
  locationSet : List Cell
  objectMap : α → Option Cell

namespace CellMap

def new (memory : Nat → Block α) : CellMap α := ⟨memory, [], none, .first, none, [], fun _ => none⟩

/-- `*last_block_address_`, read and written. -/
def deref (m : CellMap α) : Link → Option Nat
  | .first => m.firstBlock
  | .next block => (m.memory block).next

def store (m : CellMap α) (p : Option Nat) : Link → CellMap α
  | .first => { m with firstBlock := p }
  | .next block => { m with memory := update m.memory block { m.memory block with next := p } }

def pair (m : CellMap α) (c : Cell) : CellPair α := (m.memory c.block).cells c.index

def writePair (m : CellMap α) (c : Cell) (p : CellPair α) : CellMap α :=
  let block := m.memory c.block
  { m with memory := update m.memory c.block { block with cells := update block.cells c.index p } }

/-! ## The walk -/

/-- How a walk is left before its end. -/
inductive Exit (ρ : Type) where
  | return (result : ρ)
  | uninitialised
  | endless
  deriving DecidableEq, Repr

variable {σ ρ : Type}

/-- `for (int i = 0; i < limit; i++)` over the cells of a block. -/
def visitCells (visit : Cell → σ → Except (Exit ρ) σ) (block : Nat) : Nat → σ → Except (Exit ρ) σ
  | 0, s => .ok s
  | limit + 1, s => visitCells visit block limit s >>= visit ⟨block, limit⟩

/-- The `while` loop over full blocks, and the last block after it. -/
def walkFrom (m : CellMap α) (visit : Cell → σ → Except (Exit ρ) σ) : Nat → Option Nat → σ → Except (Exit ρ) σ
  | 0, _, _ => .error .endless
  | _ + 1, none, s => .ok s
  | fuel + 1, some block, s =>
    if some block ≠ m.deref m.lastBlockAddress then do
      let s ← visitCells visit block blockSize s
      walkFrom m visit fuel (m.memory block).next s
    else
      match m.index with
      | none => .error .uninitialised
      | some index => visitCells visit block index s

/-- The visits write cells only, so the chain is that of the start. -/
def walk (m : CellMap α) (visit : Cell → σ → Except (Exit ρ) σ) (s : σ) : Except (Exit ρ) σ :=
  walkFrom m visit (m.allocated.length + 1) m.firstBlock s

/-- The cell of a visit is recorded until one of the visits leaves the walk. -/
def record (visit : Cell → σ → Except (Exit ρ) σ) (c : Cell) (s : Option σ × List Cell) :
    Except (Exit Empty) (Option σ × List Cell) :=
  .ok (s.1.elim s fun before => ((visit c before).toOption, s.2 ++ [c]))

/-- The cells that a walk visits, in their order. -/
def visits (m : CellMap α) (visit : Cell → σ → Except (Exit ρ) σ) (s : σ) : List Cell :=
  match walk m (record visit) (some s, []) with
  | .ok (_, cells) => cells
  | .error _ => []

/-! ## The methods -/

section Methods

variable [DecidableEq α]

/-- `object_map_.insert` keeps the entry that a key has. -/
def insertObject (objectMap : α → Option Cell) (object : α) (c : Cell) : α → Option Cell :=
  if (objectMap object).isSome then objectMap else update objectMap object (some c)

def insertPair (m : CellMap α) (c : Cell) (objectMap : α → Option Cell) :
    Except (Exit Empty) (α → Option Cell) :=
  .ok (insertObject objectMap (m.pair c).from_ c)

def rebuildObjectMap (m : CellMap α) : Except (Exit Empty) (CellMap α) := do
  let objectMap ← walk m (insertPair m) fun _ => none
  return { m with objectMap := objectMap }

/-- `VisitPointer` of a visitor with a state of its own, on the two words of a pair. -/
def visitPair (visitPointer : α → σ → α × σ) (c : Cell) (s : CellMap α × Bool × σ) :
    Except (Exit Empty) (CellMap α × Bool × σ) :=
  let oldFrom := (s.1.pair c).from_
  let from' := visitPointer oldFrom s.2.2
  let to' := visitPointer (s.1.pair c).to_ from'.2
  .ok (s.1.writePair c ⟨from'.1, to'.1⟩, s.2.1 || decide (from'.1 ≠ oldFrom), to'.2)

def iterate (m : CellMap α) (visitPointer : α → σ → α × σ) (s : σ) : Except (Exit Empty) (CellMap α × σ) := do
  let (m, changes, s) ← walk m (visitPair visitPointer) (m, false, s)
  if changes then return (← rebuildObjectMap m, s)
  else return (m, s)

def isMapped (m : CellMap α) (location : Cell) : Bool := location ∈ m.locationSet

def getMapping (m : CellMap α) (object : α) : Option Cell := m.objectMap object

/-- `malloc` returns a block with arbitrary contents, which is stored where the chain ends. -/
def extend (m : CellMap α) (block : Nat) (cells : Nat → CellPair α) : CellMap α :=
  let m := { m with memory := update m.memory block ⟨cells, none⟩, allocated := m.allocated ++ [block] }
  { m.store (some block) m.lastBlockAddress with index := some 0 }

def ensureBlock (m : CellMap α) (block : Nat) (cells : Nat → CellPair α) : CellMap α :=
  if m.deref m.lastBlockAddress = none then m.extend block cells else m

/-- The location of the new cell. `none` stands for a null pointer or an index not initialised. -/
def addMapping (m : CellMap α) (block : Nat) (cells : Nat → CellPair α) (object redirect : α) :
    Option (CellMap α × Cell) := do
  let m := m.ensureBlock block cells
  let last ← m.deref m.lastBlockAddress
  let index ← m.index
  let cell : Cell := ⟨last, index⟩
  let m := m.writePair cell ⟨object, redirect⟩
  let m := { m with
    index := some (index + 1)
    locationSet := cell :: m.locationSet
    objectMap := insertObject m.objectMap object cell }
  if index + 1 = blockSize then some ({ m with lastBlockAddress := .next last }, cell)
  else some (m, cell)

def copyPair {H : Type} (m : CellMap α) (copyBlock : H → α → α → H) (c : Cell) (heap : H) :
    Except (Exit Empty) H :=
  .ok (copyBlock heap (m.pair c).from_ (m.pair c).to_)

def commitChanges {H : Type} (m : CellMap α) (copyBlock : H → α → α → H) (heap : H) : Except (Exit Empty) H :=
  walk m (copyPair m copyBlock) heap

def testPair (m other : CellMap α) (c : Cell) (_ : Unit) : Except (Exit Bool) Unit :=
  if m.getMapping (other.pair c).from_ ≠ none then .error (.return true) else .ok ()

def intersects (m other : CellMap α) : Except (Exit Empty) Bool :=
  match walk other (testPair m other) () with
  | .ok () => .ok false
  | .error (.return result) => .ok result
  | .error .uninitialised => .error .uninitialised
  | .error .endless => .error .endless

end Methods

end CellMap

end W16.CellBlocks
