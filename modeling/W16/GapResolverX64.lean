import W16.GapResolverRun
import W16.LithiumMoves
import Mathlib.Tactic.SplitIfs

/-!
# Gap resolution on x64

`LGapResolver` of the x64 port emits moves between registers and slots of the frame and
swaps them where moves form a cycle. It uses `kScratchRegister` and `xmm0`, which the
register allocator does not know.
-/
namespace W16.X64

open Lithium MoveOperands GapResolver Function

/-- The places of a machine state: registers by their allocation index, words of the frame by their
distance from the frame pointer, and the two scratch registers. -/
inductive Loc where
  | reg (index : Nat)
  | xmm (index : Nat)
  | word (offset : Int)
  | scratch
  | xmm0
  deriving DecidableEq, Repr

abbrev Machine := Loc → BitVec 64

inductive Instr where
  | movq (dst src : Loc)
  | movsd (dst src : Loc)
  | movaps (dst src : Loc)
  | xchg (dst src : Loc)
  | movl (dst : Loc) (imm : BitVec 32)
  | load (dst : Loc) (imm : BitVec 64)
  deriving DecidableEq, Repr

/-- A 32 bit move clears the upper half of a register and leaves that of a word of memory alone. -/
def movl (m : Machine) (dst : Loc) (imm : BitVec 32) : BitVec 64 :=
  match dst with
  | .word _ => (m dst).extractLsb' 32 32 ++ imm
  | _ => imm.setWidth 64

@[simp]
def exec (m : Machine) : Instr → Machine
  | .movq dst src | .movsd dst src | .movaps dst src => update m dst (m src)
  | .xchg dst src => update (update m dst (m src)) src (m dst)
  | .movl dst imm => update m dst (movl m dst imm)
  | .load dst imm => update m dst imm

def run (code : List Instr) (m : Machine) : Machine := code.foldl exec m

/-- What the chunk knows of a constant: `IsInteger32Constant`, `ToInteger32`, `ToHandle`. -/
inductive Constant where
  | integer32 (value : BitVec 32)
  | handle (value : BitVec 64)
  deriving DecidableEq, Repr

@[simp]
def toRegister (op : Operand) : Loc := .reg op.index.toNat

@[simp]
def toDoubleRegister (op : Operand) : Loc := .xmm op.index.toNat

@[simp]
def toOperand (op : Operand) : Loc := .word (frameWord op.index)

/-- `Move` of an object to memory. The Smi 1 is in a register of its own. -/
def moveHandle (dst : Loc) (value : BitVec 64) : List Instr :=
  if value = 1 <<< 32 then [.load dst value] else [.load .scratch value, .movq dst .scratch]

/-- The instructions of `EmitMove`. -/
def moveCode (constants : Nat → Constant) (source destination : Operand) : List Instr :=
  match source with
  | .register _ =>
    if destination.isRegister then [.movq (toRegister destination) (toRegister source)]
    else [.movq (toOperand destination) (toRegister source)]
  | .stackSlot _ =>
    if destination.isRegister then [.movq (toRegister destination) (toOperand source)]
    else [.movq .scratch (toOperand source), .movq (toOperand destination) .scratch]
  | .constant c =>
    if destination.isRegister then
      match constants c with
      | .integer32 n => [.movl (toRegister destination) n]
      | .handle h => [.load (toRegister destination) h]
    else
      match constants c with
      -- The top 32 bits of an untagged integer are left as they are.
      | .integer32 n => [.movl (toOperand destination) n]
      | .handle h => moveHandle (toOperand destination) h
  | .doubleRegister _ =>
    if destination.isDoubleRegister then [.movaps (toDoubleRegister destination) (toDoubleRegister source)]
    else [.movsd (toOperand destination) (toDoubleRegister source)]
  | .doubleStackSlot _ =>
    if destination.isDoubleRegister then [.movsd (toDoubleRegister destination) (toOperand source)]
    else [.movsd .xmm0 (toOperand source), .movsd (toOperand destination) .xmm0]
  | .unallocated _ => []

/-- The instructions of `EmitSwap`. -/
def swapCode (source destination : Operand) : List Instr :=
  if source.isRegister && destination.isRegister then [.xchg (toRegister destination) (toRegister source)]
  else if (source.isRegister && destination.isStackSlot) || (source.isStackSlot && destination.isRegister) then
    let reg := toRegister (if source.isRegister then source else destination)
    let mem := toOperand (if source.isRegister then destination else source)
    [.movq .scratch mem, .movq mem reg, .movq reg .scratch]
  else if (source.isStackSlot && destination.isStackSlot) ||
      (source.isDoubleStackSlot && destination.isDoubleStackSlot) then
    let src := toOperand source
    let dst := toOperand destination
    [.movsd .xmm0 src, .movq .scratch dst, .movsd dst .xmm0, .movq src .scratch]
  else if source.isDoubleRegister && destination.isDoubleRegister then
    [.movaps .xmm0 (toDoubleRegister source), .movaps (toDoubleRegister source) (toDoubleRegister destination),
      .movaps (toDoubleRegister destination) .xmm0]
  else if source.isDoubleRegister || destination.isDoubleRegister then
    let reg := toDoubleRegister (if source.isDoubleRegister then source else destination)
    let other := toOperand (if source.isDoubleRegister then destination else source)
    [.movsd .xmm0 other, .movsd other reg, .movsd reg .xmm0]
  else []

/-- The resolver: its moves and the code emitted so far. -/
structure State where
  moves : Nat → MoveOperands Operand
  code : List Instr

def setDestination (s : State) (i : Nat) (o : Option Operand) : State :=
  { s with moves := update s.moves i ⟨(s.moves i).source, o⟩ }

def eliminate (s : State) (i : Nat) : State := { s with moves := update s.moves i eliminated }

def emit (s : State) (code : List Instr) : State := { s with code := s.code ++ code }

def emitMove (constants : Nat → Constant) (s : State) (index : Nat) : State :=
  match s.moves index with
  | ⟨some source, some destination⟩ => eliminate (emit s (moveCode constants source destination)) index
  | _ => eliminate s index

def emitSwap (s : State) (index : Nat) : State :=
  let source := (s.moves index).source
  let destination := (s.moves index).destination
  let s := match source, destination with
    | some source, some destination => eliminate (emit s (swapCode source destination)) index
    | _, _ => eliminate s index
  { s with moves := renameSources source destination s.moves }

def port (constants : Nat → Constant) (count : Nat) : Port State Operand where
  moves := State.moves
  setDestination := setDestination
  finish := finishBySwap State.moves eliminate emitSwap (emitMove constants) count

/-- `Resolve`: the code for a list of moves. -/
def resolve (constants : Nat → Constant) (parallelMove : List (MoveOperands Operand)) : Option (List Instr) := do
  let moves := buildInitialMoveList parallelMove
  let count := moves.length
  let B := port constants count
  let s ← performMoves B Operand.isConstant (performMove B count count) count ⟨moveAt moves, []⟩
  some (emitConstants B (emitMove constants) count s).code

/-- The words of an operand. -/
@[simp]
def locs : Operand → List Loc
  | .register n => [.reg n]
  | .doubleRegister n => [.xmm n]
  | .stackSlot i | .doubleStackSlot i => [.word (frameWord i)]
  | .constant _ | .unallocated _ => []

def IsScratch (l : Loc) : Prop := l = .scratch ∨ l = .xmm0

/-- The words hold the value that the source has in a state. Of an untagged integer only the lower
half counts. -/
def Delivers (constants : Nat → Constant) (m : Machine) (source : Operand) (v : List (BitVec 64)) : Prop :=
  match source with
  | .constant c =>
    match constants c with
    | .integer32 n => ∃ w, v = [w] ∧ w.setWidth 32 = n
    | .handle h => v = [h]
  | source => v = (locs source).map m

theorem locs_not_scratch (a : Operand) : ∀ l ∈ locs a, ¬IsScratch l := by
  cases a <;> simp [locs, IsScratch]

theorem delivers_variable {constants : Nat → Constant} {m : Machine} {a : Operand} {v : List (BitVec 64)}
    (h : a.isConstant = false) : Delivers constants m a v ↔ v = (locs a).map m := by
  cases a <;> simp_all [Delivers, Operand.isConstant]

theorem delivers_constant {constants : Nat → Constant} {m m' : Machine} {a : Operand} {v : List (BitVec 64)}
    (h : a.isConstant = true) : Delivers constants m a v ↔ Delivers constants m' a v := by
  cases a <;> simp_all [Delivers, Operand.isConstant]

theorem setWidth_append_low (x y : BitVec 32) : (x ++ y : BitVec 64).setWidth 32 = y := by
  grind

section Code

variable (constants : Nat → Constant) {a b : Operand} (m : Machine)

/-- `EmitMove` brings the value of the source to the destination. -/
theorem moveCode_spec (hkind : a.isGeneral = b.isGeneral) (ha : a.isUnallocated = false)
    (hb : b.isUnallocated = false) (hvar : b.isConstant = false) :
    (∀ l, l ∉ locs b → ¬IsScratch l → run (moveCode constants a b) m l = m l) ∧
      Delivers constants m a ((locs b).map (run (moveCode constants a b) m)) := by
  unfold IsScratch run
  cases a with
  | unallocated p => cases ha
  | constant c =>
    cases hc : constants c with
    | integer32 n => cases b <;> simp_all [moveCode, Delivers, movl, setWidth_append_low]
    | handle h =>
      by_cases hone : h = 1 <<< 32 <;> cases b <;> simp_all [moveCode, Delivers, moveHandle]
  | stackSlot i => cases b <;> simp_all [moveCode, Delivers]
  | doubleStackSlot i => cases b <;> simp_all [moveCode, Delivers]
  | register n => cases b <;> simp_all [moveCode, Delivers]
  | doubleRegister n => cases b <;> simp_all [moveCode, Delivers]

/-- `EmitSwap` exchanges the values of two different operands. -/
theorem swapCode_spec (hkind : a.isGeneral = b.isGeneral) (ha : a.isUnallocated = false)
    (hb : b.isUnallocated = false) (hconst : a.isConstant = false) (hvar : b.isConstant = false)
    (hdisj : ∀ l ∈ locs a, l ∉ locs b) :
    (∀ l, l ∉ locs a → l ∉ locs b → ¬IsScratch l → run (swapCode a b) m l = m l) ∧
      (locs b).map (run (swapCode a b) m) = (locs a).map m ∧
      (locs a).map (run (swapCode a b) m) = (locs b).map m := by
  have hdisj' : ∀ l ∈ locs b, l ∉ locs a := fun l hl hl' => hdisj l hl' hl
  unfold IsScratch run
  cases a with
  | unallocated p => cases ha
  | constant c => cases hconst
  | stackSlot i => cases b <;> simp_all [swapCode]
  | doubleStackSlot i => cases b <;> simp_all [swapCode]
  | register n => cases b <;> simp_all [swapCode]
  | doubleRegister n => cases b <;> simp_all [swapCode]

end Code

theorem run_append (code code' : List Instr) (m : Machine) : run (code ++ code') m = run code' (run code m) :=
  List.foldl_append

/-! ## The resolver -/

section Resolver

variable (constants : Nat → Constant) (moves : List (MoveOperands Operand))

/-- The parallel move of the list, from a machine state. -/
abbrev moveProblem (m₀ : Machine) : ParallelMove.Problem Operand Loc (BitVec 64) :=
  problem (fun x => x) locs Operand.isConstant Operand.isGeneral (fun _ => False) IsScratch (Delivers constants)
    moves m₀

/-- The code emitted so far has brought every machine to a state between the moves. -/
def Good (s : State) : Prop :=
  ∀ m₀, ParallelMove.Holding (moveProblem constants moves m₀) (run s.code m₀) (src s.moves)

variable {constants moves} (h : Parallel locs moves)

/-- A word that a step must leave alone. -/
theorem not_free {m₀ : Machine} {src : Nat → Option Operand} {l : Loc}
    (hl : ¬ParallelMove.Free (moveProblem constants moves m₀) src l) : ¬IsScratch l :=
  fun hs => hl (.inr ⟨hs, fun _ _ a _ hla => locs_not_scratch a l hla hs⟩)

include h

theorem wellFormed (m₀ : Machine) : ParallelMove.WellFormed (moveProblem constants moves m₀) :=
  h.wellFormed locs_not_scratch (fun _ hc _ => (delivers_variable hc).2 rfl) (fun _ _ e => e) (fun _ => rfl)
    (fun _ => rfl) fun _ hs => hs.elim

theorem destination_variable {i : Nat} (hi : i < (buildInitialMoveList moves).length) :
    (destinationAt (buildInitialMoveList moves) i).isConstant = false ∧
      (destinationAt (buildInitialMoveList moves) i).isUnallocated = false :=
  ⟨h.variable_destination _ _ (h.moveAt_eq hi).2, h.allocated _ ⟨_, _, (h.moveAt_eq hi).2, .inr rfl⟩⟩

section Step

variable {s : State} (hgood : Good constants moves s) {i : Nat} (hi : i < (buildInitialMoveList moves).length)
include hgood hi

theorem Good.source {a : Operand} (ha : src s.moves i = some a) :
    a.isUnallocated = false ∧ a.isGeneral = (destinationAt (buildInitialMoveList moves) i).isGeneral := by
  have hold := hgood fun _ => 0
  refine ⟨?_, hold.kind i hi a ha⟩
  obtain ⟨x, hx, he⟩ := (hold.place i hi a ha).resolve_right fun hs => hs
  rw [he]
  exact h.allocated x hx

theorem Good.emitMove {a : Operand}
    (hmove : s.moves i = ⟨some a, some (destinationAt (buildInitialMoveList moves) i)⟩)
    (hfree : ∀ j < (buildInitialMoveList moves).length,
      src s.moves j ≠ some (destinationAt (buildInitialMoveList moves) i)) :
    Good constants moves (emitMove constants s i) := by
  have ha : src s.moves i = some a := by rw [src, hmove]
  obtain ⟨hall, hkind⟩ := hgood.source h hi ha
  obtain ⟨hvar, hdall⟩ := destination_variable h hi
  intro m₀
  have hold := hgood m₀
  have hcode := moveCode_spec constants (run s.code m₀) hkind hall hdall hvar
  unfold X64.emitMove
  rw [hmove]
  show ParallelMove.Holding _ (run (s.code ++ _) m₀) (src (update s.moves i eliminated))
  rw [src_update_eliminated, run_append]
  refine hold.move (wellFormed h m₀) (fun l hl => hcode.1 l (fun hld => hl ?_) (not_free hl)) ?_
  · exact .inl ⟨i, hi, by rw [ha]; simp, hld, hfree⟩
  · cases hc : a.isConstant with
    | true =>
      obtain rfl := hold.constant i hi a ha hc
      exact (delivers_constant hc).1 hcode.2
    | false =>
      have hread := (delivers_variable hc).1 hcode.2
      show Delivers constants m₀ _ (List.map _ (locs (destinationAt (buildInitialMoveList moves) i)))
      rw [hread]
      exact hold.live i hi a ha hc

theorem Good.emitSwap {p : Nat} (hp : p < (buildInitialMoveList moves).length) (hne : p ≠ i)
    (hlive : src s.moves p ≠ none)
    (hmove : s.moves i = ⟨some (destinationAt (buildInitialMoveList moves) p),
      some (destinationAt (buildInitialMoveList moves) i)⟩) : Good constants moves (emitSwap s i) := by
  have ha : src s.moves i = some (destinationAt (buildInitialMoveList moves) p) := by rw [src, hmove]
  obtain ⟨hall, hkind⟩ := hgood.source h hi ha
  obtain ⟨hvar, hdall⟩ := destination_variable h hi
  obtain ⟨hpvar, -⟩ := destination_variable h hp
  intro m₀
  have wf : ParallelMove.WellFormed (moveProblem constants moves m₀) := wellFormed h m₀
  have hdisj := wf.disjoint _ _ (wf.dest_operand p hp) (wf.dest_operand i hi)
    fun e => hne (wf.dest_inj p hp i hi e)
  have hcode := swapCode_spec (run s.code m₀) hkind hall hdall hpvar hvar hdisj
  have hswap := (hgood m₀).swap wf hi hp hlive ha
    (fun l hl hli hlp => hcode.1 l hlp hli (not_free hl)) hcode.2.1 hcode.2.2
  unfold X64.emitSwap
  rw [hmove]
  show ParallelMove.Holding _ (run (s.code ++ _) m₀) (src (renameSources _ _ (update s.moves i eliminated)))
  rw [run_append]
  rw [src_swapped]
  exact hswap

end Step

theorem swapLaw (constants : Nat → Constant) : SwapLaw State.moves setDestination eliminate emitSwap (emitMove constants)
    (buildInitialMoveList moves).length (sourceAt (buildInitialMoveList moves))
    (destinationAt (buildInitialMoveList moves)) (Good constants moves) where
  moves_setDestination _ _ _ := rfl
  good_setDestination s i o hgood m₀ := by
    show ParallelMove.Holding _ _ (src (update s.moves i ⟨(s.moves i).source, o⟩))
    rw [src_setDestination]
    exact hgood m₀
  moves_removeMove _ _ := rfl
  good_removeMove s i hgood hi hmove m₀ := by
    show ParallelMove.Holding _ _ (src (update s.moves i eliminated))
    rw [src_update_eliminated]
    exact (hgood m₀).drop (wellFormed h m₀) hi (by rw [src, hmove]; rfl)
  moves_emitMove s i := by
    unfold emitMove
    split <;> rfl
  good_emitMove s i a hgood hi hmove hfree := hgood.emitMove h hi hmove hfree
  moves_emitSwap s i := by
    unfold emitSwap
    rcases s.moves i with ⟨source | _, destination | _⟩ <;> rfl
  good_emitSwap s i p hgood hi hp hne hlive hmove _ _ _ := hgood.emitSwap h hi hp hne hlive hmove

end Resolver

/-- `Resolve` ends, and its code moves the value of each source to its destination, whatever the
machine holds at the start. Everything else but the two scratch registers stays as it was. -/
theorem resolve_parallel (constants : Nat → Constant) (moves : List (MoveOperands Operand))
    (h : Parallel locs moves) :
    ∃ code, resolve constants moves = some code ∧ ∀ m₀,
      (∀ source destination, Transfer moves source destination →
        Delivers constants m₀ source ((locs destination).map (run code m₀))) ∧
      ∀ l, ¬IsScratch l → (∀ source destination, Transfer moves source destination → l ∉ locs destination) →
        run code m₀ l = m₀ l := by
  obtain ⟨t, ht, hgood, hdone⟩ := (swapLaw h constants).resolve_spec
    (fun i hi j hj => h.destination_inj hi hj) Operand.isConstant
    (fun i hi => h.variable_destination _ _ (h.moveAt_eq hi).2)
    (s := ⟨moveAt (buildInitialMoveList moves), []⟩)
    (fun m₀ => .init (wellFormed h m₀) fun i hi => congrArg MoveOperands.source (h.moveAt_eq hi).1)
    fun i hi => (h.moveAt_eq hi).1
  refine ⟨_, by unfold resolve; simp only [port, ht]; rfl, fun m₀ => ?_⟩
  exact h.delivered locs_not_scratch (fun _ hc _ => (delivers_variable hc).2 rfl) (hgood m₀) hdone

/-- A register and a slot change places, and another register is loaded. -/
theorem resolve_parallel_exchange : ∃ code,
    resolve (fun _ => .handle 7) [⟨some (.register 0), some (.stackSlot 0)⟩,
      ⟨some (.stackSlot 0), some (.register 0)⟩, ⟨some (.constant 3), some (.register 1)⟩] = some code ∧
    ∀ m₀, run code m₀ (.reg 0) = m₀ (.word (-3)) := by
  obtain ⟨code, hcode, hrun⟩ := resolve_parallel (fun _ => .handle 7) [⟨some (.register 0), some (.stackSlot 0)⟩,
    ⟨some (.stackSlot 0), some (.register 0)⟩, ⟨some (.constant 3), some (.register 1)⟩]
    (.of_transfers (by decide) (by decide) (by decide) (by decide))
  refine ⟨code, hcode, fun m₀ => ?_⟩
  have hdel := (hrun m₀).1 (.stackSlot 0) (.register 0) ⟨by simp, by simp⟩
  exact (List.cons.inj ((delivers_variable rfl).1 hdel)).1

end W16.X64
