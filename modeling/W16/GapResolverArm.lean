import W16.GapResolverRun
import W16.LithiumMoves
import Mathlib.Tactic.SplitIfs

/-!
# Gap resolution on ARM

`LGapResolver` of the ARM port breaks a cycle by saving one value in `kSavedValueRegister` or
`kSavedDoubleValueRegister` until the root of the traversal is performed. The same
registers, and `ip`, serve as temporaries of moves between slots.
-/
namespace W16.Arm

open Lithium MoveOperands GapResolver Function

/-- The words of a machine state: registers by their allocation index, the halves of the double
registers, words of the frame by their distance from the frame pointer, `kSavedValueRegister`,
the halves of `kSavedDoubleValueRegister`, and `ip`. -/
inductive Loc where
  | reg (index : Nat)
  | double (index : Nat) (high : Bool)
  | word (offset : Int)
  | saved
  | savedDouble (high : Bool)
  | ip
  deriving DecidableEq, Repr

/-- A double register. -/
inductive DoubleReg where
  | allocated (index : Nat)
  | saved
  deriving DecidableEq, Repr

@[simp]
def DoubleReg.half : DoubleReg → Bool → Loc
  | allocated index, high => .double index high
  | saved, high => .savedDouble high

abbrev Machine := Loc → BitVec 32

/-- Addresses are counted in words from the frame pointer. `vldr` and `vstr` of a single word are
used for the lower half of `kSavedDoubleValueRegister` only. -/
inductive Instr where
  | mov (dst src : Loc)
  | load (dst : Loc) (imm : BitVec 32)
  | ldr (dst : Loc) (offset : Int)
  | str (src : Loc) (offset : Int)
  | vmov (dst src : DoubleReg)
  | vldr (dst : DoubleReg) (offset : Int)
  | vstr (src : DoubleReg) (offset : Int)
  | vldrLow (offset : Int)
  | vstrLow (offset : Int)
  deriving DecidableEq, Repr

/-- `OffsetIsUint12Encodable`, of an offset in words. -/
def offsetIsUint12Encodable (offset : Int) : Bool := offset.natAbs * 4 < 4096

/-- What `vldr` and `vstr` can encode. -/
def offsetIsVfpEncodable (offset : Int) : Bool := offset.natAbs < 256

section Exec

variable (address : Int → BitVec 32)

/-- An offset that cannot be encoded is first loaded to `ip`. -/
def useIp (encodable : Bool) (offset : Int) (m : Machine) : Machine :=
  if encodable then m else update m .ip (address offset)

def exec (m : Machine) : Instr → Machine
  | .mov dst src => update m dst (m src)
  | .load dst imm => update m dst imm
  | .ldr dst offset => update (useIp address (offsetIsUint12Encodable offset) offset m) dst (m (.word offset))
  | .str src offset =>
    let m := useIp address (offsetIsUint12Encodable offset) offset m
    update m (.word offset) (m src)
  | .vmov dst src => update (update m (dst.half false) (m (src.half false))) (dst.half true) (m (src.half true))
  | .vldr dst offset =>
    update (update (useIp address (offsetIsVfpEncodable offset) offset m) (dst.half false) (m (.word offset)))
      (dst.half true) (m (.word (offset + 1)))
  | .vstr src offset =>
    update (update (useIp address (offsetIsVfpEncodable offset) offset m) (.word offset) (m (src.half false)))
      (.word (offset + 1)) (m (src.half true))
  | .vldrLow offset =>
    update (useIp address (offsetIsVfpEncodable offset) offset m) (.savedDouble false) (m (.word offset))
  | .vstrLow offset =>
    update (useIp address (offsetIsVfpEncodable offset) offset m) (.word offset) (m (.savedDouble false))

def run (code : List Instr) (m : Machine) : Machine := code.foldl (exec address) m

end Exec

@[simp]
def toRegister (op : Operand) : Loc := .reg op.index.toNat

@[simp]
def toDoubleRegister (op : Operand) : DoubleReg := .allocated op.index.toNat

@[simp]
def toMemOperand (op : Operand) : Int := frameWord op.index

@[simp]
def toHighMemOperand (op : Operand) : Int := frameWord op.index + 1

/-- What the history of a run records: that a cycle is broken and that the saved value is restored,
with the code that was emitted before the value was needed again. -/
inductive Event where
  | broken (destination : Operand) (code : List Instr)
  | restored (destination : Operand) (code : List Instr)

structure State where
  moves : Nat → MoveOperands Operand
  rootIndex : Nat
  inCycle : Bool
  savedDestination : Option Operand
  code : List Instr
  history : List Event

/-- The instructions of `EmitMove`. -/
def moveCode (constants : Nat → BitVec 32) (inCycle : Bool) (source destination : Operand) : List Instr :=
  match source with
  | .register _ =>
    if destination.isRegister then [.mov (toRegister destination) (toRegister source)]
    else [.str (toRegister source) (toMemOperand destination)]
  | .stackSlot _ =>
    if destination.isRegister then [.ldr (toRegister destination) (toMemOperand source)]
    else if inCycle then
      if !offsetIsUint12Encodable (toMemOperand destination) then
        -- ip is overwritten while the value is stored.
        [.vldrLow (toMemOperand source), .vstrLow (toMemOperand destination)]
      else [.ldr .ip (toMemOperand source), .str .ip (toMemOperand destination)]
    else [.ldr .saved (toMemOperand source), .str .saved (toMemOperand destination)]
  | .constant c =>
    if destination.isRegister then [.load (toRegister destination) (constants c)]
    else [.load .saved (constants c), .str .saved (toMemOperand destination)]
  | .doubleRegister _ =>
    if destination.isDoubleRegister then [.vmov (toDoubleRegister destination) (toDoubleRegister source)]
    else [.vstr (toDoubleRegister source) (toMemOperand destination)]
  | .doubleStackSlot _ =>
    if destination.isDoubleRegister then [.vldr (toDoubleRegister destination) (toMemOperand source)]
    else if inCycle then
      [.ldr .saved (toMemOperand source), .str .saved (toMemOperand destination),
        .ldr .saved (toHighMemOperand source), .str .saved (toHighMemOperand destination)]
    else [.vldr .saved (toMemOperand source), .vstr .saved (toMemOperand destination)]
  | .unallocated _ => []

/-- The instruction of `BreakCycle`. -/
def saveCode : Operand → List Instr
  | .register n => [.mov .saved (toRegister (.register n))]
  | .stackSlot i => [.ldr .saved (toMemOperand (.stackSlot i))]
  | .doubleRegister n => [.vmov .saved (toDoubleRegister (.doubleRegister n))]
  | .doubleStackSlot i => [.vldr .saved (toMemOperand (.doubleStackSlot i))]
  | .constant _ | .unallocated _ => []

/-- The instruction of `RestoreValue`. -/
def restoreCode : Operand → List Instr
  | .register n => [.mov (toRegister (.register n)) .saved]
  | .stackSlot i => [.str .saved (toMemOperand (.stackSlot i))]
  | .doubleRegister n => [.vmov (toDoubleRegister (.doubleRegister n)) .saved]
  | .doubleStackSlot i => [.vstr .saved (toMemOperand (.doubleStackSlot i))]
  | .constant _ | .unallocated _ => []

def eliminate (s : State) (i : Nat) : State := { s with moves := update s.moves i eliminated }

def emitMove (constants : Nat → BitVec 32) (s : State) (index : Nat) : State :=
  match s.moves index with
  | ⟨some source, some destination⟩ =>
    eliminate { s with code := s.code ++ moveCode constants s.inCycle source destination } index
  | _ => eliminate s index

def breakCycle (s : State) (index : Nat) : State :=
  match s.moves index with
  | ⟨some source, some destination⟩ =>
    eliminate { s with
      inCycle := true
      savedDestination := some destination
      code := s.code ++ saveCode source
      history := s.history ++ [.broken destination (s.code ++ saveCode source)] } index
  | _ => eliminate s index

def restoreValue (s : State) : State :=
  match s.savedDestination with
  | some destination =>
    { s with
      inCycle := false
      savedDestination := none
      code := s.code ++ restoreCode destination
      history := s.history ++ [.restored destination s.code] }
  | none => { s with inCycle := false }

def setDestination (s : State) (i : Nat) (o : Option Operand) : State :=
  { s with moves := update s.moves i ⟨(s.moves i).source, o⟩ }

/-- The end of `PerformMove`: only the root can still block the move. -/
def finish (constants : Nat → BitVec 32) (s : State) (index : Nat) : State :=
  if (s.moves s.rootIndex).blocks (s.moves index).destination then breakCycle s index
  else emitMove constants s index

def port (constants : Nat → BitVec 32) : Port State Operand where
  moves := State.moves
  setDestination := setDestination
  finish := finish constants

/-- One round of the first loop of `Resolve`. -/
def performRoot (constants : Nat → BitVec 32) (count : Nat) (s : State) (i : Nat) : Option State := do
  let s ← performMove (port constants) count count { s with rootIndex := i } i
  some (if s.inCycle then restoreValue s else s)

/-- `Resolve`, from the state that an earlier call has left. -/
def resolve (constants : Nat → BitVec 32) (s : State) (parallelMove : List (MoveOperands Operand)) :
    Option State := do
  let moves := buildInitialMoveList parallelMove
  let count := moves.length
  let s ← performMoves (port constants) Operand.isConstant (performRoot constants count) count
    { s with moves := moveAt moves }
  some (emitConstants (port constants) (emitMove constants) count s)

end W16.Arm
