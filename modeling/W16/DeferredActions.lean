import W16.DispatchTable
import Mathlib.Tactic.Basic

/-!
# Deferred actions of a trace

A trace collects register actions while code for a node is generated. `Flush` performs them all
before the code of the successor and emits code that undoes them on backtracking.
-/
namespace W16.Traces

open DispatchTables

set_option linter.dupNamespace false

/-! ## The code that is emitted -/

abbrev Registers := Nat → Int

/-- What lies on the backtrack stack: values of registers, positions, and places in the code. -/
inductive Entry where
  | value (v : Int)
  | code (label : Nat)

structure Machine where
  registers : Registers
  position : Int
  stack : List Entry

/-- The operations of the assembler that `Flush` uses. -/
inductive Instruction where
  | pushCurrentPosition
  | popCurrentPosition
  | advanceCurrentPosition (by_ : Int)
  | pushBacktrack (label : Nat)
  | pushRegister (reg : Nat) (checkStackLimit : Bool)
  | popRegister (reg : Nat)
  | setRegister (reg : Nat) (to_ : Int)
  | advanceRegister (reg : Nat) (by_ : Int)
  | clearRegisters (from_ to_ : Nat)
  | writeCurrentPositionToRegister (reg : Nat) (cpOffset : Int)

def write (registers : Registers) (reg : Nat) (v : Int) : Registers :=
  fun r => if r = reg then v else registers r

def clear (cleared : Int) (registers : Registers) (from_ to_ : Nat) : Registers :=
  fun r => if from_ ≤ r ∧ r ≤ to_ then cleared else registers r

@[simp] theorem write_same (registers : Registers) (reg : Nat) (v : Int) :
    write registers reg v reg = v := if_pos rfl

theorem write_other (registers : Registers) {reg r : Nat} (v : Int) (h : r ≠ reg) :
    write registers reg v r = registers r := if_neg h

/-- One instruction, where `cleared` is the value that stands for no position. -/
def Instruction.exec (cleared : Int) : Instruction → Machine → Option Machine
  | .pushCurrentPosition, m => some { m with stack := .value m.position :: m.stack }
  | .popCurrentPosition, m =>
    match m.stack with
    | .value v :: stack => some { m with position := v, stack := stack }
    | _ => none
  | .advanceCurrentPosition d, m => some { m with position := m.position + d }
  | .pushBacktrack label, m => some { m with stack := .code label :: m.stack }
  | .pushRegister reg _, m => some { m with stack := .value (m.registers reg) :: m.stack }
  | .popRegister reg, m =>
    match m.stack with
    | .value v :: stack => some { m with registers := write m.registers reg v, stack := stack }
    | _ => none
  | .setRegister reg v, m => some { m with registers := write m.registers reg v }
  | .advanceRegister reg d, m =>
    some { m with registers := write m.registers reg (m.registers reg + d) }
  | .clearRegisters from_ to_, m => some { m with registers := clear cleared m.registers from_ to_ }
  | .writeCurrentPositionToRegister reg cpOffset, m =>
    some { m with registers := write m.registers reg (m.position + cpOffset) }

def run (cleared : Int) : List Instruction → Machine → Option Machine
  | [], m => some m
  | i :: code, m => (i.exec cleared m).bind (run cleared code)

theorem run_append {cleared : Int} {code code' : List Instruction} {m m' : Machine}
    (h : run cleared code m = some m') : run cleared (code ++ code') m = run cleared code' m' := by
  induction code generalizing m with
  | nil => rw [← Option.some.inj h]; rfl
  | cons i code ih =>
    grind [run, Option.bind_eq_some_iff]

/-! ## Actions -/

/-- `Trace::DeferredAction` with its subclasses. -/
inductive DeferredAction where
  | setRegister (reg : Nat) (value : Int)
  | incrementRegister (reg : Nat)
  | storePosition (reg cpOffset : Nat) (isCapture : Bool)
  | clearCaptures (from_ to_ : Nat)
  deriving DecidableEq

namespace DeferredAction

/-- `Mentions` -/
def mentions (that : Nat) : DeferredAction → Bool
  | setRegister reg _ => reg == that
  | incrementRegister reg => reg == that
  | storePosition reg _ _ => reg == that
  | clearCaptures from_ to_ => from_ ≤ that && that ≤ to_

/-- The action done at once, at the given current position. -/
def perform (cleared position : Int) (registers : Registers) : DeferredAction → Registers
  | setRegister reg value => write registers reg value
  | incrementRegister reg => write registers reg (registers reg + 1)
  | storePosition reg cpOffset _ => write registers reg (position + cpOffset)
  | clearCaptures from_ to_ => clear cleared registers from_ to_

end DeferredAction

/-- The actions one by one. The list has the newest action first. -/
def immediate (cleared position : Int) (registers : Registers) : List DeferredAction → Registers
  | [] => registers
  | action :: older => action.perform cleared position (immediate cleared position registers older)

/-! ## The deferred way -/

/-- `FindAffectedRegisters` -/
def findAffectedRegisters : List DeferredAction → Zone → Int → Zone × Int
  | [], affected, maxRegister => (affected, maxRegister)
  | action :: actions, affected, maxRegister =>
    match action with
    | .clearCaptures from_ to_ =>
      findAffectedRegisters actions ((List.range' from_ (to_ + 1 - from_)).foldl (·.set 0 ·) affected)
        (max maxRegister to_)
    | .setRegister reg _ | .incrementRegister reg | .storePosition reg _ _ =>
      findAffectedRegisters actions (affected.set 0 reg) (max maxRegister reg)

inductive DeferredActionUndoType where
  | ignore | restore | clear
  deriving DecidableEq

/-- The variables of the scan for one register. -/
structure Scan where
  undoAction : DeferredActionUndoType := .ignore
  value : Int := 0
  absolute : Bool := false
  clear : Bool := false
  storePosition : Int := -1

/-- One action of the scan that mentions the register. -/
def Scan.next (reg : Nat) (scan : Scan) : DeferredAction → Scan
  | .setRegister _ v =>
    if scan.absolute then { scan with undoAction := .restore }
    else { scan with value := scan.value + v, absolute := true, undoAction := .restore }
  | .incrementRegister _ =>
    if scan.absolute then { scan with undoAction := .restore }
    else { scan with value := scan.value + 1, undoAction := .restore }
  | .storePosition _ cpOffset isCapture =>
    { scan with
      storePosition := if !scan.clear && scan.storePosition == -1 then cpOffset else scan.storePosition
      undoAction := if reg ≤ 1 then .ignore else if isCapture then .clear else .restore }
  | .clearCaptures _ _ =>
    { scan with
      clear := scan.clear || scan.storePosition == -1
      undoAction := .restore }

def scanFrom (reg : Nat) (scan : Scan) : List DeferredAction → Scan
  | [] => scan
  | action :: actions =>
    scanFrom reg (if action.mentions reg then scan.next reg action else scan) actions

/-- The chronologically last action, or the accumulated increment, for the register. -/
def Scan.perform (scan : Scan) (reg : Nat) : List Instruction :=
  if scan.storePosition ≠ -1 then [.writeCurrentPositionToRegister reg scan.storePosition]
  else if scan.clear then [.clearRegisters reg reg]
  else if scan.absolute then [.setRegister reg scan.value]
  else if scan.value ≠ 0 then [.advanceRegister reg scan.value]
  else []

/-- The variables of the loop over the registers. -/
structure Performing where
  code : List Instruction := []
  pushes : Nat := 0
  registersToPop : Zone
  registersToClear : Zone

/-- One register of `PerformDeferredActions`. -/
def performRegister (pushLimit : Nat) (actions : List DeferredAction) (affected : Zone)
    (s : Performing) (reg : Nat) : Performing :=
  if affected.get 0 reg then
    let scan := scanFrom reg {} actions
    let s : Performing := match scan.undoAction with
      | .restore =>
        let limit := s.pushes + 1 == pushLimit
        { s with
          pushes := if limit then 0 else s.pushes + 1
          code := s.code ++ [Instruction.pushRegister reg limit]
          registersToPop := s.registersToPop.set 0 reg }
      | .clear => { s with registersToClear := s.registersToClear.set 0 reg }
      | .ignore => s
    { s with code := s.code ++ scan.perform reg }
  else s

/-- The set made by `OutSet()`, in a zone of its own. -/
def newSet : Zone := ⟨[⟨0, none, none⟩], []⟩

/-- `PerformDeferredActions` -/
def performDeferredActions (stackLimitSlack : Nat) (actions : List DeferredAction)
    (maxRegister : Int) (affected : Zone) : Performing :=
  let pushLimit := (stackLimitSlack + 1) / 2
  (List.range (maxRegister + 1).toNat).foldl (performRegister pushLimit actions affected)
    { registersToPop := newSet, registersToClear := newSet }

/-- The inner loop of `RestoreAffectedRegisters`. -/
def clearStart (registersToClear : Zone) : Nat → Nat
  | 0 => 0
  | reg + 1 => if registersToClear.get 0 reg then clearStart registersToClear reg else reg + 1

theorem clearStart_le (registersToClear : Zone) (reg : Nat) : clearStart registersToClear reg ≤ reg := by
  induction reg with
  | zero => exact le_rfl
  | succ reg ih =>
    rw [clearStart]
    split <;> omega

/-- `RestoreAffectedRegisters` for the registers below the last argument. -/
def restoreBelow (registersToPop registersToClear : Zone) : Nat → List Instruction
  | 0 => []
  | reg + 1 =>
    if registersToPop.get 0 reg then
      .popRegister reg :: restoreBelow registersToPop registersToClear reg
    else if registersToClear.get 0 reg then
      .clearRegisters (clearStart registersToClear reg) reg ::
        restoreBelow registersToPop registersToClear (clearStart registersToClear reg)
    else restoreBelow registersToPop registersToClear reg
  termination_by n => n
  decreasing_by all_goals first | exact Nat.lt_succ_of_le (clearStart_le _ _) | omega

/-- `RestoreAffectedRegisters` -/
def restoreAffectedRegisters (maxRegister : Int) (registersToPop registersToClear : Zone) : List Instruction :=
  restoreBelow registersToPop registersToClear (maxRegister + 1).toNat

/-- The part of a trace that is flushed, with the actions newest first. -/
structure Trace where
  cpOffset : Int
  actions : List DeferredAction
  backtrack : Option Nat

/-- How the undo code is left. -/
inductive Leave where
  | backtrack
  | goTo (label : Nat)

/-- The code before that of the successor and, where there is any, the undo code. -/
structure Flushed where
  enter : List Instruction
  undo : Option (List Instruction × Leave)

/-- `Trace::Flush`, with the place where the undo code is bound. -/
def Trace.flush (stackLimitSlack : Nat) (undo : Nat) (trace : Trace) : Flushed :=
  let advance := if trace.cpOffset ≠ 0 then [.advanceCurrentPosition trace.cpOffset] else []
  if trace.actions.isEmpty && trace.backtrack.isNone then ⟨advance, none⟩
  else
    let found := findAffectedRegisters trace.actions newSet (-1)
    let performed := performDeferredActions stackLimitSlack trace.actions found.2 found.1
    let restore :=
      restoreAffectedRegisters found.2 performed.registersToPop performed.registersToClear
    { enter := (if trace.backtrack.isSome then [.pushCurrentPosition] else []) ++ performed.code ++
        advance ++ [.pushBacktrack undo]
      undo := some <| match trace.backtrack with
        | none => (restore, .backtrack)
        | some label => (restore ++ [.popCurrentPosition], .goTo label) }

end W16.Traces
