import Mathlib

/-!
# Array.prototype.splice

`ArraySplice` for an array whose elements are data and whose prototypes have no elements. What
`%GetArrayKeys` returns is a parameter.
-/
namespace W16.Splices

/-- Names from here on are no array indices. -/
def kMaxArrayIndex : Nat := 2 ^ 32 - 1

/-- The own properties with a number as their name, and the length. -/
structure JSArray (V : Type) where
  elements : Nat → Option V
  length : Nat
  length_lt : length < 2 ^ 32
  inside : ∀ i < kMaxArrayIndex, (elements i).isSome → i < length

variable {V : Type}

namespace JSArray

/-- A new array of some length without elements. -/
def new (length : Nat) (h : length < 2 ^ 32) : JSArray V := ⟨fun _ => none, length, h, by simp⟩

variable (undefined : V) (a : JSArray V)

/-- `array[i]` -/
def get (i : Nat) : V := (a.elements i).getD undefined

/-- `i in array` -/
def has (i : Nat) : Bool := (a.elements i).isSome

/-- `array[i] = value` -/
def set (i : Nat) (value : V) : JSArray V where
  elements j := if j = i then some value else a.elements j
  length := if i < kMaxArrayIndex ∧ a.length ≤ i then i + 1 else a.length
  length_lt := by
    have hmax : kMaxArrayIndex = 2 ^ 32 - 1 := rfl
    have hlen := a.length_lt
    split <;> omega
  inside := by
    intro j hj hsome
    by_cases hji : j = i
    · split <;> omega
    · rw [if_neg hji] at hsome
      have hlt := a.inside j hj hsome
      split <;> omega

/-- `delete array[i]` -/
def delete (i : Nat) : JSArray V where
  elements j := if j = i then none else a.elements j
  length := a.length
  length_lt := a.length_lt
  inside := by
    intro j hj hsome
    by_cases hji : j = i
    · rw [if_pos hji] at hsome
      cases hsome
    · rw [if_neg hji] at hsome
      exact a.inside j hj hsome

/-- `array.length = n` for a length that an array can have. -/
def truncate (n : Nat) (h : n < 2 ^ 32) : JSArray V where
  elements i := if n ≤ i ∧ i < kMaxArrayIndex then none else a.elements i
  length := n
  length_lt := h
  inside := by
    grind

end JSArray

/-- `%MoveArrayContents(source, array)` -/
def moveArrayContents (source a : JSArray V) : JSArray V where
  elements i := if i < kMaxArrayIndex then source.elements i else a.elements i
  length := source.length
  length_lt := source.length_lt
  inside := by
    intro i hi hsome
    rw [if_pos hi] at hsome
    exact source.inside i hi hsome

/-- The value of `TO_INTEGER`. -/
inductive Integer where
  | negInfinity
  | finite (n : Int)
  | infinity

/-- The arguments of a call, of which one or both may be missing. -/
inductive Arguments (V : Type) where
  | one (start : Integer)
  | more (start deleteCount : Integer) (items : List V)

/-- The start that is given, within the array. -/
def clampStart (len : Nat) : Integer → Nat
  | .negInfinity => 0
  | .finite n => if n < 0 then (n + len).toNat else min n.toNat len
  | .infinity => len

def clampDeleteCount (len start : Nat) : Integer → Nat
  | .negInfinity => 0
  | .finite n => min n.toNat (len - start)
  | .infinity => len - start

def Arguments.start (len : Nat) : Arguments V → Nat
  | one start => clampStart len start
  | more start _ _ => clampStart len start

def Arguments.delCount (len : Nat) : Arguments V → Nat
  | one start => len - clampStart len start
  | more start deleteCount _ => clampDeleteCount len (clampStart len start) deleteCount

def Arguments.items : Arguments V → List V
  | one _ => []
  | more _ _ items => items

/-- The array that is left, and the deleted elements or none for a `RangeError`. -/
structure Outcome (V : Type) where
  array : JSArray V
  result : Option (JSArray V)

theorem clampStart_le (len : Nat) (start : Integer) : clampStart len start ≤ len := by
  cases start with
  | negInfinity => exact Nat.zero_le _
  | infinity => exact Nat.le_refl _
  | finite n =>
    show (if n < 0 then (n + len).toNat else min n.toNat len) ≤ len
    split <;> omega

theorem delCount_le (len : Nat) (args : Arguments V) : args.start len + args.delCount len ≤ len := by
  cases args with
  | one start =>
    simp [clampStart_le, Arguments.start, Arguments.delCount]
  | more start deleteCount items =>
    have hle := clampStart_le len start
    unfold Arguments.start Arguments.delCount clampDeleteCount
    cases deleteCount <;> dsimp only <;> omega

variable [DecidableEq V] (undefined : V)

/-- `current = array[i]` is taken if it is there. -/
def present (a : JSArray V) (i : Nat) : Bool := a.get undefined i ≠ undefined || a.has i

/-- The loop over what `%GetArrayKeys` returns: single keys, and intervals as two numbers. -/
def intervalLoop {S : Type} (onInterval : S → Nat → Nat → S) (onKey : S → Nat → S) : List (Option Int) → S → S
  | [], s => s
  | none :: rest, s => intervalLoop onInterval onKey rest s
  | [some key], s => if key < 0 then s else onKey s key.toNat
  | some key :: count :: rest, s =>
    if key < 0 then
      match count with
      | none => intervalLoop onInterval onKey rest s
      | some count =>
        intervalLoop onInterval onKey rest (onInterval s (-1 - key).toNat (-1 - key + count).toNat)
    else intervalLoop onInterval onKey (count :: rest) (onKey s key.toNat)

/-- `n` turns of a loop that puts elements of the array from `j` on into another one. -/
def copyLoop (a : JSArray V) (place : Nat → Nat) : Nat → Nat → JSArray V → JSArray V
  | 0, _, target => target
  | n + 1, j, target =>
    copyLoop a place n (j + 1)
      (if present undefined a j then target.set (place j) (a.get undefined j) else target)

def smartSlice (getArrayKeys : JSArray V → Nat → List (Option Int)) (a : JSArray V)
    (start delCount : Nat) (deleted : JSArray V) : JSArray V :=
  intervalLoop (fun deleted j limit =>
      let j := if j < start then start else j
      copyLoop undefined a (· - start) (limit - j) j deleted)
    (fun deleted key =>
      if key ≥ start then
        if present undefined a key then deleted.set (key - start) (a.get undefined key) else deleted
      else deleted)
    (getArrayKeys a (start + delCount)) deleted

/-- None where the length of the new array is no length. -/
def smartMove (getArrayKeys : JSArray V → Nat → List (Option Int)) (a : JSArray V)
    (start delCount len numAdditionalArgs : Nat) : Option (JSArray V) :=
  if h : len - delCount + numAdditionalArgs < 2 ^ 32 then
    let newArray := intervalLoop
      (fun target j limit =>
        let target := copyLoop undefined a id (min start limit - j) j target
        copyLoop undefined a (· - delCount + numAdditionalArgs) (limit - (start + delCount))
          (start + delCount) target)
      (fun target key =>
        if key < start then
          if present undefined a key then target.set key (a.get undefined key) else target
        else if key ≥ start + delCount then
          if present undefined a key then
            target.set (key - delCount + numAdditionalArgs) (a.get undefined key)
          else target
        else target)
      (getArrayKeys a len) (JSArray.new (len - delCount + numAdditionalArgs) h)
    some (moveArrayContents newArray a)
  else none

/-- The loop of `SimpleSlice` from `i` on, `n` turns. -/
def simpleSliceLoop (a : JSArray V) (start : Nat) : Nat → Nat → JSArray V → JSArray V
  | 0, _, deleted => deleted
  | n + 1, i, deleted =>
    simpleSliceLoop a start n (i + 1)
      (if present undefined a (start + i) then deleted.set i (a.get undefined (start + i)) else deleted)

def simpleSlice (a : JSArray V) (start delCount : Nat) (deleted : JSArray V) : JSArray V :=
  simpleSliceLoop undefined a start delCount 0 deleted

/-- The body of both loops of `SimpleMove`. -/
def moveElement (a : JSArray V) (fromIndex toIndex : Nat) : JSArray V :=
  if present undefined a fromIndex then a.set toIndex (a.get undefined fromIndex) else a.delete toIndex

/-- `for (var i = start_i + n; i > start_i; i--)` -/
def moveUpLoop (start delCount numAdditionalArgs : Nat) : Nat → JSArray V → JSArray V
  | 0, a => a
  | n + 1, a =>
    let i := start + n + 1
    moveUpLoop start delCount numAdditionalArgs n
      (moveElement undefined a (i + delCount - 1) (i + numAdditionalArgs - 1))

/-- The loop from `i` on, `n` turns. -/
def moveDownLoop (delCount numAdditionalArgs : Nat) : Nat → Nat → JSArray V → JSArray V
  | 0, _, a => a
  | n + 1, i, a =>
    moveDownLoop delCount numAdditionalArgs n (i + 1)
      (moveElement undefined a (i + delCount) (i + numAdditionalArgs))

/-- `for (var i = limit + n; i > limit; i--)` -/
def deleteLoop (limit : Nat) : Nat → JSArray V → JSArray V
  | 0, a => a
  | n + 1, a => deleteLoop limit n (a.delete (limit + n + 1 - 1))

def simpleMove (a : JSArray V) (start delCount len numAdditionalArgs : Nat) : JSArray V :=
  if numAdditionalArgs ≠ delCount then
    if numAdditionalArgs > delCount then
      moveUpLoop undefined start delCount numAdditionalArgs (len - delCount - start) a
    else
      let a := moveDownLoop undefined delCount numAdditionalArgs (len - delCount - start) start a
      deleteLoop (len - delCount + numAdditionalArgs) (len - (len - delCount + numAdditionalArgs)) a
  else a

/-- `this[i++] = %_Arguments(arguments_index++)` -/
def insertLoop : Nat → List V → JSArray V → JSArray V
  | _, [], a => a
  | i, value :: items, a => insertLoop (i + 1) items (a.set i value)

/-- The end of `ArraySplice`: the arguments are inserted and the length is set. -/
def finish (a deleted : JSArray V) (start newLength : Nat) (items : List V) : Outcome V :=
  let a := insertLoop start items a
  if h : newLength < 2 ^ 32 then ⟨a.truncate newLength h, some deleted⟩ else ⟨a, none⟩

/-- `ArraySplice` with the one or the other way to slice and to move. -/
def spliceWith (useSimpleSplice : Bool) (getArrayKeys : JSArray V → Nat → List (Option Int))
    (a : JSArray V) (args : Arguments V) : Outcome V :=
  let len := a.length
  let start := args.start len
  let delCount := args.delCount len
  let num := args.items.length
  let empty : JSArray V := JSArray.new delCount
    (Nat.lt_of_le_of_lt (Nat.le_trans (Nat.le_add_left _ _) (delCount_le len args)) a.length_lt)
  let newLength := len - delCount + num
  if useSimpleSplice then
    finish (simpleMove undefined a start delCount len num) (simpleSlice undefined a start delCount empty)
      start newLength args.items
  else
    let deleted := smartSlice undefined getArrayKeys a start delCount empty
    match smartMove undefined getArrayKeys a start delCount len num with
    | none => ⟨a, none⟩
    | some a => finish a deleted start newLength args.items

/-- The choice, where the estimate of `%EstimateNumberOfElements` is given. -/
def useSimpleSplice (estimatedNonHoleElements len start delCount num : Nat) : Bool :=
  !(num ≠ delCount && (len > 20 && estimatedNonHoleElements >>> 2 < len - start))

def arraySplice (estimate : JSArray V → Nat) (getArrayKeys : JSArray V → Nat → List (Option Int))
    (a : JSArray V) (args : Arguments V) : Outcome V :=
  spliceWith undefined (useSimpleSplice (estimate a) a.length (args.start a.length)
    (args.delCount a.length) args.items.length) getArrayKeys a args

end W16.Splices
