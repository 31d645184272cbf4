import Mathlib
import W16.PreparseData

/-!
# Reading preparse data that is not trusted

`ScriptDataImpl::SanityCheck` and the functions that read data it has accepted. A read outside of
the array stops the run. Allocations succeed, and addresses are offsets from the array's start.
-/
namespace W16.PreparseSanity

open Preparse hiding initializeData ScriptDataImpl Call

set_option linter.dupNamespace false

/-- A vector, whose length is an `int`. -/
structure Store where
  words : List (BitVec 32)
  length_lt : words.length < 2 ^ 31

inductive Stop where
  | outside (index : Int)
  | outOfFuel
  deriving DecidableEq, Repr

/-- The value that is left of a number in an `int`. -/
def int (n : Int) : Int := n.bmod (2 ^ 32)

def kSize : Nat := 5
def kHasErrorOffset : Nat := 2
def kSymbolCountOffset : Nat := 4
def kMessageStartPos : Nat := 0
def kMessageEndPos : Nat := 1
def kMessageArgCountPos : Nat := 2
def kMessageTextPos : Nat := 3

namespace Store

variable (store : Store)

def length : Nat := store.words.length

def get (i : Nat) : BitVec 32 := store.words.getD i 0

/-- `store_[i]` -/
def index (i : Int) : Except Stop (BitVec 32) :=
  if 0 ≤ i ∧ i < store.length then .ok (store.get i.toNat) else .error (.outside i)

/-- `ReadAddress`, and `Read` at that address. -/
def readAddress (position : Int) : Int := int (kHeaderSize + position)

def read (position : Int) : Except Stop (BitVec 32) := store.index (readAddress position)

end Store

open Store (readAddress)

section SanityCheck

variable (store : Store)

/-- The loop over the message and its arguments, and the check behind it. -/
def checkStrings (argCount : Nat) : Nat → Nat → Int → Except Stop Bool
  | 0, _, _ => .error .outOfFuel
  | fuel + 1, i, pos =>
    if i ≤ argCount then
      if store.length ≤ readAddress pos then return false
      else do
        let word ← store.read pos
        let length := word.toInt
        if length < 0 then return false
        else checkStrings argCount fuel ((i + 1) % 2 ^ 32) (int (pos + int (1 + length)))
    else return !(store.length < readAddress pos)

/-- The branch for data with an error. -/
def checkMessage : Except Stop Bool := do
  if store.length ≤ kHeaderSize + kMessageTextPos then return false
  else
    let start ← store.read kMessageStartPos
    let stop ← store.read kMessageEndPos
    if start.toNat > stop.toNat then return false
    else
      let argCount ← store.read kMessageArgCountPos
      checkStrings store argCount.toNat (store.length + 1) 0 kMessageTextPos

/-- The branch for data without an error. -/
def checkSizes : Except Stop Bool := do
  let functionsSize ← store.index kFunctionsSizeOffset
  if functionsSize.toInt < 0 then return false
  else if functionsSize.toInt % kSize ≠ 0 then return false
  else
    let symbolCount ← store.index kSymbolCountOffset
    if symbolCount.toInt < 0 then return false
    else
      let minimumSize := int (kHeaderSize + functionsSize.toInt)
      if store.length < minimumSize then return false
      else return true

def sanityCheck : Except Stop Bool := do
  if store.length < kHeaderSize then return false
  else
    let magic ← store.index 0
    if magic ≠ kMagicNumber then return false
    else
      let version ← store.index 1
      if version ≠ kCurrentVersion then return false
      else
        let hasError ← store.index kHasErrorOffset
        if hasError ≠ 0 then checkMessage store
        else checkSizes store

end SanityCheck

/-- The fields that `Initialize` sets. A pointer is its distance in bytes from the array's start. -/
structure ScriptDataImpl where
  functionIndex : Int
  symbolData : Int
  symbolDataEnd : Int
  deriving DecidableEq, Repr

section Readers

variable (store : Store)

def initializeData (st : ScriptDataImpl) : Except Stop ScriptDataImpl :=
  if store.length ≥ kHeaderSize then do
    let functionsSize ← store.index kFunctionsSizeOffset
    -- The sum is an unsigned number before it becomes an `int`.
    let symbolDataOffset := int (kHeaderSize + functionsSize.toNat)
    return {
      functionIndex := kHeaderSize
      symbolData := if store.length > symbolDataOffset then 4 * symbolDataOffset
        else 4 * store.length
      symbolDataEnd := 4 * store.length }
  else return st

/-- The words from an index on. -/
def indexWords : Nat → Int → Except Stop (List (BitVec 32))
  | 0, _ => return []
  | n + 1, i => do
    let word ← store.index i
    let words ← indexWords n (i + 1)
    return word :: words

/-- The entry is the words that its accessors read. -/
def getFunctionEntry (st : ScriptDataImpl) (start : Int) :
    Except Stop (Option (List (BitVec 32)) × ScriptDataImpl) :=
  if int (st.functionIndex + kSize) ≤ store.length then do
    let word ← store.index st.functionIndex
    if word.toInt = start then do
      let entry ← indexWords store kSize st.functionIndex
      return (some entry, { st with functionIndex := int (st.functionIndex + kSize) })
    else return (none, st)
  else return (none, st)

/-- The words are little-endian. -/
def readByte (data : Int) : Except Stop (BitVec 8) := do
  let word ← store.index (data / 4)
  return (word >>> (8 * (data % 4).toNat)).setWidth 8

/-- The digits after the first one, and where they end. -/
def readDigits (symbolDataEnd : Int) : Nat → Int → BitVec 8 → BitVec 32 → Except Stop (Option (BitVec 32 × Int))
  | 0, _, _, _ => .error .outOfFuel
  | fuel + 1, data, input, result =>
    if input &&& 0x80 ≠ 0 then
      if data ≥ symbolDataEnd then return none
      else do
        let input ← readByte store data
        readDigits symbolDataEnd fuel (data + 1) input ((result <<< 7) ||| (input &&& 0x7f).setWidth 32)
    else return some (result, data)

def getSymbolIdentifier (st : ScriptDataImpl) : Except Stop (Int × ScriptDataImpl) :=
  if st.symbolData ≥ st.symbolDataEnd then return (-1, st)
  else do
    let input ← readByte store st.symbolData
    if input.toNat = kNumberTerminator.toNat then return (-1, st)
    else do
      let digits ← readDigits store st.symbolDataEnd
        ((st.symbolDataEnd - st.symbolData).toNat + 1) (st.symbolData + 1) input
        ((input &&& 0x7f).setWidth 32)
      match digits with
      | none => return (-1, st)
      | some (result, data) => return (result.toInt, { st with symbolData := data })

/-- The two positions, as `int`. -/
def messageLocation : Except Stop (Int × Int) := do
  let begPos ← store.read kMessageStartPos
  let endPos ← store.read kMessageEndPos
  return (begPos.toInt, endPos.toInt)

/-- The characters and the length. -/
def readString (start : Int) : Except Stop (List (BitVec 8) × Int) := do
  let word ← store.index start
  let words ← indexWords store word.toInt.toNat (start + 1)
  return (words.map (·.setWidth 8), word.toInt)

def buildMessage : Except Stop (List (BitVec 8)) := do
  let (chars, _) ← readString store (readAddress kMessageTextPos)
  return chars

def buildArgsLoop : Nat → Int → Except Stop (List (List (BitVec 8)))
  | 0, _ => return []
  | n + 1, pos => do
    let (chars, count) ← readString store (readAddress pos)
    let args ← buildArgsLoop n (int (pos + int (count + 1)))
    return chars :: args

def buildArgs : Except Stop (List (List (BitVec 8))) := do
  let argCount ← store.read kMessageArgCountPos
  let text ← store.read kMessageTextPos
  buildArgsLoop store argCount.toInt.toNat (int (kMessageTextPos + 1 + text.toNat))

end Readers

section Runs

variable (store : Store)

inductive Call where
  | initializeData
  | getFunctionEntry (start : Int)
  | getSymbolIdentifier
  | messageLocation
  | buildMessage
  | buildArgs
  deriving DecidableEq, Repr

def Call.ofMessage : Call → Bool
  | messageLocation | buildMessage | buildArgs => true
  | _ => false

def step (st : ScriptDataImpl) : Call → Except Stop ScriptDataImpl
  | .initializeData => initializeData store st
  | .getFunctionEntry start => do
    let (_, st) ← getFunctionEntry store st start
    return st
  | .getSymbolIdentifier => do
    let (_, st) ← getSymbolIdentifier store st
    return st
  | .messageLocation => do
    let _ ← messageLocation store
    return st
  | .buildMessage => do
    let _ ← buildMessage store
    return st
  | .buildArgs => do
    let _ ← buildArgs store
    return st

def run (st : ScriptDataImpl) : List Call → Except Stop ScriptDataImpl
  | [] => return st
  | call :: calls => do
    let st ← step store st call
    run st calls

def hasError : Prop := store.get kHasErrorOffset ≠ 0

instance : Decidable (hasError store) := inferInstanceAs (Decidable (_ ≠ _))

/-- The check reads in the array, and so do all calls after `Initialize` on data it accepts. Before,
the fields have any values. -/
def SafeToRead : Prop :=
  (∃ accepted, sanityCheck store = .ok accepted) ∧ (sanityCheck store = .ok true → ∀ st calls,
      (∀ call ∈ calls, call.ofMessage = true → hasError store) →
        ∃ st', run store st (.initializeData :: calls) = .ok st')

end Runs

end W16.PreparseSanity
