import W16.StringReadings
import W16.JsonNumbers

/-!
# Hash fields of strings

`StringHasher` with its two loops over the characters, the index that a hash field holds for an
array index of at most seven digits, and `AsArrayIndex`, which reads the index from the field or
from the characters.
-/
namespace W16.StringHash

open StringBlocks

set_option linter.dupNamespace false

def kHashNotComputedMask : BitVec 32 := 1#32
def kIsNotArrayIndexMask : BitVec 32 := 1#32 <<< 1
def kHashShift : Nat := 2
def kMaxArrayIndexSize : Nat := 10
def kMaxCachedArrayIndexLength : Nat := 7
def kArrayIndexValueBits : Nat := 24
def kArrayIndexHashLengthShift : Nat := kArrayIndexValueBits + kHashShift
def kArrayIndexHashMask : BitVec 32 := (1#32 <<< kArrayIndexHashLengthShift) - 1#32
def kContainsCachedArrayIndexMask : BitVec 32 :=
  (~~~ BitVec.ofNat 32 kMaxCachedArrayIndexLength <<< kArrayIndexHashLengthShift) ||| kIsNotArrayIndexMask
def kEmptyHashField : BitVec 32 := kIsNotArrayIndexMask ||| kHashNotComputedMask
def kMaxHashCalcLength : Nat := 16383
def kMaxLength : Nat := 2 ^ 30 - 1

structure StringHasher where
  length : Nat
  rawRunningHash : BitVec 32
  arrayIndex : BitVec 32
  isArrayIndex : Bool

namespace StringHasher

def new (length : Nat) : StringHasher := ⟨length, 0#32, 0#32, 0 < length ∧ length ≤ kMaxArrayIndexSize⟩

def hasTrivialHash (hasher : StringHasher) : Bool := hasher.length > kMaxHashCalcLength

/-- The Jenkins one-at-a-time step. -/
def mix (hash : BitVec 32) (c : Nat) : BitVec 32 :=
  let hash := (hash + BitVec.ofNat 32 c) * 1025#32
  hash ^^^ (hash >>> 6)

def addCharacterNoIndex (c : Nat) (hasher : StringHasher) : StringHasher :=
  { hasher with rawRunningHash := mix hasher.rawRunningHash c }

def addCharacter (c : Nat) (hasher : StringHasher) : StringHasher :=
  let mixed := addCharacterNoIndex c hasher
  if hasher.isArrayIndex then
    let digit := BitVec.ofNat 32 c - 48#32
    if digit > 9#32 ∨ hasher.arrayIndex > 429496729#32 - ((digit + 2#32) >>> 3) then { mixed with isArrayIndex := false }
    else
      let arrayIndex := hasher.arrayIndex * 10#32 + digit
      -- overflows and zeros in front
      if arrayIndex = 0#32 ∧ hasher.length > 1 then { mixed with arrayIndex, isArrayIndex := false }
      else { mixed with arrayIndex }
  else mixed

def getHash (hasher : StringHasher) : BitVec 32 :=
  let result := hasher.rawRunningHash
  let result := result + (result <<< 3)
  let result := result ^^^ (result >>> 11)
  let result := result + (result <<< 15)
  if result = 0#32 then 27#32 else result

def makeArrayIndexHash (value : BitVec 32) (length : Nat) : BitVec 32 :=
  (value <<< kHashShift) ||| (BitVec.ofNat 32 length <<< kArrayIndexHashLengthShift)

def getHashField (hasher : StringHasher) : BitVec 32 :=
  if hasher.length ≤ kMaxHashCalcLength then
    if hasher.isArrayIndex then makeArrayIndexHash hasher.arrayIndex hasher.length
    else (hasher.getHash <<< kHashShift) ||| kIsNotArrayIndexMask
  else (BitVec.ofNat 32 hasher.length <<< kHashShift) ||| kIsNotArrayIndexMask

/-- The first loop of `HashSequentialString`: the characters left and the hasher. -/
def indexLoop : List Nat → StringHasher → List Nat × StringHasher
  | [], hasher => ([], hasher)
  | c :: chars, hasher =>
    if hasher.isArrayIndex then indexLoop chars (addCharacter c hasher) else (c :: chars, hasher)

end StringHasher

open StringHasher

def hashSequentialString (chars : List Nat) : BitVec 32 :=
  let hasher := new chars.length
  if hasher.hasTrivialHash then hasher.getHashField
  else
    let (rest, hasher) := indexLoop chars hasher
    (rest.foldl (fun hasher c => addCharacterNoIndex c hasher) hasher).getHashField

/-- `has_more` and `GetNext` of a character stream. -/
structure CharacterStream (σ : Type) where
  hasMore : σ → Bool
  getNext : σ → Option (Nat × σ)

section Stream

variable {σ : Type} (stream : CharacterStream σ)

def streamIndexLoop : Nat → σ → StringHasher → Option (σ × StringHasher)
  | 0, _, _ => none
  | fuel + 1, buffer, hasher =>
    if stream.hasMore buffer ∧ hasher.isArrayIndex then do
      let (c, buffer) ← stream.getNext buffer
      streamIndexLoop fuel buffer (addCharacter c hasher)
    else return (buffer, hasher)

def streamLoop : Nat → σ → StringHasher → Option StringHasher
  | 0, _, _ => none
  | fuel + 1, buffer, hasher =>
    if stream.hasMore buffer then do
      let (c, buffer) ← stream.getNext buffer
      streamLoop fuel buffer (addCharacterNoIndex c hasher)
    else return hasher

def computeHashField (fuel : Nat) (buffer : σ) (length : Nat) : Option (BitVec 32) :=
  let hasher := new length
  if hasher.hasTrivialHash then return hasher.getHashField
  else do
    let (buffer, hasher) ← streamIndexLoop stream fuel buffer hasher
    let hasher ← streamLoop stream fuel buffer hasher
    return hasher.getHashField

/-- The loop of `ComputeArrayIndex`. The result of the program is `none` for `false`. -/
def arrayIndexLoop : Nat → σ → BitVec 32 → Option (Option (BitVec 32))
  | 0, _, _ => none
  | fuel + 1, buffer, result =>
    if stream.hasMore buffer then do
      let (ch, buffer) ← stream.getNext buffer
      let d : Int := ch - 48
      if d < 0 ∨ d > 9 then return none
      else if result > 429496729#32 - (if d > 5 then 1#32 else 0#32) then return none
      else arrayIndexLoop fuel buffer (result * 10#32 + BitVec.ofInt 32 d)
    else return some result

def computeArrayIndex (fuel : Nat) (buffer : σ) (length : Nat) : Option (Option (BitVec 32)) :=
  if length = 0 ∨ length > kMaxArrayIndexSize then return none
  else do
    let (ch, buffer) ← stream.getNext buffer
    if ch = 48 then return if length = 1 then some 0 else none
    else
      let d : Int := ch - 48
      if d < 0 ∨ d > 9 then return none
      else arrayIndexLoop stream fuel buffer (BitVec.ofInt 32 d)

end Stream

section Strings

variable {s : Nat} (reader : Reader s)

def inputStream : CharacterStream (InputBuffer s) := ⟨InputBuffer.hasMore, InputBuffer.getNext reader⟩

/-- The field that `ComputeAndSetHash` stores. `buffer` is the new `StringInputBuffer`. -/
def computeHash (fuel : Nat) (buffer : InputBuffer s) : Str → Option (BitVec 32)
  | .flat (.seqAscii chars) => return hashSequentialString (chars.map (·.val.toNat))
  | .flat (.seqTwoByte chars) => return hashSequentialString (chars.map (·.toNat))
  | str => do
    let buffer ← buffer.reset reader 0 str
    computeHashField (inputStream reader) fuel buffer str.length

/-- `Hash`: the stored field, or else the computed one, without the flag bits. -/
def hash (fuel : Nat) (buffer : InputBuffer s) (field : BitVec 32) (str : Str) : Option (BitVec 32 × BitVec 32) :=
  if field &&& kHashNotComputedMask = 0#32 then return (field >>> kHashShift, field)
  else do
    let field ← computeHash reader fuel buffer str
    return (field >>> kHashShift, field)

def slowAsArrayIndex (fuel : Nat) (buffer : InputBuffer s) (field : BitVec 32) (str : Str) :
    Option (Option (BitVec 32)) :=
  if str.length ≤ kMaxCachedArrayIndexLength then do
    let (_, field) ← hash reader fuel buffer field str
    if field &&& kIsNotArrayIndexMask ≠ 0#32 then return none
    else return some ((kArrayIndexHashMask &&& field) >>> kHashShift)
  else do
    let buffer ← buffer.reset reader 0 str
    computeArrayIndex (inputStream reader) fuel buffer str.length

def asArrayIndex (fuel : Nat) (buffer : InputBuffer s) (field : BitVec 32) (str : Str) :
    Option (Option (BitVec 32)) :=
  if field &&& kHashNotComputedMask = 0#32 ∧ field &&& kIsNotArrayIndexMask ≠ 0#32 then return none
  else slowAsArrayIndex reader fuel buffer field str

end Strings

end W16.StringHash
