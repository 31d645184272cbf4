import W16.HashMap
import Mathlib.Data.List.Basic

/-!
# Collectors

`Collector`: elements are appended to a chunk, which is never moved; a new chunk is begun where
the current one has no room.
-/
namespace W16.Collectors

set_option linter.dupNamespace false

def kMinCapacity : Nat := 16
def growthFactor : Nat := 2
def maxGrowth : Nat := 1048576

/-- `current` holds the elements below `index_`, `capacity` is the length of the chunk. -/
structure Collector (T : Type) where
  chunks : List (List T)
  current : List T
  capacity : Nat
  size : Nat
  room : current.length ≤ capacity
  size_eq : size = chunks.flatten.length + current.length

/-- The capacity of the chunk that `Grow` begins. -/
def growCapacity (currentLength minCapacity : Nat) : Nat :=
  if currentLength < kMinCapacity then
    if minCapacity * growthFactor < kMinCapacity then kMinCapacity else minCapacity * growthFactor
  else
    let growth :=
      if currentLength * (growthFactor - 1) > maxGrowth then maxGrowth
      else currentLength * (growthFactor - 1)
    if currentLength + growth < minCapacity then minCapacity + growth else currentLength + growth

theorem le_growCapacity (currentLength minCapacity : Nat) :
    minCapacity ≤ growCapacity currentLength minCapacity := by
  grind [growthFactor, growCapacity]

namespace Collector

variable {T : Type}

/-- The constructor. -/
def new (initialCapacity : Nat) : Collector T := ⟨[], [], initialCapacity, 0, Nat.zero_le _, rfl⟩

def newChunk (c : Collector T) (newCapacity : Nat) : Collector T where
  chunks := if c.current.length > 0 then c.chunks ++ [c.current] else c.chunks
  current := []
  capacity := newCapacity
  size := c.size
  room := Nat.zero_le _
  size_eq := by
    have hsize := c.size_eq
    grind

def grow (c : Collector T) (minCapacity : Nat) : Collector T :=
  c.newChunk (growCapacity c.capacity minCapacity)

/-- A chunk with room for more elements. -/
def reserve (c : Collector T) (n : Nat) : Collector T :=
  if n > c.capacity - c.current.length then c.grow n else c

theorem reserve_room (c : Collector T) (n : Nat) :
    (c.reserve n).current.length + n ≤ (c.reserve n).capacity := by
  have hroom := c.room
  unfold reserve
  split
  · have hle := le_growCapacity c.capacity n
    show 0 + n ≤ growCapacity c.capacity n
    omega
  · omega

def addBlock (c : Collector T) (source : List T) : Collector T where
  chunks := (c.reserve source.length).chunks
  current := (c.reserve source.length).current ++ source
  capacity := (c.reserve source.length).capacity
  size := (c.reserve source.length).size + source.length
  room := by
    rw [List.length_append]
    exact c.reserve_room source.length
  size_eq := by
    rw [List.length_append, (c.reserve source.length).size_eq, Nat.add_assoc]

/-- `index_ >= current_chunk_.length()` asks for room for one element. -/
def add (c : Collector T) (value : T) : Collector T := c.addBlock [value]

/-- What `WriteTo` writes: one chunk after the other, then the current one. -/
def writeTo (c : Collector T) : List T := c.chunks.flatten ++ c.current

theorem writeTo_reserve (c : Collector T) (n : Nat) : (c.reserve n).writeTo = c.writeTo := by
  unfold reserve
  split
  · show (if c.current.length > 0 then c.chunks ++ [c.current] else c.chunks).flatten ++ []
      = c.chunks.flatten ++ c.current
    cases hcur : c.current with
    | nil => simp
    | cons a rest => simp
  · rfl

@[simp] theorem writeTo_addBlock (c : Collector T) (source : List T) :
    (c.addBlock source).writeTo = c.writeTo ++ source := by
  have hreserve := c.writeTo_reserve source.length
  grind [writeTo, addBlock]

@[simp] theorem writeTo_add (c : Collector T) (value : T) :
    (c.add value).writeTo = c.writeTo ++ [value] := c.writeTo_addBlock [value]

theorem size_writeTo (c : Collector T) : c.size = c.writeTo.length := by
  rw [c.size_eq, writeTo, List.length_append]

end Collector

end W16.Collectors

/-!
## Symbol data of the preparser

`CompleteParserRecorder`, as far as it records symbols, and `ScriptDataImpl`, which reads them
again. No error is logged and recording is not paused. Sizes and numbers of symbols fit an `int`.
-/
namespace W16.Preparse

open Collectors HashMaps

def kNumberTerminator : UInt8 := 0x80
def kMagicNumber : BitVec 32 := 0xBadDead
def kCurrentVersion : BitVec 32 := 7
def kHeaderSize : Nat := 6
def kFunctionsSizeOffset : Nat := 3

/-! ## Keys of the symbol table -/

/-- The bytes are those in `literal_chars_`, where they stay as long as the recorder. -/
structure Key where
  isAscii : Bool
  literalBytes : List UInt8
  deriving DecidableEq

/-- The characters are converted to `int` before. -/
def vectorHash (string : List (BitVec 32)) : BitVec 32 :=
  string.foldl (fun hash c =>
    let hash := hash + c
    let hash := hash + (hash <<< 10)
    hash ^^^ hash.sshiftRight 6) 0

def vectorCompare (a b : Key) : Bool :=
  if a.isAscii ≠ b.isAscii then false
  else if b.literalBytes.length ≠ a.literalBytes.length then false
  else a.literalBytes == b.literalBytes

/-- A `char` is signed. -/
def asciiChars (literal : List UInt8) : List (BitVec 32) :=
  literal.map fun c => c.toBitVec.signExtend 32

def uc16Chars (literal : List UInt16) : List (BitVec 32) :=
  literal.map fun c => c.toBitVec.zeroExtend 32

/-- `Vector<const byte>::cast`, little-endian. -/
def uc16Bytes (literal : List UInt16) : List UInt8 :=
  literal.flatMap fun c : UInt16 => [c.toUInt8, (c >>> 8).toUInt8]

/-- The characters whose bytes these are. -/
def uc16OfBytes : List UInt8 → List UInt16
  | lo :: hi :: rest => (lo.toUInt16 ||| (hi.toUInt16 <<< 8)) :: uc16OfBytes rest
  | _ => []

/-- The hash that is computed for a literal with this key. -/
def Key.hash (k : Key) : BitVec 32 :=
  if k.isAscii then vectorHash (asciiChars k.literalBytes)
  else vectorHash (uc16Chars (uc16OfBytes k.literalBytes))

theorem vectorCompare_iff {a b : Key} : vectorCompare a b = true ↔ a = b := by
  obtain ⟨ascii, bytes⟩ := a
  obtain ⟨ascii', bytes'⟩ := b
  unfold vectorCompare
  grind

def keys : Keys Key where
  isMatch := vectorCompare
  hash := Key.hash
  refl _ := vectorCompare_iff.2 rfl
  symm h := vectorCompare_iff.2 (vectorCompare_iff.1 h).symm
  trans h h' := vectorCompare_iff.2 ((vectorCompare_iff.1 h).trans (vectorCompare_iff.1 h'))
  hash_eq h := congrArg Key.hash (vectorCompare_iff.1 h)

/-! ## Recording -/

structure CompleteParserRecorder where
  functionStore : Collector (BitVec 32)
  literalChars : Collector UInt8
  symbolStore : Collector UInt8
  symbolKeys : Collector Key
  symbolTable : HashMap Key Nat
  symbolId : Nat

def CompleteParserRecorder.new : CompleteParserRecorder where
  functionStore := .new 0
  literalChars := .new 0
  symbolStore := .new 0
  symbolKeys := .new 0
  symbolTable := HashMap.initializeMap 8
  symbolId := 0

/-- One turn of the loop of `WriteNumber`: the store, the number and the mask. -/
def writeDigit : Collector UInt8 × Nat × Nat → Nat → Collector UInt8 × Nat × Nat
  | (store, number, mask), i =>
    if number > mask then
      (store.add (.ofNat (number >>> i) ||| 0x80), number &&& mask, mask >>> 7)
    else (store, number, mask >>> 7)

def writeNumber (store : Collector UInt8) (number : Nat) : Collector UInt8 :=
  let (store, number, _) := [28, 21, 14, 7].foldl writeDigit (store, number, (1 <<< 28) - 1)
  store.add (.ofNat number)

/-- The value of a new entry is `NULL`, which is the number 0. -/
def CompleteParserRecorder.logSymbol (st : CompleteParserRecorder) (hash : BitVec 32)
    (isAscii : Bool) (literalBytes : List UInt8) : Option CompleteParserRecorder := do
  let key : Key := ⟨isAscii, literalBytes⟩
  let (table, p) ← st.symbolTable.lookup keys key hash true
  let p ← p
  let id := (table.entry p).value.getD 0
  if id = 0 then
    let id := st.symbolId + 1
    return { st with
      literalChars := st.literalChars.addBlock literalBytes
      symbolKeys := st.symbolKeys.addBlock [key]
      symbolTable := table.setValue p (some id)
      symbolId := id
      symbolStore := writeNumber st.symbolStore (id - 1) }
  else return { st with symbolTable := table, symbolStore := writeNumber st.symbolStore (id - 1) }

/-- `LogAsciiSymbol` and `LogUC16Symbol` with their literal. -/
inductive Call where
  | logAsciiSymbol (literal : List UInt8)
  | logUC16Symbol (literal : List UInt16)
  deriving DecidableEq

def Call.key : Call → Key
  | logAsciiSymbol literal => ⟨true, literal⟩
  | logUC16Symbol literal => ⟨false, uc16Bytes literal⟩

def CompleteParserRecorder.log (st : CompleteParserRecorder) : Call → Option CompleteParserRecorder
  | .logAsciiSymbol literal => st.logSymbol (vectorHash (asciiChars literal)) true literal
  | .logUC16Symbol literal => st.logSymbol (vectorHash (uc16Chars literal)) false (uc16Bytes literal)

def CompleteParserRecorder.run (st : CompleteParserRecorder) : List Call → Option CompleteParserRecorder
  | [] => some st
  | call :: calls => do
    let st ← st.log call
    st.run calls

/-- The words that the bytes fill. -/
def words : List UInt8 → List (BitVec 32)
  | a :: b :: c :: d :: rest =>
    (d.toBitVec ++ c.toBitVec ++ b.toBitVec ++ a.toBitVec) :: words rest
  | _ => []

/-- The bytes of the words. -/
def bytes (store : List (BitVec 32)) : List UInt8 :=
  store.flatMap fun w =>
    [⟨w.extractLsb' 0 8⟩, ⟨w.extractLsb' 8 8⟩, ⟨w.extractLsb' 16 8⟩, ⟨w.extractLsb' 24 8⟩]

def CompleteParserRecorder.extractData (st : CompleteParserRecorder) : List (BitVec 32) :=
  let functionSize := st.functionStore.size
  let symbolSize := st.symbolStore.size
  let padding := 4 - symbolSize % 4
  let symbolStore := st.symbolStore.addBlock (List.replicate padding kNumberTerminator)
  [kMagicNumber, kCurrentVersion, 0, .ofNat 32 functionSize, .ofNat 32 st.symbolId, 0] ++
    st.functionStore.writeTo ++ words symbolStore.writeTo

/-! ## Reading -/

/-- `symbolData` is what is left before `symbol_data_end_`. -/
structure ScriptDataImpl where
  store : List (BitVec 32)
  symbolData : List UInt8

/-- None where the store has no header, and nothing is set. -/
def initializeData (store : List (BitVec 32)) : Option ScriptDataImpl :=
  if store.length ≥ kHeaderSize then do
    let functionsSize ← store[kFunctionsSizeOffset]?
    let symbolDataOffset := kHeaderSize + functionsSize.toNat
    if store.length > symbolDataOffset then return ⟨store, bytes (store.drop symbolDataOffset)⟩
    else return ⟨store, []⟩
  else none

/-- The loop of `ReadNumber`: `input` was read, `data` comes next. -/
def readLoop : List UInt8 → UInt8 → Nat → Option (Nat × List UInt8)
  | [], input, result => if input &&& 0x80 ≠ 0 then none else some (result, [])
  | next :: data, input, result =>
    if input &&& 0x80 ≠ 0 then readLoop data next ((result <<< 7) ||| (next &&& 0x7f).toNat)
    else some (result, next :: data)

/-- The number and the new `source`. -/
def readNumber : List UInt8 → Int × List UInt8
  | [] => (-1, [])
  | input :: data =>
    if input = kNumberTerminator then (-1, input :: data)
    else
      match readLoop data input (input &&& 0x7f).toNat with
      | none => (-1, input :: data)
      | some (result, rest) => (result, rest)

def ScriptDataImpl.getSymbolIdentifier (st : ScriptDataImpl) : Int × ScriptDataImpl :=
  let (number, data) := readNumber st.symbolData
  (number, { st with symbolData := data })

/-- The first numbers that `GetSymbolIdentifier` returns. -/
def ScriptDataImpl.identifiers (st : ScriptDataImpl) : Nat → List Int
  | 0 => []
  | n + 1 => st.getSymbolIdentifier.1 :: st.getSymbolIdentifier.2.identifiers n

end W16.Preparse
