import W16.CharacterStream

/-!
# Blocks of strings

The strings of the heap and the ways to read them: `ReadBlock` and `ReadBlockIntoBuffer`, the
input buffers on top, `WriteToFlat` and `Get`. A read behind the data of a string and a write
behind the capacity of a buffer have no result. Lengths are bounded by `String::kMaxLength`, and
no sum of an offset and a length leaves its `unsigned`.
-/
namespace W16.StringBlocks

open Unibrow (kMaxOneByteChar encodeAsciiCharacter encodeNonAsciiCharacter decodeCharacter)

set_option linter.dupNamespace false

/-! ## Strings -/

/-- ASCII data is strictly 7-bit. -/
abbrev AsciiChar := { b : UInt8 // b.toNat ≤ kMaxOneByteChar }

inductive FlatString where
  | seqAscii (chars : List AsciiChar)
  | seqTwoByte (chars : List UInt16)
  | externalAscii (data : List AsciiChar)
  | externalTwoByte (data : List UInt16)

def FlatString.length : FlatString → Nat
  | .seqAscii chars => chars.length
  | .seqTwoByte chars => chars.length
  | .externalAscii data => data.length
  | .externalTwoByte data => data.length

/-- A slice lies inside its parent, which is flat. -/
inductive Str where
  | flat (string : FlatString)
  | cons (first second : Str)
  | sliced (parent : FlatString) (offset length : Nat) (h : offset + length ≤ parent.length)

def Str.length : Str → Nat
  | .flat string => string.length
  | .cons first second => first.length + second.length
  | .sliced _ _ length _ => length

def Str.isCons : Str → Bool
  | .cons _ _ => true
  | _ => false

/-! ## Buffers -/

variable {s : Nat}

/-- The capacity is `s`. -/
structure ReadBlockBuffer (s : Nat) where
  utilBuffer : Vector UInt8 s
  cursor : Nat
  remaining : Nat

/-- A pointer: `NULL`, the data of a string from some place on, or the buffer. -/
inductive Block where
  | null
  | data (bytes : List UInt8)
  | util

def Block.read (block : Block) (utilBuffer : Vector UInt8 s) (i : Nat) : Option UInt8 :=
  match block with
  | .null => none
  | .data bytes => bytes[i]?
  | .util => utilBuffer[i]?

def memcpy (buffer : Vector UInt8 s) (start : Nat) : List UInt8 → Option (Vector UInt8 s)
  | [] => some buffer
  | b :: bytes => if h : start < s then memcpy (buffer.set start b) (start + 1) bytes else none

/-- `count` elements of the data of a string. -/
def elements {α : Type} (data : List α) (offset count : Nat) : Option (List α) :=
  if offset + count ≤ data.length then some ((data.drop offset).take count) else none

/-! ## Flat strings -/

/-- `chars_read` counts up to `max_chars`, of which so many are left. -/
def twoByteReadBlockLoop (data : List UInt16) :
    Nat → ReadBlockBuffer s → Nat → Nat → Option (ReadBlockBuffer s × Nat × Nat)
  | 0, rbb, offset, charsRead => some (rbb, offset, charsRead)
  | left + 1, rbb, offset, charsRead => do
    let c ← data[offset]?
    let written :=
      if c.toNat ≤ kMaxOneByteChar then encodeAsciiCharacter c.toNat rbb.utilBuffer rbb.cursor
      else encodeNonAsciiCharacter c.toNat rbb.utilBuffer rbb.cursor
    match written with
    | none => some (rbb, offset, charsRead)
    | some (utilBuffer, cursor) =>
      twoByteReadBlockLoop data left { rbb with utilBuffer, cursor } (offset + 1) (charsRead + 1)

def twoByteReadBlockIntoBuffer (data : List UInt16) (rbb : ReadBlockBuffer s) (offset maxChars : Nat) :
    Option (ReadBlockBuffer s × Nat) := do
  let (rbb, offset, charsRead) ← twoByteReadBlockLoop data maxChars rbb offset 0
  return ({ rbb with remaining := rbb.remaining + charsRead }, offset)

def asciiReadBlockIntoBuffer (data : List AsciiChar) (rbb : ReadBlockBuffer s) (offset maxChars : Nat) :
    Option (ReadBlockBuffer s × Nat) :=
  if rbb.cursor ≤ s then do
    let capacity := s - rbb.cursor
    let maxChars := if maxChars > capacity then capacity else maxChars
    let bytes ← elements data offset maxChars
    let utilBuffer ← memcpy rbb.utilBuffer rbb.cursor (bytes.map Subtype.val)
    return (⟨utilBuffer, rbb.cursor + maxChars, rbb.remaining + maxChars⟩, offset + maxChars)
  -- the difference of unsigned numbers would wrap
  else none

def asciiReadBlock (data : List AsciiChar) (rbb : ReadBlockBuffer s) (offset maxChars : Nat) :
    Block × ReadBlockBuffer s × Nat :=
  (.data ((data.drop offset).map Subtype.val), { rbb with remaining := maxChars }, offset + maxChars)

section Flat

variable (rbb : ReadBlockBuffer s) (offset maxChars : Nat)

def seqTwoByteStringReadBlockIntoBuffer (chars : List UInt16) := twoByteReadBlockIntoBuffer chars rbb offset maxChars
def externalTwoByteStringReadBlockIntoBuffer (data : List UInt16) := twoByteReadBlockIntoBuffer data rbb offset maxChars
def seqAsciiStringReadBlockIntoBuffer (chars : List AsciiChar) := asciiReadBlockIntoBuffer chars rbb offset maxChars
def externalAsciiStringReadBlockIntoBuffer (data : List AsciiChar) := asciiReadBlockIntoBuffer data rbb offset maxChars
def seqAsciiStringReadBlock (chars : List AsciiChar) := asciiReadBlock chars rbb offset maxChars
def externalAsciiStringReadBlock (data : List AsciiChar) := asciiReadBlock data rbb offset maxChars

/-- `String::ReadBlockIntoBuffer` of a flat string. -/
def flatReadBlockIntoBuffer (string : FlatString) : Option (ReadBlockBuffer s × Nat) :=
  if maxChars = 0 then some (rbb, offset)
  else
    match string with
    | .seqAscii chars => seqAsciiStringReadBlockIntoBuffer rbb offset maxChars chars
    | .seqTwoByte chars => seqTwoByteStringReadBlockIntoBuffer rbb offset maxChars chars
    | .externalAscii data => externalAsciiStringReadBlockIntoBuffer rbb offset maxChars data
    | .externalTwoByte data => externalTwoByteStringReadBlockIntoBuffer rbb offset maxChars data

/-- `String::ReadBlock` of a flat string. -/
def flatReadBlock (string : FlatString) : Option (Block × ReadBlockBuffer s × Nat) :=
  if maxChars = 0 then some (.null, { rbb with remaining := 0 }, offset)
  else
    match string with
    | .seqAscii chars => some (seqAsciiStringReadBlock rbb offset maxChars chars)
    | .seqTwoByte chars => do
      let (rbb, offset) ← seqTwoByteStringReadBlockIntoBuffer rbb offset maxChars chars
      return (.util, rbb, offset)
    | .externalAscii data => some (externalAsciiStringReadBlock rbb offset maxChars data)
    | .externalTwoByte data => do
      let (rbb, offset) ← externalTwoByteStringReadBlockIntoBuffer rbb offset maxChars data
      return (.util, rbb, offset)

end Flat

def slicedStringReadBlockIntoBuffer (parent : FlatString) (offset : Nat) (rbb : ReadBlockBuffer s)
    (offsetPtr chars : Nat) : Option (ReadBlockBuffer s × Nat) := do
  let (rbb, offsetPtr) ← flatReadBlockIntoBuffer rbb (offsetPtr + offset) chars parent
  return (rbb, offsetPtr - offset)

def slicedStringReadBlock (parent : FlatString) (offset : Nat) (rbb : ReadBlockBuffer s)
    (offsetPtr chars : Nat) : Option (Block × ReadBlockBuffer s × Nat) := do
  let (block, rbb, offsetPtr) ← flatReadBlock rbb (offsetPtr + offset) chars parent
  return (block, rbb, offsetPtr - offset)

/-! ## Cons strings -/

/-- `String::ReadBlockIntoBuffer`, where `cons` is the method of a cons string. -/
def readBlockIntoBufferOf (cons : ReadBlockBuffer s → Nat → Nat → Option (ReadBlockBuffer s × Nat))
    (input : Str) (rbb : ReadBlockBuffer s) (offset maxChars : Nat) : Option (ReadBlockBuffer s × Nat) :=
  if maxChars = 0 then some (rbb, offset)
  else
    match input with
    | .flat string => flatReadBlockIntoBuffer rbb offset maxChars string
    | .cons _ _ => cons rbb offset maxChars
    | .sliced parent start _ _ => slicedStringReadBlockIntoBuffer parent start rbb offset maxChars

/-- The loop over `current`, with `offset_correction`. -/
def consStringReadBlockIntoBuffer : Str → ReadBlockBuffer s → Nat → Nat → Nat → Option (ReadBlockBuffer s × Nat)
  | .cons left right, rbb, offset, correction, maxChars =>
    if left.length > offset ∧ maxChars ≤ left.length - offset then
      if left.isCons then consStringReadBlockIntoBuffer left rbb offset correction maxChars
      else do
        let (rbb, offset) ← readBlockIntoBufferOf
          (fun rbb offset maxChars => consStringReadBlockIntoBuffer left rbb offset 0 maxChars) left rbb offset maxChars
        return (rbb, offset + correction)
    else if left.length ≤ offset then
      if right.isCons then
        consStringReadBlockIntoBuffer right rbb (offset - left.length) (correction + left.length) maxChars
      else do
        let (rbb, offset) ← readBlockIntoBufferOf
          (fun rbb offset maxChars => consStringReadBlockIntoBuffer right rbb offset 0 maxChars) right rbb
          (offset - left.length) maxChars
        return (rbb, offset + (correction + left.length))
    else do
      -- The block to be read spans two sides of the ConsString, so we recurse.
      let rest := maxChars - (left.length - offset)
      let (rbb, offset) ← readBlockIntoBufferOf
        (fun rbb offset maxChars => consStringReadBlockIntoBuffer left rbb offset 0 maxChars) left rbb offset
        (left.length - offset)
      if offset = left.length then
        let (rbb, offset) ← readBlockIntoBufferOf
          (fun rbb offset maxChars => consStringReadBlockIntoBuffer right rbb offset 0 maxChars) right rbb
          (offset - left.length) rest
        return (rbb, offset + (correction + left.length))
      else return (rbb, offset + correction)
  | _, _, _, _, _ => none

/-- `String::ReadBlockIntoBuffer` -/
def readBlockIntoBuffer (input : Str) (rbb : ReadBlockBuffer s) (offset maxChars : Nat) :
    Option (ReadBlockBuffer s × Nat) :=
  readBlockIntoBufferOf (fun rbb offset maxChars => consStringReadBlockIntoBuffer input rbb offset 0 maxChars)
    input rbb offset maxChars

/-- `String::ReadBlock`, where `cons` is the method of a cons string. -/
def readBlockOf (cons : ReadBlockBuffer s → Nat → Nat → Option (Block × ReadBlockBuffer s × Nat))
    (input : Str) (rbb : ReadBlockBuffer s) (offset maxChars : Nat) : Option (Block × ReadBlockBuffer s × Nat) :=
  if maxChars = 0 then some (.null, { rbb with remaining := 0 }, offset)
  else
    match input with
    | .flat string => flatReadBlock rbb offset maxChars string
    | .cons _ _ => cons rbb offset maxChars
    | .sliced parent start _ _ => slicedStringReadBlock parent start rbb offset maxChars

def consStringReadBlock : Str → ReadBlockBuffer s → Nat → Nat → Nat → Option (Block × ReadBlockBuffer s × Nat)
  | .cons left right, rbb, offset, correction, maxChars =>
    if left.length > offset ∧ (maxChars ≤ left.length - offset ∨ s ≤ left.length - offset) then
      -- the assignment behind the comma
      let maxChars := if maxChars ≤ left.length - offset then maxChars else left.length - offset
      if left.isCons then consStringReadBlock left rbb offset correction maxChars
      else do
        let (block, rbb, offset) ← readBlockOf
          (fun rbb offset maxChars => consStringReadBlock left rbb offset 0 maxChars) left rbb offset maxChars
        return (block, rbb, offset + correction)
    else if left.length ≤ offset then
      if right.isCons then
        consStringReadBlock right rbb (offset - left.length) (correction + left.length) maxChars
      else do
        let (block, rbb, offset) ← readBlockOf
          (fun rbb offset maxChars => consStringReadBlock right rbb offset 0 maxChars) right rbb
          (offset - left.length) maxChars
        return (block, rbb, offset + (correction + left.length))
    else if rbb.remaining = 0 ∧ rbb.cursor = 0 then do
      let (rbb, offset) ← consStringReadBlockIntoBuffer (.cons left right) rbb offset 0
        (if maxChars > s then s else maxChars)
      return (.util, rbb, offset + correction)
    else none
  | _, _, _, _, _ => none

/-- `String::ReadBlock` -/
def readBlock (input : Str) (rbb : ReadBlockBuffer s) (offset maxChars : Nat) :
    Option (Block × ReadBlockBuffer s × Nat) :=
  readBlockOf (fun rbb offset maxChars => consStringReadBlock input rbb offset 0 maxChars) input rbb offset maxChars

/-! ## Input buffers -/

/-- The block, the buffer, `remaining` and the new offset. -/
def Reader (s : Nat) := Str → Vector UInt8 s → Nat → Option (Block × Vector UInt8 s × Nat × Nat)

/-- `ReadBlock` of a `String*` -/
def stringReadBlock : Reader s := fun input utilBuffer offset => do
  let chars := input.length - offset
  let (answer, rbb, offset) ← readBlock input ⟨utilBuffer, 0, 0⟩ offset chars
  return (answer, rbb.utilBuffer, rbb.remaining, offset)

/-- `ReadBlock` of a `String**` -/
def safeStringReadBlock : Reader s := fun input utilBuffer offset => do
  let chars := input.length - offset
  let chars := if chars > s then s else chars
  let (rbb, offset) ← readBlockIntoBuffer input ⟨utilBuffer, 0, 0⟩ offset chars
  return (.util, rbb.utilBuffer, rbb.remaining, offset)

/-- `InputBuffer<String, I, s>` -/
structure InputBuffer (s : Nat) where
  remaining : Nat
  cursor : Nat
  buffer : Block
  offset : Nat
  input : Str
  utilBuffer : Vector UInt8 s

namespace InputBuffer

variable (reader : Reader s)

def hasMore (st : InputBuffer s) : Bool := st.remaining ≠ 0

def fillBuffer (st : InputBuffer s) : Option (InputBuffer s) := do
  let (buffer, utilBuffer, remaining, offset) ← reader st.input st.utilBuffer st.offset
  return { st with buffer, utilBuffer, remaining, offset }

def reset (st : InputBuffer s) (position : Nat) (input : Str) : Option (InputBuffer s) :=
  fillBuffer reader { st with input, remaining := 0, cursor := 0, offset := position }

def getNext (st : InputBuffer s) : Option (Nat × InputBuffer s) := do
  let (result, cursor) ← decodeCharacter (st.buffer.read st.utilBuffer) st.cursor
  if st.remaining = 1 then do
    let st' ← fillBuffer reader { st with cursor := 0 }
    return (result, st')
  else return (result, { st with cursor, remaining := st.remaining - 1 })

/-- The characters that `GetNext` delivers while there are more, at most `fuel` of them. -/
def deliver : Nat → InputBuffer s → Option (List Nat)
  | 0, _ => none
  | fuel + 1, st =>
    if st.hasMore then do
      let (c, st') ← getNext reader st
      let cs ← deliver fuel st'
      return c :: cs
    else some []

end InputBuffer

/-! ## Get -/

def FlatString.get : FlatString → Nat → Option Nat
  | .seqAscii chars, index => chars[index]?.map (·.val.toNat)
  | .seqTwoByte chars, index => chars[index]?.map (·.toNat)
  | .externalAscii data, index => data[index]?.map (·.val.toNat)
  | .externalTwoByte data, index => data[index]?.map (·.toNat)

/-- The loop of `ConsStringGet`. -/
def consStringGetLoop : Str → Nat → Option Nat
  | .cons left right, index =>
    if left.length > index then consStringGetLoop left index else consStringGetLoop right (index - left.length)
  | .flat string, index => string.get index
  | .sliced parent offset _ _, index => parent.get (offset + index)

def Str.get : Str → Nat → Option Nat
  | .flat string, index => string.get index
  | .cons first second, index =>
    -- a flattened cons string
    if second.length = 0 then first.get index else consStringGetLoop (.cons first second) index
  | .sliced parent offset _ _, index => parent.get (offset + index)

/-! ## WriteToFlat -/

section WriteToFlat

variable {σ : Type} (toSink : Nat → σ)

/-- `CopyChars` into memory at `sink`. -/
def copyChars (memory : List σ) (sink : Nat) (chars : List Nat) : Option (List σ) :=
  if sink + chars.length ≤ memory.length then
    some (memory.take sink ++ chars.map toSink ++ memory.drop (sink + chars.length))
  else none

def flatWriteToFlat (source : FlatString) (memory : List σ) (sink : Nat) (from_ to_ : Int) : Option (List σ) :=
  if 0 ≤ from_ ∧ from_ ≤ to_ ∧ to_ ≤ source.length then
    match source with
    | .externalAscii data => do
      let chars ← elements data from_.toNat (to_ - from_).toNat
      copyChars toSink memory sink (chars.map (·.val.toNat))
    | .externalTwoByte data => do
      let chars ← elements data from_.toNat (to_ - from_).toNat
      copyChars toSink memory sink (chars.map (·.toNat))
    | .seqAscii chars => do
      let chars ← elements chars from_.toNat (to_ - from_).toNat
      copyChars toSink memory sink (chars.map (·.val.toNat))
    | .seqTwoByte chars => do
      let chars ← elements chars from_.toNat (to_ - from_).toNat
      copyChars toSink memory sink (chars.map (·.toNat))
  else none

def writeToFlat : Str → List σ → Nat → Int → Int → Option (List σ)
  | .flat source, memory, sink, from_, to_ => flatWriteToFlat toSink source memory sink from_ to_
  | .sliced parent offset length _, memory, sink, from_, to_ =>
    if 0 ≤ from_ ∧ from_ ≤ to_ ∧ to_ ≤ length then
      flatWriteToFlat toSink parent memory sink (from_ + offset) (to_ + offset)
    else none
  | .cons first second, memory, sink, from_, to_ =>
    let boundary := first.length
    if 0 ≤ from_ ∧ from_ ≤ to_ ∧ to_ ≤ boundary + second.length then
      if to_ - boundary ≥ boundary - from_ then
        -- Right hand side is longer.  Recurse over left.
        if from_ < boundary then do
          let memory ← writeToFlat first memory sink from_ boundary
          writeToFlat second memory (sink + boundary - from_.toNat) 0 (to_ - boundary)
        else writeToFlat second memory sink (from_ - boundary) (to_ - boundary)
      -- Left hand side is longer.  Recurse over right.
      else if to_ > boundary then do
        let memory ← writeToFlat second memory (sink + boundary - from_.toNat) 0 (to_ - boundary)
        writeToFlat first memory sink from_ boundary
      else writeToFlat first memory sink from_ to_
    else none

end WriteToFlat

end W16.StringBlocks
