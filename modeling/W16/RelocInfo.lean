import Mathlib

/-!
# Relocation information

`RelocInfoWriter` and `RelocIterator`. Records are written towards lower addresses, so a
stream is the list of its bytes from the highest address down: writing appends a byte,
reading takes the first one. A read below the end of the stream has no result.
-/
namespace W16.Reloc

set_option linter.dupNamespace false

/-- `RelocInfo::Mode` without the pseudo-types, in its order. -/
inductive Mode where
  | codeTarget
  | codeTargetWithId
  | constructCall
  | codeTargetContext
  | debugBreak
  | embeddedObject
  | globalPropertyCell
  | runtimeEntry
  | jsReturn
  | comment
  | position
  | statementPosition
  | debugBreakSlot
  | externalReference
  | internalReference
  deriving DecidableEq, Repr

def modes : List Mode :=
  [.codeTarget, .codeTargetWithId, .constructCall, .codeTargetContext, .debugBreak, .embeddedObject,
    .globalPropertyCell, .runtimeEntry, .jsReturn, .comment, .position, .statementPosition, .debugBreakSlot,
    .externalReference, .internalReference]

/-- The value of the enumerator. -/
def Mode.index (mode : Mode) : Nat := modes.idxOf mode

def lastCompactEnum : Nat := Mode.codeTargetWithId.index

def Mode.isPosition (mode : Mode) : Bool := mode = .position || mode = .statementPosition

structure RelocInfo where
  pc : Nat
  rmode : Mode
  data : Int
  deriving DecidableEq, Repr

inductive Target where
  | bits32
  | bits64
  deriving DecidableEq, Repr

def kIntSize : Nat := 4

def Target.kIntptrSize : Target → Nat
  | bits32 => 4
  | bits64 => 8

def kTagBits : Nat := 2
def kExtraTagBits : Nat := 4
def kLocatableTypeTagBits : Nat := 2

def kEmbeddedObjectTag : Nat := 0
def kCodeTargetTag : Nat := 1
def kLocatableTag : Nat := 2
def kDefaultTag : Nat := 3

def kSmallPCDeltaBits : Nat := 8 - kTagBits
def kSmallDataBits : Nat := 8 - kLocatableTypeTagBits

def kPCJumpExtraTag : Nat := 2 ^ kExtraTagBits - 1
def kDataJumpExtraTag : Nat := kPCJumpExtraTag - 1

def kVariableLengthPCJumpTopTag : Nat := 1
def kChunkBits : Nat := 7
def kLastChunkTagBits : Nat := 1

def kCodeWithIdTag : Nat := 0
def kNonstatementPositionTag : Nat := 1
def kStatementPositionTag : Nat := 2
def kCommentTag : Nat := 3

/-- The value of an `int` or `intptr_t` of the given size in bytes. -/
def wrap (size : Nat) (x : Int) : Int := x.bmod (2 ^ (8 * size))

/-- `static_cast<byte>`. -/
def byte (x : Int) : Nat := (x % 2 ^ 8).toNat

/-! ## The writer -/

/-- `bytes` is what lies between the start of the stream and `pos_`. -/
structure Writer where
  bytes : List Nat
  lastPc : Nat
  lastId : Int
  lastPosition : Int

def Writer.new (pc : Nat) : Writer := ⟨[], pc, 0, 0⟩

def isIntn (x : Int) (n : Nat) : Bool := -2 ^ (n - 1) ≤ x && x < 2 ^ (n - 1)

/-- The chunks of a pc jump. -/
def chunks : Nat → Nat → List Nat
  | 0, _ => []
  | fuel + 1, pcJump =>
    if pcJump > 0 then pcJump % 2 ^ kChunkBits * 2 ^ kLastChunkTagBits :: chunks fuel (pcJump / 2 ^ kChunkBits)
    else []

def tagLast : List Nat → List Nat
  | [] => []
  | [b] => [b + 1]
  | b :: c :: rest => b :: tagLast (c :: rest)

def extraTag (extra top : Nat) : Nat := top * 2 ^ (kTagBits + kExtraTagBits) + extra * 2 ^ kTagBits + kDefaultTag

/-- `WriteVariableLengthPCJump`: the bytes of the jump and what is left of the delta. -/
def variableLengthPCJump (pcDelta : Nat) : List Nat × Nat :=
  if pcDelta < 2 ^ kSmallPCDeltaBits then ([], pcDelta)
  else (extraTag kPCJumpExtraTag kVariableLengthPCJumpTopTag :: tagLast (chunks 32 (pcDelta / 2 ^ kSmallPCDeltaBits)),
    pcDelta % 2 ^ kSmallPCDeltaBits)

def taggedPC (pcDelta tag : Nat) : List Nat :=
  let (jump, pcDelta) := variableLengthPCJump pcDelta
  jump ++ [pcDelta * 2 ^ kTagBits + tag]

def taggedData (dataDelta : Int) (tag : Nat) : List Nat := [byte (dataDelta * 2 ^ kLocatableTypeTagBits + tag)]

def extraTaggedPC (pcDelta extra : Nat) : List Nat :=
  let (jump, pcDelta) := variableLengthPCJump pcDelta
  jump ++ [extraTag extra 0, pcDelta]

/-- The bytes of a number, the lowest first. -/
def dataBytes : Nat → Int → List Nat
  | 0, _ => []
  | n + 1, dataDelta => byte dataDelta :: dataBytes n (dataDelta / 2 ^ 8)

/-- `WriteExtraTaggedIntData` and `WriteExtraTaggedData`, which differ in the size. -/
def extraTaggedData (size : Nat) (dataDelta : Int) (top : Nat) : List Nat :=
  extraTag kDataJumpExtraTag top :: dataBytes size dataDelta

/-- A pc and a delta of data, in a tagged byte if it is small enough. -/
def locatable (pcDelta : Nat) (dataDelta : Int) (tag : Nat) : List Nat :=
  if isIntn dataDelta kSmallDataBits then taggedPC pcDelta kLocatableTag ++ taggedData dataDelta tag
  else extraTaggedPC pcDelta kPCJumpExtraTag ++ extraTaggedData kIntSize dataDelta tag

def Mode.positionTag (mode : Mode) : Nat :=
  if mode = .position then kNonstatementPositionTag else kStatementPositionTag

def write (target : Target) (w : Writer) (rinfo : RelocInfo) : Writer :=
  let pcDelta := (rinfo.pc - w.lastPc) % 2 ^ 32
  let data := wrap kIntSize rinfo.data
  if rinfo.rmode = .embeddedObject then
    ⟨w.bytes ++ taggedPC pcDelta kEmbeddedObjectTag, rinfo.pc, w.lastId, w.lastPosition⟩
  else if rinfo.rmode = .codeTarget then
    ⟨w.bytes ++ taggedPC pcDelta kCodeTargetTag, rinfo.pc, w.lastId, w.lastPosition⟩
  else if rinfo.rmode = .codeTargetWithId then
    ⟨w.bytes ++ locatable pcDelta (wrap kIntSize (data - w.lastId)) kCodeWithIdTag, rinfo.pc, data, w.lastPosition⟩
  else if rinfo.rmode.isPosition then
    ⟨w.bytes ++ locatable pcDelta (wrap kIntSize (data - w.lastPosition)) rinfo.rmode.positionTag, rinfo.pc,
      w.lastId, data⟩
  else if rinfo.rmode = .comment then
    ⟨w.bytes ++ (extraTaggedPC pcDelta kPCJumpExtraTag ++ extraTaggedData target.kIntptrSize rinfo.data kCommentTag),
      rinfo.pc, w.lastId, w.lastPosition⟩
  else
    ⟨w.bytes ++ extraTaggedPC pcDelta (rinfo.rmode.index - lastCompactEnum), rinfo.pc, w.lastId, w.lastPosition⟩

/-- The bytes that a sequence of calls of `Write` leaves. -/
def writeAll (target : Target) (pc : Nat) (rinfos : List RelocInfo) : Writer :=
  rinfos.foldl (write target) (Writer.new pc)

/-! ## The iterator -/

/-- `bytes` is what lies between `pos_` and `end_`, `current` is the byte at `pos_`. -/
structure Iterator where
  bytes : List Nat
  current : Nat
  rinfo : RelocInfo
  done : Bool
  modeMask : BitVec 32
  lastId : Int
  lastPosition : Int

def Mode.mask (mode : Mode) : BitVec 32 := 1#32 <<< mode.index

def kPositionMask : BitVec 32 := Mode.position.mask ||| Mode.statementPosition.mask

namespace Iterator

/-- What `SetMode` tests. -/
def wants (mask : BitVec 32) (mode : Mode) : Bool := mask &&& mode.mask != 0

def advance (it : Iterator) : Option Iterator :=
  match it.bytes with
  | [] => none
  | b :: rest => some { it with bytes := rest, current := b }

def advanceBy : Nat → Iterator → Option Iterator
  | 0, it => some it
  | n + 1, it => it.advance.bind (advanceBy n)

def setMode (it : Iterator) (mode : Mode) : Iterator := { it with rinfo := { it.rinfo with rmode := mode } }

/-- `SetMode`, and whether it succeeds. -/
def select (mode : Mode) (it : Iterator) : Iterator × Bool :=
  if wants it.modeMask mode then (it.setMode mode, true) else (it, false)

def addPc (it : Iterator) (delta : Nat) : Iterator := { it with rinfo := { it.rinfo with pc := it.rinfo.pc + delta } }

def setData (it : Iterator) (data : Int) : Iterator := { it with rinfo := { it.rinfo with data := data } }

def tag (it : Iterator) : Nat := it.current % 2 ^ kTagBits

def getExtraTag (it : Iterator) : Nat := it.current / 2 ^ kTagBits % 2 ^ kExtraTagBits

def getTopTag (it : Iterator) : Nat := it.current / 2 ^ (kTagBits + kExtraTagBits)

def getLocatableTypeTag (it : Iterator) : Nat := it.current % 2 ^ kLocatableTypeTagBits

def readTaggedPC (it : Iterator) : Iterator := it.addPc (it.current / 2 ^ kTagBits)

def advanceReadPC (it : Iterator) : Option Iterator := do
  let it ← it.advance
  some (it.addPc it.current)

/-- The loops of `AdvanceReadId`, `AdvanceReadPosition` and `AdvanceReadData`. -/
def readBytes : Nat → Nat → Nat → Iterator → Option (Nat × Iterator)
  | 0, _, x, it => some (x, it)
  | n + 1, i, x, it => do
    let it ← it.advance
    readBytes n (i + 1) (x ||| it.current <<< (i * 8)) it

def addId (it : Iterator) (x : Int) : Iterator :=
  let lastId := wrap kIntSize (it.lastId + x)
  { it with lastId := lastId, rinfo := { it.rinfo with data := lastId } }

def addPosition (it : Iterator) (x : Int) : Iterator :=
  let lastPosition := wrap kIntSize (it.lastPosition + x)
  { it with lastPosition := lastPosition, rinfo := { it.rinfo with data := lastPosition } }

def advanceReadId (it : Iterator) : Option Iterator := do
  let (x, it) ← readBytes kIntSize 0 0 it
  some (it.addId (wrap kIntSize x))

def advanceReadPosition (it : Iterator) : Option Iterator := do
  let (x, it) ← readBytes kIntSize 0 0 it
  some (it.addPosition (wrap kIntSize x))

def advanceReadData (target : Target) (it : Iterator) : Option Iterator := do
  let (x, it) ← readBytes target.kIntptrSize 0 0 it
  some (it.setData (wrap target.kIntptrSize x))

/-- `n` rounds of the loop of `AdvanceReadVariableLengthPCJump` from round `i` on. -/
def readChunks : Nat → Nat → Nat → Iterator → Option (Nat × Iterator)
  | 0, _, pcJump, it => some (pcJump, it)
  | n + 1, i, pcJump, it => do
    let it ← it.advance
    let pcJump := pcJump ||| (it.current / 2 ^ kLastChunkTagBits) <<< (i * kChunkBits)
    if it.current % 2 = 1 then some (pcJump, it) else readChunks n (i + 1) pcJump it

def advanceReadVariableLengthPCJump (it : Iterator) : Option Iterator := do
  let (pcJump, it) ← readChunks kIntSize 0 0 it
  some (it.addPc (pcJump * 2 ^ kSmallPCDeltaBits % 2 ^ 32))

/-- `signed_b >> kLocatableTypeTagBits`, of the byte as an `int8_t`. -/
def taggedDelta (b : Nat) : Int := wrap 1 b / 2 ^ kLocatableTypeTagBits

def readTaggedId (it : Iterator) : Iterator := it.addId (taggedDelta it.current)

def readTaggedPosition (it : Iterator) : Iterator := it.addPosition (taggedDelta it.current)

def positionModeFromTag (tag : Nat) : Mode :=
  if tag = kNonstatementPositionTag then .position else .statementPosition

/-- The body of the loop of `next`, and whether it returns. -/
def body (target : Target) (it : Iterator) : Option (Iterator × Bool) := do
  let it ← it.advance
  if it.tag = kEmbeddedObjectTag then
    some (it.readTaggedPC.select .embeddedObject)
  else if it.tag = kCodeTargetTag then
    some (it.readTaggedPC.select .codeTarget)
  else if it.tag = kLocatableTag then
    let it ← it.readTaggedPC.advance
    if it.getLocatableTypeTag = kCodeWithIdTag then
      if wants it.modeMask .codeTargetWithId then some ((it.setMode .codeTargetWithId).readTaggedId, true)
      else some (it, false)
    else if it.modeMask &&& kPositionMask != 0 then
      some (it.readTaggedPosition.select (positionModeFromTag it.getLocatableTypeTag))
    else some (it, false)
  else if it.getExtraTag = kPCJumpExtraTag then
    if it.getTopTag = kVariableLengthPCJumpTopTag then
      return (← it.advanceReadVariableLengthPCJump, false)
    else return (← it.advanceReadPC, false)
  else if it.getExtraTag = kDataJumpExtraTag then
    let locatableTag := it.getTopTag
    if locatableTag = kCodeWithIdTag then
      if wants it.modeMask .codeTargetWithId then
        return (← (it.setMode .codeTargetWithId).advanceReadId, true)
      else return (← advanceBy kIntSize it, false)
    else if locatableTag ≠ kCommentTag then
      if it.modeMask &&& kPositionMask != 0 then
        return (← it.advanceReadPosition).select (positionModeFromTag locatableTag)
      else return (← advanceBy kIntSize it, false)
    else
      if wants it.modeMask .comment then return (← (it.setMode .comment).advanceReadData target, true)
      else return (← advanceBy target.kIntptrSize it, false)
  else
    let extra := it.getExtraTag
    let it ← it.advanceReadPC
    let mode ← modes[extra + lastCompactEnum]?
    return it.select mode

/-- The loop of `next`. Every round reads a byte, so there are at most as many rounds as bytes. -/
def nextLoop (target : Target) : Nat → Iterator → Option Iterator
  | 0, it => some { it with done := true }
  | fuel + 1, it =>
    if it.bytes = [] then some { it with done := true }
    else do
      let (it, found) ← body target it
      if found then some it else nextLoop target fuel it

def next (target : Target) (it : Iterator) : Option Iterator := nextLoop target it.bytes.length it

/-- The constructor. -/
def new (target : Target) (pc : Nat) (bytes : List Nat) (mask : BitVec 32) : Option Iterator :=
  let bytes := if mask = 0 then [] else bytes
  next target ⟨bytes, 0, ⟨pc, .codeTarget, 0⟩, false, mask, 0, 0⟩

/-- `for (; !it.done(); it.next())`, with the records that it sees. -/
def records (target : Target) : Nat → Iterator → Option (List RelocInfo × Iterator)
  | 0, _ => none
  | fuel + 1, it =>
    if it.done then some ([], it)
    else do
      let (rinfos, last) ← records target fuel (← next target it)
      some (it.rinfo :: rinfos, last)

end Iterator

/-- All records of a stream that the mask selects, and the iterator at the end. -/
def readAll (target : Target) (pc : Nat) (bytes : List Nat) (mask : BitVec 32) :
    Option (List RelocInfo × Iterator) := do
  let it ← Iterator.new target pc bytes mask
  Iterator.records target (bytes.length + 1) it

end W16.Reloc
