import Mathlib.Logic.Function.Basic
import Mathlib.Data.List.Basic

/-!
# The store buffer

`StoreBuffer` remembers the slots of the old generation that may point into new
space. The mutator appends to a small new buffer, `Compact` moves its entries to
the old buffer through two lossy hash sets, and a page with many entries is
exempted: it is flagged `scan_on_scavenge`, its entries are filtered out and the
scavenger scans the whole page. Addresses are numbers and a chunk is named by a
number. `HandleFullness` and `Compact` call each other; the nested calls find an
empty new buffer.
-/
namespace W16.StoreBuffer

set_option linter.dupNamespace false

def kStoreBufferSize : Nat := 1 <<< 16
def kHashMapLengthLog2 : Nat := 12
def kHashMapLength : Nat := 1 <<< kHashMapLengthLog2
def kPageSize : Nat := 1 <<< 20

/-- The word size of the build, and the chunk that contains an address
(`MemoryChunk::FromAnyPointerAddress`). -/
structure Layout where
  pointerSizeLog2 : Nat
  chunkOf : Nat → Nat

def Layout.kPointerSize (L : Layout) : Nat := 1 <<< L.pointerSizeLog2

def Layout.kStoreBufferLength (L : Layout) : Nat := kStoreBufferSize / L.kPointerSize

def Layout.kOldStoreBufferLength (L : Layout) : Nat := L.kStoreBufferLength * 16

/-- The address of a tagged field: aligned and not null. -/
def Layout.IsSlot (L : Layout) (a : Nat) : Prop :=
  (a >>> L.pointerSizeLog2) <<< L.pointerSizeLog2 = a ∧ a ≠ 0

instance (L : Layout) (a : Nat) : Decidable (L.IsSlot a) := inferInstanceAs (Decidable (_ ∧ _))

/-- The two chunk flags that `Filter` is called with. -/
inductive Flag where
  | scanOnScavenge | aboutToBeFreed
  deriving DecidableEq, Repr

/-- `StoreBufferRebuilder`: the page that is being scanned and the top of the old
buffer when its scan began. -/
structure Rebuilder where
  startOfCurrentPage : Nat
  currentPage : Option Nat
  deriving DecidableEq, Repr

structure State where
  /-- `start_` up to the store buffer top. -/
  newBuffer : List Nat
  /-- `old_start_` up to `old_top_`. -/
  oldBuffer : List Nat
  hashMap1 : Nat → Nat
  hashMap2 : Nat → Nat
  oldBufferIsSorted : Bool
  oldBufferIsFiltered : Bool
  rebuildingEnabled : Bool
  rebuilder : Rebuilder
  /-- The chunks that `PointerChunkIterator` visits. -/
  chunks : List Nat
  scanOnScavenge : Nat → Bool
  aboutToBeFreed : Nat → Bool
  /-- Whether the slot at an address points into new space. -/
  inNewSpace : Nat → Bool
  /-- Not a field of the source: the slots that were recorded and have pointed
  into new space ever since. -/
  recorded : List Nat

namespace State

variable (L : Layout) (s : State)

def isFlagSet (flag : Flag) (chunk : Nat) : Bool :=
  match flag with
  | .scanOnScavenge => s.scanOnScavenge chunk
  | .aboutToBeFreed => s.aboutToBeFreed chunk

def setScanOnScavenge (chunk : Nat) (scan : Bool) : State :=
  { s with scanOnScavenge := Function.update s.scanOnScavenge chunk scan }

/-- `old_limit_ - old_top_`. -/
def room : Nat := L.kOldStoreBufferLength - s.oldBuffer.length

/-- `old_limit_ - old_top_ > old_top_ - old_start_`. -/
def lessThanHalfFull : Bool := s.oldBuffer.length < s.room L

/-- `page_has_scan_on_scavenge_flag`. -/
def pageHasScanOnScavengeFlag : Bool := s.chunks.any s.scanOnScavenge

def zapHashTables : State := { s with hashMap1 := fun _ => 0, hashMap2 := fun _ => 0 }

def gcPrologue : State := s.zapHashTables

def filter (flag : Flag) : State :=
  { s with oldBuffer := s.oldBuffer.filter fun a => !s.isFlagSet flag (L.chunkOf a) }

end State

/-- Every `step`-th element, the first `skip` elements left out. -/
def sampleEvery (step : Nat) : Nat → List Nat → List Nat
  | _, [] => []
  | 0, a :: rest => a :: sampleEvery step (step - 1) rest
  | skip + 1, _ :: rest => sampleEvery step skip rest

/-- What the sampling loop of `ExemptPopularPages` updates. -/
structure Census where
  storeBufferCounter : Nat → Nat
  scanOnScavenge : Nat → Bool
  createdNewScanOnScavengePages : Bool

def Census.count (L : Layout) (threshold : Nat) (c : Census) (addr : Nat) : Census :=
  let chunk := L.chunkOf addr
  let oldCounter := c.storeBufferCounter chunk
  let counted := Function.update c.storeBufferCounter chunk (oldCounter + 1)
  if oldCounter = threshold then
    ⟨counted, Function.update c.scanOnScavenge chunk true, true⟩
  else
    ⟨counted, c.scanOnScavenge, c.createdNewScanOnScavengePages⟩

/-- The table `samples` of `HandleFullness`: sample step and threshold. -/
def samples (L : Layout) : List (Nat × Nat) :=
  [(97, kPageSize / L.kPointerSize / 97 / 8), (23, kPageSize / L.kPointerSize / 23 / 16),
   (7, kPageSize / L.kPointerSize / 7 / 32),
   (3, kPageSize / L.kPointerSize / 3 / 256),
   (1, 0)]

namespace State

variable (L : Layout) (s : State)

/-- The sampling loop, with all counters reset. -/
def census (primeSampleStep threshold : Nat) : Census :=
  (sampleEvery primeSampleStep 0 s.oldBuffer).foldl (Census.count L threshold)
    ⟨fun _ => 0, s.scanOnScavenge, false⟩

def setFiltered : State := { s with oldBufferIsFiltered := true }

def exemptPopularPages (primeSampleStep threshold : Nat) : State :=
  let census := s.census L primeSampleStep threshold
  let flagged := { s with scanOnScavenge := census.scanOnScavenge }
  if census.createdNewScanOnScavengePages then (flagged.filter L .scanOnScavenge).setFiltered
  else flagged.setFiltered

/-- The loop over `samples`; its end is `UNREACHABLE`. -/
def exemptUntilRoomy : List (Nat × Nat) → State → State
  | [], s => s
  | (step, threshold) :: rest, s =>
    let t := s.exemptPopularPages L step threshold
    if t.lessThanHalfFull L then t else exemptUntilRoomy rest t

/-- `if (page_has_scan_on_scavenge_flag) Filter(SCAN_ON_SCAVENGE)`. -/
def filterFlaggedPages : State :=
  if s.pageHasScanOnScavengeFlag then s.filter L .scanOnScavenge else s

/-- `HandleFullness` after its call of `Compact`. -/
def makeRoom : State :=
  let t := s.setFiltered.filterFlaggedPages L
  if t.lessThanHalfFull L then t else exemptUntilRoomy L (samples L).reverse t

def handleFullnessWith (compact : State → State) : State :=
  if s.oldBufferIsFiltered then s else makeRoom L (compact s)

end State

def hash1 (intAddr : Nat) : Nat :=
  (intAddr ^^^ (intAddr >>> kHashMapLengthLog2)) &&& (kHashMapLength - 1)

def hash2 (intAddr : Nat) : Nat :=
  let hash := (intAddr - (intAddr >>> kHashMapLengthLog2)) &&& (kHashMapLength - 1)
  hash ^^^ (hash >>> (kHashMapLengthLog2 * 2))

namespace State

variable (L : Layout) (s : State)

/-- One of the two hash sets holds the shifted address. -/
def isDuplicate (intAddr : Nat) : Bool :=
  s.hashMap1 (hash1 intAddr) == intAddr || s.hashMap2 (hash2 intAddr) == intAddr

/-- Enter an address into one of the hash sets, throwing away others if both
places are taken. -/
def enterHash (intAddr : Nat) : State :=
  if s.hashMap1 (hash1 intAddr) = 0 then
    { s with hashMap1 := Function.update s.hashMap1 (hash1 intAddr) intAddr }
  else if s.hashMap2 (hash2 intAddr) = 0 then
    { s with hashMap2 := Function.update s.hashMap2 (hash2 intAddr) intAddr }
  else
    { s with
      hashMap1 := Function.update s.hashMap1 (hash1 intAddr) intAddr
      hashMap2 := Function.update s.hashMap2 (hash2 intAddr) 0 }

/-- `*old_top_++ = addr`, with the two flags about the old buffer reset. -/
def append (addr : Nat) : State :=
  { s with
    oldBuffer := s.oldBuffer ++ [addr]
    oldBufferIsSorted := false
    oldBufferIsFiltered := false }

/-- The body of the loop of `Compact`. -/
def compactEntry (current : Nat) : State :=
  let intAddr := current >>> L.pointerSizeLog2
  if s.isDuplicate intAddr then s
  else (s.enterHash intAddr).append (intAddr <<< L.pointerSizeLog2)

/-- `CheckForFullBuffer` compares a number of entries with a number of bytes. -/
def checkForFullBufferWith (handleFullness : State → State) : State :=
  if s.room L < kStoreBufferSize * 2 then handleFullness s else s

/-- The state in which the loop of `Compact` starts. -/
def beforeLoopWith (handleFullness : State → State) : State :=
  let emptied := { s with newBuffer := [] }
  if s.newBuffer.length > s.room L then handleFullness emptied else emptied

def compactWith (handleFullness : State → State) : State :=
  if s.newBuffer = [] then s
  else
    (s.newBuffer.foldl (compactEntry L) (s.beforeLoopWith L handleFullness)).checkForFullBufferWith L
      handleFullness

/-- `Compact`. The new buffer is already empty when it calls `HandleFullness`,
whose own `Compact` therefore returns at once. -/
def compact : State := s.compactWith L fun t => t.handleFullnessWith L id

def handleFullness : State := s.handleFullnessWith L (compact L)

def checkForFullBuffer : State := s.checkForFullBufferWith L (handleFullness L)

/-- `Mark`. The overflow bit of the top is set when the new buffer is full. -/
def mark (addr : Nat) : State :=
  let t := { s with newBuffer := s.newBuffer ++ [addr] }
  if L.kStoreBufferLength ≤ t.newBuffer.length then t.compact L else t

/-- `SetTop`. -/
def setTop (top : Nat) : State := { s with oldBuffer := s.oldBuffer.take top }

/-- `StoreBufferRebuilder::Callback` for `kStoreBufferFullEvent`. -/
def storeBufferFullEvent : State :=
  match s.rebuilder.currentPage with
  | none => s.handleFullness L
  | some page => (s.setScanOnScavenge page true).setTop s.rebuilder.startOfCurrentPage

/-- What `kStoreBufferScanningPageEvent` does with the page scanned so far. -/
def finishPage : State :=
  match s.rebuilder.currentPage with
  | none => s
  | some page =>
    if s.scanOnScavenge page then s.setTop s.rebuilder.startOfCurrentPage
    else if s.oldBuffer.length - s.rebuilder.startOfCurrentPage ≥ (s.room L) >>> 2 then
      (s.setScanOnScavenge page true).setTop s.rebuilder.startOfCurrentPage
    else s

/-- `StoreBufferRebuilder::Callback` for `kStoreBufferScanningPageEvent`. -/
def scanningPageEvent (page : Option Nat) : State :=
  let t := s.finishPage L
  { t with rebuilder := ⟨t.oldBuffer.length, page⟩ }

/-- `StoreBufferRebuilder::Callback` for `kStoreBufferStartScanningPagesEvent`. -/
def startScanningPagesEvent : State := { s with rebuilder := ⟨0, none⟩ }

def enterDirectlyIntoStoreBuffer (addr : Nat) : State :=
  if s.rebuildingEnabled then
    let t := s.append addr
    if L.kOldStoreBufferLength ≤ t.oldBuffer.length then t.storeBufferFullEvent L else t
  else s

/-- The loop of `Uniq`. -/
def uniqLoop (inNewSpace : Nat → Bool) : Nat → List Nat → List Nat
  | _, [] => []
  | previous, current :: rest =>
    if current != previous && inNewSpace current then current :: uniqLoop inNewSpace current rest
    else uniqLoop inNewSpace current rest

def uniq : State := { s with oldBuffer := uniqLoop s.inNewSpace 0 s.oldBuffer }

/-- `CompareAddresses` compares the addresses as `intptr_t`. -/
def compareAddresses (a b : Nat) : Bool :=
  (BitVec.ofNat (8 * L.kPointerSize) a).sle (BitVec.ofNat (8 * L.kPointerSize) b)

def sort : State := { s with oldBuffer := s.oldBuffer.mergeSort (compareAddresses L) }

def sortUniq : State :=
  let t := s.compact L
  if t.oldBufferIsSorted then t
  else
    let sorted := (sort L t.zapHashTables).uniq
    { sorted with oldBufferIsSorted := true }

def prepareForIteration : State × Bool :=
  let t := s.compact L
  ((t.filterFlaggedPages L).zapHashTables, t.pageHasScanOnScavengeFlag)

variable {L s}

end State

end W16.StoreBuffer
