import W16.BlockCopy
import W16.CellMap

/-!
# The remembered set across a commit

A scavenge finds the pointers from old space into new space in the store buffer or
on pages that are scanned as a whole. `CommitChanges` copies the words of every
private copy over the original object with `CopyBlock` and marks no slot, so the set
stays complete just when every pointer into new space that arrives in an old object
arrives in a slot that is recorded already.
-/
namespace W16.RememberedSet

open BlockCopy List

inductive Word where
  | smi (n : Int)
  | pointer (target : Nat)
  deriving DecidableEq, Repr

/-- What a commit does not change: the space and the page flag of an address, and the
instance size that a map word gives its objects. -/
structure Layout where
  inNewSpace : Nat → Bool
  scanOnScavenge : Nat → Bool
  instanceSize : Word → Nat

structure Heap where
  memory : Memory Word
  storeBuffer : List Nat

variable (L : Layout)

/-- `HeapObject::Size`: the first word of an object is its map. -/
def size (mem : Memory Word) (object : Nat) : Nat := L.instanceSize (mem object)

def pointsToNew : Word → Bool
  | .smi _ => false
  | .pointer target => L.inNewSpace target

/-- A scavenge visits the slot. -/
def Recorded (h : Heap) (slot : Nat) : Prop := slot ∈ h.storeBuffer ∨ L.scanOnScavenge slot = true

/-- Every slot among the first `n` of an old object that points into new space is
recorded. -/
def Remembered (h : Heap) (object n : Nat) : Prop :=
  L.inNewSpace object = false → ∀ i < n, pointsToNew L (h.memory (object + i)) = true →
    Recorded L h (object + i)

/-- `Heap::CopyBlock`, with the size in words. It marks nothing. -/
def copyBlock (h : Heap) (dst src words : Nat) : Heap :=
  { h with memory := copyWords h.memory dst src words }

/-- `CellMap::CommitChanges`: each copy over its object, in the size of the object. -/
def commitChanges (writeSet : CellMap Nat Nat) (h : Heap) : Heap :=
  writeSet.commitChanges (fun h dst src => copyBlock h dst src (size L h.memory dst)) h

/-- The block copies of a commit, with the sizes the objects have before it. -/
def copies (mem : Memory Word) (writeSet : CellMap Nat Nat) : List Copy :=
  writeSet.map fun pair => ⟨pair.1, pair.2, size L mem pair.1⟩

/-- Objects have a map word and lie apart, and an object is not written before its
contents are copied. -/
structure WellPlaced (mem : Memory Word) (writeSet : CellMap Nat Nat) : Prop where
  sized : ∀ pair ∈ writeSet, 0 < size L mem pair.1
  undisturbed : Undisturbed (copies L mem writeSet)

variable {L}

variable {writeSet : CellMap Nat Nat}

/-- The copies before it do not change the size of an object. -/
theorem copies_congr {mem mem' : Memory Word}
    (h : ∀ pair ∈ writeSet, mem' pair.1 = mem pair.1) : copies L mem' writeSet = copies L mem writeSet := by
  apply map_congr_left
  intro pair hp
  simp [size, h pair hp]

theorem commitChanges_memory {h : Heap} (hw : WellPlaced L h.memory writeSet) :
    (commitChanges L writeSet h).memory = copyAll h.memory (copies L h.memory writeSet) := by
  induction writeSet generalizing h with
  | nil => rfl
  | cons pair rest ih =>
    have hlater := (pairwise_cons.mp hw.undisturbed.later).1
    have hmap : ∀ q ∈ rest, copyWords h.memory pair.1 pair.2 (size L h.memory pair.1) q.1 = h.memory q.1 := by
      intro q hq
      apply copyWords_frame
      have hdisj := (hlater _ (mem_map_of_mem hq)).1
      have hpos := hw.sized q (mem_cons_of_mem pair hq)
      simp only [Apart] at hdisj
      omega
    have hcopies := copies_congr (L := L) hmap
    have hrest : WellPlaced L (copyBlock h pair.1 pair.2 (size L h.memory pair.1)).memory rest := by
      constructor
      · intro q hq
        have hpos := hw.sized q (mem_cons_of_mem pair hq)
        rw [size, ← hmap q hq] at hpos
        exact hpos
      · simp only [copyBlock, hcopies]
        exact hw.undisturbed.tail
    have := ih hrest
    simp only [copyBlock, hcopies] at this
    exact this

theorem commitChanges_storeBuffer (writeSet : CellMap Nat Nat) (h : Heap) :
    (commitChanges L writeSet h).storeBuffer = h.storeBuffer := by
  induction writeSet generalizing h with
  | nil => rfl
  | cons pair rest ih => exact ih (copyBlock h pair.1 pair.2 (size L h.memory pair.1))

/-- After the commit every slot of an object holds the word of its copy. -/
theorem commitChanges_slot {h : Heap}
    (hw : WellPlaced L h.memory writeSet) {pair : Nat × Nat} (hp : pair ∈ writeSet) {i : Nat}
    (hi : i < size L h.memory pair.1) :
    (commitChanges L writeSet h).memory (pair.1 + i) = h.memory (pair.2 + i) := by
  rw [commitChanges_memory hw]
  exact copyAll_block h.memory hw.undisturbed
    (c := ⟨pair.1, pair.2, size L h.memory pair.1⟩) (mem_map_of_mem hp) hi

/-- The remembered set is complete for every object that a commit has written, if and
only if every pointer into new space in the copy of an old object stands for a slot of
the object that was recorded before the commit. -/
theorem remembered_after_commit_iff (L : Layout) (h : Heap) (writeSet : CellMap Nat Nat)
    (hw : WellPlaced L h.memory writeSet) :
    (∀ pair ∈ writeSet, Remembered L (commitChanges L writeSet h) pair.1 (size L h.memory pair.1)) ↔
      ∀ pair ∈ writeSet, L.inNewSpace pair.1 = false → ∀ i < size L h.memory pair.1,
        pointsToNew L (h.memory (pair.2 + i)) = true → Recorded L h (pair.1 + i) := by
  have hrec : ∀ slot, Recorded L (commitChanges L writeSet h) slot ↔ Recorded L h slot := by
    intro slot
    simp only [Recorded, commitChanges_storeBuffer]
  constructor
  · intro hafter pair hp hold i hi hpoint
    rw [← commitChanges_slot hw hp hi] at hpoint
    exact (hrec _).mp (hafter pair hp hold i hi hpoint)
  · intro hbefore pair hp hold i hi hpoint
    rw [commitChanges_slot hw hp hi] at hpoint
    grind -linarith

/-- New space starts at address 10 and every object has two words. -/
def smallLayout : Layout where
  inNewSpace a := decide (10 ≤ a)
  scanOnScavenge _ := false
  instanceSize _ := 2

/-- An old object at 0, whose copy at 10 has a field that points to a new object. -/
def smallHeap (storeBuffer : List Nat) : Heap where
  memory a := if a = 11 then .pointer 20 else .smi 0
  storeBuffer := storeBuffer

theorem smallHeap_wellPlaced (storeBuffer : List Nat) :
    WellPlaced smallLayout (smallHeap storeBuffer).memory [(0, 10)] := by
  refine ⟨by simp [size, smallLayout], ?_, ?_⟩
  · simp [copies, size, smallLayout, Apart]
  · simp [copies]

theorem remembered_after_commit_recorded :
    Remembered smallLayout (commitChanges smallLayout [(0, 10)] (smallHeap [1])) 0 2 := by
  refine (remembered_after_commit_iff smallLayout (smallHeap [1]) [(0, 10)]
    (smallHeap_wellPlaced [1])).mpr ?_ (0, 10) (by simp)
  intro pair hp hold i hi hpoint
  rw [mem_singleton.mp hp] at hi hpoint ⊢
  have hi2 : i < 2 := hi
  have h1 : i = 1 := by
    by_contra hne
    have h0 : i = 0 := by omega
    subst h0
    simp [smallHeap, pointsToNew] at hpoint
  subst h1
  exact .inl (by simp [smallHeap])

/-- Every pointer from old into new space is recorded before the commit, and the
commit writes one that is not. -/
theorem commit_forgets_slot :
    ¬ ∀ (L : Layout) (h : Heap) (writeSet : CellMap Nat Nat), WellPlaced L h.memory writeSet →
      (∀ slot, L.inNewSpace slot = false → pointsToNew L (h.memory slot) = true → Recorded L h slot) →
      ∀ pair ∈ writeSet, Remembered L (commitChanges L writeSet h) pair.1 (size L h.memory pair.1) := by
  intro hall
  have hbefore : ∀ slot, smallLayout.inNewSpace slot = false →
      pointsToNew smallLayout ((smallHeap []).memory slot) = true →
      Recorded smallLayout (smallHeap []) slot := by
    intro slot hold hpoint
    by_cases h11 : slot = 11
    · simp [smallLayout, h11] at hold
    · simp [smallHeap, pointsToNew, h11] at hpoint
  have hslot := hall smallLayout (smallHeap []) [(0, 10)] (smallHeap_wellPlaced []) hbefore (0, 10)
    (by simp) rfl 1 (by decide) (by decide)
  simp [Recorded, smallLayout, commitChanges_storeBuffer, smallHeap] at hslot

end W16.RememberedSet
