import W16.StoreBufferSafe
import W16.Transition

/-!
# Runs of the store buffer

A run mixes the operations of the store buffer with what the heap does around
them: slots are written, a rebuild scope is opened and closed, flagged pages are
scanned, pages are freed and their addresses used again. `FreeQueuedChunks`
filters the entries of freed pages out of the old buffer and leaves them in the
hash sets. When no page loses its flag or its memory while a hash set holds one
of its slots, every recorded slot is found by the next scavenge.
-/
namespace W16.StoreBuffer

open Transition List Function

set_option linter.dupNamespace false

namespace State

variable (L : Layout) (s : State)

/-- A slot that points into new space is recorded. -/
def record (a : Nat) : State :=
  if s.inNewSpace a then { s with recorded := a :: s.recorded } else s

/-- Slots that are no slots any more. -/
def forget (p : Nat → Bool) : State := { s with recorded := s.recorded.filter fun a => !p a }

/-- Write a slot. -/
def store (a : Nat) (new : Bool) : State :=
  let t := { s with inNewSpace := Function.update s.inNewSpace a new }
  if new then t else t.forget fun b => b == a

/-- One round of `IteratePointersInStoreBuffer`. The callback moves an object of
from space, and `visit` says whether its new place is in new space; the slots in
the second component have been visited and point to to space. -/
def visitEntry (visit : Nat → Bool) (p : State × List Nat) (slot : Nat) : State × List Nat :=
  if p.1.inNewSpace slot && !p.2.contains slot then
    if visit slot then ((p.1.store slot true).enterDirectlyIntoStoreBuffer L slot, slot :: p.2)
    else (p.1.store slot false, slot :: p.2)
  else p

def iteratePointersInStoreBuffer (visit : Nat → Bool) : State :=
  (s.oldBuffer.foldl (visitEntry L visit) ({ s with oldBuffer := [] }, [])).1

/-- `IteratePointersToNewSpace` up to the scan of the flagged pages. -/
def iteratePointersToNewSpace (visit : Nat → Bool) : State :=
  let t := (s.prepareForIteration L).1.iteratePointersInStoreBuffer L visit
  if (s.prepareForIteration L).2 then t.startScanningPagesEvent else t

/-- `set_scan_on_scavenge(false)`. What the page holds is to be found again, or
the page is empty. -/
def clearScanOnScavenge (page : Nat) : State :=
  (s.forget fun a => L.chunkOf a == page).setScanOnScavenge page false

/-- `FreeQueuedChunks`, for the chunks in its queue. -/
def freeQueuedChunks (queued : List Nat) : State :=
  if queued = [] then s
  else
    let dead := s.forget fun a => queued.contains (L.chunkOf a)
    let marked := { dead with
      chunks := s.chunks.filter fun c => !queued.contains c
      aboutToBeFreed := fun c => queued.contains c || s.aboutToBeFreed c }
    let filtered := (marked.compact L).filter L .aboutToBeFreed
    { filtered with
      scanOnScavenge := fun c => !queued.contains c && filtered.scanOnScavenge c
      aboutToBeFreed := s.aboutToBeFreed }

end State

open State

inductive Action where
  | mark (addr : Nat)
  | enterDirectlyIntoStoreBuffer (addr : Nat)
  | compact
  | handleFullness
  | exemptPopularPages (primeSampleStep threshold : Nat)
  | filter (flag : Flag)
  | sortUniq
  | prepareForIteration
  | gcPrologue
  /-- `StoreBufferRebuildScope` and its destructor. -/
  | enterRebuildScope
  | leaveRebuildScope (stored : Bool)
  | iteratePointersToNewSpace (visit : Nat → Bool)
  /-- A flagged page's turn in `IteratePointersToNewSpace`, and the end of the scan. -/
  | scanPage (page : Nat)
  | endScan
  | freeQueuedChunks (queued : List Nat)
  | allocatePage (page : Nat)
  /-- The pages that `EvacuateNewSpaceAndCandidates` has emptied. -/
  | clearEvacuatedPage (page : Nat)
  | store (addr : Nat) (new : Bool)

def Action.apply (L : Layout) (s : State) : Action → State
  | .mark a => (s.record a).mark L a
  | .enterDirectlyIntoStoreBuffer a =>
    if s.rebuildingEnabled then (s.record a).enterDirectlyIntoStoreBuffer L a
    else s.enterDirectlyIntoStoreBuffer L a
  | .compact => s.compact L
  | .handleFullness => s.handleFullness L
  | .exemptPopularPages step threshold => s.exemptPopularPages L step threshold
  | .filter flag => s.filter L flag
  | .sortUniq => s.sortUniq L
  | .prepareForIteration => (s.prepareForIteration L).1
  | .gcPrologue => s.gcPrologue
  | .enterRebuildScope => { s with rebuildingEnabled := true }.startScanningPagesEvent
  | .leaveRebuildScope stored => { s with rebuildingEnabled := stored }.checkForFullBuffer L
  | .iteratePointersToNewSpace visit => s.iteratePointersToNewSpace L visit
  | .scanPage page => (s.clearScanOnScavenge L page).scanningPageEvent L (some page)
  | .endScan => s.scanningPageEvent L none
  | .freeQueuedChunks queued => s.freeQueuedChunks L queued
  | .allocatePage page => { s with chunks := page :: s.chunks }.clearScanOnScavenge L page
  | .clearEvacuatedPage page => s.clearScanOnScavenge L page
  | .store a new => s.store a new

def step (L : Layout) (s : State) (action : Action) : Option State := some (action.apply L s)

/-- What the callers do: they record slots, scan one page at a time and enter
only its slots meanwhile, and iterate inside a rebuild scope. -/
def Allowed (L : Layout) (s : State) : Action → Prop
  | .mark a => L.IsSlot a ∧ s.rebuilder.currentPage = none
  | .enterDirectlyIntoStoreBuffer a =>
    L.IsSlot a ∧ (s.rebuilder.currentPage = none ∨ s.rebuilder.currentPage = some (L.chunkOf a))
  | .scanPage _ | .endScan | .allocatePage _ | .store _ _ => True
  | .iteratePointersToNewSpace _ =>
    s.rebuilder.currentPage = none ∧ s.rebuildingEnabled = true
  | _ => s.rebuilder.currentPage = none

instance (L : Layout) (s : State) (action : Action) : Decidable (Allowed L s action) := by
  cases action <;> unfold Allowed <;> infer_instance

/-- The hash sets hold no slot of the page that the old buffer lacks. -/
def NoStale (L : Layout) (s : State) (page : Nat) : Prop :=
  ∀ a, L.IsSlot a → L.chunkOf a = page → s.Hashed (a >>> L.pointerSizeLog2) → a ∈ s.oldBuffer

/-- A page is unflagged only when the hash sets hold none of its slots but those
in the old buffer, and freed only when neither they nor the new buffer hold one. -/
def HashesClear (L : Layout) (s : State) : Action → Prop
  | .freeQueuedChunks queued => ∀ a, L.IsSlot a → L.chunkOf a ∈ queued →
      a ∉ s.newBuffer ∧ ¬s.Hashed (a >>> L.pointerSizeLog2)
  | .scanPage page | .allocatePage page | .clearEvacuatedPage page => NoStale L s page
  | _ => True

/-- After `Setup`, with any pages flagged and any slots pointing into new space. -/
def initial (chunks : List Nat) (scanOnScavenge inNewSpace : Nat → Bool) : State where
  newBuffer := []
  oldBuffer := []
  hashMap1 := fun _ => 0
  hashMap2 := fun _ => 0
  oldBufferIsSorted := false
  oldBufferIsFiltered := false
  rebuildingEnabled := false
  rebuilder := ⟨0, none⟩
  chunks := chunks
  scanOnScavenge := scanOnScavenge
  aboutToBeFreed := fun _ => false
  inNewSpace := inNewSpace
  recorded := []

/-- Every recorded slot is in the new buffer, in the old buffer or on a flagged
page. -/
def NoSlotLost (L : Layout) (s : State) : Prop := ∀ a ∈ s.recorded, s.Present L a

/-- The entries since the scan of the current page began are that page's. -/
def Scanning (L : Layout) (s : State) : Prop :=
  ∀ page, s.rebuilder.currentPage = some page → s.rebuilder.startOfCurrentPage ≤ s.oldBuffer.length ∧
      ∀ a ∈ s.oldBuffer.drop s.rebuilder.startOfCurrentPage, L.chunkOf a = page

structure Inv (L : Layout) (s : State) : Prop where
  sound : s.Sound L
  recorded : ∀ a ∈ s.recorded, L.IsSlot a ∧ s.inNewSpace a = true ∧ s.Present L a
  aboutToBeFreed : ∀ c, s.aboutToBeFreed c = false
  scanning : Scanning L s

/-- `Compact` skips an entry, at any point of its loop, only if the old buffer
holds it or its page is flagged. -/
def SkipsOnlyHeld (L : Layout) (s : State) : Prop :=
  ∀ before (current : Nat) after, s.newBuffer = before ++ current :: after →
    let t := before.foldl (compactEntry L) (s.beforeLoopWith L (handleFullness L))
    t.isDuplicate (current >>> L.pointerSizeLog2) = true → t.Held L current

variable {L : Layout} {s t : State} {a c : Nat}

theorem Scanning.of_none (h : s.rebuilder.currentPage = none) : Scanning L s := by
  intro page hpage
  rw [h] at hpage
  cases hpage

/-- Outside of page scans every safe operation keeps the invariant. -/
theorem Inv.of_keeps (hs : Inv L s) (hpage : s.rebuilder.currentPage = none)
    (hsound : t.Sound L) (hkeeps : Keeps L s.newBuffer s t) : Inv L t where
  sound := hsound
  recorded := by
    intro a ha
    rw [hkeeps.recorded] at ha
    obtain ⟨hslot, hnew, hpres⟩ := hs.recorded a ha
    rw [hkeeps.inNewSpace]
    exact ⟨hslot, hnew, hkeeps.present a hslot hnew hpres⟩
  aboutToBeFreed := by
    rw [hkeeps.aboutToBeFreed]
    exact hs.aboutToBeFreed
  scanning := .of_none (by rw [hkeeps.rebuilder]; exact hpage)

theorem Inv.of_safe {f : State → State} (hf : Safe L f) (hs : Inv L s)
    (hpage : s.rebuilder.currentPage = none) : Inv L (f s) :=
  hs.of_keeps hpage (hf s hs.sound).1 (hf s hs.sound).2

theorem mem_record (h : a ∈ (s.record c).recorded) : a ∈ s.recorded ∨ a = c ∧ s.inNewSpace c = true := by
  unfold record at h
  grind

/-- Recording changes nothing but the record. -/
theorem record_eq (s : State) (a : Nat) : ∃ r, s.record a = { s with recorded := r } := by
  unfold record
  split
  · exact ⟨_, rfl⟩
  · exact ⟨_, rfl⟩

theorem Sound.setRecorded (hs : s.Sound L) (r : List Nat) : State.Sound L { s with recorded := r } :=
  ⟨hs.newSlots, hs.oldSlots, hs.hashed⟩

theorem Sound.append_new (hs : s.Sound L) (ha : L.IsSlot a) :
    State.Sound L { s with newBuffer := s.newBuffer ++ [a] } := by
  refine ⟨?_, hs.oldSlots, hs.hashed⟩
  intro b hb
  rcases mem_append.1 hb with hb | hb
  · exact hs.newSlots b hb
  · rw [mem_singleton.1 hb]
    exact ha

theorem Sound.append_old (hs : s.Sound L) (ha : L.IsSlot a) : (s.append a).Sound L := by
  refine ⟨hs.newSlots, ?_, fun n hn => (hs.hashed n hn).imp_left (mem_append_left _)⟩
  intro b hb
  rcases mem_append.1 hb with hb | hb
  · exact hs.oldSlots b hb
  · rw [mem_singleton.1 hb]
    exact ha

/-- A slot that has just been put into one of the buffers may be recorded. -/
theorem Inv.record (hs : Inv L s) (ha : L.IsSlot a) (hsound : t.Sound L)
    (hbuf : ∀ b, s.Present L b → t.Present L b) (hself : t.Present L a)
    (hframe : t.inNewSpace = s.inNewSpace ∧ t.recorded = (s.record a).recorded ∧
      t.aboutToBeFreed = s.aboutToBeFreed) (hscan : Scanning L t) : Inv L t where
  sound := hsound
  recorded := by
    obtain ⟨hnew, hrecorded, -⟩ := hframe
    intro b hb
    rw [hrecorded] at hb
    rw [hnew]
    rcases mem_record hb with hb | ⟨rfl, hb⟩
    · obtain ⟨hslot, hinNew, hpres⟩ := hs.recorded b hb
      exact ⟨hslot, hinNew, hbuf b hpres⟩
    · exact ⟨ha, hb, hself⟩
  aboutToBeFreed := by
    rw [hframe.2.2]
    exact hs.aboutToBeFreed
  scanning := hscan

theorem mark_inv (hs : Inv L s) (ha : L.IsSlot a) (hpage : s.rebuilder.currentPage = none) :
    Inv L ((s.record a).mark L a) := by
  obtain ⟨r, hr⟩ := record_eq s a
  have hpushed : Inv L { s with newBuffer := s.newBuffer ++ [a], recorded := r } := by
    refine hs.record ha (Sound.append_new (Sound.setRecorded hs.sound r) ha) ?_ ?_ ⟨rfl, by rw [hr], rfl⟩
      (.of_none hpage)
    · exact fun b hb => hb.imp_left (mem_append_left _)
    · exact .inl (mem_append_right _ (mem_singleton.2 rfl))
  rw [hr]
  simp only [mark]
  split
  · exact hpushed.of_safe compact_safe hpage
  · exact hpushed

/-- Wiping out the entries of a page that is flagged. -/
theorem setTop_inv (hs : Inv L s) {page : Nat} (hpage : s.rebuilder.currentPage = some page)
    (hflag : s.scanOnScavenge page = true) : Inv L (s.setTop s.rebuilder.startOfCurrentPage) := by
  obtain ⟨hlen, hent⟩ := hs.scanning page hpage
  have hheld : ∀ a, s.Held L a → (s.setTop s.rebuilder.startOfCurrentPage).Held L a := by
    rintro a (ha | ha)
    · rw [← take_append_drop s.rebuilder.startOfCurrentPage s.oldBuffer] at ha
      rcases mem_append.1 ha with ha | ha
      · exact .inl ha
      · refine .inr ?_
        rw [flagged, hent a ha]
        exact hflag
    · exact .inr ha
  refine ⟨⟨hs.sound.newSlots, ?_, fun n hn => hheld _ (hs.sound.hashed n hn)⟩, ?_, hs.aboutToBeFreed, ?_⟩
  · exact fun a ha => hs.sound.oldSlots a (mem_of_mem_take ha)
  · intro a ha
    obtain ⟨hslot, hnew, hpres⟩ := hs.recorded a ha
    exact ⟨hslot, hnew, hpres.imp_right (hheld a)⟩
  · intro page' _
    simp [setTop, hlen]

theorem setFlag_inv (hs : Inv L s) (page : Nat) : Inv L (s.setScanOnScavenge page true) := by
  obtain ⟨hsound, hkeeps⟩ := setFlags_safe (fun s => Function.update s.scanOnScavenge page true)
    (fun s c hc => by
      grind) s hs.sound
  refine ⟨hsound, ?_, hs.aboutToBeFreed, hs.scanning⟩
  intro a ha
  obtain ⟨hslot, hnew, hpres⟩ := hs.recorded a ha
  exact ⟨hslot, hnew, hkeeps.present a hslot hnew hpres⟩

theorem storeBufferFullEvent_inv (hs : Inv L s) : Inv L (s.storeBufferFullEvent L) := by
  unfold storeBufferFullEvent
  cases hpage : s.rebuilder.currentPage with
  | none => exact hs.of_safe handleFullness_safe hpage
  | some page =>
    exact setTop_inv (setFlag_inv hs page) hpage (by simp [setScanOnScavenge])

theorem finishPage_inv (hs : Inv L s) : Inv L (s.finishPage L) := by
  unfold finishPage
  cases hpage : s.rebuilder.currentPage with
  | none => exact hs
  | some page =>
    simp only
    split
    · rename_i hflag
      exact setTop_inv hs hpage hflag
    · split
      · exact setTop_inv (setFlag_inv hs page) hpage (by simp [setScanOnScavenge])
      · exact hs

/-- The scan of a page, or none, begins at the top of the old buffer. -/
theorem scanningPageEvent_inv (hs : Inv L s) (page : Option Nat) : Inv L (s.scanningPageEvent L page) := by
  have h := finishPage_inv hs
  refine ⟨⟨h.sound.newSlots, h.sound.oldSlots, h.sound.hashed⟩, h.recorded, h.aboutToBeFreed, ?_⟩
  intro _ _
  simp [scanningPageEvent]

theorem startScanningPagesEvent_inv (hs : Inv L s) : Inv L s.startScanningPagesEvent :=
  ⟨⟨hs.sound.newSlots, hs.sound.oldSlots, hs.sound.hashed⟩, hs.recorded, hs.aboutToBeFreed, .of_none rfl⟩

theorem Scanning.append (hs : Scanning L s)
    (hpage : s.rebuilder.currentPage = none ∨ s.rebuilder.currentPage = some (L.chunkOf a)) :
    Scanning L (s.append a) := by
  intro page hcur
  obtain ⟨hlen, hent⟩ := hs page hcur
  have ha : L.chunkOf a = page := by
    rcases hpage with h | h
    · exact absurd (h.symm.trans hcur) (by simp)
    · exact Option.some.inj (h.symm.trans hcur)
  refine ⟨?_, ?_⟩
  · simp only [State.append, length_append]
    omega
  · grind [State.append]

theorem enterDirectly_inv (hs : Inv L s) (ha : L.IsSlot a) (henabled : s.rebuildingEnabled = true)
    (hpage : s.rebuilder.currentPage = none ∨ s.rebuilder.currentPage = some (L.chunkOf a)) :
    Inv L ((s.record a).enterDirectlyIntoStoreBuffer L a) := by
  obtain ⟨r, hr⟩ := record_eq s a
  have happended : Inv L ({ s with recorded := r }.append a) := by
    refine hs.record ha (Sound.append_old (Sound.setRecorded hs.sound r) ha) ?_ ?_
      ⟨rfl, by rw [hr]; rfl, rfl⟩ (hs.scanning.append hpage)
    · exact fun b hb => hb.imp_right fun h => h.imp_left (mem_append_left _)
    · exact .inr (.inl (mem_append_right _ (mem_singleton.2 rfl)))
  rw [hr, enterDirectlyIntoStoreBuffer, if_pos henabled]
  grind [storeBufferFullEvent_inv]

theorem not_of_mem_forget {p : Nat → Bool} (ha : a ∈ (s.forget p).recorded) : p a = false := by
  have := (mem_filter.1 ha).2
  simpa using this

theorem store_inv (hs : Inv L s) (a : Nat) (new : Bool) : Inv L (s.store a new) := by
  have hsound : State.Sound L { s with inNewSpace := Function.update s.inNewSpace a new } :=
    ⟨hs.sound.newSlots, hs.sound.oldSlots, hs.sound.hashed⟩
  unfold store
  cases new with
  | true =>
    refine ⟨hsound, ?_, hs.aboutToBeFreed, hs.scanning⟩
    intro b hb
    obtain ⟨hslot, hnew, hpres⟩ := hs.recorded b hb
    refine ⟨hslot, ?_, hpres⟩
    grind
  | false =>
    refine ⟨Sound.setRecorded hsound _, ?_, hs.aboutToBeFreed, hs.scanning⟩
    intro b hb
    have hba : b ≠ a := by simpa using not_of_mem_forget hb
    obtain ⟨hslot, hnew, hpres⟩ := hs.recorded b (mem_of_mem_filter hb)
    refine ⟨hslot, ?_, hpres⟩
    simpa [State.forget, update_of_ne hba] using hnew

theorem append_keeps (s : State) (a : Nat) : Keeps L s.newBuffer s (s.append a) :=
  ⟨rfl, rfl, rfl, rfl, rfl, fun _ h => h, fun _ h => h, fun _ h => .inl h,
    fun _ _ _ h => h.imp_right fun h => h.imp_left (mem_append_left _)⟩

/-- Outside of page scans a full old buffer is handled by `HandleFullness`. -/
theorem enterDirectly_keeps (hs : s.Sound L) (ha : L.IsSlot a)
    (henabled : s.rebuildingEnabled = true) (hpage : s.rebuilder.currentPage = none)
    (hnew : s.inNewSpace a = true) :
    (s.enterDirectlyIntoStoreBuffer L a).Sound L ∧ Keeps L s.newBuffer s (s.enterDirectlyIntoStoreBuffer L a) ∧
      (s.enterDirectlyIntoStoreBuffer L a).Present L a := by
  have hsound := Sound.append_old hs ha
  have hself : (s.append a).Present L a :=
    .inr (.inl (mem_append_right _ (mem_singleton.2 rfl)))
  have hfull : (s.append a).storeBufferFullEvent L = (s.append a).handleFullness L := by
    have hpage' : (s.append a).rebuilder.currentPage = none := hpage
    rw [storeBufferFullEvent, hpage']
  rw [enterDirectlyIntoStoreBuffer, if_pos henabled]
  simp only
  split
  · obtain ⟨hsound', hkeeps'⟩ := handleFullness_safe (s.append a) hsound
    rw [hfull]
    exact ⟨hsound', (append_keeps s a).trans hkeeps', hkeeps'.present a ha hnew hself⟩
  · exact ⟨hsound, append_keeps s a, hself⟩

/-- Half way through `IteratePointersInStoreBuffer` a recorded slot is present or
still to be visited. -/
structure Visiting (L : Layout) (remaining moved : List Nat) (s : State) : Prop where
  sound : s.Sound L
  slots : ∀ a ∈ remaining, L.IsSlot a
  recorded : ∀ a ∈ s.recorded, L.IsSlot a ∧ s.inNewSpace a = true ∧ (s.Present L a ∨ a ∈ remaining ∧ a ∉ moved)
  aboutToBeFreed : ∀ c, s.aboutToBeFreed c = false
  page : s.rebuilder.currentPage = none
  enabled : s.rebuildingEnabled = true

theorem store_true (hnew : s.inNewSpace a = true) : s.store a true = s := by
  simp only [store, if_true]
  rw [← hnew, update_eq_self]

theorem visitEntry_visiting {visit : Nat → Bool} {moved rest : List Nat} (hs : Visiting L (a :: rest) moved s) :
    Visiting L rest (visitEntry L visit (s, moved) a).2 (visitEntry L visit (s, moved) a).1 := by
  have hrest : ∀ b ∈ rest, L.IsSlot b := fun b hb => hs.slots b (mem_cons_of_mem a hb)
  unfold visitEntry
  by_cases hvis : s.inNewSpace a && !moved.contains a
  · simp only [hvis, if_true]
    simp only [Bool.and_eq_true, Bool.not_eq_true', contains_eq_mem, decide_eq_false_iff_not] at hvis
    obtain ⟨hnew, hmoved⟩ := hvis
    cases hvisit : visit a with
    | true =>
      obtain ⟨hsound, hkeeps, hself⟩ := enterDirectly_keeps hs.sound
        (hs.slots a mem_cons_self) hs.enabled hs.page hnew
      simp only [if_true, store_true hnew]
      refine ⟨hsound, hrest, ?_, ?_, ?_, ?_⟩
      · intro b hb
        rw [hkeeps.recorded] at hb
        obtain ⟨hslot, hinNew, hb⟩ := hs.recorded b hb
        rw [hkeeps.inNewSpace]
        refine ⟨hslot, hinNew, ?_⟩
        by_cases hba : b = a
        · rw [hba]
          exact .inl hself
        · rcases hb with hb | ⟨hb, hbmoved⟩
          · exact .inl (hkeeps.present b hslot hinNew hb)
          grind
      · rw [hkeeps.aboutToBeFreed]
        exact hs.aboutToBeFreed
      · rw [hkeeps.rebuilder]
        exact hs.page
      · rw [hkeeps.rebuildingEnabled]
        exact hs.enabled
    | false =>
      refine ⟨⟨hs.sound.newSlots, hs.sound.oldSlots, hs.sound.hashed⟩, hrest, ?_,
        hs.aboutToBeFreed, hs.page, hs.enabled⟩
      intro b hb
      have hba : b ≠ a := by simpa using not_of_mem_forget hb
      obtain ⟨hslot, hinNew, hb⟩ := hs.recorded b (mem_of_mem_filter hb)
      refine ⟨hslot, ?_, ?_⟩
      · simpa [store, State.forget, update_of_ne hba] using hinNew
      · rcases hb with hb | ⟨hb, hbmoved⟩
        · exact .inl hb
        grind
  · simp only [hvis]
    refine ⟨hs.sound, hrest, ?_, hs.aboutToBeFreed, hs.page, hs.enabled⟩
    intro b hb
    obtain ⟨hslot, hinNew, hb⟩ := hs.recorded b hb
    refine ⟨hslot, hinNew, ?_⟩
    rcases hb with hb | ⟨hb, hbmoved⟩
    · exact .inl hb
    · refine .inr ⟨(mem_cons.1 hb).resolve_left ?_, hbmoved⟩
      -- an entry in new space is skipped only if it was visited before
      rintro rfl
      exact hvis (by simp [hinNew, hbmoved])

theorem visitLoop_visiting (visit : Nat → Bool) (entries : List Nat) {p : State × List Nat}
    (hp : Visiting L entries p.2 p.1) :
    Visiting L [] (entries.foldl (visitEntry L visit) p).2 (entries.foldl (visitEntry L visit) p).1 := by
  induction entries generalizing p with
  | nil => exact hp
  | cons a rest ih => exact ih (visitEntry_visiting hp)

/-- The old buffer may be emptied and entered again once the hash tables are
zapped. -/
theorem iteratePointersInStoreBuffer_inv (hs : Inv L s) (hzapped : ∀ n, ¬s.Hashed n)
    (hpage : s.rebuilder.currentPage = none) (henabled : s.rebuildingEnabled = true)
    (visit : Nat → Bool) : Inv L (s.iteratePointersInStoreBuffer L visit) := by
  have hstart : Visiting L s.oldBuffer [] { s with oldBuffer := [] } := by
    refine ⟨⟨hs.sound.newSlots, fun _ h => absurd h not_mem_nil,
      fun n hn => absurd hn (hzapped n)⟩, hs.sound.oldSlots, ?_, hs.aboutToBeFreed, hpage, henabled⟩
    intro a ha
    obtain ⟨hslot, hnew, hpres⟩ := hs.recorded a ha
    refine ⟨hslot, hnew, ?_⟩
    rcases hpres with h | h | h
    · exact .inl (.inl h)
    · exact .inr ⟨h, not_mem_nil⟩
    · exact .inl (.inr (.inr h))
  have hend := visitLoop_visiting visit s.oldBuffer (p := (_, [])) hstart
  refine ⟨hend.sound, ?_, hend.aboutToBeFreed, .of_none hend.page⟩
  intro a ha
  obtain ⟨hslot, hnew, hpres | ⟨h, -⟩⟩ := hend.recorded a ha
  · exact ⟨hslot, hnew, hpres⟩
  · exact absurd h not_mem_nil

theorem iteratePointersToNewSpace_inv (hs : Inv L s) (hpage : s.rebuilder.currentPage = none)
    (henabled : s.rebuildingEnabled = true) (visit : Nat → Bool) :
    Inv L (s.iteratePointersToNewSpace L visit) := by
  obtain ⟨hsound, hkeeps⟩ := prepareForIteration_safe s hs.sound
  have hprepared := hs.of_keeps hpage hsound hkeeps
  have hiterated := iteratePointersInStoreBuffer_inv hprepared
    (fun n => not_hashed_zap _ n) (by rw [hkeeps.rebuilder]; exact hpage)
    (by rw [hkeeps.rebuildingEnabled]; exact henabled) visit
  grind [iteratePointersToNewSpace, startScanningPagesEvent_inv]

/-- A shifted address is remembered for the slot it was made from. -/
theorem isSlot_shiftLeft {n : Nat} (hn : n ≠ 0) : L.IsSlot (n <<< L.pointerSizeLog2) ∧
    (n <<< L.pointerSizeLog2) >>> L.pointerSizeLog2 = n := by
  have hback : (n <<< L.pointerSizeLog2) >>> L.pointerSizeLog2 = n := Nat.shiftLeft_shiftRight n _
  refine ⟨⟨by rw [hback], ?_⟩, hback⟩
  grind

theorem clearScanOnScavenge_inv (hs : Inv L s) {page : Nat} (hclear : NoStale L s page) :
    Inv L (s.clearScanOnScavenge L page) := by
  have hother : ∀ a, L.chunkOf a ≠ page → s.Held L a → (s.clearScanOnScavenge L page).Held L a := by
    intro a hne ha
    refine ha.imp_right fun h => ?_
    simpa [flagged, clearScanOnScavenge, setScanOnScavenge, State.forget, update_of_ne hne] using h
  refine ⟨⟨hs.sound.newSlots, hs.sound.oldSlots, ?_⟩, ?_, hs.aboutToBeFreed, hs.scanning⟩
  · intro n hn
    obtain ⟨hslot, hback⟩ := isSlot_shiftLeft (L := L) hn.1
    by_cases hpage : L.chunkOf (n <<< L.pointerSizeLog2) = page
    · exact .inl (hclear _ hslot hpage (by rw [hback]; exact hn))
    · exact hother _ hpage (hs.sound.hashed n hn)
  · intro a ha
    have hne : L.chunkOf a ≠ page := by simpa using not_of_mem_forget ha
    obtain ⟨hslot, hnew, hpres⟩ := hs.recorded a (mem_of_mem_filter ha)
    exact ⟨hslot, hnew, hpres.imp_right (hother a hne)⟩

theorem freeQueuedChunks_inv (hs : Inv L s) (hpage : s.rebuilder.currentPage = none)
    {queued : List Nat} (hclear : HashesClear L s (.freeQueuedChunks queued)) :
    Inv L (s.freeQueuedChunks L queued) := by
  unfold freeQueuedChunks
  by_cases hempty : queued = []
  · rw [if_pos hempty]
    exact hs
  rw [if_neg hempty]
  set marked : State := { s.forget fun a => queued.contains (L.chunkOf a) with
    chunks := s.chunks.filter fun c => !queued.contains c
    aboutToBeFreed := fun c => queued.contains c || s.aboutToBeFreed c } with hmarked
  have hmarkedSound : marked.Sound L := ⟨hs.sound.newSlots, hs.sound.oldSlots, hs.sound.hashed⟩
  obtain ⟨hsound, hkeeps⟩ := compact_safe marked hmarkedSound
  have hfreed : ∀ c, (marked.compact L).aboutToBeFreed c = queued.contains c := by
    rw [hkeeps.aboutToBeFreed]
    simp [hmarked, hs.aboutToBeFreed]
  have hkept : ∀ a, L.chunkOf a ∉ queued → (marked.compact L).Held L a →
      a ∈ ((marked.compact L).filter L .aboutToBeFreed).oldBuffer ∨
        (!queued.contains (L.chunkOf a) && (marked.compact L).scanOnScavenge (L.chunkOf a)) = true := by
    rintro a hne (ha | ha)
    · exact .inl (mem_filter.2 ⟨ha, by simp [isFlagSet, hfreed, hne]⟩)
    · exact .inr (by simpa [hne, flagged] using ha)
  refine ⟨⟨?_, ?_, ?_⟩, ?_, hs.aboutToBeFreed, .of_none ?_⟩
  · exact hsound.newSlots
  · exact fun a ha => hsound.oldSlots a (mem_of_mem_filter ha)
  · -- no slot of a freed page is in a hash set, so the filter removes none that is
    intro n hn
    obtain ⟨hslot, hback⟩ := isSlot_shiftLeft (L := L) hn.1
    refine hkept _ ?_ (hsound.hashed n hn)
    intro hqueued
    obtain ⟨hnotNew, hnotHashed⟩ := hclear _ hslot hqueued
    rcases hkeeps.hashed n hn with h | ⟨a, ha, rfl⟩
    · exact hnotHashed (by rw [hback]; exact h)
    · rw [(hs.sound.newSlots a ha).1] at hnotNew
      exact hnotNew ha
  · intro a ha
    have ha' : a ∈ marked.recorded := by rw [← hkeeps.recorded]; exact ha
    have hne : L.chunkOf a ∉ queued := by simpa using not_of_mem_forget ha'
    obtain ⟨hslot, hnew, hpres⟩ := hs.recorded a (mem_of_mem_filter ha')
    have hnew' : (marked.compact L).inNewSpace a = true := by
      rw [hkeeps.inNewSpace]
      exact hnew
    exact ⟨hslot, hnew', (hkeeps.present a hslot hnew hpres).imp_right (hkept a hne)⟩
  · show (marked.compact L).rebuilder.currentPage = none
    rw [hkeeps.rebuilder]
    exact hpage

/-- The condition of the theorem below. -/
def Careful (L : Layout) (s : State) (action : Action) : Prop :=
  Allowed L s action ∧ HashesClear L s action

theorem filter_inv (hs : Inv L s) (hpage : s.rebuilder.currentPage = none) (flag : Flag) :
    Inv L (s.filter L flag) := by
  cases flag with
  | scanOnScavenge => exact hs.of_safe filter_safe hpage
  | aboutToBeFreed =>
    have hself : s.filter L .aboutToBeFreed = s := by
      simp [State.filter, isFlagSet, hs.aboutToBeFreed]
    rw [hself]
    exact hs

theorem apply_inv (hs : Inv L s) (action : Action) (h : Careful L s action) : Inv L (action.apply L s) := by
  obtain ⟨hallow, hclear⟩ := h
  cases action with
  | mark a => exact mark_inv hs hallow.1 hallow.2
  | enterDirectlyIntoStoreBuffer a =>
    by_cases henabled : s.rebuildingEnabled = true
    · rw [Action.apply, if_pos henabled]
      exact enterDirectly_inv hs hallow.1 henabled hallow.2
    · rw [Action.apply, if_neg henabled, enterDirectlyIntoStoreBuffer, if_neg henabled]
      exact hs
  | compact => exact hs.of_safe compact_safe hallow
  | handleFullness => exact hs.of_safe handleFullness_safe hallow
  | exemptPopularPages step threshold =>
    exact hs.of_safe (exemptPopularPages_safe step threshold) hallow
  | filter flag => exact filter_inv hs hallow flag
  | sortUniq => exact hs.of_safe sortUniq_safe hallow
  | prepareForIteration => exact hs.of_safe prepareForIteration_safe hallow
  | gcPrologue => exact hs.of_safe zapHashTables_safe hallow
  | enterRebuildScope =>
    exact ⟨⟨hs.sound.newSlots, hs.sound.oldSlots, hs.sound.hashed⟩, hs.recorded,
      hs.aboutToBeFreed, .of_none rfl⟩
  | leaveRebuildScope stored =>
    have hset : Inv L { s with rebuildingEnabled := stored } :=
      ⟨⟨hs.sound.newSlots, hs.sound.oldSlots, hs.sound.hashed⟩, hs.recorded, hs.aboutToBeFreed, hs.scanning⟩
    exact hset.of_safe checkForFullBuffer_safe hallow
  | iteratePointersToNewSpace visit =>
    exact iteratePointersToNewSpace_inv hs hallow.1 hallow.2 visit
  | scanPage page =>
    exact scanningPageEvent_inv (clearScanOnScavenge_inv hs hclear) (some page)
  | endScan => exact scanningPageEvent_inv hs none
  | freeQueuedChunks queued => exact freeQueuedChunks_inv hs hallow hclear
  | allocatePage page =>
    have hadded : Inv L { s with chunks := page :: s.chunks } :=
      ⟨⟨hs.sound.newSlots, hs.sound.oldSlots, hs.sound.hashed⟩, hs.recorded, hs.aboutToBeFreed, hs.scanning⟩
    exact clearScanOnScavenge_inv hadded hclear
  | clearEvacuatedPage page => exact clearScanOnScavenge_inv hs hclear
  | store a new => exact store_inv hs a new

theorem initial_inv (chunks : List Nat) (scanOnScavenge inNewSpace : Nat → Bool) :
    Inv L (initial chunks scanOnScavenge inNewSpace) where
  sound := by
    refine ⟨fun _ h => absurd h not_mem_nil, fun _ h => absurd h not_mem_nil, ?_⟩
    rintro n ⟨hn, i, h | h⟩
    · exact absurd h.symm hn
    · exact absurd h.symm hn
  recorded := fun _ h => absurd h not_mem_nil
  aboutToBeFreed := fun _ => rfl
  scanning := .of_none rfl

theorem reach_inv {chunks : List Nat} {scanOnScavenge inNewSpace : Nat → Bool}
    (h : Reach (step L) (Careful L) (initial chunks scanOnScavenge inNewSpace) s) : Inv L s := by
  refine h.invariant (initial_inv chunks scanOnScavenge inNewSpace) ?_
  intro s action t hs hcareful hstep
  cases hstep
  exact apply_inv hs action hcareful

/-- Soundness of the hash sets carries through the loop of `Compact`. -/
theorem skipsOnlyHeld_of_sound (hs : s.Sound L) : SkipsOnlyHeld L s := by
  intro before current after heq t hdup
  have hslots : ∀ a ∈ before ++ current :: after, L.IsSlot a := by
    rw [← heq]
    exact hs.newSlots
  have hbefore : ∀ a ∈ before, L.IsSlot a := fun a ha => hslots a (mem_append_left _ ha)
  have hcur : L.IsSlot current :=
    hslots current (mem_append_right _ mem_cons_self)
  have hstart := (beforeLoopWith_keeps handleFullness_safe hs).1
  exact held_of_isDuplicate (loop_keeps before hstart hbefore).1 hcur hdup

/-- In every run in which the hash sets hold no slot of a page that is unflagged
or freed, no recorded slot is lost and `Compact` skips only what is found anyway,
also for the entry that a `Mark` has just made. -/
theorem no_recorded_slot_lost (chunks : List Nat) (scanOnScavenge inNewSpace : Nat → Bool)
    (h : Reach (step L) (Careful L) (initial chunks scanOnScavenge inNewSpace) s) :
    NoSlotLost L s ∧ SkipsOnlyHeld L s ∧
      ∀ a, L.IsSlot a → SkipsOnlyHeld L { s with newBuffer := s.newBuffer ++ [a] } := by
  have hs := reach_inv h
  refine ⟨fun a ha => (hs.recorded a ha).2.2, skipsOnlyHeld_of_sound hs.sound, ?_⟩
  intro a ha
  exact skipsOnlyHeld_of_sound (Sound.append_new hs.sound ha)

/-- The x64 layout, small pages only. -/
def x64 : Layout := ⟨3, fun a => a >>> 20⟩

theorem no_recorded_slot_lost_compacted :
    ∃ s, Reach (step x64) (Careful x64) (initial [1] (fun _ => false) fun _ => true) s ∧
      s.recorded = [0x100008] ∧ s.oldBuffer = [0x100008] ∧ NoSlotLost x64 s ∧ SkipsOnlyHeld x64 s ∧
      ∀ a, x64.IsSlot a → SkipsOnlyHeld x64 { s with newBuffer := s.newBuffer ++ [a] } := by
  have hrun : Reach (step x64) (Careful x64) (initial [1] (fun _ => false) fun _ => true)
      (Action.compact.apply x64 ((Action.mark 0x100008).apply x64
        (initial [1] (fun _ => false) fun _ => true))) :=
    .tail (a := .compact) (.tail (a := .mark 0x100008) .refl ⟨by decide, trivial⟩ rfl) ⟨by decide, trivial⟩ rfl
  exact ⟨_, hrun, by decide, by decide, no_recorded_slot_lost [1] _ _ hrun⟩

/-- A full collection frees a page with a marked slot, the page's memory is used
for promoted objects, and the slot that is marked again is skipped: a hash set
still holds it. -/
def reusedPage : List Action :=
  [.store 0x100008 true, .mark 0x100008, .gcPrologue, .freeQueuedChunks [1], .allocatePage 1,
    .store 0x100008 true, .mark 0x100008, .prepareForIteration]

theorem recorded_slot_lost : ¬∀ L s, Reach (step L) (Allowed L)
    (initial [1, 2] (fun _ => false) fun _ => false) s → NoSlotLost L s := by
  intro h
  obtain ⟨s, hreach, hs⟩ := exists_reach_of_run (step x64) (Allowed x64)
    (initial [1, 2] (fun _ => false) fun _ => false) reusedPage
    (fun s => s.recorded == [0x100008] && s.newBuffer == [] && s.oldBuffer == [] &&
      s.scanOnScavenge 1 == false) (by decide)
  simp only [Bool.and_eq_true, beq_iff_eq] at hs
  obtain ⟨⟨⟨hrecorded, hnew⟩, hold⟩, hflag⟩ := hs
  have hlost := h x64 s hreach 0x100008 (by simp [hrecorded])
  rcases hlost with hlost | hlost | hlost
  · simp [hnew] at hlost
  · simp [hold] at hlost
  · have hpage : x64.chunkOf 0x100008 = 1 := by decide
    rw [flagged, hpage, hflag] at hlost
    cases hlost

end W16.StoreBuffer
