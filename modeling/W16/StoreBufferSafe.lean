import W16.StoreBuffer

/-!
# What the store buffer's operations keep

An operation is safe if it keeps every slot that points into new space present
and every address of the hash sets held by the old buffer or a flagged page.
-/
namespace W16.StoreBuffer

open List

set_option linter.dupNamespace false

namespace State

variable (L : Layout) (s : State)

def flagged (a : Nat) : Prop := s.scanOnScavenge (L.chunkOf a) = true

/-- In the old buffer, or found by scanning the page. -/
def Held (a : Nat) : Prop := a ∈ s.oldBuffer ∨ s.flagged L a

/-- The scavenger will find the slot. -/
def Present (a : Nat) : Prop := a ∈ s.newBuffer ∨ s.Held L a

/-- A hash set remembers the shifted address. -/
def Hashed (intAddr : Nat) : Prop :=
  intAddr ≠ 0 ∧ ∃ i, s.hashMap1 i = intAddr ∨ s.hashMap2 i = intAddr

/-- The hash sets remember only addresses that the scavenger will find anyway. -/
structure Sound : Prop where
  newSlots : ∀ a ∈ s.newBuffer, L.IsSlot a
  oldSlots : ∀ a ∈ s.oldBuffer, L.IsSlot a
  hashed : ∀ n, s.Hashed n → s.Held L (n <<< L.pointerSizeLog2)

end State

open State

variable {L : Layout} {s t u : State} {a c n : Nat}

/-- `t` is `s` after an operation that may drop only slots that do not point into
new space, and that enters only the slots `top` into the hash sets. -/
structure Keeps (L : Layout) (top : List Nat) (s t : State) : Prop where
  inNewSpace : t.inNewSpace = s.inNewSpace
  recorded : t.recorded = s.recorded
  aboutToBeFreed : t.aboutToBeFreed = s.aboutToBeFreed
  rebuilder : t.rebuilder = s.rebuilder
  rebuildingEnabled : t.rebuildingEnabled = s.rebuildingEnabled
  newBuffer : ∀ a ∈ t.newBuffer, a ∈ s.newBuffer
  flags : ∀ c, s.scanOnScavenge c = true → t.scanOnScavenge c = true
  hashed : ∀ n, t.Hashed n → s.Hashed n ∨ ∃ a ∈ top, a >>> L.pointerSizeLog2 = n
  present : ∀ a, L.IsSlot a → s.inNewSpace a = true → s.Present L a → t.Present L a

variable {top top' : List Nat}

theorem Keeps.refl (s : State) : Keeps L top s s :=
  ⟨rfl, rfl, rfl, rfl, rfl, fun _ h => h, fun _ h => h, fun _ h => .inl h, fun _ _ _ h => h⟩

theorem Keeps.mono (h : Keeps L top s t) (hsub : ∀ a ∈ top, a ∈ top') : Keeps L top' s t :=
  { h with hashed := fun n hn => (h.hashed n hn).imp_right fun ⟨a, ha, he⟩ => ⟨a, hsub a ha, he⟩ }

theorem Keeps.trans (h : Keeps L top s t) (h' : Keeps L top t u) : Keeps L top s u where
  inNewSpace := h'.inNewSpace.trans h.inNewSpace
  recorded := h'.recorded.trans h.recorded
  aboutToBeFreed := h'.aboutToBeFreed.trans h.aboutToBeFreed
  rebuilder := h'.rebuilder.trans h.rebuilder
  rebuildingEnabled := h'.rebuildingEnabled.trans h.rebuildingEnabled
  newBuffer := fun a ha => h.newBuffer a (h'.newBuffer a ha)
  flags := fun c hc => h'.flags c (h.flags c hc)
  hashed := by
    intro n hn
    rcases h'.hashed n hn with ht | ⟨a, ha, rfl⟩
    · exact h.hashed n ht
    · exact .inr ⟨a, ha, rfl⟩
  present := by
    intro a hslot hnew ha
    have hnew' : t.inNewSpace a = true := by rw [h.inNewSpace]; exact hnew
    exact h'.present a hslot hnew' (h.present a hslot hnew ha)

/-- The operation keeps soundness and loses no slot. -/
def Safe (L : Layout) (f : State → State) : Prop :=
  ∀ s, s.Sound L → (f s).Sound L ∧ Keeps L s.newBuffer s (f s)

theorem Safe.id : Safe L fun s => s := fun s hs => ⟨hs, .refl s⟩

theorem Safe.comp {f g : State → State} (hf : Safe L f) (hg : Safe L g) : Safe L fun s => g (f s) := by
  intro s hs
  obtain ⟨hsound, hkeeps⟩ := hf s hs
  obtain ⟨hsound', hkeeps'⟩ := hg _ hsound
  exact ⟨hsound', hkeeps.trans (hkeeps'.mono hkeeps.newBuffer)⟩

theorem Safe.ite {f g : State → State} (p : State → Prop) [DecidablePred p] (hf : Safe L f)
    (hg : Safe L g) : Safe L fun s => if p s then f s else g s := by
  intro s hs
  by_cases hp : p s
  · simp only [hp, if_true]
    exact hf s hs
  · simp only [hp, if_false]
    exact hg s hs

theorem not_hashed_zap (s : State) (n : Nat) : ¬s.zapHashTables.Hashed n := by
  rintro ⟨hn, i, h | h⟩
  · exact hn h.symm
  · exact hn h.symm

theorem zapHashTables_safe : Safe L zapHashTables := by
  intro s hs
  refine ⟨⟨hs.newSlots, hs.oldSlots, fun n hn => absurd hn (not_hashed_zap s n)⟩, ?_⟩
  exact ⟨rfl, rfl, rfl, rfl, rfl, fun _ h => h, fun _ h => h,
    fun n hn => absurd hn (not_hashed_zap s n), fun _ _ _ h => h⟩

theorem setFiltered_safe : Safe L setFiltered :=
  fun _ hs => ⟨⟨hs.newSlots, hs.oldSlots, hs.hashed⟩,
    ⟨rfl, rfl, rfl, rfl, rfl, fun _ h => h, fun _ h => h, fun _ h => .inl h, fun _ _ _ h => h⟩⟩

/-- Setting flags on pages loses nothing. -/
theorem setFlags_safe (f : State → Nat → Bool) (hf : ∀ s c, s.scanOnScavenge c = true → f s c = true) :
    Safe L fun s => { s with scanOnScavenge := f s } := by
  intro s hs
  refine ⟨⟨hs.newSlots, hs.oldSlots, fun n hn => (hs.hashed n hn).imp_right (hf s _)⟩, ?_⟩
  exact ⟨rfl, rfl, rfl, rfl, rfl, fun _ h => h, hf s, fun _ h => .inl h,
    fun _ _ _ h => h.imp_right fun h => h.imp_right (hf s _)⟩

theorem held_filter (s : State) (ha : s.Held L a) : (s.filter L .scanOnScavenge).Held L a := by
  rcases ha with ha | ha
  · by_cases hflag : s.scanOnScavenge (L.chunkOf a) = true
    · exact .inr hflag
    · exact .inl (mem_filter.2 ⟨ha, by simp [isFlagSet, hflag]⟩)
  · exact .inr ha

/-- Entries of flagged pages are found by scanning the page. -/
theorem filter_safe : Safe L fun s => s.filter L .scanOnScavenge := by
  intro s hs
  refine ⟨⟨hs.newSlots, ?_, fun n hn => held_filter s (hs.hashed n hn)⟩, ?_⟩
  · intro a ha
    exact hs.oldSlots a (mem_of_mem_filter ha)
  · exact ⟨rfl, rfl, rfl, rfl, rfl, fun _ h => h, fun _ h => h, fun _ h => .inl h,
      fun _ _ _ h => h.imp_right (held_filter s)⟩

theorem filterFlaggedPages_safe : Safe L (filterFlaggedPages L) :=
  Safe.ite (fun s => s.pageHasScanOnScavengeFlag = true) filter_safe Safe.id

/-- Sampling only sets flags. -/
theorem census_flags (threshold : Nat) (entries : List Nat) (census : Census) (c : Nat)
    (h : census.scanOnScavenge c = true) :
    (entries.foldl (Census.count L threshold) census).scanOnScavenge c = true := by
  induction entries generalizing census with
  | nil => exact h
  | cons addr rest ih =>
    refine ih _ ?_
    simp only [Census.count]
    split
    · grind -linarith
    · exact h

theorem exemptPopularPages_safe (step threshold : Nat) :
    Safe L fun s => s.exemptPopularPages L step threshold := by
  have hset : Safe L fun s => { s with scanOnScavenge := (s.census L step threshold).scanOnScavenge } :=
    setFlags_safe _ fun s c hc => census_flags threshold _ _ c hc
  exact Safe.ite (fun s => (s.census L step threshold).createdNewScanOnScavengePages = true)
    ((hset.comp filter_safe).comp setFiltered_safe) (hset.comp setFiltered_safe)

theorem exemptUntilRoomy_safe (rest : List (Nat × Nat)) : Safe L (exemptUntilRoomy L rest) := by
  induction rest with
  | nil => exact Safe.id
  | cons sample rest ih =>
    exact (exemptPopularPages_safe sample.1 sample.2).comp
      (Safe.ite (fun s => s.lessThanHalfFull L = true) Safe.id ih)

theorem makeRoom_safe : Safe L (makeRoom L) :=
  (setFiltered_safe.comp filterFlaggedPages_safe).comp
    (Safe.ite (fun s => s.lessThanHalfFull L = true) Safe.id (exemptUntilRoomy_safe _))

theorem handleFullnessWith_safe {compact : State → State} (h : Safe L compact) :
    Safe L fun s => s.handleFullnessWith L compact :=
  Safe.ite (fun s => s.oldBufferIsFiltered = true) Safe.id (h.comp makeRoom_safe)

theorem checkForFullBufferWith_safe {handleFullness : State → State} (h : Safe L handleFullness) :
    Safe L fun s => s.checkForFullBufferWith L handleFullness :=
  Safe.ite (fun s => s.room L < kStoreBufferSize * 2) h Safe.id

/-- The slot's own shifted address is not the empty mark of the hash sets. -/
theorem shiftRight_ne_zero (h : L.IsSlot a) : a >>> L.pointerSizeLog2 ≠ 0 := by
  intro hz
  obtain ⟨hback, hne⟩ := h
  grind

theorem hashed_of_isDuplicate (hn : n ≠ 0) (h : s.isDuplicate n = true) : s.Hashed n := by
  simp only [isDuplicate, Bool.or_eq_true, beq_iff_eq] at h
  rcases h with h | h
  · exact ⟨hn, _, .inl h⟩
  · exact ⟨hn, _, .inr h⟩

/-- A hit in a hash set says that the scavenger will find the slot anyway. -/
theorem held_of_isDuplicate (hs : s.Sound L) (ha : L.IsSlot a)
    (h : s.isDuplicate (a >>> L.pointerSizeLog2) = true) : s.Held L a := by
  have := hs.hashed _ (hashed_of_isDuplicate (shiftRight_ne_zero ha) h)
  rwa [ha.1] at this

theorem hashed_update {f : Nat → Nat} {i j v : Nat} (h : Function.update f i v j = n) : n = v ∨ f j = n := by
  grind

theorem hashed_enterHash {m : Nat} (h : (s.enterHash m).Hashed n) : n = m ∨ s.Hashed n := by
  obtain ⟨hn, i, hi⟩ := h
  unfold enterHash at hi
  split at hi
  · rcases hi with hi | hi
    · exact (hashed_update hi).imp_right fun h => ⟨hn, i, .inl h⟩
    · exact .inr ⟨hn, i, .inr hi⟩
  · split at hi
    · rcases hi with hi | hi
      · exact .inr ⟨hn, i, .inl hi⟩
      · exact (hashed_update hi).imp_right fun h => ⟨hn, i, .inr h⟩
    · rcases hi with hi | hi
      · exact (hashed_update hi).imp_right fun h => ⟨hn, i, .inl h⟩
      · rcases hashed_update hi with h | h
        · exact absurd h hn
        · exact .inr ⟨hn, i, .inr h⟩

/-- `enterHash` changes nothing but the hash sets. -/
theorem enterHash_eq (s : State) (m : Nat) :
    ∃ h₁ h₂, s.enterHash m = { s with hashMap1 := h₁, hashMap2 := h₂ } := by
  unfold enterHash
  split
  · exact ⟨_, _, rfl⟩
  · split <;> exact ⟨_, _, rfl⟩

/-- One round of the loop of `Compact`. -/
theorem compactEntry_keeps (hs : s.Sound L) (ha : L.IsSlot a) :
    (s.compactEntry L a).Sound L ∧ Keeps L [a] s (s.compactEntry L a) ∧ (s.compactEntry L a).Held L a := by
  unfold compactEntry
  by_cases hdup : s.isDuplicate (a >>> L.pointerSizeLog2) = true
  · simp only [hdup, if_true]
    exact ⟨hs, .refl s, held_of_isDuplicate hs ha hdup⟩
  · simp only [hdup]
    have hhash : ∀ n, (s.enterHash (a >>> L.pointerSizeLog2)).Hashed n →
        n = a >>> L.pointerSizeLog2 ∨ s.Hashed n := fun n => hashed_enterHash
    obtain ⟨h₁, h₂, heq⟩ := enterHash_eq s (a >>> L.pointerSizeLog2)
    rw [heq] at hhash ⊢
    have hold : ∀ b, s.Held L b → ({ s with hashMap1 := h₁, hashMap2 := h₂ }.append a).Held L b :=
      fun b hb => hb.imp_left fun h => mem_append_left _ h
    have hself : ({ s with hashMap1 := h₁, hashMap2 := h₂ }.append a).Held L a :=
      .inl (mem_append_right _ (mem_singleton.2 rfl))
    rw [ha.1]
    refine ⟨⟨hs.newSlots, ?_, ?_⟩, ?_, hself⟩
    · intro b hb
      rcases mem_append.1 hb with hb | hb
      · exact hs.oldSlots b hb
      · rw [mem_singleton.1 hb]
        exact ha
    · intro n hn
      rcases hhash n hn with rfl | hn
      · rw [ha.1]
        exact hself
      · exact hold _ (hs.hashed n hn)
    · refine ⟨rfl, rfl, rfl, rfl, rfl, fun _ h => h, fun _ h => h, ?_, ?_⟩
      · intro n hn
        rcases hhash n hn with rfl | hn
        · exact .inr ⟨a, mem_singleton.2 rfl, rfl⟩
        · exact .inl hn
      · exact fun b _ _ hb => hb.imp_right (hold b)

theorem compactEntry_held (s : State) (b : Nat) (h : s.Held L a) : (s.compactEntry L b).Held L a := by
  unfold compactEntry
  by_cases hdup : s.isDuplicate (b >>> L.pointerSizeLog2) = true
  · simp only [hdup, if_true]
    exact h
  · simp only [hdup]
    obtain ⟨h₁, h₂, heq⟩ := enterHash_eq s (b >>> L.pointerSizeLog2)
    rw [heq]
    exact h.imp_left fun h => mem_append_left _ h

theorem loop_held (entries : List Nat) (s : State) (h : s.Held L a) :
    (entries.foldl (compactEntry L) s).Held L a := by
  induction entries generalizing s with
  | nil => exact h
  | cons b rest ih => exact ih _ (compactEntry_held s b h)

/-- The loop of `Compact` moves every entry to where the scavenger finds it. -/
theorem loop_keeps (entries : List Nat) (hs : s.Sound L) (hslots : ∀ a ∈ entries, L.IsSlot a) :
    (entries.foldl (compactEntry L) s).Sound L ∧ Keeps L entries s (entries.foldl (compactEntry L) s) ∧
      ∀ a ∈ entries, (entries.foldl (compactEntry L) s).Held L a := by
  induction entries generalizing s with
  | nil => exact ⟨hs, .refl s, fun _ h => absurd h not_mem_nil⟩
  | cons a rest ih =>
    obtain ⟨hsound, hkeeps, hheld⟩ := compactEntry_keeps hs (hslots a mem_cons_self)
    obtain ⟨hsound', hkeeps', hheld'⟩ :=
      ih hsound fun b hb => hslots b (mem_cons_of_mem a hb)
    refine ⟨hsound', ?_, ?_⟩
    · have hone : Keeps L (a :: rest) s (s.compactEntry L a) :=
        hkeeps.mono fun b hb => mem_cons.2 (.inl (mem_singleton.1 hb))
      exact hone.trans (hkeeps'.mono fun b hb => mem_cons_of_mem a hb)
    simp_all [loop_held]

theorem Sound.emptied (hs : s.Sound L) : State.Sound L { s with newBuffer := [] } :=
  ⟨fun _ h => absurd h not_mem_nil, hs.oldSlots, hs.hashed⟩

theorem beforeLoopWith_keeps {handleFullness : State → State} (h : Safe L handleFullness)
    (hs : s.Sound L) : (s.beforeLoopWith L handleFullness).Sound L ∧
      Keeps L [] { s with newBuffer := [] } (s.beforeLoopWith L handleFullness) := by
  unfold beforeLoopWith
  by_cases hroom : s.newBuffer.length > s.room L
  · simp only [hroom, if_true]
    exact h _ (Sound.emptied hs)
  · simp only [hroom, if_false]
    exact ⟨Sound.emptied hs, .refl _⟩

/-- `Compact` empties the new buffer and loses nothing. -/
theorem compactWith_keeps {handleFullness : State → State} (h : Safe L handleFullness) (hs : s.Sound L) :
    (s.compactWith L handleFullness).Sound L ∧ Keeps L s.newBuffer s (s.compactWith L handleFullness) ∧
      (s.compactWith L handleFullness).newBuffer = [] := by
  by_cases hempty : s.newBuffer = []
  · rw [compactWith, if_pos hempty]
    exact ⟨hs, .refl s, hempty⟩
  rw [compactWith, if_neg hempty]
  obtain ⟨hsound₁, hkeeps₁⟩ := beforeLoopWith_keeps h hs
  obtain ⟨hsound₂, hkeeps₂, hheld⟩ := loop_keeps s.newBuffer hsound₁ hs.newSlots
  obtain ⟨hsound₃, hkeeps₃⟩ := checkForFullBufferWith_safe h _ hsound₂
  have hnil : ∀ a, a ∉ (s.newBuffer.foldl (compactEntry L) (s.beforeLoopWith L handleFullness)).newBuffer :=
    fun a ha => not_mem_nil (hkeeps₁.newBuffer a (hkeeps₂.newBuffer a ha))
  have hkeeps : Keeps L s.newBuffer { s with newBuffer := [] } ((s.newBuffer.foldl (compactEntry L)
        (s.beforeLoopWith L handleFullness)).checkForFullBufferWith L handleFullness) :=
    ((hkeeps₁.mono fun _ h => absurd h not_mem_nil).trans hkeeps₂).trans
      (hkeeps₃.mono fun a ha => absurd ha (hnil a))
  refine ⟨hsound₃, ?_, ?_⟩
  · refine { hkeeps with
      newBuffer := fun a ha => absurd (hkeeps.newBuffer a ha) not_mem_nil
      present := ?_ }
    intro a hslot hnew ha
    rcases ha with ha | ha
    · refine hkeeps₃.present a hslot ?_ (.inr (hheld a ha))
      rw [hkeeps₂.inNewSpace, hkeeps₁.inNewSpace]
      exact hnew
    · exact hkeeps.present a hslot hnew (.inr ha)
  · exact eq_nil_iff_forall_not_mem.2 fun a ha => hnil a (hkeeps₃.newBuffer a ha)

theorem nested_safe : Safe L fun s => s.handleFullnessWith L id :=
  handleFullnessWith_safe Safe.id

theorem compact_safe : Safe L (compact L) := fun _ hs =>
  ⟨(compactWith_keeps nested_safe hs).1, (compactWith_keeps nested_safe hs).2.1⟩

theorem handleFullness_safe : Safe L (handleFullness L) := handleFullnessWith_safe compact_safe

theorem checkForFullBuffer_safe : Safe L (checkForFullBuffer L) :=
  checkForFullBufferWith_safe handleFullness_safe

theorem prepareForIteration_safe : Safe L fun s => (s.prepareForIteration L).1 :=
  (compact_safe.comp filterFlaggedPages_safe).comp zapHashTables_safe

/-- `Uniq` drops duplicates of the entry before, and slots that do not point into
new space. -/
theorem mem_uniqLoop {inNewSpace : Nat → Bool} (hnew : inNewSpace a = true) (entries : List Nat)
    (previous : Nat) (ha : a ∈ entries) (hne : a ≠ previous) :
    a ∈ uniqLoop inNewSpace previous entries := by
  induction entries generalizing previous with
  | nil => exact absurd ha not_mem_nil
  | cons current rest ih =>
    grind [uniqLoop]

theorem mem_of_mem_uniqLoop {inNewSpace : Nat → Bool} (entries : List Nat) (previous : Nat)
    (ha : a ∈ uniqLoop inNewSpace previous entries) : a ∈ entries := by
  induction entries generalizing previous with
  | nil => exact ha
  | cons current rest ih =>
    grind [uniqLoop]

/-- Sorting and `Uniq`, which relies on zapped hash tables. -/
theorem zapSortUniq_safe : Safe L fun s => { (sort L s.zapHashTables).uniq with
    oldBufferIsSorted := true } := by
  intro s hs
  have hmem : ∀ a, a ∈ uniqLoop s.inNewSpace 0 (s.oldBuffer.mergeSort (compareAddresses L)) →
      a ∈ s.oldBuffer := fun a ha => mem_mergeSort.1 (mem_of_mem_uniqLoop _ 0 ha)
  refine ⟨⟨hs.newSlots, fun a ha => hs.oldSlots a (hmem a ha), fun n hn => absurd hn (not_hashed_zap s n)⟩, ?_⟩
  refine ⟨rfl, rfl, rfl, rfl, rfl, fun _ h => h, fun _ h => h, fun n hn => absurd hn (not_hashed_zap s n), ?_⟩
  rintro a hslot hnew (ha | ha | ha)
  · exact .inl ha
  · exact .inr (.inl (mem_uniqLoop hnew _ 0 (mem_mergeSort.2 ha) hslot.2))
  · exact .inr (.inr ha)

theorem sortUniq_safe : Safe L (sortUniq L) :=
  compact_safe.comp (Safe.ite (fun s => s.oldBufferIsSorted = true) Safe.id zapSortUniq_safe)

end W16.StoreBuffer
