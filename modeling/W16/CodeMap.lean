import W16.SplayTreeOperations

/-!
# The code map of the profiler

`CodeMap` keeps code ranges and shared functions in one splay tree. The size of an entry is a
number of bytes for code and the id for a shared function, and a new entry deletes those that it
covers by their sizes. Every search splays the tree.
-/
namespace W16.CodeMaps

open W16.SplayTrees

set_option linter.dupNamespace false

variable {E : Type}

/-- `CodeEntryInfo`. A null entry is `kSharedFunctionCodeEntry`. -/
structure CodeEntryInfo (E : Type) where
  entry : Option E
  size : Nat

abbrev CodeTree (E : Type) := Tree Nat (CodeEntryInfo E)

def kNoValue : CodeEntryInfo E := ⟨none, 0⟩

structure CodeMap (E : Type) where
  tree : CodeTree E
  nextSharedId : Nat

def maxInt : Nat := 2 ^ 31 - 1

namespace CodeMap

def new : CodeMap E := ⟨.nil, 1⟩

/-- The loop of `DeleteAllCoveredCode` from `addr` down. There is no result where an address
below `NULL` is formed, or where the loop does not end. -/
def coveredCode (start stop : Nat) : Nat → Nat → CodeTree E → List Nat → Option (CodeTree E × List Nat)
  | 0, _, _, _ => none
  | fuel + 1, addr, t, toDelete =>
    if start ≤ addr then
      match t.findGreatestLessThan addr with
      | (t, none) => some (t, toDelete)
      | (t, some (start2, info)) =>
        let end2 := start2 + info.size
        let toDelete := if start2 < stop ∧ start < end2 then toDelete ++ [start2] else toDelete
        match start2 with
        | 0 => none
        | addr + 1 => coveredCode start stop fuel addr t toDelete
    else some (t, toDelete)

def deleteAllCoveredCode (start stop : Nat) (t : CodeTree E) : Option (CodeTree E) :=
  match stop with
  | 0 => none
  | addr + 1 => do
    let (t, toDelete) ← coveredCode start stop (addr + 1) addr t []
    some (toDelete.foldl (fun t addr => (t.remove addr).1) t)

def addCode (m : CodeMap E) (addr : Nat) (entry : Option E) (size : Nat) : Option (CodeMap E) := do
  let t ← deleteAllCoveredCode addr (addr + size) m.tree
  let t := (t.insert kNoValue addr).1
  some { m with tree := t.setValue addr ⟨entry, size⟩ }

def findEntry (m : CodeMap E) (addr : Nat) : CodeMap E × Option E :=
  match m.tree.findGreatestLessThan addr with
  | (t, none) => ({ m with tree := t }, none)
  | (t, some (key, info)) =>
    ({ m with tree := t }, if addr < key + info.size then info.entry else none)

/-- There is no result where the entry is one of code, or where the next id leaves an `int`. -/
def getSharedId (m : CodeMap E) (addr : Nat) : Option (CodeMap E × Nat) :=
  match m.tree.find addr with
  | (t, some (_, info)) => if info.entry.isNone then some ({ m with tree := t }, info.size) else none
  | (t, none) =>
    let t := (t.insert kNoValue addr).1
    let id := m.nextSharedId
    if id < maxInt then some (⟨t.setValue addr ⟨none, id⟩, id + 1⟩, id) else none

def moveCode (m : CodeMap E) (from_ to_ : Nat) : Option (CodeMap E) :=
  if from_ = to_ then some m
  else
    match m.tree.find from_ with
    | (t, none) => some { m with tree := t }
    | (t, some (_, info)) =>
      addCode { m with tree := (t.remove from_).1 } to_ info.entry info.size

/-! ## What is deleted -/

variable {t : CodeTree E} {start stop : Nat}

/-- The entry is covered by its size, and the loop comes down to it. -/
def Covered (t : CodeTree E) (start stop : Nat) (x : Nat × CodeEntryInfo E) : Prop :=
  x.1 < stop ∧ start < x.1 + x.2.size ∧ ∀ y ∈ t.entries, x.1 < y.1 → start < y.1

theorem coveredCode_spec {fuel addr : Nat} (h : t.Ordered) (hpos : ∀ x ∈ t.entries, 0 < x.1)
    (hfuel : addr < fuel) (toDelete : List Nat) :
    ∃ t' covered, coveredCode start stop fuel addr t toDelete = some (t', toDelete ++ covered) ∧
      t'.entries = t.entries ∧
      ∀ x ∈ t.entries, x.1 ∈ covered ↔ x.1 ≤ addr ∧ start ≤ addr ∧ x.1 < stop ∧
        start < x.1 + x.2.size ∧ ∀ y ∈ t.entries, x.1 < y.1 → y.1 ≤ addr → start < y.1 := by
  induction fuel generalizing addr t toDelete with
  | zero => exact absurd hfuel (Nat.not_lt_zero _)
  | succ fuel ih =>
    unfold coveredCode
    by_cases hstart : start ≤ addr
    · rw [if_pos hstart]
      obtain ⟨hent, hsome, hnone⟩ := Tree.findGreatestLessThan_spec addr h
      generalize t.findGreatestLessThan addr = r at hent hsome hnone ⊢
      obtain ⟨t₁, found⟩ := r
      cases found with
      | none =>
        refine ⟨t₁, [], by simp, hent, fun x hx => ?_⟩
        grind
      | some found =>
        obtain ⟨key, info⟩ := found
        obtain ⟨hmem, hle, hgreatest⟩ := hsome _ rfl
        have hkey := hpos _ hmem
        cases key with
        | zero => exact absurd hkey (lt_irrefl 0)
        | succ below =>
          have h₁ : t₁.Ordered := by
            rw [Tree.Ordered, hent]
            exact h
          obtain ⟨t', covered, hrun, hent', hcov⟩ := ih h₁ (by rwa [hent])
            (show below < fuel by omega)
            (if below + 1 < stop ∧ start < below + 1 + info.size then toDelete ++ [below + 1] else toDelete)
          refine ⟨t', (if below + 1 < stop ∧ start < below + 1 + info.size then [below + 1] else []) ++ covered,
            ?_, hent'.trans hent, fun x hx => ?_⟩
          · simp only [hrun]
            split <;> simp
          · rw [List.mem_append, hcov x (hent ▸ hx), hent]
            by_cases hx1 : x.1 = below + 1
            · -- the entry that was found
              have hxe : x = (below + 1, info) := h.eq_of_key hx hmem hx1
              subst hxe
              have hempty : ∀ y ∈ t.entries, below + 1 < y.1 → y.1 ≤ addr → start < y.1 := by
                grind
              grind
            · -- an entry above or below it
              have hnotin : x.1 ∉ (if below + 1 < stop ∧ start < below + 1 + info.size then [below + 1]
                  else []) := by
                split <;> simp [hx1]
              grind
    simp [hstart]

theorem removeAll_spec (keys : List Nat) (h : t.Ordered) :
    (keys.foldl (fun t addr => (t.remove addr).1) t).Ordered ∧
      ∀ x, x ∈ (keys.foldl (fun t addr => (t.remove addr).1) t).entries ↔ x ∈ t.entries ∧ x.1 ∉ keys := by
  induction keys generalizing t with
  | nil => exact ⟨h, by simp⟩
  | cons key keys ih =>
    obtain ⟨h₁, -, hmem₁⟩ := Tree.remove_spec key h
    obtain ⟨h₂, hmem₂⟩ := ih h₁
    grind

theorem deleteAllCoveredCode_spec (h : t.Ordered) (hpos : ∀ x ∈ t.entries, 0 < x.1) (hstop : start < stop) :
    ∃ t', deleteAllCoveredCode start stop t = some t' ∧ t'.Ordered ∧
      ∀ x, x ∈ t'.entries ↔ x ∈ t.entries ∧ ¬ Covered t start stop x := by
  cases stop with
  | zero => exact absurd hstop (Nat.not_lt_zero _)
  | succ addr =>
    obtain ⟨t₁, covered, hrun, hent, hcov⟩ :
        ∃ t₁ covered, coveredCode start (addr + 1) (addr + 1) addr t [] = some (t₁, [] ++ covered) ∧ _ :=
      coveredCode_spec h hpos (Nat.lt_succ_self addr) []
    have h₁ : t₁.Ordered := by
      rw [Tree.Ordered, hent]
      exact h
    obtain ⟨h₂, hmem⟩ := removeAll_spec covered h₁
    refine ⟨_, by simp [deleteAllCoveredCode, hrun], h₂, fun x => ?_⟩
    rw [hmem, hent]
    refine and_congr_right fun hx => not_congr ?_
    rw [hcov x hx]
    constructor
    · rintro ⟨hxa, -, hxs, hsize, hbtw⟩
      refine ⟨hxs, hsize, fun y hy hlt => ?_⟩
      grind
    · rintro ⟨hxs, hsize, hbtw⟩
      grind

theorem mem_setValue (key : Nat) (value : CodeEntryInfo E) (x : Nat × CodeEntryInfo E) :
    x ∈ (t.setValue key value).entries ↔
      (x = (key, value) ∧ ∃ y ∈ t.entries, y.1 = key) ∨ (x ∈ t.entries ∧ x.1 ≠ key) := by
  rw [Tree.entries_setValue, List.mem_map]
  grind

/-- An insertion with the value written through its locator. -/
theorem insert_setValue_spec (key : Nat) (value : CodeEntryInfo E) (h : t.Ordered) :
    ((t.insert kNoValue key).1.setValue key value).Ordered ∧
      ∀ x, x ∈ ((t.insert kNoValue key).1.setValue key value).entries ↔
        x = (key, value) ∨ (x ∈ t.entries ∧ x.1 ≠ key) := by
  obtain ⟨hord, hcases⟩ := Tree.insert_spec kNoValue key h
  refine ⟨Tree.ordered_setValue key value hord, fun x => ?_⟩
  rcases hcases with ⟨-, -, -, hmem⟩ | ⟨-, hent, v, -, hold⟩
  · have hkey : ∃ y ∈ (t.insert kNoValue key).1.entries, y.1 = key := ⟨_, (hmem _).2 (.inl rfl), rfl⟩
    rw [mem_setValue, and_iff_left hkey, hmem]
    grind
  · have hkey : ∃ y ∈ (t.insert kNoValue key).1.entries, y.1 = key := ⟨_, hent ▸ hold, rfl⟩
    rw [mem_setValue, and_iff_left hkey, hent]

/-! ## The operations -/

variable {m : CodeMap E}

theorem addCode_spec (h : m.tree.Ordered) (hpos : ∀ x ∈ m.tree.entries, 0 < x.1) (addr : Nat)
    (entry : Option E) {size : Nat} (hsize : 0 < size) :
    ∃ m', m.addCode addr entry size = some m' ∧ m'.tree.Ordered ∧ m'.nextSharedId = m.nextSharedId ∧
      ∀ x, x ∈ m'.tree.entries ↔ x = (addr, ⟨entry, size⟩) ∨
        (x ∈ m.tree.entries ∧ ¬ Covered m.tree addr (addr + size) x ∧ x.1 ≠ addr) := by
  obtain ⟨t₁, hrun, h₁, hmem₁⟩ := deleteAllCoveredCode_spec h hpos (show addr < addr + size by omega)
  obtain ⟨h₂, hmem₂⟩ := insert_setValue_spec addr ⟨entry, size⟩ h₁
  refine ⟨{ m with tree := (t₁.insert kNoValue addr).1.setValue addr ⟨entry, size⟩ },
    by rw [addCode, hrun]; rfl, h₂, rfl, fun x => ?_⟩
  rw [hmem₂, hmem₁, and_assoc]

theorem getSharedId_spec (h : m.tree.Ordered) (addr : Nat) :
    (∀ id, (addr, ⟨none, id⟩) ∈ m.tree.entries → ∃ m', m.getSharedId addr = some (m', id) ∧
      m'.tree.entries = m.tree.entries ∧ m'.nextSharedId = m.nextSharedId) ∧
    ((∀ x ∈ m.tree.entries, x.1 ≠ addr) → m.nextSharedId < maxInt →
      ∃ m', m.getSharedId addr = some (m', m.nextSharedId) ∧ m'.tree.Ordered ∧
        m'.nextSharedId = m.nextSharedId + 1 ∧
        ∀ x, x ∈ m'.tree.entries ↔ x = (addr, ⟨none, m.nextSharedId⟩) ∨ x ∈ m.tree.entries) := by
  obtain ⟨hent, hsome, hnone⟩ := Tree.find_spec addr h
  unfold getSharedId
  generalize m.tree.find addr = r at hent hsome hnone ⊢
  obtain ⟨t₁, found⟩ := r
  constructor
  · intro id hid
    cases found with
    | none => exact absurd rfl (hnone rfl _ hid)
    | some found =>
      obtain ⟨hmem, hkey⟩ := hsome found rfl
      obtain rfl := h.eq_of_key hmem hid hkey
      grind
  · intro hnew hnext
    cases found with
    | some found =>
      grind
    | none =>
      have h₁ : t₁.Ordered := by
        simp_all [Tree.Ordered]
      obtain ⟨h₂, hmem₂⟩ := insert_setValue_spec addr ⟨none, m.nextSharedId⟩ h₁
      refine ⟨_, if_pos hnext, h₂, rfl, fun x => ?_⟩
      grind

/-- A move of an entry adds it again after it has been removed. -/
theorem moveCode_spec (h : m.tree.Ordered) {from_ to_ : Nat} (hne : from_ ≠ to_) :
    ((∀ x ∈ m.tree.entries, x.1 ≠ from_) → ∃ m', m.moveCode from_ to_ = some m' ∧
      m'.tree.entries = m.tree.entries ∧ m'.nextSharedId = m.nextSharedId) ∧
    ∀ info, (from_, info) ∈ m.tree.entries → ∃ m₁, m.moveCode from_ to_ = addCode m₁ to_ info.entry info.size ∧
      m₁.tree.Ordered ∧ m₁.nextSharedId = m.nextSharedId ∧
      ∀ x, x ∈ m₁.tree.entries ↔ x ∈ m.tree.entries ∧ x.1 ≠ from_ := by
  obtain ⟨hent, hsome, hnone⟩ := Tree.find_spec from_ h
  unfold moveCode
  rw [if_neg hne]
  generalize m.tree.find from_ = r at hent hsome hnone ⊢
  obtain ⟨t₁, found⟩ := r
  constructor
  · grind
  · intro info hinfo
    cases found with
    | none => exact absurd rfl (hnone rfl _ hinfo)
    | some found =>
      obtain ⟨hmem, hkey⟩ := hsome found rfl
      obtain rfl := h.eq_of_key hmem hinfo hkey
      have h₁ : t₁.Ordered := by
        simp_all [Tree.Ordered]
      obtain ⟨h₂, -, hmem₂⟩ := Tree.remove_spec from_ h₁
      refine ⟨{ m with tree := (t₁.remove from_).1 }, rfl, h₂, rfl, fun x => ?_⟩
      grind

theorem findEntry_spec (h : m.tree.Ordered) (addr : Nat) : (m.findEntry addr).1.tree.entries = m.tree.entries ∧
      (m.findEntry addr).1.nextSharedId = m.nextSharedId ∧
      ∀ e, (m.findEntry addr).2 = some e ↔ ∃ x ∈ m.tree.entries, x.2.entry = some e ∧ x.1 ≤ addr ∧
        addr < x.1 + x.2.size ∧ ∀ y ∈ m.tree.entries, y.1 ≤ addr → y.1 ≤ x.1 := by
  obtain ⟨hent, hsome, hnone⟩ := Tree.findGreatestLessThan_spec addr h
  unfold findEntry
  generalize m.tree.findGreatestLessThan addr = r at hent hsome hnone ⊢
  obtain ⟨t₁, found⟩ := r
  cases found with
  | none =>
    grind
  | some found =>
    obtain ⟨hmem, hle, hgreatest⟩ := hsome found rfl
    refine ⟨hent, rfl, fun e => ⟨fun he => ?_, ?_⟩⟩
    · grind
    · rintro ⟨x, hx, hentry, hxa, hlt, hxg⟩
      obtain rfl : x = found :=
        h.eq_of_key hx hmem (le_antisymm (hgreatest x hx hxa) (hxg found hmem hle))
      exact (if_pos hlt).trans hentry

end CodeMap

end W16.CodeMaps
